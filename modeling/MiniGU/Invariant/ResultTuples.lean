import MiniGU.Invariant.RowTables

/-!
# The tuples of a result set

A flat chunk stands for the row at its cursor, an unflat one for the rows that its filter keeps. A
tuple takes one of them from each chunk of a result set, which stands for each of its tuples
`factor` times.
-/

namespace MiniGU

variable {Ty Val : Type}

/-- The rows that a chunk stands for. -/
def DataChunk.places (c : DataChunk Ty Val) : List Nat :=
  match c.curIdx with
  | some i => [i]
  | none => c.keptRows

namespace ResultSet

/-- The tuples, each the rows that it takes from the chunks. -/
def tuples (rs : ResultSet Ty Val) : List (List Nat) :=
  (List.replicate rs.factor ()).flatMap fun _ => picks (rs.dataChunks.map DataChunk.places)

/-- The values of a tuple, chunk by chunk. -/
def rowsAt (rs : ResultSet Ty Val) (t : List Nat) : List (List Val) :=
  List.zipWith DataChunk.rowAt rs.dataChunks t

/-- The tuples as values. -/
def tupleRows (rs : ResultSet Ty Val) : List (List (List Val)) := rs.tuples.map rs.rowsAt

end ResultSet

/-- The values of the rows that a chunk stands for. -/
def DataChunk.standsFor (c : DataChunk Ty Val) : List (List Val) := c.places.map c.rowAt

theorem picks_standsFor (cs : List (DataChunk Ty Val)) :
    (picks (cs.map DataChunk.places)).map (List.zipWith DataChunk.rowAt cs) =
      picks (cs.map DataChunk.standsFor) := by
  induction cs with
  | nil => rfl
  | cons c cs ih =>
    simp only [List.map_cons, picks, List.map_flatMap, List.map_map, ← ih, DataChunk.standsFor,
      List.flatMap_map]
    rfl

theorem tupleRows_eq (rs : ResultSet Ty Val) :
    rs.tupleRows = (List.replicate rs.factor ()).flatMap fun _ =>
      picks (rs.dataChunks.map DataChunk.standsFor) := by
  unfold ResultSet.tupleRows ResultSet.tuples
  rw [List.map_flatMap]
  exact List.flatMap_congr fun _ _ => picks_standsFor rs.dataChunks

theorem length_tuples_eq (rs : ResultSet Ty Val) :
    rs.tuples.length = rs.factor * (rs.dataChunks.map fun c => c.places.length).prod := by
  unfold ResultSet.tuples
  rw [List.length_flatMap, List.map_const', List.length_replicate, List.sum_replicate_nat,
    length_picks, List.map_map]
  rfl

theorem length_places {c : DataChunk Ty Val} (hc : c.WellFormed) :
    c.places.length = if c.isUnflat then c.cardinality else 1 := by
  unfold DataChunk.places DataChunk.isUnflat
  cases c.curIdx with
  | some i => rfl
  | none =>
    unfold DataChunk.keptRows DataChunk.cardinality
    cases hFilter : c.filter with
    | none => simp
    | some f =>
      have hBits : (List.range c.len).map (fun i => f[i]?.getD false) = f := by
        rw [← hc.filter f hFilter]
        refine List.ext_getElem (by simp) fun i hi _ => ?_
        rw [List.length_map, List.length_range] at hi
        simp [hi]
      have hCount := congrArg (List.count true) hBits
      rw [List.count_eq_countP, List.countP_map, List.countP_eq_length_filter] at hCount
      simpa [Function.comp_def] using hCount

/-! ## Counts -/

section Counts

variable {rs : ResultSet Ty Val}

/-- The number of rows that the chunk at a position stands for. -/
def ResultSet.placeCount (rs : ResultSet Ty Val) (i : Nat) : Nat :=
  ((rs.getDataChunk i).map fun c => c.places.length).getD 1

theorem foldl_cardinality (hrs : rs.WellFormed) (positions : List Nat) {n : Nat} (hn : n < 2 ^ 64) :
    positions.foldl (fun numTuples pos => match rs.dataChunks[pos]? with
      | some c => if c.isUnflat then numTuples * c.cardinality % 2 ^ 64 else numTuples
      | none => numTuples) n = n * (positions.map rs.placeCount).prod % 2 ^ 64 := by
  induction positions generalizing n with
  | nil =>
    rw [List.map_nil, List.prod_nil, Nat.mul_one, Nat.mod_eq_of_lt hn]
    rfl
  | cons pos positions ih =>
    rw [List.foldl_cons, List.map_cons, List.prod_cons, ResultSet.placeCount,
      ResultSet.getDataChunk]
    cases hPos : rs.dataChunks[pos]? with
    | none => simp only [ih hn, Option.map_none, Option.getD_none, Nat.one_mul]
    | some c =>
      have hPlaces := length_places (hrs c (List.mem_of_getElem? hPos))
      simp only [Option.map_some, Option.getD_some, hPlaces]
      split
      · rw [ih (Nat.mod_lt _ (by decide)), Nat.mod_mul_mod, Nat.mul_assoc]
      · rw [ih hn, Nat.one_mul]

/-- A count is that of the tuples, without the factor, at 64 bits. -/
theorem numTuplesWithoutFactorU64_eq (hrs : rs.WellFormed) {positions : List Nat}
    (hNe : positions ≠ []) : rs.numTuplesWithoutFactorU64 positions =
      some ((positions.map rs.placeCount).prod % 2 ^ 64) := by
  have hCount := foldl_cardinality hrs positions (n := 1) (by decide)
  rw [Nat.one_mul] at hCount
  unfold ResultSet.numTuplesWithoutFactorU64
  rw [if_neg hNe]
  exact congrArg some hCount

theorem map_placeCount_all (rs : ResultSet Ty Val) :
    rs.allChunks.map rs.placeCount = rs.dataChunks.map fun c => c.places.length := by
  unfold ResultSet.allChunks
  refine List.ext_getElem (by simp) fun i hi _ => ?_
  rw [List.length_map, List.length_range] at hi
  simp [ResultSet.placeCount, ResultSet.getDataChunk, hi]

theorem numTuplesWithoutFactorU64_all (hrs : rs.WellFormed) (hNe : rs.dataChunks ≠ []) :
    rs.numTuplesWithoutFactorU64 rs.allChunks =
      some ((rs.dataChunks.map fun c => c.places.length).prod % 2 ^ 64) := by
  have hAll : rs.allChunks ≠ [] := by
    unfold ResultSet.allChunks
    rwa [Ne, List.range_eq_nil, List.length_eq_zero_iff]
  rw [numTuplesWithoutFactorU64_eq hrs hAll, map_placeCount_all]

theorem numTuplesU64_all (hrs : rs.WellFormed) (hNe : rs.dataChunks ≠ []) :
    rs.numTuplesU64 rs.allChunks = some (rs.tuples.length % 2 ^ 64) := by
  unfold ResultSet.numTuplesU64
  rw [numTuplesWithoutFactorU64_all hrs hNe, length_tuples_eq, Nat.mul_comm rs.factor, Option.map_some,
    Nat.mod_mul_mod]

theorem numTuplesU64_nil (hNil : rs.dataChunks = []) : rs.numTuplesU64 rs.allChunks = none := by
  unfold ResultSet.numTuplesU64 ResultSet.numTuplesWithoutFactorU64 ResultSet.allChunks
  rw [hNil]
  rfl

/-- The row that a tuple takes from each chunk. -/
def rowIn (t : List Nat) (c : Nat) : Nat := t.getD c 0

theorem rowIn_mem {t : List Nat} (ht : t ∈ rs.tuples) {c : Nat} {chunk : DataChunk Ty Val}
    (hc : rs.getDataChunk c = some chunk) : rowIn t c ∈ chunk.places := by
  obtain ⟨_, -, hPick⟩ := List.mem_flatMap.mp ht
  obtain ⟨hLength, hAll⟩ := List.forall₂_iff_get.mp (mem_picks.mp hPick)
  obtain ⟨hBound, rfl⟩ := List.getElem?_eq_some_iff.mp hc
  have hRow : c < t.length := by rwa [hLength, List.length_map]
  have hMem := hAll c hRow (by rwa [List.length_map])
  simpa [rowIn, hRow] using hMem

/-- How many tuples there are for a choice of rows from some chunks. -/
def ResultSet.numOthers (rs : ResultSet Ty Val) (is : List Nat) : Nat :=
  rs.factor * ((rs.allChunks.filter fun i => i ∉ is).map rs.placeCount).prod

/-- The rows that the tuples take from some chunks: each choice of them as often as there are
choices from the others. -/
theorem perm_tuples_of_chunks {is : List Nat} (hNodup : is.Nodup)
    (hBound : ∀ c ∈ is, c < rs.dataChunks.length) :
    (rs.tuples.map fun t => is.map (rowIn t)).Perm
      ((picks (is.map fun c => (rs.dataChunks.map DataChunk.places).getD c [])).flatMap fun p =>
        List.replicate (rs.numOthers is) p) := by
  let ls := rs.dataChunks.map DataChunk.places
  let rest := rs.allChunks.filter fun c => c ∉ is
  have hRest : ∀ c ∈ rest, c < ls.length := fun c hc => by
    rw [List.length_map]
    exact List.mem_range.mp (List.mem_filter.mp hc).1
  have hPerm : (is ++ rest).Perm (List.range ls.length) := by
    refine (List.perm_ext_iff_of_nodup ?_ List.nodup_range).mpr fun c => ?_
    · refine List.Nodup.append hNodup (List.nodup_range.filter _) fun c hc hMem => ?_
      have hNot := (List.mem_filter.mp hMem).2
      simp only [decide_not, Bool.not_eq_true', decide_eq_false_iff_not] at hNot
      exact hNot hc
    · have hRange : c ∈ is → c < ls.length := fun hc => by
        rw [List.length_map]
        exact hBound c hc
      have hLs : c < ls.length ↔ c < rs.dataChunks.length := by rw [List.length_map]
      simp only [rest, ResultSet.allChunks, List.mem_append, List.mem_filter, List.mem_range,
        decide_not, Bool.not_eq_true', decide_eq_false_iff_not]
      tauto
  have hOthers : (picks (rest.map fun c => ls.getD c [])).length =
      (rest.map rs.placeCount).prod := by
    rw [length_picks, List.map_map]
    refine congrArg List.prod (List.map_congr_left fun c hc => ?_)
    have hBound : c < rs.dataChunks.length := List.length_map DataChunk.places ▸ hRest c hc
    simp [ls, ResultSet.placeCount, ResultSet.getDataChunk, hBound]
  have hReindex := (perm_picks_reindex ls 0 hPerm).map (List.take is.length)
  have hTaken : ∀ p : List Nat, ((is ++ rest).map fun c => p.getD c 0).take is.length =
      is.map (rowIn p) := by
    intro p
    rw [List.map_append, List.take_left' (List.length_map ..)]
    rfl
  rw [List.map_map, Function.comp_def] at hReindex
  simp only [hTaken] at hReindex
  rw [List.map_append, picks_append, List.map_flatMap] at hReindex
  have hCopies : ∀ p ∈ picks (is.map fun c => ls.getD c []),
      ((picks (rest.map fun c => ls.getD c [])).map fun q => p ++ q).map (List.take is.length) =
        List.replicate (picks (rest.map fun c => ls.getD c [])).length p := by
    intro p hp
    have hLength : p.length = is.length := by rw [length_of_mem_picks hp, List.length_map]
    rw [List.map_map, Function.comp_def]
    simp only [List.take_left' hLength]
    exact List.map_const' ..
  rw [List.flatMap_congr hCopies] at hReindex
  have hOnce := List.Perm.flatMap_left (List.replicate rs.factor ()) fun _ _ => hReindex
  have hTuples : (rs.tuples.map fun t => is.map (rowIn t)) =
      (List.replicate rs.factor ()).flatMap fun _ => (picks ls).map fun p => is.map (rowIn p) := by
    unfold ResultSet.tuples
    rw [List.map_flatMap]
  rw [hTuples]
  refine hOnce.trans ((flatMap_comm_perm _ _ _).trans (List.Perm.of_eq ?_))
  refine List.flatMap_congr fun p _ => ?_
  rw [ResultSet.numOthers, ← hOthers]
  simp [List.flatMap_replicate, List.flatten_replicate_replicate]

end Counts

end MiniGU
