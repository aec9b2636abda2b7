/-
# TokenBlame.Proofs.Mining -- chunks do not show in what is mined

Chunks put together are the list that was cut (`flatten_chunksOf`), so mining in chunks finds
what asking for one commit after the other finds (`mineInOrder_eq_ok_iff`).  For that not all
chunks have to finish: one that failed decides (`Decides`).
-/
import TokenBlame.Mining
import TokenBlame.Proofs.Results

set_option autoImplicit false

namespace TokenBlame

namespace Pieces

/-! ## Chunks -/

/-- Chunks put together are the list that was cut. -/
theorem flatten_chunksOf {α : Type} {size : Nat} (positive : 0 < size) (xs : List α) :
    (chunksOf size xs).flatten = xs := by
  have taken : ∀ n, ((List.range n).map fun i => (xs.drop (i * size)).take size).flatten =
      xs.take (n * size) := by
    intro n
    induction n with
    | zero => simp
    | succ n ih =>
        rw [List.range_succ, List.map_append, List.flatten_append, ih, List.map_singleton,
          List.flatten_singleton, Nat.succ_mul, List.take_add]
  unfold chunksOf
  rw [taken]
  apply List.take_of_length_le
  have whole := Nat.div_add_mod (xs.length + size - 1) size
  have small := Nat.mod_lt (xs.length + size - 1) positive
  rw [Nat.mul_comm] at whole
  omega

end Pieces

namespace Mining

/-! ## Mining -/

theorem failure?_eq_none {α : Type} {result : Except Error α} :
    failure? result = none ↔ ∃ value, result = .ok value := by
  cases result <;> simp [failure?]

/-- What has finished decides: if none of it failed, nothing fails. -/
def Decides {α : Type} (finished : List Nat) (results : List (Except Error α)) : Prop :=
  (∀ i ∈ finished, results[i]?.bind failure? = none) →
    ∀ result ∈ results, ∃ value, result = .ok value

/-- If all has finished, it decides. -/
theorem decides_of_all {α : Type} {finished : List Nat} {results : List (Except Error α)}
    (all : ∀ i < results.length, i ∈ finished) : Decides finished results := by
  intro none result member
  obtain ⟨i, here, same⟩ := List.mem_iff_getElem.1 member
  have own := none i (all i here)
  rw [List.getElem?_eq_getElem here, Option.bind_some, same] at own
  exact failure?_eq_none.1 own

section Gather

variable {α : Type} {finished : List Nat} {results : List (Except Error (List α))}

/-- Results are gathered exactly when all of them succeeded. -/
theorem gather_eq_ok_iff (decides : Decides finished results) {values : List α} :
    gather finished results = .ok values ↔
      ∃ parts : List (List α), results = parts.map .ok ∧ values = parts.flatten := by
  unfold gather
  constructor
  · intro gathered
    split at gathered
    · cases gathered
    · rename_i none
      have all := decides (List.findSome?_eq_none_iff.1 none)
      refine ⟨results.map fun result => result.toOption.getD [], ?_, ?_⟩
      · rw [List.map_map]
        conv => lhs; rw [← List.map_id results]
        apply List.map_congr_left
        intro result member
        obtain ⟨value, rfl⟩ := all result member
        rfl
      · cases gathered
        rw [List.flatMap_def]
  · rintro ⟨parts, rfl, rfl⟩
    have none : finished.findSome? (fun i => (parts.map Except.ok)[i]?.bind failure?) = none := by
      rw [List.findSome?_eq_none_iff]
      intro i _
      rw [List.getElem?_map]
      cases parts[i]? <;> rfl
    rw [none]
    dsimp only
    rw [List.flatMap_def, List.map_map]
    congr 2
    conv => rhs; rw [← List.map_id parts]
    rfl

/-- A failure that is found is that of something which finished. -/
theorem exists_of_gather_error {error : Error} (failed : gather finished results = .error error) :
    ∃ i ∈ finished, results[i]? = some (.error error) := by
  unfold gather at failed
  split at failed
  · rename_i found
    cases failed
    obtain ⟨i, member, own⟩ := List.exists_of_findSome?_eq_some found
    refine ⟨i, member, ?_⟩
    obtain ⟨result, here, isFailure⟩ := Option.bind_eq_some_iff.1 own
    cases result with
    | ok _ => cases isFailure
    | error error =>
        cases isFailure
        exact here
  · cases failed

/-- A failure decides. -/
theorem decides_of_error {error : Error} (failed : gather finished results = .error error) :
    Decides finished results := by
  obtain ⟨i, member, own⟩ := exists_of_gather_error failed
  intro none
  have passed := none i member
  rw [own] at passed
  cases passed

/-- Where what finished is the same, so is the failure that is found. -/
theorem gather_error_congr {others : List (Except Error (List α))}
    (same : ∀ i ∈ finished, results[i]? = others[i]?) {error : Error}
    (failed : gather finished results = .error error) : gather finished others = .error error := by
  have found : finished.findSome? (fun i => results[i]?.bind failure?) =
      finished.findSome? (fun i => others[i]?.bind failure?) := by
    clear failed
    induction finished with
    | nil => rfl
    | cons i finished ih =>
        rw [List.findSome?_cons, List.findSome?_cons, same i List.mem_cons_self,
          ih fun j member => same j (List.mem_cons_of_mem i member)]
  unfold gather at failed ⊢
  rw [← found]
  split at failed
  · exact failed
  · cases failed

end Gather

section Order

variable {source : RevisionSource} {ids : List String} {finished : List Nat}

/-- The results of the chunks, in their order. -/
def results (source : RevisionSource) (ids : List String) :
    List (Except Error (List SourceCommit)) :=
  (Pieces.chunksOf chunkSize ids).map (chunk source)

/-- All chunks of a list succeed when each element does. -/
theorem chunks_eq_ok_iff {pieces : List (List String)} {commits : List SourceCommit} :
    (∃ parts : List (List SourceCommit), pieces.map (chunk source) = parts.map .ok ∧
      commits = parts.flatten) ↔ pieces.flatten.mapM source.metadata = .ok commits := by
  rw [mapM_eq_ok_iff]
  induction pieces generalizing commits with
  | nil =>
      rw [List.flatten_nil, List.forall₂_nil_left_iff]
      constructor
      · rintro ⟨parts, same, rfl⟩
        rw [List.map_nil, eq_comm, List.map_eq_nil_iff] at same
        rw [same, List.flatten_nil]
      · rintro rfl
        exact ⟨[], rfl, rfl⟩
  | cons piece pieces ih =>
      rw [List.flatten_cons]
      constructor
      · rintro ⟨parts, same, rfl⟩
        cases parts with
        | nil => cases same
        | cons part parts =>
            obtain ⟨first, rest⟩ := List.cons_eq_cons.1 same
            rw [List.flatten_cons]
            exact List.rel_append (mapM_eq_ok_iff.1 first) (ih.1 ⟨parts, rest, rfl⟩)
      · intro all
        rw [← mapM_eq_ok_iff, List.mapM_append] at all
        cases first : piece.mapM source.metadata with
        | error error =>
            rw [first] at all
            cases all
        | ok part =>
            cases rest : pieces.flatten.mapM source.metadata with
            | error error =>
                rw [first, rest] at all
                cases all
            | ok others =>
                rw [first, rest] at all
                cases all
                obtain ⟨parts, same, rfl⟩ := ih.2 (mapM_eq_ok_iff.1 rest)
                exact ⟨part :: parts, List.cons_eq_cons.2 ⟨first, same⟩, rfl⟩

/-- **Mining in chunks** finds what asking for one commit after the other finds, in whatever
order the chunks finish. -/
theorem mineInOrder_eq_ok_iff (decides : Decides finished (results source ids))
    {commits : List SourceCommit} :
    mineInOrder finished source ids = .ok commits ↔ ids.mapM source.metadata = .ok commits := by
  rw [mineInOrder, ← results, gather_eq_ok_iff decides, results, chunks_eq_ok_iff,
    Pieces.flatten_chunksOf (by decide)]

/-- Mining that fails does so with the failure of one of the commits. -/
theorem exists_of_mineInOrder_error {error : Error}
    (failed : mineInOrder finished source ids = .error error) :
    ∃ id ∈ ids, source.metadata id = .error error := by
  obtain ⟨i, -, own⟩ := exists_of_gather_error failed
  rw [List.getElem?_map, Option.map_eq_some_iff] at own
  obtain ⟨piece, here, own⟩ := own
  obtain ⟨front, -, id, back, rfl, -, own⟩ := mapM_eq_error_iff.1 own
  refine ⟨id, ?_, own⟩
  have whole := Pieces.flatten_chunksOf (show 0 < chunkSize by decide) ids
  exact whole ▸ List.mem_flatten.2 ⟨_, List.mem_of_getElem? here, by simp⟩

theorem mine_eq_ok_iff {commits : List SourceCommit} :
    mine source ids = .ok commits ↔ ids.mapM source.metadata = .ok commits := by
  apply mineInOrder_eq_ok_iff
  apply decides_of_all
  intro i here
  rw [results, List.length_map] at here
  exact List.mem_range.2 here

end Order

end Mining

end TokenBlame
