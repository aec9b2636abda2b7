/-
# TokenBlame.Proofs.Blame.Tiling -- hunks that have every line once

Hunks may come in any order (`Tiles`).  A blame puts their lines in the order of the file, so
if they have every line of it once, the blame has one line for each, with its number and its
text (`numbers_ofHunks`, `contexts_ofHunks`).
-/
import TokenBlame.Blame

set_option autoImplicit false

namespace TokenBlame.Blame

/-- The numbers, in the blamed file, of the lines of a hunk. -/
def Hunk.numbers (hunk : Hunk) : List Nat :=
  List.range' hunk.startNow hunk.count

/-- Hunks, in any order, that have each line of a file of `n` lines once and no other. -/
def Tiles (hunks : List Hunk) (n : Nat) : Prop :=
  (hunks.flatMap Hunk.numbers).Perm (List.range' 1 n)

instance (hunks : List Hunk) (n : Nat) : Decidable (Tiles hunks n) :=
  inferInstanceAs (Decidable (List.Perm _ _))

theorem Hunk.numbers_lines (file : List String) (hunk : Hunk) :
    (hunk.lines file).map (·.numberNow) = hunk.numbers := by
  rw [Hunk.lines, Hunk.numbers, List.map_map, List.range'_eq_map_range]
  rfl

theorem Hunk.context_of_mem {file : List String} {hunk : Hunk} {line : BlameLine}
    (member : line ∈ hunk.lines file) : line.context = file.getD (line.numberNow - 1) "" := by
  obtain ⟨i, -, rfl⟩ := List.mem_map.1 member
  rfl

variable {file : List String} {hunks : List Hunk} {n : Nat}

theorem mem_lines_ofHunks {line : BlameLine} :
    line ∈ (ofHunks file hunks).lines ↔ ∃ hunk ∈ hunks, line ∈ hunk.lines file := by
  rw [ofHunks, List.mem_mergeSort, List.mem_flatMap]

/-- The lines of a blame are numbered from one without a gap. -/
theorem numbers_ofHunks (file : List String) (tiles : Tiles hunks n) :
    (ofHunks file hunks).lines.map (·.numberNow) = List.range' 1 n := by
  have sorted : ((ofHunks file hunks).lines.map (·.numberNow)).Pairwise (· ≤ ·) := by
    have merged := @List.pairwise_mergeSort _ (fun a b : BlameLine => a.numberNow ≤ b.numberNow)
      (by simpa using fun a b c => Nat.le_trans) (by simpa using fun a b => Nat.le_total _ _)
      (hunks.flatMap (Hunk.lines file))
    exact List.pairwise_map.2 (merged.imp fun le => of_decide_eq_true le)
  have same : ((ofHunks file hunks).lines.map (·.numberNow)).Perm (hunks.flatMap Hunk.numbers) := by
    have perm := (List.mergeSort_perm (hunks.flatMap (Hunk.lines file))
      fun a b => a.numberNow ≤ b.numberNow).map (·.numberNow)
    rw [List.map_flatMap, funext (Hunk.numbers_lines file)] at perm
    exact perm
  exact (same.trans tiles).eq_of_pairwise (fun _ _ _ _ => Nat.le_antisymm) sorted
    (List.pairwise_le_range' 1)

theorem length_ofHunks (file : List String) (tiles : Tiles hunks n) :
    (ofHunks file hunks).lines.length = n := by
  have lengths := congrArg List.length (numbers_ofHunks file tiles)
  rwa [List.length_map, List.length_range'] at lengths

/-- The texts of a blame's lines are the lines of the file. -/
theorem contexts_ofHunks (file : List String) (tiles : Tiles hunks file.length) :
    (ofHunks file hunks).lines.map (·.context) = file := by
  have byNumber : ∀ line ∈ (ofHunks file hunks).lines,
      line.context = file.getD (line.numberNow - 1) "" := by
    intro line member
    obtain ⟨hunk, -, own⟩ := mem_lines_ofHunks.1 member
    exact Hunk.context_of_mem own
  rw [List.map_congr_left byNumber]
  have numbered := congrArg (List.map fun number => file.getD (number - 1) "")
    (numbers_ofHunks file tiles)
  rw [List.map_map] at numbered
  refine Eq.trans numbered (List.ext_getElem ?_ fun i _ inside => ?_)
  · rw [List.length_map, List.length_range']
  · rw [List.getElem_map, List.getElem_range', Nat.add_sub_cancel_left, Nat.one_mul,
      List.getD_eq_getElem?_getD, List.getElem?_eq_getElem inside]
    rfl

end TokenBlame.Blame
