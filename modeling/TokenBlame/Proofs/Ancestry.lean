/-
# TokenBlame.Proofs.Ancestry -- source commits and what they lead back to

The commits of a source are a graph: each has parents, and leads back to what these lead
back to (`Ancestry.Reaches`).  A source follows such a graph (`Follows`) when it lists, in an
order that has ancestors first, the commits that the end of a range leads back to, without
merges and without what the start of the range hides.

Commits that are replayed, newest first, are closed (`Ancestry.Closed`) when behind each of
them stands all that it leads back to, as far as it is replayed at all.  They stay closed
when a front of what is missing is put in front of them (`Closed.extend`).
-/
import TokenBlame.RevisionSource
import Mathlib.Data.List.Induction
import Mathlib.Data.List.Nodup
import Mathlib.Logic.Relation

set_option autoImplicit false

namespace TokenBlame

/-- The graph of the commits of a source. -/
structure Ancestry where
  /-- The parents of a commit. -/
  parents : String → List String
  /-- The commit that a revision names. -/
  named? : String → Option String

namespace Ancestry

variable (ancestry : Ancestry)

/-- A commit leads back to itself, to its parents and to what these lead back to. -/
def Reaches : String → String → Prop :=
  Relation.ReflTransGen fun child parent => parent ∈ ancestry.parents child

/-- A commit has several parents. -/
def IsMerge (id : String) : Prop :=
  1 < (ancestry.parents id).length

/-- The commits that a range end leads back to, merges aside. -/
def UpTo (stop id : String) : Prop :=
  ∃ tip, ancestry.named? stop = some tip ∧ ancestry.Reaches tip id ∧ ¬ ancestry.IsMerge id

/-- The commits that the start of a range hides. -/
def Hides : RangeStart → String → Prop
  | .root, _ => False
  | .including revision, id => ∃ first, ancestry.named? revision = some first ∧
      ∃ parent ∈ ancestry.parents first, ancestry.Reaches parent id
  | .after revision, id => ∃ last, ancestry.named? revision = some last ∧ ancestry.Reaches last id

/-- Commits of which none leads back to a later one: ancestors come first, and none comes
twice. -/
def Ascending (ids : List String) : Prop :=
  ids.Pairwise fun earlier later => ¬ ancestry.Reaches earlier later

/-- Commits, newest first, each with all behind it that it leads back to, except merges and
what the start of a range hides. -/
def Closed (start : RangeStart) : List String → Prop
  | [] => True
  | id :: back =>
      (∀ other, ancestry.Reaches id other → other ≠ id → ¬ ancestry.IsMerge other →
        ¬ ancestry.Hides start other → other ∈ back) ∧ Closed start back

end Ancestry

/-- A source that lists, in every range, the commits of a graph that belong there. -/
structure Follows (source : RevisionSource) (ancestry : Ancestry) : Prop where
  listed : ∀ range ids, source.list range = .ok ids → ∀ id,
    id ∈ ids ↔ ancestry.UpTo range.stop id ∧ ¬ ancestry.Hides range.start id
  ascending : ∀ range ids, source.list range = .ok ids → ancestry.Ascending ids
  named : ∀ range ids, source.list range = .ok ids → ∀ id ∈ ids, ancestry.named? id = some id

namespace Ancestry

variable {ancestry : Ancestry} {start : RangeStart} {front back ids : List String}

/-- Nothing is hidden from the root on. -/
theorem shown_root (id : String) : ¬ ancestry.Hides .root id :=
  fun hidden => hidden

theorem Ascending.nodup (ascending : ancestry.Ascending ids) : ids.Nodup := by
  refine List.Pairwise.imp ?_ ascending
  rintro id _ apart rfl
  exact apart Relation.ReflTransGen.refl

theorem Closed.behind (closed : ancestry.Closed start (front ++ back)) :
    ancestry.Closed start back := by
  induction front with
  | nil => exact closed
  | cons id front ih => exact ih closed.2

/-- What a commit leads back to is there with it. -/
theorem Closed.mem (closed : ancestry.Closed start back) {id other : String} (member : id ∈ back)
    (reaches : ancestry.Reaches id other) (single : ¬ ancestry.IsMerge other)
    (shown : ¬ ancestry.Hides start other) : other ∈ back := by
  obtain ⟨before, behind, rfl⟩ := List.append_of_mem member
  by_cases same : other = id
  · rw [same]
    exact member
  · exact List.mem_append_right _
      (List.mem_cons_of_mem _ (closed.behind.1 other reaches same single shown))

/-- **Closed commits stay closed** when commits are put in front of them that begin a list of
all that is missing, ancestors first. -/
theorem Closed.extend (closed : ancestry.Closed start back) {rest : List String}
    (ascending : ancestry.Ascending (front ++ rest))
    (all : ∀ id ∈ front ++ rest, ∀ other, ancestry.Reaches id other → ¬ ancestry.IsMerge other →
      ¬ ancestry.Hides start other → other ∈ back ∨ other ∈ front ++ rest) :
    ancestry.Closed start (front.reverse ++ back) := by
  induction front using List.reverseRecOn generalizing rest with
  | nil => exact closed
  | append_singleton front id ih =>
      rw [List.append_assoc] at ascending all
      rw [List.reverse_concat, List.cons_append]
      refine ⟨?_, ih ascending all⟩
      intro other reaches different single shown
      rcases all id (by simp) other reaches single shown with before | missing
      · exact List.mem_append_right _ before
      · rcases List.mem_append.1 missing with earlier | later
        · exact List.mem_append_left _ (List.mem_reverse.2 earlier)
        · -- an ancestor does not come later
          rcases List.mem_cons.1 later with same | later
          · exact absurd same different
          · have apart := (List.pairwise_append.1 ascending).2.1
            exact absurd reaches (List.rel_of_pairwise_cons apart later)

end Ancestry

end TokenBlame
