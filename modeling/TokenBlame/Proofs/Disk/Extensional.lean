/-
# TokenBlame.Proofs.Disk.Extensional -- disks on which the same is seen

Two disks look the same (`SameLooks`) when at each place the same is seen.  What is put into
both at one place leaves them so (`SameLooks.put`), and if their directories keep the order
of their names they are one disk (`SameLooks.eq`).  So do disks whose working trees hold one
snapshot, if what is around these was spared (`Holds.sameLooks`).
-/
import TokenBlame.Proofs.Disk.Beneath

set_option autoImplicit false

namespace TokenBlame.Disk

open Git

/-- The same is seen at each place. -/
def SameLooks (a b : Node) : Prop :=
  ∀ place, look a place = look b place

section SameLooks

variable {a b c : Node}

theorem SameLooks.refl (a : Node) : SameLooks a a := fun _ => rfl

theorem SameLooks.trans (first : SameLooks a b) (second : SameLooks b c) : SameLooks a c :=
  fun place => (first place).trans (second place)

/-- In both there is an entry of a name, and these look the same, or there is none. -/
theorem SameLooks.lookup (same : SameLooks a b) (name : Name) :
    (Table.lookup name a.entries = none ∧ Table.lookup name b.entries = none) ∨
      ∃ inner other, Table.lookup name a.entries = some inner ∧
        Table.lookup name b.entries = some other ∧ SameLooks inner other := by
  have looks := fun rest => same (name :: rest)
  simp only [look_cons] at looks
  cases left : Table.lookup name a.entries with
  | none =>
      cases right : Table.lookup name b.entries with
      | none => exact Or.inl ⟨rfl, rfl⟩
      | some other =>
          rw [left, right] at looks
          cases looks []
  | some inner =>
      cases right : Table.lookup name b.entries with
      | none =>
          rw [left, right] at looks
          cases looks []
      | some other =>
          rw [left, right] at looks
          exact Or.inr ⟨inner, other, rfl, rfl, looks⟩

/-- What is seen of both is the same. -/
theorem SameLooks.seen (same : SameLooks a b) : a.seen = b.seen :=
  Option.some.inj (same [])

/-- **Putting** the same at a place of both leaves them alike. -/
theorem SameLooks.put (same : SameLooks a b) (place : TreePath) (item : Node) :
    SameLooks (a.put place item) (b.put place item) := by
  induction place generalizing a b with
  | nil => exact .refl item
  | cons name rest ih =>
      cases a with
      | directory entries =>
          obtain ⟨others, rfl⟩ := seen_eq_directory.1 same.seen.symm
          have inner : SameLooks ((Table.lookup name entries).getD .vacant)
              ((Table.lookup name others).getD .vacant) := by
            have own := same.lookup name
            rw [Node.entries, Node.entries] at own
            rcases own with ⟨left, right⟩ | ⟨inner, other, left, right, alike⟩
            · rw [left, right]
              exact .refl _
            · rw [left, right]
              exact alike
          intro path
          cases path with
          | nil => rfl
          | cons head tail =>
              rw [Node.put, Node.put, look_cons, look_cons, Node.entries, Node.entries]
              by_cases here : name = head
              · rw [← here, lookup_insertEntry_self, lookup_insertEntry_self]
                exact ih inner tail
              · rw [lookup_insertEntry_ne here, lookup_insertEntry_ne here]
                have looks := same (head :: tail)
                rwa [look_cons, look_cons] at looks
      | file content executable =>
          cases b with
          | directory entries => cases same.seen
          | file content' executable' => exact same
          | link target => cases same.seen
      | link target =>
          cases b with
          | directory entries => cases same.seen
          | file content executable => cases same.seen
          | link target' => exact same

theorem SameLooks.fill (same : SameLooks a b) (place : TreePath) (content : Bytes)
    (executable : Bool) :
    SameLooks (Disk.fill a place content executable) (Disk.fill b place content executable) := by
  rw [fill_eq, fill_eq, same place]
  exact same.put place _

/-- A file that is written as it is leaves what is seen. -/
theorem sameLooks_fill {place : TreePath} {content : Bytes} {kept : Bool}
    (there : look a place = some (.entry (.file content kept))) (executable : Bool) :
    SameLooks (Disk.fill a place content executable) a := by
  intro path
  have seen : (Node.file content kept).seen = .entry (.file content kept) := rfl
  rw [fill_eq, there, look_put (Open.of_look there)]
  show (if place <+: path then look (.file content kept) (path.drop place.length) else _) = _
  split
  · rename_i below
    obtain ⟨rest, rfl⟩ := below
    rw [List.drop_left, look_entry seen]
    split
    · rename_i here
      rw [here, List.append_nil, there]
    · rename_i deeper
      rw [look_below (by rw [there]; simp) (List.prefix_append _ _) (by simpa using deeper)]
  · rename_i notBelow
    split
    · rename_i above
      exact (look_leading above (fun same => notBelow (same ▸ List.prefix_refl _)) there).symm
    · rfl

/-- **Ordered disks** on which the same is seen are equal. -/
theorem SameLooks.eq {a b : Node} (same : SameLooks a b) (left : Ordered a [])
    (right : Ordered b []) : a = b := by
  cases shape : a with
  | directory entries =>
      subst shape
      obtain ⟨others, rfl⟩ := seen_eq_directory.1 same.seen.symm
      obtain ⟨increasing, inner⟩ := ordered_directory.1 left
      obtain ⟨increasing', inner'⟩ := ordered_directory.1 right
      have tables : (⟨entries, increasing⟩ : Table Name Node) = ⟨others, increasing'⟩ := by
        apply Table.ext_get?
        intro name
        show Table.lookup name entries = Table.lookup name others
        have own := same.lookup name
        rw [Node.entries, Node.entries] at own
        rcases own with ⟨left, right⟩ | ⟨own, other, found, found', alike⟩
        · rw [left, right]
        · have smaller := @sizeOf_entry (.directory entries) (name, own)
            ((Table.lookup_eq_some_iff increasing).1 found)
          rw [found, found', SameLooks.eq alike (inner name own found) (inner' name other found')]
      exact congrArg Node.directory (congrArg Table.entries tables)
  | file content executable =>
      subst shape
      have seen := same.seen
      cases b with
      | directory entries => cases seen
      | file content' executable' =>
          cases seen
          rfl
      | link target => cases seen
  | link target =>
      subst shape
      have seen := same.seen
      cases b with
      | directory entries => cases seen
      | file content executable => cases seen
      | link target' =>
          cases seen
          rfl
termination_by sizeOf a

end SameLooks

/-- **Working trees** that hold one snapshot look the same, with all that is around them, if the
one came from a disk that the other spares. -/
theorem Holds.sameLooks {disk next : Disk} {top : TreePath} {tree : Snapshot}
    (holds : Holds disk top tree) (also : Holds next top tree)
    (spares : Spares disk next top) : SameLooks next disk := by
  intro place
  by_cases inside : ∃ path, path ≠ [] ∧ path.head? ≠ some TreePath.gitDirectory ∧
      place = top ++ path
  · obtain ⟨path, nonempty, outside, rfl⟩ := inside
    rw [also.seen path nonempty outside, holds.seen path nonempty outside]
  · exact spares place fun path nonempty outside same => inside ⟨path, nonempty, outside, same⟩

end TokenBlame.Disk
