/-
# TokenBlame.Proofs.Checkout.Planning -- what a plan does about each file

Whatever stands in a working tree, a plan has one step for each entry, and it does something
about every file that it is shown: it removes the file, it removes it to make room for an
entry that lies inside its path, or a step for an entry of its path has met it
(`Plans.leaf`).  It is not needed for this that entries and items come in one order.  A step
that writes nothing has met the file that its entry asks for (`Plans.met`), and that file is
not removed (`Plans.kept`).
-/
import TokenBlame.Checkout.Apply
import Mathlib.Data.List.Nodup

set_option autoImplicit false

namespace TokenBlame.Checkout

open Git

/-- A step that met an item at the path of its entry. -/
def Step.Meets (step : Step) (item : Item) : Prop :=
  item.isDirectory = false ∧ item.path = step.path ∧ step = .onto step.path step.entry item

/-- What a plan does about entries and about items. -/
structure Plans (entries : List (TreePath × Entry)) (items : List Item) (plan : Plan) : Prop where
  steps : plan.steps.map (fun step => (step.path, step.entry)) = entries
  /-- A file is removed, makes room for an entry inside its path, or was met. -/
  leaf : ∀ item ∈ items, item.isDirectory = false →
    item.path ∈ plan.removals ∨
      (∃ step ∈ plan.steps, step.remove = true ∧ TreePath.isInside item.path step.path = true) ∨
      ∃ step ∈ plan.steps, step.Meets item
  /-- A step that writes nothing has met an item. -/
  met : ∀ step ∈ plan.steps, step.write = true ∨ ∃ item ∈ items, step.Meets item
  removed : ∀ path ∈ plan.removals, ∃ item ∈ items, item.isDirectory = false ∧ item.path = path
  /-- What a step has met is not removed as something that no entry meets. -/
  kept : ∀ path ∈ plan.removals, ∀ step ∈ plan.steps, step.path = path → step.write = true

section Plans

variable {index : Snapshot} {path : TreePath} {entry : Entry} {items : List Item}

/-- What a step for an entry does about the items, and those that it leaves: none, or the
first one, which was in the way or was met. -/
structure Treats (path : TreePath) (entry : Entry) (items : List Item) (step : Step)
    (left : List Item) : Prop where
  ownPath : step.path = path
  ownEntry : step.entry = entry
  outcome : (left = items ∧ step.write = true) ∨
    ∃ item, items = item :: left ∧
      ((blocks item path = true ∧ step.remove = true ∧ step.write = true) ∨ step.Meets item)

theorem Treats.sublist {step : Step} {left : List Item} (treats : Treats path entry items step left) :
    left.Sublist items := by
  rcases treats.outcome with ⟨rfl, -⟩ | ⟨item, rfl, -⟩
  · exact List.Sublist.refl _
  · exact List.sublist_cons_self _ _

theorem Treats.met {step : Step} {left : List Item} (treats : Treats path entry items step left) :
    step.write = true ∨ ∃ item, items = item :: left ∧ step.Meets item := by
  rcases treats.outcome with ⟨-, write⟩ | ⟨item, whole, ⟨-, -, write⟩ | meets⟩
  · exact Or.inl write
  · exact Or.inl write
  · exact Or.inr ⟨item, whole, meets⟩

theorem treats_meet (path : TreePath) (entry : Entry) (items : List Item) :
    Treats path entry items (meet path entry items).1 (meet path entry items).2 := by
  cases items with
  | nil => exact ⟨rfl, rfl, Or.inl ⟨rfl, rfl⟩⟩
  | cons item rest =>
      rw [meet]
      by_cases way : blocks item path = true
      · rw [if_pos way]
        exact ⟨rfl, rfl, Or.inr ⟨item, rfl, Or.inl ⟨way, rfl, rfl⟩⟩⟩
      rw [if_neg way]
      by_cases same : item.path = path
      · rw [if_pos same]
        by_cases directory : item.isDirectory = true
        · rw [if_pos directory]
          exact ⟨rfl, rfl, Or.inl ⟨rfl, rfl⟩⟩
        · rw [if_neg directory]
          have own : (Step.onto path entry item).path = path ∧
              (Step.onto path entry item).entry = entry := by
            unfold Step.onto
            split
            · exact ⟨rfl, rfl⟩
            · split <;> exact ⟨rfl, rfl⟩
          refine ⟨own.1, own.2, Or.inr ⟨item, rfl, Or.inr ⟨by simpa using directory, ?_, ?_⟩⟩⟩
          · rw [own.1, same]
          · dsimp only
            rw [own.1, own.2]
      · rw [if_neg same]
        exact ⟨rfl, rfl, Or.inl ⟨rfl, rfl⟩⟩

/-- A file that is blocked stands inside the path of what blocks it. -/
theorem of_blocks {item : Item} (way : blocks item path = true) :
    item.isDirectory = false ∧ TreePath.isInside item.path path = true := by
  simpa [blocks] using way

/-- An item is left, it makes room for the entry, or it was met. -/
theorem Treats.about {step : Step} {left : List Item} (treats : Treats path entry items step left)
    {item : Item} (member : item ∈ items) :
    item ∈ left ∨ (step.remove = true ∧ TreePath.isInside item.path step.path = true) ∨
      step.Meets item := by
  rcases treats.outcome with ⟨rfl, -⟩ | ⟨first, rfl, outcome⟩
  · exact Or.inl member
  rcases List.mem_cons.1 member with rfl | further
  · rcases outcome with ⟨way, remove, -⟩ | meets
    · exact Or.inr (Or.inl ⟨remove, treats.ownPath ▸ (of_blocks way).2⟩)
    · exact Or.inr (Or.inr meets)
  · exact Or.inl further

theorem mem_unmet {path : TreePath} : path ∈ unmet index items ↔
    ∃ item ∈ items, item.isDirectory = false ∧ index.contains item.path = true ∧
      item.path = path := by
  unfold unmet
  simp [and_assoc]

/-- The plan with one more entry in front: the items that were passed on the way to it are
removed, and it is dealt with before the entries behind it. -/
theorem Plans.cons {rest : List (TreePath × Entry)} {passed behind left : List Item}
    {removals : List TreePath} {step : Step} {later : Plan}
    (distinct : ((passed ++ behind).map Item.path).Nodup)
    (removals_iff : ∀ path, path ∈ removals ↔
      ∃ item ∈ passed, item.isDirectory = false ∧ item.path = path)
    (treats : Treats path entry behind step left) (plans : Plans rest left later) :
    Plans ((path, entry) :: rest) (passed ++ behind)
      { steps := step :: later.steps, removals := removals ++ later.removals } := by
  have sub := treats.sublist
  refine ⟨?steps, ?leaf, ?met, ?removed, ?kept⟩
  case steps => rw [List.map_cons, treats.ownPath, treats.ownEntry, plans.steps]
  case leaf =>
    intro item member leaf
    rcases List.mem_append.1 member with before | inside
    · exact Or.inl (List.mem_append_left _ ((removals_iff _).2 ⟨item, before, leaf, rfl⟩))
    rcases treats.about inside with further | room | meets
    · rcases plans.leaf item further leaf with gone | ⟨other, there, room⟩ | ⟨other, there, meets⟩
      · exact Or.inl (List.mem_append_right _ gone)
      · exact Or.inr (Or.inl ⟨other, List.mem_cons_of_mem _ there, room⟩)
      · exact Or.inr (Or.inr ⟨other, List.mem_cons_of_mem _ there, meets⟩)
    · exact Or.inr (Or.inl ⟨step, List.mem_cons_self, room⟩)
    · exact Or.inr (Or.inr ⟨step, List.mem_cons_self, meets⟩)
  case met =>
    intro other member
    rcases List.mem_cons.1 member with rfl | further
    · refine treats.met.imp_right ?_
      rintro ⟨first, rfl, meets⟩
      exact ⟨first, List.mem_append_right _ List.mem_cons_self, meets⟩
    · refine (plans.met other further).imp_right ?_
      rintro ⟨item, inside, meets⟩
      exact ⟨item, List.mem_append_right _ (sub.subset inside), meets⟩
  case removed =>
    intro gone member
    rcases List.mem_append.1 member with before | later
    · obtain ⟨item, inside, leaf, same⟩ := (removals_iff _).1 before
      exact ⟨item, List.mem_append_left _ inside, leaf, same⟩
    · obtain ⟨item, inside, leaf, same⟩ := plans.removed gone later
      exact ⟨item, List.mem_append_right _ (sub.subset inside), leaf, same⟩
  case kept =>
    -- the item that a step has met is the only one of its path, and it is not removed
    intro gone member other there at_
    rcases List.mem_cons.1 there with rfl | further
    · rcases treats.met with write | ⟨first, rfl, meets⟩
      · exact write
      have removed : gone ∈ (passed ++ left).map Item.path := by
        rcases List.mem_append.1 member with before | later
        · obtain ⟨item, inside, -, same⟩ := (removals_iff _).1 before
          exact same ▸ List.mem_map_of_mem (List.mem_append_left _ inside)
        · obtain ⟨item, inside, -, same⟩ := plans.removed gone later
          exact same ▸ List.mem_map_of_mem (List.mem_append_right _ inside)
      rw [List.map_append, List.map_cons, List.nodup_middle, ← List.map_append,
        meets.2.1, at_] at distinct
      exact absurd removed (List.nodup_cons.1 distinct).1
    · rcases List.mem_append.1 member with before | later
      · obtain ⟨item, inside, -, same⟩ := (removals_iff _).1 before
        rcases plans.met other further with write | ⟨deeper, inLeft, meets⟩
        · exact write
        rw [List.map_append, List.nodup_append] at distinct
        exact absurd (same.trans (at_.symm.trans meets.2.1.symm))
          (distinct.2.2 _ (List.mem_map_of_mem inside) _ (List.mem_map_of_mem (sub.subset inLeft)))
      · exact plans.kept gone later other further at_

/-- **What a plan does**, whatever the order of entries and items is. -/
theorem plans_planFrom (index : Snapshot) {entries : List (TreePath × Entry)} {items : List Item}
    (distinct : (items.map Item.path).Nodup)
    (known : ∀ item ∈ items, item.isDirectory = false → index.contains item.path = true) :
    Plans entries items (planFrom index entries items) := by
  have removals_iff : ∀ passed : List Item, (∀ item ∈ passed, item ∈ items) → ∀ path,
      path ∈ unmet index passed ↔
        ∃ item ∈ passed, item.isDirectory = false ∧ item.path = path := by
    intro passed inside path
    rw [mem_unmet]
    constructor
    · rintro ⟨item, member, leaf, -, same⟩
      exact ⟨item, member, leaf, same⟩
    · rintro ⟨item, member, leaf, same⟩
      exact ⟨item, member, leaf, known item (inside item member) leaf, same⟩
  induction entries generalizing items with
  | nil =>
      refine ⟨rfl, ?_, by simp [planFrom], ?_, by simp [planFrom]⟩
      · intro item member leaf
        exact Or.inl ((removals_iff items (fun _ => id) _).2 ⟨item, member, leaf, rfl⟩)
      · intro path member
        exact (removals_iff items (fun _ => id) path).1 member
  | cons first rest ih =>
      obtain ⟨path, entry⟩ := first
      have whole := @List.takeWhile_append_dropWhile _ (fun item => precedes item path) items
      have left : items.drop (items.takeWhile fun item => precedes item path).length =
          items.dropWhile fun item => precedes item path := by
        conv => lhs; arg 2; rw [← whole]
        exact List.drop_left
      rw [planFrom, left]
      generalize items.takeWhile (fun item => precedes item path) = passed at whole
      generalize items.dropWhile (fun item => precedes item path) = behind at whole
      subst whole
      have treats := treats_meet path entry behind
      have sub := treats.sublist.trans (List.sublist_append_right passed behind)
      refine Plans.cons distinct
        (removals_iff passed fun item member => List.mem_append_left _ member) treats ?_
      exact ih (distinct.sublist (sub.map _))
        (fun item member => known item (sub.subset member))
        (fun passed' inside => removals_iff passed' fun item member =>
          sub.subset (inside item member))

end Plans

end TokenBlame.Checkout
