/-
# TokenBlame.Proofs.Git.Difference -- deltas tell every change, and nothing else

A list of deltas describes the difference of two snapshots when the places that it names as
changed (`Delta.changed`) are those where the snapshots differ (`Snapshot.Describes`).  Nothing
is asked of their order, of how changes are told, or of entries that are as they were.

`Snapshot.deltas` describes the difference (`describes_deltas`).  A deletion that it does not
list is one side of a rename that it does list: each added file has one origin, since no place
was added twice, so the origin that is found for it is the one that took the deletion away.
-/
import TokenBlame.Git.Difference
import Mathlib.Data.List.Nodup

set_option autoImplicit false

namespace TokenBlame.Git

/-- The paths that a delta tells are not as they were. -/
def Delta.changed : Delta → List TreePath
  | unmodified _ => []
  | added path => [path]
  | modified path => [path]
  | deleted path => [path]
  | retyped path => [path]
  | renamed old new => [new, old]
  | copied _ new => [new]

/-- Deltas describe the difference of two snapshots: what they name as changed is where the
snapshots differ. -/
def Snapshot.Describes (old new : Snapshot) (deltas : List Delta) : Prop :=
  ∀ place, (∃ delta ∈ deltas, place ∈ delta.changed) ↔ old.get? place ≠ new.get? place

/-- What came from another path changes its own path, and the other one if it is gone. -/
theorem Delta.mem_changed_of_newName? {delta : Delta} {path place : TreePath}
    (names : delta.newName? = some path) :
    place ∈ delta.changed ↔ place = path ∨ delta.oldName? = some place := by
  cases delta <;> simp_all [newName?, oldName?, changed, eq_comm]

namespace Change

/-! ## The changes of two snapshots -/

section OfPath

variable {path : TreePath} {old new : Option Entry} {change : Change}

theorem path_of_mem_ofPath (member : change ∈ ofPath path old new) : change.path = path := by
  unfold ofPath at member
  repeat' split at member
  all_goals simp at member
  all_goals rcases member with rfl | rfl <;> rfl

/-- A path is as it was when all its changes say so. -/
theorem ofPath_kept (member : change ∈ ofPath path old new) :
    change.isKept = true ↔ old = new := by
  unfold ofPath at member
  repeat' split at member
  all_goals simp at member
  all_goals rcases member with rfl | rfl <;> simp_all [isKept]

theorem ofPath_ne_nil (differ : old ≠ new) : ofPath path old new ≠ [] := by
  unfold ofPath
  repeat' split
  all_goals simp_all

/-- A path is added at most once. -/
theorem nodup_ofPath (path : TreePath) (old new : Option Entry) :
    (((ofPath path old new).filter fun change => change.newFile?.isSome).map
      Change.path).Nodup := by
  unfold ofPath
  repeat' split
  all_goals simp [List.filter_cons, newFile?]
  all_goals split <;> simp

end OfPath

end Change

namespace Snapshot

variable {old new : Snapshot}

theorem nodup_paths (old new : Snapshot) :
    (old.keys ++ new.keys.filter fun path => !old.contains path).Nodup := by
  refine List.nodup_append'.2 ⟨Table.nodup_keys old, (Table.nodup_keys new).filter _, ?_⟩
  intro path known unknown
  obtain ⟨entry, found⟩ := Table.mem_keys.1 known
  simp [Table.contains, found] at unknown

theorem mem_changes {change : Change} :
    change ∈ changes old new ↔
      change ∈ Change.ofPath change.path (old.get? change.path) (new.get? change.path) := by
  unfold changes
  simp only [List.mem_flatMap, List.mem_mergeSort]
  constructor
  · rintro ⟨path, -, member⟩
    rwa [Change.path_of_mem_ofPath member]
  · intro member
    refine ⟨change.path, ?_, member⟩
    cases before : old.get? change.path with
    | some entry => exact List.mem_append_left _ (Table.mem_keys.2 ⟨entry, before⟩)
    | none =>
        cases after : new.get? change.path with
        | some entry =>
            refine List.mem_append_right _ (List.mem_filter.2 ⟨Table.mem_keys.2 ⟨entry, after⟩, ?_⟩)
            simp [Table.contains, before]
        | none => simp [before, after, Change.ofPath] at member

/-- Two snapshots differ where something is not kept. -/
theorem differ_iff {place : TreePath} :
    old.get? place ≠ new.get? place ↔
      ∃ change ∈ changes old new, change.path = place ∧ change.isKept = false := by
  constructor
  · intro differ
    obtain ⟨change, member⟩ :=
      List.exists_mem_of_ne_nil _ (@Change.ofPath_ne_nil place _ _ differ)
    have own := Change.path_of_mem_ofPath member
    refine ⟨change, mem_changes.2 (own ▸ member), own, ?_⟩
    exact Bool.eq_false_iff.2 fun kept => differ ((Change.ofPath_kept member).1 kept)
  · rintro ⟨change, member, rfl, changed⟩ same
    exact Bool.eq_false_iff.1 changed ((Change.ofPath_kept (mem_changes.1 member)).2 same)

/-- No path is added twice. -/
theorem nodup_added (old new : Snapshot) :
    (((changes old new).filter fun change => change.newFile?.isSome).map Change.path).Nodup := by
  unfold changes
  rw [List.filter_flatMap, List.map_flatMap, List.nodup_flatMap]
  refine ⟨fun path _ => Change.nodup_ofPath path _ _, ?_⟩
  refine ((List.mergeSort_perm _ _).nodup_iff.2 (nodup_paths old new)).imp ?_
  intro path other different place first second
  obtain ⟨change, here, rfl⟩ := List.mem_map.1 first
  obtain ⟨change', there, same⟩ := List.mem_map.1 second
  rw [Change.path_of_mem_ofPath (List.mem_filter.1 here).1,
    Change.path_of_mem_ofPath (List.mem_filter.1 there).1] at same
  exact different same.symm

end Snapshot

namespace Change

/-! ## The origins of added files -/

theorem target_pairings (older targets taken : List Change) :
    (pairings older targets taken).map Pairing.target =
      (targets.filter fun change => change.newFile?.isSome).map Change.path := by
  induction targets generalizing taken with
  | nil => rfl
  | cons target targets ih =>
      rw [pairings]
      cases found : target.newFile? with
      | none => simpa [found] using ih taken
      | some content => simp [found, ih]

/-- What an added file may come from is among the older files. -/
theorem sources_pairings {older targets taken : List Change} {pairing : Pairing}
    (member : pairing ∈ pairings older targets taken) :
    (∀ source ∈ pairing.candidates, source ∈ older) ∧
      ∀ source ∈ pairing.free, source ∈ pairing.candidates := by
  induction targets generalizing taken with
  | nil => cases member
  | cons target targets ih =>
      rw [pairings] at member
      split at member
      · exact ih member
      · rcases List.mem_cons.1 member with rfl | later
        · exact ⟨fun source among => (List.mem_filter.1 among).1,
            fun source among => (List.mem_filter.1 among).1⟩
        · exact ih later

/-- An origin leads to the added file; where it is a rename, the file it comes from is gone. -/
theorem renameOrCopy?_cases {pairing : Pairing} {origin : Delta}
    (found : pairing.renameOrCopy? = some origin) :
    (∃ source ∈ pairing.free ++ pairing.candidates, source.isVanished = true ∧
      origin = .renamed source.path pairing.target) ∨
    ∃ source, origin = .copied source pairing.target := by
  unfold Pairing.renameOrCopy? at found
  obtain ⟨first, head, found⟩ := Option.bind_eq_some_iff.1 found
  have among : pairing.free.headD first ∈ pairing.free ++ pairing.candidates := by
    cases free : pairing.free with
    | nil => simpa using List.mem_of_head? head
    | cons source rest => simp
  dsimp only at found
  split at found
  · rename_i gone
    exact Or.inl ⟨_, among, gone, (Option.some.inj found).symm⟩
  · exact Or.inr ⟨_, (Option.some.inj found).symm⟩

end Change

namespace Snapshot

variable {old new : Snapshot}

/-- The renames and copies from one snapshot to another. -/
def origins (old new : Snapshot) : List Delta :=
  (Change.pairings (changes old new) (changes old new) []).filterMap Change.Pairing.renameOrCopy?

theorem mem_origins {origin : Delta} (member : origin ∈ origins old new) :
    (∃ target ∈ changes old new, target.newFile?.isSome = true ∧
      origin.newName? = some target.path) ∧
    ∀ path, origin.oldName? = some path →
      ∃ source ∈ changes old new, source.isVanished = true ∧ source.path = path := by
  obtain ⟨pairing, paired, found⟩ := List.mem_filterMap.1 member
  obtain ⟨older, free⟩ := Change.sources_pairings paired
  have target : pairing.target ∈ _ := List.mem_map_of_mem paired
  rw [Change.target_pairings] at target
  obtain ⟨added, there, own⟩ := List.mem_map.1 target
  obtain ⟨there, file⟩ := List.mem_filter.1 there
  rcases Change.renameOrCopy?_cases found with ⟨source, among, gone, rfl⟩ | ⟨source, rfl⟩
  · have known : source ∈ changes old new :=
      (List.mem_append.1 among).elim (fun left => older source (free source left)) (older source)
    exact ⟨⟨added, there, file, congrArg some own.symm⟩,
      fun path same => ⟨source, known, gone, Option.some.inj same⟩⟩
  · exact ⟨⟨added, there, file, congrArg some own.symm⟩, fun path none => nomatch none⟩

/-- An added file has one origin. -/
theorem origins_unique {first second : Delta} {path : TreePath}
    (one : first ∈ origins old new) (other : second ∈ origins old new)
    (firstName : first.newName? = some path) (secondName : second.newName? = some path) :
    first = second := by
  have names : ∀ {pairing : Change.Pairing} {origin : Delta}, pairing.renameOrCopy? = some origin →
      origin.newName? = some pairing.target := by
    intro pairing origin found
    rcases Change.renameOrCopy?_cases found with ⟨source, -, -, rfl⟩ | ⟨source, rfl⟩ <;> rfl
  have distinct : ((Change.pairings (changes old new) (changes old new) []).map
      Change.Pairing.target).Nodup := by
    rw [Change.target_pairings]
    exact nodup_added old new
  obtain ⟨pairing, paired, found⟩ := List.mem_filterMap.1 one
  obtain ⟨pairing', paired', found'⟩ := List.mem_filterMap.1 other
  have target := Option.some.inj ((names found).symm.trans firstName)
  have target' := Option.some.inj ((names found').symm.trans secondName)
  obtain rfl := List.inj_on_of_nodup_map distinct paired paired' (target.trans target'.symm)
  exact Option.some.inj (found.symm.trans found')

/-- What is told of an added file: where it comes from, or that it was added. -/
theorem delta?_appeared (origins : List Delta) (path : TreePath) (entry : Entry) :
    ∃ delta, Change.delta? origins (.appeared path entry) = some delta ∧
      (delta ∈ origins ∧ delta.newName? = some path ∨
        delta = .added path ∧ ∀ origin ∈ origins, origin.newName? ≠ some path) := by
  refine ⟨_, rfl, ?_⟩
  cases search : origins.find? fun origin => origin.newName? == some path with
  | none =>
      refine Or.inr ⟨rfl, fun origin member => ?_⟩
      simpa using List.find?_eq_none.1 search origin member
  | some origin =>
      exact Or.inl ⟨List.mem_of_find?_eq_some search, by simpa using List.find?_some search⟩

/-- A deletion that is one side of a rename is told by the rename. -/
theorem rename_listed {origin : Delta} {path : TreePath} (member : origin ∈ origins old new)
    (gone : origin.oldName? = some path) : origin ∈ deltas old new := by
  obtain ⟨⟨target, there, file, names⟩, -⟩ := mem_origins member
  cases target with
  | appeared place entry =>
      obtain ⟨delta, told, ⟨among, own⟩ | ⟨-, none⟩⟩ :=
        delta?_appeared (origins old new) place entry
      · obtain rfl := origins_unique among member own names
        exact List.mem_filterMap.2 ⟨_, there, told⟩
      · exact absurd names (none origin member)
  | _ => cases file

/-- What is told of a change is told of a place where the snapshots differ. -/
theorem changed_of_told {change : Change} {delta : Delta} {place : TreePath}
    (there : change ∈ changes old new) (told : change.delta? (origins old new) = some delta)
    (here : place ∈ delta.changed) :
    ∃ change ∈ changes old new, change.path = place ∧ change.isKept = false := by
  cases change with
  | kept path entry =>
      obtain rfl := Option.some.inj told
      cases here
  | altered path before after =>
      obtain rfl := Option.some.inj told
      exact ⟨_, there, (List.mem_singleton.1 here).symm, rfl⟩
  | vanished path entry =>
      simp only [Change.delta?] at told
      split at told
      · cases told
      · obtain rfl := Option.some.inj told
        exact ⟨_, there, (List.mem_singleton.1 here).symm, rfl⟩
  | appeared path entry =>
      obtain ⟨delta', told', ⟨among, names⟩ | ⟨rfl, -⟩⟩ :=
        delta?_appeared (origins old new) path entry
      · obtain rfl := Option.some.inj (told.symm.trans told')
        rcases (Delta.mem_changed_of_newName? names).1 here with rfl | gone
        · exact ⟨_, there, rfl, rfl⟩
        -- the other side of a rename is a file that is gone
        · obtain ⟨source, known, vanished, rfl⟩ := (mem_origins among).2 place gone
          cases source with
          | vanished path entry => exact ⟨_, known, rfl, rfl⟩
          | _ => cases vanished
      · obtain rfl := Option.some.inj (told.symm.trans told')
        exact ⟨_, there, (List.mem_singleton.1 here).symm, rfl⟩

/-- A change is told, a deletion that is one side of a rename by the rename. -/
theorem told_of_changed {change : Change} (there : change ∈ changes old new)
    (changed : change.isKept = false) : ∃ delta ∈ deltas old new, change.path ∈ delta.changed := by
  have listed : ∀ {delta : Delta}, change.delta? (origins old new) = some delta →
      delta ∈ deltas old new := fun told => List.mem_filterMap.2 ⟨change, there, told⟩
  cases change with
  | kept path entry => cases changed
  | altered path before after => exact ⟨_, listed rfl, List.mem_singleton_self _⟩
  | vanished path entry =>
      by_cases gone : ∃ origin ∈ origins old new, origin.oldName? = some path
      · obtain ⟨origin, member, gone⟩ := gone
        obtain ⟨⟨target, -, -, names⟩, -⟩ := mem_origins member
        exact ⟨origin, rename_listed member gone,
          (Delta.mem_changed_of_newName? names).2 (Or.inr gone)⟩
      · have told : Change.delta? (origins old new) (.vanished path entry) =
            some (.deleted path) := by
          simpa [Change.delta?] using gone
        exact ⟨_, listed told, List.mem_singleton_self _⟩
  | appeared path entry =>
      obtain ⟨delta, told, ⟨-, names⟩ | ⟨rfl, -⟩⟩ := delta?_appeared (origins old new) path entry
      · exact ⟨delta, listed told, (Delta.mem_changed_of_newName? names).2 (Or.inl rfl)⟩
      · exact ⟨_, listed told, List.mem_singleton_self _⟩

/-- **The deltas of two snapshots tell where they differ**, and nowhere else. -/
theorem describes_deltas (old new : Snapshot) : Describes old new (deltas old new) := by
  intro place
  rw [differ_iff]
  constructor
  · rintro ⟨delta, member, here⟩
    obtain ⟨change, there, told⟩ := List.mem_filterMap.1 member
    exact changed_of_told there told here
  · rintro ⟨change, there, rfl, changed⟩
    exact told_of_changed there changed

end Snapshot

end TokenBlame.Git
