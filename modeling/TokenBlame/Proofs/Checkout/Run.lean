/-
# TokenBlame.Proofs.Checkout.Run -- a checkout of files and links

Where the index has all entries of a working tree, a checkout brings the working tree to any
snapshot that can stand there (`Snapshot.Standing`), if this has the links that are there
(`run_of_keeps`).  What the plan removes leaves entries only at paths of the snapshot
(`Moves.left`), each of them as it is asked for or about to be written over (`Moves.ready`);
and writing the entries of the steps leads to the snapshot from there (`writeAll_of_ready`).

It is not needed for this that an item that stands in the way of an entry is seen when that
is planned: an item that no step has met is removed by then.
-/
import TokenBlame.Proofs.Checkout.Planning
import TokenBlame.Proofs.Checkout.Sight
import TokenBlame.Proofs.Disk.Clearing
import Mathlib.Data.List.Nodup
import Mathlib.Data.List.TakeWhile

set_option autoImplicit false

namespace TokenBlame

open Git

/-- What can be made in a working tree: a file, or a link with a target that the system takes. -/
def Git.Entry.Makeable : Entry → Prop
  | .file .. => True
  | .link target => target ≠ [] ∧ 0 ∉ target ∧ target.length ≤ Disk.maxPath
  | .submodule _ => False

theorem Git.Entry.Makeable.stands {entry : Entry} (makeable : entry.Makeable) :
    entry.content?.isSome = true := by
  cases entry with
  | file content executable => rfl
  | link target => rfl
  | submodule commit => cases makeable

namespace Git.Snapshot

/-- A snapshot of files at paths that the system takes. -/
structure Fitting (tree : Snapshot) (top : TreePath) : Prop where
  plain : tree.Plain
  taken : ∀ place entry, tree.get? place = some entry →
    ∃ path, TreePath.ofString path = place ∧ Disk.Fits top (Utf8.encode path)

/-- A snapshot of files and links that can stand in a working tree: at paths that the system
takes, with targets that it takes. -/
structure Standing (tree : Snapshot) (top : TreePath) : Prop where
  proper : tree.Proper
  makeable : ∀ place entry, tree.get? place = some entry → entry.Makeable
  taken : ∀ place entry, tree.get? place = some entry →
    ∃ path, TreePath.ofString path = place ∧ Disk.Fits top (Utf8.encode path)

theorem Fitting.standing {tree : Snapshot} {top : TreePath} (fitting : tree.Fitting top) :
    tree.Standing top := by
  refine ⟨fitting.plain.proper, fun place entry found => ?_, fitting.taken⟩
  have file := fitting.plain.files place entry found
  cases entry with
  | file content executable => trivial
  | link target => cases file
  | submodule commit => cases file

theorem Standing.short {tree : Snapshot} {top place : TreePath} {entry : Entry}
    (standing : tree.Standing top) (found : tree.get? place = some entry) :
    ∀ name ∈ place, name.length ≤ Disk.maxName := by
  obtain ⟨path, rfl, fits⟩ := standing.taken place entry found
  exact fits.short

theorem Standing.noSubmodule {tree : Snapshot} {top : TreePath} (standing : tree.Standing top)
    (place : TreePath) (commit : ObjectId) : tree.get? place ≠ some (.submodule commit) :=
  fun found => standing.makeable _ _ found

/-- No link is above an entry, if the links are among those of the snapshot. -/
theorem Proper.straight_dropLast {tree other : Snapshot} {place : TreePath} {entry : Entry}
    (proper : tree.Proper) (found : tree.get? place = some entry)
    (links : ∀ place target, other.get? place = some (.link target) →
      tree.get? place = some (.link target)) : other.Straight place.dropLast := by
  intro above target start link
  have apart := proper.apart _ _ _ _ found (links above target link)
  have same := apart.symm.eq_of_above (start.trans (List.dropLast_prefix place))
  have shorter := start.length_le
  have some := List.length_pos_iff.2 (proper.nonempty _ _ found)
  rw [same, List.length_dropLast] at shorter
  omega

/-- A snapshot without some paths, what is inside them and what is above them. -/
def withoutAll (tree : Snapshot) (paths : List TreePath) : Snapshot :=
  paths.foldl without tree

theorem get?_withoutAll {tree : Snapshot} {paths : List TreePath} {other : TreePath}
    {entry : Entry} : (tree.withoutAll paths).get? other = some entry ↔
      tree.get? other = some entry ∧ ∀ path ∈ paths, other ≠ path ∧ TreePath.Apart path other := by
  induction paths generalizing tree with
  | nil => simp [withoutAll]
  | cons path rest ih =>
      show ((tree.without path).withoutAll rest).get? other = some entry ↔ _
      rw [ih, get?_without, List.forall_mem_cons, and_assoc]

/-- The permission of a file that is written depends on the entry at its path only. -/
theorem permission_view (tree : Snapshot) (place : TreePath) (executable : Bool) :
    Disk.permission executable (tree.view place) =
      match tree.get? place with
      | some (.file _ kept) => kept
      | _ => executable := by
  rw [view]
  cases tree.get? place with
  | some entry => cases entry <;> rfl
  | none => cases tree.isDirectory place <;> rfl

end Git.Snapshot

namespace Checkout

variable {disk : Disk} {top : TreePath} {index snapshot tree : Snapshot}

/-! ## Removing and writing -/

/-- Removals leave the snapshot without their paths. -/
theorem removeAll_keeps (keeps : disk.Keeps top tree) (proper : tree.Proper)
    {paths : List (TreePath × Bool)}
    (clearable : ∀ path ∈ paths, path.1 ≠ [] ∧ path.1.isValid = true ∧
      tree.Straight path.1.dropLast ∧ ∀ name ∈ path.1, name.length ≤ Disk.maxName)
    (index : Snapshot) :
    ∃ next index', removeAll top ⟨disk, index⟩ paths = (.ok (), ⟨next, index'⟩) ∧
      next.Keeps top (tree.withoutAll (paths.map (·.1))) ∧ Disk.Spares disk next top := by
  induction paths generalizing disk tree index with
  | nil => exact ⟨disk, index, rfl, keeps, .refl disk top⟩
  | cons first rest ih =>
      obtain ⟨path, kept⟩ := first
      obtain ⟨nonempty, valid, straight, short⟩ := clearable _ List.mem_cons_self
      obtain ⟨middle, cleared, holds, first⟩ :=
        keeps.holds.clear proper nonempty straight valid short
      obtain ⟨next, index', removed, keeps', later⟩ := ih ⟨holds, keeps.ordered.clear cleared⟩
        (proper.without path)
        (fun other member => by
          obtain ⟨nonempty, valid, straight, short⟩ :=
            clearable other (List.mem_cons_of_mem _ member)
          exact ⟨nonempty, valid,
            straight.less fun _ _ found => (Snapshot.get?_without.1 found).1, short⟩)
        (if kept then index else index.erase path)
      refine ⟨next, index', ?_, keeps', first.trans later⟩
      rw [removeAll]
      dsimp only at cleared ⊢
      rw [cleared]
      exact removed

/-- There is room for an entry: what stands at its path is a file with the permission that it asks
for, and nothing if it is a link. -/
def HasRoom (tree : Snapshot) (place : TreePath) : Entry → Prop
  | .file _ executable => ∀ entry, tree.get? place = some entry →
      ∃ content, entry = .file content executable
  | .link _ => tree.get? place = none
  | .submodule _ => False

/-- What stands at the path is all that counts. -/
theorem HasRoom.of_get? {other : Snapshot} {place : TreePath} {entry : Entry}
    (room : HasRoom tree place entry) (same : other.get? place = tree.get? place) :
    HasRoom other place entry := by
  unfold HasRoom at room ⊢
  rwa [same]

section WriteEntry

variable {path : String} {lead : TreePath} {name : Name}

/-- A file is made where a file with its permission stands, or nothing. -/
theorem make_file (keeps : disk.Keeps top tree) (fits : Disk.Fits top (Utf8.encode path))
    (names : TreePath.ofString path = lead ++ [name])
    (valid : (TreePath.ofString path).isValid = true)
    (apart : ∀ other entry, tree.get? other = some entry →
      TreePath.Apart (TreePath.ofString path) other)
    {content : Bytes} {executable : Bool}
    (room : HasRoom tree (TreePath.ofString path) (.file content executable)) :
    ∃ made written, Disk.enterAll disk top lead = (.ok (top ++ lead), made) ∧
      make made top (TreePath.ofString path) (.file content executable) = .ok written ∧
      written.Keeps top (tree.insert (TreePath.ofString path) (.file content executable)) ∧
      Disk.Spares disk written top := by
  have straight : tree.Straight (TreePath.ofString path) := by
    intro place target start found
    obtain rfl := (apart place _ found).symm.eq_of_above start
    obtain ⟨content, file⟩ := room _ found
    cases file
  obtain ⟨made, written, entered, filled, holds, spares⟩ :=
    keeps.holds.write_file straight fits names valid apart content executable
  have kept : Disk.permission executable (tree.view (TreePath.ofString path)) = executable := by
    rw [Snapshot.permission_view]
    split
    · rename_i found
      obtain ⟨content, file⟩ := room _ found
      cases file
      rfl
    · rfl
  rw [show TreePath.split (Utf8.encode path) = TreePath.ofString path from rfl, kept] at holds
  have ordered := Disk.Ordered.enterAll keeps.ordered top lead
  rw [entered] at ordered
  refine ⟨made, written, entered, ?_, ⟨holds, ordered.write filled⟩, spares⟩
  rw [make, TreePath.join_ofString, filled]

/-- A link is made where nothing stands. -/
theorem make_link (keeps : disk.Keeps top tree) (fits : Disk.Fits top (Utf8.encode path))
    (names : TreePath.ofString path = lead ++ [name])
    (valid : (TreePath.ofString path).isValid = true)
    (apart : ∀ other entry, tree.get? other = some entry →
      TreePath.Apart (TreePath.ofString path) other)
    {target : Bytes} (makeable : Entry.Makeable (.link target))
    (room : HasRoom tree (TreePath.ofString path) (.link target)) :
    ∃ made written, Disk.enterAll disk top lead = (.ok (top ++ lead), made) ∧
      make made top (TreePath.ofString path) (.link target) = .ok written ∧
      written.Keeps top (tree.insert (TreePath.ofString path) (.link target)) ∧
      Disk.Spares disk written top := by
  obtain ⟨some, clean, short⟩ := makeable
  obtain ⟨made, written, entered, filled, holds, spares⟩ :=
    keeps.holds.make_link fits names valid apart room some short
  have ordered := Disk.Ordered.enterAll keeps.ordered top lead
  rw [entered] at ordered
  refine ⟨made, written, entered, ?_, ⟨holds, ordered.makeLink filled⟩, spares⟩
  have whole : target.takeWhile (· != 0) = target := by
    rw [List.takeWhile_eq_self_iff]
    intro byte member
    rw [bne_iff_ne]
    rintro rfl
    exact clean member
  rw [make, TreePath.join_ofString, whole, filled]

/-- An entry that there is room for is written as it is. -/
theorem writeEntry_keeps (keeps : disk.Keeps top tree) {entry : Entry}
    (fits : Disk.Fits top (Utf8.encode path)) (valid : (TreePath.ofString path).isValid = true)
    (apart : ∀ other entry, tree.get? other = some entry →
      TreePath.Apart (TreePath.ofString path) other)
    (makeable : entry.Makeable) (room : HasRoom tree (TreePath.ofString path) entry)
    (index : Snapshot) :
    ∃ next, writeEntry top ⟨disk, index⟩ (TreePath.ofString path) entry =
        (.ok (), ⟨next, index.place (TreePath.ofString path) entry⟩) ∧
      next.Keeps top (tree.insert (TreePath.ofString path) entry) ∧ Disk.Spares disk next top := by
  obtain ⟨lead, name, names⟩ := TreePath.exists_concat (TreePath.ofString_ne_nil path)
  obtain ⟨made, written, entered, filled, keeps', spares⟩ : ∃ made written,
      Disk.enterAll disk top lead = (.ok (top ++ lead), made) ∧
        make made top (TreePath.ofString path) entry = .ok written ∧
        written.Keeps top (tree.insert (TreePath.ofString path) entry) ∧
        Disk.Spares disk written top := by
    cases entry with
    | file content executable => exact make_file keeps fits names valid apart room
    | link target => exact make_link keeps fits names valid apart makeable room
    | submodule commit => exact absurd makeable id
  refine ⟨written, ?_, keeps', spares⟩
  have directories : (if entry.content?.isSome then (TreePath.ofString path).dropLast
      else TreePath.ofString path) = lead := by
    rw [if_pos makeable.stands, names, List.dropLast_concat]
  unfold writeEntry
  dsimp only
  rw [directories, entered]
  dsimp only
  rw [filled]

end WriteEntry

/-- Entries of a snapshot that are to be written, each at a path of its own. -/
structure Ready (snapshot tree : Snapshot) (entries : List (TreePath × Entry)) : Prop where
  asked : ∀ entry ∈ entries, snapshot.get? entry.1 = some entry.2
  distinct : (entries.map (·.1)).Nodup
  inner : ∀ place entry, tree.get? place = some entry →
    ∃ entry', snapshot.get? place = some entry'
  room : ∀ entry ∈ entries, HasRoom tree entry.1 entry.2

/-- Entries of a snapshot are written as it has them. -/
theorem writeAll_of_ready (goal : snapshot.Standing top) (keeps : disk.Keeps top tree)
    {entries : List (TreePath × Entry)} (ready : Ready snapshot tree entries) (index : Snapshot) :
    ∃ next index' tree', writeAll top ⟨disk, index⟩ entries = (.ok (), ⟨next, index'⟩) ∧
      next.Keeps top tree' ∧ Disk.Spares disk next top ∧ ∀ place, tree'.get? place =
        if place ∈ entries.map (·.1) then snapshot.get? place else tree.get? place := by
  induction entries generalizing disk tree index with
  | nil => exact ⟨disk, index, tree, rfl, keeps, .refl disk top, by simp⟩
  | cons first rest ih =>
      obtain ⟨place, entry⟩ := first
      have own : snapshot.get? place = some entry := ready.asked _ List.mem_cons_self
      obtain ⟨other, distinct⟩ := List.nodup_cons.1 ready.distinct
      obtain ⟨path, rfl, fits⟩ := goal.taken _ _ own
      have apart : ∀ other entry, tree.get? other = some entry →
          TreePath.Apart (TreePath.ofString path) other := by
        intro other entry found
        obtain ⟨entry', there⟩ := ready.inner other entry found
        exact goal.proper.apart _ _ _ _ own there
      obtain ⟨middle, wrote, keeps', first⟩ :=
        writeEntry_keeps keeps fits (goal.proper.valid _ _ own) apart (goal.makeable _ _ own)
          (ready.room _ List.mem_cons_self) index
      have ready' : Ready snapshot (tree.insert (TreePath.ofString path) entry) rest := by
        refine ⟨fun entry member => ready.asked entry (List.mem_cons_of_mem _ member), distinct,
          ?_, ?_⟩
        · intro place entry found
          by_cases same : TreePath.ofString path = place
          · exact ⟨_, same ▸ own⟩
          · rw [Snapshot.get?_insert_ne _ same] at found
            exact ready.inner place entry found
        · intro entry member
          refine (ready.room entry (List.mem_cons_of_mem _ member)).of_get?
            (Snapshot.get?_insert_ne _ ?_ _)
          intro same
          exact other (List.mem_map.2 ⟨entry, member, same.symm⟩)
      obtain ⟨next, index', tree', all, keepsNext, later, looks⟩ := ih keeps' ready'
        (index.place (TreePath.ofString path) entry)
      refine ⟨next, index', tree', ?_, keepsNext, first.trans later, ?_⟩
      · rw [writeAll, wrote]
        exact all
      · intro place
        rw [looks place, List.map_cons]
        by_cases later : place ∈ rest.map (·.1)
        · rw [if_pos later, if_pos (List.mem_cons_of_mem _ later)]
        · rw [if_neg later]
          by_cases same : TreePath.ofString path = place
          · rw [if_pos (same ▸ List.mem_cons_self), ← same, Snapshot.get?_insert_self, own]
          · have away : place ∉ TreePath.ofString path :: rest.map (·.1) := fun member =>
              (List.mem_cons.1 member).elim (fun eq => same eq.symm) later
            rw [if_neg away, Snapshot.get?_insert_ne _ same]

/-! ## What a plan leaves and what it writes -/

/-- The entries that are written are those whose steps say so. -/
theorem perm_written (plan : Plan) : plan.written.Perm
    ((plan.steps.filter fun step => step.write).map fun step => (step.path, step.entry)) := by
  unfold Plan.written
  dsimp only
  generalize (plan.steps.filter fun step => step.write).map (fun step => (step.path, step.entry)) =
    entries
  have files := List.filter_append_perm (fun entry => entry.2.isFile) entries
  have others := List.filter_append_perm (fun entry => entry.2.content?.isSome)
    (entries.filter fun entry => !entry.2.isFile)
  rw [List.filter_filter, List.filter_filter] at others
  have submodules : (fun entry : TreePath × Entry =>
      (!entry.2.content?.isSome) && !entry.2.isFile) = fun entry => entry.2.content?.isNone := by
    funext entry
    cases entry.2 <;> rfl
  have links : (fun entry : TreePath × Entry =>
      entry.2.content?.isSome && !entry.2.isFile) =
        fun entry => !entry.2.isFile && entry.2.content?.isSome := by
    funext entry
    rw [Bool.and_comm]
  rw [submodules, links] at others
  rw [List.append_assoc]
  exact (others.append_left _).trans files

theorem mem_written {plan : Plan} {entry : TreePath × Entry} :
    entry ∈ plan.written ↔
      ∃ step ∈ plan.steps, step.write = true ∧ (step.path, step.entry) = entry := by
  rw [(perm_written plan).mem_iff]
  simp [and_assoc]

theorem silent_of_unwritten {plan : Plan} {step : Step} (member : step ∈ plan.steps)
    (unwritten : step.path ∉ plan.written.map (·.1)) : step.write = false := by
  cases writes : step.write with
  | false => rfl
  | true =>
      exact absurd (List.mem_map_of_mem (mem_written.2 ⟨step, member, writes, rfl⟩)) unwritten

theorem mem_removed {plan : Plan} {path : TreePath} : path ∈ plan.removed.map (·.1) ↔
    (∃ step ∈ plan.steps, step.remove = true ∧ step.path = path) ∨ path ∈ plan.removals := by
  unfold Plan.removed
  simp [and_assoc]

/-- The entries of a snapshot in their order. -/
theorem mem_inOrder {place : TreePath} {entry : Entry} :
    (place, entry) ∈ snapshot.inOrder ↔ snapshot.get? place = some entry := by
  unfold Snapshot.inOrder
  rw [List.mem_mergeSort, Table.get?_eq_some_iff]

theorem nodup_inOrder (snapshot : Snapshot) : (snapshot.inOrder.map (·.1)).Nodup :=
  ((List.mergeSort_perm _ _).map _).nodup_iff.2 (Table.nodup_keys snapshot)

/-- A step writes unless it has met what its entry asks for. -/
theorem write_onto (path : TreePath) (entry : Entry) (item : Item) :
    (Step.onto path entry item).write = !item.isAsIn entry := by
  unfold Step.onto
  cases as : item.isAsIn entry with
  | true => rfl
  | false => cases entry <;> rfl

theorem isAsIn_ofEntry {path : TreePath} {entry wanted : Entry}
    (stands : entry.content?.isSome = true) :
    (Item.ofEntry path entry).isAsIn wanted = true ↔ wanted = entry := by
  cases entry with
  | submodule commit => cases stands
  | file content executable =>
      cases wanted with
      | file wish mode =>
          simp only [Item.ofEntry, Item.isAsIn, Bool.and_eq_true, beq_iff_eq, Entry.file.injEq]
          exact and_congr eq_comm eq_comm
      | link wish => simp [Item.ofEntry, Item.isAsIn]
      | submodule commit => simp [Item.ofEntry, Item.isAsIn]
  | link target =>
      cases wanted with
      | file wish mode => simp [Item.ofEntry, Item.isAsIn]
      | link wish =>
          simp only [Item.ofEntry, Item.isAsIn, beq_iff_eq, Entry.link.injEq]
          exact eq_comm
      | submodule commit => simp [Item.ofEntry, Item.isAsIn]

/-- What is written over something else that stands is removed before, unless it is a file with
the permission that the entry asks for, or a link where a file is asked for. -/
theorem of_onto {path : TreePath} {entry wanted : Entry}
    (writes : (Step.onto path wanted (.ofEntry path entry)).write = true)
    (keeps : (Step.onto path wanted (.ofEntry path entry)).remove = false)
    (makeable : wanted.Makeable)
    (links : ∀ target, entry = .link target → wanted = .link target) :
    ∃ content executable wish, entry = .file content executable ∧ wanted = .file wish executable := by
  rw [write_onto] at writes
  have differs : (Item.ofEntry path entry).isAsIn wanted = false := by simpa using writes
  unfold Step.onto at keeps
  rw [if_neg (by simp [differs])] at keeps
  cases wanted with
  | submodule commit => exact absurd makeable id
  | link target => cases keeps
  | file wish executable =>
      cases entry with
      | link target => cases links target rfl
      | submodule commit => cases differs
      | file content kept =>
          have same : executable = kept := by simpa [Item.ofEntry, Item.isExecutable] using keeps
          exact ⟨content, kept, wish, rfl, by rw [same]⟩

/-- A plan that brings a working tree from one snapshot to another that has its links. -/
structure Moves (snapshot tree : Snapshot) (items : List Item) (plan : Plan) : Prop where
  plans : Plans snapshot.inOrder items plan
  goal : snapshot.Proper
  makeable : ∀ place entry, snapshot.get? place = some entry → entry.Makeable
  held : tree.Proper
  seen : ∀ item ∈ items, item.isDirectory = false → ∃ entry,
    item = .ofEntry item.path entry ∧ entry.content?.isSome = true ∧
      tree.get? item.path = some entry
  shown : ∀ place entry, tree.get? place = some entry →
    .ofEntry place entry ∈ items ∧ entry.content?.isSome = true
  links : ∀ place target, tree.get? place = some (.link target) →
    snapshot.get? place = some (.link target)

namespace Moves

variable {items : List Item} {plan : Plan} (moves : Moves snapshot tree items plan) {step : Step}
  {place : TreePath} {entry : Entry}

include moves

/-- Each step is for an entry of the snapshot. -/
theorem asked (member : step ∈ plan.steps) : snapshot.get? step.path = some step.entry := by
  rw [← mem_inOrder, ← moves.plans.steps]
  exact List.mem_map_of_mem member

/-- Each entry has a step. -/
theorem exists_step (found : snapshot.get? place = some entry) :
    ∃ step ∈ plan.steps, step.path = place ∧ step.entry = entry := by
  have member := mem_inOrder.2 found
  rw [← moves.plans.steps] at member
  obtain ⟨step, inside, same⟩ := List.mem_map.1 member
  cases same
  exact ⟨step, inside, rfl, rfl⟩

theorem nodup_steps : (plan.steps.map Step.path).Nodup := by
  have distinct := nodup_inOrder snapshot
  rw [← moves.plans.steps, List.map_map] at distinct
  exact distinct

/-- No two steps are for one path. -/
theorem step_eq {other : Step} (member : step ∈ plan.steps) (also : other ∈ plan.steps)
    (same : step.path = other.path) : step = other :=
  List.inj_on_of_nodup_map moves.nodup_steps member also same

/-- What is left stands at a path of the snapshot, and the step for that has met it. -/
theorem left (found : (tree.withoutAll (plan.removed.map (·.1))).get? place = some entry) :
    tree.get? place = some entry ∧ entry.content?.isSome = true ∧
      ∃ step ∈ plan.steps, step.path = place ∧
        step = .onto place step.entry (.ofEntry place entry) := by
  obtain ⟨there, away⟩ := Snapshot.get?_withoutAll.1 found
  obtain ⟨shown, stands⟩ := moves.shown _ _ there
  refine ⟨there, stands, ?_⟩
  have leaf : (Item.ofEntry place entry).isDirectory = false := by cases entry <;> rfl
  rcases moves.plans.leaf _ shown leaf with
    gone | ⟨step, member, room, inside⟩ | ⟨step, member, -, same, meets⟩
  · rw [path_ofEntry] at gone
    exact absurd rfl (away place (mem_removed.2 (Or.inr gone))).1
  · rw [path_ofEntry, (away step.path (mem_removed.2 (Or.inl ⟨step, member, room, rfl⟩))).2.2]
      at inside
    cases inside
  · rw [path_ofEntry] at same
    exact ⟨step, member, same.symm, same ▸ meets⟩

/-- What a step leaves alone is left as its entry asks for. -/
theorem kept (member : step ∈ plan.steps) (silent : step.write = false) :
    (tree.withoutAll (plan.removed.map (·.1))).get? step.path = some step.entry := by
  rcases moves.plans.met step member with writes | ⟨item, inside, leaf, same, meets⟩
  · rw [silent] at writes
    cases writes
  obtain ⟨entry, whole, stands, there⟩ := moves.seen item inside leaf
  rw [same] at whole there
  -- the item is as the entry asks for, or the step would write
  have as : item.isAsIn step.entry = true := by
    rw [meets, write_onto] at silent
    simpa using silent
  have entry : step.entry = entry := (isAsIn_ofEntry stands).1 (whole ▸ as)
  rw [entry, Snapshot.get?_withoutAll]
  refine ⟨there, fun path removed => ?_⟩
  rcases mem_removed.1 removed with ⟨other, also, goes, rfl⟩ | gone
  · refine ⟨fun at_ => ?_, moves.goal.apart _ _ _ _ (moves.asked also) (moves.asked member)⟩
    rw [← moves.step_eq member also at_, meets] at goes
    unfold Step.onto at goes
    rw [if_pos as] at goes
    cases goes
  · obtain ⟨other, shown, leaf', rfl⟩ := moves.plans.removed path gone
    obtain ⟨_, -, -, own⟩ := moves.seen other shown leaf'
    refine ⟨fun at_ => ?_, moves.held.apart _ _ _ _ own there⟩
    have writes := moves.plans.kept _ gone step member at_
    rw [silent] at writes
    cases writes

/-- No two entries that are written are at one path. -/
theorem nodup_written : (plan.written.map (·.1)).Nodup := by
  rw [((perm_written plan).map _).nodup_iff, List.map_map]
  exact moves.nodup_steps.sublist (List.filter_sublist.map _)

/-- What is left where a step writes is a file that the step has met: it has the permission that
the entry asks for. -/
theorem met (member : step ∈ plan.steps) (writes : step.write = true)
    (found : (tree.withoutAll (plan.removed.map (·.1))).get? step.path = some entry) :
    ∃ content executable wish,
      entry = .file content executable ∧ step.entry = .file wish executable := by
  obtain ⟨there, -, other, also, at_, onto⟩ := moves.left found
  cases moves.step_eq member also at_.symm
  have keeps : step.remove = false := by
    cases goes : step.remove with
    | false => rfl
    | true =>
        obtain ⟨-, away⟩ := Snapshot.get?_withoutAll.1 found
        exact absurd rfl (away _ (mem_removed.2 (Or.inl ⟨step, member, goes, rfl⟩))).1
  rw [onto] at writes keeps
  refine of_onto writes keeps (moves.makeable _ _ (moves.asked member)) fun target link => ?_
  have asked := moves.links _ _ (link ▸ there)
  exact Option.some.inj ((moves.asked member).symm.trans asked)

/-- What is left is ready for the entries that are written. -/
theorem ready : Ready snapshot (tree.withoutAll (plan.removed.map (·.1))) plan.written where
  asked := by
    intro entry member
    obtain ⟨step, inside, -, rfl⟩ := mem_written.1 member
    exact moves.asked inside
  distinct := moves.nodup_written
  inner := by
    intro place entry found
    obtain ⟨-, -, step, member, rfl, -⟩ := moves.left found
    exact ⟨step.entry, moves.asked member⟩
  room := by
    intro entry member
    obtain ⟨step, inside, writes, rfl⟩ := mem_written.1 member
    dsimp only
    cases wanted : step.entry with
    | file wish executable =>
        intro entry found
        obtain ⟨content, kept, _, file, same⟩ := moves.met inside writes found
        cases wanted.symm.trans same
        exact ⟨content, file⟩
    | link target =>
        show _ = none
        rw [Option.eq_none_iff_forall_ne_some]
        intro entry found
        obtain ⟨_, _, _, -, same⟩ := moves.met inside writes found
        cases wanted.symm.trans same
    | submodule commit =>
        have makeable := moves.makeable _ _ (moves.asked inside)
        rw [wanted] at makeable
        exact absurd makeable id

/-- What is left, with the entries that are written, is the snapshot. -/
theorem get?_eq {written : Snapshot} (looks : ∀ place, written.get? place =
      if place ∈ plan.written.map (·.1) then snapshot.get? place
      else (tree.withoutAll (plan.removed.map (·.1))).get? place) : written = snapshot := by
  apply Table.ext_get?
  intro place
  rw [looks place]
  split
  · rfl
  · rename_i unwritten
    apply Option.ext
    intro entry
    constructor
    · intro found
      -- the step that met it does not write, so it is as the entry asks for
      obtain ⟨-, -, step, member, rfl, -⟩ := moves.left found
      rw [moves.kept member (silent_of_unwritten member unwritten)] at found
      rw [← found]
      exact moves.asked member
    · intro found
      obtain ⟨step, member, rfl, rfl⟩ := moves.exists_step found
      exact moves.kept member (silent_of_unwritten member unwritten)

end Moves

/-! ## The order of names -/

section Ordered

variable {stand : Stand} {place : TreePath}

theorem ordered_removeAll (ordered : Disk.Ordered stand.disk place)
    (paths : List (TreePath × Bool)) :
    Disk.Ordered (removeAll top stand paths).2.disk place := by
  induction paths generalizing stand with
  | nil => exact ordered
  | cons first rest ih =>
      obtain ⟨path, kept⟩ := first
      rw [removeAll]
      cases cleared : clear stand.disk top path with
      | error error => exact ordered
      | ok disk => exact ih (ordered.clear cleared)

theorem ordered_writeEntry (ordered : Disk.Ordered stand.disk place) (path : TreePath)
    (entry : Entry) : Disk.Ordered (writeEntry top stand path entry).2.disk place := by
  unfold writeEntry
  dsimp only
  generalize (if entry.content?.isSome then path.dropLast else path) = directories
  have entered := ordered.enterAll top directories
  split
  · rename_i failed
    rw [failed] at entered
    exact entered
  · rename_i done
    rw [done] at entered
    cases made : make _ top path entry with
    | error error => exact entered
    | ok disk =>
        cases entry with
        | file content executable => exact entered.write made
        | link target => exact entered.makeLink made
        | submodule commit =>
            cases made
            exact entered

theorem ordered_writeAll (ordered : Disk.Ordered stand.disk place)
    (entries : List (TreePath × Entry)) :
    Disk.Ordered (writeAll top stand entries).2.disk place := by
  induction entries generalizing stand with
  | nil => exact ordered
  | cons first rest ih =>
      obtain ⟨path, entry⟩ := first
      have one := @ordered_writeEntry top stand place ordered path entry
      rw [writeAll]
      split
      · rename_i failed
        rw [failed] at one
        exact one
      · rename_i done
        rw [done] at one
        exact ih one

/-- A checkout keeps the order, whatever comes of it. -/
theorem ordered_run (ordered : Disk.Ordered stand.disk place) (snapshot : Snapshot) :
    Disk.Ordered (run top stand snapshot).2.disk place := by
  unfold run
  dsimp only
  have removed := @ordered_removeAll top stand place ordered
    (plan stand.index snapshot ((stand.disk.at? top).getD .vacant)).removed
  split
  · rename_i failed
    rw [failed] at removed
    exact removed
  · rename_i done
    rw [done] at removed
    exact ordered_writeAll removed _

end Ordered

/-! ## The whole checkout -/

/-- What is shown of a working tree are directories and the files that it keeps. -/
theorem seen_of_leaf (keeps : disk.Keeps top tree) (own : index.Standing top) {item : Item}
    (member : item ∈ items index snapshot ((disk.at? top).getD .vacant))
    (leaf : item.isDirectory = false) :
    ∃ entry, item = .ofEntry item.path entry ∧ entry.content?.isSome = true ∧
      tree.get? item.path = some entry := by
  rcases seen_of_mem_items keeps own.noSubmodule member with
    ⟨path, rfl, -⟩ | ⟨path, entry, rfl, found, stands⟩
  · cases leaf
  · rw [path_ofEntry]
    exact ⟨entry, rfl, stands, found⟩

/-- The plan of a checkout moves a working tree that has entries of the index only. -/
theorem moves_plan (keeps : disk.Keeps top tree) (own : index.Standing top)
    (inner : ∀ place entry, tree.get? place = some entry → index.get? place = some entry)
    (goal : snapshot.Standing top)
    (links : ∀ place target, tree.get? place = some (.link target) →
      snapshot.get? place = some (.link target)) :
    Moves snapshot tree (items index snapshot ((disk.at? top).getD .vacant))
      (plan index snapshot ((disk.at? top).getD .vacant)) := by
  obtain ⟨entries, stands⟩ := Disk.look_eq_directory.1 keeps.holds.stands
  have distinct : ((items index snapshot ((disk.at? top).getD .vacant)).map Item.path).Nodup := by
    rw [stands]
    exact nodup_items (keeps.ordered.at_place stands)
  refine ⟨plans_planFrom index distinct ?_, goal.proper, goal.makeable, own.proper.less inner,
    fun item member leaf => seen_of_leaf keeps own member leaf, ?_, links⟩
  · intro item member leaf
    obtain ⟨entry, -, -, found⟩ := seen_of_leaf keeps own member leaf
    rw [Table.contains, inner _ _ found]
    rfl
  · intro place entry found
    refine ⟨mem_items keeps own.proper own.noSubmodule inner found, ?_⟩
    exact (own.makeable _ _ (inner _ _ found)).stands

/-- What a plan removes can be cleared. -/
theorem Moves.clearable {items : List Item} {plan : Plan} (moves : Moves snapshot tree items plan)
    (own : index.Standing top)
    (inner : ∀ place entry, tree.get? place = some entry → index.get? place = some entry)
    (goal : snapshot.Standing top) :
    ∀ path ∈ plan.removed, path.1 ≠ [] ∧ path.1.isValid = true ∧
      tree.Straight path.1.dropLast ∧ ∀ name ∈ path.1, name.length ≤ Disk.maxName := by
  intro path member
  rcases mem_removed.1 (List.mem_map_of_mem member) with ⟨step, inside, -, same⟩ | gone
  · have found := moves.asked inside
    rw [same] at found
    refine ⟨goal.proper.nonempty _ _ found, goal.proper.valid _ _ found, ?_, goal.short found⟩
    exact goal.proper.straight_dropLast found moves.links
  · obtain ⟨item, inside, leaf, same⟩ := moves.plans.removed _ gone
    obtain ⟨entry, -, -, found⟩ := moves.seen item inside leaf
    rw [same] at found
    have indexed := inner _ _ found
    exact ⟨own.proper.nonempty _ _ indexed, own.proper.valid _ _ indexed,
      moves.held.straight_dropLast found fun _ _ link => link, own.short indexed⟩

/-- **A checkout** brings a working tree to a snapshot, whatever entries of the index are in it,
if the snapshot has the links that are there. -/
theorem run_of_keeps (keeps : disk.Keeps top tree) (own : index.Standing top)
    (inner : ∀ place entry, tree.get? place = some entry → index.get? place = some entry)
    (goal : snapshot.Standing top)
    (links : ∀ place target, tree.get? place = some (.link target) →
      snapshot.get? place = some (.link target)) :
    ∃ next index', run top ⟨disk, index⟩ snapshot = (.ok (), ⟨next, index'⟩) ∧
      next.Keeps top snapshot ∧ Disk.Spares disk next top := by
  have moves := moves_plan keeps own inner goal links
  obtain ⟨middle, index', removed, keeps', first⟩ :=
    removeAll_keeps keeps moves.held (moves.clearable own inner goal) index
  obtain ⟨next, index'', tree', wrote, keepsNext, later, looks⟩ :=
    writeAll_of_ready goal keeps' moves.ready index'
  rw [moves.get?_eq looks] at keepsNext
  refine ⟨next, index'', ?_, keepsNext, first.trans later⟩
  unfold run
  dsimp only
  rw [removed]
  exact wrote

end Checkout

end TokenBlame
