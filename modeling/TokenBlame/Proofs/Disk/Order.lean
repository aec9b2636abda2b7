/-
# TokenBlame.Proofs.Disk.Order -- directories keep the order of their names

Where every directory from a place on has its entries in the order of their names
(`Ordered`), each entry is one that a look-up finds.  Putting something anywhere and taking
something away keep the order (`Ordered.put`, `Ordered.erase`), so every change to a disk
does that is made of them: directories that are made, files that are written or removed,
and directories that are pruned.
-/
import TokenBlame.Proofs.Disk.Removal

set_option autoImplicit false

namespace TokenBlame.Disk

open Git

/-- Every directory from a place on has its entries in the order of their names. -/
def Ordered (node : Node) (top : TreePath) : Prop :=
  ∀ way entries, node.at? (top ++ way) = some (.directory entries) →
    entries.Pairwise fun a b => compare a.1 b.1 = .lt

section Ordered

variable {node item : Node} {top : TreePath}

theorem Ordered.inner (ordered : Ordered node []) (top : TreePath) : Ordered node top :=
  fun way entries found => ordered (top ++ way) entries found

/-- What stands at the place is all that counts. -/
theorem Ordered.elsewhere {other : Node} (ordered : Ordered node top)
    (same : other.at? top = node.at? top) : Ordered other top := by
  intro way entries found
  rw [Node.at?_append, same, ← Node.at?_append] at found
  exact ordered way entries found

/-- What stands at an ordered place is in order. -/
theorem Ordered.at_place {place : Node}
    (ordered : Ordered node top) (found : node.at? top = some place) : Ordered place [] := by
  intro way entries there
  refine ordered way entries ?_
  rw [Node.at?_append, found]
  exact there

theorem ordered_vacant (top : TreePath) : Ordered .vacant top := by
  intro way entries found
  cases shape : top ++ way with
  | nil =>
      rw [shape] at found
      cases found
      exact List.Pairwise.nil
  | cons name rest =>
      rw [shape] at found
      cases found

theorem ordered_file (content : Bytes) (executable : Bool) (top : TreePath) :
    Ordered (.file content executable) top := by
  intro way entries found
  cases shape : top ++ way with
  | nil =>
      rw [shape] at found
      cases found
  | cons name rest =>
      rw [shape] at found
      cases found

theorem ordered_link (target : Bytes) (top : TreePath) : Ordered (.link target) top := by
  intro way entries found
  cases shape : top ++ way with
  | nil =>
      rw [shape] at found
      cases found
  | cons name rest =>
      rw [shape] at found
      cases found

theorem ordered_cons {name : Name} :
    Ordered node (name :: top) ↔
      ∀ inner, Table.lookup name node.entries = some inner → Ordered inner top := by
  constructor
  · intro ordered inner there way entries found
    refine ordered way entries ?_
    rw [List.cons_append, Node.at?_cons, there, Option.bind_some, found]
  · intro each way entries found
    rw [List.cons_append, Node.at?_cons] at found
    obtain ⟨inner, there, below⟩ := Option.bind_eq_some_iff.1 found
    exact each inner there way entries below

theorem ordered_directory {entries : List (Name × Node)} :
    Ordered (.directory entries) [] ↔
      (entries.Pairwise fun a b => compare a.1 b.1 = .lt) ∧
        ∀ name inner, Table.lookup name entries = some inner → Ordered inner [] := by
  constructor
  · intro ordered
    exact ⟨ordered [] entries rfl, fun name => ordered_cons.1 (ordered.inner [name])⟩
  · rintro ⟨increasing, each⟩ way found there
    cases way with
    | nil =>
        cases there
        exact increasing
    | cons name rest =>
        have below : Ordered (.directory entries) [name] := ordered_cons.2 (each name)
        exact below rest found there

/-! ## Putting and erasing -/

/-- A directory with other entries is in order where what is looked up there is. -/
theorem Ordered.of_entries {entries others : List (Name × Node)}
    (ordered : Ordered (.directory entries) top)
    (increasing : (entries.Pairwise fun a b => compare a.1 b.1 = .lt) →
      others.Pairwise fun a b => compare a.1 b.1 = .lt)
    (each : ∀ name rest, (∀ inner, Table.lookup name entries = some inner → Ordered inner rest) →
      ∀ inner, Table.lookup name others = some inner → Ordered inner rest) :
    Ordered (.directory others) top := by
  cases top with
  | nil =>
      obtain ⟨before, inside⟩ := ordered_directory.1 ordered
      exact ordered_directory.2 ⟨increasing before, fun name => each name [] (inside name)⟩
  | cons name rest => exact ordered_cons.2 (each name rest (ordered_cons.1 ordered))

theorem Ordered.insertEntry {entries : List (Name × Node)} {name : Name}
    (ordered : Ordered (.directory entries) top)
    (own : ∀ rest, (∀ inner, Table.lookup name entries = some inner → Ordered inner rest) →
      Ordered item rest) :
    Ordered (.directory (Table.insertEntry name item entries)) top := by
  refine ordered.of_entries (Table.insertEntry_increasing _ _ _) ?_
  intro head rest each inner there
  by_cases same : name = head
  · subst same
    rw [lookup_insertEntry_self] at there
    cases there
    exact own rest each
  · rw [lookup_insertEntry_ne same] at there
    exact each inner there

/-- What is put at a place keeps the order. -/
theorem Ordered.put (ordered : Ordered node top) (inside : Ordered item []) (place : TreePath) :
    Ordered (node.put place item) top := by
  induction place generalizing node top with
  | nil => exact inside.inner top
  | cons name place ih =>
      cases node with
      | file content executable => exact ordered
      | link target => exact ordered
      | directory entries =>
          refine ordered.insertEntry fun rest each => ih ?_
          cases there : Table.lookup name entries with
          | none => exact ordered_vacant rest
          | some inner => exact each inner there

/-- What is taken away keeps the order. -/
theorem Ordered.erase (ordered : Ordered node top) (place : TreePath) :
    Ordered (node.erase place) top := by
  induction place generalizing node top with
  | nil => cases node <;> exact ordered
  | cons name place ih =>
      cases node with
      | file content executable => exact ordered
      | link target => exact ordered
      | directory entries =>
          cases place with
          | nil =>
              refine ordered.of_entries (List.Pairwise.filter _) ?_
              intro head rest each inner there
              by_cases same : name = head
              · subst same
                rw [lookup_filter_self] at there
                cases there
              · rw [lookup_filter_ne same] at there
                exact each inner there
          | cons next place =>
              rw [erase_directory]
              cases found : Table.lookup name entries with
              | none => exact ordered
              | some own => exact ordered.insertEntry fun rest each => ih (each own found)

end Ordered

/-! ## Changes to a disk -/

section Changes

variable {disk : Disk} {top : TreePath}

theorem Ordered.fill (ordered : Ordered disk top) (place : TreePath) (content : Bytes)
    (executable : Bool) : Ordered (Disk.fill disk place content executable) top := by
  rw [fill_eq]
  exact ordered.put (ordered_file _ _ _) place

theorem Ordered.enterAll (ordered : Ordered disk top) (place : TreePath) (names : List Name) :
    Ordered (enterAll disk place names).2 top := by
  induction names generalizing disk place with
  | nil => exact ordered
  | cons name rest ih =>
      rw [Disk.enterAll]
      cases entered : enter disk place name (rest.all List.isEmpty) with
      | error error => exact ordered
      | ok result =>
          obtain ⟨here, next⟩ := result
          refine ih ?_ here
          cases enters_of_enter entered with
          | make => exact ordered.put (ordered_vacant _) _
          | _ => exact ordered

theorem Ordered.makeDirectories (ordered : Ordered disk top) (route : Route) :
    Ordered (makeDirectories disk route).2 top := by
  unfold Disk.makeDirectories
  dsimp only
  split
  · exact ordered
  split
  · exact ordered.enterAll _ _
  split
  · exact ordered
  split
  · have made := ordered.enterAll route.start route.parent.names
    split
    · rename_i entered
      rw [entered] at made
      exact made
    · rename_i entered
      rw [entered] at made
      exact made
  · exact ordered

theorem Ordered.write (ordered : Ordered disk top) {next : Disk} {route : Route} {content : Bytes}
    {executable : Bool} (written : disk.write route content executable = .ok next) :
    Ordered next top := by
  obtain ⟨place, -, rfl⟩ := write_eq_ok_iff.1 written
  exact ordered.fill place content executable

theorem Ordered.remove (ordered : Ordered disk top) {next : Disk} {route : Route}
    (removed : disk.remove route = .ok next) : Ordered next top := by
  obtain ⟨-, found, entry, -, -, -, -, rfl⟩ := remove_eq_ok_iff.1 removed
  exact ordered.erase _

theorem Ordered.makeLink (ordered : Ordered disk top) {next : Disk} {route : Route} {target : Bytes}
    (made : disk.makeLink route target = .ok next) : Ordered next top := by
  obtain ⟨-, -, -, found, -, -, -, -, rfl⟩ := makeLink_eq_ok_iff.1 made
  exact ordered.put (ordered_link _ _) _

theorem Ordered.removeDirectory (ordered : Ordered disk top) {next : Disk} {place : TreePath}
    {names : List Name} (removed : removeDirectory disk place names = .ok next) :
    Ordered next top := by
  obtain ⟨found, -, -, rfl⟩ := removeDirectory_eq_ok_iff.1 removed
  exact ordered.erase _

theorem Ordered.prune (ordered : Ordered disk top) (place : TreePath) (ways : List TreePath) :
    Ordered (disk.prune place ways) top := by
  induction ways generalizing disk with
  | nil => exact ordered
  | cons names rest ih =>
      rw [Disk.prune]
      cases removed : Disk.removeDirectory disk place names with
      | error error => exact ordered
      | ok next => exact ih (ordered.removeDirectory removed)

end Changes

/-! ## Ordered working trees -/

/-- A disk whose working tree holds a snapshot, all of its directories in order. -/
structure Keeps (disk : Disk) (top : TreePath) (tree : Snapshot) : Prop where
  holds : Disk.Holds disk top tree
  ordered : Disk.Ordered disk top

/-- What is at the top is all that counts. -/
theorem Keeps.elsewhere {disk other : Disk} {top : TreePath} {tree : Snapshot}
    (keeps : disk.Keeps top tree) (same : other.at? top = disk.at? top) : other.Keeps top tree :=
  ⟨keeps.holds.elsewhere same, keeps.ordered.elsewhere same⟩

end TokenBlame.Disk
