/-
# TokenBlame.Proofs.Disk.Look -- what is seen at a place before and after a change

`look` says what is seen at a place: a directory, a file or a link, and nothing of what is
inside a directory.  A change to a disk is told by what is seen afterwards at every place
(`look_put`, `look_erase`).

Whatever is above something that is seen is a directory (`look_above`), so a place is open
where nothing but directories is above it (`Open`).
-/
import TokenBlame.Disk.Basic
import TokenBlame.Git.Snapshot
import TokenBlame.Proofs.Git.TreePath

set_option autoImplicit false

namespace TokenBlame.Disk

open Git

/-! ## Names in a directory -/

theorem lookup_insertEntry_self (name : Name) (node : Node) (entries : List (Name × Node)) :
    Table.lookup name (Table.insertEntry name node entries) = some node := by
  rw [Table.lookup_insertEntry, if_pos (Std.compare_eq_iff_eq.2 rfl)]

theorem lookup_insertEntry_ne {name other : Name} (different : name ≠ other) (node : Node)
    (entries : List (Name × Node)) :
    Table.lookup other (Table.insertEntry name node entries) = Table.lookup other entries := by
  rw [Table.lookup_insertEntry, if_neg fun same => different (Std.compare_eq_iff_eq.1 same)]

theorem lookup_cons_name (k : Name) (node : Node) (rest : List (Name × Node)) (name : Name) :
    Table.lookup name ((k, node) :: rest) = if k = name then some node else Table.lookup name rest := by
  rw [Table.lookup_cons]
  simp only [Std.compare_eq_iff_eq]

theorem lookup_filter_self (name : Name) (entries : List (Name × Node)) :
    Table.lookup name (entries.filter fun entry => entry.1 != name) = none := by
  induction entries with
  | nil => rfl
  | cons entry rest ih =>
      obtain ⟨k, node⟩ := entry
      rw [List.filter_cons]
      split
      · rename_i kept
        rw [lookup_cons_name, if_neg (by simpa using kept), ih]
      · exact ih

theorem lookup_filter_ne {name other : Name} (different : name ≠ other)
    (entries : List (Name × Node)) :
    Table.lookup other (entries.filter fun entry => entry.1 != name) =
      Table.lookup other entries := by
  induction entries with
  | nil => rfl
  | cons entry rest ih =>
      obtain ⟨k, node⟩ := entry
      rw [List.filter_cons]
      split
      · rw [lookup_cons_name, lookup_cons_name, ih]
      · rename_i dropped
        have same : k = name := by simpa using dropped
        rw [lookup_cons_name, if_neg (same ▸ different), ih]

/-! ## Looking -/

/-- What is seen of a node without looking into it. -/
inductive Seen where
  | directory
  | entry (entry : Entry)
  deriving DecidableEq, Repr

/-- What is seen of a node. -/
def Node.seen : Node → Seen
  | .directory _ => .directory
  | .file content executable => .entry (.file content executable)
  | .link target => .entry (.link target)

/-- What is seen at a place. -/
def look (node : Node) (place : TreePath) : Option Seen :=
  (node.at? place).map Node.seen

@[simp] theorem look_nil (node : Node) : look node [] = some node.seen := rfl

theorem look_cons (node : Node) (name : Name) (rest : TreePath) :
    look node (name :: rest) =
      (Table.lookup name node.entries).bind fun inner => look inner rest := by
  unfold look
  rw [Node.at?_cons, Option.map_bind]
  rfl

theorem look_append (node : Node) (place rest : TreePath) :
    look node (place ++ rest) = (node.at? place).bind fun inner => look inner rest := by
  unfold look
  rw [Node.at?_append, Option.map_bind]
  rfl

theorem look_vacant (place : TreePath) :
    look .vacant place = if place = [] then some .directory else none := by
  cases place <;> rfl

/-- Nothing is inside a file or a link. -/
theorem look_entry {node : Node} {entry : Entry} (seen : node.seen = .entry entry)
    (place : TreePath) : look node place = if place = [] then some (.entry entry) else none := by
  cases place with
  | nil => exact congrArg some seen
  | cons name rest =>
      cases node with
      | directory entries => cases seen
      | file content executable => rfl
      | link target => rfl

theorem look_file (content : Bytes) (executable : Bool) (place : TreePath) :
    look (.file content executable) place =
      if place = [] then some (.entry (.file content executable)) else none :=
  look_entry rfl place

theorem seen_eq_directory {node : Node} :
    node.seen = .directory ↔ ∃ entries, node = .directory entries := by
  cases node <;> simp [Node.seen]

theorem look_eq_directory {node : Node} {place : TreePath} :
    look node place = some .directory ↔ ∃ entries, node.at? place = some (.directory entries) := by
  unfold look
  rw [Option.map_eq_some_iff]
  constructor
  · rintro ⟨inner, found, seen⟩
    obtain ⟨entries, rfl⟩ := seen_eq_directory.1 seen
    exact ⟨entries, found⟩
  · rintro ⟨entries, found⟩
    exact ⟨_, found, rfl⟩

theorem look_eq_file {node : Node} {place : TreePath} {content : Bytes} {executable : Bool} :
    look node place = some (.entry (.file content executable)) ↔
      node.at? place = some (.file content executable) := by
  unfold look
  rw [Option.map_eq_some_iff]
  constructor
  · rintro ⟨inner, found, seen⟩
    cases inner with
    | directory entries => cases seen
    | file content' executable' =>
        cases seen
        exact found
    | link target => cases seen
  · intro found
    exact ⟨_, found, rfl⟩

theorem look_eq_none {node : Node} {place : TreePath} :
    look node place = none ↔ node.at? place = none := by
  simp [look]

/-- What is above something that is seen is a directory. -/
theorem look_above {node : Node} {above : TreePath} {name : Name} {rest : TreePath} {seen : Seen}
    (found : look node (above ++ name :: rest) = some seen) : look node above = some .directory := by
  rw [look_append] at found
  obtain ⟨inner, there, below⟩ := Option.bind_eq_some_iff.1 found
  unfold look
  rw [there]
  cases inner with
  | directory entries => rfl
  | file content executable => simp [look_file] at below
  | link target => simp [look_cons, Node.entries, Table.lookup] at below

theorem look_leading {node : Node} {above place : TreePath} {seen : Seen}
    (before : above <+: place) (other : above ≠ place) (found : look node place = some seen) :
    look node above = some .directory := by
  obtain ⟨rest, rfl⟩ := before
  cases rest with
  | nil => simp at other
  | cons name rest => exact look_above found

/-- On the way to something there are directories. -/
theorem look_toward {node : Node} {top way path : TreePath} {seen : Seen}
    (inside : TreePath.isInside way path = true) (found : look node (top ++ path) = some seen) :
    look node (top ++ way) = some .directory := by
  obtain ⟨start, different⟩ := TreePath.isInside_iff.1 inside
  exact look_leading ((List.prefix_append_right_inj _).2 start)
    (fun same => different (List.append_cancel_left same)) found

/-- What is above a directory is a directory, and so is the directory itself. -/
theorem look_outer {node : Node} {above place : TreePath} (before : above <+: place)
    (found : look node place = some .directory) : look node above = some .directory := by
  by_cases same : above = place
  · rw [same, found]
  · exact look_leading before same found

/-! ## Putting -/

/-- Nothing but directories is above a place. -/
def Open (node : Node) (place : TreePath) : Prop :=
  ∀ above seen, above <+: place → above ≠ place → look node above = some seen → seen = .directory

theorem Open.of_look {node : Node} {place : TreePath} {seen : Seen}
    (found : look node place = some seen) : Open node place := by
  intro above seen' before other there
  rw [look_leading before other found] at there
  exact (Option.some.inj there).symm

theorem Open.of_directory {node : Node} {place : TreePath} {name : Name}
    (found : look node place = some .directory) : Open node (place ++ [name]) := by
  intro above seen before other there
  rcases List.prefix_concat_iff.1 before with same | before
  · exact absurd same other
  · by_cases same : above = place
    · subst same
      rw [found] at there
      exact (Option.some.inj there).symm
    · exact Open.of_look found above seen before same there

theorem Open.inner {entries : List (Name × Node)} {name : Name} {rest : TreePath}
    (opened : Open (.directory entries) (name :: rest)) :
    Open ((Table.lookup name entries).getD .vacant) rest := by
  intro above seen before other there
  cases found : Table.lookup name entries with
  | none =>
      rw [found, Option.getD_none, look_vacant] at there
      split at there
      · exact (Option.some.inj there).symm
      · cases there
  | some inner =>
      rw [found, Option.getD_some] at there
      refine opened (name :: above) seen (List.cons_prefix_cons.2 ⟨rfl, before⟩) (by simpa using other) ?_
      rw [look_cons, Node.entries, found, Option.bind_some, there]

theorem Open.directory {node : Node} {name : Name} {rest : TreePath}
    (opened : Open node (name :: rest)) : ∃ entries, node = .directory entries :=
  seen_eq_directory.1 (opened [] node.seen List.nil_prefix (by simp) rfl)

/-- Where a place is open, what is put there is seen there, and directories above it. -/
theorem look_put {node : Node} {place : TreePath} (opened : Open node place) (item : Node)
    (path : TreePath) :
    look (node.put place item) path =
      if place <+: path then look item (path.drop place.length)
      else if path <+: place then some .directory
      else look node path := by
  induction place generalizing node path with
  | nil => simp [Node.put]
  | cons name rest ih =>
      obtain ⟨entries, rfl⟩ := opened.directory
      cases path with
      | nil => simp [Node.put, Node.seen]
      | cons head tail =>
          rw [Node.put, look_cons, Node.entries]
          by_cases same : name = head
          · subst same
            rw [lookup_insertEntry_self, Option.bind_some, ih opened.inner]
            simp only [List.cons_prefix_cons, true_and, List.length_cons, List.drop_succ_cons]
            split
            · rfl
            split
            · rfl
            rename_i notBelow notAbove
            rw [look_cons, Node.entries]
            cases Table.lookup name entries with
            | some inner => rfl
            | none =>
                have some : tail ≠ [] := by
                  rintro rfl
                  exact notAbove List.nil_prefix
                rw [Option.getD_none, look_vacant, if_neg some]
                rfl
          · rw [lookup_insertEntry_ne same, look_cons, Node.entries]
            simp [List.cons_prefix_cons, same, Ne.symm same]

/-- What is put into a directory is seen there. -/
theorem look_put_self {node item : Node} {directory : TreePath} {name : Name}
    (stands : look node directory = some .directory) :
    look (node.put (directory ++ [name]) item) (directory ++ [name]) = some item.seen := by
  rw [look_put (Open.of_directory stands), if_pos (List.prefix_refl _), List.drop_length]
  rfl

/-- Nothing is seen below what is not a directory. -/
theorem look_below {node : Node} {place path : TreePath}
    (closed : look node place ≠ some .directory) (below : place <+: path) (other : path ≠ place) :
    look node path = none := by
  cases seen : look node path with
  | none => rfl
  | some what => exact absurd (look_leading below (Ne.symm other) seen) closed

/-- Where no directory is, what is put into the directory above is seen at its own place only, if
nothing is in it. -/
theorem look_put_name {node item : Node} {directory path : TreePath} {name : Name}
    (stands : look node directory = some .directory)
    (closed : look node (directory ++ [name]) ≠ some .directory)
    (bare : ∀ rest, rest ≠ [] → look item rest = none) (other : path ≠ directory ++ [name]) :
    look (node.put (directory ++ [name]) item) path = look node path := by
  rw [look_put (Open.of_directory stands)]
  split
  · rename_i below
    rw [look_below closed below other]
    apply bare
    obtain ⟨rest, rfl⟩ := below
    rw [List.drop_left]
    simpa using other
  split
  · rename_i above
    rcases List.prefix_concat_iff.1 above with same | above
    · exact absurd same other
    · exact (look_outer above stands).symm
  · rfl

/-- What is seen above a place does not change when something is put there. -/
theorem look_put_above {node : Node} {place path : TreePath} (item : Node) {seen : Seen}
    (above : path <+: place) (other : path ≠ place) (found : look node path = some seen) :
    look (node.put place item) path = some seen := by
  induction path generalizing node place with
  | nil =>
      cases place with
      | nil => simp at other
      | cons name rest =>
          rw [← found]
          cases node <;> rfl
  | cons head tail ih =>
      cases place with
      | nil => simp at above
      | cons name rest =>
          obtain ⟨rfl, above'⟩ := List.cons_prefix_cons.1 above
          rw [look_cons] at found
          obtain ⟨inner, there, inside⟩ := Option.bind_eq_some_iff.1 found
          cases node with
          | directory entries =>
              rw [Node.entries] at there
              rw [Node.put, look_cons, Node.entries, lookup_insertEntry_self, Option.bind_some, there,
                Option.getD_some]
              exact ih above' (by simpa using other) inside
          | file content executable => cases there
          | link target => cases there

/-- What stands elsewhere does not change when something is put at a place. -/
theorem at?_put_apart {node : Node} {place path : TreePath} (item : Node)
    (notBelow : ¬ place <+: path) (notAbove : ¬ path <+: place) :
    (node.put place item).at? path = node.at? path := by
  induction place generalizing node path with
  | nil => simp at notBelow
  | cons name rest ih =>
      cases path with
      | nil => simp at notAbove
      | cons head tail =>
          cases node with
          | file content executable => rfl
          | link target => rfl
          | directory entries =>
              rw [Node.put, Node.at?_cons, Node.at?_cons, Node.entries, Node.entries]
              by_cases same : name = head
              · subst same
                have below : ¬ rest <+: tail := fun h => notBelow (List.cons_prefix_cons.2 ⟨rfl, h⟩)
                have above : ¬ tail <+: rest := fun h => notAbove (List.cons_prefix_cons.2 ⟨rfl, h⟩)
                rw [lookup_insertEntry_self, Option.bind_some, ih below above]
                cases Table.lookup name entries with
                | some inner => rfl
                | none =>
                    cases tail with
                    | nil => exact absurd List.nil_prefix above
                    | cons next tail => rfl
              · rw [lookup_insertEntry_ne same]

/-- What is seen elsewhere does not change either. -/
theorem look_put_apart {node : Node} {place path : TreePath} (item : Node)
    (notBelow : ¬ place <+: path) (notAbove : ¬ path <+: place) :
    look (node.put place item) path = look node path := by
  rw [look, look, at?_put_apart item notBelow notAbove]

/-! ## Erasing -/

/-- What is deeper is erased in the entry that its path begins with. -/
theorem erase_directory (entries : List (Name × Node)) (name next : Name) (rest : TreePath) :
    (Node.directory entries).erase (name :: next :: rest) =
      match Table.lookup name entries with
      | some inner => .directory (Table.insertEntry name (inner.erase (next :: rest)) entries)
      | none => .directory entries :=
  rfl

theorem seen_erase (node : Node) (place : TreePath) : (node.erase place).seen = node.seen := by
  unfold Node.erase
  split
  · rfl
  · split <;> rfl
  · rfl

/-- Of the entries of a directory one is taken away, or what is deeper is erased in it. -/
theorem lookup_erase (node : Node) (name : Name) (rest : TreePath) (other : Name) :
    Table.lookup other (node.erase (name :: rest)).entries =
      if name = other then
        if rest = [] then none else (Table.lookup name node.entries).map (Node.erase · rest)
      else Table.lookup other node.entries := by
  cases node with
  | file content executable => simp [Node.erase, Node.entries, Table.lookup]
  | link target => simp [Node.erase, Node.entries, Table.lookup]
  | directory entries =>
      by_cases same : name = other
      · subst same
        rw [if_pos rfl]
        cases rest with
        | nil => exact lookup_filter_self name entries
        | cons next rest =>
            rw [if_neg (List.cons_ne_nil _ _), erase_directory, Node.entries]
            cases found : Table.lookup name entries with
            | none => exact found
            | some inner => exact lookup_insertEntry_self name _ entries
      · rw [if_neg same]
        cases rest with
        | nil => exact lookup_filter_ne same entries
        | cons next rest =>
            rw [erase_directory]
            cases Table.lookup name entries with
            | none => rfl
            | some inner => exact lookup_insertEntry_ne same _ entries

/-- Afterwards nothing is seen at the place and below it, and elsewhere what was. -/
theorem look_erase {place : TreePath} (nonempty : place ≠ []) (node : Node) (path : TreePath) :
    look (node.erase place) path = if place <+: path then none else look node path := by
  induction place generalizing node path with
  | nil => exact absurd rfl nonempty
  | cons name rest ih =>
      cases path with
      | nil => simp [seen_erase]
      | cons head tail =>
          rw [look_cons, look_cons, lookup_erase]
          by_cases same : name = head
          · subst same
            rw [if_pos rfl]
            by_cases last : rest = []
            · simp [last]
            · rw [if_neg last]
              cases Table.lookup name node.entries with
              | none => simp
              | some inner => simp [ih last, List.cons_prefix_cons]
          · rw [if_neg same]
            simp [List.cons_prefix_cons, same]

/-- A directory stays when something inside it is taken away. -/
theorem look_erase_outer {path : TreePath} (nonempty : path ≠ []) (node : Node) (top : TreePath) :
    look (node.erase (top ++ path)) top = look node top := by
  rw [look_erase (by simp [nonempty]), if_neg]
  intro start
  have longer := start.length_le
  rw [List.length_append] at longer
  exact nonempty (List.eq_nil_of_length_eq_zero (by omega))

end TokenBlame.Disk
