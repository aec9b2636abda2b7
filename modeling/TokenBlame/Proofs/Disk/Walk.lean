/-
# TokenBlame.Proofs.Disk.Walk -- walking where no link is

Where no link is on the way, a walk only goes down, and `reach` says where it ends: it
looks at one place after another, as what is seen there tells.  The directory that names
lead to is what `reach` finds (`directoryAt_eq_reach`), and the last name of a path stands
in the directory that the names before it lead to (`site_eq`).
-/
import TokenBlame.Disk.Change
import TokenBlame.Proofs.Disk.Look
import Mathlib.Data.List.Induction

set_option autoImplicit false

namespace TokenBlame.Disk

open Git

/-! ## Trails -/

/-- A trail that leads to a place of a disk. -/
structure Trail.At (disk : Disk) (trail : Trail) (place : TreePath) : Prop where
  place_eq : trail.place = place
  node_eq : disk.at? place = some (trail.node disk)

theorem Trail.At.lookup {disk : Disk} {trail : Trail} {place : TreePath} (at_ : trail.At disk place)
    (name : Name) :
    Table.lookup name (trail.node disk).entries = disk.at? (place ++ [name]) := by
  rw [Node.at?_append, at_.node_eq, Option.bind_some, Node.at?_cons]
  simp

theorem Trail.At.push {disk : Disk} {trail : Trail} {place : TreePath} (at_ : trail.At disk place)
    {name : Name} {node : Node} (found : disk.at? (place ++ [name]) = some node) :
    Trail.At disk ((name, node) :: trail) (place ++ [name]) := by
  constructor
  · have here := at_.place_eq
    unfold Trail.place at here ⊢
    rw [List.map_cons, List.reverse_cons, here]
  · exact found

theorem leadingTo_concat (disk : Disk) (place : TreePath) (name : Name) :
    Trail.leadingTo disk (place ++ [name]) =
      match Table.lookup name ((Trail.leadingTo disk place).node disk).entries with
      | some inner => (name, inner) :: Trail.leadingTo disk place
      | none => Trail.leadingTo disk place := by
  unfold Trail.leadingTo
  rw [List.foldl_append]
  rfl

/-- The trail to a place where something stands leads there. -/
theorem leadingTo_at {disk : Disk} {place : TreePath} {node : Node}
    (found : disk.at? place = some node) : (Trail.leadingTo disk place).At disk place := by
  induction place using List.reverseRecOn generalizing node with
  | nil => exact ⟨rfl, rfl⟩
  | append_singleton place name ih =>
      have whole := found
      rw [Node.at?_append] at found
      obtain ⟨inner, there, -⟩ := Option.bind_eq_some_iff.1 found
      have before := ih there
      rw [leadingTo_concat, before.lookup name, whole]
      exact before.push whole

/-! ## One name -/

theorem ne_above {name : Name} (plain : TreePath.IsPlain name) : name ≠ above :=
  plain.down

section OneName

variable {disk : Disk} {onLink : Trail → List Name → Except Error TreePath} {trail : Trail}
  {place : TreePath} {name : Name} {rest : List Name}

theorem walkWith_skip (noStep : TreePath.isStep name = false) :
    walkWith disk onLink trail (name :: rest) = walkWith disk onLink trail rest := by
  rw [walkWith, noStep]
  rfl

theorem walkWith_long (plain : TreePath.IsPlain name) (long : maxName < name.length) :
    walkWith disk onLink trail (name :: rest) = .error .nameTooLong := by
  rw [walkWith, plain.step, if_neg (by simp), if_neg (ne_above plain), if_pos long]

theorem walkWith_up :
    walkWith disk onLink trail (above :: rest) = walkWith disk onLink trail.tail rest := by
  rw [walkWith, if_neg (by decide), if_pos rfl]

theorem walkWith_down (at_ : trail.At disk place) (plain : TreePath.IsPlain name)
    (short : ¬ maxName < name.length) {entries : List (Name × Node)}
    (there : disk.at? (place ++ [name]) = some (.directory entries)) :
    walkWith disk onLink trail (name :: rest) =
      walkWith disk onLink ((name, .directory entries) :: trail) rest := by
  rw [walkWith, plain.step, if_neg (by simp), if_neg (ne_above plain), if_neg short, at_.lookup, there]

theorem walkWith_link (at_ : trail.At disk place) (plain : TreePath.IsPlain name)
    (short : ¬ maxName < name.length) {target : Bytes}
    (there : disk.at? (place ++ [name]) = some (.link target)) :
    walkWith disk onLink trail (name :: rest) =
      onLink (if target.head? = some TreePath.slash then [] else trail)
        (TreePath.split target ++ rest) := by
  rw [walkWith, plain.step, if_neg (by simp), if_neg (ne_above plain), if_neg short, at_.lookup, there]

theorem walkWith_directory (at_ : trail.At disk place) (plain : TreePath.IsPlain name)
    (short : ¬ maxName < name.length) (found : look disk (place ++ [name]) = some .directory) :
    ∃ next : Trail, next.At disk (place ++ [name]) ∧ ∀ onLink rest,
      walkWith disk onLink trail (name :: rest) = walkWith disk onLink next rest := by
  obtain ⟨entries, there⟩ := look_eq_directory.1 found
  exact ⟨(name, .directory entries) :: trail, at_.push there, fun _ _ =>
    walkWith_down at_ plain short there⟩

theorem walkWith_file (at_ : trail.At disk place) (plain : TreePath.IsPlain name)
    (short : ¬ maxName < name.length) {content : Bytes} {executable : Bool}
    (found : look disk (place ++ [name]) = some (.entry (.file content executable))) :
    walkWith disk onLink trail (name :: rest) =
      if rest.isEmpty then .ok (place ++ [name]) else .error .notDirectory := by
  rw [walkWith, plain.step, if_neg (by simp), if_neg (ne_above plain), if_neg short, at_.lookup,
    look_eq_file.1 found, at_.place_eq]

theorem walkWith_none (at_ : trail.At disk place) (plain : TreePath.IsPlain name)
    (short : ¬ maxName < name.length) (found : look disk (place ++ [name]) = none) :
    walkWith disk onLink trail (name :: rest) =
      if rest.isEmpty then .ok (place ++ [name]) else .error .noSuchFile := by
  rw [walkWith, plain.step, if_neg (by simp), if_neg (ne_above plain), if_neg short, at_.lookup,
    look_eq_none.1 found, at_.place_eq]

end OneName

/-! ## Ways without links -/

/-- The place that a name after the other leads down to, all of them directories. -/
def reach (disk : Disk) (place : TreePath) : List Name → Except Error TreePath
  | [] => .ok place
  | name :: rest =>
      if maxName < name.length then .error .nameTooLong
      else
        match look disk (place ++ [name]) with
        | some .directory => reach disk (place ++ [name]) rest
        | some (.entry _) => .error .notDirectory
        | none => .error .noSuchFile

/-- No link is on the way. -/
def LinkFree (disk : Disk) (place : TreePath) (names : List Name) : Prop :=
  ∀ way target, way <+: names → look disk (place ++ way) ≠ some (.entry (.link target))

theorem LinkFree.outer {disk : Disk} {place : TreePath} {names others : List Name}
    (free : LinkFree disk place names) (before : others <+: names) : LinkFree disk place others :=
  fun way target start => free way target (start.trans before)

theorem LinkFree.head {disk : Disk} {place : TreePath} {name : Name} {rest : List Name}
    (free : LinkFree disk place (name :: rest)) (target : Bytes) :
    look disk (place ++ [name]) ≠ some (.entry (.link target)) :=
  free [name] target (List.cons_prefix_cons.2 ⟨rfl, List.nil_prefix⟩)

theorem LinkFree.tail {disk : Disk} {place : TreePath} {name : Name} {rest : List Name}
    (free : LinkFree disk place (name :: rest)) : LinkFree disk (place ++ [name]) rest := by
  intro way target start
  rw [List.append_assoc]
  exact free (name :: way) target (List.cons_prefix_cons.2 ⟨rfl, start⟩)

theorem walkWith_eq_reach {disk : Disk} {onLink : Trail → List Name → Except Error TreePath}
    {trail : Trail} {place : TreePath} (at_ : trail.At disk place) {names : List Name}
    (down : ∀ name ∈ names, name ≠ above) (free : LinkFree disk place (TreePath.resolve names))
    (submodules : ∀ way commit, look disk way ≠ some (.entry (.submodule commit))) :
    walkWith disk onLink trail (names ++ [[]]) = reach disk place (TreePath.resolve names) := by
  induction names generalizing trail place with
  | nil =>
      show walkWith disk onLink trail [[]] = .ok place
      rw [walkWith_skip (by decide), walkWith, at_.place_eq]
  | cons name rest ih =>
      have later : ∀ name ∈ rest, name ≠ above := fun n member =>
        down n (List.mem_cons_of_mem _ member)
      cases step : TreePath.isStep name with
      | false =>
          rw [TreePath.resolve_cons_skip step] at free ⊢
          rw [List.cons_append, walkWith_skip step, ih at_ later free]
      | true =>
          have plain : TreePath.IsPlain name := ⟨step, down name List.mem_cons_self⟩
          rw [TreePath.resolve_cons step] at free ⊢
          rw [List.cons_append, reach]
          by_cases long : maxName < name.length
          · rw [if_pos long, walkWith_long plain long]
          rw [if_neg long]
          cases found : look disk (place ++ [name]) with
          | none => simp [walkWith_none at_ plain long found]
          | some seen =>
              cases seen with
              | directory =>
                  obtain ⟨next, there, walked⟩ := walkWith_directory at_ plain long found
                  rw [walked]
                  exact ih there later free.tail
              | entry entry =>
                  cases entry with
                  | file content executable => simp [walkWith_file at_ plain long found]
                  | link target => exact absurd found (free.head target)
                  | submodule commit => exact absurd found (submodules _ commit)

theorem look_ne_submodule (disk : Disk) (place : TreePath) (commit : ObjectId) :
    look disk place ≠ some (.entry (.submodule commit)) := by
  unfold look
  cases disk.at? place with
  | none => simp
  | some node => cases node <;> simp [Node.seen]

/-- The directory that names lead to is what is reached by them. -/
theorem directoryAt_eq_reach {disk : Disk} {place : TreePath} {seen : Seen}
    (stands : look disk place = some seen) {names : List Name}
    (down : ∀ name ∈ names, name ≠ above) (free : LinkFree disk place (TreePath.resolve names)) :
    directoryAt disk place names = reach disk place (TreePath.resolve names) := by
  obtain ⟨node, found, -⟩ := Option.map_eq_some_iff.1 stands
  unfold directoryAt follow
  rw [walk]
  exact walkWith_eq_reach (leadingTo_at found) down free (look_ne_submodule disk)

/-- A name leads to its own place. -/
theorem follow_name {disk : Disk} {place : TreePath} {seen : Seen}
    (stands : look disk place = some seen) {name : Name} (plain : TreePath.IsPlain name)
    (short : ¬ maxName < name.length)
    (free : ∀ target, look disk (place ++ [name]) ≠ some (.entry (.link target))) :
    follow disk place [name] = .ok (place ++ [name]) := by
  obtain ⟨node, there, -⟩ := Option.map_eq_some_iff.1 stands
  have at_ := leadingTo_at there
  unfold follow
  rw [walk]
  cases found : look disk (place ++ [name]) with
  | none => rw [walkWith_none at_ plain short found]; rfl
  | some seen =>
      cases seen with
      | directory =>
          obtain ⟨next, here, walked⟩ := walkWith_directory at_ plain short found
          rw [walked, walkWith, here.place_eq]
      | entry entry =>
          cases entry with
          | file content executable => rw [walkWith_file at_ plain short found]; rfl
          | link target => exact absurd found (free target)
          | submodule commit => exact absurd found (look_ne_submodule disk _ commit)

/-! ## What is reached -/

/-- Names that are short enough and lead through directories only lead to their place. -/
theorem reach_ok {disk : Disk} {place : TreePath} {names : List Name}
    (short : ∀ name ∈ names, name.length ≤ maxName)
    (directories : ∀ way, way <+: names → way ≠ [] → look disk (place ++ way) = some .directory) :
    reach disk place names = .ok (place ++ names) := by
  induction names generalizing place with
  | nil => simp [reach]
  | cons name rest ih =>
      have fits : ¬ maxName < name.length := Nat.not_lt.2 (short name List.mem_cons_self)
      have first : look disk (place ++ [name]) = some .directory :=
        directories [name] (List.cons_prefix_cons.2 ⟨rfl, List.nil_prefix⟩) (by simp)
      rw [reach, if_neg fits, first]
      dsimp only
      rw [ih (fun n member => short n (List.mem_cons_of_mem _ member)), List.append_assoc]
      · rfl
      · intro way start _
        rw [List.append_assoc]
        exact directories (name :: way) (List.cons_prefix_cons.2 ⟨rfl, start⟩) (by simp)

/-- What is reached is the place of the names, and there and on the way there are
directories. -/
theorem of_reach_ok {disk : Disk} {place found : TreePath} {names : List Name}
    (reached : reach disk place names = .ok found) :
    found = place ++ names ∧ (∀ name ∈ names, name.length ≤ maxName) ∧
      ∀ way, way <+: names → way ≠ [] → look disk (place ++ way) = some .directory := by
  induction names generalizing place with
  | nil =>
      cases reached
      exact ⟨by simp, by simp, fun way start some => absurd (List.prefix_nil.1 start) some⟩
  | cons name rest ih =>
      rw [reach] at reached
      split at reached
      · cases reached
      rename_i fits
      split at reached
      · rename_i first
        obtain ⟨rfl, short, directories⟩ := ih reached
        refine ⟨by simp, ?_, ?_⟩
        · intro n member
          rcases List.mem_cons.1 member with rfl | member
          · exact Nat.not_lt.1 fits
          · exact short n member
        · intro way start some
          obtain ⟨head, tail, rfl⟩ := List.exists_cons_of_ne_nil some
          obtain ⟨rfl, later⟩ := List.cons_prefix_cons.1 start
          cases tail with
          | nil => exact first
          | cons next tail =>
              have below := directories (next :: tail) later (by simp)
              rwa [List.append_assoc] at below
      · cases reached
      · cases reached

/-- Names that are short enough and lead through nothing but directories, as far as
something is there, lead to their place or to where nothing is. -/
theorem reach_open {disk : Disk} {place : TreePath} {names : List Name}
    (short : ∀ name ∈ names, name.length ≤ maxName)
    (opened : ∀ way entry, way <+: names → look disk (place ++ way) ≠ some (.entry entry)) :
    reach disk place names = .ok (place ++ names) ∨
      reach disk place names = .error .noSuchFile := by
  induction names generalizing place with
  | nil => simp [reach]
  | cons name rest ih =>
      have fits : ¬ maxName < name.length := Nat.not_lt.2 (short name List.mem_cons_self)
      rw [reach, if_neg fits]
      cases found : look disk (place ++ [name]) with
      | none => exact Or.inr rfl
      | some seen =>
          cases seen with
          | entry entry =>
              exact absurd found
                (opened [name] entry (List.cons_prefix_cons.2 ⟨rfl, List.nil_prefix⟩))
          | directory =>
              have later := @ih (place ++ [name])
                (fun n member => short n (List.mem_cons_of_mem _ member)) (by
                  intro way entry start
                  rw [List.append_assoc]
                  exact opened (name :: way) entry (List.cons_prefix_cons.2 ⟨rfl, start⟩))
              rwa [List.append_assoc] at later

/-- Names that lead through a file lead nowhere. -/
theorem reach_blocked {disk : Disk} {place way : TreePath} {names : List Name} {entry : Entry}
    (short : ∀ name ∈ names, name.length ≤ maxName) (start : way <+: names) (nonempty : way ≠ [])
    (found : look disk (place ++ way) = some (.entry entry)) :
    reach disk place names = .error .notDirectory := by
  induction names generalizing place way with
  | nil => exact absurd (List.prefix_nil.1 start) nonempty
  | cons name rest ih =>
      obtain ⟨first, way, rfl⟩ := List.exists_cons_of_ne_nil nonempty
      obtain ⟨rfl, later⟩ := List.cons_prefix_cons.1 start
      have fits : ¬ maxName < first.length := Nat.not_lt.2 (short first List.mem_cons_self)
      rw [reach, if_neg fits]
      cases way with
      | nil => rw [found]
      | cons next way =>
          have whole : place ++ first :: next :: way = place ++ [first] ++ next :: way := by simp
          rw [whole] at found
          rw [look_above found]
          exact ih (fun n member => short n (List.mem_cons_of_mem _ member)) later (by simp) found

/-- Names that lead to where nothing is lead through directories up to there. -/
theorem reach_missing {disk : Disk} {place : TreePath} {names : List Name}
    (missing : reach disk place names = .error .noSuchFile) :
    ∃ way, way <+: names ∧ way ≠ [] ∧ look disk (place ++ way) = none ∧
      ∀ outer, outer <+: way → outer ≠ [] → outer ≠ way →
        look disk (place ++ outer) = some .directory := by
  induction names generalizing place with
  | nil => cases missing
  | cons name rest ih =>
      rw [reach] at missing
      split at missing
      · exact absurd (Except.error.inj missing) (by decide)
      split at missing
      · rename_i first
        obtain ⟨way, start, -, none, directories⟩ := ih missing
        rw [List.append_assoc] at none
        refine ⟨name :: way, List.cons_prefix_cons.2 ⟨rfl, start⟩, by simp, none, ?_⟩
        intro outer before some different
        obtain ⟨head, tail, rfl⟩ := List.exists_cons_of_ne_nil some
        obtain ⟨rfl, later⟩ := List.cons_prefix_cons.1 before
        cases tail with
        | nil => exact first
        | cons next tail =>
            have below := directories (next :: tail) later (by simp) (by simpa using different)
            rwa [List.append_assoc] at below
      · exact absurd (Except.error.inj missing) (by decide)
      · rename_i none
        refine ⟨[name], List.cons_prefix_cons.2 ⟨rfl, List.nil_prefix⟩, by simp, none, ?_⟩
        intro outer before some different
        rcases List.prefix_concat_iff.1 (show outer <+: [] ++ [name] from before) with same | above
        · exact absurd same different
        · exact absurd (List.prefix_nil.1 above) some

/-! ## The last name -/

/-- The last name that is not empty stands in the directory that those before it lead to. -/
theorem site_eq (disk : Disk) (place : TreePath) {lead blanks : List Name} {name : Name}
    (nonempty : name ≠ []) (blank : ∀ other ∈ blanks, other = []) :
    site disk place (lead ++ name :: blanks) =
      match directoryAt disk place lead with
      | .error error => .error error
      | .ok directory =>
          if maxName < name.length then .error .nameTooLong
          else .ok ⟨directory, name, !blanks.isEmpty⟩ := by
  have behind : (lead ++ name :: blanks).reverse.dropWhile List.isEmpty = name :: lead.reverse := by
    rw [List.reverse_append, List.reverse_cons, List.append_assoc, List.singleton_append,
      List.dropWhile_append_of_pos]
    · rw [List.dropWhile_cons_of_neg (by simpa using nonempty)]
    · intro other member
      simp [blank other (List.mem_reverse.1 member)]
  have longer : decide ((name :: lead.reverse).length < (lead ++ name :: blanks).length) =
      !blanks.isEmpty := by
    cases blanks with
    | nil => simp
    | cons other blanks => simp
  unfold site
  rw [behind]
  dsimp only
  rw [longer]
  simp only [List.drop_succ_cons, List.drop_zero, List.reverse_reverse, List.headD_cons]
  rfl

end TokenBlame.Disk
