/-
# TokenBlame.Proofs.Disk.Enter -- making the directories on a way

Going into a directory leads to one that is there or makes it (`Enters`).  Directories are
made where nothing is, and nothing else changes (`enterAll_open`).  That works as long as no
file is in the way, and only then (`of_enterAll_ok`, `enterAll_blocked`).
-/
import TokenBlame.Proofs.Disk.Walk

set_option autoImplicit false

namespace TokenBlame.Disk

open Git

/-- What going into a directory leads to, and the disk then. -/
inductive Enters (disk : Disk) (place : TreePath) (name : Name) : TreePath → Disk → Prop
  | stay : TreePath.isStep name = false → Enters disk place name place disk
  | up : name = above → Enters disk place name place.dropLast disk
  | down : TreePath.IsPlain name → look disk (place ++ [name]) = some .directory →
      Enters disk place name (place ++ [name]) disk
  | link {there : TreePath} : TreePath.IsPlain name → directoryAt disk place [name] = .ok there →
      Enters disk place name there disk
  | make : TreePath.IsPlain name → look disk (place ++ [name]) = none →
      Enters disk place name (place ++ [name]) (disk.put (place ++ [name]) .vacant)

theorem enters_of_enter {disk next : Disk} {place here : TreePath} {name : Name} {isLast : Bool}
    (entered : enter disk place name isLast = .ok (here, next)) :
    Enters disk place name here next := by
  unfold enter at entered
  cases step : TreePath.isStep name with
  | false =>
      rw [step] at entered
      cases entered
      exact .stay step
  | true =>
      rw [step, if_neg (by simp)] at entered
      split at entered
      · rename_i up
        cases entered
        exact .up up
      rename_i other
      have plain : TreePath.IsPlain name := ⟨step, other⟩
      split at entered
      · cases entered
      dsimp only at entered
      split at entered
      · rename_i entries there
        cases entered
        exact .down plain (look_eq_directory.2 ⟨entries, there⟩)
      · cases entered
      · split at entered
        · rename_i found
          cases entered
          exact .link plain found
        · cases entered
      · rename_i there
        cases entered
        exact .make plain (look_eq_none.2 there)

theorem enter_directory {disk : Disk} {place : TreePath} {name : Name}
    (plain : TreePath.IsPlain name) (short : name.length ≤ maxName) (isLast : Bool)
    (found : look disk (place ++ [name]) = some .directory) :
    enter disk place name isLast = .ok (place ++ [name], disk) := by
  obtain ⟨entries, there⟩ := look_eq_directory.1 found
  unfold enter
  rw [plain.step, if_neg (by simp), if_neg (ne_above plain), if_neg (Nat.not_lt.2 short)]
  simp only [there]

theorem enter_none {disk : Disk} {place : TreePath} {name : Name}
    (plain : TreePath.IsPlain name) (short : name.length ≤ maxName) (isLast : Bool)
    (found : look disk (place ++ [name]) = none) :
    enter disk place name isLast =
      .ok (place ++ [name], disk.put (place ++ [name]) .vacant) := by
  unfold enter
  rw [plain.step, if_neg (by simp), if_neg (ne_above plain), if_neg (Nat.not_lt.2 short)]
  simp only [look_eq_none.1 found]

theorem enter_long {disk : Disk} {place : TreePath} {name : Name} (plain : TreePath.IsPlain name)
    (long : maxName < name.length) (isLast : Bool) :
    enter disk place name isLast = .error .nameTooLong := by
  unfold enter
  rw [plain.step, if_neg (by simp), if_neg (ne_above plain), if_pos long]

theorem enter_file {disk : Disk} {place : TreePath} {name : Name} {content : Bytes}
    {executable : Bool} (plain : TreePath.IsPlain name) (short : name.length ≤ maxName)
    (isLast : Bool) (found : look disk (place ++ [name]) = some (.entry (.file content executable))) :
    enter disk place name isLast = .error (if isLast then .fileExists else .notDirectory) := by
  unfold enter
  rw [plain.step, if_neg (by simp), if_neg (ne_above plain), if_neg (Nat.not_lt.2 short)]
  simp only [look_eq_file.1 found]

/-- Where no link is in the way, only a short name with no file behind it is gone into. -/
theorem of_enter_plain {disk next : Disk} {place found : TreePath} {name : Name} {isLast : Bool}
    (plain : TreePath.IsPlain name)
    (unlinked : ∀ target, look disk (place ++ [name]) ≠ some (.entry (.link target)))
    (entered : enter disk place name isLast = .ok (found, next)) :
    name.length ≤ maxName ∧ ∀ entry, look disk (place ++ [name]) ≠ some (.entry entry) := by
  by_cases long : maxName < name.length
  · cases (enter_long plain long isLast).symm.trans entered
  have short := Nat.not_lt.1 long
  refine ⟨short, fun entry seen => ?_⟩
  cases entry with
  | file content executable => cases (enter_file plain short isLast seen).symm.trans entered
  | link target => exact unlinked target seen
  | submodule commit => exact look_ne_submodule disk _ commit seen

/-- What is seen at and below a directory that was gone into, but for directories, was there
before. -/
theorem entry_before {disk next : Disk} {place way : TreePath} {entry : Entry}
    (there : look next place = some .directory)
    (before : ∀ path, path ≠ place → look next path = look disk path)
    (seen : look next (place ++ way) = some (.entry entry)) :
    look disk (place ++ way) = some (.entry entry) := by
  cases way with
  | nil =>
      rw [List.append_nil, there] at seen
      cases seen
  | cons head tail => rwa [before _ (by simp)] at seen

/-- Going into a directory makes it, and nothing else changes. -/
theorem enter_open {disk : Disk} {place : TreePath} {name : Name}
    (stands : look disk place = some .directory) (plain : TreePath.IsPlain name)
    (short : name.length ≤ maxName) (isLast : Bool)
    (opened : ∀ entry, look disk (place ++ [name]) ≠ some (.entry entry)) :
    ∃ next, enter disk place name isLast = .ok (place ++ [name], next) ∧
      look next (place ++ [name]) = some .directory ∧
      ∀ path, path ≠ place ++ [name] → look next path = look disk path := by
  cases found : look disk (place ++ [name]) with
  | some seen =>
      cases seen with
      | directory =>
          exact ⟨disk, enter_directory plain short _ found, found, fun _ _ => rfl⟩
      | entry entry => exact absurd found (opened entry)
  | none =>
      refine ⟨_, enter_none plain short _ found, ?_, ?_⟩
      · rw [look_put_self stands]
        rfl
      · intro path other
        refine look_put_name stands (by simp [found]) (fun rest some => ?_) other
        rw [look_vacant, if_neg some]

/-- Directories are made where nothing is, and nothing else changes. -/
theorem enterAll_open {disk : Disk} {place : TreePath} {names : List Name}
    (stands : look disk place = some .directory) (plain : ∀ name ∈ names, TreePath.IsPlain name)
    (short : ∀ name ∈ names, name.length ≤ maxName)
    (opened : ∀ way entry, way <+: names → look disk (place ++ way) ≠ some (.entry entry)) :
    ∃ next, enterAll disk place names = (.ok (place ++ names), next) ∧
      (∀ way, way <+: names → look next (place ++ way) = some .directory) ∧
      ∀ path, (∀ way, way <+: names → path ≠ place ++ way) → look next path = look disk path := by
  induction names generalizing disk place with
  | nil =>
      refine ⟨disk, by simp [enterAll], ?_, fun _ _ => rfl⟩
      intro way start
      rw [List.prefix_nil.1 start, List.append_nil]
      exact stands
  | cons name rest ih =>
      have atName : [name] <+: name :: rest := List.cons_prefix_cons.2 ⟨rfl, List.nil_prefix⟩
      obtain ⟨middle, entered, there, before⟩ := enter_open stands (plain name List.mem_cons_self)
        (short name List.mem_cons_self) (rest.all List.isEmpty)
        (fun entry => opened [name] entry atName)
      have later : ∀ way entry, way <+: rest →
          look middle (place ++ [name] ++ way) ≠ some (.entry entry) := by
        intro way entry start seen
        have seen := entry_before there before seen
        rw [List.append_assoc] at seen
        exact opened (name :: way) entry (List.cons_prefix_cons.2 ⟨rfl, start⟩) seen
      obtain ⟨next, all, directories, frame⟩ := ih there
        (fun n member => plain n (List.mem_cons_of_mem _ member))
        (fun n member => short n (List.mem_cons_of_mem _ member)) later
      refine ⟨next, ?_, ?_, ?_⟩
      · rw [enterAll, entered]
        dsimp only
        rw [all, List.append_assoc]
        rfl
      · intro way start
        cases way with
        | nil =>
            have above : look next place = some .directory :=
              look_leading (List.prefix_append place [name]) (by simp)
                (by simpa using directories [] List.nil_prefix)
            simpa using above
        | cons head tail =>
            obtain ⟨rfl, inner⟩ := List.cons_prefix_cons.1 start
            have below := directories tail inner
            rwa [List.append_assoc] at below
      · intro path away
        rw [frame path, before path]
        · exact away [name] atName
        · intro way start
          rw [List.append_assoc]
          exact away (name :: way) (List.cons_prefix_cons.2 ⟨rfl, start⟩)

/-- Where all directories could be made, the names are short and no file was in the way. -/
theorem of_enterAll_ok {disk next : Disk} {place found : TreePath} {names : List Name}
    (stands : look disk place = some .directory) (plain : ∀ name ∈ names, TreePath.IsPlain name)
    (free : LinkFree disk place names) (entered : enterAll disk place names = (.ok found, next)) :
    (∀ name ∈ names, name.length ≤ maxName) ∧
      ∀ way entry, way <+: names → look disk (place ++ way) ≠ some (.entry entry) := by
  induction names generalizing disk place with
  | nil =>
      refine ⟨by simp, ?_⟩
      intro way entry start
      rw [List.prefix_nil.1 start, List.append_nil, stands]
      simp
  | cons name rest ih =>
      have own := plain name List.mem_cons_self
      rw [enterAll] at entered
      cases one : enter disk place name (rest.all List.isEmpty) with
      | error error =>
          rw [one] at entered
          cases entered
      | ok result =>
          obtain ⟨fits, opened⟩ := of_enter_plain own free.head one
          obtain ⟨middle, same, there, before⟩ :=
            enter_open stands own fits (rest.all List.isEmpty) opened
          have freeLater : LinkFree middle (place ++ [name]) rest := fun way target start seen =>
            free.tail way target start (entry_before there before seen)
          rw [same] at entered
          obtain ⟨short, later⟩ := ih there (fun n member => plain n (List.mem_cons_of_mem _ member))
            freeLater entered
          refine ⟨List.forall_mem_cons.2 ⟨fits, short⟩, fun way entry start => ?_⟩
          rcases way with _ | ⟨head, _ | ⟨next, tail⟩⟩
          · rw [List.append_nil, stands]
            simp
          · obtain ⟨rfl, -⟩ := List.cons_prefix_cons.1 start
            exact opened entry
          · obtain ⟨rfl, inside⟩ := List.cons_prefix_cons.1 start
            have below := later (next :: tail) entry inside
            rwa [before _ (by simp), List.append_assoc] at below

/-- Where all directories on the way are there, nothing is made. -/
theorem enterAll_directories {disk : Disk} {place : TreePath} {names : List Name}
    (plain : ∀ name ∈ names, TreePath.IsPlain name)
    (short : ∀ name ∈ names, name.length ≤ maxName)
    (directories : ∀ way, way <+: names → look disk (place ++ way) = some .directory) :
    enterAll disk place names = (.ok (place ++ names), disk) := by
  induction names generalizing place with
  | nil => simp [enterAll]
  | cons name rest ih =>
      have here := directories [name] (List.cons_prefix_cons.2 ⟨rfl, List.nil_prefix⟩)
      rw [enterAll, enter_directory (plain name List.mem_cons_self) (short name List.mem_cons_self)
        _ here]
      dsimp only
      rw [ih (fun n member => plain n (List.mem_cons_of_mem _ member))
        (fun n member => short n (List.mem_cons_of_mem _ member)), List.append_assoc]
      · rfl
      · intro way start
        rw [List.append_assoc]
        exact directories (name :: way) (List.cons_prefix_cons.2 ⟨rfl, start⟩)

/-- A file on the way is not gone into, and nothing is made. -/
theorem enterAll_blocked {disk : Disk} {place way : TreePath} {names : List Name} {entry : Entry}
    (plain : ∀ name ∈ names, TreePath.IsPlain name)
    (short : ∀ name ∈ names, name.length ≤ maxName) (start : way <+: names) (nonempty : way ≠ [])
    (found : look disk (place ++ way) = some (.entry entry)) (file : entry.isFile = true) :
    ∃ error, enterAll disk place names = (.error error, disk) ∧ error.isFatal = false := by
  induction names generalizing place way with
  | nil => exact absurd (List.prefix_nil.1 start) nonempty
  | cons name rest ih =>
      obtain ⟨first, way, rfl⟩ := List.exists_cons_of_ne_nil nonempty
      obtain ⟨rfl, later⟩ := List.cons_prefix_cons.1 start
      have own := plain first List.mem_cons_self
      have fits := short first List.mem_cons_self
      rw [enterAll]
      cases way with
      | nil =>
          cases entry with
          | file content executable =>
              rw [enter_file own fits _ found]
              refine ⟨_, rfl, ?_⟩
              split <;> rfl
          | link target => cases file
          | submodule commit => cases file
      | cons next way =>
          have whole : place ++ first :: next :: way = place ++ [first] ++ next :: way := by simp
          rw [whole] at found
          rw [enter_directory own fits _ (look_above found)]
          exact ih (fun n member => plain n (List.mem_cons_of_mem _ member))
            (fun n member => short n (List.mem_cons_of_mem _ member)) later (by simp) found

end TokenBlame.Disk
