/-
# TokenBlame.Proofs.Disk.Outcome -- what a change to a disk did, told by its outcome

What each change does is said once, where it succeeded: a file was written at the place that its
path leads to (`write_eq_ok_iff`, `fileAt_eq_ok_iff`), a file or a link was taken away where its
last name stands (`remove_eq_ok_iff`), an empty directory likewise
(`removeDirectory_eq_ok_iff`), and a link was made where nothing was (`makeLink_eq_ok_iff`).
-/
import TokenBlame.Disk.Change
import TokenBlame.Proofs.Disk.Look
import TokenBlame.Proofs.Results

set_option autoImplicit false

namespace TokenBlame.Disk

open Git

section Outcome

variable {disk next : Disk} {top place : TreePath} {route : Route} {names : List Name}
  {found : Site} {error : Error}

/-! ## Writing -/

theorem fileAt_eq_ok_iff :
    fileAt disk route = .ok place ↔ route.fault? = none ∧ ∃ found,
      site disk route.start route.names = .ok found ∧ found.isPlain = true ∧
        found.slashed = false ∧ follow disk found.directory [found.name] = .ok place ∧
        (disk.at? place).any Node.isDirectory = false := by
  unfold fileAt
  cases route.fault? with
  | some error => simp
  | none =>
      simp only [bind_eq_ok_iff, throw_eq_error, refuse_eq_ok_iff, true_and, Bool.or_eq_true,
        Bool.not_eq_true', not_or, Bool.not_eq_false, Bool.not_eq_true]
      constructor
      · rintro ⟨found, at_, ⟨plain, slashed⟩, _, followed, other, ⟨⟩⟩
        exact ⟨found, at_, plain, slashed, followed, other⟩
      · rintro ⟨found, at_, plain, slashed, followed, other⟩
        exact ⟨found, at_, ⟨plain, slashed⟩, place, followed, other, rfl⟩

theorem write_eq_ok_iff {content : Bytes} {executable : Bool} :
    disk.write route content executable = .ok next ↔
      ∃ place, fileAt disk route = .ok place ∧ next = Disk.fill disk place content executable :=
  map_eq_ok_iff

/-! ## Removing -/

/-- What a removal does where the last name has a place. -/
theorem remove_at_site (accepted : route.fault? = none)
    (at_ : site disk route.start route.names = .ok found) :
    disk.remove route =
      if found.isPlain = false then .error .isDirectory
      else
        match look disk found.place with
        | none => .error .noSuchFile
        | some .directory => .error .isDirectory
        | some (.entry _) =>
            if found.slashed then .error .notDirectory else .ok (disk.erase found.place) := by
  unfold Disk.remove look
  rw [accepted]
  simp only [at_, bind, Except.bind]
  cases plain : found.isPlain with
  | false => rfl
  | true =>
      cases disk.at? found.place with
      | none => rfl
      | some node =>
          cases node with
          | directory entries => rfl
          | file content executable => cases found.slashed <;> rfl
          | link target => cases found.slashed <;> rfl

theorem remove_of_site (accepted : route.fault? = none)
    (at_ : site disk route.start route.names = .ok found)
    (plain : found.isPlain = true) (slashed : found.slashed = false) :
    disk.remove route =
      match look disk found.place with
      | none => .error .noSuchFile
      | some .directory => .error .isDirectory
      | some (.entry _) => .ok (disk.erase found.place) := by
  have named : ¬ (found.isPlain = false) := by simp [plain]
  rw [remove_at_site accepted at_, if_neg named, slashed]
  rfl

theorem remove_of_no_site (accepted : route.fault? = none)
    (at_ : site disk route.start route.names = .error error) :
    disk.remove route = .error error := by
  unfold Disk.remove
  rw [accepted]
  simp only [at_, bind, Except.bind]

theorem remove_of_fault (refused : route.fault? = some error) :
    disk.remove route = .error error := by
  unfold Disk.remove
  rw [refused]

theorem remove_eq_ok_iff :
    disk.remove route = .ok next ↔ route.fault? = none ∧ ∃ found entry,
      site disk route.start route.names = .ok found ∧ found.isPlain = true ∧
        found.slashed = false ∧ look disk found.place = some (.entry entry) ∧
        next = disk.erase found.place := by
  constructor
  · intro removed
    cases accepted : route.fault? with
    | some error => cases (remove_of_fault accepted).symm.trans removed
    | none =>
        cases at_ : site disk route.start route.names with
        | error error => cases (remove_of_no_site accepted at_).symm.trans removed
        | ok found =>
            rw [remove_at_site accepted at_] at removed
            split at removed
            · cases removed
            rename_i plain
            split at removed
            · cases removed
            · cases removed
            · rename_i entry seen
              split at removed
              · cases removed
              · rename_i slashed
                cases removed
                exact ⟨rfl, found, entry, rfl, by simpa using plain, by simpa using slashed, seen,
                  rfl⟩
  · rintro ⟨accepted, found, entry, at_, plain, slashed, seen, rfl⟩
    rw [remove_of_site accepted at_ plain slashed, seen]

theorem removeDirectory_of_site (at_ : site disk top names = .ok found) :
    removeDirectory disk top names =
      match disk.at? found.place with
      | some (.directory []) => .ok (disk.erase found.place)
      | some (.directory (_ :: _)) => .error .directoryNotEmpty
      | some _ => .error .notDirectory
      | none => .error .noSuchFile := by
  unfold removeDirectory
  simp only [at_, bind, Except.bind]
  cases disk.at? found.place with
  | none => rfl
  | some node =>
      cases node with
      | directory entries => cases entries <;> rfl
      | file content executable => rfl
      | link target => rfl

theorem removeDirectory_of_no_site (at_ : site disk top names = .error error) :
    removeDirectory disk top names = .error error := by
  unfold removeDirectory
  simp only [at_, bind, Except.bind]

theorem removeDirectory_eq_ok_iff :
    removeDirectory disk top names = .ok next ↔ ∃ found, site disk top names = .ok found ∧
      disk.at? found.place = some .vacant ∧ next = disk.erase found.place := by
  constructor
  · intro removed
    cases at_ : site disk top names with
    | error error => cases (removeDirectory_of_no_site at_).symm.trans removed
    | ok found =>
        rw [removeDirectory_of_site at_] at removed
        split at removed
        · rename_i vacant
          cases removed
          exact ⟨found, rfl, vacant, rfl⟩
        all_goals cases removed
  · rintro ⟨found, at_, vacant, rfl⟩
    rw [removeDirectory_of_site at_, vacant]
    rfl

/-! ## Making links -/

theorem makeLink_eq_ok_iff {target : Bytes} :
    disk.makeLink route target = .ok next ↔ route.fault? = none ∧ target ≠ [] ∧
      target.length ≤ maxPath ∧ ∃ found, site disk route.start route.names = .ok found ∧
        found.isPlain = true ∧ disk.at? found.place = none ∧ found.slashed = false ∧
        next = disk.put found.place (.link target) := by
  unfold Disk.makeLink
  cases route.fault? with
  | some error => simp
  | none =>
      simp only [bind_eq_ok_iff, throw_eq_error, refuse_eq_ok_iff, true_and, List.isEmpty_iff,
        Nat.not_lt, Bool.or_eq_true, Bool.not_eq_true', not_or, Bool.not_eq_false,
        Bool.not_eq_true, Option.isSome_eq_false_iff, Option.isNone_iff_eq_none]
      constructor
      · rintro ⟨some, short, found, at_, ⟨plain, none⟩, slashed, ⟨⟩⟩
        exact ⟨some, short, found, at_, plain, none, slashed, rfl⟩
      · rintro ⟨some, short, found, at_, plain, none, slashed, rfl⟩
        exact ⟨some, short, found, at_, ⟨plain, none⟩, slashed, rfl⟩

end Outcome

end TokenBlame.Disk
