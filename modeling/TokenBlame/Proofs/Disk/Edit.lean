/-
# TokenBlame.Proofs.Disk.Edit -- a change to a disk, one place after the other

An edit makes one directory, writes one file, takes away one file or link, or takes away one
empty directory, and nothing is seen differently elsewhere (`Edit.elsewhere`).  What is done to
a disk is a list of edits, each with the disk that it was made on (`Edits`).

Making the directories on a way makes them where its names lead (`enterAll_edits`), a file is
written where its path leads (`write_edit`), and what is taken away stands in the directory
that the names before it lead to (`remove_edit`, `prune_edits`).  That holds whatever links are
on the way.
-/
import TokenBlame.Proofs.Disk.Leads
import TokenBlame.Proofs.Disk.Twin

set_option autoImplicit false

namespace TokenBlame.Disk

open Git

/-! ## Edits -/

/-- One change, at one place. -/
inductive Edit (disk : Disk) : TreePath → Disk → Prop where
  | makeDirectory {directory : TreePath} {name : Name} :
      look disk directory = some .directory → look disk (directory ++ [name]) = none →
      Edit disk (directory ++ [name]) (disk.put (directory ++ [name]) .vacant)
  | writeFile {directory : TreePath} {name : Name} (content : Bytes) (executable : Bool) :
      look disk directory = some .directory →
      look disk (directory ++ [name]) ≠ some .directory →
      Edit disk (directory ++ [name])
        (disk.put (directory ++ [name]) (.file content executable))
  | removeEntry {directory : TreePath} {name : Name} {entry : Entry} :
      look disk (directory ++ [name]) = some (.entry entry) →
      Edit disk (directory ++ [name]) (disk.erase (directory ++ [name]))
  | removeDirectory {directory : TreePath} {name : Name} :
      disk.at? (directory ++ [name]) = some .vacant →
      Edit disk (directory ++ [name]) (disk.erase (directory ++ [name]))

/-- Edits one after the other, each told by the disk that it was made on and its place. -/
inductive Edits : Disk → List (Disk × TreePath) → Disk → Prop where
  | done (disk : Disk) : Edits disk [] disk
  | next {disk middle last : Disk} {place : TreePath} {later : List (Disk × TreePath)} :
      Edit disk place middle → Edits middle later last → Edits disk ((disk, place) :: later) last

section Edits

variable {disk middle next last : Disk} {place top path : TreePath}
  {edits more : List (Disk × TreePath)}

theorem Edits.one (edit : Edit disk place next) : Edits disk [(disk, place)] next :=
  .next edit (.done next)

theorem Edits.append (first : Edits disk edits middle) (second : Edits middle more last) :
    Edits disk (edits ++ more) last := by
  induction first with
  | done => exact second
  | next edit _ ih => exact .next edit (ih second)

/-- **An edit** changes what is seen at its place and nowhere else. -/
theorem Edit.elsewhere (edit : Edit disk place next) (other : path ≠ place) :
    look next path = look disk path := by
  cases edit with
  | makeDirectory stands none =>
      refine look_put_name stands (by simp [none]) (fun rest some => ?_) other
      rw [look_vacant, if_neg some]
  | writeFile content executable stands closed =>
      refine look_put_name stands closed (fun rest some => ?_) other
      rw [look_file, if_neg some]
  | removeEntry found =>
      rw [look_erase (by simp)]
      split
      · rename_i below
        rw [look_below (by simp [found]) below other]
      · rfl
  | removeDirectory vacant =>
      rw [look_erase (by simp)]
      split
      · rename_i below
        obtain ⟨rest, rfl⟩ := below
        rw [look_below_vacant vacant (by simpa using other)]
      · rfl

/-- No edit makes a link. -/
theorem Edit.link_before (edit : Edit disk place next) {target : Bytes}
    (found : look next path = some (.entry (.link target))) :
    look disk path = some (.entry (.link target)) := by
  by_cases other : path = place
  · subst other
    cases edit with
    | makeDirectory stands _ =>
        rw [look_put_self stands] at found
        cases found
    | writeFile content executable stands _ =>
        rw [look_put_self stands] at found
        cases found
    | removeEntry =>
        rw [look_erase (by simp), if_pos (List.prefix_refl _)] at found
        cases found
    | removeDirectory =>
        rw [look_erase (by simp), if_pos (List.prefix_refl _)] at found
        cases found
  · rwa [edit.elsewhere other] at found

/-- What no edit was made at is seen as before. -/
theorem Edits.elsewhere (made : Edits disk edits last) (away : ∀ edit ∈ edits, path ≠ edit.2) :
    look last path = look disk path := by
  induction made with
  | done => rfl
  | next edit _ ih =>
      rw [ih fun e member => away e (List.mem_cons_of_mem _ member),
        edit.elsewhere (away _ List.mem_cons_self)]

/-- A directory stays, and no edit is made at its place, unless one takes a directory away there. -/
theorem Edits.stands (made : Edits disk edits last) (stands : look disk top = some .directory)
    (spare : ∀ edit ∈ edits, edit.2 = top → look edit.1 edit.2 ≠ some .directory) :
    look last top = some .directory ∧ ∀ edit ∈ edits, edit.2 ≠ top := by
  induction made with
  | done => exact ⟨stands, fun _ member => nomatch member⟩
  | @next disk middle last place later edit _ ih =>
      have apart : place ≠ top := by
        intro same
        exact spare _ List.mem_cons_self same (same ▸ stands)
      obtain ⟨stands', rest⟩ := ih (by rw [edit.elsewhere apart.symm, stands])
        fun e member => spare e (List.mem_cons_of_mem _ member)
      refine ⟨stands', fun e member => ?_⟩
      rcases List.mem_cons.1 member with rfl | member
      · exact apart
      · exact rest e member

/-- The links that an edit meets were there at first. -/
theorem Edits.link_before (made : Edits disk edits last) :
    ∀ edit ∈ edits, ∀ path target, look edit.1 path = some (.entry (.link target)) →
      look disk path = some (.entry (.link target)) := by
  induction made with
  | done => exact fun _ member => nomatch member
  | next edit _ ih =>
      intro e member path target found
      rcases List.mem_cons.1 member with rfl | later
      · exact found
      · exact edit.link_before (ih e later path target found)

end Edits

/-! ## Making directories -/

section Making

variable {disk next : Disk} {place here : TreePath} {name : Name}

/-- Going into a directory leads there, and if there is none one is made. -/
theorem of_enter_ok {isLast : Bool} (stands : look disk place = some .directory)
    (entered : enter disk place name isLast = .ok (here, next)) :
    Leads disk place (TreePath.resolve [name]) here ∧ look next here = some .directory ∧
      (next = disk ∨ Edit disk here next ∧ look disk here = none) := by
  cases enters_of_enter entered with
  | stay step =>
      refine ⟨?_, stands, Or.inl rfl⟩
      simpa [TreePath.resolve, step] using Leads.stay place
  | up own =>
      subst own
      rw [TreePath.resolve_cons (by decide)]
      exact ⟨.up (.stay _), look_outer (List.dropLast_prefix _) stands, Or.inl rfl⟩
  | down plain seen =>
      rw [TreePath.resolve_cons plain.step]
      exact ⟨.down plain (by simp [seen]) (.stay _), seen, Or.inl rfl⟩
  | link plain found =>
      obtain ⟨leads, directory⟩ := leads_of_directoryAt stands found
      exact ⟨leads, directory, Or.inl rfl⟩
  | make plain none =>
      rw [TreePath.resolve_cons plain.step]
      refine ⟨.down plain (by simp [none]) (.stay _), ?_, Or.inr ⟨.makeDirectory stands none, none⟩⟩
      rw [look_put_self stands]
      rfl

/-- A place where a directory was made: nothing was there, and the names lead to it. -/
structure Made (disk : Disk) (place : TreePath) (names : List Name) (edit : Disk × TreePath) :
    Prop where
  none : look edit.1 edit.2 = none
  links : SameLinks disk edit.1
  leads : ∃ way, way ≠ [] ∧ way <+: names ∧ Leads edit.1 place way edit.2

theorem sameLinks_makeDirectory (edit : Edit disk here next) (none : look disk here = none)
    (made : look next here = some .directory) : SameLinks disk next := by
  intro path target
  by_cases other : path = here
  · rw [other, none, made]
    simp
  · rw [edit.elsewhere other]

/-- Directories are made one after the other, where the names lead. -/
theorem enterAll_edits (stands : look disk place = some .directory) (names : List Name) :
    ∃ edits, Edits disk edits (enterAll disk place names).2 ∧
      ∀ edit ∈ edits, Made disk place (TreePath.resolve names) edit := by
  induction names generalizing disk place with
  | nil => exact ⟨[], .done disk, fun _ member => nomatch member⟩
  | cons name rest ih =>
      have whole : TreePath.resolve (name :: rest) =
          TreePath.resolve [name] ++ TreePath.resolve rest :=
        TreePath.resolve_append [name] rest
      rw [enterAll]
      cases entered : enter disk place name (rest.all List.isEmpty) with
      | error error => exact ⟨[], .done disk, fun _ member => nomatch member⟩
      | ok found =>
          obtain ⟨here, next⟩ := found
          obtain ⟨leads, directory, made⟩ := of_enter_ok stands entered
          obtain ⟨edits, all, later⟩ := ih directory
          have same : SameLinks disk next := by
            rcases made with rfl | ⟨edit, none⟩
            · exact fun _ _ => Iff.rfl
            · exact sameLinks_makeDirectory edit none directory
          have further : ∀ edit ∈ edits,
              Made disk place (TreePath.resolve (name :: rest)) edit := by
            intro edit member
            obtain ⟨none, links, way, nonempty, start, leads'⟩ := later edit member
            have links' : SameLinks disk edit.1 := fun path target =>
              (same path target).trans (links path target)
            refine ⟨none, links', TreePath.resolve [name] ++ way, by simp [nonempty], ?_, ?_⟩
            · rw [whole]
              exact (List.prefix_append_right_inj _).2 start
            · exact (leads.congr links').trans leads'
          rcases made with rfl | ⟨edit, none⟩
          · exact ⟨edits, all, further⟩
          · refine ⟨(disk, here) :: edits, .next edit all, ?_⟩
            intro e member
            rcases List.mem_cons.1 member with rfl | member
            · refine ⟨none, fun _ _ => Iff.rfl, TreePath.resolve [name], ?_, ?_, leads⟩
              · intro nowhere
                rw [nowhere] at leads
                cases leads
                rw [stands] at none
                cases none
              · rw [whole]
                exact List.prefix_append _ _
            · exact further e member

/-- The directories on a way are made so. -/
theorem makeDirectories_edits {route : Route} (stands : look disk route.start = some .directory)
    (plain : ∀ n ∈ route.names, TreePath.IsPlain n) :
    ∃ edits, Edits disk edits (makeDirectories disk route).2 ∧
      ∀ edit ∈ edits, Made disk route.start route.names edit := by
  unfold makeDirectories
  dsimp only
  split
  · exact ⟨[], .done disk, fun _ member => nomatch member⟩
  · rw [endsInDot_plain plain]
    obtain ⟨edits, all, made⟩ := enterAll_edits stands route.names
    rw [TreePath.resolve_eq_self plain] at made
    exact ⟨edits, all, made⟩

end Making

/-! ## Writing and removing -/

section Removing

variable {disk next : Disk} {top : TreePath} {route : Route}

/-- The last name of a path stands in the directory that the names before it lead to. -/
theorem of_site_ok {lead blanks : List Name} {name : Name} {found : Site} (nonempty : name ≠ [])
    (blank : ∀ other ∈ blanks, other = [])
    (at_ : site disk top (lead ++ name :: blanks) = .ok found) :
    found.name = name ∧ directoryAt disk top lead = .ok found.directory := by
  rw [site_eq disk top nonempty blank] at at_
  cases above : directoryAt disk top lead with
  | error error =>
      rw [above] at at_
      cases at_
  | ok directory =>
      rw [above] at at_
      dsimp only at at_
      split at at_
      · cases at_
      · cases at_
        exact ⟨rfl, rfl⟩

/-- A file is written where its path leads. -/
theorem write_edit {lead blanks : List Name} {name : Name} {content : Bytes}
    (names : route.names = lead ++ name :: blanks) (nonempty : name ≠ [])
    (blank : ∀ other ∈ blanks, other = []) (stands : look disk route.start = some .directory)
    (written : disk.write route content = .ok next) :
    ∃ place, Edit disk place next ∧ look disk place ≠ some .directory ∧
      Leads disk route.start (TreePath.resolve route.names) place := by
  obtain ⟨place, found, rfl⟩ := write_eq_ok_iff.1 written
  obtain ⟨-, own, at_, -, -, followed, noDirectory⟩ := fileAt_eq_ok_iff.1 found
  obtain ⟨same, above⟩ := of_site_ok nonempty blank (names ▸ at_)
  obtain ⟨leads, directory⟩ := leads_of_directoryAt stands above
  have arrives := arrives_of_follow directory followed
  have closed : look disk place ≠ some .directory := by
    intro seen
    obtain ⟨entries, there⟩ := look_eq_directory.1 seen
    rw [there] at noDirectory
    cases noDirectory
  obtain ⟨outer, last, rfl, parent⟩ := arrives.stands.resolve_left closed
  have whole : TreePath.resolve route.names =
      TreePath.resolve lead ++ TreePath.resolve [name] := by
    rw [names, resolve_last blank]
    simp [TreePath.resolve, List.filter_cons]
  refine ⟨outer ++ [last], ?_, closed, ?_⟩
  · rw [fill_eq]
    exact .writeFile _ _ parent closed
  · rw [whole]
    exact leads.trans (same ▸ arrives.leads)

/-- A file or a link is taken away where it stands. -/
theorem remove_edit {lead blanks : List Name} {name : Name}
    (names : route.names = lead ++ name :: blanks) (nonempty : name ≠ [])
    (blank : ∀ other ∈ blanks, other = []) (stands : look disk route.start = some .directory)
    (removed : disk.remove route = .ok next) :
    ∃ directory, Edit disk (directory ++ [name]) next ∧
      look disk (directory ++ [name]) ≠ some .directory ∧ TreePath.isStep name = true ∧
      Leads disk route.start (TreePath.resolve lead) directory := by
  obtain ⟨-, own, entry, at_, plain, -, found, rfl⟩ := remove_eq_ok_iff.1 removed
  obtain ⟨rfl, above⟩ := of_site_ok nonempty blank (names ▸ at_)
  obtain ⟨leads, -⟩ := leads_of_directoryAt stands above
  rw [Site.place] at found
  rw [Site.isPlain, Bool.and_eq_true] at plain
  exact ⟨own.directory, .removeEntry found, by simp [found], plain.1, leads⟩

/-- An empty directory is taken away where it stands, and that is not where the way begins. -/
theorem removeDirectory_edit {way : List Name} {name : Name}
    (plain : ∀ n ∈ way ++ [name], TreePath.IsPlain n) (stands : look disk top = some .directory)
    (removed : removeDirectory disk top (way ++ [name]) = .ok next) :
    ∃ directory, Edit disk (directory ++ [name]) next ∧ directory ++ [name] ≠ top ∧
      Leads disk top way directory := by
  have nonempty : name ≠ [] := by
    rintro rfl
    exact absurd (plain [] (by simp)).step (by decide)
  obtain ⟨own, at_, vacant, rfl⟩ := removeDirectory_eq_ok_iff.1 removed
  obtain ⟨rfl, above⟩ :=
    of_site_ok nonempty (show ∀ other ∈ ([] : List Name), other = [] by simp) at_
  obtain ⟨leads, -⟩ := leads_of_directoryAt stands above
  rw [TreePath.resolve_eq_self fun n member => plain n (List.mem_append_left _ member)] at leads
  refine ⟨own.directory, .removeDirectory vacant, ?_, leads⟩
  intro same
  cases way with
  | nil =>
      cases leads
      simp at same
  | cons first rest =>
      -- the first name stands in it
      refine look_of_directoryAt stands (plain first (by simp)) above ?_
      exact look_below_vacant (same ▸ vacant) (by simp)

/-- Directories are taken away one after the other, where they stand. -/
theorem prune_edits {ways : List (List Name)} (stands : look disk top = some .directory)
    (named : ∀ names ∈ ways, ∃ way name, names = way ++ [name])
    (plain : ∀ names ∈ ways, ∀ n ∈ names, TreePath.IsPlain n) :
    ∃ edits, Edits disk edits (disk.prune top ways) ∧ ∀ edit ∈ edits, edit.2 ≠ top ∧
      ∃ way name directory, way ++ [name] ∈ ways ∧ edit.2 = directory ++ [name] ∧
        Leads edit.1 top way directory := by
  induction ways generalizing disk with
  | nil => exact ⟨[], .done disk, fun _ member => nomatch member⟩
  | cons names ways ih =>
      obtain ⟨way, name, rfl⟩ := named _ List.mem_cons_self
      rw [prune]
      cases removed : removeDirectory disk top (way ++ [name]) with
      | error error => exact ⟨[], .done disk, fun _ member => nomatch member⟩
      | ok next =>
          obtain ⟨directory, edit, apart, leads⟩ :=
            removeDirectory_edit (plain _ List.mem_cons_self) stands removed
          have stands' : look next top = some .directory := by
            rw [edit.elsewhere apart.symm, stands]
          obtain ⟨edits, all, later⟩ := ih stands'
            (fun n member => named n (List.mem_cons_of_mem _ member))
            (fun n member => plain n (List.mem_cons_of_mem _ member))
          refine ⟨(disk, directory ++ [name]) :: edits, .next edit all, ?_⟩
          intro e member
          rcases List.mem_cons.1 member with rfl | member
          · exact ⟨apart, way, name, directory, List.mem_cons_self, rfl, leads⟩
          · obtain ⟨apart', way', name', directory', among, same, leads'⟩ := later e member
            exact ⟨apart', way', name', directory', List.mem_cons_of_mem _ among, same, leads'⟩

end Removing

end TokenBlame.Disk
