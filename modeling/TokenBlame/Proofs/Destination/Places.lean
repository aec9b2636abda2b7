/-
# TokenBlame.Proofs.Destination.Places -- where staging leaves its marks

What staging does to the disk is a list of edits: directories that are made, files that are
written, files and links that are taken away, and empty directories that are pruned
(`applyAll_effects`).  Each is made where the names of one of the paths lead (`Touches`), and
none at the top of the working tree itself.

That is strictly below the top of the working tree and outside the repository's own
directory (`Within`), unless the path leads into that directory or past a link that leads
elsewhere (`stage_places`).  The check of the paths refuses those that lead upwards or begin at
the top of the disk; it knows neither of links nor of that directory.
-/
import TokenBlame.Proofs.Destination.Core
import TokenBlame.Proofs.Disk.Edit

set_option autoImplicit false

namespace TokenBlame.Destination

open Git

/-- The names that are followed through links: for a file that is written all of them, and for
what is taken away all but the last one. -/
def followed : FileChange → List Name
  | .write path _ => TreePath.resolve (.ofString path)
  | .remove path => (TreePath.resolve (.ofString path)).dropLast

/-- A change is made at a place: where some of its names lead, or at the last of them in the
directory that the others lead to. -/
inductive Touches (disk : Disk) (top : TreePath) : FileChange → TreePath → Prop where
  | write {path : String} {content : Bytes} {way : List Name} {place : TreePath} :
      way ≠ [] → way <+: TreePath.resolve (.ofString path) → Disk.Leads disk top way place →
      Touches disk top (.write path content) place
  | remove {path : String} {way : List Name} {name : Name} {directory : TreePath} :
      way ++ [name] <+: TreePath.resolve (.ofString path) → Disk.Leads disk top way directory →
      Touches disk top (.remove path) (directory ++ [name])

/-- A place strictly below the top of the working tree and outside the repository's own
directory. -/
structure Within (top home place : TreePath) : Prop where
  below : top <+: place
  apart : place ≠ top
  outside : ¬ home <+: place

/-- Each link that names meet leads to such a place. -/
def Guarded (disk : Disk) (top home : TreePath) (names : List Name) : Prop :=
  ∀ way name directory target place, way ++ [name] <+: names → Disk.Leads disk top way directory →
    Disk.look disk (directory ++ [name]) = some (.entry (.link target)) →
    Disk.Leads disk directory [name] place → Within top home place

/-- An edit that was made for a change. -/
structure Effect where
  change : FileChange
  /-- The disk that it was made on. -/
  before : Disk
  place : TreePath

namespace Effect

/-- An edit with the change that it was made for. -/
def of (change : FileChange) (edit : Disk × TreePath) : Effect :=
  ⟨change, edit.1, edit.2⟩

/-- The edit alone. -/
def edit (effect : Effect) : Disk × TreePath :=
  (effect.before, effect.place)

theorem map_edit_of (change : FileChange) (edits : List (Disk × TreePath)) :
    (edits.map (of change)).map edit = edits := by
  rw [List.map_map]
  exact List.map_id edits

end Effect

/-! ## Where names lead -/

section Names

variable {disk : Disk} {top home place : TreePath} {path : String} {change : FileChange}

/-- The names of a safe path lead down. -/
theorem plain_of_isSafe (safe : RelativePath.isSafe path = true) :
    ∀ name ∈ TreePath.resolve (.ofString path), TreePath.IsPlain name := by
  intro name member
  obtain ⟨inside, step⟩ := List.mem_filter.1 member
  exact ⟨step, RelativePath.down_of_isSafe safe name inside⟩

/-- What is in front of one of the names is in front of the last one. -/
theorem prefix_dropLast {names way : List Name} {name : Name} (start : way ++ [name] <+: names) :
    way <+: names.dropLast := by
  obtain ⟨rest, whole⟩ := start
  rw [← whole, List.append_assoc, List.singleton_append, List.dropLast_append_cons]
  exact List.prefix_append _ _

/-- A name that follows others, but not that of the repository's own directory at the top, leads
within where they do. -/
theorem within_concat (own : home = top ++ [TreePath.gitDirectory]) {way : List Name} {name : Name}
    (reached : way = [] ∧ place = top ∨ Within top home place)
    (other : (way ++ [name]).head? ≠ some TreePath.gitDirectory) :
    Within top home (place ++ [name]) := by
  rcases reached with ⟨rfl, rfl⟩ | within
  · refine ⟨List.prefix_append _ _, by simp, ?_⟩
    rw [own, List.prefix_append_right_inj, List.cons_prefix_cons]
    exact fun same => other (congrArg some same.1.symm)
  · refine ⟨within.below.trans (List.prefix_append _ _), ?_, ?_⟩
    · intro same
      exact TreePath.not_prefix_of_longer (List.prefix_refl _) (same ▸ within.below)
    · intro start
      rcases List.prefix_concat_iff.1 start with same | start
      · rw [own] at same
        exact within.apart (List.append_inj_left' same rfl).symm
      · exact within.outside start

/-- **Guarded names** that do not begin with the repository's own directory lead within. -/
theorem Guarded.within {names way : List Name} (guarded : Guarded disk top home names)
    (own : home = top ++ [TreePath.gitDirectory]) (down : ∀ name ∈ names, name ≠ Disk.above)
    (start : way <+: names) (other : way.head? ≠ some TreePath.gitDirectory)
    (leads : Disk.Leads disk top way place) : way = [] ∧ place = top ∨ Within top home place := by
  induction way using List.reverseRecOn generalizing place with
  | nil =>
      cases leads
      exact Or.inl ⟨rfl, rfl⟩
  | append_singleton way name ih =>
      obtain ⟨directory, first, last⟩ := leads.split
      have otherBefore : way.head? ≠ some TreePath.gitDirectory := by
        cases way with
        | nil => simp
        | cons head way => exact other
      have further : Within top home (directory ++ [name]) :=
        within_concat own (ih ((List.prefix_append _ _).trans start) otherBefore first) other
      right
      cases last with
      | up => exact absurd rfl (down Disk.above (start.subset (by simp)))
      | down _ _ rest =>
          cases rest
          exact further
      | link plain found rest =>
          exact guarded way name directory _ place start first found (.link plain found rest)

/-- Names that meet no link are guarded. -/
theorem Guarded.of_linkFree {names : List Name} (down : ∀ name ∈ names, name ≠ Disk.above)
    (free : Disk.LinkFree disk top names) : Guarded disk top home names := by
  intro way name directory target place start leads found _
  have before : way <+: names := (List.prefix_append _ _).trans start
  rw [leads.place_eq (fun n member => down n (before.subset member)) (free.outer before),
    List.append_assoc] at found
  exact absurd found (free _ target start)

/-- A change is made within, where its names are guarded and do not lead into the repository's own
directory. -/
theorem Touches.within (touches : Touches disk top change place)
    (own : home = top ++ [TreePath.gitDirectory])
    (safe : RelativePath.isSafe change.path = true) (outside : Outside change.path)
    (guarded : Guarded disk top home (followed change)) : Within top home place := by
  have down : ∀ name ∈ TreePath.resolve (.ofString change.path), name ≠ Disk.above :=
    fun name member => Disk.ne_above (plain_of_isSafe safe name member)
  have other : ∀ way, way <+: TreePath.resolve (.ofString change.path) → way ≠ [] →
      way.head? ≠ some TreePath.gitDirectory := fun way start nonempty => by
    rw [TreePath.head?_of_above start nonempty]
    exact outside
  cases touches with
  | write nonempty start leads =>
      refine (guarded.within own down start (other _ start nonempty) leads).resolve_left ?_
      exact fun nowhere => nonempty nowhere.1
  | @remove path way name directory start leads =>
      refine within_concat own (guarded.within own ?_ (prefix_dropLast start) ?_ leads)
        (other _ start (by simp))
      · exact fun n member => down n (List.dropLast_subset _ member)
      · cases way with
        | nil => simp
        | cons head way => exact other _ ((List.prefix_append _ _).trans start) (by simp)

/-- Without a link on the way, a change is made straight below the top. -/
theorem Touches.below (touches : Touches disk top change place)
    (safe : RelativePath.isSafe change.path = true)
    (free : Disk.LinkFree disk top (followed change)) :
    ∃ way, way ≠ [] ∧ way <+: TreePath.resolve (.ofString change.path) ∧ place = top ++ way := by
  have down := plain_of_isSafe safe
  cases touches with
  | write nonempty start leads =>
      exact ⟨_, nonempty, start, leads.place_eq
        (fun n member => Disk.ne_above (down n (start.subset member))) (free.outer start)⟩
  | @remove path way name directory start leads =>
      have above : way <+: (TreePath.resolve (.ofString path)).dropLast := prefix_dropLast start
      refine ⟨way ++ [name], by simp, start, ?_⟩
      rw [leads.place_eq
        (fun n member => Disk.ne_above (down n (start.subset (List.mem_append_left _ member))))
        (free.outer above), List.append_assoc]

/-- Below the top, a path that leads into the repository's own directory is nowhere else. -/
theorem home_above (own : home = top ++ [TreePath.gitDirectory]) (inside : ¬ Outside path)
    {way : List Name} (nonempty : way ≠ []) (start : way <+: TreePath.resolve (.ofString path)) :
    home <+: top ++ way := by
  obtain ⟨first, rest, rfl⟩ := List.exists_cons_of_ne_nil nonempty
  unfold Outside at inside
  rw [Decidable.not_not, ← TreePath.head?_of_above start nonempty] at inside
  rw [own, List.prefix_append_right_inj, List.cons_prefix_cons]
  exact ⟨(Option.some.inj inside).symm, List.nil_prefix⟩

end Names

section OneChange

variable {destination : Destination} {path : String} {change : FileChange}

theorem home_apply (destination : Destination) (change : FileChange) :
    (destination.apply change).2.home = destination.home := by
  refine apply_keeps (fun next => next.home = destination.home) (fun update same => ?_)
    (fun next same => ?_) rfl
  · cases update <;> exact same
  · unfold heed
    split <;> exact same

/-- Edits that are made for a change, none of them at the top. -/
def Marks (top : TreePath) (change : FileChange) (edits : List (Disk × TreePath)) : Prop :=
  ∀ edit ∈ edits, edit.2 ≠ top ∧ Touches edit.1 top change edit.2

theorem write_marks (stands : Disk.look destination.disk destination.top = some .directory)
    (safe : RelativePath.isSafe path = true) (content : Bytes) :
    ∃ edits, Disk.Edits destination.disk edits (destination.write path content).2.disk ∧
      Marks destination.top (.write path content) edits := by
  have plain := plain_of_isSafe safe
  obtain ⟨lead, name, blanks, names, nonempty, blank⟩ := RelativePath.name_of_isSafe safe
  obtain ⟨edits, directories, made⟩ :=
    @Disk.makeDirectories_edits _ (destination.route path).parent stands
      fun n member => plain n (List.dropLast_subset _ member)
  obtain ⟨stands', apart⟩ := directories.stands stands fun edit member _ => by
    simp [(made edit member).none]
  have above : Marks destination.top (.write path content) edits := by
    intro edit member
    obtain ⟨-, -, way, some, start, leads⟩ := made edit member
    exact ⟨apart edit member, .write some (start.trans (List.dropLast_prefix _)) leads⟩
  rcases done : Disk.makeDirectories destination.disk (destination.route path).parent with
    ⟨error | _, disk⟩
  · rw [done] at directories
    rw [write_of_unmade done]
    exact ⟨edits, directories, above⟩
  rw [done] at directories stands'
  cases written : disk.write (destination.route path) content with
  | error error =>
      rw [write_of_unwritten done written]
      exact ⟨edits, directories, above⟩
  | ok next =>
      rw [write_of_written done written, disk_addToIndex]
      obtain ⟨place, edit, closed, leads⟩ :=
        Disk.write_edit (show (destination.route path).names = _ from names) nonempty blank stands'
          written
      refine ⟨edits ++ [(disk, place)], directories.append (.one edit), ?_⟩
      intro e member
      rcases List.mem_append.1 member with before | last
      · exact above e before
      · rw [List.mem_singleton.1 last]
        have other : place ≠ destination.top := by
          rintro rfl
          exact closed stands'
        refine ⟨other, .write ?_ (List.prefix_refl _) leads⟩
        intro nowhere
        rw [show TreePath.resolve (destination.route path).names = [] from nowhere] at leads
        cases leads
        exact other rfl

theorem remove_marks (stands : Disk.look destination.disk destination.top = some .directory)
    (safe : RelativePath.isSafe path = true) :
    ∃ edits, Disk.Edits destination.disk edits (destination.remove path).2.disk ∧
      Marks destination.top (.remove path) edits := by
  have plain := plain_of_isSafe safe
  obtain ⟨lead, name, blanks, names, nonempty, blank⟩ := RelativePath.name_of_isSafe safe
  cases removed : destination.disk.remove (destination.route path) with
  | error error =>
      rw [remove_of_refused removed]
      split <;> exact ⟨[], .done _, fun _ member => nomatch member⟩
  | ok disk =>
      rw [remove_of_removed removed]
      obtain ⟨directory, edit, closed, step, leads⟩ :=
        Disk.remove_edit (show (destination.route path).names = _ from names) nonempty blank stands
          removed
      have apart : directory ++ [name] ≠ destination.top := by
        intro same
        exact closed (same ▸ stands)
      have whole : TreePath.resolve (.ofString path) = TreePath.resolve lead ++ [name] := by
        rw [names, Disk.resolve_last blank, if_pos step]
      have outer : ∀ names ∈ (TreePath.ancestors (TreePath.resolve (.ofString path))).reverse,
          names ≠ [] ∧ names <+: TreePath.resolve (.ofString path) := fun names member =>
        TreePath.of_mem_ancestors (List.mem_reverse.1 member)
      obtain ⟨edits, pruned, made⟩ := Disk.prune_edits
        (by rw [edit.elsewhere apart.symm, stands])
        (fun names member => TreePath.exists_concat (outer names member).1)
        (fun names member n inside => plain n ((outer names member).2.subset inside))
      refine ⟨(destination.disk, directory ++ [name]) :: edits, .next edit pruned, ?_⟩
      intro e member
      rcases List.mem_cons.1 member with rfl | later
      · exact ⟨apart, .remove (whole ▸ List.prefix_refl _) leads⟩
      · obtain ⟨other, way, last, directory, among, same, leads'⟩ := made e later
        refine ⟨other, ?_⟩
        rw [same]
        exact .remove (outer _ among).2 leads'

theorem apply_marks (stands : Disk.look destination.disk destination.top = some .directory)
    (safe : RelativePath.isSafe change.path = true) :
    ∃ edits, Disk.Edits destination.disk edits (destination.apply change).2.disk ∧
      Marks destination.top change edits := by
  rw [apply_eq]
  dsimp only
  rw [disk_heed]
  cases change with
  | write path content => exact write_marks stands safe content
  | remove path => exact remove_marks stands safe

end OneChange

/-! ## Many changes -/

section ManyChanges

variable {destination : Destination} {changes : List FileChange}

theorem home_applyAll (destination : Destination) (changes : List FileChange) :
    (destination.applyAll changes).2.home = destination.home :=
  applyAll_keeps (fun next => next.home = destination.home) rfl fun change _ middle same =>
    (home_apply middle change).trans same

/-- What changes do to the disk, one after the other up to the first that fails. -/
theorem applyAll_effects (stands : Disk.look destination.disk destination.top = some .directory)
    (safe : ∀ change ∈ changes, RelativePath.isSafe change.path = true) :
    ∃ effects : List Effect,
      Disk.Edits destination.disk (effects.map Effect.edit) (destination.applyAll changes).2.disk ∧
        ∀ effect ∈ effects, effect.change ∈ changes ∧ effect.place ≠ destination.top ∧
          Touches effect.before destination.top effect.change effect.place := by
  induction changes generalizing destination with
  | nil => exact ⟨[], .done _, fun _ member => nomatch member⟩
  | cons change changes ih =>
      obtain ⟨edits, made, marks⟩ := apply_marks stands (safe change List.mem_cons_self)
      have home := home_apply destination change
      have first : ∀ effect ∈ edits.map (Effect.of change), effect.change ∈ change :: changes ∧
          effect.place ≠ destination.top ∧
            Touches effect.before destination.top effect.change effect.place := by
        intro effect member
        obtain ⟨edit, inside, rfl⟩ := List.mem_map.1 member
        exact ⟨List.mem_cons_self, marks edit inside⟩
      rw [← Effect.map_edit_of change edits] at made
      rcases applied : destination.apply change with ⟨error | done, next⟩
      · rw [applied] at made
        rw [applyAll_of_error applied]
        exact ⟨_, made, first⟩
      rw [applied] at made home
      rw [applyAll_of_ok applied]
      have top : next.top = destination.top := top_congr home
      have stands' : Disk.look next.disk destination.top = some .directory := by
        rw [Effect.map_edit_of] at made
        exact (made.stands stands fun edit member same => absurd same (marks edit member).1).1
      obtain ⟨effects, later, rest⟩ := ih (top ▸ stands')
        fun c member => safe c (List.mem_cons_of_mem _ member)
      refine ⟨edits.map (Effect.of change) ++ effects, ?_, ?_⟩
      · rw [List.map_append]
        exact made.append later
      · intro effect member
        rcases List.mem_append.1 member with before | behind
        · exact first effect before
        · obtain ⟨among, apart, touches⟩ := rest effect behind
          rw [top] at apart touches
          exact ⟨List.mem_cons_of_mem _ among, apart, touches⟩

end ManyChanges

/-! ## Staging -/

/-- Where an effect of staged changes lies. -/
structure Effect.Lies (destination : Destination) (changes : List FileChange) (effect : Effect) :
    Prop where
  wanted : effect.change ∈ changes
  /-- It is where the path of its change leads, links being followed. -/
  touches : Touches effect.before destination.top effect.change effect.place
  apart : effect.place ≠ destination.top
  /-- The links that it could meet were there before anything was staged. -/
  links : ∀ path target, Disk.look effect.before path = some (.entry (.link target)) →
    Disk.look destination.disk path = some (.entry (.link target))
  /-- It is within where its path leads past the repository's own directory, and each link on the
  way leads within. -/
  within : Outside effect.change.path →
    Guarded effect.before destination.top destination.home (followed effect.change) →
    Within destination.top destination.home effect.place
  /-- It is in the repository's own directory where its path leads there. -/
  inside : ¬ Outside effect.change.path →
    Disk.LinkFree effect.before destination.top (followed effect.change) →
    destination.home <+: effect.place

/-- **Staging**, whether it succeeds or fails, does nothing to the disk but a list of edits, and
saves the index if it succeeds.  Each edit is made where the path of a change leads, and not at the
top of the working tree.  That is within, unless the path leads into the repository's own directory
or past a link that leads elsewhere. -/
theorem stage_places {destination : Destination} (changes : List FileChange)
    (placed : destination.bare = false →
      destination.home = destination.top ++ [TreePath.gitDirectory] ∧
        Disk.look destination.disk destination.top = some .directory) :
    ∃ (effects : List Effect) (last : Disk),
      Disk.Edits destination.disk (effects.map Effect.edit) last ∧
      (∀ path, (∀ effect ∈ effects, path ≠ effect.place) →
        Disk.look last path = Disk.look destination.disk path) ∧
      (destination.stage changes).2.disk = (match (destination.stage changes).1 with
        | .ok () => Directory.recordIndex last destination.home
        | .error _ => last) ∧
      ∀ effect ∈ effects, effect.Lies destination changes := by
  rcases stage_cases destination changes with ⟨error, refused⟩ | ⟨checked, working, whole⟩
  · rw [refused]
    exact ⟨[], destination.disk, .done _, fun _ _ => rfl, rfl, fun _ member => nomatch member⟩
  obtain ⟨own, stands⟩ := placed working
  have safe := isSafe_of_checkAll checked
  obtain ⟨effects, made, marks⟩ := applyAll_effects stands
    fun change member => safe change (mem_removalsFirst.1 member)
  have home := home_applyAll destination (FileChange.removalsFirst changes)
  refine ⟨effects, _, made, ?_, ?_, ?_⟩
  · intro path away
    apply made.elsewhere
    intro edit member
    obtain ⟨effect, inside, rfl⟩ := List.mem_map.1 member
    exact away effect inside
  · rw [whole]
    rcases applied : destination.applyAll (FileChange.removalsFirst changes) with
      ⟨error | done, next⟩
    · rfl
    · rw [applied] at home
      exact congrArg (Directory.recordIndex next.disk) home
  · intro effect member
    obtain ⟨wanted, apart, touches⟩ := marks effect member
    have wanted := mem_removalsFirst.1 wanted
    have safe := safe effect.change wanted
    refine ⟨wanted, touches, apart, ?_, touches.within own safe, ?_⟩
    · exact made.link_before effect.edit (List.mem_map_of_mem member)
    · intro leadsIn free
      obtain ⟨way, nonempty, start, same⟩ := touches.below safe free
      rw [same]
      exact home_above own leadsIn nonempty start

/-! ## A directory that becomes a file -/

namespace Replaced

def top : TreePath := [Utf8.encode "out"]

def home : TreePath := top ++ [TreePath.gitDirectory]

/-- A new repository with one file in a directory, and a link to another directory beside it. -/
def disk : Disk :=
  (((Directory.create (.directory [(Utf8.encode "out", .vacant)]) home false).put
    (top ++ TreePath.ofString "d/e") (.file [0x78] false)).put
      (top ++ TreePath.ofString "inner") .vacant).put
        (top ++ TreePath.ofString "link") (.link (Utf8.encode "inner"))

def destination : Destination := .on {} disk home

def changes : List FileChange := [.write "d" [0x79], .write "link/new" [0x7A], .remove "d/e"]

/-- The only link of the working tree. -/
def linkPlace : TreePath := top ++ TreePath.ofString "link"

/-- Whether a link is on the way. -/
def meetsLink (names : List Name) : Bool :=
  (List.range (names.length + 1)).any fun count =>
    match Disk.look disk (top ++ names.take count) with
    | some (.entry (.link _)) => true
    | _ => false

section Before

variable {before : Disk}
  (links : ∀ path target, Disk.look before path = some (.entry (.link target)) →
    Disk.look disk path = some (.entry (.link target)))

include links

theorem linkFree {names : List Name} (free : meetsLink names = false) :
    Disk.LinkFree before top names := by
  intro way target start found
  have here := List.any_eq_false.1 free way.length
    (List.mem_range.2 (Nat.lt_succ_of_le start.length_le))
  rw [← List.prefix_iff_eq_take.1 start, links _ _ found] at here
  exact here rfl

/-- The link leads to the directory, or it is no link any more. -/
theorem of_leads_link {place : TreePath}
    (leads : Disk.Leads before top [Utf8.encode "link"] place) :
    place = linkPlace ∨ place = top ++ [Utf8.encode "inner"] := by
  cases leads with
  | down _ _ rest =>
      cases rest
      exact Or.inl rfl
  | link _ found rest =>
      have own : Disk.look disk linkPlace = some (.entry (.link (Utf8.encode "inner"))) := by
        decide +kernel
      cases own.symm.trans (links _ _ found)
      exact Or.inr (rest.place_eq (by decide) (linkFree links (by decide +kernel)))

theorem guarded : ∀ change ∈ changes, Guarded before top home (followed change) := by
  intro change member
  simp only [changes, List.mem_cons, List.not_mem_nil, or_false] at member
  rcases member with rfl | rfl | rfl
  · exact .of_linkFree (by decide) (linkFree links (by decide +kernel))
  · intro way name directory target place start leads found last
    have names : followed (.write "link/new" [0x7A]) =
        [Utf8.encode "link", Utf8.encode "new"] := by decide
    rw [names] at start
    cases way with
    | nil =>
        obtain ⟨rfl, -⟩ := List.cons_prefix_cons.1 start
        cases leads
        rcases of_leads_link links last with rfl | rfl
        · exact ⟨by decide, by decide, by decide⟩
        · exact ⟨by decide, by decide, by decide⟩
    | cons head way =>
        obtain ⟨rfl, later⟩ := List.cons_prefix_cons.1 start
        cases way with
        | nil =>
            -- no link stands where the first one leads
            obtain ⟨rfl, -⟩ := List.cons_prefix_cons.1 later
            have nothing : Disk.look disk (linkPlace ++ [Utf8.encode "new"]) = none ∧
                Disk.look disk (top ++ [Utf8.encode "inner"] ++ [Utf8.encode "new"]) = none := by
              decide +kernel
            have there := links _ _ found
            rcases of_leads_link links leads with rfl | rfl
            · exact absurd (nothing.1.symm.trans there) (by simp)
            · exact absurd (nothing.2.symm.trans there) (by simp)
        | cons next way => simp at later
  · exact .of_linkFree (by decide) (linkFree links (by decide +kernel))

end Before

end Replaced

/-- A file takes the place of a directory whose only file is removed, and another one is written
through a link: what is done for that lies within. -/
theorem replaced_directory_within :
    (Replaced.destination.stage Replaced.changes).1 = .ok () ∧
    ∃ (effects : List Effect) (last : Disk),
      Disk.Edits Replaced.disk (effects.map Effect.edit) last ∧
      Disk.look last (Replaced.top ++ TreePath.ofString "d") = some (.entry (.file [0x79] false)) ∧
      Disk.look last (Replaced.top ++ TreePath.ofString "inner/new") =
        some (.entry (.file [0x7A] false)) ∧
      ∀ effect ∈ effects, Within Replaced.top Replaced.home effect.place := by
  have staged : (Replaced.destination.stage Replaced.changes).1 = .ok () := by decide +kernel
  obtain ⟨effects, last, made, -, saved, lies⟩ :=
    @stage_places Replaced.destination Replaced.changes fun _ => ⟨by decide, by decide +kernel⟩
  rw [staged] at saved
  -- the index is saved elsewhere
  have kept : ∀ path, ¬ Replaced.home ++ Directory.indexFile <+: Replaced.top ++ path →
      ¬ Replaced.top ++ path <+: Replaced.home ++ Directory.indexFile →
      Disk.look last (Replaced.top ++ path) =
        Disk.look (Replaced.destination.stage Replaced.changes).2.disk (Replaced.top ++ path) := by
    intro path notBelow notAbove
    rw [saved]
    show _ = Disk.look (last.fill _ _) _
    rw [Disk.fill_eq]
    exact (Disk.look_put_apart _ notBelow notAbove).symm
  refine ⟨staged, effects, last, made, ?_, ?_, ?_⟩
  · rw [kept _ (by decide) (by decide)]
    decide +kernel
  · rw [kept _ (by decide) (by decide)]
    decide +kernel
  · intro effect member
    have lies := lies effect member
    have outside : ∀ change ∈ Replaced.changes, Outside change.path := by decide +kernel
    exact lies.within (outside _ lies.wanted) (Replaced.guarded lies.links _ lies.wanted)

end TokenBlame.Destination
