/-
# TokenBlame.Proofs.Destination.Vetted -- paths are looked at before anything is changed

A path strays (`RelativePath.Strays`) when it is empty, begins at the top of the disk or has
a component `..`; whatever else its components are, it is safe (`isSafe_iff`).  Staging looks
at all paths in the order of the changes.  The first that strays refuses the whole list, and
nothing at all is changed.  Where none does, every route that a change is made by stays in
the working tree (`Disk.Route.StaysIn`): not only its end, but each place on its way as the
names tell it (`stage_vets`).
-/
import TokenBlame.Proofs.Destination.Places

set_option autoImplicit false

namespace TokenBlame

open Git

/-! ## Components -/

namespace RelativePath

/-- A name is one of the components of a path: only slashes are around it. -/
def HasComponent (path name : List Char) : Prop :=
  ∃ before behind, path = before ++ name ++ behind ∧
    (before = [] ∨ before.getLast? = some '/') ∧ (behind = [] ∨ behind.head? = some '/')

/-- A path that is empty, begins at the top or leads upwards somewhere. -/
def Strays (path : String) : Prop :=
  path = "" ∨ path.toList.head? = some '/' ∨ HasComponent path.toList ['.', '.']

theorem hasComponent_of_mem {path name : List Char} (member : name ∈ components path) :
    HasComponent path name := by
  obtain ⟨front, rest, whole⟩ := List.append_of_mem member
  have ended := Pieces.flatMap_split '/' path
  rw [show Pieces.split '/' path = front ++ name :: rest from whole, List.flatMap_append,
    List.flatMap_cons] at ended
  have before : front.flatMap (fun piece => piece ++ ['/']) = [] ∨
      (front.flatMap fun piece => piece ++ ['/']).getLast? = some '/' := by
    cases List.eq_nil_or_concat front with
    | inl empty => simp [empty]
    | inr last =>
        obtain ⟨front, piece, rfl⟩ := last
        simp
  cases List.eq_nil_or_concat rest with
  | inl empty =>
      subst empty
      refine ⟨_, [], ?_, before, Or.inl rfl⟩
      refine (List.append_left_inj ['/']).1 ?_
      rw [← ended]
      simp
  | inr last =>
      obtain ⟨rest, piece, rfl⟩ := last
      refine ⟨_, '/' :: (rest.flatMap (fun piece => piece ++ ['/']) ++ piece), ?_, before,
        Or.inr rfl⟩
      refine (List.append_left_inj ['/']).1 ?_
      rw [← ended]
      simp

theorem mem_of_hasComponent {path name : List Char} (closed : '/' ∉ name)
    (found : HasComponent path name) : name ∈ components path := by
  obtain ⟨before, behind, rfl, left, right⟩ := found
  have first : name ∈ components (name ++ behind) := by
    unfold components
    rcases right with rfl | slash
    · rw [List.append_nil, Pieces.split_of_not_mem closed]
      exact List.mem_singleton.2 rfl
    · obtain ⟨behind, rfl⟩ := List.head?_eq_some_iff.1 slash
      rw [Pieces.split_append, Pieces.split_of_not_mem closed]
      exact List.mem_append_left _ (List.mem_singleton.2 rfl)
  rcases left with rfl | slash
  · exact first
  · obtain ⟨before, rfl⟩ := List.getLast?_eq_some_iff.1 slash
    unfold components
    rw [List.append_assoc, List.append_assoc, List.singleton_append, Pieces.split_append]
    exact List.mem_append_right _ first

/-- The safe paths are those that do not stray. -/
theorem isSafe_iff {path : String} : isSafe path = true ↔ ¬ Strays path := by
  have upwards : HasComponent path.toList ['.', '.'] ↔ ['.', '.'] ∈ components path.toList :=
    ⟨mem_of_hasComponent (by decide), hasComponent_of_mem⟩
  have empty : path = "" ↔ path.toList = [] := by
    rw [← String.toList_inj]
    rfl
  simp only [isSafe, Strays, upwards, empty, Bool.and_eq_true, Bool.not_eq_true',
    List.isEmpty_eq_false_iff, bne_iff_ne, List.contains_eq_mem, decide_eq_false_iff_not, not_or,
    and_assoc, ne_eq]

theorem checked_of_strays {path : String} (strays : Strays path) :
    checked path = .error (.invalidPath path) := by
  unfold checked
  rw [if_neg fun safe => isSafe_iff.1 safe strays]

end RelativePath

/-! ## Routes -/

namespace Disk.Route

/-- A route stays in a directory: after each of its names, links being passed over, it is there
or further inside. -/
def StaysIn (route : Route) (top : TreePath) : Prop :=
  ∀ way, way <+: route.names → top <+: ({ route with names := way } : Route).place

/-- Without names that lead upwards a route adds its names. -/
theorem place_of_down {route : Route} (down : ∀ name ∈ route.names, name ≠ above) :
    route.place = route.start ++ TreePath.resolve route.names := by
  have added : ∀ (names : List Name), (∀ name ∈ names, name ≠ above) → ∀ start : TreePath,
      names.foldl (fun place name => if name = above then place.dropLast else place ++ [name])
        start = start ++ names := by
    intro names
    induction names with
    | nil => simp
    | cons name names ih =>
        intro down start
        rw [List.foldl_cons, if_neg (down name List.mem_cons_self),
          ih fun n member => down n (List.mem_cons_of_mem _ member), List.append_assoc]
        rfl
  exact added _ (fun name member => down name (List.mem_filter.1 member).1) _

theorem staysIn_of_down {route : Route} (down : ∀ name ∈ route.names, name ≠ above) :
    route.StaysIn route.start := by
  intro way start
  rw [place_of_down fun name member => down name (start.subset member)]
  exact List.prefix_append _ _

end Disk.Route

/-! ## Staging -/

namespace Destination

/-- The routes that a change is made by: to the file, to its directory where a file is written,
and to each directory that may be left empty where one is removed. -/
def routes (destination : Destination) : FileChange → List Disk.Route
  | .write path _ => [destination.route path, (destination.route path).parent]
  | .remove path => destination.route path ::
      (TreePath.ancestors (TreePath.resolve (.ofString path))).map fun names =>
        { start := destination.top, names, text := Disk.text (destination.top ++ names) }

theorem staysIn_of_isSafe (destination : Destination) {change : FileChange}
    (safe : RelativePath.isSafe change.path = true) :
    ∀ route ∈ destination.routes change, route.StaysIn destination.top := by
  have down := RelativePath.down_of_isSafe safe
  have inner : ∀ names, names <+: TreePath.resolve (.ofString change.path) →
      ∀ name ∈ names, name ≠ Disk.above := fun names start name member =>
    down name (List.mem_filter.1 (start.subset member)).1
  intro route member
  cases change with
  | write path content =>
      rcases List.mem_cons.1 member with rfl | member
      · exact Disk.Route.staysIn_of_down down
      · obtain rfl := List.mem_singleton.1 member
        exact Disk.Route.staysIn_of_down (inner _ (List.dropLast_prefix _))
  | remove path =>
      rcases List.mem_cons.1 member with rfl | member
      · exact Disk.Route.staysIn_of_down down
      · obtain ⟨names, among, rfl⟩ := List.mem_map.1 member
        exact Disk.Route.staysIn_of_down (inner _ (TreePath.of_mem_ancestors among).2)

/-- The check stops at the first path that strays. -/
theorem checkAll_of_strays {front rest : List FileChange} {change : FileChange}
    (safe : ∀ other ∈ front, ¬ RelativePath.Strays other.path)
    (strays : RelativePath.Strays change.path) :
    FileChange.checkAll (front ++ change :: rest) = .error (.invalidPath change.path) := by
  induction front with
  | nil => rw [List.nil_append, FileChange.checkAll, RelativePath.checked_of_strays strays]
  | cons first front ih =>
      have own := RelativePath.isSafe_iff.2 (safe first List.mem_cons_self)
      rw [List.cons_append, FileChange.checkAll, RelativePath.checked_of_isSafe own]
      exact ih fun other member => safe other (List.mem_cons_of_mem _ member)

/-- Of changes of which some stray there is a first one. -/
theorem exists_first_strays {changes : List FileChange}
    (some : ∃ change ∈ changes, RelativePath.Strays change.path) :
    ∃ front change rest, changes = front ++ change :: rest ∧
      (∀ other ∈ front, ¬ RelativePath.Strays other.path) ∧ RelativePath.Strays change.path := by
  induction changes with
  | nil =>
      obtain ⟨change, member, -⟩ := some
      cases member
  | cons first rest ih =>
      by_cases own : RelativePath.Strays first.path
      · exact ⟨[], first, rest, rfl, by simp, own⟩
      · obtain ⟨change, member, strays⟩ := some
        have later : change ∈ rest := by
          rcases List.mem_cons.1 member with rfl | later
          · exact absurd strays own
          · exact later
        obtain ⟨front, change, behind, rfl, safe, strays⟩ := ih ⟨change, later, strays⟩
        exact ⟨first :: front, change, behind, rfl, List.forall_mem_cons.2 ⟨own, safe⟩, strays⟩

/-- **Paths are vetted first.**  If the path of any change strays, the first one that does is
what staging fails with, and the destination is what it was: both indexes, the disk and the
history.  If none does, nothing is refused, and every route that a change is made by stays in
the working tree. -/
theorem stage_vets (destination : Destination) (changes : List FileChange) :
    ((∃ change ∈ changes, RelativePath.Strays change.path) →
      ∃ front change rest, changes = front ++ change :: rest ∧
        (∀ other ∈ front, ¬ RelativePath.Strays other.path) ∧
        RelativePath.Strays change.path ∧
        destination.stage changes = (.error (.invalidPath change.path), destination)) ∧
    ((∀ change ∈ changes, ¬ RelativePath.Strays change.path) →
      FileChange.checkAll changes = .ok () ∧
      ∀ change ∈ changes, ∀ route ∈ destination.routes change,
        route.start = destination.top ∧ route.StaysIn destination.top) := by
  constructor
  · intro some
    obtain ⟨front, change, rest, rfl, safe, strays⟩ := exists_first_strays some
    exact ⟨front, change, rest, rfl, safe, strays,
      stage_of_unchecked (checkAll_of_strays safe strays)⟩
  · intro none
    have safe : ∀ change ∈ changes, RelativePath.isSafe change.path = true :=
      fun change member => RelativePath.isSafe_iff.2 (none change member)
    refine ⟨checkAll_of_isSafe safe, fun change member route among => ⟨?_, ?_⟩⟩
    · cases change with
      | write path content =>
          simp only [routes, List.mem_cons, List.not_mem_nil, or_false] at among
          rcases among with rfl | rfl <;> rfl
      | remove path =>
          rcases List.mem_cons.1 among with rfl | among
          · rfl
          · obtain ⟨names, -, rfl⟩ := List.mem_map.1 among
            rfl
    · exact staysIn_of_isSafe destination (safe change member) route among

/-- Changes of which the second leads upwards and the third begins at the top of the disk, and
changes that do neither for all their dots and slashes. -/
def straying : List FileChange :=
  [.write "a/./b" [], .remove "a/../b", .write "/c" []]

def tame : List FileChange :=
  [.write "./a//.b/c../" [0x78], .remove "d/.//e/."]

/-- The path that leads upwards is named and the destination is left as it was; the routes of the
other changes stay in the working tree. -/
theorem upward_path_refused :
    let destination := Destination.on {} .vacant [TreePath.gitDirectory]
    destination.stage straying = (.error (.invalidPath "a/../b"), destination) ∧
    ∀ change ∈ tame, ∀ route ∈ destination.routes change,
      route.start = destination.top ∧ route.StaysIn destination.top := by
  intro destination
  have safe : ∀ change ∈ tame, ¬ RelativePath.Strays change.path := fun change member =>
    RelativePath.isSafe_iff.1 (List.all_eq_true.1
      (show tame.all (fun change => RelativePath.isSafe change.path) = true by decide) change member)
  have first : ¬ RelativePath.Strays "a/./b" := RelativePath.isSafe_iff.1 (by decide)
  have second : RelativePath.Strays "a/../b" :=
    Or.inr (Or.inr ⟨"a/".toList, "/b".toList, by decide, Or.inr (by decide), Or.inr (by decide)⟩)
  refine ⟨?_, ((stage_vets destination tame).2 safe).2⟩
  obtain ⟨front, change, rest, whole, before, strays, refused⟩ :=
    (stage_vets destination straying).1 ⟨_, List.mem_cons_of_mem _ List.mem_cons_self, second⟩
  -- the first change does not stray, and the second one is not in front of one that does
  cases front with
  | nil =>
      obtain ⟨rfl, -⟩ := List.cons.inj whole
      exact absurd strays first
  | cons one front =>
      obtain ⟨-, whole⟩ := List.cons.inj whole
      cases front with
      | nil =>
          obtain ⟨rfl, -⟩ := List.cons.inj whole
          exact refused
      | cons two front =>
          obtain ⟨rfl, -⟩ := List.cons.inj whole
          exact absurd second (before (.remove "a/../b") (by simp))

end Destination

end TokenBlame
