/-
# TokenBlame.Proofs.Git.TreePath -- places and the texts that name them

A text names one place, and no other text names it (`ofString_injective`).  A path that may
stand in a tree leads where it says: it has no empty name, no `.` and no `..`.
-/
import TokenBlame.Git.TreePath
import TokenBlame.Proofs.Text.Pieces
import TokenBlame.Proofs.Text.Utf8

set_option autoImplicit false

namespace TokenBlame.Git.TreePath

/-! ## Splitting and joining -/

theorem join_cons_cons (name other : Name) (rest : TreePath) :
    join (name :: other :: rest) = name ++ slash :: join (other :: rest) := by
  simp [join, List.intercalate, List.intersperse]

theorem split_ne_nil (path : Bytes) : split path ≠ [] :=
  List.cons_ne_nil _ _

theorem split_cons (b : UInt8) (path : Bytes) :
    split (b :: path) =
      if b = slash then [] :: split path
      else (b :: (split path).head (split_ne_nil path)) :: (split path).tail := by
  have step := Pieces.splitBy_cons (fun x => decide (x = slash)) b path
  simp only [decide_eq_true_eq] at step
  exact step

/-- The names between the slashes are those of the path. -/
theorem join_split (path : Bytes) : join (split path) = path := by
  induction path with
  | nil => rfl
  | cons b path ih =>
      obtain ⟨name, rest, shape⟩ := List.exists_cons_of_ne_nil (split_ne_nil path)
      rw [split_cons]
      split
      · rename_i here
        rw [shape, join_cons_cons, ← shape, ih, here, List.nil_append]
      · simp only [shape, List.head_cons, List.tail_cons]
        rw [shape] at ih
        rw [← ih]
        cases rest with
        | nil => simp [join, List.intercalate]
        | cons other rest => rw [join_cons_cons, join_cons_cons, List.cons_append]

theorem split_injective {a b : Bytes} (same : split a = split b) : a = b := by
  rw [← join_split a, same, join_split]

theorem ofString_ne_nil (path : String) : ofString path ≠ [] :=
  split_ne_nil _

/-- A text names one place, and no other text names it. -/
theorem ofString_injective {a b : String} (same : ofString a = ofString b) : a = b := by
  have bytes := split_injective same
  have read := congrArg Utf8.decode? bytes
  rw [Utf8.decode?_encode, Utf8.decode?_encode] at read
  exact Option.some.inj read

theorem join_ofString (path : String) : (ofString path).join = Utf8.encode path :=
  join_split _

/-! ## Names -/

/-- A name that leads into a directory of its own. -/
structure IsPlain (name : Name) : Prop where
  step : isStep name = true
  down : name ≠ Utf8.encode ".."

theorem isPlain_of_isValidName {name : Name} (valid : isValidName name = true) : IsPlain name := by
  simp only [isValidName, Bool.and_eq_true, bne_iff_ne, ne_eq, Bool.not_eq_true'] at valid
  obtain ⟨⟨⟨nonempty, dot⟩, dots⟩, -⟩ := valid
  exact ⟨by simp [isStep, nonempty, dot], dots⟩

theorem isReserved_gitDirectory : isReserved gitDirectory = true := by decide

/-- The repository's own directory has no name that may stand in a tree. -/
theorem ne_gitDirectory_of_isValidName {name : Name} (valid : isValidName name = true) :
    name ≠ gitDirectory := by
  rintro rfl
  simp [isValidName, isReserved_gitDirectory] at valid

theorem isPlain_of_isValid {path : TreePath} (valid : isValid path = true) :
    ∀ name ∈ path, IsPlain name := fun name member =>
  isPlain_of_isValidName (List.all_eq_true.1 valid name member)

theorem head?_ne_gitDirectory {path : TreePath} (valid : isValid path = true) :
    path.head? ≠ some gitDirectory := by
  cases path with
  | nil => simp
  | cons name rest =>
      have own := List.all_eq_true.1 valid name List.mem_cons_self
      simpa using ne_gitDirectory_of_isValidName own

@[simp] theorem resolve_nil : resolve [] = [] := rfl

theorem resolve_cons {name : Name} (step : isStep name = true) (rest : TreePath) :
    resolve (name :: rest) = name :: resolve rest := by
  simp [resolve, step]

theorem resolve_cons_skip {name : Name} (noStep : isStep name = false) (rest : TreePath) :
    resolve (name :: rest) = resolve rest := by
  simp [resolve, noStep]

theorem resolve_append (path more : TreePath) :
    resolve (path ++ more) = resolve path ++ resolve more :=
  List.filter_append path more

theorem resolve_eq_self {path : TreePath} (plain : ∀ name ∈ path, IsPlain name) :
    resolve path = path :=
  List.filter_eq_self.2 fun name member => (plain name member).step

/-! ## Above and inside -/

theorem isInside_iff {dir path : TreePath} :
    isInside dir path = true ↔ dir <+: path ∧ dir ≠ path := by
  simp only [isInside, Bool.and_eq_true, List.isPrefixOf_iff_prefix, decide_eq_true_eq]
  constructor
  · rintro ⟨above, shorter⟩
    refine ⟨above, ?_⟩
    rintro rfl
    exact Nat.lt_irrefl _ shorter
  · rintro ⟨above, other⟩
    refine ⟨above, Nat.lt_of_le_of_ne above.length_le ?_⟩
    intro same
    exact other (above.eq_of_length same)

theorem prefix_antisymm {a b : TreePath} (one : a <+: b) (two : b <+: a) : a = b :=
  one.eq_of_length_le two.length_le

/-- What is inside a path is inside every path above it. -/
theorem isInside_of_above {outer dir path : TreePath} (above : outer <+: dir)
    (inside : isInside dir path = true) : isInside outer path = true := by
  obtain ⟨below, different⟩ := isInside_iff.1 inside
  refine isInside_iff.2 ⟨above.trans below, ?_⟩
  rintro rfl
  exact different (prefix_antisymm below above)

theorem head?_of_above {above path : TreePath} (start : above <+: path) (nonempty : above ≠ []) :
    above.head? = path.head? := by
  obtain ⟨rest, rfl⟩ := start
  obtain ⟨name, tail, rfl⟩ := List.exists_cons_of_ne_nil nonempty
  rfl

theorem not_prefix_of_longer {above path : TreePath} {name : Name} (start : above ++ [name] <+: path) :
    ¬ path <+: above := by
  intro back
  have := (start.trans back).length_le
  rw [List.length_append, List.length_singleton] at this
  omega

/-- What is above a path is what its names before the last one begin with. -/
theorem isInside_concat_iff {dir lead : TreePath} {name : Name} :
    isInside dir (lead ++ [name]) = true ↔ dir <+: lead := by
  rw [isInside_iff, List.prefix_concat_iff]
  constructor
  · rintro ⟨same | above, different⟩
    · exact absurd same different
    · exact above
  · intro above
    refine ⟨.inr above, ?_⟩
    rintro rfl
    exact not_prefix_of_longer (List.prefix_refl _) above

/-- A path has a last name, unless it is the top. -/
theorem exists_concat {path : TreePath} (nonempty : path ≠ []) :
    ∃ lead name, path = lead ++ [name] :=
  ⟨_, _, (List.dropLast_concat_getLast nonempty).symm⟩

/-- What is above a path begins what is left of it without its last name. -/
theorem prefix_take_iff {path other : TreePath} (nonempty : path ≠ []) :
    other <+: path.take (path.length - 1) ↔ other <+: path ∧ other ≠ path := by
  obtain ⟨lead, name, rfl⟩ := exists_concat nonempty
  rw [← List.dropLast_eq_take, List.dropLast_concat, ← isInside_iff, isInside_concat_iff]

/-- Two paths of which neither is the other's directory. -/
def Apart (a b : TreePath) : Prop :=
  isInside a b = false ∧ isInside b a = false

theorem Apart.symm {a b : TreePath} (apart : Apart a b) : Apart b a :=
  ⟨apart.2, apart.1⟩

theorem Apart.eq_of_above {a b : TreePath} (apart : Apart a b) (above : a <+: b) : a = b := by
  by_cases same : a = b
  · exact same
  · have inside := isInside_iff.2 ⟨above, same⟩
    rw [apart.1] at inside
    cases inside

theorem ancestors_eq (path : TreePath) :
    ancestors path = (List.range path.length).tail.map fun n => path.take n := rfl

/-- A directory above a path has names of its own, and the path begins with them. -/
theorem of_mem_ancestors {path names : TreePath} (member : names ∈ ancestors path) :
    names ≠ [] ∧ names <+: path := by
  rw [ancestors_eq] at member
  obtain ⟨n, inside, rfl⟩ := List.mem_map.1 member
  refine ⟨?_, List.take_prefix n path⟩
  cases path with
  | nil => cases inside
  | cons name path =>
      rw [List.length_cons, List.range_succ_eq_map, List.tail_cons] at inside
      obtain ⟨m, -, rfl⟩ := List.mem_map.1 inside
      simp

/-- The directories above a path of `n + 1` names, the nearest first. -/
def upwards (path : TreePath) : Nat → List TreePath
  | 0 => []
  | n + 1 => path.take (n + 1) :: upwards path n

theorem reverse_ancestors (path : TreePath) :
    (ancestors path).reverse = upwards path (path.length - 1) := by
  have counted : ∀ n, ((List.range (n + 1)).tail.map fun n => path.take n).reverse =
      upwards path n := by
    intro n
    induction n with
    | zero => rfl
    | succ n ih =>
        have some : List.range (n + 1) ≠ [] := by simp
        rw [List.range_succ, List.tail_append_of_ne_nil some, List.map_append, List.reverse_append,
          ih]
        rfl
  rw [ancestors_eq]
  cases length : path.length with
  | zero => rfl
  | succ n => exact counted n

end TokenBlame.Git.TreePath
