/-
# TokenBlame.Table -- finite maps in the order of their keys

A `Table` is a list of keys and values in strictly increasing order of the keys.
Since the order is part of the type, two tables with the same look-ups are equal
(`ext_get?`): a tree of files has one representation, and so one object id.

Look-ups after each operation: `get?_insert`, `get?_erase`, `get?_filter`.
-/

set_option autoImplicit false

namespace TokenBlame

universe u v

/-- A finite map from `κ` to `υ`, in increasing order of its keys. -/
structure Table (κ : Type u) (υ : Type v) [Ord κ] where
  /-- The keys with their values. -/
  entries : List (κ × υ)
  /-- Keys increase. -/
  increasing : entries.Pairwise fun a b => compare a.1 b.1 = .lt

namespace Table

variable {κ : Type u} {υ : Type v} [Ord κ]

/-! ## Entries -/

/-- The value of `key` in a list of entries. -/
def lookup (key : κ) (entries : List (κ × υ)) : Option υ :=
  (entries.find? fun entry => compare entry.1 key == .eq).map (·.2)

/-- Entries with `key` bound to `value`. -/
def insertEntry (key : κ) (value : υ) : List (κ × υ) → List (κ × υ)
  | [] => [(key, value)]
  | (k, v) :: rest =>
      match compare key k with
      | .lt => (key, value) :: (k, v) :: rest
      | .eq => (key, value) :: rest
      | .gt => (k, v) :: insertEntry key value rest

theorem mem_insertEntry {key : κ} {value : υ} {entries : List (κ × υ)} {entry : κ × υ}
    (member : entry ∈ insertEntry key value entries) :
    entry = (key, value) ∨ entry ∈ entries := by
  induction entries with
  | nil => simpa [insertEntry] using member
  | cons head rest ih =>
    obtain ⟨k, v⟩ := head
    simp only [insertEntry] at member
    split at member
    · simpa using member
    · simp only [List.mem_cons] at member ⊢
      exact member.imp_right Or.inr
    · simp only [List.mem_cons] at member ⊢
      rcases member with rfl | member
      · exact Or.inr (Or.inl rfl)
      · exact (ih member).imp_right Or.inr

theorem insertEntry_increasing [Std.TransOrd κ] (key : κ) (value : υ) (entries : List (κ × υ))
    (increasing : entries.Pairwise fun a b => compare a.1 b.1 = .lt) :
    (insertEntry key value entries).Pairwise fun a b => compare a.1 b.1 = .lt := by
  induction entries with
  | nil => simp [insertEntry]
  | cons head rest ih =>
    obtain ⟨k, v⟩ := head
    obtain ⟨below, tail⟩ := List.pairwise_cons.1 increasing
    simp only [insertEntry]
    split
    · rename_i less
      refine List.pairwise_cons.2 ⟨fun entry member => ?_, increasing⟩
      rcases List.mem_cons.1 member with rfl | member
      · exact less
      · exact Std.TransCmp.lt_trans less (below entry member)
    · rename_i same
      exact List.pairwise_cons.2 ⟨fun entry member =>
        Std.TransCmp.lt_of_eq_of_lt same (below entry member), tail⟩
    · rename_i greater
      refine List.pairwise_cons.2 ⟨fun entry member => ?_, ih tail⟩
      rcases mem_insertEntry member with rfl | member
      · exact Std.OrientedCmp.lt_of_gt greater
      · exact below entry member

/-! ## Operations -/

/-- No keys. -/
def empty : Table κ υ := ⟨[], List.Pairwise.nil⟩

instance : EmptyCollection (Table κ υ) := ⟨empty⟩

instance : Inhabited (Table κ υ) := ⟨empty⟩

instance [DecidableEq κ] [DecidableEq υ] : DecidableEq (Table κ υ) := fun a b =>
  decidable_of_iff (a.entries = b.entries) (by cases a; cases b; simp)

/-- The value of a key. -/
def get? (table : Table κ υ) (key : κ) : Option υ :=
  lookup key table.entries

/-- Whether a key has a value. -/
def contains (table : Table κ υ) (key : κ) : Bool :=
  (table.get? key).isSome

/-- Bind a key to a value. -/
def insert [Std.TransOrd κ] (table : Table κ υ) (key : κ) (value : υ) : Table κ υ :=
  ⟨insertEntry key value table.entries, insertEntry_increasing key value _ table.increasing⟩

/-- Keep the entries that satisfy a test. -/
def filter (table : Table κ υ) (keep : κ → υ → Bool) : Table κ υ :=
  ⟨table.entries.filter fun entry => keep entry.1 entry.2, table.increasing.filter _⟩

/-- Take a key away. -/
def erase (table : Table κ υ) (key : κ) : Table κ υ :=
  table.filter fun k _ => compare k key != .eq

/-- The keys in order. -/
def keys (table : Table κ υ) : List κ :=
  table.entries.map (·.1)

/-- The table of a list of entries; the last value of a key counts. -/
def ofList [Std.TransOrd κ] (entries : List (κ × υ)) : Table κ υ :=
  entries.foldl (fun table entry => table.insert entry.1 entry.2) empty

/-! ## Look-ups -/

@[simp] theorem get?_empty (key : κ) : (empty : Table κ υ).get? key = none := rfl

theorem lookup_cons (k : κ) (v : υ) (rest : List (κ × υ)) (key : κ) :
    lookup key ((k, v) :: rest) = if compare k key = .eq then some v else lookup key rest := by
  by_cases same : compare k key = .eq <;> simp [lookup, same]

theorem lookup_insertEntry [Std.TransOrd κ] (key : κ) (value : υ) (entries : List (κ × υ))
    (k : κ) :
    lookup k (insertEntry key value entries) =
      if compare key k = .eq then some value else lookup k entries := by
  induction entries with
  | nil => simp [insertEntry, lookup_cons]
  | cons head rest ih =>
    obtain ⟨k', v'⟩ := head
    simp only [insertEntry]
    split
    · rw [lookup_cons]
    · rename_i same
      rw [lookup_cons, lookup_cons]
      by_cases here : compare key k = .eq
      · simp [here]
      · have other : compare k' k ≠ .eq := fun eq => here (Std.TransCmp.eq_trans same eq)
        simp [here, other]
    · rename_i greater
      rw [lookup_cons, ih, lookup_cons]
      by_cases here : compare key k = .eq
      · have other : compare k' k ≠ .eq := by
          intro eq
          have := Std.TransCmp.eq_trans here (Std.OrientedCmp.eq_symm eq)
          rw [this] at greater
          cases greater
        simp [here, other]
      · simp [here]

/-- After an insertion the key has its new value and the other keys have theirs. -/
theorem get?_insert [Std.TransOrd κ] (table : Table κ υ) (key : κ) (value : υ) (k : κ) :
    (table.insert key value).get? k =
      if compare key k = .eq then some value else table.get? k :=
  lookup_insertEntry key value table.entries k

theorem lookup_eq_some_iff [Std.TransOrd κ] [Std.LawfulEqOrd κ] {entries : List (κ × υ)}
    (increasing : entries.Pairwise fun a b => compare a.1 b.1 = .lt) {key : κ} {value : υ} :
    lookup key entries = some value ↔ (key, value) ∈ entries := by
  induction entries with
  | nil => simp [lookup]
  | cons head rest ih =>
    obtain ⟨k, v⟩ := head
    obtain ⟨below, tail⟩ := List.pairwise_cons.1 increasing
    rw [lookup_cons]
    by_cases same : compare k key = .eq
    · have eq : k = key := Std.LawfulEqCmp.eq_of_compare same
      subst eq
      constructor
      · intro found
        simp only [same, if_true, Option.some.injEq] at found
        simp [found]
      · intro member
        rcases List.mem_cons.1 member with eq | member
        · cases eq; simp
        · have := below _ member
          simp at this
    · simp only [same, if_false, ih tail, List.mem_cons, Prod.mk.injEq]
      constructor
      · exact Or.inr
      · rintro (⟨rfl, rfl⟩ | member)
        · simp at same
        · exact member

/-- A look-up finds exactly the entries. -/
theorem get?_eq_some_iff [Std.TransOrd κ] [Std.LawfulEqOrd κ] {table : Table κ υ} {key : κ}
    {value : υ} : table.get? key = some value ↔ (key, value) ∈ table.entries :=
  lookup_eq_some_iff table.increasing

/-- After a filter a key keeps its value if it satisfies the test. -/
theorem get?_filter [Std.TransOrd κ] [Std.LawfulEqOrd κ] (table : Table κ υ)
    (keep : κ → υ → Bool) (key : κ) :
    (table.filter keep).get? key = (table.get? key).filter (keep key) := by
  apply Option.ext
  intro value
  rw [get?_eq_some_iff, Option.filter_eq_some_iff, get?_eq_some_iff]
  simp [filter]

/-- After a removal the key has no value and the other keys have theirs. -/
theorem get?_erase [Std.TransOrd κ] [Std.LawfulEqOrd κ] (table : Table κ υ) (key k : κ) :
    (table.erase key).get? k = if compare k key = .eq then none else table.get? k := by
  rw [erase, get?_filter]
  by_cases same : compare k key = .eq
  · cases found : table.get? k <;> simp [same]
  · cases found : table.get? k <;> simp [same]

/-! ## Keys -/

theorem mem_keys [Std.TransOrd κ] [Std.LawfulEqOrd κ] {table : Table κ υ} {key : κ} :
    key ∈ table.keys ↔ ∃ value, table.get? key = some value := by
  simp [keys, get?_eq_some_iff]

theorem nodup_keys [Std.LawfulEqOrd κ] (table : Table κ υ) : table.keys.Nodup := by
  unfold keys
  rw [List.Nodup, List.pairwise_map]
  refine table.increasing.imp ?_
  intro a b less same
  rw [same, show compare b.1 b.1 = .eq from Std.ReflCmp.compare_self] at less
  cases less

/-! ## Equality -/

theorem entries_eq_of_mem [Std.TransOrd κ] {a b : List (κ × υ)}
    (increasingA : a.Pairwise fun x y => compare x.1 y.1 = .lt)
    (increasingB : b.Pairwise fun x y => compare x.1 y.1 = .lt)
    (same : ∀ entry, entry ∈ a ↔ entry ∈ b) : a = b := by
  induction a generalizing b with
  | nil =>
    cases b with
    | nil => rfl
    | cons head rest => exact absurd ((same head).2 List.mem_cons_self) List.not_mem_nil
  | cons x xs ih =>
    cases b with
    | nil => exact absurd ((same x).1 List.mem_cons_self) List.not_mem_nil
    | cons y ys =>
      obtain ⟨belowX, tailX⟩ := List.pairwise_cons.1 increasingA
      obtain ⟨belowY, tailY⟩ := List.pairwise_cons.1 increasingB
      have heads : x = y := by
        rcases List.mem_cons.1 ((same x).1 List.mem_cons_self) with eq | inY
        · exact eq
        · rcases List.mem_cons.1 ((same y).2 List.mem_cons_self) with eq | inX
          · exact eq.symm
          · have one := belowX _ inX
            have two := belowY _ inY
            have loop := Std.TransCmp.lt_trans one two
            simp at loop
      subst heads
      have tails : ∀ entry, entry ∈ xs ↔ entry ∈ ys := by
        intro entry
        have both := same entry
        simp only [List.mem_cons] at both
        constructor
        · intro inX
          rcases both.1 (Or.inr inX) with rfl | inY
          · have loop := belowX _ inX
            simp at loop
          · exact inY
        · intro inY
          rcases both.2 (Or.inr inY) with rfl | inX
          · have loop := belowY _ inY
            simp at loop
          · exact inX
      rw [ih tailX tailY tails]

/-- Tables with the same look-ups are equal. -/
theorem ext_get? [Std.TransOrd κ] [Std.LawfulEqOrd κ] {a b : Table κ υ}
    (same : ∀ key, a.get? key = b.get? key) : a = b := by
  have entries : a.entries = b.entries := by
    apply entries_eq_of_mem a.increasing b.increasing
    rintro ⟨key, value⟩
    rw [← get?_eq_some_iff, ← get?_eq_some_iff, same]
  cases a; cases b; simpa using entries

section Insert

variable [Std.TransOrd κ] [Std.LawfulEqOrd κ] (table : Table κ υ) (key : κ)

/-- Of two values that are bound to one key the second counts. -/
theorem insert_insert (first second : υ) :
    (table.insert key first).insert key second = table.insert key second := by
  apply ext_get?
  intro k
  rw [get?_insert, get?_insert, get?_insert]
  split <;> rfl

/-- A key may be bound to its own value. -/
theorem insert_of_get? {value : υ} (own : table.get? key = some value) :
    table.insert key value = table := by
  apply ext_get?
  intro k
  rw [get?_insert]
  split
  · rename_i same
    rw [← Std.LawfulEqCmp.eq_of_compare same, own]
  · rfl

end Insert

end Table

end TokenBlame
