/-
# TokenBlame.Proofs.Disk.Beneath -- what is listed of a directory

The list of what stands beneath a node has for each path what a look-up finds there, and
every directory on the way is one that is opened (`Ordered.of_mem_beneath`,
`Ordered.mem_beneath_of_at?`).  No path is listed twice (`Ordered.nodup_beneath`).
-/
import TokenBlame.Proofs.Disk.Order

set_option autoImplicit false

namespace TokenBlame.Disk

open Git

variable {opens : TreePath → Bool}

theorem mem_beneathAll {place : TreePath} {entries : List (Name × Node)}
    {item : TreePath × Node} :
    item ∈ Node.beneathAll opens place entries ↔
      ∃ entry ∈ entries, item = (place ++ [entry.1], entry.2) ∨
        item ∈ Node.beneath opens (place ++ [entry.1]) entry.2 := by
  induction entries with
  | nil => simp [Node.beneathAll]
  | cons entry rest ih =>
      obtain ⟨name, node⟩ := entry
      rw [Node.beneathAll, List.mem_cons, List.mem_append, ih]
      constructor
      · rintro (own | inside | ⟨other, later, found⟩)
        · exact ⟨_, List.mem_cons_self, Or.inl own⟩
        · exact ⟨_, List.mem_cons_self, Or.inr inside⟩
        · exact ⟨other, List.mem_cons_of_mem _ later, found⟩
      · rintro ⟨other, member, found⟩
        rcases List.mem_cons.1 member with rfl | later
        · exact found.imp_right Or.inl
        · exact Or.inr (Or.inr ⟨other, later, found⟩)

/-- What is in a directory that is opened, and what is beneath that. -/
theorem mem_beneath {place : TreePath} {node : Node} {item : TreePath × Node} :
    item ∈ Node.beneath opens place node ↔
      opens place = true ∧ ∃ entry ∈ node.entries, item = (place ++ [entry.1], entry.2) ∨
        item ∈ Node.beneath opens (place ++ [entry.1]) entry.2 := by
  cases node with
  | directory entries =>
      rw [Node.beneath, Node.entries]
      by_cases opened : opens place = true
      · rw [if_pos opened, mem_beneathAll]
        simp [opened]
      · rw [if_neg opened]
        simp [opened]
  | file content executable => simp [Node.beneath, Node.entries]
  | link target => simp [Node.beneath, Node.entries]

theorem sizeOf_entry {node : Node} {entry : Name × Node} (member : entry ∈ node.entries) :
    sizeOf entry.2 < sizeOf node := by
  cases node with
  | directory entries =>
      have inList : sizeOf entry < sizeOf entries := List.sizeOf_lt_of_mem member
      have inPair : sizeOf entry.2 < sizeOf entry := by
        obtain ⟨name, inner⟩ := entry
        have pair : sizeOf (name, inner) = 1 + sizeOf name + sizeOf inner := rfl
        rw [pair]
        show sizeOf inner < _
        omega
      have inNode : sizeOf entries < sizeOf (Node.directory entries) := by simp
      omega
  | file content executable => cases member
  | link target => cases member

/-- In an ordered directory each entry is the one of its name. -/
theorem Ordered.lookup {node : Node} (ordered : Ordered node []) {entry : Name × Node}
    (member : entry ∈ node.entries) :
    Table.lookup entry.1 node.entries = some entry.2 ∧ Ordered entry.2 [] := by
  cases node with
  | directory entries =>
      obtain ⟨increasing, each⟩ := ordered_directory.1 ordered
      have found := (Table.lookup_eq_some_iff increasing).2 member
      exact ⟨found, each _ _ found⟩
  | file content executable => cases member
  | link target => cases member

/-- What is listed at a path stands there, and the directories on the way are opened. -/
theorem Ordered.of_mem_beneath {node : Node} (ordered : Ordered node []) {place path : TreePath}
    {inner : Node} (member : (path, inner) ∈ Node.beneath opens place node) :
    ∃ rest, rest ≠ [] ∧ path = place ++ rest ∧ node.at? rest = some inner ∧
      ∀ way, way <+: rest → way ≠ rest → opens (place ++ way) = true := by
  obtain ⟨opened, entry, inside, own | deeper⟩ := mem_beneath.1 member
  · cases own
    refine ⟨[entry.1], by simp, rfl, ?_, ?_⟩
    · rw [Node.at?_cons, (ordered.lookup inside).1]
      rfl
    · intro way start different
      rcases List.prefix_concat_iff.1 (show way <+: [] ++ [entry.1] from start) with same | above
      · exact absurd same different
      · rw [List.prefix_nil.1 above, List.append_nil]
        exact opened
  · obtain ⟨found, below⟩ := ordered.lookup inside
    have smaller := sizeOf_entry inside
    obtain ⟨rest, -, rfl, there, ways⟩ := below.of_mem_beneath deeper
    refine ⟨entry.1 :: rest, by simp, by simp, ?_, ?_⟩
    · rw [Node.at?_cons, found, Option.bind_some, there]
    · intro way start different
      cases way with
      | nil =>
          rw [List.append_nil]
          exact opened
      | cons name way =>
          obtain ⟨rfl, later⟩ := List.cons_prefix_cons.1 start
          have further := ways way later (by simpa using different)
          rwa [List.append_assoc] at further
termination_by sizeOf node

/-- What stands at a path is listed where the directories on the way are opened. -/
theorem Ordered.mem_beneath_of_at? {node inner : Node} (ordered : Ordered node [])
    {place rest : TreePath} (nonempty : rest ≠ []) (there : node.at? rest = some inner)
    (opened : ∀ way, way <+: rest → way ≠ rest → opens (place ++ way) = true) :
    (place ++ rest, inner) ∈ Node.beneath opens place node := by
  induction rest generalizing node place with
  | nil => exact absurd rfl nonempty
  | cons name rest ih =>
      rw [Node.at?_cons] at there
      obtain ⟨next, found, below⟩ := Option.bind_eq_some_iff.1 there
      have member : (name, next) ∈ node.entries := by
        cases node with
        | directory entries =>
            exact (Table.lookup_eq_some_iff (ordered_directory.1 ordered).1).1 found
        | file content executable => cases found
        | link target => cases found
      have own : opens place = true := by
        simpa using opened [] List.nil_prefix (by simp)
      refine mem_beneath.2 ⟨own, (name, next), member, ?_⟩
      cases rest with
      | nil =>
          cases below
          exact Or.inl rfl
      | cons head tail =>
          have deeper := @ih next (ordered.lookup member).2 (place ++ [name]) (by simp) below
            fun way start different => by
              rw [List.append_assoc]
              exact opened (name :: way) (List.cons_prefix_cons.2 ⟨rfl, start⟩)
                fun same => different (List.cons.inj same).2
          rw [List.append_assoc] at deeper
          exact Or.inr deeper

/-- What is listed beneath a place lies inside it. -/
theorem Ordered.below {node : Node} (ordered : Ordered node []) {place : TreePath}
    {item : TreePath × Node} (member : item ∈ Node.beneath opens place node) :
    place <+: item.1 ∧ item.1 ≠ place := by
  obtain ⟨rest, nonempty, same, -, -⟩ := ordered.of_mem_beneath member
  rw [same]
  exact ⟨List.prefix_append _ _, by simpa using nonempty⟩

/-- Entries of different names have nothing in common that is listed. -/
theorem nodup_beneathAll {place : TreePath} {entries : List (Name × Node)}
    (increasing : entries.Pairwise fun a b => compare a.1 b.1 = .lt)
    (below : ∀ entry ∈ entries, ∀ item ∈ Node.beneath opens (place ++ [entry.1]) entry.2,
      place ++ [entry.1] <+: item.1 ∧ item.1 ≠ place ++ [entry.1])
    (inner : ∀ entry ∈ entries,
      ((Node.beneath opens (place ++ [entry.1]) entry.2).map (·.1)).Nodup) :
    ((Node.beneathAll opens place entries).map (·.1)).Nodup := by
  induction entries with
  | nil => exact List.nodup_nil
  | cons entry rest ih =>
      obtain ⟨name, node⟩ := entry
      obtain ⟨before, increasing⟩ := List.pairwise_cons.1 increasing
      -- what is listed of the later entries begins with another name
      have later : ∀ path ∈ (Node.beneathAll opens place rest).map (·.1),
          ¬ place ++ [name] <+: path := by
        intro path member start
        obtain ⟨item, listed, rfl⟩ := List.mem_map.1 member
        obtain ⟨other, inside, found⟩ := mem_beneathAll.1 listed
        have own : place ++ [other.1] <+: item.1 := by
          rcases found with rfl | deeper
          · exact List.prefix_refl _
          · exact (below other (List.mem_cons_of_mem _ inside) item deeper).1
        have same := List.prefix_of_prefix_length_le start own (by simp)
        have names : name = other.1 := by
          have whole := same.eq_of_length (by simp)
          simpa using whole
        have less : compare name other.1 = .lt := before other inside
        rw [Std.compare_eq_iff_eq.2 names] at less
        cases less
      rw [Node.beneathAll, List.map_cons, List.map_append, List.nodup_cons, List.nodup_append]
      refine ⟨?_, inner _ List.mem_cons_self, ih increasing
        (fun other member => below other (List.mem_cons_of_mem _ member))
        (fun other member => inner other (List.mem_cons_of_mem _ member)), ?_⟩
      · intro member
        rcases List.mem_append.1 member with deeper | other
        · obtain ⟨item, listed, same⟩ := List.mem_map.1 deeper
          exact (below _ List.mem_cons_self item listed).2 same
        · exact later _ other (List.prefix_refl _)
      · intro path deeper other member same
        obtain ⟨item, listed, rfl⟩ := List.mem_map.1 deeper
        exact later _ (same ▸ member) (below _ List.mem_cons_self item listed).1

/-- No path is listed twice. -/
theorem Ordered.nodup_beneath {node : Node} (ordered : Ordered node []) (place : TreePath) :
    ((Node.beneath opens place node).map (·.1)).Nodup := by
  cases node with
  | file content executable => exact List.nodup_nil
  | link target => exact List.nodup_nil
  | directory entries =>
      rw [Node.beneath]
      split
      · refine nodup_beneathAll (ordered_directory.1 ordered).1 ?_ ?_
        · intro entry member item listed
          exact (ordered.lookup member).2.below listed
        · intro entry member
          have smaller := sizeOf_entry (show entry ∈ (Node.directory entries).entries from member)
          exact (ordered.lookup member).2.nodup_beneath (place ++ [entry.1])
      · exact List.nodup_nil
termination_by sizeOf node

end TokenBlame.Disk
