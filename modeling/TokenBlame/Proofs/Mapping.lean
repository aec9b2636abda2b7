/-
# TokenBlame.Proofs.Mapping -- the mapping of a chain of commits

A mapping tells of pairs (`Tells`): a destination commit is in one direction what its source
commit is in the other.  A pair of which neither half is there yet is added (`insert_ok`),
so a history in which no source commit is named twice has a mapping (`ofHistory_ok`).

The commits of a chain name source commits (`Names`).  Then the last of them is what HEAD
names (`headSource_of_chain`), and all of them are in the mapping (`mapping_of_chain`).
-/
import TokenBlame.Destination
import TokenBlame.Proofs.Git.Chain
import Mathlib.Data.List.Nodup

set_option autoImplicit false

namespace TokenBlame

open Git

namespace Mapping

/-! ## Pairs -/

/-- A mapping with some pairs of a destination commit and its source commit. -/
structure Tells (mapping : Mapping) (pairs : List (String × String)) : Prop where
  toSource : ∀ destination source,
    mapping.toSource.get? destination = some source ↔ (destination, source) ∈ pairs
  toDestination : ∀ destination source,
    mapping.toDestination.get? source = some destination ↔ (destination, source) ∈ pairs

theorem tells_empty : Tells {} [] := by
  constructor <;> intros <;> simp [Table.get?, Table.lookup, EmptyCollection.emptyCollection,
    Table.empty]

theorem source_eq_ok {mapping : Mapping} {destination source : String} :
    mapping.source destination = .ok source ↔
      mapping.toSource.get? destination = some source := by
  unfold Mapping.source
  split <;> simp_all

/-- A table with one more key has its pairs and the new one. -/
theorem get?_insert_iff {table : Table String String} {key : String} (value : String)
    (absent : table.get? key = none) (k v : String) :
    (table.insert key value).get? k = some v ↔ (k = key ∧ v = value) ∨ table.get? k = some v := by
  rw [Table.get?_insert]
  by_cases same : key = k
  · subst same
    rw [if_pos (Std.compare_eq_iff_eq.2 rfl), absent]
    simp [eq_comm]
  · rw [if_neg fun eq => same (Std.compare_eq_iff_eq.1 eq)]
    simp [Ne.symm same]

/-- A pair of which neither half is there yet is added. -/
theorem insert_ok {mapping : Mapping} {pairs : List (String × String)} (tells : mapping.Tells pairs)
    {destination source : String} (newDestination : destination ∉ pairs.map Prod.fst)
    (newSource : source ∉ pairs.map Prod.snd) :
    ∃ next, mapping.insert destination source = .ok next ∧
      next.Tells (pairs ++ [(destination, source)]) := by
  have noSource : mapping.toSource.get? destination = none := by
    rw [Option.eq_none_iff_forall_ne_some]
    intro other found
    exact newDestination (List.mem_map_of_mem ((tells.toSource _ _).1 found))
  have noDestination : mapping.toDestination.get? source = none := by
    rw [Option.eq_none_iff_forall_ne_some]
    intro other found
    exact newSource (List.mem_map_of_mem ((tells.toDestination _ _).1 found))
  refine ⟨⟨mapping.toSource.insert destination source, mapping.toDestination.insert source destination⟩,
    ?_, ?_, ?_⟩
  · unfold insert
    rw [noDestination]
  · intro d s
    rw [get?_insert_iff source noSource, tells.toSource d s, List.mem_append, List.mem_singleton,
      Prod.mk.injEq]
    exact or_comm
  · intro d s
    rw [get?_insert_iff destination noDestination, tells.toDestination d s, List.mem_append,
      List.mem_singleton, Prod.mk.injEq, and_comm]
    exact or_comm

/-! ## Histories -/

theorem addAll_ok {mapping : Mapping} {known pairs : List (String × String)}
    (tells : mapping.Tells known) {history : List (String × String)}
    (named : history.map (fun entry => (entry.1, Trailer.source? entry.2)) =
      pairs.map fun pair => (pair.1, some pair.2))
    (destinations : ((known ++ pairs).map Prod.fst).Nodup)
    (sources : ((known ++ pairs).map Prod.snd).Nodup) :
    ∃ next, mapping.addAll history = .ok next ∧ next.Tells (known ++ pairs) := by
  induction pairs generalizing mapping known history with
  | nil =>
      obtain rfl : history = [] := List.map_eq_nil_iff.1 named
      rw [List.append_nil]
      exact ⟨mapping, rfl, tells⟩
  | cons pair pairs ih =>
      obtain ⟨destination, source⟩ := pair
      obtain ⟨⟨first, message⟩, history, rfl, own, others⟩ := List.map_eq_cons_iff.1 named
      obtain ⟨rfl, names⟩ := Prod.mk.inj own
      have fresh : ∀ half : String × String → String,
          ((known ++ (first, source) :: pairs).map half).Nodup →
            half (first, source) ∉ known.map half := by
        intro half distinct member
        rw [List.map_append, List.map_cons] at distinct
        exact (List.nodup_append.1 distinct).2.2 _ member _ List.mem_cons_self rfl
      obtain ⟨next, inserted, tellsNext⟩ := insert_ok tells
        (show first ∉ known.map Prod.fst from fresh Prod.fst destinations)
        (show source ∉ known.map Prod.snd from fresh Prod.snd sources)
      have whole : known ++ (first, source) :: pairs = known ++ [(first, source)] ++ pairs := by simp
      rw [whole] at destinations sources ⊢
      obtain ⟨last, added, tellsLast⟩ := ih tellsNext others destinations sources
      refine ⟨last, ?_, tellsLast⟩
      have step : mapping.add first message = .ok next := by
        unfold add
        rw [names]
        exact inserted
      rw [addAll, step]
      exact added

/-- **A history in which no source commit is named twice** has a mapping. -/
theorem ofHistory_ok (history pairs : List (String × String))
    (named : history.map (fun entry => (entry.1, Trailer.source? entry.2)) =
      pairs.map fun pair => (pair.1, some pair.2))
    (destinations : (pairs.map Prod.fst).Nodup) (sources : (pairs.map Prod.snd).Nodup) :
    ∃ mapping, ofHistory history = .ok mapping ∧ mapping.Tells pairs := by
  obtain ⟨mapping, added, tells⟩ := addAll_ok tells_empty named
    (by simpa using destinations) (by simpa using sources)
  exact ⟨mapping, added, tells⟩

end Mapping

namespace Destination

/-! ## Chains -/

/-- Commits that name source commits, both newest first. -/
def Names (commits : List Commit) (ids : List String) : Prop :=
  commits.map (fun commit => Trailer.source? commit.message) = ids.map some

theorem names_cons {commit : Commit} {commits : List Commit} {id : String} {ids : List String}
    (names : Names commits ids) (own : Trailer.source? commit.message = some id) :
    Names (commit :: commits) (id :: ids) := by
  unfold Names
  rw [List.map_cons, List.map_cons, own, names]

theorem Names.length {commits : List Commit} {ids : List String} (names : Names commits ids) :
    commits.length = ids.length := by
  simpa using congrArg List.length names

/-- A commit and the source commit that it names are a pair. -/
theorem Names.mem_zip {commits : List Commit} {ids : List String} (names : Names commits ids)
    {commit : Commit} (member : commit ∈ commits) {id : String}
    (own : Trailer.source? commit.message = some id) :
    (commit.id.hex, id) ∈ (commits.map (·.id.hex)).zip ids := by
  induction commits generalizing ids with
  | nil => cases member
  | cons first commits ih =>
      cases ids with
      | nil => cases names
      | cons firstId ids =>
          obtain ⟨here, later⟩ := List.cons_eq_cons.1 names
          rw [List.map_cons, List.zip_cons_cons]
          rcases List.mem_cons.1 member with rfl | member
          · obtain rfl := Option.some.inj (own.symm.trans here)
            exact List.mem_cons_self
          · exact List.mem_cons_of_mem _ (ih later member)

/-- The source commit that HEAD of a chain names is that of the newest commit. -/
theorem headSource_of_chain {destination : Destination} {commits : List Commit}
    {ids : List String} (chain : Chain destination.repository commits) (names : Names commits ids) :
    destination.headSource = .ok ids.head? := by
  unfold headSource
  rw [chain.tipCommit]
  cases commits with
  | nil =>
      obtain rfl : ids = [] := List.eq_nil_of_length_eq_zero names.length.symm
      rfl
  | cons commit commits =>
      cases ids with
      | nil => cases names
      | cons id ids =>
          have own : Trailer.source? commit.message = some id := (List.cons_eq_cons.1 names).1
          simp only [List.head?_cons]
          rw [own]

section Read

variable {repository : Repository} {parent : Option Commit} {built : Mapping}

theorem mapping_of_unread {fault : GitFault} (tip : repository.tipCommit = .error fault) :
    mapping repository = .error (.git fault) := by
  unfold mapping messages
  rw [tip]

theorem mapping_of_tipCommit (tip : repository.tipCommit = .ok parent) :
    mapping repository =
      Mapping.ofHistory (repository.history.map fun commit => (commit.id.hex, commit.message)) := by
  unfold mapping messages
  rw [tip]

/-- A mapping is built of the history of a HEAD that could be read. -/
theorem of_mapping_ok (made : mapping repository = .ok built) :
    ∃ parent, repository.tipCommit = .ok parent ∧
      Mapping.ofHistory (repository.history.map fun commit => (commit.id.hex, commit.message)) =
        .ok built := by
  cases tip : repository.tipCommit with
  | error fault => cases (mapping_of_unread tip).symm.trans made
  | ok parent => exact ⟨parent, rfl, (mapping_of_tipCommit tip).symm.trans made⟩

end Read

/-- **The mapping of a chain** has its commits with the source commits that they name. -/
theorem mapping_of_chain {repository : Repository} {commits : List Commit} {ids : List String}
    (chain : Chain repository commits) (names : Names commits ids) (distinct : ids.Nodup) :
    ∃ mapping, Destination.mapping repository = .ok mapping ∧
      mapping.Tells ((commits.map (·.id.hex)).zip ids) := by
  have same : (commits.map (·.id.hex)).length = ids.length := by
    rw [List.length_map, names.length]
  have hexes : (commits.map (·.id.hex)).Nodup := by
    have named : commits.map (·.id.hex) = (commits.map (·.id)).map ObjectId.hex := by simp
    rw [named]
    refine chain.distinct.map ?_
    rintro ⟨a⟩ ⟨b⟩ rfl
    rfl
  have pairs : (commits.map fun commit => (commit.id.hex, Trailer.source? commit.message)) =
      ((commits.map (·.id.hex)).zip ids).map fun pair => (pair.1, some pair.2) := by
    have both : commits.map (fun commit => (commit.id.hex, Trailer.source? commit.message)) =
        (commits.map (·.id.hex)).zip (commits.map fun commit => Trailer.source? commit.message) := by
      rw [List.zip_map']
    rw [both, names, List.zip_map_right]
    rfl
  obtain ⟨mapping, made, tells⟩ := Mapping.ofHistory_ok
    (commits.reverse.map fun commit => (commit.id.hex, commit.message))
    ((commits.map (·.id.hex)).zip ids).reverse
    (by rw [List.map_map, List.map_reverse, List.map_reverse, ← pairs]; rfl)
    (by rw [List.map_reverse, List.nodup_reverse, List.map_fst_zip (Nat.le_of_eq same)]; exact hexes)
    (by
      rw [List.map_reverse, List.nodup_reverse, List.map_snd_zip (Nat.le_of_eq same.symm)]
      exact distinct)
  refine ⟨mapping, ?_, ?_, ?_⟩
  · rw [mapping_of_tipCommit chain.tipCommit, chain.history]
    exact made
  · intro d s
    rw [tells.toSource, List.mem_reverse]
  · intro d s
    rw [tells.toDestination, List.mem_reverse]

end Destination

end TokenBlame
