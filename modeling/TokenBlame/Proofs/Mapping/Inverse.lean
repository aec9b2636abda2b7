/-
# TokenBlame.Proofs.Mapping.Inverse -- the two directions of a mapping

A history has a mapping exactly when each of its commits names a source commit and no two
of them name the same one (`Distinct`).  The two directions of that mapping are inverse to
each other, and nothing is in them that is not in the history (`Inverts`).

A history that has none has a first commit that cannot be added, and the error is about
that one (`Refuses`).  `addAll` keeps with the pairs that it has added so far, so it stops
at the first commit that these refuse (`addAll_cases`).
-/
import TokenBlame.Proofs.Mapping

set_option autoImplicit false

namespace TokenBlame.Mapping

/-! ## Histories -/

/-- Each commit of a history names a source commit, and no two name the same one. -/
def Distinct (history : List (String × String)) : Prop :=
  (∀ entry ∈ history, (Trailer.source? entry.2).isSome) ∧
    (history.map fun entry => Trailer.source? entry.2).Nodup

instance (history : List (String × String)) : Decidable (Distinct history) :=
  inferInstanceAs (Decidable (_ ∧ _))

/-- An error about the first commit of a history that names no source commit, or the same
one as a commit before it. -/
inductive Refuses : List (String × String) → Error → Prop where
  | unnamed {before after : List (String × String)} {destination message : String} :
      Distinct before → Trailer.source? message = none →
      Refuses (before ++ (destination, message) :: after) (.missingTrailer destination)
  | taken {before after : List (String × String)}
      {destination message first earlier source : String} :
      Distinct before → Trailer.source? message = some source →
      (first, earlier) ∈ before → Trailer.source? earlier = some source →
      Refuses (before ++ (destination, message) :: after)
        (.duplicateTrailer source first destination)

/-- A mapping with the commits of a history and the source commits that they name, each
found by the other, and with nothing else. -/
structure Inverts (mapping : Mapping) (history : List (String × String)) : Prop where
  source : ∀ destination source, mapping.source destination = .ok source ↔
    ∃ message, (destination, message) ∈ history ∧ Trailer.source? message = some source
  destination : ∀ destination source, mapping.destination source = .ok destination ↔
    mapping.source destination = .ok source
  named : ∀ entry ∈ history, ∃ source, mapping.source entry.1 = .ok source
  noSource : ∀ destination, destination ∉ history.map (·.1) →
    mapping.source destination = .error (.commitNotFound destination)
  noDestination : ∀ source, some source ∉ history.map (fun entry => Trailer.source? entry.2) →
    mapping.destination source = .error (.commitNotFound source)
  size : mapping.size = history.length

section Pairs

variable {mapping next : Mapping} {known pairs history : List (String × String)}
  {destination message source : String} {error : Error}

/-- The commits of a history, each with the source commit that it names. -/
def Traced (history pairs : List (String × String)) : Prop :=
  history.map (fun entry => (entry.1, Trailer.source? entry.2)) =
    pairs.map fun pair => (pair.1, some pair.2)

theorem Traced.destinations (traced : Traced history pairs) :
    pairs.map (·.1) = history.map (·.1) := by
  have firsts := congrArg (List.map Prod.fst) traced
  rw [List.map_map, List.map_map] at firsts
  exact firsts.symm

theorem Traced.sources (traced : Traced history pairs) :
    (history.map fun entry => Trailer.source? entry.2) = (pairs.map (·.2)).map some := by
  have seconds := congrArg (List.map Prod.snd) traced
  rw [List.map_map, List.map_map] at seconds
  rw [List.map_map]
  exact seconds

theorem Traced.mem_iff (traced : Traced history pairs) (destination source : String) :
    (destination, source) ∈ pairs ↔
      ∃ message, (destination, message) ∈ history ∧ Trailer.source? message = some source := by
  have own : (destination, source) ∈ pairs ↔
      (destination, some source) ∈ pairs.map fun pair => (pair.1, some pair.2) := by
    simp
  rw [own, ← traced]
  simp

/-- A history in which no source commit is named twice is one of pairs. -/
theorem distinct_iff :
    Distinct history ↔ ∃ pairs, Traced history pairs ∧ (pairs.map (·.2)).Nodup := by
  constructor
  · rintro ⟨named, distinct⟩
    obtain ⟨pairs, traced⟩ : ∃ pairs, Traced history pairs := by
      clear distinct
      induction history with
      | nil => exact ⟨[], rfl⟩
      | cons entry history ih =>
          obtain ⟨source, own⟩ := Option.isSome_iff_exists.1 (named entry List.mem_cons_self)
          obtain ⟨pairs, traced⟩ := ih fun e member => named e (List.mem_cons_of_mem _ member)
          refine ⟨(entry.1, source) :: pairs, ?_⟩
          unfold Traced at traced ⊢
          rw [List.map_cons, List.map_cons, own, traced]
    rw [traced.sources] at distinct
    exact ⟨pairs, traced, List.Nodup.of_map _ distinct⟩
  · rintro ⟨pairs, traced, distinct⟩
    refine ⟨?_, ?_⟩
    · intro entry member
      have inside := List.mem_map_of_mem (f := fun entry => Trailer.source? entry.2) member
      rw [traced.sources] at inside
      obtain ⟨source, -, own⟩ := List.mem_map.1 inside
      rw [← own]
      rfl
    · rw [traced.sources]
      exact distinct.map fun _ _ same => Option.some.inj same

/-! ## One commit -/

/-- Why a commit cannot be added to pairs. -/
inductive Refused (pairs : List (String × String)) : String × String → Error → Prop where
  | unnamed {destination message : String} : Trailer.source? message = none →
      Refused pairs (destination, message) (.missingTrailer destination)
  | taken {destination message first source : String} : Trailer.source? message = some source →
      (first, source) ∈ pairs →
      Refused pairs (destination, message) (.duplicateTrailer source first destination)

/-- A commit that pairs do not refuse is added to them. -/
theorem add_cases (message : String) (tells : mapping.Tells known)
    (new : destination ∉ known.map (·.1)) :
    (∃ source next, Trailer.source? message = some source ∧ source ∉ known.map (·.2) ∧
      mapping.add destination message = .ok next ∧ next.Tells (known ++ [(destination, source)])) ∨
    ∃ error, Refused known (destination, message) error ∧
      mapping.add destination message = .error error := by
  unfold add
  cases own : Trailer.source? message with
  | none => exact Or.inr ⟨_, .unnamed own, rfl⟩
  | some source =>
      dsimp only
      by_cases taken : source ∈ known.map (·.2)
      · obtain ⟨⟨first, _⟩, member, rfl⟩ := List.mem_map.1 taken
        refine Or.inr ⟨_, .taken own member, ?_⟩
        unfold insert
        rw [(tells.toDestination _ _).2 member]
      · obtain ⟨next, inserted, tells'⟩ := insert_ok tells new taken
        exact Or.inl ⟨source, next, rfl, taken, inserted, tells'⟩

/-- What pairs of different source commits refuse cannot be added to them. -/
theorem Refused.add (tells : mapping.Tells known) {entry : String × String}
    (refused : Refused known entry error) : mapping.add entry.1 entry.2 = .error error := by
  cases refused with
  | unnamed none =>
      unfold Mapping.add
      rw [none]
  | taken own member =>
      unfold Mapping.add insert
      rw [own]
      dsimp only
      rw [(tells.toDestination _ _).2 member]

/-! ## Many commits -/

/-- **Commits are added** one after the other, up to the first that is refused. -/
theorem addAll_cases (history : List (String × String)) (tells : mapping.Tells known)
    (new : (known.map (·.1) ++ history.map (·.1)).Nodup) (sources : (known.map (·.2)).Nodup) :
    (∃ pairs next, Traced history pairs ∧ ((known ++ pairs).map (·.2)).Nodup ∧
      mapping.addAll history = .ok next ∧ next.Tells (known ++ pairs)) ∨
    ∃ before entry after pairs error, history = before ++ entry :: after ∧ Traced before pairs ∧
      ((known ++ pairs).map (·.2)).Nodup ∧ Refused (known ++ pairs) entry error ∧
        mapping.addAll history = .error error := by
  induction history generalizing mapping known with
  | nil => exact Or.inl ⟨[], mapping, rfl, by simpa using sources, rfl, by simpa using tells⟩
  | cons entry history ih =>
      obtain ⟨destination, message⟩ := entry
      have apart : destination ∉ known.map (·.1) := fun member =>
        (List.nodup_append.1 new).2.2 _ member _ List.mem_cons_self rfl
      rcases add_cases message tells apart with
        ⟨source, next, own, free, added, tells'⟩ | ⟨error, refused, failed⟩
      · have new' : ((known ++ [(destination, source)]).map (·.1) ++ history.map (·.1)).Nodup := by
          simpa using new
        have sources' : ((known ++ [(destination, source)]).map (·.2)).Nodup := by
          rw [List.map_append, List.nodup_append]
          refine ⟨sources, List.nodup_singleton _, ?_⟩
          intro other member last inside same
          rw [List.map_singleton, List.mem_singleton] at inside
          subst same
          subst inside
          exact free member
        have front : ∀ rest, known ++ (destination, source) :: rest =
            known ++ [(destination, source)] ++ rest := fun rest => by simp
        have leads : ∀ before pairs, Traced before pairs →
            Traced ((destination, message) :: before) ((destination, source) :: pairs) := by
          intro before pairs traced
          unfold Traced at traced ⊢
          rw [List.map_cons, List.map_cons, own, traced]
        rw [addAll, added]
        rcases ih tells' new' sources' with
          ⟨pairs, last, traced, distinct, all, tells''⟩ |
          ⟨before, entry, after, pairs, error, rfl, traced, distinct, refused, failed⟩
        · refine Or.inl ⟨(destination, source) :: pairs, last, leads _ _ traced, ?_, all, ?_⟩
          · rw [front]
            exact distinct
          · rw [front]
            exact tells''
        · refine Or.inr ⟨(destination, message) :: before, entry, after,
            (destination, source) :: pairs, error, rfl, leads _ _ traced, ?_, ?_, failed⟩
          · rw [front]
            exact distinct
          · rw [front]
            exact refused
      · refine Or.inr ⟨[], (destination, message), history, [], error, rfl, rfl, ?_, ?_, ?_⟩
        · rw [List.append_nil]
          exact sources
        · rw [List.append_nil]
          exact refused
        · rw [addAll, failed]

theorem addAll_append {before : List (String × String)} (added : mapping.addAll before = .ok next)
    (rest : List (String × String)) : mapping.addAll (before ++ rest) = next.addAll rest := by
  induction before generalizing mapping with
  | nil =>
      cases added
      rfl
  | cons entry before ih =>
      obtain ⟨destination, message⟩ := entry
      rw [addAll] at added
      rw [List.cons_append, addAll]
      cases first : mapping.add destination message with
      | error error =>
          rw [first] at added
          cases added
      | ok middle =>
          rw [first] at added
          exact ih added

/-! ## Look-ups -/

/-- A mapping has as many entries as pairs. -/
theorem Tells.size (tells : mapping.Tells pairs) (distinct : (pairs.map (·.1)).Nodup) :
    mapping.size = pairs.length := by
  have entries : mapping.toSource.entries.Nodup :=
    mapping.toSource.increasing.imp fun {a b} less same => by
      subst same
      simp at less
  refine List.Perm.length_eq
    ((List.perm_ext_iff_of_nodup entries (List.Nodup.of_map _ distinct)).2 ?_)
  rintro ⟨destination, source⟩
  rw [← Table.get?_eq_some_iff]
  exact tells.toSource destination source

theorem destination_eq_ok : mapping.destination source = .ok destination ↔
    mapping.toDestination.get? source = some destination := by
  unfold Mapping.destination
  split <;> simp_all

/-- A mapping that tells of the pairs of a history inverts it. -/
theorem Tells.inverts (tells : mapping.Tells pairs) (traced : Traced history pairs)
    (distinct : (history.map (·.1)).Nodup) : mapping.Inverts history where
  source d s := by rw [source_eq_ok, tells.toSource, traced.mem_iff]
  destination d s := by
    rw [destination_eq_ok, source_eq_ok, tells.toDestination, tells.toSource]
  named entry member := by
    have inside : entry.1 ∈ pairs.map (·.1) := by
      rw [traced.destinations]
      exact List.mem_map_of_mem member
    obtain ⟨⟨d, s⟩, own, same⟩ := List.mem_map.1 inside
    refine ⟨s, source_eq_ok.2 ((tells.toSource _ _).2 ?_)⟩
    rw [← same]
    exact own
  noSource d absent := by
    unfold Mapping.source
    split
    · rename_i s found
      rw [← traced.destinations] at absent
      exact absurd (List.mem_map_of_mem ((tells.toSource _ _).1 found)) absent
    · rfl
  noDestination s absent := by
    unfold Mapping.destination
    split
    · rename_i d found
      rw [traced.sources] at absent
      exact absurd (List.mem_map_of_mem (List.mem_map_of_mem ((tells.toDestination _ _).1 found)))
        absent
    · rfl
  size := by
    have same := traced.destinations
    rw [tells.size (by rw [same]; exact distinct)]
    simpa using congrArg List.length same

end Pairs

/-! ## Whole histories -/

theorem inverts_of_ofHistory {history : List (String × String)} {mapping : Mapping}
    (distinct : (history.map (·.1)).Nodup) (built : ofHistory history = .ok mapping) :
    mapping.Inverts history := by
  have outcome := addAll_cases history tells_empty (by simpa using distinct) List.nodup_nil
  rcases outcome with ⟨pairs, next, traced, -, all, tells⟩ | ⟨_, _, _, _, error, -, -, -, -, failed⟩
  · cases built.symm.trans all
    exact tells.inverts traced distinct
  · cases built.symm.trans failed

/-- There is a mapping of a history exactly if each commit names a source commit of its own. -/
theorem exists_ofHistory_iff {history : List (String × String)}
    (distinct : (history.map (·.1)).Nodup) :
    (∃ mapping, ofHistory history = .ok mapping) ↔ Distinct history := by
  constructor
  · rintro ⟨mapping, built⟩
    have outcome := addAll_cases history tells_empty (by simpa using distinct) List.nodup_nil
    rcases outcome with ⟨pairs, next, traced, sources, -⟩ | ⟨_, _, _, _, error, -, -, -, -, failed⟩
    · exact distinct_iff.2 ⟨pairs, traced, sources⟩
    · cases built.symm.trans failed
  · intro own
    obtain ⟨pairs, traced, sources⟩ := distinct_iff.1 own
    obtain ⟨mapping, built, -⟩ := ofHistory_ok history pairs traced
      (by rw [traced.destinations]; exact distinct) sources
    exact ⟨mapping, built⟩

/-- What is in front of a refused commit is added, and that one is not. -/
theorem ofHistory_of_refused {before after : List (String × String)} {entry : String × String}
    {pairs : List (String × String)} {error : Error}
    (distinct : ((before ++ entry :: after).map (·.1)).Nodup) (traced : Traced before pairs)
    (sources : (pairs.map (·.2)).Nodup) (refused : Refused pairs entry error) :
    ofHistory (before ++ entry :: after) = .error error := by
  obtain ⟨destination, message⟩ := entry
  rw [List.map_append] at distinct
  obtain ⟨mapping, built, tells⟩ := ofHistory_ok before pairs traced
    (by rw [traced.destinations]; exact (List.nodup_append.1 distinct).1) sources
  have step : mapping.add destination message = .error error := refused.add tells
  unfold ofHistory at built ⊢
  rw [addAll_append built, addAll, step]

/-- The error is about the first commit that names no source commit of its own. -/
theorem ofHistory_eq_error_iff {history : List (String × String)} {error : Error}
    (distinct : (history.map (·.1)).Nodup) :
    ofHistory history = .error error ↔ Refuses history error := by
  constructor
  · intro failed
    have outcome := addAll_cases history tells_empty (by simpa using distinct) List.nodup_nil
    rcases outcome with ⟨_, _, -, -, all, -⟩ |
      ⟨before, entry, after, pairs, error', rfl, traced, sources, refused, failed'⟩
    · cases failed.symm.trans all
    · cases failed.symm.trans failed'
      have front := distinct_iff.2 ⟨pairs, traced, sources⟩
      cases refused with
      | unnamed none => exact .unnamed front none
      | taken own member =>
          obtain ⟨earlier, inside, names⟩ := (traced.mem_iff _ _).1 member
          exact .taken front own inside names
  · intro refuses
    cases refuses with
    | unnamed front none =>
        obtain ⟨pairs, traced, sources⟩ := distinct_iff.1 front
        exact ofHistory_of_refused distinct traced sources (.unnamed none)
    | taken front own inside names =>
        obtain ⟨pairs, traced, sources⟩ := distinct_iff.1 front
        exact ofHistory_of_refused distinct traced sources
          (.taken own ((traced.mem_iff _ _).2 ⟨_, inside, names⟩))

/-- **A mapping is a bijection** between the commits of a history and the source commits that
they name.  It is there exactly if each commit names a source commit of its own, and
otherwise the error is about the first one that does not. -/
theorem history_bijection {history : List (String × String)}
    (distinct : (history.map (·.1)).Nodup) :
    ((∃ mapping, ofHistory history = .ok mapping) ↔ Distinct history) ∧
    (∀ mapping, ofHistory history = .ok mapping → mapping.Inverts history) ∧
    (∀ error, ofHistory history = .error error ↔ Refuses history error) ∧
    ∀ repository, Destination.messages repository = .ok history →
      Destination.mapping repository = ofHistory history := by
  refine ⟨exists_ofHistory_iff distinct, fun mapping => inverts_of_ofHistory distinct,
    fun error => ofHistory_eq_error_iff distinct, fun repository walked => ?_⟩
  unfold Destination.mapping
  rw [walked]

/-! ## Two commits, and a third one that names the first source commit again -/

namespace TwoCommits

/-- The source commit of the first commit. -/
def firstId : String := String.ofList (List.replicate 40 'a')

/-- The source commit of the second commit. -/
def secondId : String := String.ofList (List.replicate 40 'b')

def history : List (String × String) :=
  [("one", Trailer.message "add a file" firstId), ("two", Trailer.message "@all" secondId)]

end TwoCommits

/-- Two commits have a mapping, which has the source commit of the second one, and the third is
refused for the first one. -/
theorem two_commits_inverted :
    (∃ mapping, ofHistory TwoCommits.history = .ok mapping ∧
      mapping.source "two" = .ok TwoCommits.secondId ∧ mapping.size = 2) ∧
    ofHistory (TwoCommits.history ++ [("three", Trailer.trailer TwoCommits.firstId)]) =
      .error (.duplicateTrailer TwoCommits.firstId "one" "three") := by
  have distinct : Distinct TwoCommits.history := by decide +kernel
  obtain ⟨exists_iff, inverts, -, -⟩ := @history_bijection TwoCommits.history (by decide +kernel)
  obtain ⟨mapping, built⟩ := exists_iff.2 distinct
  obtain ⟨-, -, refuses, -⟩ := @history_bijection
    (TwoCommits.history ++ [("three", Trailer.trailer TwoCommits.firstId)]) (by decide +kernel)
  refine ⟨⟨mapping, built, ?_, (inverts mapping built).size⟩, ?_⟩
  · refine ((inverts mapping built).source _ _).2
      ⟨Trailer.message "@all" TwoCommits.secondId, ?_, ?_⟩
    · exact List.mem_cons_of_mem _ List.mem_cons_self
    · decide +kernel
  · refine (refuses _).2 (.taken distinct ?_ List.mem_cons_self ?_)
    · decide +kernel
    · decide +kernel

end TokenBlame.Mapping
