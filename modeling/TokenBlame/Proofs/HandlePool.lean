/-
# TokenBlame.Proofs.HandlePool -- no handle is lost or lent twice

Clients borrow handles of a pool and give them back, in any order and any number of them at
a time (`Step`).  Whoever finds no handle sleeps until a handle comes back; then one of the
sleepers is notified and tries again, and may find that someone else was faster.  A sleeper
may also wake for no reason.

A step neither makes a handle nor loses one, and the loans that are open are those that some
client holds (`Kept.step`).  So does every run (`handles_conserved`): what is free and what
is held are the handles of the beginning.  While a handle is free, either nobody sleeps or
someone is about to take it.
-/
import TokenBlame.HandlePool
import Mathlib.Data.List.Nodup
import Mathlib.Logic.Relation

set_option autoImplicit false

namespace TokenBlame.HandlePool

universe u v

variable {α : Type u}

/-! ## Lending and giving back -/

/-- The handle of loan `n`, if that loan is open. -/
def loan? (pool : HandlePool α) (n : Nat) : Option α :=
  pool.lent[n]?.join

/-- What an attempt to borrow a handle leads to, by what is free. -/
theorem acquire_cases (pool : HandlePool α) :
    (pool.size = 0 ∧ ∃ error, pool.acquire = (.refused error, pool)) ∨
    (pool.size ≠ 0 ∧ pool.free = [] ∧ pool.acquire = (.wait, pool)) ∨
    ∃ handle free, pool.size ≠ 0 ∧ pool.free = handle :: free ∧
      pool.acquire = (.handle handle, { pool with free, lent := pool.lent ++ [some handle] }) := by
  unfold acquire
  by_cases none : pool.size = 0
  · rw [if_pos none]
    exact Or.inl ⟨none, _, rfl⟩
  · rw [if_neg none]
    cases free : pool.free with
    | nil => exact Or.inr (Or.inl ⟨none, rfl, rfl⟩)
    | cons handle rest => exact Or.inr (Or.inr ⟨handle, rest, none, rfl, rfl⟩)

theorem release_loan {pool : HandlePool α} {n : Nat} {handle : α}
    (there : pool.loan? n = some handle) :
    pool.release n =
      (true, { pool with free := handle :: pool.free, lent := pool.lent.set n none }) := by
  unfold release
  unfold loan? at there
  rw [there]

theorem lent_of_loan? {pool : HandlePool α} {n : Nat} {handle : α}
    (there : pool.loan? n = some handle) : pool.lent[n]? = some (some handle) := by
  unfold loan? at there
  rwa [Option.join_eq_some_iff] at there

/-- A handle that comes back is no longer out. -/
theorem out_set {lent : List (Option α)} {n : Nat} {handle : α}
    (there : lent[n]? = some (some handle)) :
    (handle :: (lent.set n none).filterMap id).Perm (lent.filterMap id) := by
  obtain ⟨before, after, rfl, rfl⟩ : ∃ before after, lent = before ++ some handle :: after ∧
      before.length = n := by
    obtain ⟨here, own⟩ := List.getElem?_eq_some_iff.1 there
    refine ⟨lent.take n, lent.drop (n + 1), ?_, List.length_take_of_le (Nat.le_of_lt here)⟩
    rw [← own, List.getElem_cons_drop, List.take_append_drop]
  rw [List.set_append_right _ _ (Nat.le_refl _), Nat.sub_self]
  have moved := @List.perm_middle _ handle (before.filterMap id) (after.filterMap id)
  simpa using moved.symm

/-! ## Clients -/

variable {κ : Type v}

/-- A pool with those who use it. -/
structure Sharing (κ : Type v) (α : Type u) where
  pool : HandlePool α
  /-- Who holds which loan. -/
  held : List (κ × Nat) := []
  /-- Who sleeps until a handle comes back. -/
  asleep : List κ := []
  /-- Who was woken and has yet to try again. -/
  awake : List κ := []

namespace Sharing

/-- The beginning: all handles are free. -/
def start (κ : Type v) (handles : List α) : Sharing κ α :=
  { pool := .ofHandles handles }

/-- A client tries to borrow a handle. -/
def attempt (sharing : Sharing κ α) (client : κ) : Sharing κ α :=
  match sharing.pool.acquire with
  | (.handle _, pool) =>
      { sharing with pool, held := sharing.held ++ [(client, sharing.pool.lent.length)] }
  | (.wait, pool) => { sharing with pool, asleep := sharing.asleep ++ [client] }
  | (.refused _, pool) => { sharing with pool }

/-- The handles that clients hold. -/
def inUse (sharing : Sharing κ α) : List α :=
  sharing.held.filterMap fun guard => sharing.pool.loan? guard.2

/-- One of the sleepers wakes. -/
inductive Rouses : Sharing κ α → Sharing κ α → Prop where
  | rouse (pool : HandlePool α) (held : List (κ × Nat)) (before after awake : List κ) (client : κ) :
      Rouses ⟨pool, held, before ++ client :: after, awake⟩
        ⟨pool, held, before ++ after, awake ++ [client]⟩

/-- One of the sleepers is notified, if anyone sleeps. -/
inductive Notifies : Sharing κ α → Sharing κ α → Prop where
  | nobody {sharing : Sharing κ α} : sharing.asleep = [] → Notifies sharing sharing
  | one {sharing next : Sharing κ α} : Rouses sharing next → Notifies sharing next

/-- What happens next. -/
inductive Step : Sharing κ α → Sharing κ α → Prop where
  /-- A client asks for a handle. -/
  | asks (sharing : Sharing κ α) (client : κ) : Step sharing (sharing.attempt client)
  /-- A client that was woken tries again. -/
  | retries {sharing : Sharing κ α} {before after : List κ} {client : κ} :
      sharing.awake = before ++ client :: after →
      Step sharing ({ sharing with awake := before ++ after }.attempt client)
  /-- A sleeper wakes for no reason. -/
  | stirs {sharing next : Sharing κ α} : Rouses sharing next → Step sharing next
  /-- A client gives back a handle that it holds. -/
  | returns {sharing next : Sharing κ α} {before after : List (κ × Nat)} {client : κ} {loan : Nat} :
      sharing.held = before ++ (client, loan) :: after →
      Notifies { sharing with
        pool := (sharing.pool.release loan).2, held := before ++ after } next →
      Step sharing next

/-- Any number of steps from the beginning. -/
def Reached (handles : List α) : Sharing κ α → Prop :=
  Relation.ReflTransGen Step (start κ handles)

/-! ## What every step keeps -/

/-- A pool with loans to clients: its handles are those of the beginning, and each of its open
loans is held by someone, just once. -/
structure Lends (handles : List α) (pool : HandlePool α) (held : List (κ × Nat)) : Prop where
  size : pool.size = handles.length
  whole : (pool.free ++ pool.out).Perm handles
  once : (held.map (·.2)).Nodup
  loans : ∀ n, n ∈ held.map (·.2) ↔ (pool.loan? n).isSome

/-- A shared pool on its way.  Where someone sleeps, someone is awake for each free handle. -/
structure Kept (handles : List α) (sharing : Sharing κ α) : Prop where
  lends : Lends handles sharing.pool sharing.held
  roused : sharing.asleep ≠ [] → sharing.pool.free.length ≤ sharing.awake.length

section Kept

variable {handles : List α} {pool : HandlePool α} {held : List (κ × Nat)}
  {sharing next : Sharing κ α}

/-- Where no handle is free and none is out, there was none. -/
theorem Lends.free_of_size (lends : Lends handles pool held) (none : pool.size = 0) :
    pool.free = [] := by
  have length := lends.whole.length_eq
  rw [List.length_append, ← lends.size, none] at length
  exact List.eq_nil_of_length_eq_zero (by omega)

/-- The handles that are out are those that clients hold. -/
theorem Lends.out_perm (lends : Lends handles pool held) :
    (held.filterMap fun guard => pool.loan? guard.2).Perm pool.out := by
  have places : (held.map (·.2)).Perm
      ((List.range pool.lent.length).filter fun n => (pool.loan? n).isSome) := by
    rw [List.perm_ext_iff_of_nodup lends.once (List.nodup_range.filter _)]
    intro n
    rw [lends.loans, List.mem_filter, List.mem_range]
    refine ⟨fun there => ⟨?_, there⟩, fun found => found.2⟩
    obtain ⟨handle, own⟩ := Option.isSome_iff_exists.1 there
    exact (List.getElem?_eq_some_iff.1 (lent_of_loan? own)).1
  have lent : pool.lent = (List.range pool.lent.length).map pool.loan? := by
    refine List.ext_getElem (by simp) fun n here _ => ?_
    simp [loan?, List.getElem?_eq_getElem here]
  have out : pool.out = (List.range pool.lent.length).filterMap pool.loan? := by
    unfold HandlePool.out
    conv => lhs; rw [lent]
    rw [List.filterMap_map]
    rfl
  have inUse := places.filterMap pool.loan?
  rw [List.filterMap_map, List.filterMap_filter] at inUse
  rw [out]
  refine inUse.trans (List.Perm.of_eq (List.filterMap_congr fun n _ => ?_))
  cases pool.loan? n <;> rfl

/-- **Lending a handle**: it is no longer free, and the new loan is held. -/
theorem Lends.lend (lends : Lends handles pool held) {handle : α} {free : List α}
    (first : pool.free = handle :: free) (client : κ) :
    Lends handles { pool with free, lent := pool.lent ++ [some handle] }
      (held ++ [(client, pool.lent.length)]) := by
  refine ⟨lends.size, ?_, ?_, ?_⟩
  · have whole := lends.whole
    rw [first] at whole
    refine List.Perm.trans ?_ whole
    unfold HandlePool.out
    rw [List.filterMap_append, ← List.append_assoc]
    exact List.perm_append_singleton _ _
  · have new : pool.lent.length ∉ held.map (·.2) := by
      rw [lends.loans]
      simp [loan?]
    rw [List.map_append, List.nodup_append]
    refine ⟨lends.once, List.nodup_singleton _, ?_⟩
    rintro n earlier m last rfl
    rw [List.map_singleton, List.mem_singleton] at last
    subst last
    exact new earlier
  · intro n
    rw [List.map_append, List.mem_append, lends.loans]
    unfold loan?
    dsimp only
    rcases Nat.lt_trichotomy n pool.lent.length with earlier | rfl | later
    · rw [List.getElem?_append_left earlier]
      simp [Nat.ne_of_lt earlier]
    · simp
    · have beyond : (pool.lent ++ [some handle]).length ≤ n := by
        simpa using Nat.succ_le_of_lt later
      rw [List.getElem?_eq_none (Nat.le_of_lt later), List.getElem?_eq_none beyond]
      simp [Nat.ne_of_gt later]

/-- **Giving back a handle**: it is free, and its loan is closed. -/
theorem Lends.giveBack {before after : List (κ × Nat)} {client : κ} {loan : Nat}
    (lends : Lends handles pool (before ++ (client, loan) :: after)) :
    Lends handles (pool.release loan).2 (before ++ after) ∧
      (pool.release loan).2.free.length = pool.free.length + 1 := by
  obtain ⟨handle, there⟩ := Option.isSome_iff_exists.1
    ((lends.loans loan).1 (List.mem_map.2 ⟨(client, loan), by simp, rfl⟩))
  have own := lent_of_loan? there
  obtain ⟨distinct, others⟩ : ((before ++ after).map (·.2)).Nodup ∧
      loan ∉ (before ++ after).map (·.2) := by
    have once := lends.once
    rw [List.map_append, List.map_cons, List.nodup_middle, List.nodup_cons,
      ← List.map_append] at once
    exact ⟨once.2, once.1⟩
  rw [release_loan there]
  refine ⟨⟨lends.size, ?_, distinct, ?_⟩, rfl⟩
  · refine List.Perm.trans ?_ lends.whole
    exact List.perm_middle.symm.trans ((out_set own).append_left _)
  · intro n
    by_cases same : n = loan
    · subst same
      have closed : (pool.lent.set n none)[n]? = some none := by
        rw [List.getElem?_set_self (List.getElem?_eq_some_iff.1 own).1]
      unfold loan?
      dsimp only
      rw [closed]
      simpa using others
    · have elsewhere := lends.loans n
      rw [List.map_append, List.map_cons, List.mem_append, List.mem_cons] at elsewhere
      unfold loan? at elsewhere ⊢
      dsimp only
      rw [List.getElem?_set_ne (Ne.symm same), ← elsewhere, List.map_append, List.mem_append]
      simp [same]

theorem kept_start (handles : List α) : Kept handles (start κ handles) := by
  refine ⟨⟨rfl, ?_, List.nodup_nil, ?_⟩, fun asleep => absurd rfl asleep⟩
  · exact (List.append_nil handles.reverse).symm ▸ handles.reverse_perm
  · intro n
    simp [start, ofHandles, loan?]

/-- An attempt keeps the pool whole.  Someone who was awake may take one of the free handles,
or sleeps because there is none. -/
theorem Lends.attempt (lends : Lends handles sharing.pool sharing.held) (client : κ)
    (roused : sharing.asleep ≠ [] → sharing.pool.free.length ≤ sharing.awake.length + 1) :
    Kept handles (sharing.attempt client) := by
  unfold Sharing.attempt
  rcases acquire_cases sharing.pool with
    ⟨none, error, refused⟩ | ⟨-, free, wait⟩ | ⟨handle, free, -, first, lent⟩
  · rw [refused]
    refine ⟨lends, fun _ => ?_⟩
    rw [lends.free_of_size none]
    exact Nat.zero_le _
  · rw [wait]
    refine ⟨lends, fun _ => ?_⟩
    dsimp only
    rw [free]
    exact Nat.zero_le _
  · rw [lent]
    refine ⟨lends.lend first client, fun asleep => ?_⟩
    have enough := roused asleep
    rw [first, List.length_cons] at enough
    exact Nat.le_of_succ_le_succ enough

theorem Kept.rouses (lends : Lends handles sharing.pool sharing.held)
    (roused : sharing.asleep ≠ [] → sharing.pool.free.length ≤ sharing.awake.length + 1)
    (wakes : Rouses sharing next) : Kept handles next := by
  obtain ⟨pool, held, before, after, awake, client⟩ := wakes
  refine ⟨lends, fun _ => ?_⟩
  have enough := roused (by simp)
  rwa [List.length_append, List.length_singleton]

/-- **A step** of any client keeps the pool whole. -/
theorem Kept.step (kept : Kept handles sharing) (step : Step sharing next) :
    Kept handles next := by
  cases step with
  | asks client =>
      exact kept.lends.attempt client fun asleep => Nat.le_succ_of_le (kept.roused asleep)
  | @retries before after client awake =>
      refine @Lends.attempt α κ handles { sharing with awake := before ++ after } kept.lends client
        fun asleep => ?_
      have enough := kept.roused asleep
      rw [awake] at enough
      simpa [Nat.add_assoc] using enough
  | stirs wakes =>
      exact .rouses kept.lends (fun asleep => Nat.le_succ_of_le (kept.roused asleep)) wakes
  | returns own notified =>
      obtain ⟨lends, more⟩ := Lends.giveBack (own ▸ kept.lends)
      cases notified with
      | nobody none => exact ⟨lends, fun asleep => absurd none asleep⟩
      | one wakes =>
          refine .rouses lends (fun asleep => ?_) wakes
          dsimp only
          rw [more]
          exact Nat.succ_le_succ (kept.roused asleep)

theorem Reached.kept (reached : Reached handles sharing) : Kept handles sharing := by
  induction reached with
  | refl => exact kept_start handles
  | tail _ step ih => exact ih.step step

end Kept

/-! ## What a shared pool is -/

/-- A pool of some handles, as its clients see it. -/
structure Conserves (handles : List α) (sharing : Sharing κ α) : Prop where
  /-- What is free and what is held are the handles of the beginning. -/
  whole : (sharing.pool.free ++ sharing.inUse).Perm handles
  /-- Everyone who holds a loan has its handle. -/
  holds : ∀ guard ∈ sharing.held, (sharing.pool.loan? guard.2).isSome
  /-- No loan is held twice, and no handle is at two places. -/
  once : (sharing.held.map (·.2)).Nodup ∧
    (handles.Nodup → (sharing.pool.free ++ sharing.inUse).Nodup)
  size : sharing.pool.size = handles.length
  /-- While fewer handles are out than there are, one is lent. -/
  lends : sharing.held.length < sharing.pool.size →
    ∃ handle pool, sharing.pool.acquire = (.handle handle, pool)
  /-- Nobody is refused unless there is no handle at all. -/
  refuses : (∃ error pool, sharing.pool.acquire = (.refused error, pool)) ↔ sharing.pool.size = 0
  /-- Where someone sleeps, someone is awake for each free handle. -/
  roused : sharing.asleep ≠ [] →
    sharing.pool.size ≤ sharing.held.length + sharing.awake.length
  /-- When all is given back, all is free. -/
  returned : sharing.held = [] → sharing.pool.free.Perm handles

/-- **Handles are conserved**, whatever the clients of a pool do and in whatever order. -/
theorem handles_conserved {handles : List α} {sharing : Sharing κ α}
    (reached : Reached handles sharing) : Conserves handles sharing := by
  obtain ⟨lends, roused⟩ := reached.kept
  have whole : (sharing.pool.free ++ sharing.inUse).Perm handles :=
    (lends.out_perm.append_left _).trans lends.whole
  have holds : ∀ guard ∈ sharing.held, (sharing.pool.loan? guard.2).isSome := fun guard member =>
    (lends.loans guard.2).1 (List.mem_map_of_mem member)
  have inUse : sharing.inUse.length = sharing.held.length := by
    unfold Sharing.inUse
    rw [List.filterMap_length_eq_length]
    exact holds
  have length : sharing.pool.free.length + sharing.held.length = sharing.pool.size := by
    rw [lends.size, ← whole.length_eq, List.length_append, inUse]
  refine ⟨whole, holds, ⟨lends.once, whole.nodup_iff.2⟩, lends.size, ?_, ?_, ?_, ?_⟩
  · intro fewer
    rcases acquire_cases sharing.pool with
      ⟨none, -⟩ | ⟨-, free, -⟩ | ⟨handle, free, -, -, lent⟩
    · omega
    · rw [free, List.length_nil] at length
      omega
    · exact ⟨handle, _, lent⟩
  · constructor
    · rintro ⟨error, pool, refused⟩
      rcases acquire_cases sharing.pool with
        ⟨none, -⟩ | ⟨-, -, wait⟩ | ⟨handle, free, -, -, lent⟩
      · exact none
      · cases refused.symm.trans wait
      · cases refused.symm.trans lent
    · intro none
      unfold acquire
      rw [if_pos none]
      exact ⟨_, _, rfl⟩
  · intro asleep
    have enough := roused asleep
    omega
  · intro none
    unfold Sharing.inUse at whole
    rwa [none, List.filterMap_nil, List.append_nil] at whole

/-! ## A client that is overtaken -/

namespace Overtaken

/-- Two handles are lent to the first two clients, and the third one sleeps. -/
def busy : Sharing String Nat :=
  (((start String [1, 2]).attempt "a").attempt "b").attempt "c"

/-- The first client gives back what it had, and the third one is woken. -/
def roused : Sharing String Nat :=
  ⟨(busy.pool.release 0).2, [("b", 1)], [], ["c"]⟩

/-- The first client is faster and has a handle again; the third one sleeps once more. -/
def overtaken : Sharing String Nat :=
  { roused.attempt "a" with awake := [] }.attempt "c"

theorem reached : Reached [1, 2] overtaken := by
  have lent : Reached [1, 2] busy :=
    ((Relation.ReflTransGen.single (.asks _ "a")).tail (.asks _ "b")).tail (.asks _ "c")
  have back : Step busy roused :=
    @Step.returns _ _ busy roused [] [("b", 1)] "a" 0 rfl (.one (.rouse _ _ [] [] [] "c"))
  have again : Step (roused.attempt "a") overtaken :=
    @Step.retries _ _ (roused.attempt "a") [] [] "c" rfl
  exact ((lent.tail back).tail (.asks _ "a")).tail again

end Overtaken

/-- The overtaken client sleeps, both handles are out, and none is lost. -/
theorem overtaken_client_sleeps :
    Overtaken.overtaken.asleep = ["c"] ∧ Overtaken.overtaken.held = [("b", 1), ("a", 2)] ∧
      Overtaken.overtaken.inUse = [1, 2] ∧ Conserves [1, 2] Overtaken.overtaken :=
  ⟨rfl, rfl, rfl, handles_conserved Overtaken.reached⟩

end Sharing

end TokenBlame.HandlePool
