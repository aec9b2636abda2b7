/-
# TokenBlame.Proofs.Disk.Leads -- where names lead, links among them

`Leads` says where names lead from a place: a link leads to where its own path leads, `..`
leads up, and every other name leads down.  Nothing counts how many links there are.  A walk
ends where its names lead (`arrives_of_follow`), and one that has to end in a directory ends in
one (`leads_of_directoryAt`).

Names that pass no link lead straight down (`Leads.place_eq`).
-/
import TokenBlame.Proofs.Disk.Walk

set_option autoImplicit false

namespace TokenBlame.Disk

open Git

/-- The place that the target of a link begins at, for a link in a directory. -/
def linkStart (directory : TreePath) (target : Bytes) : TreePath :=
  if target.head? = some TreePath.slash then [] else directory

/-- Names lead from a place to another one. -/
inductive Leads (disk : Disk) : TreePath → List Name → TreePath → Prop where
  | stay (place : TreePath) : Leads disk place [] place
  | up {place last : TreePath} {rest : List Name} :
      Leads disk place.dropLast rest last → Leads disk place (above :: rest) last
  | down {place last : TreePath} {name : Name} {rest : List Name} :
      TreePath.IsPlain name →
      (∀ target, look disk (place ++ [name]) ≠ some (.entry (.link target))) →
      Leads disk (place ++ [name]) rest last → Leads disk place (name :: rest) last
  | link {place last : TreePath} {name : Name} {rest : List Name} {target : Bytes} :
      TreePath.IsPlain name → look disk (place ++ [name]) = some (.entry (.link target)) →
      Leads disk (linkStart place target) (TreePath.resolve (TreePath.split target) ++ rest) last →
      Leads disk place (name :: rest) last

section Leads

variable {disk next : Disk} {place middle last : TreePath} {names more : List Name}

theorem Leads.trans (first : Leads disk place names middle) (second : Leads disk middle more last) :
    Leads disk place (names ++ more) last := by
  induction first with
  | stay => exact second
  | up _ ih => exact .up (ih second)
  | down plain noLink _ ih => exact .down plain noLink (ih second)
  | link plain found _ ih =>
      have further := ih second
      rw [List.append_assoc] at further
      exact .link plain found further

/-- Names lead over every place on their way. -/
theorem Leads.split (leads : Leads disk place (names ++ more) last) :
    ∃ middle, Leads disk place names middle ∧ Leads disk middle more last := by
  generalize whole : names ++ more = all at leads
  induction leads generalizing names with
  | stay place =>
      obtain ⟨rfl, rfl⟩ := List.append_eq_nil_iff.1 whole
      exact ⟨place, .stay place, .stay place⟩
  | @up place _ rest leads ih =>
      cases names with
      | nil =>
          subst whole
          exact ⟨place, .stay place, .up leads⟩
      | cons name names =>
          obtain ⟨rfl, rfl⟩ := List.cons.inj whole
          obtain ⟨middle, first, second⟩ := ih rfl
          exact ⟨middle, .up first, second⟩
  | @down place _ own rest plain noLink leads ih =>
      cases names with
      | nil =>
          subst whole
          exact ⟨place, .stay place, .down plain noLink leads⟩
      | cons name names =>
          obtain ⟨rfl, rfl⟩ := List.cons.inj whole
          obtain ⟨middle, first, second⟩ := ih rfl
          exact ⟨middle, .down plain noLink first, second⟩
  | @link place _ own rest target plain found leads ih =>
      cases names with
      | nil =>
          subst whole
          exact ⟨place, .stay place, .link plain found leads⟩
      | cons name names =>
          obtain ⟨rfl, rfl⟩ := List.cons.inj whole
          obtain ⟨middle, first, second⟩ := ih (List.append_assoc _ names more)
          exact ⟨middle, .link plain found first, second⟩

/-- Disks with the same links. -/
def SameLinks (disk next : Disk) : Prop :=
  ∀ path target, look disk path = some (.entry (.link target)) ↔
    look next path = some (.entry (.link target))

/-- Only links decide where names lead. -/
theorem Leads.congr (same : SameLinks disk next) (leads : Leads disk place names last) :
    Leads next place names last := by
  induction leads with
  | stay => exact .stay _
  | up _ ih => exact .up ih
  | down plain noLink _ ih =>
      exact .down plain (fun target found => noLink target ((same _ target).2 found)) ih
  | link plain found _ ih => exact .link plain ((same _ _).1 found) ih

/-- **Without a link** on the way, names lead straight down. -/
theorem Leads.place_eq (leads : Leads disk place names last) (down : ∀ name ∈ names, name ≠ above)
    (free : LinkFree disk place names) : last = place ++ names := by
  induction leads with
  | stay place => rw [List.append_nil]
  | up _ ih => exact absurd rfl (down _ List.mem_cons_self)
  | down plain noLink _ ih =>
      rw [ih (fun n member => down n (List.mem_cons_of_mem _ member)) free.tail, List.append_assoc]
      rfl
  | link plain found _ ih => exact absurd found (free.head _)

end Leads

/-! ## Walks -/

/-- Each directory of a trail stands in the one before it. -/
def Trail.Along (disk : Disk) : Trail → Prop
  | [] => disk.isDirectory = true
  | (name, node) :: rest =>
      node.isDirectory = true ∧ Table.lookup name (Trail.node disk rest).entries = some node ∧
        Trail.Along disk rest

section Walks

variable {disk : Disk} {trail : Trail} {place last : TreePath} {names : List Name}

theorem Trail.place_cons (name : Name) (node : Node) (rest : Trail) :
    Trail.place ((name, node) :: rest) = rest.place ++ [name] := by
  unfold Trail.place
  rw [List.map_cons, List.reverse_cons]

theorem Trail.Along.at_ (along : Trail.Along disk trail) : trail.At disk trail.place := by
  induction trail with
  | nil => exact ⟨rfl, rfl⟩
  | cons entry rest ih =>
      obtain ⟨name, node⟩ := entry
      obtain ⟨-, found, before⟩ := along
      have at_ := ih before
      rw [Trail.place_cons]
      exact at_.push (by rw [← at_.lookup, found])

theorem Trail.Along.directory (along : Trail.Along disk trail) :
    look disk trail.place = some .directory := by
  have node : (trail.node disk).isDirectory = true := by
    cases trail with
    | nil => exact along
    | cons entry rest => exact along.1
  unfold look
  rw [along.at_.node_eq]
  cases there : trail.node disk with
  | directory entries => rfl
  | file content executable =>
      rw [there] at node
      cases node
  | link target =>
      rw [there] at node
      cases node

theorem Trail.Along.tail (along : Trail.Along disk trail) :
    Trail.Along disk trail.tail ∧ Trail.place trail.tail = trail.place.dropLast := by
  cases trail with
  | nil => exact ⟨along, rfl⟩
  | cons entry rest => exact ⟨along.2.2, by simp [Trail.place]⟩

/-- The top is a directory. -/
theorem Trail.Along.root (along : Trail.Along disk trail) : Trail.Along disk [] := by
  induction trail with
  | nil => exact along
  | cons entry rest ih => exact ih along.2.2

/-- The way of a link begins at the top or in the directory that the link is in. -/
theorem Trail.Along.linkStart (along : Trail.Along disk trail) (target : Bytes) :
    Trail.Along disk (if target.head? = some TreePath.slash then [] else trail) ∧
      Trail.place (if target.head? = some TreePath.slash then [] else trail) =
        Disk.linkStart trail.place target := by
  unfold Disk.linkStart
  split
  · exact ⟨along.root, rfl⟩
  · exact ⟨along, rfl⟩

theorem along_leadingTo (stands : look disk place = some .directory) :
    Trail.Along disk (.leadingTo disk place) := by
  induction place using List.reverseRecOn with
  | nil =>
      obtain ⟨entries, same⟩ := look_eq_directory.1 stands
      cases same
      rfl
  | append_singleton place name ih =>
      obtain ⟨entries, there⟩ := look_eq_directory.1 stands
      obtain ⟨outer, above⟩ := look_eq_directory.1 (look_above stands)
      have before := ih (look_above stands)
      have own := leadingTo_at above
      rw [leadingTo_concat, own.lookup name, there]
      exact ⟨rfl, by rw [own.lookup name, there], before⟩

/-- Names lead to a place in a directory or to a directory itself, and to a directory if they
end with nothing. -/
structure Arrives (disk : Disk) (place : TreePath) (names : List Name) (last : TreePath) :
    Prop where
  leads : Leads disk place (TreePath.resolve names) last
  directory : (∀ name ∈ names.getLast?, name = []) → look disk last = some .directory
  stands : look disk last = some .directory ∨
    ∃ directory name, last = directory ++ [name] ∧ look disk directory = some .directory

section Arrives

variable {name : Name} {rest : List Name}

/-- Where names end with nothing, so do those behind the first one. -/
theorem getLast?_behind (ends : ∀ n ∈ (name :: rest).getLast?, n = []) :
    ∀ n ∈ rest.getLast?, n = [] := by
  cases rest with
  | nil => exact fun _ member => nomatch member
  | cons other rest =>
      intro n member
      exact ends n (by rwa [List.getLast?_cons_cons])

theorem Arrives.skip (noStep : TreePath.isStep name = false)
    (arrives : Arrives disk place rest last) :
    Arrives disk place (name :: rest) last where
  leads := by
    rw [TreePath.resolve_cons_skip noStep]
    exact arrives.leads
  directory := fun ends => arrives.directory (getLast?_behind ends)
  stands := arrives.stands

theorem Arrives.up (arrives : Arrives disk place.dropLast rest last) :
    Arrives disk place (above :: rest) last where
  leads := by
    rw [TreePath.resolve_cons (by decide)]
    exact .up arrives.leads
  directory := fun ends => arrives.directory (getLast?_behind ends)
  stands := arrives.stands

theorem Arrives.down (plain : TreePath.IsPlain name)
    (noLink : ∀ target, look disk (place ++ [name]) ≠ some (.entry (.link target)))
    (arrives : Arrives disk (place ++ [name]) rest last) :
    Arrives disk place (name :: rest) last where
  leads := by
    rw [TreePath.resolve_cons plain.step]
    exact .down plain noLink arrives.leads
  directory := fun ends => arrives.directory (getLast?_behind ends)
  stands := arrives.stands

theorem Arrives.link {target : Bytes} (plain : TreePath.IsPlain name)
    (found : look disk (place ++ [name]) = some (.entry (.link target)))
    (arrives : Arrives disk (linkStart place target) (TreePath.split target ++ rest) last) :
    Arrives disk place (name :: rest) last where
  leads := by
    rw [TreePath.resolve_cons plain.step]
    refine .link plain found ?_
    rw [← TreePath.resolve_append]
    exact arrives.leads
  directory := by
    intro ends
    apply arrives.directory
    intro n member
    cases rest with
    | nil =>
        -- the name itself would be empty
        have empty : name = [] := ends name rfl
        exact absurd (empty ▸ plain.step) (by decide)
    | cons other rest =>
        rw [List.getLast?_append, List.getLast?_cons, Option.some_or,
          ← List.getLast?_cons] at member
        exact getLast?_behind ends n member
  stands := arrives.stands

/-- What is not a link may stand at the end, unless a directory is asked for. -/
theorem Arrives.own (stands : look disk place = some .directory) (plain : TreePath.IsPlain name)
    (noLink : ∀ target, look disk (place ++ [name]) ≠ some (.entry (.link target))) :
    Arrives disk place [name] (place ++ [name]) where
  leads := by
    rw [TreePath.resolve_cons plain.step]
    exact .down plain noLink (.stay _)
  directory := by
    intro ends
    have empty : name = [] := ends name rfl
    exact absurd (empty ▸ plain.step) (by decide)
  stands := Or.inr ⟨place, name, rfl, stands⟩

end Arrives

/-- A walk arrives if it arrives behind links. -/
theorem walkWith_arrives {onLink : Trail → List Name → Except Error TreePath}
    (onward : ∀ trail names last, Trail.Along disk trail → onLink trail names = .ok last →
      Arrives disk trail.place names last)
    (along : Trail.Along disk trail) (walked : walkWith disk onLink trail names = .ok last) :
    Arrives disk trail.place names last := by
  induction names generalizing trail with
  | nil =>
      cases walked
      exact ⟨.stay _, fun _ => along.directory, Or.inl along.directory⟩
  | cons name rest ih =>
      cases step : TreePath.isStep name with
      | false =>
          rw [walkWith_skip step] at walked
          exact .skip step (ih along walked)
      | true =>
          by_cases up : name = above
          · subst up
            rw [walkWith_up] at walked
            obtain ⟨before, place⟩ := along.tail
            have arrives := ih before walked
            rw [place] at arrives
            exact arrives.up
          have plain : TreePath.IsPlain name := ⟨step, up⟩
          by_cases long : maxName < name.length
          · rw [walkWith_long plain long] at walked
            cases walked
          -- what stands at the name
          cases there : disk.at? (trail.place ++ [name]) with
          | none =>
              have seen := look_eq_none.2 there
              rw [walkWith_none along.at_ plain long seen] at walked
              cases rest with
              | cons other rest => cases walked
              | nil =>
                  cases walked
                  exact .own along.directory plain (by simp [seen])
          | some node =>
              have seen : look disk (trail.place ++ [name]) = some node.seen := by
                rw [look, there]
                rfl
              cases node with
              | directory entries =>
                  rw [walkWith_down along.at_ plain long there] at walked
                  have found := along.at_.lookup name
                  rw [there] at found
                  have pushed : Trail.Along disk ((name, .directory entries) :: trail) :=
                    ⟨rfl, found, along⟩
                  have arrives := ih pushed walked
                  rw [Trail.place_cons] at arrives
                  exact .down plain (by simp [seen, Node.seen]) arrives
              | file content executable =>
                  rw [walkWith_file along.at_ plain long seen] at walked
                  cases rest with
                  | cons other rest => cases walked
                  | nil =>
                      cases walked
                      exact .own along.directory plain (by simp [seen, Node.seen])
              | link target =>
                  rw [walkWith_link along.at_ plain long there] at walked
                  obtain ⟨start, begins⟩ := along.linkStart target
                  exact .link plain seen (begins ▸ onward _ _ _ start walked)

/-- **A walk arrives** where its names lead. -/
theorem walk_arrives {ways : Nat} (along : Trail.Along disk trail)
    (walked : walk disk ways trail names = .ok last) : Arrives disk trail.place names last := by
  induction ways generalizing trail names last with
  | zero => cases walked
  | succ ways ih =>
      rw [walk] at walked
      exact walkWith_arrives (fun _ _ _ along walked => ih along walked) along walked

/-- Where a path ends is where its names lead, in a directory. -/
theorem arrives_of_follow (stands : look disk place = some .directory)
    (followed : follow disk place names = .ok last) : Arrives disk place names last := by
  obtain ⟨entries, there⟩ := look_eq_directory.1 stands
  have arrives := walk_arrives (along_leadingTo stands) followed
  rwa [(leadingTo_at there).place_eq] at arrives

/-- The directory that names lead to is one. -/
theorem leads_of_directoryAt (stands : look disk place = some .directory)
    (found : directoryAt disk place names = .ok last) :
    Leads disk place (TreePath.resolve names) last ∧ look disk last = some .directory := by
  have arrives := arrives_of_follow stands found
  refine ⟨?_, arrives.directory (by simp)⟩
  have leads := arrives.leads
  rwa [TreePath.resolve_append, TreePath.resolve_cons_skip (by decide),
    TreePath.resolve_nil, List.append_nil] at leads

/-- The first of the names that lead to a directory is there. -/
theorem look_of_directoryAt {name : Name} {rest : List Name}
    (stands : look disk place = some .directory) (plain : TreePath.IsPlain name)
    (found : directoryAt disk place (name :: rest) = .ok last) :
    look disk (place ++ [name]) ≠ none := by
  intro none
  obtain ⟨entries, there⟩ := look_eq_directory.1 stands
  unfold directoryAt follow at found
  rw [walk, List.cons_append] at found
  by_cases long : maxName < name.length
  · rw [walkWith_long plain long] at found
    cases found
  · rw [walkWith_none (leadingTo_at there) plain long none] at found
    simp at found

end Walks

end TokenBlame.Disk
