import ProjectIndex.Proofs.Disk.Resolve
import Mathlib.Data.List.Induction

/-!
# Routes

What it means that a path leads somewhere, said without a walker: a `Disk.Route` is taken step by step,
each step in a directory, and goes on with the path of a link wherever it meets one.  Walking finds the
route if it has few enough links (`Disk.walk_eq_ok_iff`), so a path is located exactly where it leads
(`Disk.locate_eq_ok_iff`).

Routes say well what a walker says badly, which is how two of them compare.  In a directory one can
always stay, so a route to a directory stays one when stays are put in or left out anywhere
(`Disk.Route.respell`).  Hence paths that say the same lead to the same directories
(`Disk.LeadsTo.of_components`).  To other places they need not lead both: behind a file one cannot stay.
Where they do, it is the same place (`Disk.LeadsTo.unique`), since the moves of a route leave no choice
(`Disk.Route.place_eq_of_moves`).
-/

namespace ProjectIndex

/-! ### The moves of a path -/

namespace Step

/-- The steps that move. -/
def moves (steps : List Step) : List Step := steps.filter (· ≠ .stay)

theorem moves_stay (steps : List Step) : moves (.stay :: steps) = moves steps := rfl

theorem moves_up (steps : List Step) : moves (.up :: steps) = .up :: moves steps := rfl

theorem moves_down (n : FileName) (steps : List Step) :
    moves (.down n :: steps) = .down n :: moves steps := rfl

theorem moves_append (steps rest : List Step) : moves (steps ++ rest) = moves steps ++ moves rest :=
  List.filter_append ..

theorem eq_stay_of_moves_eq_nil {steps : List Step} (h : moves steps = []) : ∀ s ∈ steps, s = .stay :=
  fun s member => by simpa using List.filter_eq_nil_iff.mp h s member

/-- Before the first move there are only stays. -/
theorem exists_of_moves_eq_cons {s : Step} {steps rest : List Step} (h : moves steps = s :: rest) :
    ∃ stays behind, steps = stays ++ s :: behind ∧ (∀ s ∈ stays, s = .stay) ∧ moves behind = rest := by
  obtain ⟨stays, behind, rfl, still, -, same⟩ := List.filter_eq_cons_iff.mp h
  exact ⟨stays, behind, rfl, fun s member => by simpa using still s member, same⟩

/-- The move of a component; the first component of a path may be none. -/
def ofComponent? : Component → Option Step
  | .root => none
  | .current => none
  | .parent => some .up
  | .name n => some (.down n)

end Step

namespace Path

/-- Inside a path there are names and pairs of periods only. -/
theorem component?_cases (s : Bytes) :
    component? s = none ∨ component? s = some .parent ∨ component? s = some (.name s) := by
  rw [component?]
  split
  · exact .inl rfl
  · split
    · exact .inr (.inl rfl)
    · exact .inr (.inr rfl)

/-- Segments move as their components do. -/
theorem moves_segments (segments : List Bytes) :
    Step.moves (segments.map Step.ofSegment) =
      (segments.filterMap component?).filterMap Step.ofComponent? := by
  induction segments with
  | nil => rfl
  | cons s segments ih =>
      rw [List.map_cons, Step.ofSegment]
      rcases component?_cases s with h | h | h
      · rw [List.filterMap_cons_none h, h]
        exact ih
      · rw [List.filterMap_cons_some h, h]
        exact congrArg _ ih
      · rw [List.filterMap_cons_some h, h]
        exact congrArg _ ih

/-- The moves of a path are what it says, but for the component that only begins it. -/
theorem moves_steps (p : Path) : Step.moves p.steps = p.components.filterMap Step.ofComponent? := by
  rw [steps, moves_segments, components]
  split
  · rfl
  · split <;> rfl

theorem isAbsolute_iff {p : Path} : p.isAbsolute = true ↔ .root ∈ p.components := by
  have inside : .root ∉ (segments p.bytes).filterMap component? := fun member => by
    obtain ⟨s, -, h⟩ := List.mem_filterMap.mp member
    rcases component?_cases s with h' | h' | h' <;> exact nomatch h.symm.trans h'
  rw [components]
  split
  · next absolute => simp [absolute]
  · next relative => split <;> simp [relative, inside]

/-- Paths that say the same begin in the same place. -/
theorem origin_congr {p q : Path} (same : p.components = q.components) (base : List FileName) :
    p.origin base = q.origin base := by
  have absolute : p.isAbsolute = q.isAbsolute := by
    rw [Bool.eq_iff_iff, isAbsolute_iff, isAbsolute_iff, same]
  rw [origin, origin, absolute]

/-- A path that the tree of files can be asked for. -/
structure Askable (p : Path) : Prop where
  nonzero : 0 ∉ p.bytes
  nonempty : p.bytes ≠ []
  short : p.bytes.length ≤ pathLimit

end Path

/-! ### Routes -/

namespace Disk

variable {d : Disk} {links most : Nat} {base place : List FileName} {s : Step} {steps rest : List Step}
  {children : List (FileName × Tree)}

/-- Steps lead from the directory at `base` to `place`, through a number of links.  Every step is taken
in a directory.  A step down needs a child of that name, and the name must not be too long; if the child
is a link, the steps of its path come first. -/
inductive Route (d : Disk) : (links : Nat) → (base : List FileName) → List Step →
    (place : List FileName) → Prop
  | done (base : List FileName) : Route d 0 base [] base
  | stay {links : Nat} {base place : List FileName} {rest : List Step}
      {children : List (FileName × Tree)} (here : d.root.find? base = some (.directory children))
      (onward : Route d links base rest place) : Route d links base (.stay :: rest) place
  | up {links : Nat} {base place : List FileName} {rest : List Step}
      {children : List (FileName × Tree)} (here : d.root.find? base = some (.directory children))
      (onward : Route d links base.dropLast rest place) : Route d links base (.up :: rest) place
  | down {links : Nat} {base place : List FileName} {rest : List Step} {n : FileName} {t : Tree}
      {children : List (FileName × Tree)} (here : d.root.find? base = some (.directory children))
      (short : n.length ≤ nameLimit) (child : children.lookup n = some t)
      (straight : ∀ target, t ≠ .link target) (onward : Route d links (base ++ [n]) rest place) :
      Route d links base (.down n :: rest) place
  | follow {links : Nat} {base place : List FileName} {rest : List Step} {n : FileName} {target : Path}
      {children : List (FileName × Tree)} (here : d.root.find? base = some (.directory children))
      (short : n.length ≤ nameLimit) (child : children.lookup n = some (.link target))
      (onward : Route d links (target.origin base) (target.steps ++ rest) place) :
      Route d (links + 1) base (.down n :: rest) place

theorem find?_child {n : FileName} {t : Tree} (here : d.root.find? base = some (.directory children))
    (child : children.lookup n = some t) : d.root.find? (base ++ [n]) = some t := by
  rw [Tree.find?_append, here, Option.bind_some, Tree.find?_directory_cons, child]
  rfl

theorem exists_find?_of_append {ns : List FileName} (found : ∃ t, d.root.find? (base ++ ns) = some t) :
    ∃ t, d.root.find? base = some t := by
  obtain ⟨t, found⟩ := found
  rw [Tree.find?_append] at found
  obtain ⟨here, found, -⟩ := Option.bind_eq_some_iff.mp found
  exact ⟨here, found⟩

theorem exists_find?_origin (target : Path) (here : ∃ t, d.root.find? base = some t) :
    ∃ t, d.root.find? (target.origin base) = some t := by
  rw [Path.origin]
  split
  · exact ⟨_, rfl⟩
  · exact here

/-- A route from where something stands leads to where something stands. -/
theorem Route.exists_find? (route : d.Route links base steps place)
    (here : ∃ t, d.root.find? base = some t) : ∃ t, d.root.find? place = some t := by
  induction route with
  | done base => exact here
  | stay _ onward ih => exact ih here
  | @up _ base _ _ _ _ onward ih =>
      refine ih ?_
      cases base using List.reverseRecOn with
      | nil => exact here
      | append_singleton start last =>
          rw [List.dropLast_concat]
          exact exists_find?_of_append here
  | down directory short child straight onward ih => exact ih ⟨_, find?_child directory child⟩
  | follow directory short child onward ih => exact ih (exists_find?_origin _ here)

/-- Where one route ends another one can begin. -/
theorem Route.append {links' : Nat} {middle : List FileName} (route : d.Route links base steps middle)
    (route' : d.Route links' middle rest place) : d.Route (links + links') base (steps ++ rest) place := by
  induction route with
  | done base => rwa [Nat.zero_add]
  | stay here onward ih => exact .stay here (ih route')
  | up here onward ih => exact .up here (ih route')
  | down here short child straight onward ih => exact .down here short child straight (ih route')
  | follow here short child onward ih =>
      have further := ih route'
      rw [List.append_assoc] at further
      rw [Nat.succ_add]
      exact .follow here short child further

/-- A step of a walk in a directory. -/
theorem walk_cons (here : d.root.find? base = some (.directory children)) :
    d.walk true most base (s :: rest) =
      match s with
      | .stay => d.walk true most base rest
      | .up => d.walk true most base.dropLast rest
      | .down n =>
        if nameLimit < n.length then .error .nameTooLong
        else match children.lookup n with
          | none => .error .notFound
          | some (.link target) =>
            match most with
            | 0 => .error .tooManyLinks
            | most + 1 => d.walk true most (target.origin base) (target.steps ++ rest)
          | some _ => d.walk true most (base ++ [n]) rest := by
  have last : ¬ (rest = [] ∧ true = false) := fun h => nomatch h.2
  cases most <;> rw [walk, walkSteps, here] <;>
    cases s with
    | stay => rfl
    | up => rfl
    | down n =>
      refine if_congr Iff.rfl rfl ?_
      cases children.lookup n with
      | none => rfl
      | some t =>
        cases t with
        | link target => exact if_neg last
        | _ => rfl

theorem exists_directory_of_walk (h : d.walk true most base (s :: rest) = .ok place) :
    ∃ children, d.root.find? base = some (.directory children) := by
  have first {follow : List FileName → Path → List Step → Except IoError (List FileName)}
      (h : d.walkSteps true follow base (s :: rest) = .ok place) :
      ∃ children, d.root.find? base = some (.directory children) := by
    rw [walkSteps] at h
    split at h
    · next children here => exact ⟨children, here⟩
    · cases h
    · cases h
  cases most <;> exact first h

/-- A walk that arrives has taken a route. -/
theorem exists_route_of_walk (h : d.walk true most base steps = .ok place) :
    ∃ links ≤ most, d.Route links base steps place := by
  -- A link leaves fewer links to follow, any other step fewer steps.
  induction most using Nat.strongRecOn generalizing base steps with
  | ind most fewer =>
  induction steps generalizing base with
  | nil =>
      have done : d.walk true most base [] = .ok base := by cases most <;> rfl
      obtain rfl := Except.ok.inj (done.symm.trans h)
      exact ⟨0, Nat.zero_le _, .done base⟩
  | cons s rest ih =>
      obtain ⟨children, here⟩ := exists_directory_of_walk h
      rw [walk_cons here] at h
      cases s with
      | stay =>
          obtain ⟨links, few, route⟩ := ih h
          exact ⟨links, few, .stay here route⟩
      | up =>
          obtain ⟨links, few, route⟩ := ih h
          exact ⟨links, few, .up here route⟩
      | down n =>
          dsimp only at h
          split at h
          · cases h
          next short =>
          rw [Nat.not_lt] at short
          split at h
          · cases h
          · next target child =>
            cases most with
            | zero => cases h
            | succ most =>
                obtain ⟨links, few, route⟩ := fewer most (Nat.lt_succ_self most) h
                exact ⟨links + 1, Nat.succ_le_succ few, .follow here short child route⟩
          · next t straight child =>
            obtain ⟨links, few, route⟩ := ih h
            exact ⟨links, few, .down here short child (fun target link => straight target link) route⟩

/-- A walk arrives where a route leads, if it may follow enough links. -/
theorem Route.walk (route : d.Route links base steps place) (few : links ≤ most) :
    d.walk true most base steps = .ok place := by
  induction route generalizing most with
  | done base => cases most <;> rfl
  | stay here onward ih => rw [walk_cons here]; exact ih few
  | up here onward ih => rw [walk_cons here]; exact ih few
  | down here short child straight onward ih =>
      rw [walk_cons here]
      dsimp only
      rw [if_neg (Nat.not_lt.mpr short), child]
      split
      · next none => cases none
      · next target link => exact absurd (Option.some.inj link) (straight target)
      · exact ih few
  | follow here short child onward ih =>
      rw [walk_cons here]
      dsimp only
      rw [if_neg (Nat.not_lt.mpr short), child]
      cases most with
      | zero => exact absurd few (Nat.not_succ_le_zero _)
      | succ most => exact ih (Nat.le_of_succ_le_succ few)

/-- **A walk arrives where a route with few enough links leads.** -/
theorem walk_eq_ok_iff : d.walk true most base steps = .ok place ↔
    ∃ links ≤ most, d.Route links base steps place :=
  ⟨exists_route_of_walk, fun ⟨_, few, route⟩ => route.walk few⟩

/-! ### Where a path leads -/

/-- A path leads to a place, all links being followed. -/
structure LeadsTo (d : Disk) (p : Path) (place : List FileName) : Prop where
  askable : p.Askable
  route : ∃ links ≤ linkLimit, d.Route links (p.origin d.here) p.steps place

/-- **A path is located where it leads.** -/
theorem locate_eq_ok_iff {p : Path} : d.locate p true = .ok place ↔ d.LeadsTo p place := by
  constructor
  · intro found
    rw [locate] at found
    split at found
    · cases found
    split at found
    · cases found
    split at found
    · cases found
    next zero empty long =>
    exact ⟨⟨mt List.contains_iff_mem.mpr zero, empty, Nat.not_lt.mp long⟩, walk_eq_ok_iff.mp found⟩
  · rintro ⟨⟨nonzero, nonempty, short⟩, links, few, route⟩
    rw [locate, if_neg (mt List.contains_iff_mem.mp nonzero), if_neg nonempty,
      if_neg (Nat.not_lt.mpr short)]
    exact route.walk few

/-! ### Routes that make the same moves -/

/-- In a directory one can stay for as long as one likes. -/
theorem Route.stays {stays : List Step} (here : d.root.find? base = some (.directory children))
    (still : ∀ s ∈ stays, s = .stay) (onward : d.Route links base rest place) :
    d.Route links base (stays ++ rest) place := by
  induction stays with
  | nil => exact onward
  | cons s stays ih =>
      obtain ⟨rfl, others⟩ := List.forall_mem_cons.mp still
      exact .stay here (ih others)

/-- **A route to a directory is as good as any that makes the same moves.** -/
theorem Route.respell {steps' : List Step} (route : d.Route links base steps place)
    (there : d.root.find? place = some (.directory children)) (same : Step.moves steps' = Step.moves steps) :
    d.Route links base steps' place := by
  -- Before each move of the route the other steps may stay, and they stay in a directory, since the move
  -- is made in one; behind the last move it is the directory at the end.
  induction route generalizing steps' with
  | done base =>
      have still := Step.eq_stay_of_moves_eq_nil same
      rw [← List.append_nil steps']
      exact .stays there still (.done base)
  | stay here onward ih => exact ih there (same.trans (Step.moves_stay _))
  | up here onward ih =>
      rw [Step.moves_up] at same
      obtain ⟨stays, behind, rfl, still, same⟩ := Step.exists_of_moves_eq_cons same
      exact .stays here still (.up here (ih there same))
  | down here short child straight onward ih =>
      rw [Step.moves_down] at same
      obtain ⟨stays, behind, rfl, still, same⟩ := Step.exists_of_moves_eq_cons same
      exact .stays here still (.down here short child straight (ih there same))
  | follow here short child onward ih =>
      rw [Step.moves_down] at same
      obtain ⟨stays, behind, rfl, still, same⟩ := Step.exists_of_moves_eq_cons same
      refine .stays here still (.follow here short child (ih there ?_))
      rw [Step.moves_append, Step.moves_append, same]

/-- Stays at the beginning of a route can be left out. -/
theorem Route.of_stays {stays : List Step} (still : ∀ s ∈ stays, s = .stay)
    (route : d.Route links base (stays ++ rest) place) : d.Route links base rest place := by
  induction stays with
  | nil => exact route
  | cons s stays ih =>
      obtain ⟨rfl, others⟩ := List.forall_mem_cons.mp still
      cases route with
      | stay here onward => exact ih others onward

/-- **Routes from the same place that make the same moves lead to the same place.** -/
theorem Route.place_eq_of_moves {links' : Nat} {steps' : List Step} {place' : List FileName}
    (route : d.Route links base steps place) (route' : d.Route links' base steps' place')
    (same : Step.moves steps' = Step.moves steps) : place' = place := by
  -- Before each move of the one route the other may stay, which leaves it where it is; then it makes the
  -- move in the same directory.
  induction route generalizing links' steps' with
  | done base =>
      rw [← List.append_nil steps'] at route'
      cases route'.of_stays (Step.eq_stay_of_moves_eq_nil same) with
      | done => rfl
  | stay here onward ih => exact ih route' (same.trans (Step.moves_stay _))
  | up here onward ih =>
      rw [Step.moves_up] at same
      obtain ⟨stays, behind, rfl, still, same⟩ := Step.exists_of_moves_eq_cons same
      cases route'.of_stays still with
      | up here' onward' => exact ih onward' same
  | down here short child straight onward ih =>
      rw [Step.moves_down] at same
      obtain ⟨stays, behind, rfl, still, same⟩ := Step.exists_of_moves_eq_cons same
      cases route'.of_stays still with
      | down here' short' child' straight' onward' => exact ih onward' same
      | follow here' short' child' onward' =>
          obtain rfl := Tree.directory.inj (Option.some.inj (here.symm.trans here'))
          exact absurd (Option.some.inj (child.symm.trans child')) (straight _)
  | follow here short child onward ih =>
      rw [Step.moves_down] at same
      obtain ⟨stays, behind, rfl, still, same⟩ := Step.exists_of_moves_eq_cons same
      cases route'.of_stays still with
      | down here' short' child' straight' onward' =>
          obtain rfl := Tree.directory.inj (Option.some.inj (here.symm.trans here'))
          exact absurd (Option.some.inj (child'.symm.trans child)) (straight' _)
      | follow here' short' child' onward' =>
          obtain rfl := Tree.directory.inj (Option.some.inj (here.symm.trans here'))
          obtain rfl := Tree.link.inj (Option.some.inj (child.symm.trans child'))
          exact ih onward' (by rw [Step.moves_append, Step.moves_append, same])

/-- **Paths that say the same lead to the same directories.** -/
theorem LeadsTo.of_components {p q : Path} (leads : d.LeadsTo p place)
    (there : d.root.find? place = some (.directory children)) (same : q.components = p.components)
    (askable : q.Askable) : d.LeadsTo q place := by
  obtain ⟨links, few, route⟩ := leads.route
  refine ⟨askable, links, few, ?_⟩
  rw [Path.origin_congr same]
  exact route.respell there (by rw [Path.moves_steps, Path.moves_steps, same])

/-- **Paths that say the same lead to the same place, if both lead anywhere.** -/
theorem LeadsTo.unique {p q : Path} {place' : List FileName} (leads : d.LeadsTo p place)
    (leads' : d.LeadsTo q place') (same : q.components = p.components) : place' = place := by
  obtain ⟨links, -, route⟩ := leads.route
  obtain ⟨links', -, route'⟩ := leads'.route
  rw [Path.origin_congr same] at route'
  exact route.place_eq_of_moves route' (by rw [Path.moves_steps, Path.moves_steps, same])

end Disk

end ProjectIndex
