import ProjectIndex.Proofs.Disk.Route
import ProjectIndex.Proofs.Disk.Straight

/-!
# What is asked for on the way

A path has a canonical form if it leads somewhere and no absolute path is too long that is asked for on
the way (`Disk.canonical_eq_ok_iff`).  The first condition is about the place alone, the second about the
route, and so this module follows routes.

On a disk whose paths are short nothing is asked for that is too long, so that every path that leads
somewhere has a canonical form: `Disk.canonical_of_fitsIn`.  Along the path that spells a place only the
paths of the places above are asked for, so that a short canonical form is its own: `Disk.canonical_ofNames`.

Elsewhere a path can be spoiled by a detour.  What is asked for behind a route is also asked for by a path
that takes the route first (`Disk.Route.asked_subset`), and so there is no canonical form for a path that
visits a directory with too long a path and comes back: `Disk.LeadsTo.not_staysShort_of_detour`.
-/

namespace ProjectIndex

namespace Path

variable {names : List Bytes} {rest : List Step}

/-- The path of a place is no longer than the paths of the places below it. -/
theorem length_ofNames_le_append (names ns : List Bytes) :
    (ofNames names).bytes.length ≤ (ofNames (names ++ ns)).bytes.length := by
  cases names with
  | nil =>
      cases ns with
      | nil => exact Nat.le_refl _
      | cons n ns => exact Nat.succ_le_succ (Nat.zero_le _)
  | cons n names =>
      rw [List.cons_append, ofNames_cons, ofNames_cons, List.flatMap_append, ← List.append_assoc]
      exact (List.prefix_append _ _).length_le

theorem length_probe (need : Step.needDirectory rest = true) :
    (probe names rest).bytes.length = (ofNames names).bytes.length + 1 := by
  rw [probe, if_pos need]
  exact List.length_append

theorem probe_eq (need : Step.needDirectory rest = false) : probe names rest = ofNames names := by
  rw [probe, need]
  rfl

end Path

namespace Disk

variable {d : Disk} {links most room : Nat} {base place ns : List FileName} {n : FileName}
  {steps rest : List Step} {children : List (FileName × Tree)} {t : Tree} {p q : Path}

/-! ### What a step asks for -/

theorem askedAlong_nil : d.askedAlong most base [] = [] := by cases most <;> rfl

theorem askedAlong_stay : d.askedAlong most base (.stay :: rest) = d.askedAlong most base rest := by
  cases most <;> rfl

theorem askedAlong_up :
    d.askedAlong most base (.up :: rest) = d.askedAlong most base.dropLast rest := by
  cases most <;> rfl

theorem askedAlong_down (found : d.root.find? (base ++ [n]) = some t)
    (straight : ∀ target, t ≠ .link target) : d.askedAlong most base (.down n :: rest) =
      .probe (base ++ [n]) rest :: d.askedAlong most (base ++ [n]) rest := by
  have step {follow : List FileName → Path → List Step → List Path} :
      d.askedSteps follow base (.down n :: rest) =
        .probe (base ++ [n]) rest :: d.askedSteps follow (base ++ [n]) rest := by
    rw [askedSteps, found]
    cases t with
    | link target => exact absurd rfl (straight target)
    | _ => rfl
  cases most <;> exact step

theorem askedAlong_follow {target : Path} (link : d.root.find? (base ++ [n]) = some (.link target)) :
    d.askedAlong (most + 1) base (.down n :: rest) =
      .ofNames (base ++ [n]) :: d.askedAlong most (target.origin base) (target.steps ++ rest) := by
  rw [askedAlong, askedSteps, link]

/-! ### On a disk whose paths are short -/

/-- A route begins in a directory if its steps need one. -/
theorem Route.exists_directory (route : d.Route links base rest place)
    (need : Step.needDirectory rest = true) :
    ∃ children, d.root.find? base = some (.directory children) := by
  cases route with
  | done => cases need
  | stay here onward => exact ⟨_, here⟩
  | up here onward => exact ⟨_, here⟩
  | down => cases need
  | follow => cases need

/-- **Where all paths are short, short paths are asked for along every route.** -/
theorem Route.asked_le (fits : d.root.FitsIn room) (route : d.Route links base steps place)
    (few : links ≤ most) : ∀ a ∈ d.askedAlong most base steps, a.bytes.length ≤ room := by
  induction route generalizing most with
  | done => rw [askedAlong_nil]; exact nofun
  | stay here onward ih => rw [askedAlong_stay]; exact ih few
  | up here onward ih => rw [askedAlong_up]; exact ih few
  | @down _ _ _ rest _ _ _ here short child straight onward ih =>
      have found := find?_child here child
      obtain ⟨path, directory⟩ := fits _ _ found
      rw [askedAlong_down found straight]
      refine List.forall_mem_cons.mpr ⟨?_, ih few⟩
      cases need : Step.needDirectory rest with
      | false => rw [Path.probe_eq need]; exact path
      | true =>
          obtain ⟨inner, there⟩ := onward.exists_directory need
          obtain rfl := Option.some.inj (found.symm.trans there)
          rw [Path.length_probe need]
          exact directory (List.append_ne_nil_of_right_ne_nil _ (List.cons_ne_nil _ _)) rfl
  | follow here short child onward ih =>
      have found := find?_child here child
      cases most with
      | zero => exact absurd few (Nat.not_succ_le_zero _)
      | succ most =>
          rw [askedAlong_follow found]
          exact List.forall_mem_cons.mpr ⟨(fits _ _ found).1, ih (Nat.le_of_succ_le_succ few)⟩

theorem LeadsTo.staysShort (leads : d.LeadsTo p place) (fits : d.root.FitsIn pathLimit) :
    d.StaysShort p := by
  obtain ⟨links, few, route⟩ := leads.route
  exact route.asked_le fits few

/-- Steps down ask for no path that is longer than the one of the node to which they lead. -/
theorem asked_le_of_straight (found : d.root.find? (base ++ ns) = some t)
    (straight : ∀ target, t ≠ .link target) : ∀ a ∈ d.askedAlong most base (ns.map .down),
      a.bytes.length ≤ (Path.ofNames (base ++ ns)).bytes.length := by
  induction ns generalizing base with
  | nil => rw [List.map_nil, askedAlong_nil]; exact nofun
  | cons n ns ih =>
      have further : d.root.find? (base ++ [n] ++ ns) = some t := by
        rwa [List.append_assoc, List.singleton_append]
      have onward := ih further
      rw [Tree.find?_append] at further
      obtain ⟨c, child, below⟩ := Option.bind_eq_some_iff.mp further
      have unlinked : ∀ target, c ≠ .link target := by
        rintro target rfl
        exact straight target (Tree.find?_leaf rfl below).2
      -- Another step down follows, or none, and neither needs a slash.
      have plain : Path.probe (base ++ [n]) (ns.map .down) = .ofNames (base ++ [n]) := by
        cases ns <;> rfl
      rw [List.append_assoc, List.singleton_append] at onward
      rw [List.map_cons, askedAlong_down child unlinked, plain]
      refine List.forall_mem_cons.mpr ⟨?_, onward⟩
      have longer := Path.length_ofNames_le_append (base ++ [n]) ns
      rwa [List.append_assoc, List.singleton_append] at longer

/-- **The path that spells the place of a node is its own canonical form.** -/
theorem canonical_ofNames (proper : d.root.Proper) (storable : d.root.Storable)
    (found : d.root.find? ns = some t) (straight : ∀ target, t ≠ .link target)
    (here : ns ≠ [] ∨ t.isDirectory = true) (short : (Path.ofNames ns).bytes.length ≤ pathLimit) :
    d.canonical (.ofNames ns) = .ok (.ofNames ns) := by
  refine canonical_eq_ok_iff.mpr
    ⟨⟨ns, t, resolve_ofNames proper storable found straight here short, rfl⟩, fun a member => ?_⟩
  have origin : (Path.ofNames ns).origin d.here = [] := by
    rw [Path.origin, Path.isAbsolute_ofNames, if_pos rfl]
  rw [asked, origin] at member
  cases ns with
  | nil =>
      have steps : (Path.ofNames []).steps = [.stay, .stay] := rfl
      rw [steps, askedAlong_stay, askedAlong_stay, askedAlong_nil] at member
      cases member
  | cons n ns =>
      rw [Path.steps_ofNames (proper.of_find? found).2 (List.cons_ne_nil _ _), askedAlong_stay] at member
      have whole : d.root.find? ([] ++ n :: ns) = some t := found
      exact Nat.le_trans (asked_le_of_straight whole straight a member) short

/-! ### Detours -/

/-- **What is asked for behind a route is asked for when the route is taken first.** -/
theorem Route.asked_subset (route : d.Route links base steps place) (few : links ≤ most) :
    d.askedAlong (most - links) place rest ⊆ d.askedAlong most base (steps ++ rest) := by
  induction route generalizing most with
  | done base => exact List.Subset.refl _
  | stay here onward ih => rw [List.cons_append, askedAlong_stay]; exact ih few
  | up here onward ih => rw [List.cons_append, askedAlong_up]; exact ih few
  | down here short child straight onward ih =>
      rw [List.cons_append, askedAlong_down (find?_child here child) straight]
      exact List.subset_cons_of_subset _ (ih few)
  | follow here short child onward ih =>
      cases most with
      | zero => exact absurd few (Nat.not_succ_le_zero _)
      | succ most =>
          rw [List.cons_append, askedAlong_follow (find?_child here child), ← List.append_assoc,
            Nat.add_sub_add_right]
          exact List.subset_cons_of_subset _ (ih (Nat.le_of_succ_le_succ few))

section Detour

variable (leads : d.LeadsTo p place) (here : d.root.find? place = some (.directory children))
  {inner : List (FileName × Tree)} (child : children.lookup n = some (.directory inner))
  (begins : q.origin d.here = p.origin d.here) (detour : q.steps = p.steps ++ [.down n, .up])

include leads here child begins detour

/-- A path that visits a directory and comes back leads where it would lead without the detour. -/
theorem LeadsTo.of_detour (short : n.length ≤ nameLimit) (askable : q.Askable) :
    d.LeadsTo q place := by
  obtain ⟨links, few, route⟩ := leads.route
  refine ⟨askable, links, few, ?_⟩
  have back : d.Route 0 place [.down n, .up] place := by
    refine .down here short child nofun (.up (find?_child here child) ?_)
    rw [List.dropLast_concat]
    exact .done place
  rw [begins, detour]
  exact route.append back

/-- **It has no canonical form if the path of the directory is too long.** -/
theorem LeadsTo.not_staysShort_of_detour
    (long : pathLimit ≤ (Path.ofNames (place ++ [n])).bytes.length) : ¬ d.StaysShort q := by
  intro short
  obtain ⟨links, few, route⟩ := leads.route
  have found := find?_child here child
  have member : Path.probe (place ++ [n]) [.up] ∈ d.asked q := by
    rw [asked, begins, detour]
    refine route.asked_subset few ?_
    rw [askedAlong_down found (by simp)]
    exact List.mem_cons_self
  have spared := short _ member
  rw [Path.length_probe rfl] at spared
  exact absurd long (Nat.not_le_of_lt spared)

end Detour

end Disk

end ProjectIndex
