import ProjectIndex.Search
import ProjectIndex.Proofs.Tree.Agrees

/-!
# Where paths lead

A path leads to a place, which is a list of names, and to the node that stands there.  Finding the
place asks a tree only what is under which name, so on disks whose trees agree every path leads to the
same place, or nowhere for the same reason (`locate_congr`).

The canonical form of a path spells that place.  It exists if the path `StaysShort`, that is if nothing is
asked for on the way that is too long (`canonical_eq_ok_iff`).
-/

namespace ProjectIndex

namespace Disk

variable {d d' : Disk} {p root : Path} {names : List FileName} {t : Tree} {suffix : String}

/-! ### Place, node and canonical form -/

/-- What a path leads to, by the place it leads to. -/
theorem resolve_eq_ok_iff :
    d.resolve p = .ok (names, t) ↔
      d.locate p true = .ok names ∧ d.root.find? names = some t := by
  rw [resolve]
  cases d.locate p true with
  | error e => simp [bind, Except.bind]
  | ok place =>
      simp only [bind, Except.bind, Except.ok.injEq]
      constructor
      · intro h
        cases found : d.root.find? place with
        | none => rw [found] at h; exact nomatch h
        | some node =>
            rw [found] at h
            obtain ⟨rfl, rfl⟩ := Prod.mk.inj (Except.ok.inj h)
            exact ⟨rfl, found⟩
      · rintro ⟨rfl, found⟩
        rw [found]

theorem node?_eq_some_iff : d.node? p = some t ↔ ∃ names, d.resolve p = .ok (names, t) := by
  rw [node?]
  cases d.resolve p with
  | error e => simp
  | ok found =>
      obtain ⟨names, node⟩ := found
      simp

theorem isFile_iff : d.isFile p = true ↔ ∃ id, d.node? p = some (.file id) := by
  rw [isFile]
  split
  · next id there => simp [there]
  · next other =>
      simp only [Bool.false_eq_true, false_iff]
      rintro ⟨id, there⟩
      exact other id there

theorem isFileWith_iff : d.isFileWith p (some suffix) = true ↔
    (∃ id, d.node? p = some (.file id)) ∧ p.suffix? = some suffix := by
  rw [isFileWith, Bool.and_eq_true, isFile_iff, decide_eq_true_iff]

/-- No absolute path that is asked for, in order to make the path canonical, is too long. -/
def StaysShort (d : Disk) (p : Path) : Prop := ∀ a ∈ d.asked p, a.bytes.length ≤ pathLimit

theorem staysShort_iff : d.StaysShort p ↔ (d.asked p).any (pathLimit < ·.bytes.length) = false := by
  simp [StaysShort]

instance : Decidable (d.StaysShort p) := decidable_of_iff _ staysShort_iff.symm

/-- A path that leads somewhere is made canonical by spelling the place, unless too long a path is asked
for on the way. -/
theorem canonical_of_resolve (resolved : d.resolve p = .ok (names, t)) :
    d.canonical p = if d.StaysShort p then .ok (.ofNames names) else .error .nameTooLong := by
  rw [canonical, resolved]
  simp only [bind, Except.bind]
  by_cases short : d.StaysShort p
  · rw [if_pos short, staysShort_iff.mp short]
    rfl
  · have long : (d.asked p).any (pathLimit < ·.bytes.length) = true := by
      simpa [staysShort_iff] using short
    rw [if_neg short, long]
    rfl

/-- The canonical form of a path spells the place it leads to, and short paths are asked for on the way. -/
theorem canonical_eq_ok_iff : d.canonical p = .ok root ↔
    (∃ names t, d.resolve p = .ok (names, t) ∧ root = .ofNames names) ∧ d.StaysShort p := by
  cases found : d.resolve p with
  | error e => simp [canonical, found, bind, Except.bind]
  | ok place =>
      obtain ⟨names, t⟩ := place
      rw [canonical_of_resolve found]
      by_cases short : d.StaysShort p
      · simp [short, eq_comm]
      · simp [short]

/-! ### Disks whose trees agree -/

/-- Steps lead to the same place in trees that agree. -/
theorem walkSteps_congr (h : d.root.Agrees d'.root) {followLast : Bool}
    {follow : List FileName → Path → List Step → Except IoError (List FileName)} :
    ∀ (steps : List Step) (base : List FileName),
      d.walkSteps followLast follow base steps = d'.walkSteps followLast follow base steps := by
  intro steps
  induction steps with
  | nil => exact fun _ => rfl
  | cons s rest ih =>
      intro base
      have found := h.find? base
      rw [walkSteps, walkSteps]
      -- A step looks at one node and at one of its children, and these agree in the two trees.
      generalize d.root.find? base = node, d'.root.find? base = node' at found
      cases found with
      | none => rfl
      | @some c c' agree =>
          cases c with
          | directory children =>
              obtain ⟨children', rfl, lookup⟩ := agree.directory
              cases s with
              | stay => exact ih base
              | up => exact ih base.dropLast
              | down n =>
                  have child := lookup n
                  dsimp only
                  generalize children.lookup n = c, children'.lookup n = c' at child
                  split
                  · rfl
                  · cases child with
                    | none => rfl
                    | @some c c' agree =>
                        cases c with
                        | directory inner =>
                            obtain ⟨inner', rfl, -⟩ := agree.directory
                            exact ih _
                        | link target =>
                            obtain rfl := agree.eq rfl
                            rfl
                        | file id =>
                            obtain rfl := agree.eq rfl
                            exact ih _
                        | special =>
                            obtain rfl := agree.eq rfl
                            exact ih _
          | file id => obtain rfl := agree.eq rfl; rfl
          | link target => obtain rfl := agree.eq rfl; rfl
          | special => obtain rfl := agree.eq rfl; rfl

theorem walk_congr (h : d.root.Agrees d'.root) {followLast : Bool} (links : Nat) :
    d.walk followLast links = d'.walk followLast links := by
  induction links with
  | zero => exact funext₂ fun base steps => walkSteps_congr h steps base
  | succ links ih =>
      refine funext₂ fun base steps => ?_
      rw [walk, walk, ih]
      exact walkSteps_congr h steps base

/-- **A path leads to the same place on disks whose trees agree.** -/
theorem locate_congr (h : d.root.Agrees d'.root) (here : d.here = d'.here) (p : Path)
    (followLast : Bool) : d.locate p followLast = d'.locate p followLast := by
  rw [locate, locate, walk_congr h, here]

/-- Along steps the same is asked for in trees that agree. -/
theorem askedSteps_congr (h : d.root.Agrees d'.root)
    {follow : List FileName → Path → List Step → List Path} :
    ∀ (steps : List Step) (base : List FileName),
      d.askedSteps follow base steps = d'.askedSteps follow base steps := by
  intro steps
  induction steps with
  | nil => exact fun _ => rfl
  | cons s rest ih =>
      intro base
      cases s with
      | stay => exact ih base
      | up => exact ih base.dropLast
      | down n =>
          have found := h.find? (base ++ [n])
          rw [askedSteps, askedSteps]
          generalize d.root.find? (base ++ [n]) = node, d'.root.find? (base ++ [n]) = node' at found
          cases found with
          | none => exact congrArg _ (ih _)
          | @some c c' agree =>
              cases c with
              | link target =>
                  obtain rfl := agree.eq rfl
                  rfl
              | directory children =>
                  obtain ⟨children', rfl, -⟩ := agree.directory
                  exact congrArg _ (ih _)
              | file id =>
                  obtain rfl := agree.eq rfl
                  exact congrArg _ (ih _)
              | special =>
                  obtain rfl := agree.eq rfl
                  exact congrArg _ (ih _)

theorem asked_congr (h : d.root.Agrees d'.root) (here : d.here = d'.here) (p : Path) :
    d.asked p = d'.asked p := by
  have along (links : Nat) : d.askedAlong links = d'.askedAlong links := by
    induction links with
    | zero => exact funext₂ fun base steps => askedSteps_congr h steps base
    | succ links ih =>
        refine funext₂ fun base steps => ?_
        rw [askedAlong, askedAlong, ih]
        exact askedSteps_congr h steps base
  rw [asked, asked, along, here]

theorem resolve_congr (h : d.root.Agrees d'.root) (here : d.here = d'.here)
    (found : d.resolve p = .ok (names, t)) :
    ∃ t', d'.resolve p = .ok (names, t') ∧ t.Agrees t' := by
  obtain ⟨place, node⟩ := resolve_eq_ok_iff.mp found
  have same := h.find? names
  rw [node] at same
  generalize hn : d'.root.find? names = node' at same
  obtain @⟨_, t', agree⟩ := same
  exact ⟨t', resolve_eq_ok_iff.mpr ⟨locate_congr h here p true ▸ place, hn⟩, agree⟩

/-- What a path leads to agrees. -/
theorem node?_congr (h : d.root.Agrees d'.root) (here : d.here = d'.here)
    (there : d.node? p = some t) : ∃ t', d'.node? p = some t' ∧ t.Agrees t' := by
  obtain ⟨names, found⟩ := node?_eq_some_iff.mp there
  obtain ⟨t', found', agree⟩ := resolve_congr h here found
  exact ⟨t', node?_eq_some_iff.mpr ⟨names, found'⟩, agree⟩

theorem canonical_congr (h : d.root.Agrees d'.root) (here : d.here = d'.here)
    (canonical : d.canonical p = .ok root) : d'.canonical p = .ok root := by
  obtain ⟨⟨names, t, found, rfl⟩, short⟩ := canonical_eq_ok_iff.mp canonical
  obtain ⟨t', found', -⟩ := resolve_congr h here found
  rw [StaysShort, asked_congr h here] at short
  exact canonical_eq_ok_iff.mpr ⟨⟨names, t', found', rfl⟩, short⟩

end Disk

end ProjectIndex
