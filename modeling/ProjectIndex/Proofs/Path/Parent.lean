import ProjectIndex.Proofs.Disk.Straight

/-!
# Parents

The parent of a path says what the path says, without the last component: `exists_last_of_parent?`.  It is
found in the spelling, by removing segments from the end, and what carries the proof is that a segment
which stands for nothing can be removed at any time (`inner_trimEnd`), while a cut before a slash leaves
alone how the spelling begins (`components_of_cutFrom`).

A path has a parent as soon as it says more than the root: without one, its segments stand for nothing
(`of_parent?_eq_none`, `parent?_eq_none_iff`).  So paths that say the same agree in their parents
(`parent?_congr`), however they are spelled.  A path without a parent leads to the directory at the root, or
nowhere, and so what can be read as a file has a parent (`Disk.exists_parent?_of_readText`).

The parent of an absolute path that spells names spells all but the last of them, byte by byte
(`parent?_ofNames`).
-/

namespace ProjectIndex

namespace Path

/-! ### The last segment -/

theorem takeWhile_reverse {c : UInt8} {b : Bytes} (h : c ∉ b) (rest : Bytes) :
    (b.reverse ++ rest).takeWhile (· != c) = b.reverse ++ rest.takeWhile (· != c) ∧
    (b.reverse ++ rest).dropWhile (· != c) = rest.dropWhile (· != c) := by
  have all : ∀ x ∈ b.reverse, (x != c) = true := fun x member =>
    bne_iff_ne.mpr fun same => h (same ▸ List.mem_reverse.mp member)
  exact ⟨List.takeWhile_append_of_pos all, List.dropWhile_append_of_pos all⟩

theorem segment_of_notMem {b : Bytes} (h : slash ∉ b) : dropSegment b = [] ∧ lastSegment b = b := by
  obtain ⟨taken, dropped⟩ := takeWhile_reverse h []
  rw [List.append_nil] at taken dropped
  rw [dropSegment, lastSegment, taken, dropped]
  exact ⟨rfl, by simp⟩

/-- The bytes taken from the end up to a byte are those behind its last place. -/
theorem behind_last {c : UInt8} (a : Bytes) {b : Bytes} (whole : c ∉ b) :
    ((a ++ c :: b).reverse.takeWhile (· != c)).reverse = b := by
  have backwards : (a ++ c :: b).reverse = b.reverse ++ c :: a.reverse := by simp
  rw [backwards, (takeWhile_reverse whole _).1]
  simp

/-- The last segment stands behind the last slash. -/
theorem segment_append_slash (a : Bytes) {b : Bytes} (h : slash ∉ b) :
    dropSegment (a ++ slash :: b) = a ∧ lastSegment (a ++ slash :: b) = b := by
  refine ⟨?_, behind_last a h⟩
  have backwards : (a ++ slash :: b).reverse = b.reverse ++ slash :: a.reverse := by simp
  rw [dropSegment, backwards, (takeWhile_reverse h _).2]
  simp

/-- Bytes can be cut at the last place where a byte stands. -/
theorem exists_last {c : UInt8} {body : Bytes} (h : c ∈ body) :
    ∃ a b, c ∉ b ∧ body = a ++ c :: b := by
  obtain ⟨front, behind, backwards, none⟩ := List.eq_append_cons_of_mem (List.mem_reverse.mpr h)
  refine ⟨behind.reverse, front.reverse, mt List.mem_reverse.mp none, ?_⟩
  rw [← List.reverse_inj, backwards]
  simp

theorem length_dropSegment_lt {body : Bytes} (h : body ≠ []) :
    (dropSegment body).length < body.length := by
  by_cases slashed : slash ∈ body
  · obtain ⟨a, b, none, rfl⟩ := exists_last slashed
    rw [(segment_append_slash a none).1, List.length_append, List.length_cons]
    omega
  · rw [(segment_of_notMem slashed).1]
    exact List.length_pos_of_ne_nil h

/-! ### What segments stand for -/

/-- The components that the segments of some bytes stand for. -/
def inner (body : Bytes) : List Component := (segments body).filterMap component?

theorem inner_slash (body : Bytes) : inner (slash :: body) = inner body := by
  rw [inner, segments_slash, List.filterMap_cons_none rfl, inner]

/-- The last segment stands for the last component, or for nothing. -/
theorem inner_eq (body : Bytes) :
    inner body = inner (dropSegment body) ++ (component? (lastSegment body)).toList := by
  have one : ∀ s : Bytes, [s].filterMap component? = (component? s).toList := fun s => by
    cases h : component? s with
    | none => rw [List.filterMap_cons_none h]; rfl
    | some c => rw [List.filterMap_cons_some h]; rfl
  by_cases slashed : slash ∈ body
  · obtain ⟨a, b, none, rfl⟩ := exists_last slashed
    obtain ⟨dropped, last⟩ := segment_append_slash a none
    rw [dropped, last, inner, segments_append_slash, List.filterMap_append, segments_of_notMem none, one,
      inner]
  · obtain ⟨dropped, last⟩ := segment_of_notMem slashed
    rw [dropped, last, inner, segments_of_notMem slashed, one]
    rfl

/-- What is removed from the end stands for nothing. -/
theorem inner_trimEnd (fuel : Nat) (body : Bytes) : inner (trimEnd fuel body) = inner body := by
  induction fuel generalizing body with
  | zero => rfl
  | succ fuel ih =>
      unfold trimEnd
      split
      · next empty => rw [empty]
      · split
        · next last => rw [ih, inner_eq body, last, Option.toList_none, List.append_nil]
        · rfl

/-- What is left stands for something at its end. -/
theorem component?_trimEnd {fuel : Nat} {body : Bytes} (short : body.length < fuel)
    (left : trimEnd fuel body ≠ []) : ∃ c, component? (lastSegment (trimEnd fuel body)) = some c := by
  induction fuel generalizing body with
  | zero => exact absurd short (Nat.not_lt_zero _)
  | succ fuel ih =>
      unfold trimEnd at left ⊢
      split at left
      · exact absurd rfl left
      next nonempty =>
      rw [if_neg nonempty]
      split at left
      · next last =>
          rw [if_pos last]
          have shorter := length_dropSegment_lt nonempty
          exact ih (by omega) left
      · next last =>
          rw [if_neg last]
          exact Option.ne_none_iff_exists'.mp last

/-- Nothing is left when segments are removed from the end only if all of them stand for nothing. -/
theorem component?_of_trimEnd_eq_nil {fuel : Nat} {body : Bytes} (trimmed : trimEnd fuel body = []) :
    ∀ s ∈ segments body, component? s = none := by
  have nothing := inner_trimEnd fuel body
  rw [trimmed] at nothing
  exact List.filterMap_eq_nil_iff.mp nothing.symm

/-! ### The parent -/

/-- The first bytes are the other ones, whole, cut before a slash, or cut to nothing. -/
def CutFrom (front body : Bytes) : Prop :=
  front = [] ∨ front = body ∨ ∃ rest, body = front ++ slash :: rest

theorem CutFrom.trans {a b c : Bytes} (h : CutFrom a b) (h' : CutFrom b c) : CutFrom a c := by
  rcases h with rfl | rfl | ⟨rest, rfl⟩
  · exact .inl rfl
  · exact h'
  · rcases h' with none | rfl | ⟨rest', rfl⟩
    · exact absurd none (by simp)
    · exact .inr (.inr ⟨rest, rfl⟩)
    · exact .inr (.inr ⟨rest ++ slash :: rest', by simp⟩)

theorem cutFrom_dropSegment (body : Bytes) : CutFrom (dropSegment body) body := by
  by_cases slashed : slash ∈ body
  · obtain ⟨a, b, none, rfl⟩ := exists_last slashed
    exact .inr (.inr ⟨b, by rw [(segment_append_slash a none).1]⟩)
  · exact .inl (segment_of_notMem slashed).1

theorem cutFrom_trimEnd (fuel : Nat) (body : Bytes) : CutFrom (trimEnd fuel body) body := by
  induction fuel generalizing body with
  | zero => exact .inr (.inl rfl)
  | succ fuel ih =>
      unfold trimEnd
      split
      · exact .inl rfl
      · split
        · exact (ih _).trans (cutFrom_dropSegment body)
        · exact .inr (.inl rfl)

/-- The first segment is all there is, or a slash follows it. -/
theorem of_head?_segments {body s : Bytes} (h : (segments body).head? = some s) :
    body = s ∨ ∃ rest, body = s ++ slash :: rest := by
  by_cases slashed : slash ∈ body
  · obtain ⟨front, rest, split, none⟩ := List.eq_append_cons_of_mem slashed
    rw [split, segments_append_slash, segments_of_notMem none] at h
    obtain rfl := Option.some.inj h
    exact .inr ⟨rest, split⟩
  · rw [segments_of_notMem slashed] at h
    exact .inl (Option.some.inj h)

/-- The component in front of all segments, if there is one. -/
def leading (p : Path) : List Component :=
  if p.isAbsolute then [.root] else if p.startsHere then [.current] else []

/-- A spelling that begins as a path does and ends at a slash says what it has of the path. -/
theorem components_of_cutFrom {p : Path} {front : Bytes}
    (cut : CutFrom front (p.bytes.drop p.headLength)) :
    (Path.mk (p.bytes.take p.headLength ++ front)).components = p.leading ++ inner front := by
  obtain ⟨bytes⟩ := p
  by_cases absolute : (Path.mk bytes).isAbsolute
  · obtain ⟨body, rfl⟩ : ∃ body, bytes = slash :: body := by
      cases bytes with
      | nil => cases absolute
      | cons b bs => exact ⟨bs, by rw [beq_iff_eq.mp absolute |> Option.some.inj]⟩
    show .root :: inner (slash :: front) = .root :: inner front
    rw [inner_slash]
  · by_cases here : (Path.mk bytes).startsHere
    · have head : (Path.mk bytes).headLength = 1 := by simp [headLength, here]
      have leads : (Path.mk bytes).leading = [.current] := by simp [leading, absolute, here]
      rw [head] at cut ⊢
      rw [leads]
      -- What follows the period is nothing or begins with a slash, and so is what is left of it.
      obtain rfl | ⟨rest, rfl⟩ := of_head?_segments (beq_iff_eq.mp here)
      · obtain rfl : front = [] := by
          rcases cut with none | whole | ⟨rest, split⟩
          · exact none
          · exact whole
          · exact absurd split (by simp)
        rfl
      · cases front with
        | nil => rfl
        | cons b f =>
            obtain rfl : b = slash := by
              rcases cut with none | whole | ⟨rest', split⟩
              · cases none
              · exact (List.cons.inj whole).1
              · exact (List.cons.inj split).1.symm
            show Component.current :: inner (slash :: f) = .current :: inner (slash :: f)
            rfl
    · have head : (Path.mk bytes).headLength = 0 := by simp [headLength, absolute, here]
      have leads : (Path.mk bytes).leading = [] := by simp [leading, absolute, here]
      rw [head] at cut ⊢
      rw [leads]
      rcases cut with rfl | rfl | ⟨rest, split⟩
      · rfl
      · simp [components, absolute, here, inner]
      · cases front with
        | nil => rfl
        | cons b f =>
            obtain rfl : bytes = b :: f ++ slash :: rest := split
            obtain ⟨s, ss, first⟩ := List.exists_cons_of_ne_nil (segments_ne_nil (b :: f))
            have absolute' : ¬ (Path.mk (b :: f)).isAbsolute = true := absolute
            have here' : ¬ (Path.mk (b :: f)).startsHere = true := by
              intro begins
              refine here ?_
              rw [startsHere, segments_append_slash, first]
              rwa [startsHere, first] at begins
            simp [components, absolute', here', inner]

theorem component?_ne_root (s : Bytes) : component? s ≠ some .root := by
  unfold component?
  split_ifs <;> nofun

/-- **A path says what its parent says, and then one component more**, which is not the root. -/
theorem exists_last_of_parent? {p q : Path} (h : p.parent? = some q) :
    ∃ c, c ≠ .root ∧ p.components = q.components ++ [c] := by
  have whole : p.components = p.leading ++ inner (p.bytes.drop p.headLength) := by
    have all := components_of_cutFrom (p := p) (.inr (.inl rfl))
    rwa [List.take_append_drop] at all
  have short : (p.bytes.drop p.headLength).length < p.bytes.length + 1 := by
    rw [List.length_drop]
    omega
  have kept := inner_trimEnd (p.bytes.length + 1) (p.bytes.drop p.headLength)
  have cut := cutFrom_trimEnd (p.bytes.length + 1) (p.bytes.drop p.headLength)
  have last := component?_trimEnd short
  rw [parent?] at h
  generalize trimEnd (p.bytes.length + 1) (p.bytes.drop p.headLength) = body at h kept cut last
  split at h
  · -- Only a period at the start says anything.
    split at h
    · next lone =>
        obtain rfl := Option.some.inj h
        obtain ⟨here, relative⟩ := Bool.and_eq_true_iff.mp lone
        have leads : p.leading = [.current] := by
          rw [leading, if_neg (by simpa using relative), if_pos here]
        refine ⟨.current, nofun, ?_⟩
        rw [whole, ← kept, leads]
        rfl
    · cases h
  · next nonempty =>
      obtain rfl := Option.some.inj h
      obtain ⟨c, hc⟩ := last nonempty
      have shorter := (cutFrom_trimEnd (p.bytes.length + 1) _).trans
        ((cutFrom_dropSegment body).trans cut)
      refine ⟨c, fun root => component?_ne_root _ (hc.trans (congrArg some root)), ?_⟩
      rw [components_of_cutFrom shorter, inner_trimEnd, whole, ← kept, inner_eq body, hc,
        Option.toList_some, List.append_assoc]

/-- The parent says what the path says, without the last component. -/
theorem components_parent? {p q : Path} (h : p.parent? = some q) :
    q.components = p.components.dropLast := by
  obtain ⟨c, -, split⟩ := exists_last_of_parent? h
  rw [split, List.dropLast_concat]

/-- A path that ends in a name says what its parent says, and then that name. -/
theorem components_eq_concat {p q : Path} {n : Bytes} (h : p.parent? = some q)
    (last : p.nameBytes? = some n) : p.components = q.components ++ [.name n] := by
  have ends : p.components.getLast? = some (.name n) := by
    rw [nameBytes?] at last
    split at last
    · next found => rw [found, Option.some.inj last]
    · cases last
  rw [components_parent? h, List.dropLast_append_getLast? _ ends]

/-- Paths of the same name in the same directory say the same. -/
theorem components_eq_of_parent? {p p' q q' : Path} {n : Bytes} (h : p.parent? = some q)
    (h' : p'.parent? = some q') (last : p.nameBytes? = some n) (last' : p'.nameBytes? = some n)
    (same : q.components = q'.components) : p.components = p'.components := by
  rw [components_eq_concat h last, components_eq_concat h' last', same]

/-! ### No parent -/

/-- A path without a parent says nothing, or no more than the root. -/
theorem of_parent?_eq_none {p : Path} (h : p.parent? = none) :
    (p.bytes = [] ∨ p.isAbsolute = true) ∧ ∀ s ∈ segments p.bytes, component? s = none := by
  have trimmed : trimEnd (p.bytes.length + 1) (p.bytes.drop p.headLength) = [] ∧
      (p.startsHere && !p.isAbsolute) = false := by
    rw [parent?] at h
    split at h
    · next empty =>
        refine ⟨empty, ?_⟩
        split at h
        · cases h
        · next other => exact Bool.not_eq_true _ ▸ other
    · cases h
  obtain ⟨empty, other⟩ := trimmed
  have none := component?_of_trimEnd_eq_nil empty
  obtain ⟨bytes⟩ := p
  cases bytes with
  | nil => exact ⟨.inl rfl, none⟩
  | cons b bs =>
      by_cases slashed : b = slash
      · subst slashed
        refine ⟨.inr rfl, fun s member => ?_⟩
        rw [segments_slash, List.mem_cons] at member
        obtain rfl | later := member
        · rfl
        · exact none s later
      · -- The first segment is not empty, so it is a period, with which the path would start.
        exfalso
        have relative : (Path.mk (b :: bs)).isAbsolute = false := by simp [isAbsolute, slashed]
        rw [relative, Bool.not_false, Bool.and_true] at other
        rw [headLength, relative, other] at none
        obtain ⟨s, ss, split⟩ := List.exists_cons_of_ne_nil (segments_ne_nil bs)
        have first := segments_cons slashed split
        have among : b :: s ∈ segments (b :: bs) := first ▸ List.mem_cons_self
        have nothing := none (b :: s) among
        rw [component?] at nothing
        split at nothing
        · next stays =>
            have period : b :: s = [dot] := stays.resolve_left (List.cons_ne_nil _ _)
            rw [startsHere, first, period] at other
            cases other
        · split at nothing <;> cases nothing

/-- **The paths without a parent** are those that say nothing and those that say the root alone. -/
theorem parent?_eq_none_iff {p : Path} :
    p.parent? = none ↔ p.components = [] ∨ p.components = [.root] := by
  constructor
  · intro none
    obtain ⟨shape, nothing⟩ := of_parent?_eq_none none
    have empty : inner p.bytes = [] := List.filterMap_eq_nil_iff.mpr nothing
    rcases shape with blank | absolute
    · obtain ⟨bytes⟩ := p
      obtain rfl : bytes = [] := blank
      exact .inl rfl
    · exact .inr (by rw [components, if_pos absolute, ← inner, empty])
  · intro said
    refine Option.eq_none_iff_forall_ne_some.mpr fun q parent => ?_
    obtain ⟨c, other, split⟩ := exists_last_of_parent? parent
    rw [split] at said
    rcases said with nothing | root
    · exact List.concat_ne_nil c _ nothing
    · have last := congrArg List.getLast? root
      rw [List.getLast?_concat] at last
      exact other (Option.some.inj last)

/-- A path that ends in a name has a parent. -/
theorem exists_parent?_of_nameBytes? {p : Path} {n : Bytes} (h : p.nameBytes? = some n) :
    ∃ q, p.parent? = some q := by
  refine Option.ne_none_iff_exists'.mp ?_
  intro none
  unfold nameBytes? at h
  rcases parent?_eq_none_iff.mp none with said | said
  · rw [said] at h
    cases h
  · rw [said] at h
    cases h

/-! ### Paths that say the same -/

/-- Paths that say the same have parents that say the same, or both have none. -/
theorem parent?_congr {p q : Path} (same : p.components = q.components) :
    Option.Rel (fun a b => a.same b = true) p.parent? q.parent? := by
  cases hp : p.parent? with
  | none =>
      have nothing := parent?_eq_none_iff.mp hp
      rw [same] at nothing
      rw [parent?_eq_none_iff.mpr nothing]
      exact .none
  | some a =>
      cases hq : q.parent? with
      | none =>
          have nothing := parent?_eq_none_iff.mp hq
          rw [← same, ← parent?_eq_none_iff, hp] at nothing
          cases nothing
      | some b =>
          refine .some (beq_iff_eq.mpr ?_)
          rw [components_parent? hp, components_parent? hq, same]

/-! ### The parents of absolute names -/

theorem trimEnd_of_component? {fuel : Nat} {body : Bytes} (last : component? (lastSegment body) ≠ none) :
    trimEnd (fuel + 1) body = body := by
  rw [trimEnd]
  split
  · next empty => exact empty.symm
  · rfl

theorem bytes_ofNames (ns : List Bytes) :
    (ofNames ns).bytes = slash :: (ofNames ns).bytes.drop 1 := by cases ns <;> rfl

/-- The last segment of the spelling of names is the last name. -/
theorem segment_ofNames (ns : List Bytes) {n : Bytes} (hn : slash ∉ n) :
    dropSegment ((ofNames (ns ++ [n])).bytes.drop 1) = (ofNames ns).bytes.drop 1 ∧
      lastSegment ((ofNames (ns ++ [n])).bytes.drop 1) = n := by
  cases ns with
  | nil =>
      have spelled : (ofNames ([] ++ [n])).bytes.drop 1 = n := List.append_nil n
      rw [spelled]
      exact segment_of_notMem hn
  | cons m ns =>
      have spelled : (ofNames (m :: ns ++ [n])).bytes.drop 1 =
          (ofNames (m :: ns)).bytes.drop 1 ++ slash :: n := by
        simp [ofNames]
      rw [spelled]
      exact segment_append_slash _ hn

/-- What is left of the spelling of names behind the first slash is not trimmed. -/
theorem trimEnd_ofNames {fuel : Nat} {ns : List Bytes} (names : ∀ m ∈ ns, IsName m) :
    trimEnd (fuel + 1) ((ofNames ns).bytes.drop 1) = (ofNames ns).bytes.drop 1 := by
  cases ns using List.reverseRecOn with
  | nil => rfl
  | append_singleton ns n =>
      have hn := names n (List.mem_append_right _ List.mem_cons_self)
      refine trimEnd_of_component? ?_
      rw [(segment_ofNames ns hn.slash_notMem).2, hn.component?]
      exact Option.some_ne_none _

/-- **The parent of a path that spells names spells all of them but the last.** -/
theorem parent?_ofNames {ns : List Bytes} {n : Bytes} (names : ∀ m ∈ ns, IsName m) (hn : IsName n) :
    (ofNames (ns ++ [n])).parent? = some (ofNames ns) := by
  have all : ∀ m ∈ ns ++ [n], IsName m :=
    List.forall_mem_append.mpr ⟨names, List.forall_mem_singleton.mpr hn⟩
  have head : (ofNames (ns ++ [n])).headLength = 1 := by
    rw [headLength, isAbsolute_ofNames, Bool.true_or, if_pos rfl]
  obtain ⟨before, last⟩ := segment_ofNames ns hn.slash_notMem
  rw [parent?, head, trimEnd_ofNames all]
  split
  · next empty =>
      rw [empty] at last
      exact absurd last.symm hn.ne_nil
  · rw [before, trimEnd_ofNames names, bytes_ofNames (ns ++ [n])]
    exact congrArg (fun bytes => some (Path.mk bytes)) (bytes_ofNames ns).symm

theorem join_of_isAbsolute (p : Path) {q : Path} (h : q.isAbsolute = true) : p.join q = q :=
  if_pos h

end Path

namespace Disk

variable {d : Disk} {p : Path}

/-- A walk that goes nowhere stays in the directory in which it begins. -/
theorem walkSteps_stay {followLast : Bool}
    {follow : List FileName → Path → List Step → Except IoError (List FileName)}
    {base names : List FileName} {steps : List Step} (stay : ∀ s ∈ steps, s = .stay) (nonempty : steps ≠ [])
    (h : d.walkSteps followLast follow base steps = .ok names) :
    names = base ∧ ∃ children, d.root.find? base = some (.directory children) := by
  induction steps with
  | nil => exact absurd rfl nonempty
  | cons s rest ih =>
      obtain ⟨rfl, later⟩ := List.forall_mem_cons.mp stay
      rw [walkSteps] at h
      cases found : d.root.find? base with
      | none => rw [found] at h; cases h
      | some t =>
          rw [found] at h
          cases t with
          | directory children =>
              refine ⟨?_, children, rfl⟩
              by_cases last : rest = []
              · subst last
                exact (Except.ok.inj h).symm
              · exact (ih later last h).1
          | _ => cases h

/-- A path without a parent leads to no file. -/
theorem parent?_ne_none_of_resolve {names : List FileName} {id : Nat}
    (h : d.resolve p = .ok (names, .file id)) : p.parent? ≠ none := by
  intro none
  obtain ⟨shape, nothing⟩ := Path.of_parent?_eq_none none
  obtain ⟨located, found⟩ := resolve_eq_ok_iff.mp h
  rw [locate] at located
  split at located
  · cases located
  split at located
  · cases located
  next nonempty =>
  split at located
  · cases located
  have absolute := shape.resolve_left nonempty
  have stay : ∀ s ∈ p.steps, s = .stay := by
    intro s member
    obtain ⟨segment, among, rfl⟩ := List.mem_map.mp member
    rw [Step.ofSegment, nothing segment among]
  have walked : p.steps ≠ [] := mt List.map_eq_nil_iff.mp (Path.segments_ne_nil _)
  rw [show linkLimit = 39 + 1 from rfl, walk] at located
  obtain ⟨rfl, children, directory⟩ := walkSteps_stay stay walked located
  rw [directory] at found
  cases found

/-- **What can be read as a file has a parent.** -/
theorem exists_parent?_of_readText {text : String} (h : d.readText p = .ok text) :
    ∃ parent, p.parent? = some parent := by
  refine Option.ne_none_iff_exists'.mp ?_
  rw [readText, readBytes] at h
  cases resolved : d.resolve p with
  | error e => rw [resolved] at h; cases h
  | ok found =>
      obtain ⟨names, t⟩ := found
      rw [resolved] at h
      cases t with
      | file id => exact parent?_ne_none_of_resolve resolved
      | _ => cases h

end Disk

end ProjectIndex
