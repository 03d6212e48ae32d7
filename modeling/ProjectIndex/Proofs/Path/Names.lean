import ProjectIndex.Path
import ProjectIndex.Proofs.Text.Utf8
import Mathlib.Data.List.Basic

/-!
# Paths that go down through names

A path that is extended by a name says what it said before, and then that name:
`components_child`.  This holds for every spelling of the path and for every name that a node can
have, and it fails for the two names made of periods alone, for the empty name and for a name with a
slash; `IsName` leaves out just these.

`descend` extends a path by one name after another, which is how a walk spells its paths, and
`relative` spells the names alone, with a slash between any two.  Joining a path with the latter gives
the former: `join_relative`.  Of the names that a path was extended by the last one is its own name.
-/

namespace ProjectIndex

namespace Path

/-- The bytes are a name that a node can have: not empty, no period, no two periods, and without a
slash. -/
def IsName (n : Bytes) : Prop := n ≠ [] ∧ n ≠ [dot] ∧ n ≠ [dot, dot] ∧ slash ∉ n

instance : DecidablePred IsName := fun _ => inferInstanceAs (Decidable (_ ∧ _))

theorem IsName.ne_nil {n : Bytes} (h : IsName n) : n ≠ [] := h.1

theorem IsName.slash_notMem {n : Bytes} (h : IsName n) : slash ∉ n := h.2.2.2

/-- A name stands for a component. -/
theorem IsName.component? {n : Bytes} (h : IsName n) : component? n = some (.name n) := by
  obtain ⟨ne_nil, ne_dot, ne_dots, -⟩ := h
  rw [Path.component?, if_neg (not_or.mpr ⟨ne_nil, ne_dot⟩), if_neg ne_dots]

theorem IsName.head?_ne {n : Bytes} (h : IsName n) : n.head? ≠ some slash := fun head =>
  h.slash_notMem (List.mem_of_head? head)

theorem IsName.getLast?_ne {n : Bytes} (h : IsName n) : n.getLast? ≠ some slash := fun last =>
  h.slash_notMem (List.mem_of_getLast? last)

/-! ### Segments -/

theorem segments_ne_nil (bs : Bytes) : segments bs ≠ [] := by
  cases bs with
  | nil => exact List.cons_ne_nil _ _
  | cons b bs =>
      rw [segments]
      split
      · exact List.cons_ne_nil _ _
      · split <;> exact List.cons_ne_nil _ _

theorem segments_slash (bs : Bytes) : segments (slash :: bs) = [] :: segments bs := by
  rw [segments, if_pos rfl]

theorem segments_cons {b : UInt8} (hb : b ≠ slash) {bs s : Bytes} {ss : List Bytes}
    (h : segments bs = s :: ss) : segments (b :: bs) = (b :: s) :: ss := by
  rw [segments, if_neg hb, h]

/-- A slash ends a segment, whatever stands on either side. -/
theorem segments_append_slash (a b : Bytes) :
    segments (a ++ slash :: b) = segments a ++ segments b := by
  induction a with
  | nil => exact segments_slash b
  | cons c a ih =>
      by_cases hc : c = slash
      · rw [hc, List.cons_append, segments_slash, segments_slash, ih, List.cons_append]
      · obtain ⟨s, ss, hs⟩ := List.exists_cons_of_ne_nil (segments_ne_nil a)
        rw [hs, List.cons_append] at ih
        rw [List.cons_append, segments_cons hc ih, segments_cons hc hs, List.cons_append]

theorem segments_of_notMem {bs : Bytes} (h : slash ∉ bs) : segments bs = [bs] := by
  induction bs with
  | nil => rfl
  | cons b bs ih =>
      rw [List.mem_cons, not_or] at h
      exact segments_cons (Ne.symm h.1) (ih h.2)

/-! ### Extending a path by a name -/

/-- What stands behind a slash is said after what stands before it, and a first component that is
no name is decided before the slash. -/
theorem components_append_slash (a b : Bytes) :
    (Path.mk (a ++ slash :: b)).components =
      (Path.mk (a ++ [slash])).components ++ (segments b).filterMap component? := by
  have absolute : (Path.mk (a ++ slash :: b)).isAbsolute = (Path.mk (a ++ [slash])).isAbsolute := by
    cases a <;> rfl
  have here : (Path.mk (a ++ slash :: b)).startsHere = (Path.mk (a ++ [slash])).startsHere := by
    obtain ⟨s, ss, hs⟩ := List.exists_cons_of_ne_nil (segments_ne_nil a)
    simp only [startsHere, segments_append_slash, hs, List.cons_append, List.head?_cons]
  have inner : (segments (a ++ slash :: b)).filterMap component? =
      (segments (a ++ [slash])).filterMap component? ++ (segments b).filterMap component? := by
    have last : (segments []).filterMap component? = [] := rfl
    rw [segments_append_slash, segments_append_slash, List.filterMap_append,
      List.filterMap_append, last, List.append_nil]
  simp only [components, absolute, here, inner]
  split
  · rfl
  · split <;> rfl

/-- A slash at the end says nothing, unless it is all there is. -/
theorem components_append_singleton_slash {a : Bytes} (h : a ≠ []) :
    (Path.mk (a ++ [slash])).components = (Path.mk a).components := by
  have absolute : (Path.mk (a ++ [slash])).isAbsolute = (Path.mk a).isAbsolute := by
    obtain ⟨c, a, rfl⟩ := List.exists_cons_of_ne_nil h
    rfl
  have here : (Path.mk (a ++ [slash])).startsHere = (Path.mk a).startsHere := by
    obtain ⟨s, ss, hs⟩ := List.exists_cons_of_ne_nil (segments_ne_nil a)
    simp only [startsHere, segments_append_slash, hs, List.cons_append, List.head?_cons]
  have inner : (segments (a ++ [slash])).filterMap component? =
      (segments a).filterMap component? := by
    have last : (segments []).filterMap component? = [] := rfl
    rw [segments_append_slash, List.filterMap_append, last, List.append_nil]
  simp only [components, absolute, here, inner]

theorem components_of_isName {n : Bytes} (h : IsName n) : (Path.mk n).components = [.name n] := by
  have absolute : (Path.mk n).isAbsolute = false := by simpa [isAbsolute] using h.head?_ne
  have here : (Path.mk n).startsHere = false := by
    simpa [startsHere, segments_of_notMem h.slash_notMem] using h.2.1
  simp [components, absolute, here, segments_of_notMem h.slash_notMem, h.component?]

/-- A path that is extended by a name ends neither in a slash nor in nothing. -/
theorem child_of_isName (p : Path) {n : Bytes} (h : IsName n) :
    p.child n = if p.bytes = [] ∨ p.bytes.getLast? = some slash then ⟨p.bytes ++ n⟩
      else ⟨p.bytes ++ slash :: n⟩ := by
  have relative : (Path.mk n).isAbsolute = false := by simpa [isAbsolute] using h.head?_ne
  rw [child, join, relative]
  rfl

theorem getLast?_child (p : Path) {n : Bytes} (h : IsName n) :
    (p.child n).bytes.getLast? = n.getLast? := by
  obtain ⟨b, hb⟩ := Option.ne_none_iff_exists'.mp (mt List.getLast?_eq_none_iff.mp h.ne_nil)
  rw [child_of_isName p h]
  split <;> simp [List.getLast?_append, List.getLast?_cons, hb]

/-- **A path that is extended by a name says that name after all it said before.** -/
theorem components_child (p : Path) {n : Bytes} (h : IsName n) :
    (p.child n).components = p.components ++ [.name n] := by
  have last : (segments n).filterMap component? = [.name n] := by
    rw [segments_of_notMem h.slash_notMem, List.filterMap_cons_some h.component?,
      List.filterMap_nil]
  rw [child_of_isName p h]
  obtain ⟨bytes⟩ := p
  -- The name stands behind a slash: the one the path ends in, or else the one that joining adds.
  split
  · next empty =>
      obtain rfl | ⟨start, rfl⟩ := empty.imp_right List.getLast?_eq_some_iff.mp
      · exact components_of_isName h
      · rw [List.append_assoc, List.singleton_append, components_append_slash, last]
  · next whole =>
      rw [components_append_slash, last,
        components_append_singleton_slash (not_or.mp whole).1]

/-! ### Extending a path by several names -/

/-- The path that leads on through the given names. -/
def descend (p : Path) (names : List Bytes) : Path := names.foldl child p

@[simp] theorem descend_nil (p : Path) : p.descend [] = p := rfl

@[simp] theorem descend_cons (p : Path) (n : Bytes) (ns : List Bytes) :
    p.descend (n :: ns) = (p.child n).descend ns := rfl

theorem components_descend {ns : List Bytes} (names : ∀ n ∈ ns, IsName n) :
    ∀ p : Path, (p.descend ns).components = p.components ++ ns.map .name := by
  induction ns with
  | nil => exact fun p => (List.append_nil _).symm
  | cons n ns ih =>
      intro p
      have hn := names n List.mem_cons_self
      rw [descend_cons, ih (fun m hm => names m (List.mem_cons_of_mem _ hm)), components_child p hn,
        List.append_assoc]
      rfl

theorem descend_append (p : Path) (ns ms : List Bytes) :
    p.descend (ns ++ ms) = (p.descend ns).descend ms := List.foldl_append

theorem length_le_child (p : Path) {n : Bytes} (hn : IsName n) :
    p.bytes.length ≤ (p.child n).bytes.length := by
  rw [child_of_isName p hn]
  split <;> simp

/-- A path that is extended gets no shorter. -/
theorem length_le_descend {ns : List Bytes} (names : ∀ m ∈ ns, IsName m) :
    ∀ p : Path, p.bytes.length ≤ (p.descend ns).bytes.length := by
  induction ns with
  | nil => exact fun p => Nat.le_refl _
  | cons n ns ih =>
      intro p
      obtain ⟨hn, names⟩ := List.forall_mem_cons.mp names
      exact Nat.le_trans (length_le_child p hn) (ih names _)

/-- The relative path that leads through the given names. -/
def relative (names : List Bytes) : Path := ⟨[slash].intercalate names⟩

theorem relative_cons_cons (n m : Bytes) (ns : List Bytes) :
    relative (n :: m :: ns) = ⟨n ++ slash :: (relative (m :: ns)).bytes⟩ := by
  simp [relative, List.intercalate]

/-- Joining with a name and more is joining with the name first. -/
theorem join_name_slash (p : Path) {n b : Bytes} (hn : IsName n) (hb : b.head? ≠ some slash) :
    p.join ⟨n ++ slash :: b⟩ = (p.child n).join ⟨b⟩ := by
  have leading : (Path.mk (n ++ slash :: b)).isAbsolute = false := by
    obtain ⟨c, n, rfl⟩ := List.exists_cons_of_ne_nil hn.ne_nil
    simpa [isAbsolute] using hn.head?_ne
  have rest : (Path.mk b).isAbsolute = false := by simpa [isAbsolute] using hb
  have last := getLast?_child p hn
  have unended : ¬ ((p.child n).bytes = [] ∨ (p.child n).bytes.getLast? = some slash) := by
    rw [← List.getLast?_eq_none_iff, last, not_or]
    exact ⟨mt List.getLast?_eq_none_iff.mp hn.ne_nil, hn.getLast?_ne⟩
  rw [join, leading, join, rest]
  simp only [Bool.false_eq_true, if_false]
  rw [if_neg unended, child_of_isName p hn]
  split
  · rw [List.append_assoc]
  · rw [List.append_assoc, List.cons_append]

theorem head?_relative {n : Bytes} (hn : IsName n) (ns : List Bytes) :
    (relative (n :: ns)).bytes.head? ≠ some slash := by
  obtain ⟨c, n, rfl⟩ := List.exists_cons_of_ne_nil hn.ne_nil
  cases ns with
  | nil => simpa [relative, List.intercalate] using hn.head?_ne
  | cons m ns =>
      rw [relative_cons_cons]
      exact hn.head?_ne

/-- **A path joined with a relative path of names leads through these names.** -/
theorem join_relative {n : Bytes} {ns : List Bytes} (names : ∀ m ∈ n :: ns, IsName m) :
    ∀ p : Path, p.join (relative (n :: ns)) = p.descend (n :: ns) := by
  induction ns generalizing n with
  | nil =>
      intro p
      rw [relative, List.intercalate_singleton]
      rfl
  | cons m ns ih =>
      intro p
      obtain ⟨hn, names⟩ := List.forall_mem_cons.mp names
      rw [relative_cons_cons, join_name_slash p hn (head?_relative (names m List.mem_cons_self) ns),
        ih names]
      rfl

/-! ### The last name -/

theorem name?_eq_some_iff {p : Path} {name : String} :
    p.name? = some name ↔ p.nameBytes? = some (Utf8.encode name) := by
  have bound : p.name? = some name ↔ ∃ b, p.nameBytes? = some b ∧ Utf8.text? b = some name :=
    Option.bind_eq_some_iff
  rw [bound]
  constructor
  · rintro ⟨b, hb, text⟩
    rw [hb, Utf8.text?_eq_some_iff.mp text]
  · exact fun h => ⟨_, h, Utf8.text?_eq_some_iff.mpr rfl⟩

/-- The last component of a path that was extended by names is the last name. -/
theorem nameBytes?_join_relative {ns : List Bytes} (names : ∀ m ∈ ns, IsName m) (nonempty : ns ≠ [])
    (p : Path) : (p.join (.relative ns)).nameBytes? = ns.getLast? := by
  obtain ⟨n, ms, rfl⟩ := List.exists_cons_of_ne_nil nonempty
  obtain ⟨last, hlast⟩ := Option.ne_none_iff_exists'.mp (mt List.getLast?_eq_none_iff.mp nonempty)
  rw [nameBytes?, join_relative names, components_descend names, List.getLast?_append,
    List.getLast?_map, hlast]
  rfl

end Path

end ProjectIndex
