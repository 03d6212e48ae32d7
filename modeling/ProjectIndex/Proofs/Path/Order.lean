import ProjectIndex.Path
import Mathlib.Data.List.TakeWhile

/-!
# The order of paths and what lies below a path

A path lies above another one if its components begin those of the other, which has more.  In the
order of paths everything below a path stands directly behind it: a path comes before what is below it
(`Above.lt`), and nothing else comes between two paths that are both below it or the path itself
(`Above.of_isLE`).  So in any list that is strictly increasing the paths below a path are one block
(`exists_block`).

Where neither of two paths begins the other, they are compared at the component where they part, and so is
everything below the one with everything below the other: `Apart.compare_eq`.

None of this holds of the order of spellings: a period comes before a slash, so `a.b` is a smaller
spelling than `a/b`, and stands behind it as a path.
-/

namespace ProjectIndex

theorem Component.compare_name (a b : Bytes) :
    compare (Component.name a) (Component.name b) = compare a b := by
  have unfolded : compare (Component.name a) (Component.name b) =
      (compare (3 : Nat) 3).then (compare a b) := rfl
  rw [unfolded, Std.compare_self, Ordering.eq_then]

/-! ### Lists of components -/

/-- Equal beginnings do not count. -/
theorem compare_append_left (start l m : List Component) :
    compare (start ++ l) (start ++ m) = compare l m := by
  induction start with
  | nil => rfl
  | cons c start ih =>
      rw [List.cons_append, List.cons_append, List.compare_cons_cons, Std.compare_self,
        Ordering.eq_then, ih]

theorem compare_append_lt (start : List Component) {l : List Component} (h : l ≠ []) :
    compare start (start ++ l) = .lt := by
  obtain ⟨c, l, rfl⟩ := List.exists_cons_of_ne_nil h
  have cut := compare_append_left start [] (c :: l)
  rwa [List.append_nil] at cut

/-- Lists neither of which begins the other are compared where they part, whatever follows. -/
theorem compare_append_append {l m : List Component} (hl : ¬ l <+: m) (hm : ¬ m <+: l)
    (more more' : List Component) : compare (l ++ more) (m ++ more') = compare l m := by
  induction l generalizing m with
  | nil => exact absurd List.nil_prefix hl
  | cons c l ih =>
      cases m with
      | nil => exact absurd List.nil_prefix hm
      | cons x m =>
          rw [List.cons_append, List.cons_append, List.compare_cons_cons, List.compare_cons_cons]
          by_cases same : c = x
          · subst same
            have later : ¬ l <+: m := fun start => hl (List.cons_prefix_cons.mpr ⟨rfl, start⟩)
            have later' : ¬ m <+: l := fun start => hm (List.cons_prefix_cons.mpr ⟨rfl, start⟩)
            rw [ih later later']
          -- The lists part at their first components, and the rest does not count.
          · have parted : compare c x ≠ .eq := mt Std.LawfulEqOrd.eq_of_compare same
            cases answer : compare c x with
            | lt => rfl
            | eq => exact absurd answer parted
            | gt => rfl

/-- What begins the greater of two lists and is not greater than the other one begins that one. -/
theorem isPrefix_of_isLE {start l m : List Component} (below : start <+: m)
    (lower : (compare start l).isLE) (upper : (compare l m).isLE) : start <+: l := by
  induction start generalizing l m with
  | nil => exact List.nil_prefix
  | cons c start ih =>
      obtain ⟨m, rfl, inner⟩ := List.cons_prefix_iff.mp below
      cases l with
      | nil => exact nomatch lower
      | cons x l =>
          -- The first component is bounded by `c` from both sides.
          rw [List.compare_cons_cons, Ordering.isLE_then_iff_and] at lower upper
          obtain rfl : c = x := Std.LawfulEqOrd.eq_of_compare
            (Std.OrientedCmp.isLE_antisymm lower.1 upper.1)
          rw [Std.compare_self] at lower upper
          exact List.cons_prefix_cons.mpr ⟨rfl, ih inner (lower.2.resolve_left nofun)
            (upper.2.resolve_left nofun)⟩

namespace Path

theorem compare_eq_components (p q : Path) : compare p q = compare p.components q.components := rfl

/-- The components of the first path begin those of the second one, which has more. -/
def Above (p q : Path) : Prop := p.components <+: q.components ∧ p.components ≠ q.components

instance (p q : Path) : Decidable (p.Above q) := inferInstanceAs (Decidable (_ ∧ _))

/-- A path comes before everything below it. -/
theorem Above.lt {p q : Path} (h : p.Above q) : compare p q = .lt := by
  obtain ⟨⟨more, hm⟩, ne⟩ := h
  rw [compare_eq_components, ← hm]
  refine compare_append_lt _ fun empty => ne ?_
  rw [← hm, empty, List.append_nil]

/-- What comes behind a path and not behind something below it is below it as well. -/
theorem Above.of_isLE {p q r : Path} (h : p.Above r) (lower : compare p q = .lt)
    (upper : (compare q r).isLE) : p.Above q := by
  refine ⟨isPrefix_of_isLE h.1 (Ordering.isLE_of_eq_lt lower) upper, fun same => ?_⟩
  rw [compare_eq_iff.mpr same] at lower
  exact nomatch lower

/-- The second path says the same as the first one, or lies below it. -/
def Begins (p q : Path) : Prop := p.components <+: q.components

instance (p q : Path) : Decidable (p.Begins q) := inferInstanceAs (Decidable (_ <+: _))

/-- Neither path begins the other. -/
def Apart (p q : Path) : Prop := ¬ p.Begins q ∧ ¬ q.Begins p

/-- **Paths that stand apart pass their order on to all that lies below them.** -/
theorem Apart.compare_eq {p q x y : Path} (apart : p.Apart q) (hx : p.Begins x) (hy : q.Begins y) :
    compare x y = compare p q := by
  obtain ⟨more, hx⟩ := hx
  obtain ⟨more', hy⟩ := hy
  rw [compare_eq_components, ← hx, ← hy, compare_append_append apart.1 apart.2, compare_eq_components]

variable {α : Type} {path : α → Path} {a : α} {items : List α}

/-- Behind the first path that is not below a given one no path is. -/
theorem not_above_of_mem_dropWhile
    (sorted : items.Pairwise fun b c => compare (path b) (path c) = .lt)
    (behind : ∀ b ∈ items, compare (path a) (path b) = .lt) :
    ∀ b ∈ items.dropWhile fun b => (path a).Above (path b), ¬ (path a).Above (path b) := by
  induction items with
  | nil => exact nofun
  | cons c items ih =>
      obtain ⟨lower, sorted⟩ := List.pairwise_cons.mp sorted
      obtain ⟨hc, behind⟩ := List.forall_mem_cons.mp behind
      by_cases above : (path a).Above (path c)
      · simp only [List.dropWhile_cons, above, decide_true, if_true]
        exact ih sorted behind
      -- Were a later path below that of `a`, then so would be all between the two.
      · simp only [List.dropWhile_cons, above, decide_false, Bool.false_eq_true, if_false]
        refine List.forall_mem_cons.mpr ⟨above, fun b hb further => above ?_⟩
        exact further.of_isLE hc (Ordering.isLE_of_eq_lt (lower b hb))

/-- **In a strictly increasing list what lies below a path stands directly behind it.** -/
theorem exists_block (sorted : items.Pairwise fun b c => compare (path b) (path c) = .lt)
    (ha : a ∈ items) :
    ∃ before below behind, items = before ++ a :: (below ++ behind) ∧
      (∀ b ∈ below, (path a).Above (path b)) ∧
      ∀ b ∈ before ++ behind, ¬ (path a).Above (path b) := by
  obtain ⟨before, rest, rfl⟩ := List.append_of_mem ha
  obtain ⟨-, sorted, earlier⟩ := List.pairwise_append.mp sorted
  obtain ⟨later, sorted⟩ := List.pairwise_cons.mp sorted
  refine ⟨before, rest.takeWhile fun b => (path a).Above (path b),
    rest.dropWhile fun b => (path a).Above (path b), by rw [List.takeWhile_append_dropWhile],
    fun b hb => ?_, fun b hb => ?_⟩
  · simpa using List.mem_takeWhile_imp hb
  · rcases List.mem_append.mp hb with hb | hb
    · intro above
      exact Std.OrientedCmp.not_lt_of_lt above.lt (earlier b hb a List.mem_cons_self)
    · exact not_above_of_mem_dropWhile sorted later b hb

end Path

end ProjectIndex
