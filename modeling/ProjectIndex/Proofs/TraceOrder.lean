import ProjectIndex.Choice
import ProjectIndex.Proofs.Keys

/-!
# The order of source files

Both orders by depth, refined by the order of paths, are total, and they tell apart any two paths that
do not say the same (`TraceOrder.comparePaths_eq_iff`).  So sources with different paths are sorted
strictly, and the first source with a property is the least one that has it:
`TraceOrder.least_of_find?_sort`.

`TraceOrder.Precedes` says what the order is without comparisons.  In a list that is sorted by it, what
the paths say and how often is settled (`Sorted.components_eq`); which spelling stands where is
settled as well by the order in which entries of one path come, and sorting keeps that order
(`filter_sort`).  So `sort_eq_iff` says all there is to say about sorting, and the two orders can be
turned into each other (`sort_deepFirst`).
-/

namespace ProjectIndex

namespace TraceOrder

variable {o : TraceOrder} {p q : Path} {entries : List Entry}

/-! ### The comparison -/

instance (o : TraceOrder) : Std.TransCmp o.compareDepth :=
  match o with
  | shallowFirst => inferInstanceAs (Std.TransCmp (compareOn Path.depth))
  | deepFirst => @Std.TransCmp.opposite _ (compareOn Path.depth) _

instance (o : TraceOrder) : Std.TransCmp o.comparePaths :=
  inferInstanceAs (Std.TransCmp (compareLex o.compareDepth compare))

/-- Only paths that say the same have the same place. -/
theorem comparePaths_eq_iff : o.comparePaths p q = .eq ↔ p.components = q.components := by
  rw [comparePaths, Ordering.then_eq_eq, Path.compare_eq_iff, and_iff_right_iff_imp]
  intro same
  have depth : p.depth = q.depth := congrArg List.length same
  cases o <;> rw [compareDepth, depth, Std.compare_self]

theorem comparePaths_congr {p' q' : Path} (hp : p.components = p'.components)
    (hq : q.components = q'.components) : o.comparePaths p q = o.comparePaths p' q' := by
  have depths : p.depth = p'.depth ∧ q.depth = q'.depth :=
    ⟨congrArg List.length hp, congrArg List.length hq⟩
  have paths : compare p q = compare p' q' := by
    show compare p.components q.components = compare p'.components q'.components
    rw [hp, hq]
  cases o with
  | shallowFirst => rw [comparePaths, comparePaths, compareDepth, compareDepth, depths.1, depths.2, paths]
  | deepFirst => rw [comparePaths, comparePaths, compareDepth, compareDepth, depths.1, depths.2, paths]

/-- The first path may stand before the second one: it has the depth that comes first, or the depths
are equal and it is not the greater path. -/
def Precedes (o : TraceOrder) (p q : Path) : Prop :=
  (match o with
    | shallowFirst => p.depth < q.depth
    | deepFirst => q.depth < p.depth) ∨
  p.depth = q.depth ∧ (compare p q).isLE = true

theorem isLE_compare_then {m n : Nat} {c : Ordering} :
    ((compare m n).then c).isLE = true ↔ m < n ∨ m = n ∧ c.isLE = true := by
  rcases Nat.lt_trichotomy m n with less | rfl | more
  · simp [Nat.compare_eq_lt.mpr less, less]
  · simp
  · simp [Nat.compare_eq_gt.mpr more, Nat.lt_asymm more, Nat.ne_of_gt more]

theorem precedes_iff : o.Precedes p q ↔ (o.comparePaths p q).isLE = true := by
  cases o with
  | shallowFirst => exact isLE_compare_then.symm
  | deepFirst =>
      unfold Precedes comparePaths compareDepth
      rw [isLE_compare_then, eq_comm (a := q.depth)]

/-- The entries stand in the order. -/
def Sorted (o : TraceOrder) (entries : List Entry) : Prop :=
  entries.Pairwise fun a b => o.Precedes a.path b.path

/-! ### Sorting -/

theorem sort_perm (o : TraceOrder) (entries : List Entry) : (o.sort entries).Perm entries :=
  List.mergeSort_perm entries _

@[simp] theorem mem_sort {e : Entry} : e ∈ o.sort entries ↔ e ∈ entries := List.mem_mergeSort

theorem sort_sorted (o : TraceOrder) (entries : List Entry) : o.Sorted (o.sort entries) := by
  have rises : (o.sort entries).Pairwise fun a b => (o.comparePaths a.path b.path).isLE = true :=
    pairwise_isLE_mergeSort Entry.path entries
  exact rises.imp precedes_iff.mpr

/-- Paths that say different things have different places in the order. -/
theorem distinct_places (distinct : entries.Pairwise fun a b => a.path.components ≠ b.path.components) :
    entries.Pairwise fun a b => o.comparePaths a.path b.path ≠ .eq :=
  distinct.imp (mt comparePaths_eq_iff.mp)

/-- Entries whose paths say different things are sorted strictly. -/
theorem sort_pairwise (o : TraceOrder)
    (distinct : entries.Pairwise fun a b => a.path.components ≠ b.path.components) :
    (o.sort entries).Pairwise fun a b => o.comparePaths a.path b.path = .lt :=
  pairwise_lt_mergeSort (distinct_places distinct)

/-- Entries whose paths say different things are sorted alike, in whatever order they come. -/
theorem sort_congr {entries' : List Entry} (perm : entries'.Perm entries)
    (distinct : entries.Pairwise fun a b => a.path.components ≠ b.path.components) :
    o.sort entries' = o.sort entries :=
  mergeSort_eq_of_perm perm (distinct_places distinct)

/-- **The first of the sorted entries with a property is the least one that has it.** -/
theorem least_of_find?_sort {e : Entry} {property : Entry → Bool}
    (distinct : entries.Pairwise fun a b => a.path.components ≠ b.path.components)
    (found : (o.sort entries).find? property = some e) :
    (e ∈ entries ∧ property e = true) ∧
      ∀ f ∈ entries, property f = true → f = e ∨ o.comparePaths e.path f.path = .lt := by
  obtain ⟨has, before, behind, split, none⟩ := List.find?_eq_some_iff_append.mp found
  have sorted := sort_pairwise o distinct
  rw [split] at sorted
  refine ⟨⟨mem_sort.mp (List.mem_of_find?_eq_some found), has⟩, fun f hf hasToo => ?_⟩
  rw [← mem_sort (o := o), split, List.mem_append, List.mem_cons] at hf
  rcases hf with earlier | rfl | later
  · exact absurd hasToo (by simpa using none f earlier)
  · exact .inl rfl
  · exact .inr (List.rel_of_pairwise_cons (List.pairwise_append.mp sorted).2.1 later)

/-! ### What sorting settles -/

/-- Sorted lists of the same entries say the same, place by place. -/
theorem Sorted.components_eq {l m : List Entry} (hl : o.Sorted l) (hm : o.Sorted m) (perm : l.Perm m) :
    l.map (·.path.components) = m.map (·.path.components) := by
  -- The order, as a relation between what two paths say.
  let Before : List Component → List Component → Prop := fun x y =>
    ∃ p q : Path, p.components = x ∧ q.components = y ∧ (o.comparePaths p q).isLE = true
  have ordered : ∀ {items : List Entry}, o.Sorted items →
      (items.map (·.path.components)).Pairwise Before := fun sorted =>
    List.pairwise_map.mpr (sorted.imp fun {a b} h => ⟨a.path, b.path, rfl, rfl, precedes_iff.mp h⟩)
  refine List.Perm.eq_of_pairwise ?_ (ordered hl) (ordered hm) (perm.map _)
  rintro x y - - ⟨p, q, rfl, rfl, lower⟩ ⟨q', p', hq, hp, upper⟩
  rw [comparePaths_congr hq hp] at upper
  exact comparePaths_eq_iff.mp (Std.OrientedCmp.isLE_antisymm lower upper)

/-- **Sorting keeps the order of entries whose paths say the same.** -/
theorem filter_sort (o : TraceOrder) (entries : List Entry) (said : List Component) :
    (o.sort entries).filter (fun e => e.path.components = said) =
      entries.filter fun e => e.path.components = said := by
  have alike : (entries.filter fun e => e.path.components = said).Pairwise fun a b =>
      (o.comparePaths a.path b.path).isLE = true := by
    refine List.pairwise_of_forall_mem_list fun a ha b hb => ?_
    have same : a.path.components = b.path.components := by
      rw [of_decide_eq_true (List.mem_filter.mp ha).2, of_decide_eq_true (List.mem_filter.mp hb).2]
    rw [comparePaths_eq_iff.mpr same]
    rfl
  have kept : (entries.filter fun e => e.path.components = said).Sublist (o.sort entries) :=
    @List.sublist_mergeSort _ (fun a b : Entry => (o.comparePaths a.path b.path).isLE) _
      (fun _ _ _ => Std.TransCmp.isLE_trans) (fun a b => isLE_total a.path b.path) _ alike
      List.filter_sublist
  have inside := kept.filter fun e => e.path.components = said
  rw [List.filter_filter] at inside
  simp only [Bool.and_self] at inside
  exact (inside.eq_of_length ((sort_perm o entries).symm.filter _).length_eq).symm

/-- **A list is the sorted one exactly if it is sorted and has the same entries for each path, in the
same order.** -/
theorem sort_eq_iff {l : List Entry} : l = o.sort entries ↔ o.Sorted l ∧ ∀ said,
    l.filter (fun e => e.path.components = said) = entries.filter fun e => e.path.components = said := by
  constructor
  · rintro rfl
    exact ⟨sort_sorted o entries, filter_sort o entries⟩
  · rintro ⟨sorted, classes⟩
    have same : ∀ said, l.filter (fun e => e.path.components = said) =
        (o.sort entries).filter fun e => e.path.components = said := fun said =>
      (classes said).trans (filter_sort o entries said).symm
    exact eq_of_keys (sorted.components_eq (sort_sorted o entries) (perm_of_classes same)) same

/-! ### The two orders -/

/-- **The deepest files come first if the groups of one depth are taken in reverse order, each group as
it is.** -/
theorem sort_deepFirst (entries : List Entry) :
    deepFirst.sort entries =
      ((shallowFirst.sort entries).splitBy fun a b => a.depth == b.depth).reverse.flatten := by
  have sorted := sort_sorted shallowFirst entries
  have rising : (shallowFirst.sort entries).Pairwise fun a b => a.depth ≤ b.depth :=
    sorted.imp fun {a b} h => h.elim Nat.le_of_lt fun same => Nat.le_of_eq same.1
  have rise := keysRise_splitBy rising
  have equal : ∀ g ∈ (shallowFirst.sort entries).splitBy fun a b => a.depth == b.depth,
      ∀ a ∈ g, ∀ b ∈ g, a.depth = b.depth := fun g hg => key_eq_of_mem_splitBy hg
  have whole := List.flatten_splitBy (fun a b : Entry => a.depth == b.depth) (shallowFirst.sort entries)
  have ordered := sorted
  rw [← whole, Sorted, List.pairwise_flatten] at ordered
  refine (sort_eq_iff.mpr ⟨?_, fun said => ?_⟩).symm
  · refine List.pairwise_flatten.mpr ⟨fun g hg => ?_, ?_⟩
    · -- Within a group the depths say nothing, in either order.
      have hg := List.mem_reverse.mp hg
      refine (ordered.1 g hg).imp_of_mem fun {a b} ha hb h => ?_
      have same : a.path.depth = b.path.depth := equal g hg a ha b hb
      exact .inr (h.resolve_left (Nat.not_lt_of_le (Nat.le_of_eq same.symm)))
    · exact List.pairwise_reverse.mpr (rise.imp fun h a ha b hb => .inl (h b hb a ha))
  · rw [filter_flatten_reverse rise, whole, filter_sort]
    intro a b ha hb
    exact congrArg List.length ((of_decide_eq_true ha).trans (of_decide_eq_true hb).symm)

end TraceOrder

end ProjectIndex
