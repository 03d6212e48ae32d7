import Mathlib.Data.List.SplitBy

/-!
# Lists whose items have keys

Items are sorted by where a comparison of their keys puts them.  If no two keys have the same place the
result is sorted strictly, and then it depends on the items alone and not on their order
(`mergeSort_eq_of_perm`).

A stable sort moves items by their keys and leaves those of one key as they come.  So two views settle
a list that was sorted this way: its keys in their order, and under each key the items that have it
(`eq_of_keys`).  The second view alone settles a list up to the order of its items (`perm_of_classes`).

Where the keys never fall, the items of one key stand together.  `List.splitBy` cuts such a list into
these groups, and from one group to the next the keys rise (`keysRise_splitBy`).  Turning the order of the
groups round turns the order of the keys round and moves no item within its class
(`filter_flatten_reverse`).
-/

namespace ProjectIndex

/-! ### Sorting by keys -/

section Sorting

variable {α κ : Type} {cmp : κ → κ → Ordering} [Std.TransCmp cmp] {l l' : List α}

theorem isLE_total (a b : κ) : ((cmp a b).isLE || (cmp b a).isLE) = true := by
  have swapped : cmp b a = (cmp a b).swap := Std.OrientedCmp.eq_swap
  rw [swapped]
  cases cmp a b <;> rfl

/-- Keys never fall in a sorted list. -/
theorem pairwise_isLE_mergeSort (key : α → κ) (l : List α) :
    (l.mergeSort fun a b => (cmp (key a) (key b)).isLE).Pairwise fun a b =>
      (cmp (key a) (key b)).isLE = true :=
  @List.pairwise_mergeSort _ (fun a b => (cmp (key a) (key b)).isLE)
    (fun _ _ _ => Std.TransCmp.isLE_trans) (fun a b => isLE_total (key a) (key b)) l

/-- Keys of different places rise in a sorted list. -/
theorem pairwise_lt_mergeSort {key : α → κ} (distinct : l.Pairwise fun a b => cmp (key a) (key b) ≠ .eq) :
    (l.mergeSort fun a b => (cmp (key a) (key b)).isLE).Pairwise fun a b => cmp (key a) (key b) = .lt := by
  have different := distinct.perm (List.mergeSort_perm l fun a b => (cmp (key a) (key b)).isLE).symm
    fun {a b} other same => other (Std.OrientedCmp.eq_symm same)
  refine ((pairwise_isLE_mergeSort key l).and different).imp fun {a b} h => ?_
  exact (Ordering.isLE_iff_eq_lt_or_eq_eq.mp h.1).resolve_right h.2

/-- Lists in which keys rise are the same if they have the same items. -/
theorem eq_of_pairwise_lt {key : α → κ} (perm : l'.Perm l)
    (rises' : l'.Pairwise fun a b => cmp (key a) (key b) = .lt)
    (rises : l.Pairwise fun a b => cmp (key a) (key b) = .lt) : l' = l := by
  refine perm.eq_of_pairwise (fun a b _ _ smaller greater => ?_) rises' rises
  exact absurd greater (Std.OrientedCmp.not_lt_of_lt smaller)

theorem nodup_of_pairwise_lt {key : α → κ} (rises : l.Pairwise fun a b => cmp (key a) (key b) = .lt) :
    l.Nodup := by
  refine rises.imp fun {a b} smaller equal => ?_
  have same : cmp (key b) (key b) = .eq := Std.ReflCmp.compare_self
  rw [equal, same] at smaller
  cases smaller

/-- A list in which keys rise is determined by what its items are. -/
theorem eq_of_pairwise_lt_of_mem_iff {key : α → κ}
    (rises : l.Pairwise fun a b => cmp (key a) (key b) = .lt)
    (rises' : l'.Pairwise fun a b => cmp (key a) (key b) = .lt) (same : ∀ a, a ∈ l ↔ a ∈ l') : l = l' :=
  eq_of_pairwise_lt ((List.perm_ext_iff_of_nodup (nodup_of_pairwise_lt rises)
    (nodup_of_pairwise_lt rises')).mpr same) rises rises'

/-- **Items of different keys are sorted alike, in whatever order they come.** -/
theorem mergeSort_eq_of_perm {key : α → κ} (perm : l'.Perm l)
    (distinct : l.Pairwise fun a b => cmp (key a) (key b) ≠ .eq) :
    (l'.mergeSort fun a b => (cmp (key a) (key b)).isLE) =
      l.mergeSort fun a b => (cmp (key a) (key b)).isLE := by
  have distinct' := distinct.perm perm.symm fun {a b} other same => other (Std.OrientedCmp.eq_symm same)
  exact eq_of_pairwise_lt ((List.mergeSort_perm _ _).trans (perm.trans (List.mergeSort_perm _ _).symm))
    (pairwise_lt_mergeSort distinct') (pairwise_lt_mergeSort distinct)

end Sorting

/-! ### Items of one key -/

section Classes

variable {α κ : Type} [DecidableEq κ] {key : α → κ} {l m : List α}

/-- Lists with the same keys in the same order, and the same items under each key, are equal. -/
theorem eq_of_keys (keys : l.map key = m.map key)
    (classes : ∀ k, l.filter (fun a => key a = k) = m.filter (fun a => key a = k)) : l = m := by
  induction l generalizing m with
  | nil => exact (List.map_eq_nil_iff.mp keys.symm).symm
  | cons a l ih =>
      cases m with
      | nil => exact nomatch keys
      | cons b m =>
          obtain ⟨first, rest⟩ := List.cons.inj keys
          -- Both heads come first among the items of their common key.
          have heads := classes (key a)
          rw [List.filter_cons_of_pos (by simp), List.filter_cons_of_pos (by simp [first])] at heads
          obtain ⟨rfl, -⟩ := List.cons.inj heads
          refine congrArg (a :: ·) (ih rest ?_)
          intro k
          have same := classes k
          by_cases h : key a = k
          · simpa [h] using same
          · simpa [h] using same

theorem perm_of_classes [DecidableEq α]
    (classes : ∀ k, l.filter (fun a => key a = k) = m.filter (fun a => key a = k)) : l.Perm m := by
  rw [List.perm_iff_count]
  intro a
  -- An item is counted among those of its own key.
  have counts : ∀ items : List α, (items.filter fun b => key b = key a).count a = items.count a :=
    fun items => List.count_filter (decide_eq_true rfl)
  rw [← counts l, ← counts m, classes]

end Classes

/-! ### Groups of one key -/

section Groups

variable {α : Type} {key : α → Nat} {l : List α} {groups : List (List α)}

/-- The keys rise from each group to all later ones. -/
def KeysRise (key : α → Nat) (groups : List (List α)) : Prop :=
  groups.Pairwise fun g h => ∀ a ∈ g, ∀ b ∈ h, key a < key b

theorem key_eq_of_mem_splitBy {g : List α} (hg : g ∈ l.splitBy fun a b => key a == key b) :
    ∀ a ∈ g, ∀ b ∈ g, key a = key b := by
  have chain : (g.map key).IsChain Eq :=
    (List.isChain_map key).mpr ((List.isChain_of_mem_splitBy hg).imp fun _ _ => beq_iff_eq.mp)
  have same : g.Pairwise fun a b => key a = key b :=
    List.pairwise_map.mp (List.isChain_iff_pairwise.mp chain)
  intro a ha b hb
  have : Std.Symm fun a b => key a = key b := ⟨fun _ _ => Eq.symm⟩
  exact List.Pairwise.forall_of_forall (R := fun a b => key a = key b) (fun _ _ => rfl) same ha hb

/-- **Where keys never fall, they rise from one group of equal keys to the next.** -/
theorem keysRise_splitBy (sorted : l.Pairwise fun a b => key a ≤ key b) :
    KeysRise key (l.splitBy fun a b => key a == key b) := by
  have cut := List.isChain_getLast_head_splitBy (fun a b => key a == key b) l
  have equal : ∀ g ∈ l.splitBy fun a b => key a == key b, ∀ a ∈ g, ∀ b ∈ g, key a = key b :=
    fun g hg => key_eq_of_mem_splitBy hg
  rw [← List.flatten_splitBy (fun a b => key a == key b) l, List.pairwise_flatten] at sorted
  obtain ⟨-, rising⟩ := sorted
  generalize (l.splitBy fun a b => key a == key b) = groups at cut equal rising
  induction groups with
  | nil => exact List.Pairwise.nil
  | cons g groups ih =>
      obtain ⟨above, rising⟩ := List.pairwise_cons.mp rising
      refine List.pairwise_cons.mpr ⟨?_, ih cut.tail
        (fun h hh => equal h (List.mem_cons_of_mem _ hh)) rising⟩
      intro h hh a ha b hb
      cases groups with
      | nil => exact nomatch hh
      | cons g' groups =>
          -- The key of the next group lies between: it is not that of `g`, and no later one is less.
          obtain ⟨⟨hg, hg', differ⟩, -⟩ := List.isChain_cons_cons.mp cut
          have own : key a = key (g.getLast hg) :=
            equal g List.mem_cons_self a ha _ (List.getLast_mem hg)
          have next : key a ≤ key (g'.head hg') :=
            above g' List.mem_cons_self a ha _ (List.head_mem hg')
          have behind : key (g'.head hg') ≤ key b := by
            rcases List.mem_cons.mp hh with rfl | later
            · exact Nat.le_of_eq
                (equal h (List.mem_cons_of_mem _ List.mem_cons_self) _ (List.head_mem hg') b hb)
            · exact List.rel_of_pairwise_cons rising later _ (List.head_mem hg') b hb
          have other : key (g.getLast hg) ≠ key (g'.head hg') := beq_eq_false_iff_ne.mp differ
          omega

/-- Items of one key stand in one group, so the order of the groups does not matter to them. -/
theorem filter_flatten_reverse (rise : KeysRise key groups) {p : α → Bool}
    (one : ∀ a b, p a = true → p b = true → key a = key b) :
    groups.reverse.flatten.filter p = groups.flatten.filter p := by
  induction groups with
  | nil => rfl
  | cons g groups ih =>
      obtain ⟨above, rise⟩ := List.pairwise_cons.mp rise
      rw [List.reverse_cons, List.flatten_append, List.flatten_singleton, List.filter_append, ih rise,
        List.flatten_cons, List.filter_append]
      by_cases none : g.filter p = []
      · rw [none, List.append_nil, List.nil_append]
      · obtain ⟨a, ha⟩ := List.exists_mem_of_ne_nil _ none
        obtain ⟨ha, hpa⟩ := List.mem_filter.mp ha
        have rest : groups.flatten.filter p = [] := by
          refine List.filter_eq_nil_iff.mpr fun b hb hpb => ?_
          obtain ⟨h, hh, hb⟩ := List.mem_flatten.mp hb
          exact Nat.ne_of_lt (above h hh a ha b hb) (one a b hpa hpb)
        rw [rest, List.append_nil, List.nil_append]

end Groups

end ProjectIndex
