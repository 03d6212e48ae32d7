import ProjectIndex.Table
import Mathlib.Data.List.Induction
import Mathlib.Data.List.Perm.Basic

/-!
# Filling tables

What a table holds can be seen in two ways: as the list of its keys and values, and as what is found
under each key.  For a table that is filled with items of different keys the first view is the simple
one, since the list is then made of these items and nothing else, in some order: `Adds.fill`.  Where keys
may come again the second view is the simple one, and it settles the first one (`toList_eq_of_get?`).  Of
values that are added once the first is found (`get?_insertOnce`), of values that are set the last
(`get?_putAll`); which of them this is does not matter if items of one key have one value
(`get?_putAll_emptyc`).

`item?` joins the two views: what is found under a key together with the key as it is spelled in the list.

`Adds` says what a step of filling a table does as long as keys are new.  Nothing is asked of it
for a key that is there already, so adding once and setting a value are both such steps.
-/

namespace ProjectIndex

namespace Table

variable {α κ ν : Type} [Ord κ] {t u : Table κ ν} {k k' : κ} {v : ν} {items items' : List (κ × ν)}

/-- No two of the items have the same key. -/
def DistinctKeys (items : List (κ × ν)) : Prop := items.Pairwise fun a b => compare a.1 b.1 ≠ .eq

variable [Std.TransOrd κ]

theorem DistinctKeys.perm (h : DistinctKeys items) (perm : items.Perm items') : DistinctKeys items' :=
  List.Pairwise.perm h perm fun {_ _} different same => different (Std.OrientedCmp.eq_symm same)

theorem distinctKeys_toList (t : Table κ ν) : DistinctKeys t.toList := Std.TreeMap.distinct_keys_toList

/-- What is found under a key stands in the list under a key of the same place. -/
theorem get?_eq_some_iff : t.get? k = some v ↔ ∃ k', compare k k' = .eq ∧ (k', v) ∈ t.toList :=
  Std.TreeMap.getElem?_eq_some_iff_exists_compare_eq_eq_and_mem_toList

theorem contains_eq_isSome : t.contains k = (t.get? k).isSome :=
  Std.TreeMap.contains_eq_isSome_getElem?

/-- What is in the list is found. -/
theorem get?_of_mem (member : (k, v) ∈ t.toList) (same : compare k' k = .eq) : t.get? k' = some v :=
  get?_eq_some_iff.mpr ⟨k, same, member⟩

/-- Tables in which the same is found under every key are the same list. -/
theorem toList_eq_of_get? [Std.LawfulEqOrd κ] (same : ∀ k, t.get? k = u.get? k) :
    t.toList = u.toList := by
  have nodup : ∀ t : Table κ ν, t.toList.Nodup := fun t =>
    (distinctKeys_toList t).imp fun {a b} different (equal : a = b) =>
      different (by rw [equal, Std.compare_self])
  have members : ∀ item, item ∈ t.toList ↔ item ∈ u.toList := fun (k, v) => by
    rw [Std.TreeMap.mem_toList_iff_getElem?_eq_some, Std.TreeMap.mem_toList_iff_getElem?_eq_some]
    exact Eq.congr_left (same k)
  have perm := (List.perm_ext_iff_of_nodup (nodup t) (nodup u)).mpr members
  exact (Std.TreeMap.Equiv.of_toList_perm perm).toList_eq

/-! ### Items under their keys -/

/-- The item under a key: the key as it is spelled in the table, with its value. -/
def item? (t : Table κ ν) (k : κ) : Option (κ × ν) :=
  t.toList.find? fun item => compare item.1 k == .eq

theorem item?_eq_some_iff : t.item? k = some (k', v) ↔ t.getKey? k = some k' ∧ t.get? k = some v :=
  Std.TreeMap.find?_toList_eq_some_iff_getKey?_eq_some_and_getElem?_eq_some

theorem item?_eq_none_iff : t.item? k = none ↔ t.contains k = false :=
  Std.TreeMap.find?_toList_eq_none_iff_contains_eq_false

theorem get?_eq_map_item? (t : Table κ ν) (k : κ) : t.get? k = (t.item? k).map Prod.snd := by
  cases held : t.item? k with
  | some item => exact (item?_eq_some_iff.mp held).2
  | none =>
      rw [item?_eq_none_iff, contains_eq_isSome] at held
      exact Option.not_isSome_iff_eq_none.mp (Bool.not_eq_true _ ▸ held)

theorem getKey?_eq_map_item? (t : Table κ ν) (k : κ) : t.getKey? k = (t.item? k).map Prod.fst := by
  cases held : t.item? k with
  | some item => exact (item?_eq_some_iff.mp held).1
  | none => exact Std.TreeMap.getKey?_eq_none_of_contains_eq_false (item?_eq_none_iff.mp held)

/-- Keys of the same place have the same item. -/
theorem item?_congr (same : compare k k' = .eq) : t.item? k = t.item? k' := by
  unfold item?
  congr 1
  funext item
  rw [Std.TransCmp.congr_right same]

/-- The items of a table are those that are found under their own keys. -/
theorem mem_toList_iff {item : κ × ν} : item ∈ t.toList ↔ t.item? item.1 = some item := by
  obtain ⟨k, v⟩ := item
  rw [item?_eq_some_iff]
  exact Std.TreeMap.mem_toList_iff_getKey?_eq_some_and_getElem?_eq_some

theorem item?_insert (t : Table κ ν) (k : κ) (v : ν) (k' : κ) :
    item? (t.insert k v) k' = if compare k k' = .eq then some (k, v) else t.item? k' := by
  ext ⟨k'', w⟩
  have value : (t.insert k v).get? k' = if compare k k' = .eq then some v else t.get? k' :=
    Std.TreeMap.getElem?_insert
  rw [item?_eq_some_iff, Std.TreeMap.getKey?_insert, value]
  split
  · simp only [Option.some.injEq, Prod.mk.injEq]
  · exact item?_eq_some_iff.symm

/-! ### New keys -/

theorem contains_insert_of_ne (different : compare k k' ≠ .eq) :
    (t.insert k v).contains k' = t.contains k' := by
  rw [Std.TreeMap.contains_insert, beq_false_of_ne different, Bool.false_or]

/-- A new key with its value is one more item. -/
theorem toList_insert_of_fresh (fresh : t.contains k = false) :
    (t.insert k v).toList.Perm ((k, v) :: t.toList) := by
  let : BEq κ := ⟨fun a b => compare a b == .eq⟩
  have : Std.LawfulBEqCmp (compare : κ → κ → Ordering) := ⟨fun {a b} => beq_iff_eq.symm⟩
  have kept : t.toList.filter (fun x => decide ¬(k == x.1) = true) = t.toList := by
    refine List.filter_eq_self.mpr fun x member => decide_eq_true fun same => ?_
    have found := get?_of_mem member (beq_iff_eq.mp same)
    rw [contains_eq_isSome, found] at fresh
    cases fresh
  have all := Std.TreeMap.toList_insert_perm (t := t) (k := k) (v := v)
  rwa [kept] at all

theorem size_insert_of_fresh (fresh : t.contains k = false) : (t.insert k v).size = t.size + 1 := by
  rw [Std.TreeMap.size_insert, fresh]
  rfl

theorem put_of_fresh (fresh : t.contains k = false) : put t k v = t.insert k v := by
  have absent : k ∉ t := fun member => by
    rw [Std.TreeMap.mem_iff_contains, fresh] at member
    cases member
  rw [put, Std.TreeMap.getKeyD_eq_fallback absent]

omit [Std.TransOrd κ] in
theorem insertOnce_of_fresh [LogKey κ] (fresh : t.contains k = false) :
    insertOnce t k v = pure (true, t.insert k v) := by
  rw [insertOnce, fresh]
  rfl

/-- **A key that is added once keeps the item that came first.** -/
theorem item?_insertOnce [LogKey κ] (t : Table κ ν) (k : κ) (v : ν) (k' : κ) :
    item? (insertOnce t k v).value.2 k' =
      (t.item? k').or (if compare k k' = .eq then some (k, v) else none) := by
  unfold insertOnce
  split
  · next present =>
      show t.item? k' = _
      split
      · next same =>
          have there : t.item? k' ≠ none := by
            rw [Ne, item?_eq_none_iff, ← Std.TreeMap.contains_congr same, present]
            exact nofun
          obtain ⟨item, held⟩ := Option.ne_none_iff_exists'.mp there
          rw [held, Option.some_or]
      · rw [Option.or_none]
  · next absent =>
      show item? (t.insert k v) k' = _
      rw [item?_insert]
      split
      · next same =>
          have missing : t.item? k' = none := by
            rw [item?_eq_none_iff, ← Std.TreeMap.contains_congr same]
            exact Bool.not_eq_true _ ▸ absent
          rw [missing, Option.none_or]
      · rw [Option.or_none]

theorem get?_insertOnce [LogKey κ] (t : Table κ ν) (k : κ) (v : ν) (k' : κ) :
    (insertOnce t k v).value.2.get? k' =
      (t.get? k').or (if compare k k' = .eq then some v else none) := by
  rw [get?_eq_map_item?, get?_eq_map_item?, item?_insertOnce, Option.map_or]
  split <;> rfl

/-! ### Setting values -/

/-- The key under which a value is set is the key itself, if not as it is spelled. -/
theorem compare_getKeyD_self (t : Table κ ν) (k : κ) : compare (t.getKeyD k k) k = .eq := by
  by_cases present : k ∈ t
  · rw [← Std.TreeMap.getKey_eq_getKeyD (h := present)]
    exact Std.TreeMap.compare_getKey_self present
  · rw [Std.TreeMap.getKeyD_eq_fallback present, Std.compare_self]

/-- A value that is set is found under its key, as it was spelled first, and nothing else changes. -/
theorem item?_put (t : Table κ ν) (k : κ) (v : ν) (k' : κ) :
    item? (put t k v) k' =
      if compare k k' = .eq then some (((t.item? k').map Prod.fst).getD k, v) else t.item? k' := by
  rw [put, item?_insert, Std.TransCmp.congr_left (compare_getKeyD_self t k)]
  split
  · next same =>
      have spelled : t.getKeyD k k = ((t.item? k').map Prod.fst).getD k := by
        rw [Std.TreeMap.getKeyD_eq_getD_getKey?, getKey?_eq_map_item?, item?_congr same]
      rw [spelled]
  · rfl

theorem get?_put (t : Table κ ν) (k : κ) (v : ν) (k' : κ) :
    (put t k v).get? k' = if compare k k' = .eq then some v else t.get? k' := by
  rw [get?_eq_map_item?, get?_eq_map_item?, item?_put]
  split <;> rfl

/-- Sets the values of items one after the other. -/
def putAll (t : Table κ ν) (items : List (κ × ν)) : Table κ ν :=
  items.foldl (fun t item => put t item.1 item.2) t

/-- **The last of the values that are set under a key is found.** -/
theorem get?_putAll (t : Table κ ν) (items : List (κ × ν)) (k : κ) :
    (putAll t items).get? k =
      ((items.reverse.find? fun item => compare item.1 k = .eq).map Prod.snd).or (t.get? k) := by
  induction items generalizing t with
  | nil => rfl
  | cons item items ih =>
      have first : (put t item.1 item.2).get? k =
          (([item].find? fun item => compare item.1 k = .eq).map Prod.snd).or (t.get? k) := by
        rw [get?_put, List.find?_singleton]
        by_cases same : compare item.1 k = .eq <;> simp [same]
      show (putAll (put t item.1 item.2) items).get? k = _
      rw [ih, first, List.reverse_cons, List.find?_append, Option.map_or, Option.or_assoc]

/-- Items of one key have one value. -/
def Consistent (items : List (κ × ν)) : Prop :=
  ∀ a ∈ items, ∀ b ∈ items, compare a.1 b.1 = .eq → a.2 = b.2

/-- **What is found after setting values is what the items say**, if they do not contradict each other. -/
theorem get?_putAll_emptyc (consistent : Consistent items) :
    (putAll ∅ items).get? k = some v ↔ ∃ k', compare k k' = .eq ∧ (k', v) ∈ items := by
  have nothing : (∅ : Table κ ν).get? k = none := Std.TreeMap.getElem?_emptyc
  rw [get?_putAll, nothing, Option.or_none, Option.map_eq_some_iff]
  constructor
  · rintro ⟨⟨k', _⟩, found, rfl⟩
    have same := List.find?_some found
    rw [decide_eq_true_iff] at same
    exact ⟨k', Std.OrientedCmp.eq_symm same, List.mem_reverse.mp (List.mem_of_find?_eq_some found)⟩
  · rintro ⟨k', same, member⟩
    have same' : compare k' k = .eq := Std.OrientedCmp.eq_symm same
    cases found : items.reverse.find? fun item => compare item.1 k = .eq with
    | none =>
        have missing := List.find?_eq_none.mp found _ (List.mem_reverse.mpr member)
        exact absurd (decide_eq_true same') missing
    | some item =>
        have member' := List.mem_reverse.mp (List.mem_of_find?_eq_some found)
        have alike := List.find?_some found
        rw [decide_eq_true_iff] at alike
        exact ⟨item, rfl, consistent item member' _ member (Std.TransCmp.eq_trans alike same)⟩

/-- **A table that is made by setting values holds the first item of each key**, if items of one key do not
contradict each other. -/
theorem item?_putAll_emptyc (consistent : Consistent items) (k : κ) :
    (putAll ∅ items).item? k = items.find? fun item => compare item.1 k == .eq := by
  induction items using List.reverseRecOn with
  | nil => rfl
  | append_singleton items item ih =>
      have earlier : Consistent items := fun a ha b hb =>
        consistent a (List.mem_append_left _ ha) b (List.mem_append_left _ hb)
      have last : putAll ∅ (items ++ [item]) = put (putAll ∅ items) item.1 item.2 := by
        rw [putAll, List.foldl_append]
        rfl
      rw [last, item?_put, ih earlier, List.find?_append, List.find?_singleton]
      cases first : items.find? fun item => compare item.1 k == .eq with
      | none => by_cases same : compare item.1 k = .eq <;> simp [same]
      | some other =>
          by_cases same : compare item.1 k = .eq
          · -- The value set last is that of the first item.
            have alike : compare other.1 item.1 = .eq :=
              Std.TransCmp.eq_trans (by simpa using List.find?_some first) (Std.OrientedCmp.eq_symm same)
            have value := consistent other (List.mem_append_left _ (List.mem_of_find?_eq_some first)) item
              (List.mem_append_right _ List.mem_cons_self) alike
            simp [same, ← value]
          · simp [same]

/-! ### Filling a table step by step -/

/-- A step that adds the item of what it is given, provided that there is one and its key is new.  What
it reports then does not depend on the table. -/
structure Adds (step : Table κ ν → α → Logged (Table κ ν)) (item : α → Option (κ × ν))
    (reports : α → List LogEvent) : Prop where
  nothing : ∀ t a, item a = none → step t a = ⟨t, reports a⟩
  fresh : ∀ t a k v, item a = some (k, v) → t.contains k = false → step t a = ⟨t.insert k v, reports a⟩

/-- **A table that is filled with items of different new keys holds these items besides what it held
before.** -/
theorem Adds.fill {step : Table κ ν → α → Logged (Table κ ν)} {item : α → Option (κ × ν)}
    {reports : α → List LogEvent} (h : Adds step item reports) {l : List α}
    (distinct : DistinctKeys (l.filterMap item))
    (fresh : ∀ e ∈ l.filterMap item, t.contains e.1 = false) :
    (l.foldlM step t).events = l.flatMap reports ∧
      (l.foldlM step t).value.toList.Perm (l.filterMap item ++ t.toList) := by
  induction l generalizing t with
  | nil => exact ⟨rfl, .refl _⟩
  | cons a l ih =>
      rw [List.foldlM_cons, Logged.events_bind, Logged.value_bind, List.flatMap_cons]
      cases added : item a with
      | none =>
          rw [List.filterMap_cons_none added] at distinct fresh ⊢
          rw [h.nothing t a added]
          obtain ⟨events, list⟩ := ih distinct fresh
          exact ⟨congrArg _ events, list⟩
      | some e =>
          obtain ⟨k, v⟩ := e
          rw [List.filterMap_cons_some added] at distinct fresh ⊢
          obtain ⟨others, distinct⟩ := List.pairwise_cons.mp distinct
          obtain ⟨new, fresh⟩ := List.forall_mem_cons.mp fresh
          rw [h.fresh t a k v added new]
          have later : ∀ e ∈ l.filterMap item, (t.insert k v).contains e.1 = false := fun e member => by
            rw [contains_insert_of_ne (others e member)]
            exact fresh e member
          obtain ⟨events, list⟩ := ih distinct later
          exact ⟨congrArg _ events,
            list.trans (((toList_insert_of_fresh new).append_left _).trans List.perm_middle)⟩

omit [Std.TransOrd κ] in
theorem toList_emptyc : (∅ : Table κ ν).toList = [] := rfl

/-- A table that is filled from nothing with items of different keys holds these items. -/
theorem Adds.fill_emptyc {step : Table κ ν → α → Logged (Table κ ν)} {item : α → Option (κ × ν)}
    {reports : α → List LogEvent} (h : Adds step item reports) {l : List α}
    (distinct : DistinctKeys (l.filterMap item)) :
    (l.foldlM step ∅).events = l.flatMap reports ∧
      (l.foldlM step ∅).value.toList.Perm (l.filterMap item) := by
  have filled := h.fill (t := ∅) distinct fun _ _ => Std.TreeMap.contains_emptyc
  rwa [toList_emptyc, List.append_nil] at filled

end Table

end ProjectIndex
