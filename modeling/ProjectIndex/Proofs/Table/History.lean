import ProjectIndex.Proofs.Keys
import ProjectIndex.Proofs.Table

/-!
# Histories of insertion

A table to which items are only ever added once is decided by the first item of each key: it holds these
items as they were spelled, an item is answered with yes exactly if it is such a first one, and whatever
else is added, and in which order, leaves no trace (`insertAll_first_wins`).

Three facts about a run carry this.  All are stated for a table to start from, as the induction on the
items asks for.

* Under a key is what was there, or else the first item of the key (`item?_insertAll`).
* An item is added unless its key was there or comes earlier (`answers_insertAll`).
* Every yes makes the table larger by one item (`count_answers_add_size`).

Which keys are one key is a matter of the order: those that it puts in the same place.  For texts these are
equal texts.  For paths they are paths that say the same, and the table keeps the spelling that came first.
`FirstWins` is stated through what keys say, so that neither the order nor the shape of the table shows
in it.
-/

namespace ProjectIndex

namespace Table

variable {κ ν σ : Type} [Ord κ] {t : Table κ ν} {k k' : κ} {v : ν} {items items' : List (κ × ν)}
  {item : κ × ν}

/-! ### Runs -/

section Runs

variable [LogKey κ]

/-- Adds items one after the other, each unless its key is there.  The answers tell which were added. -/
def insertAll : (t : Table κ ν) → (items : List (κ × ν)) → Logged (List Bool × Table κ ν)
  | t, [] => pure ([], t)
  | t, item :: items => do
    let (answer, t) ← insertOnce t item.1 item.2
    let (answers, t) ← insertAll t items
    pure (answer :: answers, t)

/-- The table that is filled by adding items to none. -/
def ofItems (items : List (κ × ν)) : Table κ ν := (insertAll ∅ items).value.2

/-- The answers to adding items to an empty table. -/
def answersTo (items : List (κ × ν)) : List Bool := (insertAll ∅ items).value.1

theorem answers_insertAll_cons (t : Table κ ν) (item : κ × ν) (items : List (κ × ν)) :
    (insertAll t (item :: items)).value.1 =
      (insertOnce t item.1 item.2).value.1 ::
        (insertAll (insertOnce t item.1 item.2).value.2 items).value.1 := rfl

theorem table_insertAll_cons (t : Table κ ν) (item : κ × ν) (items : List (κ × ν)) :
    (insertAll t (item :: items)).value.2 =
      (insertAll (insertOnce t item.1 item.2).value.2 items).value.2 := rfl

/-- An item is added exactly if its key is new. -/
theorem answer_insertOnce (t : Table κ ν) (k : κ) (v : ν) :
    (insertOnce t k v).value.1 = !t.contains k := by
  unfold insertOnce
  cases present : t.contains k <;> rfl

variable [Std.TransOrd κ]

theorem contains_insertOnce (t : Table κ ν) (k : κ) (v : ν) (k' : κ) :
    (insertOnce t k v).value.2.contains k' = (t.contains k' || compare k k' == .eq) := by
  have isSome : ∀ u : Table κ ν, u.contains k' = (u.item? k').isSome := by
    intro u
    rw [contains_eq_isSome, get?_eq_map_item?, Option.isSome_map]
  rw [isSome, isSome, item?_insertOnce, Option.isSome_or]
  by_cases same : compare k k' = .eq <;> simp [same]

theorem size_insertOnce (t : Table κ ν) (k : κ) (v : ν) :
    (insertOnce t k v).value.2.size = t.size + [(insertOnce t k v).value.1].count true := by
  rw [answer_insertOnce]
  unfold insertOnce
  cases present : t.contains k with
  | true => rfl
  | false => exact size_insert_of_fresh present

/-- **Under a key is the item that was there, or else the first one that comes.** -/
theorem item?_insertAll (t : Table κ ν) (items : List (κ × ν)) (k : κ) :
    (insertAll t items).value.2.item? k =
      (t.item? k).or (items.find? fun item => compare item.1 k == .eq) := by
  induction items generalizing t with
  | nil => exact Option.or_none.symm
  | cons item items ih =>
      rw [table_insertAll_cons, ih, item?_insertOnce, Option.or_assoc, List.find?_cons]
      by_cases same : compare item.1 k = .eq
      · simp [same]
      · rw [if_neg same, Option.none_or, beq_false_of_ne same]

/-- **An item is added unless its key was there, or comes with an earlier item.** -/
theorem answers_insertAll (t : Table κ ν) (items : List (κ × ν)) (i : Nat) :
    (insertAll t items).value.1[i]? = items[i]?.map fun item =>
      !t.contains item.1 && (items.take i).all fun earlier => compare earlier.1 item.1 != .eq := by
  induction items generalizing t i with
  | nil => rfl
  | cons item items ih =>
      rw [answers_insertAll_cons]
      cases i with
      | zero => simp [answer_insertOnce]
      | succ i =>
          rw [List.getElem?_cons_succ, List.getElem?_cons_succ, ih]
          congr 1
          funext later
          -- The first item is one more that could have brought the key.
          rw [contains_insertOnce, List.take_succ_cons, List.all_cons, Bool.not_or, Bool.and_assoc]
          rfl

/-- **Every yes makes the table larger by one item.** -/
theorem count_answers_add_size (t : Table κ ν) (items : List (κ × ν)) :
    (insertAll t items).value.1.count true + t.size = (insertAll t items).value.2.size := by
  induction items generalizing t with
  | nil => exact Nat.zero_add _
  | cons item items ih =>
      rw [answers_insertAll_cons, table_insertAll_cons, ← ih, size_insertOnce, ← List.singleton_append,
        List.count_append]
      omega

end Runs

/-! ### The first item of each key -/

/-- The item is among the given ones, and no earlier one has a key that says the same. -/
def IsFirst (view : κ → σ) (items : List (κ × ν)) (item : κ × ν) : Prop :=
  ∃ before behind, items = before ++ item :: behind ∧ ∀ earlier ∈ before, view earlier.1 ≠ view item.1

omit [Ord κ] in
/-- What comes behind does not count. -/
theorem IsFirst.append {view : κ → σ} (h : IsFirst view items item) (more : List (κ × ν)) :
    IsFirst view (items ++ more) item := by
  obtain ⟨before, behind, rfl, new⟩ := h
  exact ⟨before, behind ++ more, by simp, new⟩

/-- Adding items to an empty table, each unless its key is there, lets the first one of each key win. -/
structure FirstWins [LogKey κ] [DecidableEq σ] (view : κ → σ) (items : List (κ × ν)) : Prop where
  /-- The table holds the first item of each key, spelled as it came, and nothing else. -/
  holds : ∀ item, item ∈ (ofItems items).toList ↔ IsFirst view items item
  /-- Every spelling of a key finds the value of its first item, and no other key finds anything. -/
  finds : ∀ k v, (ofItems items).get? k = some v ↔
    ∃ k', view k' = view k ∧ IsFirst view items (k', v)
  /-- There is one answer for each item: whether no earlier one has its key. -/
  answers : ∀ i : Nat, (answersTo items)[i]? = items[i]?.map fun item =>
    decide (∀ earlier ∈ items.take i, view earlier.1 ≠ view item.1)
  /-- As many items are in the table as were answered with yes. -/
  counts : (answersTo items).count true = (ofItems items).size
  /-- What is in the table at any time stays there as it is. -/
  keeps : ∀ before behind, items = before ++ behind →
    ∀ item ∈ (ofItems before).toList, item ∈ (ofItems items).toList
  /-- Items in another order fill the same table, if the same items are the first ones. -/
  reorders : ∀ items' : List (κ × ν), (∀ item, IsFirst view items' item ↔ IsFirst view items item) →
    (ofItems items').toList = (ofItems items).toList

section FirstWins

variable {view : κ → σ} (places : ∀ a b : κ, compare a b = .eq ↔ view a = view b)

include places

/-- The first item of a key is the one that a search for the key comes to. -/
theorem isFirst_iff : IsFirst view items item ↔
    items.find? (fun other => compare other.1 item.1 == .eq) = some item := by
  rw [List.find?_eq_some_iff_append]
  constructor
  · rintro ⟨before, behind, split, new⟩
    refine ⟨beq_iff_eq.mpr ((places _ _).mpr rfl), before, behind, split, ?_⟩
    intro earlier member
    simpa [places] using new earlier member
  · rintro ⟨-, before, behind, split, new⟩
    refine ⟨before, behind, split, ?_⟩
    intro earlier member
    simpa [places] using new earlier member

variable [LogKey κ] [Std.TransOrd κ]

theorem mem_ofItems : item ∈ (ofItems items).toList ↔ IsFirst view items item := by
  have empty : (∅ : Table κ ν).item? item.1 = none := rfl
  rw [mem_toList_iff, ofItems, item?_insertAll, empty, Option.none_or, isFirst_iff places]

theorem firstWins [DecidableEq σ] (items : List (κ × ν)) : FirstWins view items where
  holds _ := mem_ofItems places
  finds k v := by
    rw [get?_eq_some_iff]
    constructor
    · rintro ⟨k', same, member⟩
      exact ⟨k', ((places k k').mp same).symm, (mem_ofItems places).mp member⟩
    · rintro ⟨k', same, first⟩
      exact ⟨k', (places k k').mpr same.symm, (mem_ofItems places).mpr first⟩
  answers i := by
    rw [answersTo, answers_insertAll]
    congr 1
    funext item
    rw [Std.TreeMap.contains_emptyc, Bool.not_false, Bool.true_and, Bool.eq_iff_iff]
    simp [places]
  counts := count_answers_add_size ∅ items
  keeps := by
    rintro before behind rfl item member
    rw [mem_ofItems places] at member ⊢
    exact IsFirst.append member behind
  reorders items' same := by
    refine eq_of_pairwise_lt_of_mem_iff Std.TreeMap.ordered_keys_toList Std.TreeMap.ordered_keys_toList ?_
    intro item
    rw [mem_ofItems places, mem_ofItems places]
    exact same item

end FirstWins

/-- **The first item of each key wins, in every history of insertions**, be the keys texts or paths.  Texts
are one key if they are equal, paths if they say the same. -/
theorem insertAll_first_wins {ν : Type} :
    (∀ items : List (String × ν), FirstWins id items) ∧
      ∀ items : List (Path × ν), FirstWins Path.components items := by
  constructor
  · exact firstWins fun _ _ => Std.LawfulEqOrd.compare_eq_iff_eq
  · exact firstWins fun _ _ => Path.compare_eq_iff

/-- A path that comes again in another spelling is refused, and the first spelling stays. -/
example :
    let items := [(Path.ofString "/a//b", 1), (.ofString "/a/b/", 2), (.ofString "/a", 3)]
    answersTo items = [true, false, true] ∧
      (ofItems items).toList = [(.ofString "/a", 3), (.ofString "/a//b", 1)] := by
  cbv

end Table

end ProjectIndex
