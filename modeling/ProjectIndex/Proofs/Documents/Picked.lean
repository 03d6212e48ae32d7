import Mathlib
import ProjectIndex.Document
import ProjectIndex.Proofs.Keys

/-!
# One of several copies

Several entries may bear the name of a document.  Which of these copies is loaded is said by its place among
them in the order of paths, counted from the front or from the back: `Disk.loadPicked_by_place`.

Two things come together here.  Counting is arithmetic of places (`Pick.select_fromEnd`), and it ends in
nothing where the places end, on both sides.  And the places are those of the sorted copies, so that the
order in which entries are given cannot show as long as no two paths say the same.  Sorting is by
components: `/a/x` stands before `/a-b/x` and `/a.b/x`, though it is the greatest of the three spellings.
-/

namespace ProjectIndex

/-! ### Counting -/

namespace Pick

variable {α : Type} {items : List α} {pick : Pick} {i j : Nat}

theorem select_nil (pick : Pick) : pick.select ([] : List α) = none := by
  cases pick <;> simp [select]

theorem select_last (items : List α) : last.select items = items[items.length - 1]? :=
  List.getLast?_eq_getElem?

/-- The first and the last of some items are items. -/
theorem exists_select (outermost : pick = first ∨ pick = last) (nonempty : items ≠ []) :
    ∃ a ∈ items, pick.select items = some a := by
  rcases outermost with rfl | rfl
  · exact ⟨_, List.head_mem nonempty, List.head?_eq_some_head nonempty⟩
  · exact ⟨_, List.getLast_mem nonempty, List.getLast?_eq_some_getLast nonempty⟩

/-- Counting from the back is counting from the front of the list in reverse. -/
theorem select_fromEnd (i : Nat) (items : List α) :
    (fromEnd i).select items = (nth i).select items.reverse := by
  rw [select, select]
  split
  · next inside => exact (List.getElem?_reverse inside).symm
  · next outside => exact (List.getElem?_eq_none (by simpa using outside)).symm

/-- The places counted from both sides meet. -/
theorem select_nth_eq_fromEnd (meet : i + j + 1 = items.length) :
    (nth i).select items = (fromEnd j).select items := by
  have inside : j < items.length := by omega
  have place : items.length - 1 - j = i := by omega
  rw [select, select, if_pos inside, place]

end Pick

/-! ### The copies -/

/-- The entries of a name, in the order of their paths. -/
def copiesOf (tree : List Entry) (name : String) : List Entry := sortByPath (tree.filter (·.isNamed name))

section Copies

variable {tree tree' : List Entry} {name : String}

theorem copiesOf_perm (tree : List Entry) (name : String) :
    (copiesOf tree name).Perm (tree.filter (·.isNamed name)) := List.mergeSort_perm _ _

section DistinctPaths

variable (distinct : tree.Pairwise fun a b => a.path.components ≠ b.path.components)

include distinct

theorem distinct_named : (tree.filter (·.isNamed name)).Pairwise fun a b => compare a.path b.path ≠ .eq :=
  (distinct.filter _).imp (mt Path.compare_eq_iff.mp)

theorem copiesOf_increasing : (copiesOf tree name).Pairwise fun a b => compare a.path b.path = .lt :=
  pairwise_lt_mergeSort (distinct_named distinct)

theorem copiesOf_congr (perm : tree'.Perm tree) : copiesOf tree' name = copiesOf tree name :=
  mergeSort_eq_of_perm (perm.filter _) (distinct_named distinct)

end DistinctPaths

/-- Copies that are given in the order of their paths are not moved. -/
theorem copiesOf_of_increasing (rises : tree.Pairwise fun a b => compare a.path b.path = .lt) :
    copiesOf tree name = tree.filter (·.isNamed name) := by
  refine List.mergeSort_of_pairwise ((rises.filter _).imp fun {a b} smaller => ?_)
  rw [smaller]
  rfl

end Copies

namespace Disk

variable {d : Disk} {tree tree' : List Entry} {name : String} {pick : Pick} {allowEmpty : Bool}

/-- The outcome of loading a copy; there may be none. -/
def outcomeOf (d : Disk) (allowEmpty : Bool) (copy : Option Entry) : Outcome :=
  copy.elim .notFound fun e => (d.loadDocument e.path allowEmpty).value

theorem value_loadPicked : (d.loadPicked tree name pick allowEmpty).value =
    d.outcomeOf allowEmpty (pick.select (copiesOf tree name)) := by
  rw [loadPicked, findNamed, copiesOf]
  cases named : tree.filter (·.isNamed name) with
  | nil =>
      have sorted : sortByPath [] = [] := List.mergeSort_nil
      rw [sorted, Pick.select_nil]
      rfl
  | cons e es =>
      rw [nonEmpty?_of_ne_nil (List.cons_ne_nil e es)]
      dsimp only
      split
      · cases pick.select (sortByPath (e :: es)) <;> rfl
      · cases pick.select (sortByPath (e :: es)) <;> rfl

/-- Only the sorted copies count, for what is loaded and for what is reported. -/
theorem loadPicked_congr (same : copiesOf tree' name = copiesOf tree name) :
    d.loadPicked tree' name pick allowEmpty = d.loadPicked tree name pick allowEmpty := by
  have lengths := (copiesOf_perm tree name).length_eq
  rw [← same, (copiesOf_perm tree' name).length_eq] at lengths
  rw [loadPicked, loadPicked, findNamed, findNamed]
  unfold copiesOf at same
  cases named : tree.filter (·.isNamed name) with
  | nil =>
      rw [named, List.length_nil, List.length_eq_zero_iff] at lengths
      rw [lengths]
  | cons e es =>
      have nonempty : tree'.filter (·.isNamed name) ≠ [] := fun empty => by
        rw [named, empty] at lengths
        cases lengths
      rw [named] at same
      rw [nonEmpty?_of_ne_nil nonempty, nonEmpty?_of_ne_nil (List.cons_ne_nil e es)]
      simp only [same]

/-- **A copy is picked by its place among all copies in the order of paths.**  Let no two entries of a tree
have paths that say the same.
* The copies are the entries of the name, in strictly rising order.
* The first and the last one are what their names say; the others are counted from the front or from the
  back, from zero.  Where there is no copy of that place, there is no document.
* The entries may be given in any order: the outcome is the same, and so is what is reported.
* The place `i` from the front is the place `j` from the back if `i` copies lie before it and `j` behind.
  Counting from the back is counting from the front of the copies in reverse. -/
theorem loadPicked_by_place (d : Disk) {tree : List Entry}
    (distinct : tree.Pairwise fun a b => a.path.components ≠ b.path.components)
    (name : String) (allowEmpty : Bool) :
    let copies := sortByPath (tree.filter (·.isNamed name))
    let picked := fun pick => (d.loadPicked tree name pick allowEmpty).value
    let outcome := fun copy : Option Entry =>
      copy.elim .notFound fun e => (d.loadDocument e.path allowEmpty).value
    copies.Perm (tree.filter (·.isNamed name)) ∧
      (copies.Pairwise fun a b => compare a.path b.path = .lt) ∧
      picked .first = outcome copies[0]? ∧
      picked .last = outcome copies[copies.length - 1]? ∧
      (∀ i, picked (.nth i) = outcome copies[i]?) ∧
      (∀ i < copies.length, picked (.fromEnd i) = outcome copies[copies.length - 1 - i]?) ∧
      (∀ i, copies.length ≤ i → picked (.fromEnd i) = .notFound) ∧
      (∀ tree' : List Entry, tree'.Perm tree → ∀ pick,
        d.loadPicked tree' name pick allowEmpty = d.loadPicked tree name pick allowEmpty) ∧
      (∀ i j, i + j + 1 = copies.length → picked (.nth i) = picked (.fromEnd j)) ∧
      ∀ i, (Pick.fromEnd i).select copies = (Pick.nth i).select copies.reverse := by
  intro copies picked outcome
  have selected : ∀ pick : Pick, picked pick = outcome (pick.select copies) := fun pick => value_loadPicked
  refine ⟨copiesOf_perm tree name, copiesOf_increasing distinct, ?_, ?_, fun i => selected _,
    fun i inside => ?_, fun i outside => ?_,
    fun tree' perm pick => loadPicked_congr (copiesOf_congr distinct perm), fun i j meet => ?_,
    fun i => Pick.select_fromEnd i copies⟩
  · rw [selected, Pick.select, List.head?_eq_getElem?]
  · rw [selected, Pick.select_last]
  · rw [selected, Pick.select, if_pos inside]
  · rw [selected, Pick.select, if_neg (Nat.not_lt.mpr outside)]
    rfl
  · rw [selected, selected, Pick.select_nth_eq_fromEnd meet]

/-- A disk with three files of one name: a blank one, one that cannot be read, and one that is no text. -/
def threeCopies : Disk :=
  ⟨.directory [(Utf8.encode "a-b", .directory [(Utf8.encode "x.yaml", .file 1)]),
    (Utf8.encode "a.b", .directory [(Utf8.encode "x.yaml", .file 2)]),
    (Utf8.encode "a", .directory [(Utf8.encode "x.yaml", .file 0)])],
    [⟨Utf8.encode "# none\n", none⟩, ⟨[], some .inputOutput⟩, ⟨[0xFF], none⟩], []⟩

/-- The three files and one of another name, in no order. -/
def threeCopiesTree : List Entry :=
  [.ofPath (.ofString "/a-b/x.yaml") .file, .ofPath (.ofString "/y.yaml") .file,
    .ofPath (.ofString "/a.b/x.yaml") .file, .ofPath (.ofString "/a/x.yaml") .file]

/-- The copies stand in the order of their directories `a`, `a-b` and `a.b`, whatever the order in which
they are given. -/
theorem loadPicked_by_place_three :
    let picked := fun tree pick => (threeCopies.loadPicked tree "x.yaml" pick true).value
    (threeCopiesTree.Pairwise fun a b => a.path.components ≠ b.path.components) ∧
      picked threeCopiesTree .first = .found [] ∧
      picked threeCopiesTree (.nth 1) = .invalid (.unreadable .inputOutput) ∧
      picked threeCopiesTree (.fromEnd 1) = .invalid (.unreadable .inputOutput) ∧
      picked threeCopiesTree.reverse .last = .invalid (.unreadable .notText) ∧
      picked threeCopiesTree (.fromEnd 3) = .notFound := by
  intro picked
  have distinct : threeCopiesTree.Pairwise fun a b => a.path.components ≠ b.path.components := by decide
  have sorted : sortByPath (threeCopiesTree.filter (·.isNamed "x.yaml")) =
      [.ofPath (.ofString "/a/x.yaml") .file, .ofPath (.ofString "/a-b/x.yaml") .file,
        .ofPath (.ofString "/a.b/x.yaml") .file] := by cbv
  obtain ⟨-, -, first, last, nth, -, behind, perm, meet, -⟩ :=
    loadPicked_by_place threeCopies distinct "x.yaml" true
  simp only [sorted] at first last nth behind meet
  have middle : picked threeCopiesTree (.nth 1) = .invalid (.unreadable .inputOutput) :=
    (nth 1).trans (by cbv)
  refine ⟨distinct, first.trans (by cbv), middle, (meet 1 1 rfl).symm.trans middle, ?_,
    behind 3 (Nat.le_refl 3)⟩
  exact (congrArg Logged.value (perm _ (List.reverse_perm _) .last)).trans (last.trans (by cbv))

end Disk

end ProjectIndex
