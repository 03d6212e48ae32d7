import Mathlib
import ProjectIndex.Proofs.Path.Order
import ProjectIndex.Proofs.Path.Suffix
import ProjectIndex.Proofs.TraceOrder
import ProjectIndex.Search

/-!
# The trace of source files

The trace of some entries is the sorted list of those that are source files, and there is no trace if none
is.  Two facts carry the main statement, `Disk.traceSources_sorted`.

* **What a sorted list says is settled** by its entries (`TraceOrder.Sorted.components_eq`).  Entries of
  files that were made from paths differ in nothing but the spelling as soon as their paths say the same
  (`forall₂_same`), so the order in which entries are given can show in spellings only, and not even
  there if no two paths say the same.
* **A file in a directory above has the smaller depth.**  A parent says all but the last component
  (`Path.components_parent?`), so depths of files compare as those of their directories do.

Nothing is asked of the entries but that their suffixes are those of their paths: they may repeat, and
one file may be spelled in several ways.
-/

namespace ProjectIndex

/-! ### Entries that are the same -/

/-- Entries of files that were made from paths are the same, place by place, if their paths say the
same. -/
theorem forall₂_same {l m : List Entry}
    (said : l.map (·.path.components) = m.map (·.path.components))
    (hl : ∀ e ∈ l, e = .ofPath e.path .file) (hm : ∀ e ∈ m, e = .ofPath e.path .file) :
    List.Forall₂ (fun a b => a.same b = true) l m := by
  induction l generalizing m with
  | nil =>
      rw [List.map_eq_nil_iff.mp said.symm]
      exact .nil
  | cons a l ih =>
      cases m with
      | nil => exact nomatch said
      | cons b m =>
          obtain ⟨ha, hl⟩ := List.forall_mem_cons.mp hl
          obtain ⟨hb, hm⟩ := List.forall_mem_cons.mp hm
          obtain ⟨first, rest⟩ := List.cons.inj said
          refine .cons ?_ (ih rest hl hm)
          rw [ha, hb]
          simp [Entry.same, Path.same, first, Path.suffix?_congr first]

namespace Disk

variable {d : Disk} {tree : List Entry} {suffix : String} {o : TraceOrder} {sources : List Entry}

/-! ### The trace as a sorted list -/

theorem traceSources_eq_none_iff :
    d.traceSources tree suffix o = none ↔ tree.filter (d.isSource suffix) = [] := by
  rw [traceSources, findFiles, Option.map_eq_none_iff, nonEmpty?_eq_none]

theorem traceSources_eq_some_iff : d.traceSources tree suffix o = some sources ↔
    tree.filter (d.isSource suffix) ≠ [] ∧ sources = o.sort (tree.filter (d.isSource suffix)) := by
  unfold traceSources findFiles
  cases tree.filter (d.isSource suffix) with
  | nil => simp [nonEmpty?]
  | cons e es => simp [nonEmpty?, eq_comm]

theorem mem_sources {e : Entry} (he : e ∈ tree.filter (d.isSource suffix)) :
    e ∈ tree ∧ e.kind = .file ∧ d.isFileWith e.path (some suffix) = true := by
  obtain ⟨member, source⟩ := List.mem_filter.mp he
  obtain ⟨file, leads⟩ := Bool.and_eq_true_iff.mp source
  exact ⟨member, of_decide_eq_true file, leads⟩

/-- A source file ends in a name, so it lies in a directory. -/
theorem exists_parent?_of_isFileWith {p : Path} (h : d.isFileWith p (some suffix) = true) :
    ∃ q, p.parent? = some q := by
  obtain ⟨-, ends⟩ := Bool.and_eq_true_iff.mp h
  have ends : p.suffix? = some suffix := of_decide_eq_true ends
  obtain ⟨n, named, -⟩ := Option.bind_eq_some_iff.mp ends
  exact Path.exists_parent?_of_nameBytes? named

/-! ### Main statement -/

section Made

variable (made : ∀ e ∈ tree, e = .ofPath e.path e.kind)
include made

theorem eq_ofPath_of_mem_sources : ∀ e ∈ tree.filter (d.isSource suffix), e = .ofPath e.path .file := by
  intro e he
  obtain ⟨member, file, -⟩ := mem_sources he
  have own := made e member
  rwa [file] at own

/-- Sorted lists of the source files are the same, place by place. -/
theorem forall₂_same_of_sorted {l m : List Entry} (hl : l.Perm (tree.filter (d.isSource suffix)))
    (hm : m.Perm (tree.filter (d.isSource suffix))) (sortedL : o.Sorted l) (sortedM : o.Sorted m) :
    List.Forall₂ (fun a b => a.same b = true) l m := by
  have files : ∀ e ∈ tree.filter (d.isSource suffix), e = .ofPath e.path .file :=
    eq_ofPath_of_mem_sources made
  refine forall₂_same (sortedL.components_eq sortedM (hl.trans hm.symm)) ?_ ?_
  · exact fun e he => files e (hl.mem_iff.mp he)
  · exact fun e he => files e (hm.mem_iff.mp he)

/-- The order in which entries are given shows in the spellings of equal paths, and nowhere else. -/
theorem traceSources_perm {tree' : List Entry} (perm : tree'.Perm tree) :
    Option.Rel (List.Forall₂ fun a b => a.same b = true) (d.traceSources tree' suffix o)
      (d.traceSources tree suffix o) := by
  have sources := perm.filter (d.isSource suffix)
  cases trace : d.traceSources tree suffix o with
  | none =>
      rw [traceSources_eq_none_iff] at trace
      rw [trace, List.perm_nil] at sources
      rw [traceSources_eq_none_iff.mpr sources]
      exact .none
  | some sorted =>
      obtain ⟨nonempty, rfl⟩ := traceSources_eq_some_iff.mp trace
      have nonempty' : tree'.filter (d.isSource suffix) ≠ [] := fun empty =>
        nonempty (List.nil_perm.mp (empty ▸ sources))
      rw [traceSources_eq_some_iff.mpr ⟨nonempty', rfl⟩]
      exact .some (forall₂_same_of_sorted made ((o.sort_perm _).trans sources) (o.sort_perm _)
        (o.sort_sorted _) (o.sort_sorted _))

omit made in
/-- Where no two paths say the same, the order in which entries are given does not show. -/
theorem traceSources_perm_eq {tree' : List Entry} (perm : tree'.Perm tree)
    (distinct : tree.Pairwise fun a b => a.path.same b.path = false) :
    d.traceSources tree' suffix o = d.traceSources tree suffix o := by
  have sources := perm.filter (d.isSource suffix)
  have different : (tree.filter (d.isSource suffix)).Pairwise fun a b =>
      a.path.components ≠ b.path.components :=
    (distinct.filter _).imp fun differ => beq_eq_false_iff_ne.mp differ
  cases trace : d.traceSources tree suffix o with
  | none =>
      rw [traceSources_eq_none_iff] at trace ⊢
      rwa [trace, List.perm_nil] at sources
  | some sorted =>
      obtain ⟨nonempty, rfl⟩ := traceSources_eq_some_iff.mp trace
      refine traceSources_eq_some_iff.mpr ⟨fun empty => nonempty ?_, ?_⟩
      · rwa [empty, List.nil_perm] at sources
      · exact (TraceOrder.sort_congr sources different).symm

end Made

/-! ### Directories above -/

/-- A file in a directory above that of another file has the smaller depth. -/
theorem depth_lt_of_above {a b : Entry} {p q : Path} (hp : a.parent? = some p) (hq : b.parent? = some q)
    (above : p.Above q) : a.depth < b.depth := by
  have shorter : p.components.length < q.components.length := by
    obtain ⟨⟨more, split⟩, ne⟩ := above
    rw [← split, List.length_append]
    cases more with
    | nil => exact absurd (by rw [← split, List.append_nil]) ne
    | cons c more => simp
  rw [Path.components_parent? hp, Path.components_parent? hq, List.length_dropLast,
    List.length_dropLast] at shorter
  show a.path.components.length < b.path.components.length
  omega

/-- Files in directories above come earlier where shallow files come first. -/
theorem lt_of_above {i j : Nat} {a b : Entry} {p q : Path}
    (sorted : TraceOrder.shallowFirst.Sorted sources) (ha : sources[i]? = some a)
    (hb : sources[j]? = some b) (hp : a.parent? = some p) (hq : b.parent? = some q)
    (above : p.Above q) : i < j := by
  have less := depth_lt_of_above hp hq above
  obtain ⟨hi, rfl⟩ := List.getElem?_eq_some_iff.mp ha
  obtain ⟨hj, rfl⟩ := List.getElem?_eq_some_iff.mp hb
  rcases Nat.lt_trichotomy i j with before | rfl | after
  · exact before
  · exact absurd less (Nat.lt_irrefl _)
  · rcases List.pairwise_iff_getElem.mp sorted j i hj hi after with shallower | ⟨same, -⟩
    · exact absurd shallower (Nat.lt_asymm less)
    · exact absurd same.symm (Nat.ne_of_lt less)

/-- **The trace of some entries is the sorted list of the source files among them.**  A source file is the
entry of a file that leads to a file with the suffix.

There is no trace if and only if no entry is a source file.  Otherwise the trace holds the source files,
each as often as it is given, and stands in the order asked for; any other list of which both is true
agrees with it place by place.  So entries given in another order have the same trace, and the very same
one unless two paths say the same.  The trace with deep files first is that with shallow files first, the
groups of one depth in reverse order and each as it is.  And where shallow files come first, each of
them lies in a directory, and comes before all files in directories below that one. -/
theorem traceSources_sorted (d : Disk) (suffix : String) {tree : List Entry}
    (made : ∀ e ∈ tree, e = .ofPath e.path e.kind) :
    let given := tree.filter fun e => e.kind = .file ∧ d.isFileWith e.path (some suffix) = true
    let trace := d.traceSources tree suffix
    let Alike := List.Forall₂ fun a b : Entry => a.same b = true
    (∀ o, trace o = none ↔
      ∀ e ∈ tree, ¬ (e.kind = .file ∧ d.isFileWith e.path (some suffix) = true)) ∧
    (∀ o sources, trace o = some sources →
      sources.Perm given ∧ o.Sorted sources ∧
        ∀ l, l.Perm given → o.Sorted l → Alike l sources) ∧
    (∀ o tree', tree'.Perm tree →
      Option.Rel Alike (d.traceSources tree' suffix o) (trace o) ∧
        ((tree.Pairwise fun a b => a.path.same b.path = false) →
          d.traceSources tree' suffix o = trace o)) ∧
    (trace .deepFirst = (trace .shallowFirst).map fun sources =>
      (sources.splitBy fun a b => a.depth == b.depth).reverse.flatten) ∧
    ∀ sources, trace .shallowFirst = some sources →
      (∀ e ∈ sources, ∃ q, e.parent? = some q ∧ q.components = e.path.components.dropLast) ∧
        ∀ (i j : Nat) (a b : Entry) (p q : Path), sources[i]? = some a → sources[j]? = some b →
          a.parent? = some p → b.parent? = some q → p.Above q → i < j := by
  intro given trace Alike
  have same : given = tree.filter (d.isSource suffix) :=
    List.filter_congr fun e _ => by simp [isSource, Entry.isFile]
  rw [same]
  refine ⟨fun o => ?_, fun o sources h => ?_, fun o tree' perm => ?_, ?_, fun sources h => ?_⟩
  · rw [traceSources_eq_none_iff, List.filter_eq_nil_iff]
    simp [isSource, Entry.isFile]
  · obtain ⟨-, rfl⟩ := traceSources_eq_some_iff.mp h
    exact ⟨o.sort_perm _, o.sort_sorted _, fun l perm sorted =>
      forall₂_same_of_sorted made perm (o.sort_perm _) sorted (o.sort_sorted _)⟩
  · exact ⟨traceSources_perm made perm, traceSources_perm_eq perm⟩
  · cases shallow : trace .shallowFirst with
    | none => exact traceSources_eq_none_iff.mpr (traceSources_eq_none_iff.mp shallow)
    | some sources =>
        obtain ⟨nonempty, rfl⟩ := traceSources_eq_some_iff.mp shallow
        exact traceSources_eq_some_iff.mpr ⟨nonempty, (TraceOrder.sort_deepFirst _).symm⟩
  · obtain ⟨-, rfl⟩ := traceSources_eq_some_iff.mp h
    refine ⟨fun e he => ?_, fun i j a b p q ha hb hp hq above => ?_⟩
    · obtain ⟨-, -, leads⟩ := mem_sources (TraceOrder.mem_sort.mp he)
      obtain ⟨q, hq⟩ := exists_parent?_of_isFileWith leads
      exact ⟨q, hq, Path.components_parent? hq⟩
    · exact lt_of_above (TraceOrder.sort_sorted _ _) ha hb hp hq above

/-- A disk with the source file `/a.clua`, and another one, `/s/b.clua`, in a directory. -/
def twoSources : Disk :=
  ⟨.directory [(Utf8.encode "a.clua", .file 0),
    (Utf8.encode "s", .directory [(Utf8.encode "b.clua", .file 1)])], [⟨[], none⟩, ⟨[], none⟩], []⟩

/-- The two files, the first one in two spellings, and their directory, in no order. -/
def twoSourcesTree : List Entry :=
  [.ofPath (.ofString "/s/b.clua") .file, .ofPath (.ofString "//a.clua") .file,
    .ofPath (.ofString "/s") .directory, .ofPath (.ofString "/a.clua") .file]

/-- Both spellings are in the trace, in the order given, and stay so where the deeper file comes first.
If the entries are given in reverse order, the trace says the same. -/
theorem traceSources_sorted_two :
    let a := Entry.ofPath (.ofString "/a.clua") .file
    let a' := Entry.ofPath (.ofString "//a.clua") .file
    let b := Entry.ofPath (.ofString "/s/b.clua") .file
    (∀ e ∈ twoSourcesTree, e = .ofPath e.path e.kind) ∧
      twoSources.traceSources twoSourcesTree ".clua" .shallowFirst = some [a', a, b] ∧
      twoSources.traceSources twoSourcesTree ".clua" .deepFirst = some [b, a', a] ∧
      ∃ sources, twoSources.traceSources twoSourcesTree.reverse ".clua" .shallowFirst = some sources ∧
        List.Forall₂ (fun a b => a.same b = true) sources [a', a, b] := by
  intro a a' b
  have made : ∀ e ∈ twoSourcesTree, e = .ofPath e.path e.kind := by decide
  have shallow : twoSources.traceSources twoSourcesTree ".clua" .shallowFirst = some [a', a, b] := by
    cbv
  obtain ⟨-, -, reordered, groups, -⟩ := traceSources_sorted twoSources ".clua" made
  refine ⟨made, shallow, ?_, ?_⟩
  · rw [groups, shallow]
    decide
  · have alike := (reordered .shallowFirst _ (List.reverse_perm _)).1
    rw [shallow] at alike
    cases alike with
    | some alike => exact ⟨_, rfl, alike⟩

end Disk

end ProjectIndex
