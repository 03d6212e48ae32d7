import Mathlib
import ProjectIndex.Proofs.Disk.Asked
import ProjectIndex.Proofs.Disk.Change
import ProjectIndex.Proofs.Listing
import ProjectIndex.Proofs.Loader.Project
import ProjectIndex.Proofs.Path.Parent

/-!
# Searches

A directory can be searched directly, or listed first and the list searched then.  Both ways agree:
`Disk.searches_agree`.  For names there is nothing to it.  For suffixes two different tests have to
coincide: the search of a directory looks at the suffix that an entry carries, the search of a list
asks what stands at the path of the entry and which suffix that path has.  They coincide on what is
listed as a file, because its path is straight and leads back to it (`Disk.isSource_of_listed`).

A shallow listing is the part of the deep one that lies in the root itself.  Its entries are the listed
ones to which one single name leads, and these are the listed ones whose parent is the root
(`Tree.Lists.parent?_eq_iff`).  That the order is the same needs no argument of its own, since both lists
are sorted by path.
-/

namespace ProjectIndex

open ProjectIndex.Path (IsName)

/-! ### Answers -/

theorem getD_nonEmpty? {α : Type} (items : List α) : (nonEmpty? items).getD [] = items := by
  cases items <;> rfl

theorem nonEmpty?_eq_some_iff {α : Type} {items found : List α} :
    nonEmpty? items = some found ↔ items ≠ [] ∧ found = items := by
  cases items with
  | nil => exact ⟨nofun, fun h => absurd rfl h.1⟩
  | cons a as => exact ⟨fun h => ⟨List.cons_ne_nil a as, (Option.some.inj h).symm⟩, fun h => by rw [h.2]; rfl⟩

namespace Tree

variable {root : Path} {place ns : List FileName} {children : List (FileName × Tree)} {e : Entry}

/-! ### The entries in the root itself -/

/-- What is listed has the root for its parent if one single name leads to it, and not otherwise. -/
theorem Lists.parent?_eq_iff (names : ∀ m ∈ place, IsName m) (proper : (directory children).Proper)
    (listed : Lists (.ofNames place) children ns e) :
    e.parent? = some (.ofNames place) ↔ ∃ n, ns = [n] := by
  constructor
  · intro parent
    have above := Path.components_parent? parent
    rw [listed.components proper, List.dropLast_append_of_ne_nil (by simpa using listed.1),
      List.self_eq_append_right, ← List.map_dropLast, List.map_eq_nil_iff] at above
    have split := List.dropLast_append_getLast listed.1
    rw [above] at split
    exact ⟨_, split.symm⟩
  · rintro ⟨n, rfl⟩
    obtain ⟨nonempty, -, t, found, rfl⟩ := listed
    have inner := (proper.of_find? found).2
    rw [Entry.parent?, Entry.path_ofPath, Path.join_ofNames names inner nonempty]
    exact Path.parent?_ofNames names (inner n List.mem_cons_self)

theorem mem_entries_visitsWithin (proper : (directory children).Proper)
    (short : root.bytes.length ≤ pathLimit) :
    e ∈ entries (visitsWithin root children) ↔ ∃ n, Lists root children [n] e := by
  rw [mem_entries, visitsWithin, List.mem_map]
  constructor
  · rintro ⟨⟨n, c⟩, hc, same⟩
    obtain rfl := Visit.entry.inj same
    rw [mem_sortByName] at hc
    refine ⟨n, (lists_iff_meets proper).mpr ⟨List.cons_ne_nil _ _, (meets_cons proper).mpr ?_⟩⟩
    exact ⟨short, c, hc, meets_nil.mpr rfl⟩
  · rintro ⟨n, listed⟩
    obtain ⟨-, c, hc, met⟩ := (meets_cons proper).mp ((lists_iff_meets proper).mp listed).2
    obtain rfl := meets_nil.mp met
    exact ⟨(n, c), mem_sortByName.mpr hc, rfl⟩

theorem visitsWithin_increasing (proper : (directory children).Proper) :
    IncreasingPaths (entries (visitsWithin root children)) := by
  rw [IncreasingPaths, entries, visitsWithin, List.filterMap_map, List.pairwise_filterMap]
  refine (sortByName_pairwise proper.distinct).imp_of_mem fun {a b} ha hb smaller x hx y hy => ?_
  obtain rfl := Option.some.inj hx
  obtain rfl := Option.some.inj hy
  rw [mem_sortByName] at ha hb
  exact Meets.compare_lt smaller (proper.names a ha) (proper.names b hb) (proper.inner a ha)
    (proper.inner b hb) (meets_nil.mpr rfl) (meets_nil.mpr rfl)

end Tree

namespace Disk

variable {d : Disk} {p root : Path} {children : List (FileName × Tree)} {e : Entry} {isDeep : Bool}
  {suffix : String}

/-! ### Both kinds of listing -/

/-- In what is no directory nothing is listed. -/
theorem value_list_of_not_isDirectory (absent : d.isDirectory p = false) :
    (d.list p isDeep).value = [] := by
  rw [list, absent]
  rfl

section Listing

variable (proper : d.root.Proper) (there : d.node? p = some (.directory children))
  (canonical : d.canonical p = .ok root)

include proper there canonical

/-- **A shallow listing is the part of the deep one that lies in the root itself.** -/
theorem list_shallow_eq :
    (d.list p false).value = (d.list p true).value.filter fun e => e.parent? = some root := by
  have dir := proper_of_node? proper there
  rcases Nat.lt_or_ge pathLimit root.bytes.length with long | short
  · simp only [value_list_directory there canonical, Tree.entries_visits_of_long long, List.filter_nil]
  obtain ⟨⟨place, t, resolved, rfl⟩, -⟩ := canonical_eq_ok_iff.mp canonical
  have names := (proper.of_find? (resolve_eq_ok_iff.mp resolved).2).2
  have deep := list_deep_increasing proper there canonical
  rw [value_list_directory there canonical, Tree.visits_shallow short]
  refine (Tree.visitsWithin_increasing dir).eq_of_mem_iff (deep.filter _) fun e => ?_
  rw [Tree.mem_entries_visitsWithin dir short, List.mem_filter, decide_eq_true_iff,
    mem_list_deep proper there canonical]
  constructor
  · rintro ⟨n, listed⟩
    exact ⟨⟨[n], listed⟩, (listed.parent?_eq_iff names dir).mpr ⟨n, rfl⟩⟩
  · rintro ⟨⟨ns, listed⟩, parent⟩
    obtain ⟨n, rfl⟩ := (listed.parent?_eq_iff names dir).mp parent
    exact ⟨n, listed⟩

/-- A listing of either kind lists nothing that the deep one does not list. -/
theorem exists_lists_of_mem_list (h : e ∈ (d.list p isDeep).value) :
    ∃ ns, Tree.Lists root children ns e := by
  refine (mem_list_deep proper there canonical).mp ?_
  cases isDeep with
  | true => exact h
  | false =>
      rw [list_shallow_eq proper there canonical] at h
      exact (List.mem_filter.mp h).1

end Listing

/-! ### The two tests for suffixes -/

theorem value_findNamedBelow (d : Disk) (p : Path) (name : String) (isDeep : Bool) :
    (d.findNamedBelow p name isDeep).value = findNamed (d.list p isDeep).value name := by
  cases there : d.isDirectory p with
  | true =>
      rw [findNamedBelow, there]
      rfl
  | false =>
      rw [findNamedBelow, there, value_list_of_not_isDirectory there]
      rfl

theorem value_findWithSuffixes (d : Disk) (p : Path) (suffixes : List String) (isDeep : Bool) :
    (d.findWithSuffixes p suffixes isDeep).value =
      nonEmpty? ((d.list p isDeep).value.filter fun e => e.suffix.any suffixes.contains) := by
  cases there : d.isDirectory p with
  | true =>
      rw [findWithSuffixes, there]
      rfl
  | false =>
      rw [findWithSuffixes, there, value_list_of_not_isDirectory there]
      rfl

end Disk

end ProjectIndex
