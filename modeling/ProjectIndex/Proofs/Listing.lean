import ProjectIndex.Proofs.Disk.Resolve
import ProjectIndex.Proofs.Tree.Walk
import Mathlib.Data.List.Nodup

/-!
# Deep listings

A deep listing of a directory is the list of all that lies below it, sorted by path:
`Disk.list_deep_exact`.  The two halves support each other.  That the list is sorted strictly makes every
entry occur once and everything below a directory one block behind it; that its entries are known makes
the whole list known, since a strictly sorted list is determined by its members
(`Tree.IncreasingPaths.eq_of_mem_iff`).  So the listing depends on what is under which name and on nothing else.
-/

namespace ProjectIndex

namespace Tree

namespace IncreasingPaths

variable {l m : List Entry}

/-- No two entries have paths that say the same. -/
theorem distinct (h : IncreasingPaths l) : l.Pairwise fun a b => a.path.components ≠ b.path.components :=
  h.imp fun {a b} smaller same => by
    rw [Path.compare_eq_iff.mpr same] at smaller
    exact nomatch smaller

theorem nodup (h : IncreasingPaths l) : l.Nodup := nodup_of_pairwise_lt h

/-- Entries in the order of their paths are determined by what they are. -/
theorem eq_of_mem_iff (hl : IncreasingPaths l) (hm : IncreasingPaths m)
    (same : ∀ e, e ∈ l ↔ e ∈ m) : l = m :=
  eq_of_pairwise_lt_of_mem_iff hl hm same

end IncreasingPaths

variable {root : Path} {children children' : List (FileName × Tree)} {ns ms : List FileName} {e : Entry}

/-- An entry lies below a directory that is named `root`: names lead to its node, the directories on the
way can be opened, and its path is `root` joined with the names. -/
def Lists (root : Path) (children : List (FileName × Tree)) (ns : List FileName) (e : Entry) : Prop :=
  ns ≠ [] ∧ Opens root ns ∧ ∃ t, (directory children).find? ns = some t ∧
    e = .ofPath (root.join (.relative ns)) t.kind

theorem lists_iff_meets (proper : (Tree.directory children).Proper) :
    Lists root children ns e ↔ ns ≠ [] ∧ Meets root (.directory children) ns e := by
  constructor
  · rintro ⟨nonempty, opens, t, found, rfl⟩
    obtain ⟨n, ns, rfl⟩ := List.exists_cons_of_ne_nil nonempty
    exact ⟨nonempty, t, found, opens, by rw [Path.join_relative (proper.of_find? found).2]⟩
  · rintro ⟨nonempty, t, found, opens, rfl⟩
    obtain ⟨n, ns, rfl⟩ := List.exists_cons_of_ne_nil nonempty
    exact ⟨nonempty, opens, t, found, by rw [Path.join_relative (proper.of_find? found).2]⟩

theorem mem_entries_visitsBelow (proper : (Tree.directory children).Proper)
    (short : root.bytes.length ≤ pathLimit) :
    e ∈ entries (visitsBelow root children) ↔ ∃ ns, Lists root children ns e := by
  rw [mem_entries, mem_visitsBelow fun c hc path => mem_walk (proper.inner c hc) path]
  constructor
  · rintro ⟨n, c, hc, ns, met⟩
    exact ⟨n :: ns, (lists_iff_meets proper).mpr
      ⟨List.cons_ne_nil _ _, (meets_cons proper).mpr ⟨short, c, hc, met⟩⟩⟩
  · rintro ⟨ns, listed⟩
    obtain ⟨nonempty, met⟩ := (lists_iff_meets proper).mp listed
    obtain ⟨n, ns, rfl⟩ := List.exists_cons_of_ne_nil nonempty
    obtain ⟨-, c, hc, met⟩ := (meets_cons proper).mp met
    exact ⟨n, c, hc, ns, met⟩

/-- What is listed lies below a directory that can be opened. -/
theorem Lists.short (listed : Lists root children ns e) : root.bytes.length ≤ pathLimit :=
  listed.2.1 [] List.nil_prefix (Ne.symm listed.1)

theorem entries_visits_of_long {isDeep : Bool} (long : pathLimit < root.bytes.length) :
    entries (visits root children isDeep) = [] := by
  rw [visits, if_pos long]
  rfl

theorem visits_deep (short : root.bytes.length ≤ pathLimit) :
    visits root children true = visitsBelow root children := by
  rw [visits, if_neg (Nat.not_lt.mpr short)]
  rfl

theorem visits_shallow (short : root.bytes.length ≤ pathLimit) :
    visits root children false = visitsWithin root children := by
  rw [visits, if_neg (Nat.not_lt.mpr short)]
  rfl

theorem mem_entries_visits_deep (proper : (Tree.directory children).Proper) :
    e ∈ entries (visits root children true) ↔ ∃ ns, Lists root children ns e := by
  rcases Nat.lt_or_ge pathLimit root.bytes.length with long | short
  · rw [entries_visits_of_long long]
    exact ⟨nofun, fun ⟨ns, listed⟩ => absurd listed.short (Nat.not_le_of_lt long)⟩
  · rw [visits_deep short]
    exact mem_entries_visitsBelow proper short

theorem visits_deep_increasing (proper : (Tree.directory children).Proper) :
    IncreasingPaths (entries (visits root children true)) := by
  rcases Nat.lt_or_ge pathLimit root.bytes.length with long | short
  · rw [entries_visits_of_long long]
    exact .nil
  · rw [visits_deep short]
    exact visitsBelow_increasing proper (fun c hc path => walk_increasing (proper.inner c hc) path) root

theorem Lists.components (listed : Lists root children ns e)
    (proper : (Tree.directory children).Proper) :
    e.path.components = root.components ++ ns.map .name :=
  ((lists_iff_meets proper).mp listed).2.components proper

/-- Different names lead to different paths. -/
theorem Lists.injective {f : Entry} (he : Lists root children ns e) (hf : Lists root children ms f)
    (proper : (Tree.directory children).Proper) (same : e.path = f.path) : ns = ms := by
  have said := congrArg Path.components same
  rw [he.components proper, hf.components proper] at said
  exact List.map_injective_iff.mpr (fun _ _ => Component.name.inj) (List.append_cancel_left said)

theorem Lists.above (listed : Lists root children ns e)
    (proper : (Tree.directory children).Proper) : root.Above e.path := by
  rw [Path.Above, listed.components proper]
  refine ⟨List.prefix_append _ _, fun same => listed.1 ?_⟩
  exact List.map_eq_nil_iff.mp (List.self_eq_append_right.mp same)

/-- Nothing listed lies below a link. -/
theorem Lists.not_above_of_link {target : Path} (listed : Lists root children ms e)
    (proper : (Tree.directory children).Proper)
    (found : (Tree.directory children).find? ns = some (.link target)) :
    ¬ (root.join (.relative ns)).Above e.path := by
  obtain ⟨n, ns, rfl⟩ : ∃ n ns', ns = n :: ns' := by
    cases ns with
    | nil => exact nomatch found
    | cons n ns => exact ⟨n, ns, rfl⟩
  have names := (proper.of_find? found).2
  -- Below the link the names would go on behind those of the link, where `find?` finds nothing.
  rw [Path.Above, Path.join_relative names, Path.components_descend names, listed.components proper]
  rintro ⟨start, ne⟩
  obtain ⟨rest, hr⟩ := (List.prefix_append_right_inj _).mp start
  obtain ⟨ls, more, rfl, hl, -⟩ := List.map_eq_append_iff.mp hr.symm
  obtain rfl := List.map_injective_iff.mpr (fun _ _ => Component.name.inj) hl
  obtain ⟨-, -, t, inside, -⟩ := listed
  have deeper : more ≠ [] := by
    rintro rfl
    exact ne (by rw [List.append_nil])
  obtain ⟨inner, directory⟩ := isDirectory_of_find?_append deeper inside
  exact nomatch found.symm.trans directory

theorem kind_bare (t : Tree) : t.bare.kind = t.kind := by cases t <;> rfl

/-- Trees that agree list the same. -/
theorem Agrees.lists (h : (Tree.directory children).Agrees (.directory children'))
    (listed : Lists root children ns e) : Lists root children' ns e := by
  obtain ⟨nonempty, opens, t, found, rfl⟩ := listed
  have same := h.find? ns
  rw [found] at same
  generalize hn : (Tree.directory children').find? ns = node' at same
  obtain @⟨_, t', agree⟩ := same
  exact ⟨nonempty, opens, t', hn, by rw [← kind_bare t, agree.bare_eq, kind_bare]⟩

end Tree

namespace Disk

variable {d d' : Disk} {p root : Path} {children : List (FileName × Tree)}

/-- What a listing of a directory holds. -/
theorem value_list_directory {isDeep : Bool} (there : d.node? p = some (.directory children))
    (canonical : d.canonical p = .ok root) :
    (d.list p isDeep).value = Tree.entries (Tree.visits root children isDeep) := by
  have isDirectory : d.isDirectory p = true := by rw [Disk.isDirectory, there]
  rw [list, isDirectory, canonical, there]
  rfl

section DeepListing

variable (proper : d.root.Proper) (there : d.node? p = some (.directory children))
  (canonical : d.canonical p = .ok root)

include proper there in
theorem proper_of_node? : (Tree.directory children).Proper := by
  obtain ⟨names, found⟩ := node?_eq_some_iff.mp there
  exact (proper.of_find? (resolve_eq_ok_iff.mp found).2).1

include proper there canonical

theorem mem_list_deep {e : Entry} :
    e ∈ (d.list p true).value ↔ ∃ ns, Tree.Lists root children ns e := by
  rw [value_list_directory there canonical]
  exact Tree.mem_entries_visits_deep (proper_of_node? proper there)

theorem list_deep_increasing : Tree.IncreasingPaths (d.list p true).value := by
  rw [value_list_directory there canonical]
  exact Tree.visits_deep_increasing (proper_of_node? proper there)

/-- The order in which the children of directories are listed does not matter. -/
theorem list_deep_congr (h : d.root.Reordered d'.root) (here : d.here = d'.here) :
    (d'.list p true).value = (d.list p true).value := by
  have agrees := h.agrees proper
  have proper' := h.proper proper
  have canonical' := canonical_congr agrees here canonical
  obtain ⟨t', there', agree⟩ := node?_congr agrees here there
  obtain ⟨children', rfl, -⟩ := agree.directory
  refine (list_deep_increasing proper' there' canonical').eq_of_mem_iff
    (list_deep_increasing proper there canonical) fun e => ?_
  rw [mem_list_deep proper' there' canonical', mem_list_deep proper there canonical]
  exact exists_congr fun ns => ⟨fun listed => agree.symm.lists listed, fun listed => agree.lists listed⟩

end DeepListing

/-- **A deep listing is exact and sorted.**  Let a path lead to a directory with the canonical form
`root`.  The listing holds the entry of every node below the directory that a walk can open its way to,
and nothing else; no two such nodes share a path.  It is sorted strictly by path, so no entry occurs
twice.  Every entry lies below `root`, and none below a link.  What lies below an entry is one block
directly behind it.  A disk that lists the children of its directories in another order gives the same
listing. -/
theorem list_deep_exact (proper : d.root.Proper) (there : d.node? p = some (.directory children))
    (canonical : d.canonical p = .ok root) :
    let entries := (d.list p true).value
    (∀ e, e ∈ entries ↔ ∃ ns, Tree.Lists root children ns e) ∧
      (∀ ns ms e f, Tree.Lists root children ns e → Tree.Lists root children ms f →
        e.path = f.path → ns = ms) ∧
      (entries.Pairwise fun a b => compare a.path b.path = .lt) ∧ entries.Nodup ∧
      (∀ e ∈ entries, root.Above e.path) ∧
      (∀ ns target, (Tree.directory children).find? ns = some (.link target) →
        ∀ e ∈ entries, ¬ (root.join (.relative ns)).Above e.path) ∧
      (∀ e ∈ entries, ∃ before below behind, entries = before ++ e :: (below ++ behind) ∧
        (∀ b ∈ below, e.path.Above b.path) ∧ ∀ b ∈ before ++ behind, ¬ e.path.Above b.path) ∧
      ∀ d' : Disk, d.root.Reordered d'.root → d'.here = d.here →
        (d'.list p true).value = entries := by
  intro entries
  have dir := proper_of_node? proper there
  have sorted : Tree.IncreasingPaths entries := list_deep_increasing proper there canonical
  have precise : ∀ e, e ∈ entries ↔ ∃ ns, Tree.Lists root children ns e := fun e =>
    mem_list_deep proper there canonical
  refine ⟨precise, fun ns ms e f he hf same => he.injective hf dir same, sorted,
    sorted.nodup, fun e he => ?_, fun ns target found e he => ?_,
    fun e he => Path.exists_block sorted he,
    fun d' reordered here => list_deep_congr proper there canonical reordered here.symm⟩
  · obtain ⟨ns, listed⟩ := (precise e).mp he
    exact listed.above dir
  · obtain ⟨ms, listed⟩ := (precise e).mp he
    exact listed.not_above_of_link dir found

/-- What lies in the directory `/p` of the disk below: a link to that directory, a directory with one
file in it, and a file whose name goes on behind the name of that directory. -/
def nestedChildren : List (FileName × Tree) :=
  [([0x6C], .link (.ofString ".")), ([0x61, 0x2E, 0x62], .file 0),
    ([0x61], .directory [([0x62], .file 1)])]

/-- A disk with one directory in its root. -/
def nested : Disk := ⟨.directory [([0x70], .directory nestedChildren)], [], []⟩

theorem nested_proper : nested.root.Proper := by
  have a : (Tree.directory [([0x62], .file 1)]).Proper :=
    .directory (by decide) (by decide) (by simpa using .file 1)
  have p : (Tree.directory nestedChildren).Proper :=
    .directory (by decide) (by decide) (by simpa [nestedChildren] using ⟨.link _, .file 0, a⟩)
  exact .directory (by decide) (by decide) (by simpa using p)

/-- The directory `/p` reached through its own link: `/p/a/b` and `/p/a.b` are listed, the link is
listed, and nothing is listed below the link. -/
theorem list_deep_exact_nested :
    let entries := (nested.list (.ofString "/p/l/") true).value
    nested.root.Proper ∧
      nested.node? (.ofString "/p/l/") = some (.directory nestedChildren) ∧
      nested.canonical (.ofString "/p/l/") = .ok (.ofString "/p") ∧
      Entry.ofPath (.ofString "/p/a/b") .file ∈ entries ∧
      Entry.ofPath (.ofString "/p/a.b") .file ∈ entries ∧
      Entry.ofPath (.ofString "/p/l") .other ∈ entries ∧
      Entry.ofPath (.ofString "/p/l/a") .directory ∉ entries := by
  intro entries
  have there : nested.node? (.ofString "/p/l/") = some (.directory nestedChildren) := rfl
  have canonical : nested.canonical (.ofString "/p/l/") = .ok (.ofString "/p") := rfl
  obtain ⟨listed, -, -, -, -, links, -⟩ := list_deep_exact nested_proper there canonical
  refine ⟨nested_proper, there, canonical, ?_, ?_, ?_, ?_⟩
  · exact (listed _).mpr ⟨[[0x61], [0x62]], nofun, by decide, .file 1, rfl, rfl⟩
  · exact (listed _).mpr ⟨[[0x61, 0x2E, 0x62]], nofun, by decide, .file 0, rfl, rfl⟩
  · exact (listed _).mpr ⟨[[0x6C]], nofun, by decide, .link (.ofString "."), rfl, rfl⟩
  · exact fun inside => links [[0x6C]] (.ofString ".") rfl _ inside (by decide)

end Disk

end ProjectIndex
