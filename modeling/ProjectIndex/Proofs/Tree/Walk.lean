import ProjectIndex.Search
import ProjectIndex.Proofs.Keys
import ProjectIndex.Proofs.Path.Order
import ProjectIndex.Proofs.Tree.Proper

/-!
# Walks over a tree

A walk over a proper tree meets a node for each list of names that leads to one, unless a directory on
the way has a path too long to open it: `mem_walk`.  It meets them in the order of their paths:
`walk_increasing`.

The second statement is where sorting siblings by the bytes of their names pays off.  A whole subtree
lies between its root and the next sibling in the order of paths because names are compared there one
component at a time.
-/

namespace ProjectIndex

open ProjectIndex.Path (IsName)

/-! ### Sorting by name -/

section SortByName

variable {α β : Type} {named : List (FileName × α)}

@[simp] theorem mem_sortByName {c : FileName × α} : c ∈ sortByName named ↔ c ∈ named :=
  List.mem_mergeSort

/-- Sorting looks at names alone. -/
theorem sortByName_map (f : FileName × α → β) (named : List (FileName × α)) :
    sortByName (named.map fun c => (c.1, f c)) = (sortByName named).map fun c => (c.1, f c) := by
  unfold sortByName
  exact (List.map_mergeSort (f := fun c : FileName × α => (c.1, f c)) fun _ _ _ _ => rfl).symm

/-- Children of different names are sorted strictly. -/
theorem sortByName_pairwise (distinct : (named.map (·.1)).Nodup) :
    (sortByName named).Pairwise fun a b => compare a.1 b.1 = .lt := by
  have different : named.Pairwise fun a b => a.1 ≠ b.1 := List.pairwise_map.mp distinct
  exact pairwise_lt_mergeSort (different.imp (mt Std.LawfulEqOrd.eq_of_compare))

end SortByName

namespace Tree

variable {t c : Tree} {path : Path} {ns : List FileName} {children : List (FileName × Tree)}
  {e : Entry}

/-- The path of every directory on the way through the given names is short enough to open it. -/
def Opens (path : Path) (ns : List FileName) : Prop :=
  ∀ ms, ms <+: ns → ms ≠ ns → (path.descend ms).bytes.length ≤ pathLimit

theorem opens_nil (path : Path) : Opens path [] := fun _ start proper =>
  absurd (List.prefix_nil.mp start) proper

theorem opens_cons {n : FileName} :
    Opens path (n :: ns) ↔ path.bytes.length ≤ pathLimit ∧ Opens (path.child n) ns := by
  constructor
  · intro h
    refine ⟨h [] List.nil_prefix nofun, fun ms start proper => ?_⟩
    exact h (n :: ms) (List.cons_prefix_cons.mpr ⟨rfl, start⟩) fun same => proper (List.cons.inj same).2
  · rintro ⟨short, inner⟩ ms start proper
    cases ms with
    | nil => exact short
    | cons m ms =>
        obtain ⟨rfl, rest⟩ := List.cons_prefix_cons.mp start
        exact inner ms rest fun same => proper (by rw [same])

instance decidableOpens : ∀ (path : Path) (ns : List FileName), Decidable (Opens path ns)
  | path, [] => .isTrue (opens_nil path)
  | path, n :: ns =>
    have := decidableOpens (path.child n) ns
    decidable_of_iff _ opens_cons.symm

theorem walkEach_eq_map (path : Path) (children : List (FileName × Tree)) :
    walkEach path children = children.map fun c => (c.1, c.2.walk (path.child c.1)) := by
  induction children with
  | nil => rw [walkEach, List.map_nil]
  | cons c children ih => rw [walkEach, ih, List.map_cons]

/-- The walks over the children, one after another. -/
theorem visitsBelow_eq (path : Path) (children : List (FileName × Tree)) :
    visitsBelow path children = (sortByName children).flatMap fun c => c.2.walk (path.child c.1) := by
  rw [visitsBelow, walkEach_eq_map, sortByName_map, List.flatMap_map]

theorem walk_directory (path : Path) (children : List (FileName × Tree)) :
    (directory children).walk path = .entry (.ofPath path .directory) ::
      if pathLimit < path.bytes.length then [.unopened path] else visitsBelow path children := by
  rw [walk, visitsBelow]

theorem walk_leaf (leaf : t.isDirectory = false) (path : Path) :
    t.walk path = [.entry (.ofPath path t.kind)] := by
  cases t with
  | directory children => exact nomatch leaf
  | file id => rw [walk]; rfl
  | link target => rw [walk]; rfl
  | special => rw [walk]; rfl

/-! ### What a walk meets -/

/-- The entry is that of a node to which names lead from the given one, all directories on the way
being opened. -/
def Meets (path : Path) (t : Tree) (ns : List FileName) (e : Entry) : Prop :=
  ∃ c, t.find? ns = some c ∧ Opens path ns ∧ e = .ofPath (path.descend ns) c.kind

theorem meets_nil : Meets path t [] e ↔ e = .ofPath path t.kind := by
  constructor
  · rintro ⟨c, found, -, rfl⟩
    obtain rfl := Option.some.inj found
    rfl
  · rintro rfl
    exact ⟨t, rfl, opens_nil path, rfl⟩

theorem meets_cons (proper : (Tree.directory children).Proper) {n : FileName} :
    Meets path (.directory children) (n :: ns) e ↔ path.bytes.length ≤ pathLimit ∧
      ∃ c, (n, c) ∈ children ∧ Meets (path.child n) c ns e := by
  constructor
  · rintro ⟨c, found, opens, rfl⟩
    obtain ⟨short, inner⟩ := opens_cons.mp opens
    obtain ⟨child, hc, inside⟩ := Option.bind_eq_some_iff.mp found
    exact ⟨short, child, proper.mem_iff.mpr hc, c, inside, inner, rfl⟩
  · rintro ⟨short, child, hc, c, inside, inner, rfl⟩
    refine ⟨c, ?_, opens_cons.mpr ⟨short, inner⟩, rfl⟩
    rw [find?_directory_cons, proper.mem_iff.mp hc, Option.bind_some, inside]

/-- Of what is no directory a walk meets the node itself and nothing else. -/
theorem mem_walk_leaf (leaf : t.isDirectory = false) (path : Path) :
    Visit.entry e ∈ t.walk path ↔ ∃ ns, Meets path t ns e := by
  rw [walk_leaf leaf, List.mem_singleton, Visit.entry.injEq]
  constructor
  · exact fun h => ⟨[], meets_nil.mpr h⟩
  · rintro ⟨_ | ⟨n, ns⟩, met⟩
    · exact meets_nil.mp met
    · obtain ⟨c, found, -⟩ := met
      obtain ⟨children, -, rfl, -⟩ := directory_of_find?_cons found
      exact nomatch leaf

/-- Below a directory a walk meets what the walks over the children meet. -/
theorem mem_visitsBelow (each : ∀ c ∈ children, ∀ path,
      Visit.entry e ∈ c.2.walk path ↔ ∃ ns, Meets path c.2 ns e) (path : Path) :
    Visit.entry e ∈ visitsBelow path children ↔
      ∃ n c, (n, c) ∈ children ∧ ∃ ns, Meets (path.child n) c ns e := by
  rw [visitsBelow_eq, List.mem_flatMap]
  constructor
  · rintro ⟨⟨n, c⟩, hc, met⟩
    rw [mem_sortByName] at hc
    exact ⟨n, c, hc, (each _ hc _).mp met⟩
  · rintro ⟨n, c, hc, met⟩
    exact ⟨(n, c), mem_sortByName.mpr hc, (each _ hc _).mpr met⟩

/-- **A walk over a proper tree meets exactly the nodes to which names lead.** -/
theorem mem_walk (proper : t.Proper) (path : Path) :
    Visit.entry e ∈ t.walk path ↔ ∃ ns, Meets path t ns e := by
  induction proper generalizing path with
  | @directory children names distinct inner ih =>
      have proper : (Tree.directory children).Proper := .directory names distinct inner
      rw [walk_directory, List.mem_cons, Visit.entry.injEq]
      -- The walk takes the node first and the children then, as names are none or begin with one.
      constructor
      · rintro (rfl | below)
        · exact ⟨[], meets_nil.mpr rfl⟩
        · split at below
          · exact absurd (List.mem_singleton.mp below) nofun
          · next short =>
              obtain ⟨n, c, hc, ns, met⟩ := (mem_visitsBelow ih path).mp below
              exact ⟨n :: ns, (meets_cons proper).mpr ⟨Nat.le_of_not_lt short, c, hc, met⟩⟩
      · rintro ⟨_ | ⟨n, ns⟩, met⟩
        · exact .inl (meets_nil.mp met)
        · obtain ⟨short, c, hc, met⟩ := (meets_cons proper).mp met
          rw [if_neg (Nat.not_lt.mpr short)]
          exact .inr ((mem_visitsBelow ih path).mpr ⟨n, c, hc, ns, met⟩)
  | file id => exact mem_walk_leaf rfl path
  | link target => exact mem_walk_leaf rfl path
  | special => exact mem_walk_leaf rfl path

/-! ### The order of what a walk meets -/

/-- Each path comes before all later ones, in the order of paths. -/
def IncreasingPaths (entries : List Entry) : Prop :=
  entries.Pairwise fun a b => compare a.path b.path = .lt

/-- The entries among what a walk meets. -/
def entries (visits : List Visit) : List Entry := visits.filterMap Visit.entry?

theorem mem_entries {visits : List Visit} : e ∈ entries visits ↔ Visit.entry e ∈ visits := by
  rw [entries, List.mem_filterMap]
  constructor
  · rintro ⟨visit, met, same⟩
    cases visit with
    | entry e' =>
        obtain rfl := Option.some.inj same
        exact met
    | unopened path => exact nomatch same
  · exact fun met => ⟨_, met, rfl⟩

/-- What is met says all that the path of the walk says, and then the names that lead on. -/
theorem Meets.components (met : Meets path t ns e) (proper : t.Proper) :
    e.path.components = path.components ++ ns.map .name := by
  obtain ⟨c, found, -, rfl⟩ := met
  exact Path.components_descend (proper.of_find? found).2 path

/-- Whatever is met under the smaller of two names comes before all that is met under the other. -/
theorem Meets.compare_lt {n m : FileName} {ms : List FileName} {c' : Tree} {e' : Entry}
    (smaller : compare n m = .lt) (hn : IsName n) (hm : IsName m) (hc : c.Proper) (hc' : c'.Proper)
    (met : Meets (path.child n) c ns e) (met' : Meets (path.child m) c' ms e') :
    compare e.path e'.path = .lt := by
  rw [Path.compare_eq_components, met.components hc, met'.components hc', Path.components_child _ hn,
    Path.components_child _ hm, List.append_assoc, List.append_assoc, compare_append_left,
    List.singleton_append, List.singleton_append, List.compare_cons_cons, Component.compare_name,
    smaller]
  rfl

/-- Walks over the children of a directory, each sorted, are sorted one after another. -/
theorem visitsBelow_increasing (proper : (Tree.directory children).Proper)
    (each : ∀ c ∈ children, ∀ path, IncreasingPaths (entries (c.2.walk path))) (path : Path) :
    IncreasingPaths (entries (visitsBelow path children)) := by
  have parts : entries (visitsBelow path children) =
      (sortByName children).flatMap fun c => entries (c.2.walk (path.child c.1)) := by
    rw [visitsBelow_eq, entries, List.filterMap_flatMap]
    rfl
  rw [IncreasingPaths, parts, List.pairwise_flatMap]
  refine ⟨fun c hc => each c (mem_sortByName.mp hc) _, ?_⟩
  -- What stands in the parts of two children is compared at the names of these children.
  refine (sortByName_pairwise proper.distinct).imp_of_mem fun {a b} ha hb smaller x hx y hy => ?_
  rw [mem_sortByName] at ha hb
  have innerA := proper.inner a ha
  have innerB := proper.inner b hb
  obtain ⟨ns, met⟩ := (mem_walk innerA _).mp (mem_entries.mp hx)
  obtain ⟨ms, met'⟩ := (mem_walk innerB _).mp (mem_entries.mp hy)
  exact met.compare_lt smaller (proper.names a ha) (proper.names b hb) innerA innerB met'

/-- **A walk over a proper tree meets its nodes in the order of their paths.** -/
theorem walk_increasing (proper : t.Proper) (path : Path) :
    IncreasingPaths (entries (t.walk path)) := by
  induction proper generalizing path with
  | @directory children names distinct inner ih =>
      have proper : (Tree.directory children).Proper := .directory names distinct inner
      have first : entries ((Tree.directory children).walk path) = .ofPath path .directory ::
          if pathLimit < path.bytes.length then [] else entries (visitsBelow path children) := by
        rw [walk_directory]
        split <;> rfl
      rw [first]
      split
      · exact List.pairwise_singleton _ _
      · refine List.pairwise_cons.mpr ⟨fun e he => ?_, visitsBelow_increasing proper ih path⟩
        obtain ⟨n, c, hc, ns, met⟩ :=
          (mem_visitsBelow (fun c hc path => mem_walk (inner c hc) path) path).mp (mem_entries.mp he)
        rw [Entry.path_ofPath, Path.compare_eq_components, met.components (inner _ hc),
          Path.components_child _ (names _ hc), List.append_assoc]
        exact compare_append_lt _ (List.append_ne_nil_of_left_ne_nil (List.cons_ne_nil _ _) _)
  | file id => rw [walk_leaf rfl]; exact List.pairwise_singleton _ _
  | link target => rw [walk_leaf rfl]; exact List.pairwise_singleton _ _
  | special => rw [walk_leaf rfl]; exact List.pairwise_singleton _ _

end Tree

end ProjectIndex
