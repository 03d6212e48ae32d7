import ProjectIndex.Proofs.Disk.Resolve
import Mathlib.Data.List.Induction

/-!
# Straight paths

The absolute path that spells some names leads to what stands under these names, unless that is a link:
`Disk.resolve_ofNames`.  On the way there are directories only, since `Tree.find?` follows no links,
so the place that a listing gives a node is the place where the node is found again.

Two limits stand between a tree and its paths.  No path is longer than `pathLimit`, which is a property
of the path alone, and no step is longer than `nameLimit` or holds a zero byte, which a `Tree.Storable`
tree promises for all of its names.
-/

namespace ProjectIndex

open ProjectIndex.Path (IsName)

/-! ### The spelling of names -/

namespace Path

variable {names ns : List Bytes} {n : Bytes} {b : UInt8}

theorem ofNames_cons (n : Bytes) (ns : List Bytes) :
    ofNames (n :: ns) = ⟨slash :: n ++ ns.flatMap fun m => slash :: m⟩ := rfl

@[simp] theorem isAbsolute_ofNames (names : List Bytes) : (ofNames names).isAbsolute = true := by
  cases names <;> rfl

theorem mem_bytes_ofNames (h : b ∈ (ofNames names).bytes) : b = slash ∨ ∃ n ∈ names, b ∈ n := by
  cases names with
  | nil => exact .inl (List.mem_singleton.mp h)
  | cons n ns =>
      obtain ⟨m, hm, hb⟩ := List.mem_flatMap.mp h
      exact (List.mem_cons.mp hb).imp_right fun hb => ⟨m, hm, hb⟩

/-- The spelling of names ends as the last one does. -/
theorem getLast?_bytes_ofNames (hn : IsName n) :
    (ofNames (names ++ [n])).bytes.getLast? = n.getLast? := by
  have spelled : (ofNames (names ++ [n])).bytes = (names ++ [n]).flatMap fun m => slash :: m := by
    cases names <;> rfl
  obtain ⟨c, hc⟩ := Option.ne_none_iff_exists'.mp (mt List.getLast?_eq_none_iff.mp hn.ne_nil)
  rw [spelled, List.flatMap_append, List.flatMap_singleton, List.getLast?_append,
    List.getLast?_cons, hc]
  rfl

theorem child_ofNames (names : ∀ m ∈ ns, IsName m) (hn : IsName n) :
    (ofNames ns).child n = ofNames (ns ++ [n]) := by
  rw [child_of_isName _ hn]
  cases ns using List.reverseRecOn with
  | nil =>
      rw [if_pos (.inr rfl), List.nil_append, ofNames_cons, List.flatMap_nil, List.append_nil]
      rfl
  | append_singleton start m =>
      have hm := names m (List.mem_append_right _ List.mem_cons_self)
      have unended : ¬ ((ofNames (start ++ [m])).bytes = [] ∨
          (ofNames (start ++ [m])).bytes.getLast? = some slash) := by
        rw [← List.getLast?_eq_none_iff, getLast?_bytes_ofNames hm, not_or]
        exact ⟨mt List.getLast?_eq_none_iff.mp hm.ne_nil, hm.getLast?_ne⟩
      rw [if_neg unended]
      cases start <;> simp [ofNames]

/-- Going down from a place spells the names of the place and then those that lead on. -/
theorem descend_ofNames (hns : ∀ m ∈ ns, IsName m) : ∀ {names : List Bytes},
    (∀ m ∈ names, IsName m) → (ofNames names).descend ns = ofNames (names ++ ns) := by
  induction ns with
  | nil => exact fun _ => by rw [descend_nil, List.append_nil]
  | cons n ns ih =>
      intro names hnames
      obtain ⟨hn, hns⟩ := List.forall_mem_cons.mp hns
      rw [descend_cons, child_ofNames hnames hn,
        ih hns (List.forall_mem_append.mpr ⟨hnames, List.forall_mem_singleton.mpr hn⟩),
        List.append_assoc, List.singleton_append]

/-- What lies below a place is spelled by the names of both. -/
theorem join_ofNames {names : List Bytes} (hnames : ∀ m ∈ names, IsName m) (hns : ∀ m ∈ ns, IsName m)
    (nonempty : ns ≠ []) : (ofNames names).join (.relative ns) = .ofNames (names ++ ns) := by
  obtain ⟨n, ns, rfl⟩ := List.exists_cons_of_ne_nil nonempty
  rw [join_relative hns, descend_ofNames hns hnames]

theorem segments_flatMap (names : ∀ m ∈ ns, IsName m) :
    segments (ns.flatMap fun m => slash :: m) = [] :: ns := by
  induction ns with
  | nil => rfl
  | cons n ns ih =>
      obtain ⟨hn, hns⟩ := List.forall_mem_cons.mp names
      have first := segments_of_notMem hn.slash_notMem
      rw [List.flatMap_cons, List.cons_append, segments_slash]
      cases ns with
      | nil => rw [List.flatMap_nil, List.append_nil, first]
      | cons m ns =>
          have rest := ih hns
          rw [List.flatMap_cons, List.cons_append, segments_slash] at rest
          rw [List.flatMap_cons, List.cons_append, segments_append_slash, first,
            (List.cons.inj rest).2]
          rfl

/-- The steps of the path that spells names: nothing before the first slash, and then down. -/
theorem steps_ofNames (names : ∀ m ∈ ns, IsName m) (nonempty : ns ≠ []) :
    (ofNames ns).steps = .stay :: ns.map .down := by
  obtain ⟨n, ns, rfl⟩ := List.exists_cons_of_ne_nil nonempty
  have cut : (ofNames (n :: ns)).steps = ([] :: n :: ns).map Step.ofSegment := by
    rw [steps, ← segments_flatMap names]
    rfl
  have first : Step.ofSegment [] = .stay := rfl
  rw [cut, List.map_cons, first]
  refine congrArg _ (List.map_congr_left fun m hm => ?_)
  rw [Step.ofSegment, (names m hm).component?]

end Path

/-- The tree has only names that a path can step down to: they are not too long, and no byte of them
is zero. -/
def Tree.Storable (t : Tree) : Prop :=
  ∀ ns c, t.find? ns = some c → ∀ n ∈ ns, n.length ≤ nameLimit ∧ 0 ∉ n

/-- The absolute paths in the tree, which is the root, take no more bytes than there is room for.  That of
a directory is asked for with a slash behind it wherever a path stays there or goes up from there, and so
it leaves room for the slash, unless it is the slash of the root. -/
def Tree.FitsIn (room : Nat) (t : Tree) : Prop :=
  ∀ ns c, t.find? ns = some c → (Path.ofNames ns).bytes.length ≤ room ∧
    (ns ≠ [] → c.isDirectory = true → (Path.ofNames ns).bytes.length < room)

namespace Tree

theorem storable_leaf {t : Tree} (leaf : t.isDirectory = false) : t.Storable := by
  intro ns c found
  obtain ⟨rfl, -⟩ := find?_leaf leaf found
  exact nofun

theorem storable_directory {children : List (FileName × Tree)}
    (names : ∀ c ∈ children, c.1.length ≤ nameLimit ∧ 0 ∉ c.1)
    (inner : ∀ c ∈ children, c.2.Storable) : (directory children).Storable := by
  rintro (_ | ⟨n, ns⟩) c found
  · exact nofun
  · obtain ⟨child, member, inside⟩ := mem_of_find?_cons found
    exact List.forall_mem_cons.mpr ⟨names _ member, inner _ member ns c inside⟩

end Tree

namespace Disk

variable {d : Disk} {names ns base : List FileName} {t : Tree}

/-- Steps down through names lead to the node under these names. -/
theorem walkSteps_down {followLast : Bool}
    {follow : List FileName → Path → List Step → Except IoError (List FileName)}
    (found : d.root.find? (base ++ ns) = some t) (straight : ∀ target, t ≠ .link target)
    (short : ∀ n ∈ ns, n.length ≤ nameLimit) :
    d.walkSteps followLast follow base (ns.map .down) = .ok (base ++ ns) := by
  induction ns generalizing base with
  | nil => rw [List.map_nil, walkSteps, List.append_nil]
  | cons n ns ih =>
      obtain ⟨hn, short⟩ := List.forall_mem_cons.mp short
      have split := found
      rw [Tree.find?_append] at split
      obtain ⟨here, hb, inside⟩ := Option.bind_eq_some_iff.mp split
      obtain ⟨children, child, rfl, hc, below⟩ := Tree.directory_of_find?_cons inside
      have found' : d.root.find? (base ++ [n] ++ ns) = some t := by
        rwa [List.append_assoc, List.singleton_append]
      have onward := ih found' short
      rw [List.append_assoc, List.singleton_append] at onward
      rw [List.map_cons, walkSteps, hb]
      simp only [Nat.not_lt.mpr hn, if_false, hc]
      -- Under a link stands nothing, so the step leads to one only if it is the last.
      cases child with
      | link target =>
          cases ns with
          | nil => exact absurd (Option.some.inj below).symm (straight target)
          | cons m ns => cases below
      | directory inner => exact onward
      | file id => exact onward
      | special => exact onward

/-- The root of a disk on which something is found is a directory, and so is what is found in no place
below it. -/
theorem root_directory (found : d.root.find? ns = some t) (here : ns ≠ [] ∨ t.isDirectory = true) :
    ∃ children, d.root = .directory children := by
  cases ns with
  | cons n ns =>
      obtain ⟨children, -, hr, -⟩ := Tree.directory_of_find?_cons found
      exact ⟨children, hr⟩
  | nil =>
      obtain rfl := Option.some.inj found
      cases hr : d.root with
      | directory children => exact ⟨children, rfl⟩
      | _ => simp [hr, Tree.isDirectory] at here

/-- **The path that spells the place of a node leads to it.** -/
theorem resolve_ofNames (proper : d.root.Proper) (storable : d.root.Storable)
    (found : d.root.find? ns = some t) (straight : ∀ target, t ≠ .link target)
    (here : ns ≠ [] ∨ t.isDirectory = true) (short : (Path.ofNames ns).bytes.length ≤ pathLimit) :
    d.resolve (.ofNames ns) = .ok (ns, t) := by
  have names := (proper.of_find? found).2
  have stored := storable ns t found
  have nonzero : ¬ (Path.ofNames ns).bytes.contains 0 = true := by
    rw [List.contains_iff_mem]
    intro zero
    obtain slash | ⟨n, hn, zero⟩ := Path.mem_bytes_ofNames zero
    · exact absurd slash (by decide)
    · exact (stored n hn).2 zero
  have nonempty : (Path.ofNames ns).bytes ≠ [] := by cases ns <;> exact List.cons_ne_nil _ _
  have origin : (Path.ofNames ns).origin d.here = [] := by
    rw [Path.origin, Path.isAbsolute_ofNames, if_pos rfl]
  obtain ⟨children, root⟩ := root_directory found here
  refine resolve_eq_ok_iff.mpr ⟨?_, found⟩
  rw [locate, if_neg nonzero, if_neg nonempty, if_neg (Nat.not_lt.mpr short), origin, linkLimit, walk]
  cases ns with
  | nil =>
      have steps : (Path.ofNames []).steps = [.stay, .stay] := rfl
      simp only [steps, walkSteps, Tree.find?_nil, root]
  | cons n ns =>
      rw [Path.steps_ofNames names (List.cons_ne_nil _ _), walkSteps, Tree.find?_nil, root]
      exact walkSteps_down (show d.root.find? ([] ++ n :: ns) = some t from found) straight
        fun m hm => (stored m hm).1

/-- A path that is too long leads nowhere. -/
theorem resolve_of_long {p : Path} (long : pathLimit < p.bytes.length) :
    ∃ e, d.resolve p = .error e := by
  cases found : d.resolve p with
  | error e => exact ⟨e, rfl⟩
  | ok place =>
      have located := (resolve_eq_ok_iff.mp found).1
      rw [locate, if_pos long] at located
      split at located
      · cases located
      · split at located <;> cases located

/-- **Below a directory names lead where its canonical form, joined with them, leads.** -/
theorem resolve_below {p root : Path} {children : List (FileName × Tree)} (proper : d.root.Proper)
    (storable : d.root.Storable) (there : d.node? p = some (.directory children))
    (canonical : d.canonical p = .ok root) (found : (Tree.directory children).find? ns = some t)
    (straight : ∀ target, t ≠ .link target) (nonempty : ns ≠ [])
    (short : (root.join (.relative ns)).bytes.length ≤ pathLimit) :
    ∃ place, d.resolve (root.join (.relative ns)) = .ok (place ++ ns, t) := by
  obtain ⟨⟨place, node, resolved, rfl⟩, -⟩ := canonical_eq_ok_iff.mp canonical
  obtain ⟨place', resolved'⟩ := node?_eq_some_iff.mp there
  obtain ⟨rfl, rfl⟩ := Prod.mk.inj (Except.ok.inj (resolved.symm.trans resolved'))
  have here := (resolve_eq_ok_iff.mp resolved).2
  have whole : d.root.find? (place ++ ns) = some t := by
    rw [Tree.find?_append, here, Option.bind_some, found]
  obtain ⟨dir, names⟩ := proper.of_find? here
  rw [Path.join_ofNames names (dir.of_find? found).2 nonempty] at short ⊢
  exact ⟨place, resolve_ofNames proper storable whole straight
    (.inl (List.append_ne_nil_of_right_ne_nil _ nonempty)) short⟩

end Disk

end ProjectIndex
