import ProjectIndex.Proofs.Tree.Agrees
import ProjectIndex.Proofs.Tree.Walk

/-!
# Nodes that look alike on two disks

Two nodes of two disks look alike if the same names lead from them to the same sights: directories,
files with the same contents, links with the same path written in them.  Where a link leads to is not
part of what is seen, and neither are the numbers by which the disks know their files.

A walk sees no more than this: `Alike.walk` says that it meets the same in trees that look alike.
-/

namespace ProjectIndex

/-! ### The children of a directory by name -/

namespace Tree

variable {children children' : List (FileName × Tree)} {n : FileName}

theorem mem_names_iff (proper : (Tree.directory children).Proper) :
    n ∈ (sortByName children).map (·.1) ↔ (children.lookup n).isSome = true := by
  rw [List.mem_map, Option.isSome_iff_exists]
  constructor
  · rintro ⟨⟨m, c⟩, member, rfl⟩
    exact ⟨c, proper.mem_iff.mp (mem_sortByName.mp member)⟩
  · rintro ⟨c, found⟩
    exact ⟨(n, c), mem_sortByName.mpr (proper.mem_iff.mpr found), rfl⟩

theorem names_increasing (proper : (Tree.directory children).Proper) :
    ((sortByName children).map (·.1)).Pairwise fun n m => compare n m = .lt :=
  List.pairwise_map.mpr (sortByName_pairwise proper.distinct)

/-- Directories whose children have the same names list them in the same order. -/
theorem names_eq (proper : (Tree.directory children).Proper)
    (proper' : (Tree.directory children').Proper)
    (same : ∀ n, (children.lookup n).isSome = (children'.lookup n).isSome) :
    (sortByName children).map (·.1) = (sortByName children').map (·.1) := by
  refine eq_of_pairwise_lt_of_mem_iff (names_increasing proper) (names_increasing proper') fun n => ?_
  rw [mem_names_iff proper, mem_names_iff proper', same]

/-- A walk below a directory asks for the names of the children, and for the child of each name. -/
theorem visitsBelow_names (proper : (Tree.directory children).Proper) (path : Path) :
    visitsBelow path children = ((sortByName children).map (·.1)).flatMap fun n =>
      ((children.lookup n).map fun c => c.walk (path.child n)).getD [] := by
  rw [visitsBelow_eq, List.flatMap_map]
  refine List.flatMap_congr fun c member => ?_
  rw [proper.mem_iff.mp (mem_sortByName.mp member)]
  rfl

end Tree

/-! ### Looking alike -/

/-- What a node shows by itself. -/
inductive Sight
  | file (data : FileData)
  | directory
  | link (target : Path)
  | special
  deriving DecidableEq, Repr

/-- What a node of the disk shows by itself. -/
def Disk.sight (d : Disk) : Tree → Sight
  | .file id => .file (d.fileData id)
  | .directory _ => .directory
  | .link target => .link target
  | .special => .special

/-- The same names lead from the two nodes to the same sights. -/
def Alike (d d' : Disk) (t t' : Tree) : Prop :=
  ∀ ns, (t.find? ns).map d.sight = (t'.find? ns).map d'.sight

namespace Alike

variable {d d' : Disk} {t t' : Tree} {children children' : List (FileName × Tree)} {n : FileName}

theorem symm (h : Alike d d' t t') : Alike d' d t' t := fun ns => (h ns).symm

theorem find? (h : Alike d d' t t') (ns : List FileName) :
    Option.Rel (Alike d d') (t.find? ns) (t'.find? ns) := Tree.find?_rel h ns

theorem sight_eq (h : Alike d d' t t') : d.sight t = d'.sight t' := Option.some.inj (h [])

theorem kind_eq (h : Alike d d' t t') : t.kind = t'.kind := by
  have same := h.sight_eq
  cases t <;> cases t' <;> first | rfl | exact nomatch same

/-- What looks like a file is a file with the same contents. -/
theorem file {id : Nat} (h : Alike d d' (.file id) t') :
    ∃ id', t' = .file id' ∧ d'.fileData id' = d.fileData id := by
  have same := h.sight_eq
  cases t' with
  | file id' => exact ⟨id', rfl, (Sight.file.inj same).symm⟩
  | _ => exact nomatch same

/-- What looks like a directory is a directory, whose children look alike. -/
theorem directory (h : Alike d d' (.directory children) t') :
    ∃ children', t' = .directory children' ∧
      ∀ n, Option.Rel (Alike d d') (children.lookup n) (children'.lookup n) := by
  have same := h.sight_eq
  cases t' with
  | directory children' =>
      refine ⟨children', rfl, fun n => ?_⟩
      have child := h.find? [n]
      simpa only [Tree.find?_directory_cons, Tree.find?_nil, Option.bind_fun_some] using child
  | _ => exact nomatch same

/-! ### Walks -/

/-- Walks meet the same below directories whose children they meet the same in. -/
theorem visitsBelow (proper : (Tree.directory children).Proper)
    (proper' : (Tree.directory children').Proper)
    (lookup : ∀ n, Option.Rel (Alike d d') (children.lookup n) (children'.lookup n))
    (each : ∀ n c c', children.lookup n = some c → children'.lookup n = some c' → Alike d d' c c' →
      ∀ path, c.walk path = c'.walk path) (path : Path) :
    Tree.visitsBelow path children = Tree.visitsBelow path children' := by
  have walks : ∀ n, (children.lookup n).map (fun c => c.walk (path.child n)) =
      (children'.lookup n).map fun c => c.walk (path.child n) := fun n => by
    have alike := lookup n
    have inner := each n
    generalize children.lookup n = c, children'.lookup n = c' at alike inner
    cases alike with
    | none => rfl
    | some alike => exact congrArg some (inner _ _ rfl rfl alike _)
  have same : ∀ n, (children.lookup n).isSome = (children'.lookup n).isSome := fun n => by
    simpa only [Option.isSome_map] using congrArg Option.isSome (walks n)
  rw [Tree.visitsBelow_names proper, Tree.visitsBelow_names proper', Tree.names_eq proper proper' same]
  exact List.flatMap_congr fun n _ => by rw [walks]

/-- **A walk meets the same in trees that look alike.** -/
theorem walk (h : Alike d d' t t') (proper : t.Proper) (proper' : t'.Proper) (path : Path) :
    t.walk path = t'.walk path := by
  induction proper generalizing t' path with
  | @directory children names distinct inner ih =>
      have proper : (Tree.directory children).Proper := .directory names distinct inner
      obtain ⟨children', rfl, lookup⟩ := h.directory
      have below := visitsBelow proper proper' lookup (fun n c c' hc hc' alike path =>
        ih _ (proper.mem_iff.mpr hc) alike (proper'.inner _ (proper'.mem_iff.mpr hc')) path) path
      rw [Tree.walk_directory, Tree.walk_directory, below]
  | file id =>
      obtain ⟨id', rfl, -⟩ := h.file
      rw [Tree.walk_leaf rfl, Tree.walk_leaf rfl, h.kind_eq]
  | link target =>
      have leaf := h.sight_eq
      cases t' with
      | link target' => rw [Tree.walk_leaf rfl, Tree.walk_leaf rfl, h.kind_eq]
      | _ => exact nomatch leaf
  | special =>
      have leaf := h.sight_eq
      cases t' with
      | special => rfl
      | _ => exact nomatch leaf

end Alike

end ProjectIndex
