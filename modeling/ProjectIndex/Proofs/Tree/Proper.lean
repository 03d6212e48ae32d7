import ProjectIndex.Disk.Tree
import ProjectIndex.Proofs.Path.Names
import Mathlib.Data.List.Nodup

/-!
# Proper trees

A tree as such may hold anything under a name.  In a proper one every directory maps names to nodes:
what it calls its children are names, and no two children share one.  This is what makes a path in the
tree stand for one node, and a node for one path.

`find?` follows no links, so whatever it finds below a node lies behind directories alone.
-/

namespace ProjectIndex

open ProjectIndex.Path (IsName)

namespace Tree

variable {t c : Tree} {n : FileName} {ns : List FileName} {children : List (FileName × Tree)}

/-- All directories of the tree map names to nodes. -/
inductive Proper : Tree → Prop
  | file (id : Nat) : Proper (.file id)
  | link (target : Path) : Proper (.link target)
  | special : Proper .special
  | directory {children : List (FileName × Tree)} (names : ∀ c ∈ children, IsName c.1)
      (distinct : (children.map (·.1)).Nodup) (inner : ∀ c ∈ children, Proper c.2) :
      Proper (.directory children)

theorem Proper.names (h : (Tree.directory children).Proper) : ∀ c ∈ children, IsName c.1 := by
  cases h with
  | directory names _ _ => exact names

theorem Proper.distinct (h : (Tree.directory children).Proper) : (children.map (·.1)).Nodup := by
  cases h with
  | directory _ distinct _ => exact distinct

theorem Proper.inner (h : (Tree.directory children).Proper) : ∀ c ∈ children, c.2.Proper := by
  cases h with
  | directory _ _ inner => exact inner

/-! ### Looking up names -/

/-- Under a name that no two children share stands the child of that name. -/
theorem lookup_eq_some_iff_mem {α : Type} {named : List (FileName × α)} {a : α}
    (distinct : (named.map (·.1)).Nodup) : named.lookup n = some a ↔ (n, a) ∈ named := by
  induction named with
  | nil => simp
  | cons b named ih =>
      rw [List.map_cons, List.nodup_cons] at distinct
      obtain ⟨m, b⟩ := b
      by_cases hn : n = m
      · subst hn
        rw [List.lookup_cons_self, Option.some_inj, List.mem_cons, Prod.mk.injEq]
        constructor
        · exact fun h => .inl ⟨rfl, h.symm⟩
        · rintro (⟨-, rfl⟩ | rest)
          · rfl
          · exact absurd (List.mem_map_of_mem rest) distinct.1
      · rw [List.lookup_cons, beq_false_of_ne hn, List.mem_cons, Prod.mk.injEq]
        simp only [hn, false_and, false_or]
        exact ih distinct.2

theorem Proper.mem_iff (h : (Tree.directory children).Proper) :
    (n, c) ∈ children ↔ children.lookup n = some c :=
  (lookup_eq_some_iff_mem h.distinct).symm

theorem find?_directory_cons (children : List (FileName × Tree)) (n : FileName)
    (ns : List FileName) :
    (directory children).find? (n :: ns) = (children.lookup n).bind fun c => c.find? ns := rfl

/-- Only a directory has anything below it. -/
theorem directory_of_find?_cons (h : t.find? (n :: ns) = some c) :
    ∃ children child, t = directory children ∧ children.lookup n = some child ∧
      child.find? ns = some c := by
  cases t with
  | directory children =>
      obtain ⟨child, hc, inside⟩ := Option.bind_eq_some_iff.mp h
      exact ⟨children, child, rfl, hc, inside⟩
  | file id => exact nomatch h
  | link target => exact nomatch h
  | special => exact nomatch h

/-- Below what is no directory nothing is found. -/
theorem find?_leaf (leaf : t.isDirectory = false) (h : t.find? ns = some c) : ns = [] ∧ c = t := by
  cases ns with
  | nil => exact ⟨rfl, (Option.some.inj h).symm⟩
  | cons n ns =>
      obtain ⟨children, -, rfl, -⟩ := directory_of_find?_cons h
      exact nomatch leaf

/-- What is found below a directory is one of the children or lies below one. -/
theorem mem_of_find?_cons (h : (directory children).find? (n :: ns) = some c) :
    ∃ child, (n, child) ∈ children ∧ child.find? ns = some c := by
  obtain ⟨child, hc, inside⟩ := Option.bind_eq_some_iff.mp h
  obtain ⟨before, behind, split, -⟩ := List.lookup_eq_some_iff.mp hc
  refine ⟨child, ?_, inside⟩
  rw [split]
  exact List.mem_append_right _ List.mem_cons_self

/-- On the way to a node there are only directories, and so no links. -/
theorem isDirectory_of_find?_append {ms : List FileName} (hm : ms ≠ [])
    (h : t.find? (ns ++ ms) = some c) : ∃ children, t.find? ns = some (directory children) := by
  obtain ⟨m, ms, rfl⟩ := List.exists_cons_of_ne_nil hm
  rw [find?_append] at h
  obtain ⟨s, hs, inside⟩ := Option.bind_eq_some_iff.mp h
  obtain ⟨children, -, rfl, -⟩ := directory_of_find?_cons inside
  exact ⟨children, hs⟩

/-- A node of a proper tree is proper, and the names that lead to it are names. -/
theorem Proper.of_find? (h : t.Proper) (found : t.find? ns = some c) :
    c.Proper ∧ ∀ n ∈ ns, IsName n := by
  induction ns generalizing t with
  | nil =>
      obtain rfl := Option.some.inj found
      exact ⟨h, nofun⟩
  | cons n ns ih =>
      obtain ⟨children, child, rfl, hc, inside⟩ := directory_of_find?_cons found
      have member := h.mem_iff.mpr hc
      obtain ⟨proper, rest⟩ := ih (h.inner _ member) inside
      exact ⟨proper, List.forall_mem_cons.mpr ⟨h.names _ member, rest⟩⟩

end Tree

end ProjectIndex
