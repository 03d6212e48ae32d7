import ProjectIndex.Proofs.Tree.Proper

/-!
# Trees that say the same

Two trees agree if the same nodes are found in them under the same names.  Children are listed in no
particular order, so trees that agree need not be equal; `Reordered` lists the children of directories
in another order, anywhere in the tree, and leaves a proper tree in agreement with itself
(`Reordered.agrees`).
-/

namespace ProjectIndex

namespace Tree

variable {t t' c : Tree} {n : FileName} {ns : List FileName}
  {children children' : List (FileName × Tree)}

/-- The node without what lies below it. -/
def bare : Tree → Tree
  | directory _ => directory []
  | t => t

/-- The same nodes are found under the same names. -/
def Agrees (t t' : Tree) : Prop := ∀ ns, (t.find? ns).map bare = (t'.find? ns).map bare

theorem Agrees.symm (h : t.Agrees t') : t'.Agrees t := fun ns => (h ns).symm

theorem Agrees.bare_eq (h : t.Agrees t') : t.bare = t'.bare := Option.some.inj (h [])

/-- Trees that show the same under all names do so below each node. -/
theorem find?_rel {α : Type} {f g : Tree → α}
    (h : ∀ ns, (t.find? ns).map f = (t'.find? ns).map g) (ns : List FileName) :
    Option.Rel (fun c c' => ∀ ms, (c.find? ms).map f = (c'.find? ms).map g)
      (t.find? ns) (t'.find? ns) := by
  have here := h ns
  have below : ∀ ms, ((t.find? ns).bind fun c => c.find? ms).map f =
      ((t'.find? ns).bind fun c => c.find? ms).map g := fun ms => by
    rw [← find?_append, ← find?_append]
    exact h (ns ++ ms)
  cases hc : t.find? ns with
  | none =>
      rw [hc] at here
      rw [Option.map_eq_none_iff.mp here.symm]
      exact .none
  | some c =>
      rw [hc] at here below
      obtain ⟨c', hc', -⟩ := Option.map_eq_some_iff.mp here.symm
      rw [hc'] at below ⊢
      exact .some below

/-- Nodes under the same names agree, or neither is there. -/
theorem Agrees.find? (h : t.Agrees t') (ns : List FileName) :
    Option.Rel Agrees (t.find? ns) (t'.find? ns) := find?_rel h ns

/-- What agrees with a directory is a directory, with children that agree. -/
theorem Agrees.directory (h : (Tree.directory children).Agrees t') :
    ∃ children', t' = .directory children' ∧
      ∀ n, Option.Rel Agrees (children.lookup n) (children'.lookup n) := by
  have same := h.bare_eq
  cases t' with
  | directory children' =>
      refine ⟨children', rfl, fun n => ?_⟩
      have child := h.find? [n]
      simpa only [find?_directory_cons, find?_nil, Option.bind_fun_some] using child
  | file id => exact nomatch same
  | link target => exact nomatch same
  | special => exact nomatch same

/-- What agrees with anything else is equal to it. -/
theorem Agrees.eq (h : t.Agrees t') (leaf : t.isDirectory = false) : t' = t := by
  have same := h.bare_eq
  cases t' with
  | directory children' =>
      cases t with
      | directory children => exact nomatch leaf
      | file id => exact nomatch same
      | link target => exact nomatch same
      | special => exact nomatch same
  | _ =>
      cases t with
      | directory children => exact nomatch leaf
      | _ => exact same.symm

/-! ### Other orders of children -/

/-- The same tree, with the children of its directories listed in any order. -/
inductive Reordered : Tree → Tree → Prop
  | refl (t : Tree) : Reordered t t
  | children {children children' : List (FileName × Tree)} (h : children.Perm children') :
      Reordered (directory children) (directory children')
  | inside {t t' : Tree} (before behind : List (FileName × Tree)) (n : FileName)
      (h : Reordered t t') :
      Reordered (directory (before ++ (n, t) :: behind)) (directory (before ++ (n, t') :: behind))
  | trans {t u v : Tree} (h : Reordered t u) (k : Reordered u v) : Reordered t v

theorem Reordered.proper (h : t.Reordered t') (proper : t.Proper) : t'.Proper := by
  induction h with
  | refl t => exact proper
  | children perm =>
      exact .directory (fun c hc => proper.names c (perm.mem_iff.mpr hc))
        ((perm.map (·.1)).nodup_iff.mp proper.distinct)
        fun c hc => proper.inner c (perm.mem_iff.mpr hc)
  | inside before behind n _ ih =>
      have names := proper.names
      have inner := proper.inner
      rw [List.forall_mem_append, List.forall_mem_cons] at names inner
      refine .directory ?_ ?_ ?_
      · exact List.forall_mem_append.mpr ⟨names.1, List.forall_mem_cons.mpr names.2⟩
      · simpa using proper.distinct
      · exact List.forall_mem_append.mpr
          ⟨inner.1, List.forall_mem_cons.mpr ⟨ih inner.2.1, inner.2.2⟩⟩
  | trans _ _ ih₁ ih₂ => exact ih₂ (ih₁ proper)

/-- **Listing the children of directories in another order changes nothing under any name.** -/
theorem Reordered.agrees (h : t.Reordered t') (proper : t.Proper) : t.Agrees t' := by
  induction h with
  | refl t => exact fun _ => rfl
  | children perm =>
      rintro (_ | ⟨n, ns⟩)
      · rfl
      · have same := (Reordered.children perm).proper proper
        have lookup : ∀ c, _ ↔ _ := fun c =>
          (proper.mem_iff (n := n) (c := c)).symm.trans (perm.mem_iff.trans same.mem_iff)
        rw [find?_directory_cons, find?_directory_cons, Option.ext lookup]
  | @inside t t' before behind n inner ih =>
      rintro (_ | ⟨m, ns⟩)
      · rfl
      · have same := ih (proper.inner (n, t) List.mem_append_cons_self) ns
        simp only [find?_directory_cons, List.lookup_append, List.lookup_cons]
        -- A name that an earlier child has hides the reordered one, though no proper tree has two.
        cases before.lookup m with
        | some c => rfl
        | none =>
            cases m == n with
            | true => exact same
            | false => rfl
  | trans first _ ih₁ ih₂ =>
      exact fun ns => (ih₁ proper ns).trans (ih₂ (first.proper proper) ns)

end Tree

end ProjectIndex
