import ProjectIndex.Proofs.Results
import ProjectIndex.Yaml.Reading

/-!
# What a reading that succeeds has read

A reader counts the aliases it follows, and it knows where it stands so as to complain about the right
place.  Neither matters for what it reads.  The functions here say what a node means without count and
place, and a reader that succeeds agrees with them: `Content.text_meant`, `Content.list_meant`,
`Content.bool_meant`, `Content.variant_meant`.

A record is read field by field.  `Content.fieldsInto_meant` follows one part of it through all the
fields: it stays what it was unless its own field occurs, and then it is what that field says.
-/

namespace ProjectIndex.Yaml

/-! ### Readings in sequence -/

namespace Reading

variable {α β : Type} {r : Reading α} {k l : Nat}

theorem of_bind {f : α → Reading β} {b : β} (h : (r >>= f) k = .ok (b, l)) :
    ∃ a m, r k = .ok (a, m) ∧ f a m = .ok (b, l) := by
  obtain ⟨p, first, h⟩ := eq_ok_of_bind (x := r k) h
  exact ⟨p.1, p.2, first, h⟩

theorem of_pure {a b : α} (h : (pure a : Reading α) k = .ok (b, l)) : a = b :=
  (Prod.mk.inj (Except.ok.inj h)).1

theorem of_map {f : α → β} {b : β} (h : (f <$> r) k = .ok (b, l)) :
    ∃ a, r k = .ok (a, l) ∧ f a = b := by
  obtain ⟨a, m, read, h⟩ := of_bind (f := fun a => pure (f a)) h
  obtain ⟨rfl, rfl⟩ := Prod.mk.inj (Except.ok.inj h)
  exact ⟨a, read, rfl⟩

/-- Filling in places changes no success. -/
theorem placed_eq_ok_iff {m : Mark} {t : Trail} {p : α × Nat} :
    r.placed m t k = .ok p ↔ r k = .ok p :=
  mapError_eq_ok_iff

end Reading

open Reading

namespace Content

variable {α : Type} {c : Content} {n : Node} {t : Trail} {k l : Nat}

/-- A text is read from its root, if the text goes on to its end and has one document. -/
theorem run_eq_ok_iff {read : Trail → Node → Reading α} {a : α} :
    c.run read = .ok a ↔
      (∃ k, read .root c.root 0 = .ok (a, k)) ∧ c.error = none ∧ c.hasMore = false := by
  rw [run]
  cases read .root c.root 0 with
  | error e => simp [bind, Except.bind]
  | ok p => cases c.error <;> cases c.hasMore <;> simp [bind, Except.bind, Prod.ext_iff]

/-! ### Nodes -/

/-- The node to which a node leads: itself, or what it is an alias of. -/
def target? (c : Content) : Node → Option Node
  | .aliasOf _ anchor => c.anchors.lookup anchor
  | n => some n

theorem follow_target {m : Node} (h : c.follow n k = .ok (m, l)) : c.target? n = some m := by
  cases n with
  | aliasOf mark anchor =>
      rw [follow] at h
      split at h
      · exact nomatch h
      rw [target?]
      cases found : c.anchors.lookup anchor with
      | none => rw [found] at h; exact nomatch h
      | some m' =>
          rw [found] at h
          obtain ⟨rfl, -⟩ := Prod.mk.inj (Except.ok.inj h)
          rfl
  | cut => exact nomatch h
  | _ =>
      obtain ⟨rfl, -⟩ := Prod.mk.inj (Except.ok.inj h)
      rfl

theorem of_visit {read : Node → Reading α} {a : α} (h : c.visit t n read k = .ok (a, l)) :
    ∃ m i, c.target? n = some m ∧ read m i = .ok (a, l) := by
  obtain ⟨m, i, follow, h⟩ := of_bind h
  exact ⟨m, i, follow_target follow, placed_eq_ok_iff.mp h⟩

/-! ### Scalars, lists and choices -/

/-- The text of the scalar to which a node leads. -/
def textOf? (c : Content) (n : Node) : Option String :=
  match c.target? n with
  | some (.scalar _ _ text _) => some (String.ofList text)
  | _ => none

theorem text_meant {expected s : String} (h : c.text expected t n k = .ok (s, l)) :
    c.textOf? n = some s := by
  obtain ⟨m, i, target, read⟩ := of_visit h
  rw [textOf?, target]
  cases m with
  | scalar mark tag text style => exact congrArg some (of_pure read)
  | _ => exact nomatch read

/-- The boolean that the node leads to. -/
def boolOf? (c : Content) (n : Node) : Option Bool :=
  match c.target? n with
  | some (.scalar _ _ text _) => Plain.bool? text
  | _ => none

theorem bool_meant {b : Bool} (h : c.bool t n k = .ok (b, l)) : c.boolOf? n = some b := by
  obtain ⟨m, i, target, read⟩ := of_visit h
  rw [boolOf?, target]
  cases m with
  | scalar mark tag text style =>
      cases found : if mayBe "bool" false tag style then Plain.bool? text else none with
      | none => simp only [found] at read; exact nomatch read
      | some b' =>
          simp only [found] at read
          obtain rfl := of_pure read
          exact (Option.ite_none_right_eq_some.mp found).2
  | _ => exact nomatch read

/-- The count that the node leads to. -/
def countOf? (c : Content) (n : Node) : Option Nat :=
  match c.target? n with
  | some (.scalar _ _ text _) => Plain.unsigned? Plain.greatestWord text
  | _ => none

theorem count_meant {underTag : Bool} {i : Nat} (h : c.count t underTag n k = .ok (i, l)) :
    c.countOf? n = some i := by
  obtain ⟨m, j, target, read⟩ := of_visit h
  rw [countOf?, target]
  cases m with
  | scalar mark tag text style =>
      cases found : if mayBe "int" underTag tag style then
          Plain.unsigned? Plain.greatestWord text else none with
      | none => simp only [found] at read; exact nomatch read
      | some i' =>
          simp only [found] at read
          obtain rfl := of_pure read
          exact (Option.ite_none_right_eq_some.mp found).2
  | _ => exact nomatch read

/-- The items of the list to which a node leads, each as `meaning` has it. -/
def listOf? (c : Content) (meaning : Node → Option α) (n : Node) : Option (List α) :=
  match c.target? n with
  | some (.sequence _ _ items) => items.mapM meaning
  | some n => if n.isNothing then some [] else none
  | none => none

theorem items_meant {read : Trail → Node → Reading α} {meaning : Node → Option α}
    (meant : ∀ t n k a l, read t n k = .ok (a, l) → meaning n = some a) {items : List Node} :
    ∀ {i k : Nat} {as : List α},
      ((items.zipIdx i).mapM fun p => read (.item t p.2) p.1) k = .ok (as, l) →
        items.mapM meaning = some as := by
  induction items with
  | nil =>
      intro i k as h
      exact congrArg some (of_pure h)
  | cons n ns ih =>
      intro i k as h
      rw [List.zipIdx_cons, List.mapM_cons] at h
      obtain ⟨a, j, first, h⟩ := of_bind h
      obtain ⟨as, j, rest, h⟩ := of_bind h
      obtain ⟨rfl, rfl⟩ := Prod.mk.inj (Except.ok.inj h)
      rw [List.mapM_cons, meant _ _ _ _ _ first, ih rest]
      rfl

theorem list_meant {read : Trail → Node → Reading α} {meaning : Node → Option α}
    (meant : ∀ t n k a l, read t n k = .ok (a, l) → meaning n = some a) {as : List α}
    (h : c.list read t n k = .ok (as, l)) : c.listOf? meaning n = some as := by
  obtain ⟨m, i, target, read⟩ := of_visit h
  rw [listOf?, target]
  have nothing {m : Node} (read : (if m.isNothing then pure [] else
      fail (mismatch c "a sequence" m) : Reading (List α)) i = .ok (as, l)) :
      (if m.isNothing then some [] else none) = some as := by
    split at read
    · next h => rw [if_pos h, of_pure read]
    · exact nomatch read
  cases m with
  | sequence mark tag items => exact items_meant meant read
  | _ => exact nothing read

theorem texts_meant {expected : String} {texts : List String}
    (h : c.list (c.text expected) t n k = .ok (texts, l)) : c.listOf? c.textOf? n = some texts :=
  list_meant (fun _ _ _ _ _ read => text_meant read) h

/-- The name and the content of the variant to which a node leads.  A tag names the variant of the node
under it. -/
def variantOf? (c : Content) (n : Node) : Option (String × Option Node) :=
  match c.target? n with
  | some m => match localTag? m.tag, m with
    | some name, _ => some (name, some m)
    | none, .scalar _ _ text _ => some (String.ofList text, none)
    | none, _ => none
  | none => none

theorem variant_meant {names : List String} {build : String → Option Node → Reading α} {a : α}
    (h : c.variant names build t n k = .ok (a, l)) :
    ∃ name content i, c.variantOf? n = some (name, content) ∧ name ∈ names ∧
      build name content i = .ok (a, l) := by
  obtain ⟨m, i, follow, h⟩ := of_bind h
  have target := follow_target follow
  have named {name : String} {content : Option Node}
      (h : (if names.contains name then build name content
        else complain (.unknownVariant name names)) i = .ok (a, l)) :
      name ∈ names ∧ build name content i = .ok (a, l) := by
    split at h
    · next known => exact ⟨List.contains_iff_mem.mp known, h⟩
    · exact nomatch h
  have unplaced : ∀ r : Reading α, (match n with
      | .aliasOf mark _ => r.placed mark t | _ => r) i = .ok (a, l) → r i = .ok (a, l) := by
    intro r h
    cases n with
    | aliasOf mark anchor => exact placed_eq_ok_iff.mp h
    | _ => exact h
  have chosen := unplaced _ h
  rw [variantOf?, target]
  cases tag : localTag? m.tag with
  | some name =>
      simp only [tag] at chosen ⊢
      exact ⟨name, some m, i, rfl, named chosen⟩
  | none =>
      simp only [tag] at chosen ⊢
      cases m with
      | scalar mark tag text style => exact ⟨_, none, i, rfl, named (placed_eq_ok_iff.mp chosen)⟩
      | sequence => exact nomatch placed_eq_ok_iff.mp chosen
      | mapping => exact nomatch placed_eq_ok_iff.mp chosen
      | _ => exact nomatch chosen

/-! ### Records -/

theorem fieldName_meant {fields : Fields} {name : String}
    (h : c.fieldName fields t n k = .ok (name, l)) : c.textOf? n = some name := by
  obtain ⟨m, i, target, read⟩ := of_visit h
  rw [textOf?, target]
  cases m with
  | scalar mark tag text style =>
      dsimp only at read
      split at read
      · exact nomatch read
      · exact congrArg some (of_pure read)
  | _ => exact nomatch read

/-- **A part of a record is what its field says, or what it was if the field does not occur.**  The part
is `get`, its field is called `key`, and `Meant` relates the value of the field to the part. -/
theorem fieldsInto_meant {σ β : Type} {fields : Fields} {read : σ → String → Trail → Node → Reading σ}
    {get : σ → β} {key : String} {Meant : Node → β → Prop} (known : key ∈ fields.known)
    (own : ∀ s t n k s' l, read s key t n k = .ok (s', l) → Meant n (get s'))
    (other : ∀ s name t n k s' l, name ∈ fields.known → name ≠ key →
      read s name t n k = .ok (s', l) → get s' = get s)
    {s' : σ} {es : List (Node × Node)} : ∀ {seen : List String} {s : σ} {k : Nat},
      c.fieldsInto fields t read seen s es k = .ok (s', l) →
        ((key ∈ seen ∨ ∀ e ∈ es, c.textOf? e.1 ≠ some key) → get s' = get s) ∧
        ∀ e ∈ es, c.textOf? e.1 = some key → key ∉ seen ∧ Meant e.2 (get s') := by
  induction es with
  | nil =>
      intro seen s k h
      obtain rfl := of_pure h
      exact ⟨fun _ => rfl, nofun⟩
  | cons e es ih =>
      intro seen s k h
      obtain ⟨k', v⟩ := e
      rw [fieldsInto] at h
      obtain ⟨name, i, named, h⟩ := of_bind h
      have spelled := fieldName_meant named
      -- The field of another name leaves the part alone.
      have skip {seen' : List String} {s₁ : σ} {j : Nat} (differs : name ≠ key) (same : get s₁ = get s)
          (as : key ∈ seen' ↔ key ∈ seen) (h : c.fieldsInto fields t read seen' s₁ es j = .ok (s', l)) :
          ((key ∈ seen ∨ ∀ e ∈ (k', v) :: es, c.textOf? e.1 ≠ some key) → get s' = get s) ∧
          ∀ e ∈ (k', v) :: es, c.textOf? e.1 = some key → key ∉ seen ∧ Meant e.2 (get s') := by
        obtain ⟨kept, meant⟩ := ih h
        refine ⟨fun absent => (kept ?_).trans same, fun e member found => ?_⟩
        · exact absent.imp as.mpr fun none e member => none e (List.mem_cons_of_mem _ member)
        · obtain rfl | later := List.mem_cons.mp member
          · exact absurd (Option.some.inj (spelled.symm.trans found)) differs
          · exact (meant e later found).imp_left (mt as.mpr)
      split at h
      · next passed =>
          obtain ⟨-, j, -, h⟩ := of_bind h
          refine skip ?_ rfl Iff.rfl h
          rintro rfl
          simp [known] at passed
      next known' =>
      split at h
      · exact nomatch h
      next fresh =>
      obtain ⟨s₁, j, read, h⟩ := of_bind h
      by_cases same : name = key
      · subst same
        obtain ⟨kept, meant⟩ := ih h
        have final : Meant v (get s') := by
          rw [kept (.inl List.mem_cons_self)]
          exact own _ _ _ _ _ _ read
        have unseen : name ∉ seen := fun seen => fresh (List.contains_iff_mem.mpr seen)
        refine ⟨fun absent => ?_, fun e member found => ⟨unseen, ?_⟩⟩
        · obtain seen | none := absent
          · exact absurd seen unseen
          · exact absurd spelled (none _ List.mem_cons_self)
        · obtain rfl | later := List.mem_cons.mp member
          · exact final
          · exact absurd List.mem_cons_self (meant e later found).1
      · have among : name ∈ fields.known := by simpa using known'
        exact skip same (other _ _ _ _ _ _ _ among same read) (by simp [Ne.symm same]) h

/-- The entries of the mapping to which a node leads, none if it is no mapping. -/
def entriesOf (c : Content) (n : Node) : List (Node × Node) :=
  match c.target? n with
  | some (.mapping _ _ es) => es
  | _ => []

/-- A mapping has an entry for the field of a name, whose value is `v`. -/
def HasField (c : Content) (n : Node) (name : String) (v : Node) : Prop :=
  ∃ k, (k, v) ∈ c.entriesOf n ∧ c.textOf? k = some name

/-- **A part of a record that was read is what its field says, or what it was at the start.** -/
theorem record_meant {σ β : Type} {fields : Fields} {read : σ → String → Trail → Node → Reading σ}
    {key : String} (get : σ → β) (Meant : Node → β → Prop) (known : key ∈ fields.known)
    (own : ∀ s t n k s' l, read s key t n k = .ok (s', l) → Meant n (get s'))
    (other : ∀ s name t n k s' l, name ∈ fields.known → name ≠ key →
      read s name t n k = .ok (s', l) → get s' = get s)
    {expected : String} {start s : σ}
    (h : c.record expected fields start read pure t n k = .ok (s, l)) :
    ((∀ v, ¬ c.HasField n key v) → get s = get start) ∧ ∀ v, c.HasField n key v → Meant v (get s) := by
  obtain ⟨m, i, target, h⟩ := of_visit h
  simp only [HasField, entriesOf, target]
  have nothing {m : Node} (h : (if m.isNothing then pure start else
      fail (mismatch c expected m) : Reading σ) i = .ok (s, l)) : start = s := by
    split at h
    · exact of_pure h
    · exact nomatch h
  cases m with
  | mapping mark tag es =>
      obtain ⟨s', j, read, h⟩ := of_bind h
      obtain rfl := of_pure h
      obtain ⟨kept, meant⟩ := fieldsInto_meant known own other read
      refine ⟨fun absent => kept (.inr fun e member found => ?_), fun v field => ?_⟩
      · exact absent e.2 ⟨e.1, member, found⟩
      · obtain ⟨k', member, found⟩ := field
        exact (meant _ member found).2
  | _ =>
      obtain rfl := nothing h
      exact ⟨fun _ => rfl, by rintro v ⟨k', member, -⟩; exact nomatch member⟩

end Content

end ProjectIndex.Yaml
