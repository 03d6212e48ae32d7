import ProjectIndex.Proofs.Yaml.QuietTokens
import ProjectIndex.Proofs.Yaml.Readings

/-!
# The document of a quiet text

A quiet text denotes no collection: its document is nothing at all, a plain scalar, or a place at which
the text breaks off (`root_quiet`), and so its value, if it has one, is no mapping
(`Value.ofText_ne_mapping`).

The tokens of such a text take the automaton through the few phases around a block node
(`Parser.Calm.next`), in which it starts no collection.
-/

namespace ProjectIndex.Yaml

/-- The events of a quiet text: plain scalars without anchor and tag, and the edges of documents and of
the stream. -/
inductive EventKind.Quiet : EventKind → Prop
  | streamStart : Quiet .streamStart
  | streamEnd : Quiet .streamEnd
  | documentStart : Quiet .documentStart
  | documentEnd : Quiet .documentEnd
  | scalar (text : List Char) : Quiet (.scalar none none text .plain)

/-- The phases around a block node. -/
inductive Phase.Calm : Phase → Prop
  | streamStart : Calm .streamStart
  | firstDocument : Calm .firstDocument
  | document : Calm .document
  | documentEnd : Calm .documentEnd
  | blockNode : Calm .blockNode
  | done : Calm .done

/-! ### The automaton -/

namespace Parser

variable {p q : Parser} {e : Event} {t : Token}

/-- Quiet tokens are ahead, and no collection is open. -/
structure Calm (p : Parser) : Prop where
  tokens : ∀ t ∈ p.tokens, t.kind.Quiet
  phase : p.phase.Calm
  returns : ∀ r ∈ p.returns, r = .documentEnd

theorem Calm.peek (h : p.Calm) (ahead : p.peek = .ok t) : t.kind.Quiet := by
  rw [Parser.peek] at ahead
  split at ahead
  · next u us _ found =>
      obtain rfl := Except.ok.inj ahead
      exact h.tokens _ (found ▸ List.mem_cons_self)
  · exact nomatch ahead
  · obtain rfl := Except.ok.inj ahead
    exact .streamEnd

theorem Calm.skip (h : p.Calm) : p.skip.Calm :=
  ⟨fun t member => h.tokens t (List.mem_of_mem_drop member), h.phase, h.returns⟩

theorem Calm.goto (h : p.Calm) {phase : Phase} (calm : phase.Calm) : (p.goto phase).Calm :=
  ⟨h.tokens, calm, h.returns⟩

theorem Calm.back (h : p.Calm) : p.back.Calm := by
  refine ⟨h.tokens, ?_, fun r member => h.returns r (List.mem_of_mem_drop member)⟩
  rw [Parser.back]
  cases returns : p.returns with
  | nil => exact .done
  | cons r rs =>
      obtain rfl := h.returns r (returns ▸ List.mem_cons_self)
      exact .documentEnd

/-- No properties stand in front of a quiet token. -/
theorem properties_eq (ahead : p.peek = .ok t) (quiet : t.kind.Quiet) :
    p.properties = .ok (⟨none, none, t.start⟩, p) := by
  obtain ⟨kind, start, stop⟩ := t
  rw [properties, ahead]
  cases quiet <;> rfl

/-- The only node that quiet tokens spell is a plain scalar. -/
theorem Calm.node (h : p.Calm) (next : p.node true false = .ok (e, q)) : e.kind.Quiet ∧ q.Calm := by
  obtain ⟨t, ahead, next⟩ := eq_ok_of_bind next
  have quiet := h.peek ahead
  have plain := properties_eq ahead quiet
  obtain ⟨kind, start, stop⟩ := t
  cases quiet with
  | scalar text =>
      simp only [plain, ahead, resolveTag, bind, Except.bind] at next
      obtain ⟨rfl, rfl⟩ := Prod.mk.inj (Except.ok.inj next)
      exact ⟨.scalar text, h.back.skip⟩
  | streamStart =>
      simp only [plain, ahead, resolveTag, bind, Except.bind] at next
      exact nomatch next
  | streamEnd =>
      simp only [plain, ahead, resolveTag, bind, Except.bind] at next
      exact nomatch next

/-- Quiet tokens hold no directives. -/
theorem directives_eq {ts : List Token} (quiet : ∀ t ∈ ts, t.kind.Quiet) (version : Bool)
    (handles : List (Bytes × Bytes)) : p.directives ts version handles =
      .ok { p with tokens := ts, handles := handles ++ defaultHandles } := by
  cases ts with
  | nil => rw [directives]; rfl
  | cons t ts =>
      have first := quiet t List.mem_cons_self
      obtain ⟨kind, start, stop⟩ := t
      rw [directives]
      cases first <;> rfl

theorem Calm.documentStart (h : p.Calm) {isFirst : Bool}
    (next : p.documentStart isFirst = .ok (e, q)) : e.kind.Quiet ∧ q.Calm := by
  have calm : (if isFirst then p else p.skipDocumentEnds).Calm := by
    split
    · exact h
    · exact ⟨fun t member => h.tokens t (List.dropWhile_sublist _ |>.subset member), h.phase, h.returns⟩
  rw [Parser.documentStart] at next
  generalize (if isFirst then p else p.skipDocumentEnds) = p at calm next
  obtain ⟨t, ahead, next⟩ := eq_ok_of_bind next
  have quiet := calm.peek ahead
  split at next
  · obtain ⟨rfl, rfl⟩ := Prod.mk.inj (Except.ok.inj next)
    exact ⟨.streamEnd, (calm.goto .done).skip⟩
  split at next
  · obtain ⟨rfl, rfl⟩ := Prod.mk.inj (Except.ok.inj next)
    exact ⟨.documentStart, calm.tokens, .blockNode, List.forall_mem_cons.mpr ⟨rfl, calm.returns⟩⟩
  · rw [directives_eq calm.tokens] at next
    obtain ⟨r, read, next⟩ := eq_ok_of_bind next
    obtain rfl := Except.ok.inj read
    obtain ⟨u, ahead, next⟩ := eq_ok_of_bind next
    -- The start of a document that says so is no quiet token.
    have other : u.kind.Quiet := Calm.peek ⟨calm.tokens, calm.phase, calm.returns⟩ ahead
    split at next
    · next opens =>
        rw [beq_iff_eq.mp opens] at other
        exact nomatch other
    · exact nomatch next

/-- **Quiet tokens give quiet events.** -/
theorem Calm.next (h : p.Calm) (next : p.next = .ok (e, q)) : e.kind.Quiet ∧ q.Calm := by
  rw [Parser.next] at next
  cases phase : p.phase with
  | streamStart =>
      rw [phase] at next
      obtain ⟨t, -, next⟩ := eq_ok_of_bind next
      obtain ⟨rfl, rfl⟩ := Prod.mk.inj (Except.ok.inj next)
      exact ⟨.streamStart, (h.goto .firstDocument).skip⟩
  | firstDocument => rw [phase] at next; exact h.documentStart next
  | document => rw [phase] at next; exact h.documentStart next
  | blockNode => rw [phase] at next; exact h.node next
  | documentEnd =>
      rw [phase] at next
      obtain ⟨t, ahead, next⟩ := eq_ok_of_bind next
      obtain ⟨rfl, rfl⟩ := Prod.mk.inj (Except.ok.inj next)
      have calm : (if t.kind == .documentEnd then p.skip else p).Calm := by
        split
        · exact h.skip
        · exact h
      exact ⟨.documentEnd, calm.tokens, .document, calm.returns⟩
  | done =>
      rw [phase] at next
      obtain ⟨t, -, next⟩ := eq_ok_of_bind next
      obtain ⟨rfl, rfl⟩ := Prod.mk.inj (Except.ok.inj next)
      exact ⟨.streamEnd, h⟩
  | _ => exact nomatch phase ▸ h.phase

theorem Calm.run (fuel : Nat) : ∀ {p : Parser}, p.Calm → ∀ e ∈ (p.run fuel).1, e.kind.Quiet := by
  induction fuel with
  | zero => exact fun _ _ member => nomatch member
  | succ fuel ih =>
      intro p h e member
      rw [Parser.run] at member
      split at member
      · exact nomatch member
      next f q next =>
      obtain ⟨quiet, calm⟩ := h.next next
      split at member
      · obtain rfl := List.mem_singleton.mp member
        exact quiet
      · obtain rfl | later := List.mem_cons.mp member
        · exact quiet
        · exact ih calm e later

end Parser

/-- The automaton starts calmly on a quiet text. -/
theorem events_quiet {text : List Char} (h : isQuiet .margin text = true) :
    ∀ e ∈ (events (.ofText text)).1, e.kind.Quiet :=
  Parser.Calm.run _ ⟨tokens_quiet h, .streamStart, nofun⟩

/-! ### The document -/

/-- The nodes that a quiet text can consist of. -/
inductive Node.Quiet : Node → Prop
  | scalar (mark : Mark) (text : List Char) : Quiet (.scalar mark none text .plain)
  | void (mark : Mark) : Quiet (.void mark)
  | cut : Quiet .cut

namespace Gathering

/-- No collection is open, and what was gathered is quiet. -/
structure Calm (g : Gathering) : Prop where
  opened : g.opened = []
  root : ∀ n, g.root = some n → n.Quiet

variable {g : Gathering}

theorem Calm.place (h : g.Calm) {n : Node} (quiet : n.Quiet) : (g.place n).Calm := by
  rw [Gathering.place, h.opened]
  exact ⟨rfl, fun m found => Option.some.inj found ▸ quiet⟩

theorem Calm.finish (h : g.Calm) (error : Option Error) (hasMore : Bool) :
    (g.finish error hasMore).root.Quiet := by
  rw [Gathering.finish, h.opened]
  cases root : g.root with
  | none => simp only [List.isEmpty_nil, if_true, root]; exact .cut
  | some n => simp only [List.isEmpty_nil, if_true, root]; exact h.root n root

theorem Calm.run {fault : Option Fault} (es : List Event) : ∀ {g : Gathering}, g.Calm →
    (∀ e ∈ es, e.kind.Quiet) → (g.run fault es).root.Quiet := by
  induction es with
  | nil => exact fun h _ => h.finish _ _
  | cons e es ih =>
      intro g h quiet
      obtain ⟨first, rest⟩ := List.forall_mem_cons.mp quiet
      obtain ⟨kind, mark⟩ := e
      rw [Gathering.run]
      cases first with
      | streamStart => exact ih h rest
      | documentStart => exact ih h rest
      | documentEnd => exact h.finish _ _
      | streamEnd =>
          dsimp only
          split
          · have counted : g.count.Calm := ⟨h.opened, h.root⟩
            exact (counted.place (.void mark)).finish _ _
          · exact h.finish _ _
      | scalar text =>
          have placed := h.place (.scalar mark text)
          exact ih ⟨placed.opened, placed.root⟩ rest

end Gathering

/-- **The document of a quiet text is a plain scalar, if it is anything.** -/
theorem root_quiet {text : List Char} (h : isQuiet .margin text = true) :
    (Content.ofText text).root.Quiet :=
  Gathering.Calm.run _ ⟨rfl, nofun⟩ (events_quiet h)

/-! ### The value -/

theorem Node.Quiet.value_ne_mapping {n : Node} (h : n.Quiet) {c : Content} {depth : Nat} {t : Trail}
    {k k' : Nat} {v : Value} (read : c.value depth t false n k = .ok (v, k')) (es : Entries) :
    v ≠ .mapping es := by
  obtain ⟨deeper, value⟩ : ∃ deeper, c.value depth = c.valueWith deeper := by
    cases depth <;> exact ⟨_, rfl⟩
  rw [value] at read
  cases h with
  | cut => exact nomatch read
  | void mark =>
      obtain ⟨rfl, -⟩ := Prod.mk.inj (Except.ok.inj read)
      nofun
  | scalar mark text =>
      have bare : c.bareValue deeper t false (.scalar mark none text .plain) k = .ok (v, k') :=
        Reading.placed_eq_ok_iff.mp read
      rw [Content.bareValue, scalarMeaning] at bare
      cases denoted : Plain.ofChars text with
      | wideInt n => simp only [denoted] at bare; exact nomatch bare
      | _ =>
          simp only [denoted] at bare
          obtain rfl := Reading.of_pure bare
          nofun

/-- **The value of a quiet text is no mapping.** -/
theorem Value.ofText_ne_mapping {text : String} (h : isQuiet .margin text.toList = true)
    (es : Entries) : Value.ofText text ≠ .ok (.mapping es) := by
  intro read
  rw [Value.ofText, Content.run_eq_ok_iff] at read
  obtain ⟨⟨k, read⟩, -⟩ := read
  exact (root_quiet h).value_ne_mapping read es rfl

end ProjectIndex.Yaml
