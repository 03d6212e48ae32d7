import ProjectIndex.Proofs.Yaml.Written.Tokens
import ProjectIndex.Yaml.Node

/-!
# The document of a written record

The tokens of a record lead the automaton through a block mapping, two events a field
(`Parser.run_fields`), and the events are gathered into one mapping of plain names and texts in their
styles: `content_record`.  Places play no part in this, so tokens and events are followed by their kinds.
-/

namespace ProjectIndex.Yaml

open Written

/-- A field of a record: its name, its text, and the style of the text. -/
abbrev Field := List Char × List Char × ScalarStyle

variable {fields : List Field} {fault : Option Fault} {n : Nat}

/-- The events of a field. -/
def fieldEvents (f : Field) : List EventKind :=
  [.scalar none none f.1 .plain, .scalar none none f.2.1 f.2.2]

theorem length_fieldKinds (fields : List Field) : (fields.flatMap fieldKinds).length = 4 * fields.length := by
  induction fields with
  | nil => rfl
  | cons f fields ih =>
      rw [List.flatMap_cons, List.length_append, ih, List.length_cons, Nat.mul_succ, Nat.add_comm]
      rfl

/-! ### The automaton -/

namespace Parser

variable {p q : Parser} {e : Event} {ts : List Token} {kinds : List TokenKind} {began : Mark}
  {returns : List Phase} {handles : List (Bytes × Bytes)}

theorem run_succ (next : p.next = .ok (e, q)) (goesOn : e.kind ≠ .streamEnd) :
    p.run (n + 1) = (e :: (q.run n).1, (q.run n).2) := by
  rw [run, next]
  exact if_neg goesOn

/-- A token of the kind that is ahead. -/
theorem exists_token {k : TokenKind} (same : ts.map (·.kind) = k :: kinds) :
    ∃ start stop ts', ts = ⟨k, start, stop⟩ :: ts' ∧ ts'.map (·.kind) = kinds := by
  obtain ⟨t, ts', rfl, rfl, rest⟩ := List.map_eq_cons_iff.mp same
  exact ⟨t.start, t.stop, ts', rfl, rest⟩

/-- The key of an entry of a block mapping. -/
theorem next_key {s : List Char} {start stop start' stop' : Mark} :
    (Parser.mk (⟨.key, start, stop⟩ :: ⟨.scalar s .plain, start', stop'⟩ :: ts) none (.blockMappingKey began)
      returns handles).next =
      .ok (⟨.scalar none none s .plain, start'⟩, ⟨ts, none, .blockMappingValue began, returns, handles⟩) := by
  rfl

/-- The first key is read like any other. -/
theorem next_firstKey {s : List Char} {open_ close start stop start' stop' : Mark} :
    (Parser.mk (⟨.blockMappingStart, open_, close⟩ :: ⟨.key, start, stop⟩ :: ⟨.scalar s .plain, start', stop'⟩ ::
      ts) none .blockMappingFirst returns handles).next =
      .ok (⟨.scalar none none s .plain, start'⟩, ⟨ts, none, .blockMappingValue open_, returns, handles⟩) := by
  rfl

/-- The value of an entry of a block mapping. -/
theorem next_value {s : List Char} {style : ScalarStyle} {start stop start' stop' : Mark} :
    (Parser.mk (⟨.value, start, stop⟩ :: ⟨.scalar s style, start', stop'⟩ :: ts) none
      (.blockMappingValue began) returns handles).next =
      .ok (⟨.scalar none none s style, start'⟩, ⟨ts, none, .blockMappingKey began, returns, handles⟩) := by
  rfl

/-- The end of a record is the end of its document and of the stream. -/
theorem run_end {start stop start' stop' : Mark} :
    (Parser.mk [⟨.blockEnd, start, stop⟩, ⟨.streamEnd, start', stop'⟩] none (.blockMappingKey began)
      [.documentEnd] handles).run (n + 3) =
      ([⟨.mappingEnd, start⟩, ⟨.documentEnd, start'⟩, ⟨.streamEnd, start'⟩], none) := by
  rfl

/-- **The fields of a record give two events each**, and then the record ends. -/
theorem run_fields (began : Mark) (handles : List (Bytes × Bytes)) 
    (same : ts.map (·.kind) = fields.flatMap fieldKinds ++ [.blockEnd, .streamEnd]) :
    ∃ es : List Event, es.map (·.kind) =
        fields.flatMap fieldEvents ++ [.mappingEnd, .documentEnd, .streamEnd] ∧
      ∀ n, (Parser.mk ts none (.blockMappingKey began) [.documentEnd] handles).run
        (n + 3 + 2 * fields.length) = (es, none) := by
  induction fields generalizing ts with
  | nil =>
      obtain ⟨start, stop, ts, rfl, same₁⟩ := exists_token same
      obtain ⟨start', stop', ts, rfl, same₂⟩ := exists_token same₁
      obtain rfl := List.map_eq_nil_iff.mp same₂
      exact ⟨_, rfl, fun n => run_end⟩
  | cons f fields ih =>
      obtain ⟨start, stop, ts, rfl, same₁⟩ := exists_token same
      obtain ⟨start₁, stop₁, ts, rfl, same₂⟩ := exists_token same₁
      obtain ⟨start₂, stop₂, ts, rfl, same₃⟩ := exists_token same₂
      obtain ⟨start₃, stop₃, ts, rfl, same₄⟩ := exists_token same₃
      obtain ⟨es, kinds, run⟩ := ih same₄
      refine ⟨⟨.scalar none none f.1 .plain, start₁⟩ :: ⟨.scalar none none f.2.1 f.2.2, start₃⟩ :: es, ?_,
        fun n => ?_⟩
      · rw [List.map_cons, List.map_cons, kinds]
        rfl
      · have rounds : n + 3 + 2 * (f :: fields).length = n + 3 + 2 * fields.length + 1 + 1 := by
          rw [List.length_cons]
          omega
        rw [rounds, run_succ next_key nofun, run_succ next_value nofun, run]

/-- **The events of the tokens of a record.** -/
theorem run_record {f : Field} (same : ts.map (·.kind) =
      .streamStart :: .blockMappingStart :: ((f :: fields).flatMap fieldKinds ++ [.blockEnd, .streamEnd])) :
    ∃ es : List Event, es.map (·.kind) = .streamStart :: .documentStart :: .mappingStart none none ::
        ((f :: fields).flatMap fieldEvents ++ [.mappingEnd, .documentEnd, .streamEnd]) ∧
      ∀ n, (Parser.mk ts none .streamStart [] []).run (n + 3 + 2 * (f :: fields).length + 3) = (es, none) := by
  obtain ⟨start, stop, ts, rfl, same₁⟩ := exists_token same
  obtain ⟨start', stop', ts, rfl, same₂⟩ := exists_token same₁
  obtain ⟨es, kinds, run⟩ := run_fields start' defaultHandles same₂
  refine ⟨⟨.streamStart, start⟩ :: ⟨.documentStart, start'⟩ :: ⟨.mappingStart none none, start'⟩ :: es, ?_,
    fun n => ?_⟩
  · rw [List.map_cons, List.map_cons, List.map_cons, kinds]
  -- The first key is read in a phase of its own, which makes no difference.
  have first : ∀ n, (Parser.mk (⟨.blockMappingStart, start', stop'⟩ :: ts) none .blockMappingFirst
      [.documentEnd] defaultHandles).run (n + 1) =
      (Parser.mk ts none (.blockMappingKey start') [.documentEnd] defaultHandles).run (n + 1) := by
    obtain ⟨start₁, stop₁, ts, rfl, same₃⟩ := exists_token same₂
    obtain ⟨start₂, stop₂, ts, rfl, -⟩ := exists_token same₃
    intro n
    rw [run_succ next_firstKey nofun, run_succ next_key nofun]
  have started : (Parser.mk (⟨.streamStart, start, stop⟩ :: ⟨.blockMappingStart, start', stop'⟩ :: ts) none
      .streamStart [] []).run (n + 3 + 2 * (f :: fields).length + 3) =
      (⟨.streamStart, start⟩ :: ⟨.documentStart, start'⟩ :: ⟨.mappingStart none none, start'⟩ ::
        ((Parser.mk (⟨.blockMappingStart, start', stop'⟩ :: ts) none .blockMappingFirst [.documentEnd]
          defaultHandles).run (n + 3 + 2 * (f :: fields).length)).1,
      ((Parser.mk (⟨.blockMappingStart, start', stop'⟩ :: ts) none .blockMappingFirst [.documentEnd]
          defaultHandles).run (n + 3 + 2 * (f :: fields).length)).2) := rfl
  have rounds : n + 3 + 2 * (f :: fields).length = n + 2 * (f :: fields).length + 2 + 1 := by omega
  rw [started, rounds, first, ← rounds, run]

end Parser

/-! ### The mapping -/

/-- An entry of a mapping that spells a field. -/
def Spells (f : Field) (e : Node × Node) : Prop :=
  ∃ m m', e = (.scalar m none f.1 .plain, .scalar m' none f.2.1 f.2.2)

/-- Keys and values in turn. -/
def inTurn (entries : List (Node × Node)) : List Node := entries.flatMap fun e => [e.1, e.2]

theorem pairUp_inTurn (entries : List (Node × Node)) : pairUp (inTurn entries) = entries := by
  induction entries with
  | nil => rfl
  | cons e entries ih => exact congrArg (e :: ·) ih

namespace Gathering

/-- A mapping that is being gathered, with the entries it has so far. -/
def within (size : Nat) (m : Mark) (entries : List (Node × Node)) : Gathering :=
  ⟨size, [], 0, [], [], [⟨m, none, true, none, (inTurn entries).reverse⟩], none⟩

theorem run_entry {size : Nat} {m m₁ m₂ : Mark} {entries : List (Node × Node)} {f : Field} {es : List Event} :
    (within size m entries).run fault
      (⟨.scalar none none f.1 .plain, m₁⟩ :: ⟨.scalar none none f.2.1 f.2.2, m₂⟩ :: es) =
      (within (size + 2) m (entries ++ [(.scalar m₁ none f.1 .plain, .scalar m₂ none f.2.1 f.2.2)])).run
        fault es := by
  have parts : (inTurn (entries ++ [((.scalar m₁ none f.1 .plain, .scalar m₂ none f.2.1 f.2.2) :
      Node × Node)])).reverse = .scalar m₂ none f.2.1 f.2.2 :: .scalar m₁ none f.1 .plain ::
        (inTurn entries).reverse := by
    simp [inTurn]
  rw [within, within, parts]
  rfl

/-- What was gathered between the ends of a mapping. -/
theorem close_within {size : Nat} {m : Mark} {entries : List (Node × Node)} :
    (within size m entries).close = ⟨size, [], 0, [], [], [], some (.mapping m none entries)⟩ := by
  have node : OpenNode.close ⟨m, none, true, none, (inTurn entries).reverse⟩ = .mapping m none entries := by
    rw [OpenNode.close, if_pos rfl, List.reverse_reverse, pairUp_inTurn]
  simp only [within, close, node]
  rfl

theorem exists_event {k : EventKind} {es : List Event} {kinds : List EventKind}
    (same : es.map (·.kind) = k :: kinds) : ∃ m es', es = ⟨k, m⟩ :: es' ∧ es'.map (·.kind) = kinds := by
  obtain ⟨e, es', rfl, rfl, rest⟩ := List.map_eq_cons_iff.mp same
  exact ⟨e.mark, es', rfl, rest⟩

/-- **The events of the fields are gathered into entries.** -/
theorem run_fields (fault : Option Fault) (size : Nat) (m : Mark) (entries : List (Node × Node)) {es : List Event}
    (same : es.map (·.kind) =
      fields.flatMap fieldEvents ++ [.mappingEnd, .documentEnd, .streamEnd]) :
    ∃ more size', List.Forall₂ Spells fields more ∧ (within size m entries).run fault es =
      ⟨.mapping m none (entries ++ more), [], size', none, false⟩ := by
  induction fields generalizing size entries es with
  | nil =>
      obtain ⟨m₁, es, rfl, same₁⟩ := exists_event same
      obtain ⟨m₂, es, rfl, same₂⟩ := exists_event same₁
      obtain ⟨m₃, es, rfl, same₃⟩ := exists_event same₂
      obtain rfl := List.map_eq_nil_iff.mp same₃
      refine ⟨[], size + 1, .nil, ?_⟩
      have closed : (within size m entries).run fault [⟨.mappingEnd, m₁⟩, ⟨.documentEnd, m₂⟩, ⟨.streamEnd, m₃⟩] =
          (within size m entries).close.count.run fault [⟨.documentEnd, m₂⟩, ⟨.streamEnd, m₃⟩] := rfl
      rw [closed, close_within, List.append_nil]
      rfl
  | cons f fields ih =>
      obtain ⟨m₁, es, rfl, same₁⟩ := exists_event same
      obtain ⟨m₂, es, rfl, same₂⟩ := exists_event same₁
      obtain ⟨more, size', spells, run⟩ := ih (size + 2) _ same₂
      refine ⟨_, size', .cons ⟨m₁, m₂, rfl⟩ spells, ?_⟩
      rw [run_entry, run, List.append_assoc]
      rfl

end Gathering

/-- **The document of a record** is a mapping of its fields. -/
theorem content_record {text : List Char} {f : Field} (h : Fields text (f :: fields)) :
    ∃ m entries size, List.Forall₂ Spells (f :: fields) entries ∧
      Content.ofText text = ⟨.mapping m none entries, [], size, none, false⟩ := by
  obtain ⟨faultless, kinds⟩ := tokens_record h
  obtain ⟨es, kinds', run⟩ := Parser.run_record kinds
  have long : (tokens (.ofText text)).1.length = 4 * (f :: fields).length + 4 := by
    rw [← List.length_map (f := fun t : Token => t.kind), kinds]
    simp only [List.length_cons, List.length_append, length_fieldKinds, List.length_nil]
  have read : events (.ofText text) = (es, none) := by
    have rounds : 4 * (tokens (.ofText text)).1.length + 8 =
        14 * (f :: fields).length + 18 + 3 + 2 * (f :: fields).length + 3 := by omega
    have begun : Parser.ofSource (.ofText text) = ⟨(tokens (.ofText text)).1, none, .streamStart, [], []⟩ := by
      rw [Parser.ofSource, ← faultless]
    rw [events, begun]
    simp only [rounds, run]
  obtain ⟨m₁, es, rfl, same₁⟩ := Gathering.exists_event kinds'
  obtain ⟨m₂, es, rfl, same₂⟩ := Gathering.exists_event same₁
  obtain ⟨m₃, es, rfl, same₃⟩ := Gathering.exists_event same₂
  obtain ⟨entries, size, spells, gathered⟩ := Gathering.run_fields none 1 m₃ [] same₃
  refine ⟨m₃, entries, size, spells, ?_⟩
  rw [Content.ofText, read]
  exact gathered

/-! ### Records -/

/-- A name that can be a key in front of its colon. -/
structure IsFieldName (name : List Char) : Prop where
  letters : ∀ c ∈ name, isNameChar c = true
  nonempty : name ≠ []
  short : name.length ≤ keyReach

/-- A field as it is written: a missing value is null, and a text is in the style that is chosen for it. -/
def writtenField (f : String × Option String) : Field :=
  (f.1.toList, match f.2 with
    | none => ("null".toList, .plain)
    | some s => (s.toList, styleOf s.toList))

theorem fields_ofRecord {fields : List (String × Option String)}
    (names : ∀ f ∈ fields, IsFieldName f.1.toList) :
    Fields (ofRecord fields).toList (fields.map writtenField) := by
  induction fields with
  | nil => exact .nil
  | cons f fields ih =>
      obtain ⟨first, later⟩ := List.forall_mem_cons.mp names
      obtain ⟨name, value⟩ := f
      have spelled : ∃ spelling, Scalar spelling (writtenField (name, value)).2.1 (writtenField (name, value)).2.2 ∧
          (ofRecord ((name, value) :: fields)).toList =
            name.toList ++ ':' :: ' ' :: (spelling ++ (ofRecord fields).toList) := by
        have joined : (ofRecord ((name, value) :: fields)).toList =
            (field name value).toList ++ (ofRecord fields).toList := by
          simp only [ofRecord, String.toList_join, List.map_cons, List.flatMap_cons]
        cases value with
        | none =>
            refine ⟨"null".toList ++ ['\n'], .plain (by decide) (by decide), ?_⟩
            simp only [joined, field, String.toList_append, List.append_assoc]
            rfl
        | some s =>
            refine ⟨text s.toList, scalar_text s.toList, ?_⟩
            simp only [joined, field, ofText, String.toList_append, String.toList_ofList, List.append_assoc]
            rfl
      obtain ⟨spelling, scalar, same⟩ := spelled
      rw [same]
      exact .cons first.letters first.nonempty first.short scalar (ih later)

end ProjectIndex.Yaml
