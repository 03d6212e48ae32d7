import ProjectIndex.Forms
import ProjectIndex.Proofs.Text.Utf8
import ProjectIndex.Proofs.Yaml.Readings
import ProjectIndex.Proofs.Yaml.Written.Tagged
import Mathlib.Data.List.Forall2

/-!
# Written forms read back

What is written of an entry or of a pick is read back as that entry or that pick:
`readText_written`.  The document of an entry is known (`content_record`), so it is read node by node, and
every reader gives what its node spells.  The suffix is the delicate part: it may be missing, which is
written as null, and a suffix that looks like null is not written plain.
-/

namespace ProjectIndex

open Yaml Written Reading

variable {c : Content} {t : Trail} {m : Mark} {k : Nat}

/-! ### Readers at work -/

namespace Yaml

namespace Reading

variable {α β : Type} {r : Reading α} {l : Nat}

theorem bind_of_ok {f : α → Reading β} {a : α} (h : r k = .ok (a, l)) : (r >>= f) k = f a l := by
  have sequence : (r >>= f) k = (r k >>= fun p => f p.1 p.2) := rfl
  rw [sequence, h]
  rfl

theorem map_of_ok {f : α → β} {a : α} (h : r k = .ok (a, l)) : (f <$> r) k = .ok (f a, l) :=
  bind_of_ok (f := fun a => pure (f a)) h

end Reading

namespace Content

variable {fields : Fields} {style : ScalarStyle}

theorem text_scalar (s : String) {expected : String} {tag : Option Bytes} :
    c.text expected t (.scalar m tag s.toList style) k = .ok (s, k) := by
  have read : c.text expected t (.scalar m tag s.toList style) k = .ok (String.ofList s.toList, k) := rfl
  rw [read, String.ofList_toList]

theorem fieldName_scalar {name : String} (known : name ∈ fields.known) :
    c.fieldName fields t (.scalar m none name.toList style) k = .ok (name, k) := by
  refine (bind_of_ok (a := .scalar m none name.toList style) (l := k) rfl).trans (placed_eq_ok_iff.mpr ?_)
  have passes : (fields.isClosed && !fields.known.contains name) = false := by
    simp [known]
  simp only [String.ofList_toList, passes, Bool.false_eq_true, if_false]
  rfl

/-- A written field that is known and new is read, and the next ones after it. -/
theorem fieldsInto_of_spells {σ : Type} {read : σ → String → Trail → Node → Reading σ} {seen : List String}
    {s : σ} (s' : σ) {name : String} {value : Option String} {e : Node × Node} {rest : List (Node × Node)} {l : Nat}
    (spells : Spells (writtenField (name, value)) e) (known : name ∈ fields.known) (fresh : name ∉ seen)
    (h : ∀ t m, read s name t (.scalar m none (writtenField (name, value)).2.1 (writtenField (name, value)).2.2) k =
      .ok (s', l)) :
    c.fieldsInto fields t read seen s (e :: rest) k = c.fieldsInto fields t read (name :: seen) s' rest l := by
  obtain ⟨m, m', rfl⟩ := spells
  have isKnown : (!fields.known.contains name) = false := by simp [known]
  have isFresh : seen.contains name = false := by simp [fresh]
  rw [fieldsInto]
  refine (bind_of_ok (fieldName_scalar known)).trans ?_
  simp only [isKnown, isFresh, Bool.false_eq_true, if_false]
  exact bind_of_ok (h _ _)

/-- A tagged scalar is read as the variant that its tag names. -/
theorem variant_tagged {α : Type} {names : List String} {build : String → Option Node → Reading α} {name : String}
    {tag : Option Bytes} {s : List Char} {a : α} {l : Nat} (named : localTag? tag = some name) (known : name ∈ names)
    (h : build name (some (.scalar m tag s style)) k = .ok (a, l)) :
    c.variant names build t (.scalar m tag s style) k = .ok (a, l) := by
  have isKnown : names.contains name = true := by simp [known]
  refine (bind_of_ok (a := .scalar m tag s style) (l := k) rfl).trans ?_
  have ahead : localTag? (Node.scalar m tag s style).tag = some name := named
  simp only [ahead, isKnown, if_true]
  exact h

/-- A record whose fields are all read is what they amount to. -/
theorem record_of_ok {σ α : Type} {expected : String} {start s : σ} {tag : Option Bytes}
    {read : σ → String → Trail → Node → Reading σ} {finish : σ → Reading α} {entries : List (Node × Node)} {a : α}
    {l : Nat} (h : c.fieldsInto fields t read [] start entries k = .ok (s, l)) (done : finish s = pure a) :
    c.record expected fields start read finish t (.mapping m tag entries) k = .ok (a, l) := by
  refine (bind_of_ok (a := .mapping m tag entries) (l := k) rfl).trans (placed_eq_ok_iff.mpr ?_)
  exact (bind_of_ok h).trans (congrFun done l)

end Content

end Yaml

/-! ### The parts of an entry -/

theorem EntryKind.read_name (kind : EntryKind) (style : ScalarStyle) :
    EntryKind.read c t (.scalar m none kind.name.toList style) k = .ok (kind, k) := by
  refine (bind_of_ok (a := .scalar m none kind.name.toList style) (l := k) rfl).trans ?_
  refine placed_eq_ok_iff.mpr ?_
  rw [String.ofList_toList]
  cases kind <;> rfl

/-- What looks like null is not written plain. -/
theorem isNull_of_plain {s : List Char} (plain : styleOf s = .plain) :
    (s.isEmpty || Plain.isNull s) = false := by
  have clear : Plain.isAmbiguous s = false := by
    obtain ⟨-, -, clear⟩ | ⟨other, -⟩ | other | ⟨other, -⟩ := styleOf_cases s
    · exact clear
    · exact nomatch plain.symm.trans other
    · exact nomatch plain.symm.trans other
    · exact nomatch plain.symm.trans other
  by_contra null
  have denotes : Plain.ofChars s = .null := if_pos (Bool.not_eq_false _ |>.mp null)
  rw [Plain.isAmbiguous, denotes] at clear
  exact nomatch clear

/-- A suffix is read as it was written, and a missing one as a missing one. -/
theorem optional_writtenField {name expected : String} (suffix : Option String) :
    c.optional (c.text expected t) (.scalar m none (writtenField (name, suffix)).2.1
      (writtenField (name, suffix)).2.2) k = .ok (suffix, k) := by
  refine (bind_of_ok (a := .scalar m none (writtenField (name, suffix)).2.1
      (writtenField (name, suffix)).2.2) (l := k) rfl).trans ?_
  cases suffix with
  | none => rfl
  | some s =>
      have read : (some <$> c.text expected t (.scalar m none s.toList (styleOf s.toList)) : Reading _) k =
          .ok (some s, k) := map_of_ok (Content.text_scalar s)
      rw [writtenField]
      by_cases plain : styleOf s.toList = .plain
      · have some : ¬ (s.toList.isEmpty || Plain.isNull s.toList) = true :=
          Bool.not_eq_true _ ▸ isNull_of_plain plain
        refine (congrFun (if_neg (not_not.mpr plain)) k).trans ?_
        exact (congrFun (if_neg some) k).trans read
      · exact (congrFun (if_pos plain) k).trans read

/-! ### Entries -/

namespace Entry

/-- The fields under which an entry with a text for a path is written. -/
def writtenFields (path : String) (kind : EntryKind) (suffix : Option String) : List (String × Option String) :=
  [("path", some path), ("kind", some kind.name), ("extension", suffix)]

/-- **An entry is read from the mapping that spells its fields.** -/
theorem read_spelled {path : String} {kind : EntryKind} {suffix : Option String} {entries : List (Node × Node)}
    (spells : List.Forall₂ Spells ((writtenFields path kind suffix).map writtenField) entries) :
    Entry.read c t (.mapping m none entries) k = .ok (⟨.ofString path, kind, suffix⟩, k) := by
  simp only [writtenFields, List.map_cons, List.map_nil, List.forall₂_cons_left_iff,
    List.forall₂_nil_left_iff] at spells
  obtain ⟨_, _, first, ⟨_, _, second, ⟨_, _, third, rfl, rfl⟩, rfl⟩, rfl⟩ := spells
  refine Content.record_of_ok (s := ⟨some (.ofString path), some kind, suffix⟩) ?_ rfl
  refine Eq.trans (Content.fieldsInto_of_spells ⟨some (.ofString path), none, none⟩ (l := k) first (by decide)
    (by decide) fun t m => ?_) ?_
  · exact bind_of_ok (Content.text_scalar path)
  refine Eq.trans (Content.fieldsInto_of_spells ⟨some (.ofString path), some kind, none⟩ (l := k) second
    (by decide) (by decide) fun t m => ?_) ?_
  · exact bind_of_ok (EntryKind.read_name kind _)
  refine Eq.trans (Content.fieldsInto_of_spells ⟨some (.ofString path), some kind, suffix⟩ (l := k) third
    (by decide) (by decide) fun t m => ?_) rfl
  exact bind_of_ok (optional_writtenField suffix)

/-- **A written entry is read back.** -/
theorem readText_ofRecord (path : String) (kind : EntryKind) (suffix : Option String) :
    readText (ofRecord (writtenFields path kind suffix)) Entry.read = .ok ⟨.ofString path, kind, suffix⟩ := by
  have names : ∀ f ∈ writtenFields path kind suffix, IsFieldName f.1.toList := by
    simp only [writtenFields, List.forall_mem_cons]
    exact ⟨⟨List.all_eq_true.mp rfl, by decide, by decide⟩, ⟨List.all_eq_true.mp rfl, by decide, by decide⟩,
      ⟨List.all_eq_true.mp rfl, by decide, by decide⟩, nofun⟩
  obtain ⟨m, entries, size, spells, content⟩ := content_record (fields_ofRecord names)
  rw [readText, content]
  exact Content.run_eq_ok_iff.mpr ⟨⟨0, read_spelled spells⟩, rfl, rfl⟩

end Entry

/-! ### Picks -/

namespace Pick

theorem readText_first : readText first.written Pick.read = .ok first := by
  rfl

theorem readText_last : readText last.written Pick.read = .ok last := by
  rfl

/-- The digits of a number are its count, under whatever tag. -/
theorem countContent_digits {tag : Option Bytes} {n : Nat} (fits : n ≤ Plain.greatestWord) :
    c.countContent t (some (.scalar m tag (Nat.toDigits 10 n) .plain)) k = .ok (n, k) := by
  refine (bind_of_ok (a := .scalar m tag (Nat.toDigits 10 n) .plain) (l := k) rfl).trans (placed_eq_ok_iff.mpr ?_)
  have counted : (if Content.mayBe "int" true tag .plain then
      Plain.unsigned? Plain.greatestWord (Nat.toDigits 10 n) else none) = some n := unsigned?_toDigits fits
  simp only [counted]
  rfl

theorem localTag?_nth : localTag? (some (asciiByte '!' :: tagBytes "nth".toList)) = some "nth" := by
  decide +kernel

theorem localTag?_fromEnd : localTag? (some (asciiByte '!' :: tagBytes "from_end".toList)) = some "from_end" := by
  decide +kernel

/-- **A pick that counts is read back**, if the number fits into 64 bits. -/
theorem readText_nth {n : Nat} (fits : n ≤ Plain.greatestWord) :
    readText (nth n).written Pick.read = .ok (nth n) := by
  obtain ⟨m, content⟩ := content_ofTagged "nth" (List.all_eq_true.mp rfl) (by decide) (by decide) n
  rw [written, readText, content]
  refine Content.run_eq_ok_iff.mpr ⟨⟨0, ?_⟩, rfl, rfl⟩
  refine Content.variant_tagged localTag?_nth (by decide) ?_
  rw [if_pos rfl]
  exact map_of_ok (countContent_digits fits)

theorem readText_fromEnd {n : Nat} (fits : n ≤ Plain.greatestWord) :
    readText (fromEnd n).written Pick.read = .ok (fromEnd n) := by
  obtain ⟨m, content⟩ := content_ofTagged "from_end" (List.all_eq_true.mp rfl) (by decide) (by decide) n
  rw [written, readText, content]
  refine Content.run_eq_ok_iff.mpr ⟨⟨0, ?_⟩, rfl, rfl⟩
  refine Content.variant_tagged localTag?_fromEnd (by decide) ?_
  rw [if_neg (by decide), if_pos rfl]
  exact map_of_ok (countContent_digits fits)

end Pick

/-! ### The round trip -/

/-- **What is written of an entry or of a pick reads back as it was**: an entry whose path is a text, of
whatever kind and with whatever suffix, and a pick whose number fits into 64 bits.  An entry whose path is no
text is not written at all. -/
theorem readText_written :
    (∀ e : Entry, (∃ s, e.path.bytes = Utf8.encode s) →
      ∃ text, e.written = .ok text ∧ readText text Entry.read = .ok e) ∧
    (∀ e : Entry, (¬ ∃ s, e.path.bytes = Utf8.encode s) → e.written = .error (.unplaced .pathNotText)) ∧
    ∀ p : Pick, (∀ n, p = .nth n ∨ p = .fromEnd n → n < UInt64.size) → readText p.written Pick.read = .ok p := by
  refine ⟨?entries, ?others, ?picks⟩
  case entries =>
    rintro ⟨⟨bytes⟩, kind, suffix⟩ ⟨s, rfl⟩
    refine ⟨ofRecord (Entry.writtenFields s kind suffix), ?_, Entry.readText_ofRecord s kind suffix⟩
    have text : Path.text? ⟨Utf8.encode s⟩ = some s := Utf8.text?_eq_some_iff.mpr rfl
    simp only [Entry.written, text]
    rfl
  case others =>
    intro e broken
    have noText : e.path.text? = none := by
      rw [Option.eq_none_iff_forall_ne_some]
      exact fun s text => broken ⟨s, Utf8.text?_eq_some_iff.mp text⟩
    simp only [Entry.written, noText]
  case picks =>
    intro p fits
    have word : ∀ {n : Nat}, n < UInt64.size → n ≤ Plain.greatestWord := Nat.le_of_lt_succ
    cases p with
    | first => exact Pick.readText_first
    | last => exact Pick.readText_last
    | nth n => exact Pick.readText_nth (word (fits n (.inl rfl)))
    | fromEnd n => exact Pick.readText_fromEnd (word (fits n (.inr rfl)))

/-- An entry whose path and suffix need quotes, a path that is no text, and the greatest number. -/
theorem readText_written_quoted :
    (∃ text, (Entry.mk (.ofString "a: b\n") .other (some "null")).written = .ok text ∧
      readText text Entry.read = .ok ⟨.ofString "a: b\n", .other, some "null"⟩) ∧
    (Entry.mk ⟨[0xFF]⟩ .file none).written = .error (.unplaced .pathNotText) ∧
    readText (Pick.fromEnd 18446744073709551615).written Pick.read = .ok (.fromEnd 18446744073709551615) := by
  refine ⟨readText_written.1 _ ⟨_, rfl⟩, readText_written.2.1 _ ?_, readText_written.2.2 _ ?_⟩
  · rintro ⟨s, same⟩
    have none : Utf8.text? [0xFF] = none := by decide +kernel
    exact nomatch none.symm.trans (Utf8.text?_eq_some_iff.mpr same)
  · rintro n (other | same)
    · exact nomatch other
    · obtain rfl := Pick.fromEnd.inj same
      decide

end ProjectIndex
