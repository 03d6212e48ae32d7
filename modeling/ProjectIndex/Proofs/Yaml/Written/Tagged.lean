import Mathlib
import ProjectIndex.Proofs.Yaml.Written.Document

/-!
# The document of a tagged scalar

A number under a tag is a line of its own: an exclamation mark, the name of the tag, a space and a plain
text.  Its tokens are the tag and the text (`tokens_tagged`), and its document is the text under the tag
(`content_tagged`).  What is said here holds for every tag whose name is a word and every text that can be
written plain.
-/

namespace ProjectIndex.Yaml

open Written

variable {s t w : List Char} {m : Mark}

/-! ### Words -/

theorem toNat_lt_of_isWordChar {c : Char} (letter : isWordChar c = true) : c.toNat < 128 := by
  simp only [isWordChar, Char.isAlphanum, Char.isAlpha, Char.isUpper, Char.isLower, Char.isDigit,
    Bool.or_eq_true, Bool.and_eq_true, decide_eq_true_eq, beq_iff_eq, UInt32.le_iff_toNat_le, ge_iff_le] at letter
  have value : c.toNat = c.val.toNat := rfl
  obtain (((upper | lower) | digit) | rfl) | rfl := letter
  · exact value ▸ Nat.lt_of_le_of_lt upper.2 (by decide)
  · exact value ▸ Nat.lt_of_le_of_lt lower.2 (by decide)
  · exact value ▸ Nat.lt_of_le_of_lt digit.2 (by decide)
  · decide
  · decide

/-- The characters of words are few enough to be looked through. -/
theorem isWordChar_induction {p : Char → Prop}
    (all : ∀ n < 128, isWordChar (Char.ofNat n) = true → p (Char.ofNat n)) {c : Char}
    (letter : isWordChar c = true) : p c := by
  have := all c.toNat (toNat_lt_of_isWordChar letter)
  rw [Char.ofNat_toNat] at this
  exact this letter

theorem isPrintable_of_isWordChar {c : Char} (letter : isWordChar c = true) : isPrintable c = true :=
  isWordChar_induction (p := fun c => isPrintable c = true) (by decide +kernel) letter

/-- The name of a tag as bytes. -/
def tagBytes (w : List Char) : Bytes := w.map asciiByte

/-- No byte of a word is an exclamation mark, or zero. -/
theorem asciiByte_word {c : Char} (letter : isWordChar c = true) :
    asciiByte c ≠ asciiByte '!' ∧ asciiByte c ≠ 0 :=
  isWordChar_induction (p := fun c => asciiByte c ≠ asciiByte '!' ∧ asciiByte c ≠ 0) (by decide +kernel) letter

/-- A line that holds a plain text under a tag. -/
def tagged (w s : List Char) : List Char := '!' :: (w ++ ' ' :: (s ++ ['\n']))

/-! ### Tags -/

theorem readHandle_word (word : ∀ c ∈ w, isWordChar c = true) {began : Mark} :
    readHandle false began ⟨'!' :: (w ++ ' ' :: t), m, none⟩ =
      .ok (asciiByte '!' :: tagBytes w, ⟨' ' :: t, m.over (w.length + 1), none⟩) := by
  have spanned : (Input.mk (w ++ ' ' :: t) (m.over 1) none).span isWordChar =
      (w, ⟨' ' :: t, (m.over 1).over w.length, none⟩) := span_append word (stops_cons.mpr rfl)
  rw [Mark.over_over, Nat.add_comm] at spanned
  have skipped : (Input.mk ('!' :: (w ++ ' ' :: t)) m none).skip = ⟨w ++ ' ' :: t, m.over 1, none⟩ := rfl
  rw [readHandle]
  simp only [skipped, spanned]
  rfl

theorem readTagParts_word (word : ∀ c ∈ w, isWordChar c = true) (nonempty : w ≠ []) {began : Mark} :
    readTagParts began ⟨'!' :: (w ++ ' ' :: t), m, none⟩ =
      .ok ([asciiByte '!'], tagBytes w, ⟨' ' :: t, m.over (w.length + 1), none⟩) := by
  have noAngle : ((Input.mk ('!' :: (w ++ ' ' :: t)) m none).peekAt 1 == some '<') = false := by
    obtain ⟨c, w, rfl⟩ := List.exists_cons_of_ne_nil nonempty
    have letter := word c List.mem_cons_self
    refine beq_eq_false_iff_ne.mpr fun same => ?_
    obtain rfl : c = '<' := Option.some.inj same
    exact nomatch letter
  -- The handle would have to end in a second exclamation mark.
  have single : ¬ (2 ≤ (asciiByte '!' :: tagBytes w).length ∧
      (asciiByte '!' :: tagBytes w).getLast? = some (asciiByte '!')) := by
    rintro ⟨-, last⟩
    obtain ⟨c, w, rfl⟩ := List.exists_cons_of_ne_nil nonempty
    have last' : (tagBytes (c :: w)).getLast? = some (asciiByte '!') := List.getLast?_cons_cons ▸ last
    obtain ⟨d, member, same⟩ := List.mem_map.mp (List.mem_of_getLast? last')
    exact (asciiByte_word (word d member)).1 same
  have bytes : (tagBytes w).takeWhile (· != 0) = tagBytes w := by
    refine List.takeWhile_eq_self_iff.mpr fun b member => ?_
    obtain ⟨c, inside, rfl⟩ := List.mem_map.mp member
    exact bne_iff_ne.mpr (asciiByte_word (word c inside)).2
  have uri : readUri .tagUri began false (asciiByte '!' :: tagBytes w)
      ⟨' ' :: t, m.over (w.length + 1), none⟩ = .ok (tagBytes w, ⟨' ' :: t, m.over (w.length + 1), none⟩) := by
    have here : readUri .tagUri began false (asciiByte '!' :: tagBytes w)
        ⟨' ' :: t, m.over (w.length + 1), none⟩ =
        .ok ((tagBytes w ++ []).takeWhile (· != 0), ⟨' ' :: t, m.over (w.length + 1), none⟩) := rfl
    rw [here, List.append_nil, bytes]
  have some : (tagBytes w).isEmpty = false := by
    rw [tagBytes, List.isEmpty_map]
    simpa using nonempty
  rw [readTagParts]
  simp only [noAngle, readHandle_word word, bind, Except.bind, Bool.false_eq_true, if_false, if_neg single, uri,
    some]
  rfl

/-- **A word behind an exclamation mark is a tag.** -/
theorem readTag_word (word : ∀ c ∈ w, isWordChar c = true) (nonempty : w ≠ []) (inFlow : Bool) :
    readTag inFlow ⟨'!' :: (w ++ ' ' :: t), m, none⟩ =
      .ok ([asciiByte '!'], tagBytes w, ⟨' ' :: t, m.over (w.length + 1), none⟩) := by
  rw [readTag, readTagParts_word word nonempty]
  rfl

/-! ### The tokens -/

namespace Lexer

variable {l l' : Lexer} {read : List Token} {indent : Int} {outer : List Int}

theorem fetchHere_tag (word : ∀ c ∈ w, isWordChar c = true) (nonempty : w ≠ []) :
    (between ⟨'!' :: (w ++ ' ' :: t), m, none⟩ read indent outer true none).fetchHere =
      .ok (between ⟨' ' :: t, m.over (w.length + 1), none⟩
        (⟨.tag [asciiByte '!'] (tagBytes w), m, m.over (w.length + 1)⟩ :: read) indent outer false
        (some ⟨indent == m.column, read.length, m⟩)) := by
  have here : (between ⟨'!' :: (w ++ ' ' :: t), m, none⟩ read indent outer true none).fetchHere =
      (between ⟨'!' :: (w ++ ' ' :: t), m, none⟩ read indent outer true none).fetchTag := by
    have edge : ∀ d, (some '!' == some d) = false →
        (Input.mk ('!' :: (w ++ ' ' :: t)) m none).atIndicator d = false := by
      intro d unlike
      simp [Input.atIndicator, Input.peek, unlike]
    rw [fetchHere]
    simp only [input_between, edge '-' rfl, edge '.' rfl]
    rfl
  have marked : (between ⟨'!' :: (w ++ ' ' :: t), m, none⟩ read indent outer true none).markKey =
      .ok (between ⟨'!' :: (w ++ ' ' :: t), m, none⟩ read indent outer true
        (some ⟨indent == m.column, read.length, m⟩)) := rfl
  rw [here, fetchTag, marked]
  simp only [bind, Except.bind, inFlow_between, input_between, readTag_word word nonempty]
  rfl

/-- A scalar on the way leaves a candidate behind that is out of reach then. -/
theorem dropStaleKeys_nextLine {i : Input} {position : Nat} {k : Mark} {keyAllowed : Bool}
    (below : k.line < i.mark.line) :
    (between i read indent outer keyAllowed (some ⟨false, position, k⟩)).dropStaleKeys =
      .ok (between i read indent outer keyAllowed none) := by
  have stale : (KeyCandidate.mk false position k).isStale i.mark = true :=
    Bool.or_eq_true_iff.mpr (.inl (decide_eq_true below))
  have dropped : dropStale (between i read indent outer keyAllowed (some ⟨false, position, k⟩)).mark
      (between i read indent outer keyAllowed (some ⟨false, position, k⟩)).keys = .ok [none] := by
    simp only [between, dropStale, mark, bind, Except.bind, stale]
    rfl
  rw [dropStaleKeys, dropped]
  rfl

/-- The end of a text without an open mapping. -/
theorem fetchHere_streamEnd (start : m.column = 0) :
    (between ⟨[], m, none⟩ read (-1) [] true none).fetchHere =
      .ok ⟨⟨[], m, none⟩, ⟨.streamEnd, m, m⟩ :: read, read.length + 1, 0, -1, [], false, [none], true⟩ := by
  have ends : (between ⟨[], m, none⟩ read (-1) [] true none).fetchHere =
      (between ⟨[], m, none⟩ read (-1) [] true none).fetchEnd := rfl
  have here : (between ⟨[], m, none⟩ read (-1) [] true none).mark.column = 0 := start
  rw [ends, fetchEnd, if_pos here]
  rfl

/-- The tag is read, and might become a key yet. -/
theorem run_tag (read : List Token) (word : ∀ c ∈ w, isWordChar c = true) (nonempty : w ≠ [])
    (short : w.length + 2 ≤ keyReach) (some : read ≠ []) (n : Nat) :
    (between ⟨'!' :: (w ++ ' ' :: t), .origin, none⟩ read (-1) [] true none).run (n + 1) =
      (between ⟨' ' :: t, Mark.origin.over (w.length + 1), none⟩
        (⟨.tag [asciiByte '!'] (tagBytes w), .origin, Mark.origin.over (w.length + 1)⟩ :: read) (-1) [] false
        (.some ⟨false, read.length, .origin⟩)).run n := by
  have tag : (between ⟨'!' :: (w ++ ' ' :: t), .origin, none⟩ read (-1) [] true none).fetchHere = _ :=
    fetchHere_tag word nonempty
  refine run_between [] some nofun (stops_cons.mpr rfl) ?_ ?_ tag (dropStaleKeys_between ?_) n
  · exact nofun
  · exact Int.le_trans (by decide : (-1 : Int) ≤ 0) (Int.natCast_nonneg _)
  · rintro k ⟨⟩
    exact isStale_over (Nat.le_trans (Nat.le_succ _) short)

/-- The text under the tag is the rest of the line, so no colon follows. -/
theorem run_taggedText (read : List Token) (position : Nat) (short : w.length + 2 ≤ keyReach)
    (fits : fitsPlain s = true) (nonempty : s ≠ []) (some : read ≠ []) (n : Nat) :
    (between ⟨' ' :: (s ++ ['\n']), Mark.origin.over (w.length + 1), none⟩ read (-1) [] false
      (.some ⟨false, position, .origin⟩)).run (n + 1) =
      (between ⟨[], (Mark.origin.over (w.length + 2 + s.length)).nextLine 1, none⟩
        (⟨.scalar s .plain, Mark.origin.over (w.length + 2), Mark.origin.over (w.length + 2 + s.length)⟩ :: read)
        (-1) [] true none).run n := by
  have place : (Mark.origin.over (w.length + 1)).over [' '].length = Mark.origin.over (w.length + 2) :=
    Mark.over_over _ _ _
  have begins := (Scalar.plain fits nonempty).begins []
  rw [List.append_assoc] at begins
  have text : (between ⟨s ++ ['\n'], Mark.origin.over (w.length + 2), none⟩ read (-1) [] false
      (.some ⟨false, position, .origin⟩)).fetchHere = _ :=
    fetchHere_plain fits nonempty (Nat.add_one_ne_zero _) (.inl rfl) (by decide)
  rw [Mark.over_over, ← place] at text
  have reach : ∀ k, Option.some (KeyCandidate.mk false position Mark.origin) = .some k →
      k.isStale ((Mark.origin.over (w.length + 1)).over [' '].length) = false := by
    rintro k ⟨⟩
    rw [place]
    exact isStale_over short
  rw [← place]
  refine run_between [' '] some
    (List.forall_mem_singleton.mpr rfl) begins reach ?_ text (dropStaleKeys_nextLine ?_) n
  · exact Int.le_trans (by decide : (-1 : Int) ≤ 0) (Int.natCast_nonneg _)
  · exact Nat.lt_succ_self _

/-- The end of a line that opened no mapping is the end of the text. -/
theorem run_streamEnd (read : List Token) (start : m.column = 0) (some : read ≠ []) :
    ∃ l' : Lexer, (∀ n, (between ⟨[], m, none⟩ read (-1) [] true none).run (n + 1) = l'.run n) ∧
      l'.ended = true ∧ l'.read.map (·.kind) = .streamEnd :: read.map (·.kind) := by
  refine ⟨_, run_between [] some nofun (stops_nil _) nofun ?_ (fetchHere_streamEnd start) rfl, rfl, rfl⟩
  exact Int.le_trans (by decide : (-1 : Int) ≤ 0) (Int.natCast_nonneg _)

end Lexer

theorem isVisible_tagged (word : ∀ c ∈ w, isWordChar c = true) (fits : fitsPlain s = true) :
    IsVisible (tagged w s) := by
  refine .cons rfl (.append (fun c hc => isPrintable_of_isWordChar (word c hc)) (.cons rfl ?_))
  exact .append (isVisible_of_fitsPlain fits) (by decide)

/-- **The tokens of a tagged text** are its tag and the text. -/
theorem tokens_tagged (word : ∀ c ∈ w, isWordChar c = true) (nonempty : w ≠ [])
    (short : w.length + 2 ≤ keyReach) (fits : fitsPlain s = true) (some : s ≠ []) :
    (tokens (.ofText (tagged w s))).2 = none ∧ (tokens (.ofText (tagged w s))).1.map (·.kind) =
      [.streamStart, .tag [asciiByte '!'] (tagBytes w), .scalar s .plain, .streamEnd] := by
  have allowed : ∀ c ∈ tagged w s, isAllowed c = true := fun c hc =>
    isAllowed_of_isPrintable (isVisible_tagged word fits c hc)
  rw [Source.ofText_of_allowed allowed, tokens]
  have start : ∀ n, (Lexer.start (.ofSource ⟨tagged w s, none⟩)).run (n + 1) =
      (Lexer.between ⟨tagged w s, .origin, none⟩ [⟨.streamStart, .origin, .origin⟩] (-1) [] true none).run n :=
    fun n => rfl
  have tag := Lexer.run_tag (t := s ++ ['\n']) [⟨.streamStart, .origin, .origin⟩] word nonempty short
    (List.cons_ne_nil _ _)
  have text := Lexer.run_taggedText [⟨.tag [asciiByte '!'] (tagBytes w), .origin, Mark.origin.over (w.length + 1)⟩,
    ⟨.streamStart, .origin, .origin⟩] 1 short fits some (List.cons_ne_nil _ _)
  obtain ⟨l, last, ended, kinds⟩ := Lexer.run_streamEnd
    (m := (Mark.origin.over (w.length + 2 + s.length)).nextLine 1)
    [⟨.scalar s .plain, Mark.origin.over (w.length + 2), Mark.origin.over (w.length + 2 + s.length)⟩,
      ⟨.tag [asciiByte '!'] (tagBytes w), .origin, Mark.origin.over (w.length + 1)⟩,
      ⟨.streamStart, .origin, .origin⟩] rfl (List.cons_ne_nil _ _)
  have run : ∀ n, (Lexer.start (.ofSource ⟨tagged w s, none⟩)).run (n + 1 + 1 + 1 + 1) = (l.read.reverse, none) :=
    fun n => by
      rw [start]
      exact (tag _).trans ((text _).trans ((last n).trans (Lexer.run_ended ended n)))
  obtain ⟨n, rounds⟩ : ∃ n, (tagged w s).length + 3 = n + 1 + 1 + 1 + 1 :=
    ⟨(tagged w s).length - 1, by simp only [tagged, List.length_cons]; omega⟩
  rw [rounds, run]
  refine ⟨rfl, ?_⟩
  rw [List.map_reverse, kinds]
  rfl

/-! ### The document -/

/-- The handle of tags of a document's own stands for itself. -/
theorem lookup_defaultHandles : defaultHandles.lookup [asciiByte '!'] = some [asciiByte '!'] := by
  decide +kernel

namespace Parser

variable {ts : List Token} {handle suffix : Bytes} {returns : List Phase}

/-- A scalar behind its tag. -/
theorem next_tagged {start stop start' stop' : Mark} :
    (Parser.mk (⟨.tag [asciiByte '!'] suffix, start, stop⟩ :: ⟨.scalar s .plain, start', stop'⟩ :: ts) none
      .blockNode (.documentEnd :: returns) defaultHandles).next =
      .ok (⟨.scalar none (some (asciiByte '!' :: suffix)) s .plain, start⟩,
        ⟨ts, none, .documentEnd, returns, defaultHandles⟩) := by
  have resolved : (Parser.mk (⟨.scalar s .plain, start', stop'⟩ :: ts) none .blockNode (.documentEnd :: returns)
      defaultHandles).resolveTag start (some ([asciiByte '!'], suffix, start)) =
      .ok (some (asciiByte '!' :: suffix)) := by
    rw [resolveTag, lookup_defaultHandles]
    rfl
  have read : (Parser.mk (⟨.tag [asciiByte '!'] suffix, start, stop⟩ :: ⟨.scalar s .plain, start', stop'⟩ :: ts)
      none .blockNode (.documentEnd :: returns) defaultHandles).properties =
      .ok (⟨none, some ([asciiByte '!'], suffix, start), start⟩,
        ⟨⟨.scalar s .plain, start', stop'⟩ :: ts, none, .blockNode, .documentEnd :: returns, defaultHandles⟩) := rfl
  rw [next, node]
  simp only [peek, bind, Except.bind, read, resolved]
  rfl

/-- **The events of a tagged scalar.** -/
theorem run_tagged {start stop start₁ stop₁ start₂ stop₂ start₃ stop₃ : Mark} (n : Nat) :
    (Parser.mk [⟨.streamStart, start, stop⟩, ⟨.tag [asciiByte '!'] suffix, start₁, stop₁⟩,
      ⟨.scalar s .plain, start₂, stop₂⟩, ⟨.streamEnd, start₃, stop₃⟩] none .streamStart [] []).run (n + 5) =
      ([⟨.streamStart, start⟩, ⟨.documentStart, start₁⟩,
        ⟨.scalar none (some (asciiByte '!' :: suffix)) s .plain, start₁⟩, ⟨.documentEnd, start₃⟩,
        ⟨.streamEnd, start₃⟩], none) := by
  have opened : (Parser.mk [⟨.streamStart, start, stop⟩, ⟨.tag [asciiByte '!'] suffix, start₁, stop₁⟩,
      ⟨.scalar s .plain, start₂, stop₂⟩, ⟨.streamEnd, start₃, stop₃⟩] none .streamStart [] []).next =
      .ok (⟨.streamStart, start⟩, ⟨[⟨.tag [asciiByte '!'] suffix, start₁, stop₁⟩,
        ⟨.scalar s .plain, start₂, stop₂⟩, ⟨.streamEnd, start₃, stop₃⟩], none, .firstDocument, [], []⟩) := rfl
  have begun : (Parser.mk [⟨.tag [asciiByte '!'] suffix, start₁, stop₁⟩, ⟨.scalar s .plain, start₂, stop₂⟩,
      ⟨.streamEnd, start₃, stop₃⟩] none .firstDocument [] []).next = .ok (⟨.documentStart, start₁⟩,
        ⟨[⟨.tag [asciiByte '!'] suffix, start₁, stop₁⟩, ⟨.scalar s .plain, start₂, stop₂⟩,
          ⟨.streamEnd, start₃, stop₃⟩], none, .blockNode, [.documentEnd], defaultHandles⟩) := rfl
  have ended : (Parser.mk [⟨.streamEnd, start₃, stop₃⟩] none .documentEnd [] defaultHandles).run (n + 2) =
      ([⟨.documentEnd, start₃⟩, ⟨.streamEnd, start₃⟩], none) := rfl
  rw [run_succ opened nofun, run_succ begun nofun, run_succ next_tagged nofun, ended]

end Parser

/-- **The document of a tagged text** is that text under its tag. -/
theorem content_tagged (word : ∀ c ∈ w, isWordChar c = true) (nonempty : w ≠ [])
    (short : w.length + 2 ≤ keyReach) (fits : fitsPlain s = true) (some : s ≠ []) :
    ∃ m, Content.ofText (tagged w s) =
      ⟨.scalar m (.some (asciiByte '!' :: tagBytes w)) s .plain, [], 1, none, false⟩ := by
  obtain ⟨faultless, kinds⟩ := tokens_tagged word nonempty short fits some
  obtain ⟨start, stop, ts, same, kinds₁⟩ := Parser.exists_token kinds
  obtain ⟨start₁, stop₁, ts, rfl, kinds₂⟩ := Parser.exists_token kinds₁
  obtain ⟨start₂, stop₂, ts, rfl, kinds₃⟩ := Parser.exists_token kinds₂
  obtain ⟨start₃, stop₃, ts, rfl, kinds₄⟩ := Parser.exists_token kinds₃
  obtain rfl := List.map_eq_nil_iff.mp kinds₄
  have begun : Parser.ofSource (.ofText (tagged w s)) = ⟨(tokens (.ofText (tagged w s))).1, none, .streamStart,
      [], []⟩ := by
    rw [Parser.ofSource, ← faultless]
  refine ⟨start₁, ?_⟩
  rw [Content.ofText, events, begun, same]
  simp only [List.length_cons, List.length_nil, Parser.run_tagged]
  rfl

/-! ### Numbers -/

section Digits

variable {ds : List Char} {n : Nat}

theorem isWordChar_of_isDigit {c : Char} (digit : c.isDigit = true) : isWordChar c = true := by
  simp [isWordChar, Char.isAlphanum, digit]

theorem isEdge_of_isDigit {c : Char} (digit : c.isDigit = true) : isEdge c = false :=
  isWordChar_induction (p := fun c => isEdge c = false) (by decide +kernel) (isWordChar_of_isDigit digit)

theorem adjacent_eq_false {p q : Char → Bool} (none : ∀ c ∈ ds, p c = false) : adjacent p q ds = false := by
  induction ds with
  | nil => rfl
  | cons c ds ih =>
      obtain ⟨first, later⟩ := List.forall_mem_cons.mp none
      cases ds with
      | nil => rfl
      | cons d ds => rw [adjacent, first, ih later, Bool.false_and, Bool.or_self]

theorem isCut_of_isDigit (digits : ∀ c ∈ ds, c.isDigit = true) (previous : Char) : isCut previous ds = false := by
  induction ds generalizing previous with
  | nil => rfl
  | cons c ds ih =>
      obtain ⟨first, later⟩ := List.forall_mem_cons.mp digits
      have other : ∀ d, d.isDigit = false → (c == d) = false := fun d => beq_eq_false_of_class first
      rw [isCut, other ':' rfl, other '#' rfl, ih later, Bool.false_and, Bool.false_and, Bool.or_self, Bool.or_self]

theorem startsOddly_of_isDigit (digits : ∀ c ∈ ds, c.isDigit = true) : startsOddly ds = false := by
  unfold startsOddly
  split
  · exact nomatch digits '-' List.mem_cons_self
  · exact nomatch digits '.' List.mem_cons_self
  · next c ds _ _ =>
      have digit := digits c List.mem_cons_self
      have other : ∀ d, d.isDigit = false → (c == d) = false := fun d => beq_eq_false_of_class digit
      have none : "#,[]\x7b\x7d&*!|>\x27\"%@\x60".toList.contains c = false :=
        contains_eq_false_of_class digit (by decide)
      simp only [none, other '?' rfl, other ':' rfl, other '-' rfl, Bool.or_self, Bool.false_and]
  · rfl

/-- Digits can be written plain. -/
theorem fitsPlain_of_isDigit (digits : ∀ c ∈ ds, c.isDigit = true) : fitsPlain ds = true := by
  have edge : ∀ c ∈ ds, isSpace c = false ∧ isBreak c = false := fun c member =>
    Bool.or_eq_false_iff.mp (isEdge_of_isDigit (digits c member))
  have printable : ds.any (!isPrintable ·) = false := List.any_eq_false.mpr fun c member => by
    simp [isPrintable_of_isWordChar (isWordChar_of_isDigit (digits c member))]
  have special : isSpecial ds = false :=
    Bool.or_eq_false_iff.mpr ⟨printable, adjacent_eq_false fun c member => (edge c member).1⟩
  have lines : ds.any isBreak = false := List.any_eq_false.mpr fun c member => by simp [(edge c member).2]
  have ends : ∀ o : Option Char, (∀ c, o = some c → c ∈ ds) → o.any isEdge = false := by
    intro o inside
    cases o with
    | none => rfl
    | some c => exact isEdge_of_isDigit (digits c (inside c rfl))
  rw [fitsPlain, special, lines, ends _ fun c => List.mem_of_head?, ends _ fun c => List.mem_of_getLast?,
    startsOddly_of_isDigit digits, isCut_of_isDigit fun c member => digits c (List.mem_of_mem_drop member)]
  rfl

theorem digit?_of_isDigit {c : Char} (digit : c.isDigit = true) :
    Plain.digit? 10 c = some (c.toNat - '0'.toNat) := by
  have bounds : '0' ≤ c ∧ c ≤ '9' := by
    simp only [Char.isDigit, Bool.and_eq_true, decide_eq_true_eq] at digit
    exact digit
  have least : c.toNat - '0'.toNat < 10 := by
    have : c.toNat ≤ '9'.toNat := bounds.2
    have nine : '9'.toNat = 57 := rfl
    have zero : '0'.toNat = 48 := rfl
    omega
  rw [Plain.digit?, if_pos bounds]
  exact Option.filter_some_pos (decide_eq_true least)

/-- Digits spell the number that they are the digits of. -/
theorem number?_of_isDigit (digits : ∀ c ∈ ds, c.isDigit = true) (nonempty : ds ≠ []) :
    Plain.number? 10 ds = some (Nat.ofDigitChars 10 ds 0) := by
  have fold : ∀ a, ds.foldl (fun n c => do some ((← n) * 10 + (← Plain.digit? 10 c))) (some a) =
      some (Nat.ofDigitChars 10 ds a) := by
    clear nonempty
    induction ds with
    | nil => exact fun a => rfl
    | cons c ds ih =>
        intro a
        obtain ⟨first, later⟩ := List.forall_mem_cons.mp digits
        rw [List.foldl_cons, digit?_of_isDigit first, Nat.ofDigitChars_cons, Nat.mul_comm]
        exact ih later _
  obtain ⟨c, ds, rfl⟩ := List.exists_cons_of_ne_nil nonempty
  exact fold 0

/-- The first digit of a number is not zero. -/
theorem head?_toDigits (positive : 0 < n) : (Nat.toDigits 10 n).head? ≠ some '0' := by
  induction n using Nat.strongRecOn with
  | ind n ih =>
      rw [Nat.toDigits_eq_if (by decide)]
      split
      · next small =>
          have all : ∀ n < 10, 0 < n → [n.digitChar].head? ≠ some '0' := by decide
          exact all n small positive
      · next large =>
          have front := ih (n / 10) (by omega) (by omega)
          obtain ⟨c, ds, same⟩ := List.exists_cons_of_ne_nil (Nat.toDigits_ne_nil (n := n / 10) (b := 10))
          rw [same] at front ⊢
          exact front

theorem hasLeadingZero_of_head? (digits : ∀ c ∈ ds, c.isDigit = true) (head : ds.head? ≠ some '0') :
    Plain.hasLeadingZero ds = false := by
  unfold Plain.hasLeadingZero
  split
  · exact nomatch digits '-' List.mem_cons_self
  · exact nomatch digits '+' List.mem_cons_self
  · dsimp only
    split
    · exact absurd rfl head
    · rfl

theorem hasLeadingZero_toDigits (n : Nat) : Plain.hasLeadingZero (Nat.toDigits 10 n) = false := by
  obtain rfl | positive := Nat.eq_zero_or_pos n
  · rfl
  · exact hasLeadingZero_of_head? (fun c => Nat.isDigit_of_mem_toDigits (by decide) (by decide))
      (head?_toDigits positive)

theorem radix?_of_isDigit (digits : ∀ c ∈ ds, c.isDigit = true) : Plain.radix? ds = none := by
  unfold Plain.radix?
  split
  · exact nomatch digits 'x' (List.mem_cons_of_mem _ List.mem_cons_self)
  · exact nomatch digits 'o' (List.mem_cons_of_mem _ List.mem_cons_self)
  · exact nomatch digits 'b' (List.mem_cons_of_mem _ List.mem_cons_self)
  · rfl

/-- **The digits of a number are read as that number.** -/
theorem unsigned?_toDigits {greatest : Nat} (fits : n ≤ greatest) :
    Plain.unsigned? greatest (Nat.toDigits 10 n) = some n := by
  have digits : ∀ c ∈ Nat.toDigits 10 n, c.isDigit = true := fun c =>
    Nat.isDigit_of_mem_toDigits (by decide) (by decide)
  have number := number?_of_isDigit digits Nat.toDigits_ne_nil
  rw [Nat.ofDigitChars_ten_toDigits] at number
  unfold Plain.unsigned?
  split
  · next body same =>
      rw [same] at digits
      exact nomatch digits '+' List.mem_cons_self
  · simp only [radix?_of_isDigit digits, hasLeadingZero_toDigits, Bool.false_eq_true, if_false, number]
    exact Option.filter_some_pos (decide_eq_true fits)

end Digits

/-- **The document of a number under a tag** is its digits under that tag. -/
theorem content_ofTagged (tag : String) (word : ∀ c ∈ tag.toList, isWordChar c = true) (nonempty : tag.toList ≠ [])
    (short : tag.toList.length + 2 ≤ keyReach) (n : Nat) :
    ∃ m, Content.ofText (ofTagged tag n).toList =
      ⟨.scalar m (some (asciiByte '!' :: tagBytes tag.toList)) (Nat.toDigits 10 n) .plain, [], 1, none, false⟩ := by
  have spelled : (ofTagged tag n).toList = tagged tag.toList (Nat.toDigits 10 n) := by
    simp only [ofTagged, String.toList_append, Nat.toString_eq_repr, Nat.toList_repr, List.append_assoc]
    rfl
  have digits : ∀ c ∈ Nat.toDigits 10 n, c.isDigit = true := fun c =>
    Nat.isDigit_of_mem_toDigits (by decide) (by decide)
  rw [spelled]
  exact content_tagged word nonempty short (fitsPlain_of_isDigit digits) Nat.toDigits_ne_nil

end ProjectIndex.Yaml
