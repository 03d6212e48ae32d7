import ProjectIndex.Proofs.Yaml.Written.Literal
import ProjectIndex.Proofs.Yaml.Written.Quoted

/-!
# Written scalars as tokens

Every text that is written is one token of the lexer, in the style in which it is written:
`Lexer.fetchHere_scalar`.  `Scalar` lists the spellings that occur, one for each style.  Behind a scalar the
lexer stands at the next line, or at the line feed before it (`Lexer.AtLine`); where it stands makes no
difference to what it reads next.
-/

namespace ProjectIndex.Yaml

open Written

variable {s t rest spelling : List Char} {style : ScalarStyle} {m : Mark}

/-- A text beside its spelling in a style, line end included. -/
inductive Scalar : (spelling text : List Char) → ScalarStyle → Prop
  | plain {s : List Char} (fits : fitsPlain s = true) (nonempty : s ≠ []) : Scalar (s ++ ['\n']) s .plain
  | single {s : List Char} (fits : fitsSingle s = true) (noFeed : '\n' ∉ s) :
    Scalar ('\x27' :: singleRest false s ++ ['\n']) s .singleQuoted
  | double (s : List Char) : Scalar ('"' :: s.flatMap doubleChar ++ ['"', '\n']) s .doubleQuoted
  | literal {s : List Char} (fits : fitsLiteral s = true) :
    Scalar ('|' :: indentationMark s ++ chompingMark s ++ '\n' :: literalRest true s) s .literal

namespace Written

/-- A text that is the spelling of an old boolean holds no line feed. -/
theorem noFeed_of_oldBooleans (old : oldBooleans.contains (String.ofList s) = true) : '\n' ∉ s := by
  have all : ∀ b ∈ oldBooleans, '\n' ∉ b.toList := by decide
  have := all _ (List.contains_iff_mem.mp old)
  rwa [String.toList_ofList] at this

/-- A style is chosen only for a text that it can hold. -/
theorem styleOf_cases (s : List Char) :
    (styleOf s = .plain ∧ fitsPlain s = true ∧ Plain.isAmbiguous s = false) ∨
    (styleOf s = .singleQuoted ∧ fitsSingle s = true ∧ '\n' ∉ s) ∨
    styleOf s = .doubleQuoted ∨
    (styleOf s = .literal ∧ fitsLiteral s = true) := by
  have quotes (noFeed : '\n' ∉ s)
      (same : styleOf s = if fitsSingle s then .singleQuoted else .doubleQuoted) :
      (styleOf s = .singleQuoted ∧ fitsSingle s = true ∧ '\n' ∉ s) ∨ styleOf s = .doubleQuoted := by
    split at same
    · next fits => exact .inl ⟨same, fits, noFeed⟩
    · exact .inr same
  by_cases old : oldBooleans.contains (String.ofList s) = true
  · have chosen := quotes (noFeed_of_oldBooleans old) (if_pos old)
    exact .inr (chosen.imp_right .inl)
  by_cases feed : s.contains '\n' = true
  · by_cases fits : fitsLiteral s = true
    · exact .inr (.inr (.inr ⟨by rw [styleOf, if_neg old, if_pos feed, if_pos fits], fits⟩))
    · exact .inr (.inr (.inl (by rw [styleOf, if_neg old, if_pos feed, if_neg fits])))
  have noFeed : '\n' ∉ s := fun member => feed (List.contains_iff_mem.mpr member)
  by_cases ambiguous : Plain.isAmbiguous s = true
  · have chosen := quotes noFeed (by rw [styleOf, if_neg old, if_neg feed, if_pos ambiguous])
    exact .inr (chosen.imp_right .inl)
  by_cases fits : fitsPlain s = true
  · refine .inl ⟨?_, fits, Bool.not_eq_true _ |>.mp ambiguous⟩
    rw [styleOf, if_neg old, if_neg feed, if_neg ambiguous, if_pos fits]
  · have chosen := quotes noFeed (by rw [styleOf, if_neg old, if_neg feed, if_neg ambiguous, if_neg fits])
    exact .inr (chosen.imp_right .inl)

end Written

/-- **Every text is spelled in the style that is chosen for it.** -/
theorem scalar_text (s : List Char) : Scalar (text s) s (styleOf s) := by
  rw [text]
  obtain ⟨style, fits, clear⟩ | ⟨style, fits, noFeed⟩ | style | ⟨style, fits⟩ := styleOf_cases s
  · rw [style]
    refine .plain fits ?_
    rintro rfl
    exact nomatch clear
  · rw [style]
    exact .single fits noFeed
  · rw [style]
    exact .double s
  · rw [style]
    exact .literal fits

/-! ### The characters of spellings -/

theorem isVisible_singleRest (broken : Bool) (h : IsVisible s) : IsVisible (singleRest broken s) := by
  induction s generalizing broken with
  | nil => cases broken <;> decide
  | cons c s ih =>
      obtain ⟨first, later⟩ := List.forall_mem_cons.mp h
      rw [singleRest]
      split
      · refine .append ?_ (.cons first (ih true later))
        split <;> decide
      · refine .append (.append ?_ ?_) (ih false later)
        · split <;> decide
        · split
          · exact .cons first (.cons first (by decide))
          · exact .cons first (by decide)

theorem isVisible_literalRest (broken : Bool) (h : IsVisible s) : IsVisible (literalRest broken s) := by
  induction s generalizing broken with
  | nil => cases broken <;> decide
  | cons c s ih =>
      obtain ⟨first, later⟩ := List.forall_mem_cons.mp h
      rw [literalRest]
      split
      · exact .cons first (ih true later)
      · refine .append ?_ (.cons first (ih false later))
        split <;> decide

theorem isVisible_hexDigits (fuel width n : Nat) : IsVisible (Text.hexDigits 'A' fuel width n) := by
  have digit : ∀ d < 16, isPrintable (Text.hexDigit 'A' d) = true := by decide
  induction fuel generalizing width n with
  | zero => exact .nil
  | succ fuel ih =>
      rw [Text.hexDigits]
      split
      · exact .nil
      · exact .append (ih _ _) (.cons (digit _ (Nat.mod_lt n (by decide))) .nil)

theorem isVisible_escape (c : Char) : IsVisible (escape c) := by
  rw [escape]
  split
  case h_16 =>
    split
    · exact .cons rfl (isVisible_hexDigits 2 2 _)
    split
    · exact .cons rfl (isVisible_hexDigits 4 4 _)
    · exact .cons rfl (isVisible_hexDigits 8 8 _)
  all_goals decide

theorem isVisible_doubleChar (c : Char) : IsVisible (doubleChar c) := by
  rw [doubleChar]
  split
  · exact .cons rfl (isVisible_escape c)
  · next direct =>
      simp only [Bool.or_eq_true, not_or, Bool.not_eq_true, Bool.not_eq_false'] at direct
      exact .cons direct.1.1.1 .nil

/-- **Spellings hold only characters that are written as they are.** -/
theorem Scalar.isVisible (scalar : Scalar spelling s style) : IsVisible spelling := by
  cases scalar with
  | plain fits nonempty => exact .append (isVisible_of_fitsPlain fits) (by decide)
  | single fits noFeed =>
      exact .append (.cons rfl (isVisible_singleRest false (isVisible_of_fitsSingle fits))) (by decide)
  | double =>
      refine .append (.cons rfl fun c hc => ?_) (by decide)
      obtain ⟨d, -, member⟩ := List.mem_flatMap.mp hc
      exact isVisible_doubleChar d c member
  | literal fits =>
      have indentation : IsVisible (indentationMark s) := by
        rw [indentationMark]
        split <;> decide
      have chomping : IsVisible (chompingMark s) := by
        obtain mark | mark | mark := chompingMark_cases s <;> rw [mark] <;> decide
      exact .append (.append (.cons rfl indentation) chomping)
        (.cons rfl (isVisible_literalRest true (isVisible_of_fitsLiteral fits)))

/-! ### The lexer around scalars -/

namespace Lexer

/-- A lexer outside of flow collections that has read some tokens. -/
def between (i : Input) (read : List Token) (indent : Int) (outer : List Int) (keyAllowed : Bool)
    (key : Option KeyCandidate) : Lexer :=
  ⟨i, read, read.length, 0, indent, outer, keyAllowed, [key], false⟩

/-- The lexer stands at the start of a line, or at the line feed before it, and has read tokens of these
kinds, the last one first. -/
inductive AtLine (rest : List Char) (kinds : List TokenKind) (indent : Int) (outer : List Int)
    (key : Option KeyCandidate) : Lexer → Prop
  | here {m : Mark} {read : List Token} (start : m.column = 0) (same : read.map (·.kind) = kinds) :
    AtLine rest kinds indent outer key (between ⟨rest, m, none⟩ read indent outer true key)
  | before {m : Mark} {read : List Token} {keyAllowed : Bool} (same : read.map (·.kind) = kinds) :
    AtLine rest kinds indent outer key (between ⟨'\n' :: rest, m, none⟩ read indent outer keyAllowed key)

variable {read : List Token} {indent : Int} {outer : List Int} {keyAllowed : Bool}
  {key : Option KeyCandidate} {c : Char}

@[simp] theorem input_between (i : Input) : (between i read indent outer keyAllowed key).input = i := rfl

@[simp] theorem mark_between (i : Input) :
    (between i read indent outer keyAllowed key).mark = i.mark := rfl

@[simp] theorem keyAllowed_between (i : Input) :
    (between i read indent outer keyAllowed key).keyAllowed = keyAllowed := rfl

@[simp] theorem inFlow_between (i : Input) :
    (between i read indent outer keyAllowed key).inFlow = false := rfl

theorem atIndicator_of_column {i : Input} (inside : i.mark.column ≠ 0) (c : Char) :
    i.atIndicator c = false := by
  simp [Input.atIndicator, inside]

/-- No key begins where none may. -/
theorem markKey_between (i : Input) : (between i read indent outer false key).markKey =
    .ok (between i read indent outer false key) := rfl

/-- What a text does not begin with if it does not begin oddly. -/
theorem startsOddly_eq_false (even : startsOddly (c :: s) = false) :
    (∀ d ∈ "#,[]\x7b\x7d&*!|>\x27\"%@\x60".toList, (c == d) = false) ∧
      ((c == '?' || c == ':' || c == '-') && endsWord s.head?) = false := by
  unfold startsOddly at even
  split at even
  · exact nomatch even
  · exact nomatch even
  · next d ds _ _ same =>
      obtain ⟨rfl, rfl⟩ := List.cons.inj same
      obtain ⟨others, special⟩ := Bool.or_eq_false_iff.mp even
      refine ⟨fun d member => beq_eq_false_iff_ne.mpr ?_, special⟩
      rintro rfl
      exact nomatch (List.contains_iff_mem.mpr member).symm.trans others
  · next none => exact nomatch none

theorem endsWord_peekAt (c : Char) (s rest : List Char) (m : Mark) :
    endsWord ((Input.mk (c :: (s ++ '\n' :: rest)) m none).peekAt 1) = endsWord s.head? := by
  cases s <;> rfl

theorem no_space_of_word {o : Option Char} (word : endsWord o = false) : o.any isSpaceOrTab = false := by
  cases o with
  | none => rfl
  | some c => exact (Bool.or_eq_false_iff.mp word).1

theorem startsPlain_between (even : startsOddly (c :: s) = false) (begins : endsWord (some c) = false) :
    (between ⟨c :: (s ++ '\n' :: rest), m, none⟩ read indent outer false key).startsPlain = true := by
  obtain ⟨others, special⟩ := startsOddly_eq_false even
  have next := endsWord_peekAt c s rest m
  have peek : (between ⟨c :: (s ++ '\n' :: rest), m, none⟩ read indent outer false key).input.peek =
    some c := rfl
  rw [startsPlain, peek]
  simp only [begins, Bool.not_false, Bool.true_and, Bool.or_eq_true, Bool.not_eq_true']
  cases indicator : isIndicator c with
  | false => exact .inl (.inl rfl)
  | true =>
      -- Of the indicators only three can begin a plain scalar, each before a character of a word.
      have split : ("-?:,[]\x7b\x7d#&*!|>\x27\"%@\x60".toList.all fun d =>
          ['-', '?', ':'].contains d || "#,[]\x7b\x7d&*!|>\x27\"%@\x60".toList.contains d) = true := by decide
      have among : c ∈ ['-', '?', ':'] := by
        have either := List.all_eq_true.mp split c (List.contains_iff_mem.mp indicator)
        obtain special | odd := Bool.or_eq_true_iff.mp either
        · exact List.contains_iff_mem.mp special
        · exact absurd (others c (List.contains_iff_mem.mp odd)) (by simp)
      have word : endsWord ((Input.mk (c :: (s ++ '\n' :: rest)) m none).peekAt 1) = false := by
        rw [next]
        simp only [List.mem_cons, List.not_mem_nil, or_false] at among
        obtain rfl | rfl | rfl := among <;> exact special
      simp only [List.mem_cons, List.not_mem_nil, or_false] at among
      obtain rfl | rfl | rfl := among
      · exact .inl (.inr (Bool.and_eq_true_iff.mpr ⟨rfl, Bool.not_eq_true' _ |>.mpr (no_space_of_word word)⟩))
      · exact .inr (Bool.and_eq_true_iff.mpr ⟨rfl, Bool.not_eq_true' _ |>.mpr word⟩)
      · exact .inr (Bool.and_eq_true_iff.mpr ⟨rfl, Bool.not_eq_true' _ |>.mpr word⟩)

/-- A text that fits the plain style begins a plain scalar and nothing else. -/
theorem fetchHere_eq_fetchPlain (even : startsOddly (c :: s) = false) (begins : endsWord (some c) = false)
    (inside : m.column ≠ 0) :
    (between ⟨c :: (s ++ '\n' :: rest), m, none⟩ read indent outer false key).fetchHere =
      (between ⟨c :: (s ++ '\n' :: rest), m, none⟩ read indent outer false key).fetchPlain := by
  obtain ⟨others, special⟩ := startsOddly_eq_false even
  have next := endsWord_peekAt c s rest m
  have alone : ∀ d ∈ ['?', ':', '-'], (c == d && endsWord s.head?) = false := by
    intro d member
    cases blank : endsWord s.head? with
    | false => rw [Bool.and_false]
    | true =>
        simp only [blank, Bool.and_true, Bool.or_eq_false_iff] at special
        simp only [List.mem_cons, List.not_mem_nil, or_false] at member
        obtain rfl | rfl | rfl := member <;> simp [special]
  have plain : (between ⟨c :: (s ++ '\n' :: rest), m, none⟩ read indent outer false key).startsPlain = true :=
    startsPlain_between even begins
  rw [fetchHere]
  simp only [between, atIndicator_of_column (i := ⟨_, m, none⟩) inside, next]
  have peek : (Input.mk (c :: (s ++ '\n' :: rest)) m none).peek = some c := rfl
  have flow : (⟨⟨c :: (s ++ '\n' :: rest), m, none⟩, read, read.length, 0, indent, outer, false, [key],
    false⟩ : Lexer).inFlow = false := rfl
  have column : (m.column == 0) = false := beq_eq_false_iff_ne.mpr inside
  simp only [peek, flow, column, others '[' (by decide), others ']' (by decide), others '{' (by decide),
    others '}' (by decide), others ',' (by decide), others '*' (by decide), others '&' (by decide),
    others '!' (by decide), others '|' (by decide), others '>' (by decide), others '\x27' (by decide),
    others '"' (by decide), Bool.and_false, Bool.false_and, Bool.false_eq_true, if_false, Bool.false_or,
    alone '-' (by decide), alone '?' (by decide), alone ':' (by decide)]
  exact if_pos plain

/-- **A plain text is one token.** -/
theorem fetchHere_plain (fits : fitsPlain s = true) (nonempty : s ≠ []) (inside : m.column ≠ 0)
    (leaves : Leaves (indent + 1).toNat rest) (narrow : (indent + 1).toNat ≤ 1) :
    (between ⟨s ++ '\n' :: rest, m, none⟩ read indent outer false key).fetchHere =
      .ok (between ⟨rest, (m.over s.length).nextLine 1, none⟩
        (⟨.scalar s .plain, m, m.over s.length⟩ :: read) indent outer true key) := by
  have scalar := readPlain_written (m := m) fits nonempty inside leaves narrow
  have line := isLine_of_fitsPlain fits nonempty
  have even : startsOddly s = false := by
    simp only [fitsPlain, Bool.and_eq_true, Bool.not_eq_true'] at fits
    exact fits.1.2
  obtain ⟨c, s, rfl⟩ := List.exists_cons_of_ne_nil nonempty
  have dispatch : (between ⟨c :: (s ++ '\n' :: rest), m, none⟩ read indent outer false key).fetchHere = _ :=
    fetchHere_eq_fetchPlain even (stops_cons.mp (line.stops [])) inside
  rw [List.cons_append, dispatch, fetchPlain]
  simp only [markKey_between, bind, Except.bind]
  have scalar' : readPlain (between ⟨c :: (s ++ '\n' :: rest), m, none⟩ read indent outer false key).inFlow
      ((between ⟨c :: (s ++ '\n' :: rest), m, none⟩ read indent outer false key).indent + 1).toNat
      (between ⟨c :: (s ++ '\n' :: rest), m, none⟩ read indent outer false key).input = _ := scalar
  rw [scalar']
  rfl

theorem fetchHere_single (t : List Char) (inside : m.column ≠ 0) :
    (between ⟨'\x27' :: t, m, none⟩ read indent outer false key).fetchHere =
      (between ⟨'\x27' :: t, m, none⟩ read indent outer false key).fetchQuoted '\x27' .singleQuoted := by
  rw [fetchHere]
  simp only [between, atIndicator_of_column (i := ⟨_, m, none⟩) inside]
  rfl

theorem fetchHere_double (t : List Char) (inside : m.column ≠ 0) :
    (between ⟨'"' :: t, m, none⟩ read indent outer false key).fetchHere =
      (between ⟨'"' :: t, m, none⟩ read indent outer false key).fetchQuoted '"' .doubleQuoted := by
  rw [fetchHere]
  simp only [between, atIndicator_of_column (i := ⟨_, m, none⟩) inside]
  rfl

theorem fetchHere_literal (t : List Char) (inside : m.column ≠ 0) :
    (between ⟨'|' :: t, m, none⟩ read indent outer false key).fetchHere =
      (between ⟨'|' :: t, m, none⟩ read indent outer false key).fetchBlockScalar .literal := by
  rw [fetchHere]
  simp only [between, atIndicator_of_column (i := ⟨_, m, none⟩) inside]
  rfl

theorem fetchQuoted_between {i j : Input} {quote : Char} (quoted : readQuoted quote i = .ok (s, j)) :
    (between i read indent outer false key).fetchQuoted quote style =
      .ok (between j (⟨.scalar s style, i.mark, j.mark⟩ :: read) indent outer false key) := by
  have here : readQuoted quote (between i read indent outer false key).input = .ok (s, j) := quoted
  rw [fetchQuoted, markKey_between]
  simp only [bind, Except.bind, here]
  rfl

theorem fetchBlockScalar_between {i j : Input} {stop : Mark}
    (block : readBlock false indent i = .ok (s, stop, j)) :
    (between i read indent outer false none).fetchBlockScalar .literal =
      .ok (between j (⟨.scalar s .literal, i.mark, stop⟩ :: read) indent outer true none) := by
  have noKey : (between i read indent outer false none).dropKey =
      .ok (between i read indent outer false none) := rfl
  have here : readBlock (ScalarStyle.literal == .folded) (between i read indent outer false none).indent
      (between i read indent outer false none).input = .ok (s, stop, j) := block
  rw [fetchBlockScalar, noKey]
  simp only [bind, Except.bind, here]
  rfl

/-- **A written text is one token**, behind which the lexer stands at the next line. -/
theorem fetchHere_scalar (read : List Token) (outer : List Int) (scalar : Scalar spelling s style)
    (inside : m.column ≠ 0) (leaves : Leaves 1 rest) :
    ∃ l, (between ⟨spelling ++ rest, m, none⟩ read 0 outer false none).fetchHere = .ok l ∧
      AtLine rest (.scalar s style :: read.map (·.kind)) 0 outer none l := by
  cases scalar with
  | plain fits nonempty =>
      rw [List.append_assoc]
      exact ⟨_, fetchHere_plain fits nonempty inside leaves (by decide), .here rfl rfl⟩
  | single fits noFeed =>
      obtain ⟨m', quoted⟩ := readQuoted_single ('\n' :: rest) fits noFeed m (by simp)
      rw [List.append_assoc, List.cons_append, fetchHere_single _ inside]
      exact ⟨_, fetchQuoted_between quoted, .before rfl⟩
  | double =>
      obtain ⟨m', quoted⟩ := readQuoted_double s ('\n' :: rest) m (by simp)
      rw [List.append_assoc, List.cons_append, fetchHere_double _ inside]
      exact ⟨_, fetchQuoted_between quoted, .before rfl⟩
  | literal fits =>
      obtain ⟨stop, m', block, start⟩ := readBlock_written fits m leaves.stops
      simp only [List.append_assoc, List.cons_append] at block ⊢
      rw [fetchHere_literal _ inside]
      exact ⟨_, fetchBlockScalar_between block, .here start rfl⟩

end Lexer

end ProjectIndex.Yaml
