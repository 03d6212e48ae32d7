import Mathlib
import ProjectIndex.Proofs.Yaml.Written.Plain

/-!
# Quoted texts

A text in quotes reads back as the text.  Both quotations cut a text into words and gaps, and spell a word
character by character: an apostrophe is doubled between apostrophes, and an escape stands for a character
between quotation marks (`readEscape_written`).  They differ in what a gap may hold.  `Spelled` is what the
two have in common, a text beside its spelling, and `readQuoted_spelled` follows it word by word.
-/

namespace ProjectIndex.Yaml

open Written

variable {s t w g r rest : List Char} {m : Mark} {c : Char}

/-! ### Escapes -/

namespace Written

theorem hexValue?_hexDigit : ∀ d < 16, hexValue? (Text.hexDigit 'A' d) = some d := by decide

theorem length_hexDigits (width n : Nat) : (Text.hexDigits 'A' width width n).length = width := by
  induction width generalizing n with
  | zero => rfl
  | succ width ih =>
      rw [Text.hexDigits, if_neg (fun none => Nat.succ_ne_zero width none.2), List.length_append,
        Nat.add_sub_cancel, ih]
      rfl

/-- **Enough hexadecimal digits spell the number.** -/
theorem hexNumber?_hexDigits (width n : Nat) (fits : n < 16 ^ width) :
    hexNumber? (Text.hexDigits 'A' width width n) = some n := by
  induction width generalizing n with
  | zero =>
      obtain rfl := Nat.lt_one_iff.mp fits
      rfl
  | succ width ih =>
      have high := ih (n / 16) (Nat.div_lt_of_lt_mul (by rwa [Nat.pow_succ, Nat.mul_comm] at fits))
      rw [hexNumber?] at high
      rw [Text.hexDigits, if_neg (fun none => Nat.succ_ne_zero width none.2), hexNumber?,
        List.foldl_append, Nat.add_sub_cancel, high]
      simp only [List.foldl_cons, List.foldl_nil, bind, Option.bind,
        hexValue?_hexDigit _ (Nat.mod_lt n (by decide)), Nat.div_add_mod']

end Written

/-- A number of a character in hexadecimal digits reads back as the character. -/
theorem readEscape_number {began : Mark} {letter : Char} {width : Nat}
    (announced : escapeOf letter = some (.number width)) (fits : c.toNat < 16 ^ width) :
    readEscape began ⟨'\\' :: letter :: (Text.hexDigits 'A' width width c.toNat ++ t), m, none⟩ =
      .ok (c, ⟨t, m.over (width + 2), none⟩) := by
  have length := length_hexDigits width c.toNat
  have passed := skipMany_append (Text.hexDigits 'A' width width c.toNat) t (m.over 2) none
  rw [length, Mark.over_over] at passed
  have valid : c.toNat.isValidChar := c.valid
  have ahead : (Input.mk ('\\' :: letter :: (Text.hexDigits 'A' width width c.toNat ++ t)) m none).peekAt 1
      >>= escapeOf = some (.number width) := announced
  have digits : (Text.hexDigits 'A' width width c.toNat ++ t).take width =
      Text.hexDigits 'A' width width c.toNat := by
    rw [List.take_left' length]
  have enough : ¬ (Text.hexDigits 'A' width width c.toNat ++ t).length < width := by
    rw [List.length_append, length]
    omega
  rw [readEscape, ahead]
  simp only [Input.skipMany, Input.skip, List.drop_succ_cons, List.drop_zero]
  simp only [bind, Except.bind, Input.ensure, enough, if_false, digits, hexNumber?_hexDigits _ _ fits, valid,
    if_true, Char.ofNat_toNat]
  rw [Nat.add_comm width]
  exact congrArg (fun i => Except.ok (c, i)) passed

/-- **The escape of a character stands for it.** -/
theorem readEscape_written (began : Mark) (c : Char) :
    readEscape began ⟨'\\' :: (escape c ++ t), m, none⟩ =
      .ok (c, ⟨t, m.over ((escape c).length + 1), none⟩) := by
  have named : ∀ k, c.toNat = k → c = Char.ofNat k := fun k same => by rw [← same, Char.ofNat_toNat]
  rw [escape]
  split
  case h_16 =>
    have below : c.toNat < 16 ^ 8 := by
      have valid : c.toNat.isValidChar := c.valid
      rw [Nat.isValidChar] at valid
      omega
    split
    · next small =>
        rw [List.length_cons, length_hexDigits]
        exact readEscape_number rfl (Nat.lt_succ_of_le small)
    split
    · next small =>
        rw [List.length_cons, length_hexDigits]
        exact readEscape_number rfl (Nat.lt_succ_of_le small)
    · rw [List.length_cons, length_hexDigits]
      exact readEscape_number rfl below
  all_goals
    next same =>
      rw [named _ same]
      rfl

/-! ### Spellings -/

/-- A way to put a text in quotes. -/
structure Quotation where
  quote : Char
  /-- The characters of gaps, which end a word. -/
  blank : Char → Bool
  /-- How a character of a word is spelled. -/
  spell : Char → List Char

/-- What a reader of quoted texts relies on. -/
structure Quotation.Sound (q : Quotation) : Prop where
  closes : endsWord (some q.quote) = false
  begins : ∀ {c}, q.blank c = false → ∃ d ds, q.spell c = d :: ds ∧ endsWord (some d) = false
  /-- The spelling of a character of a word is read in one step. -/
  reads : ∀ {c}, q.blank c = false → ∀ {began m fuel t w e j},
    readQuotedWord began q.quote fuel ⟨t, m.over (q.spell c).length, none⟩ = .ok (w, e, j) →
      readQuotedWord began q.quote (fuel + 1) ⟨q.spell c ++ t, m, none⟩ = .ok (c :: w, e, j)

/-- A text beside its spelling between quotes.  The spaces of a line stand for themselves; so do line breaks
other than line feeds, and the margin behind them counts for nothing. -/
inductive Spelled (q : Quotation) : (spelling text : List Char) → Prop
  | word {w : List Char} (word : ∀ c ∈ w, q.blank c = false) : Spelled q (w.flatMap q.spell) w
  | spaces {w g r s : List Char} (word : ∀ c ∈ w, q.blank c = false) (wide : g ≠ [])
    (all : ∀ c ∈ g, c = ' ') (behind : Stops (fun c => endsWord (some c)) (r ++ [q.quote]))
    (more : Spelled q r s) : Spelled q (w.flatMap q.spell ++ (g ++ r)) (w ++ (g ++ s))
  | lines {w g r s : List Char} {b : Char} (word : ∀ c ∈ w, q.blank c = false)
    (ends : ∀ c ∈ b :: g, isBreak c = true ∧ isPrintable c = true) (kept : b ≠ '\n')
    (behind : Stops (fun c => endsWord (some c)) (r ++ [q.quote])) (more : Spelled q r s) :
    Spelled q (w.flatMap q.spell ++ (b :: (g ++ (margin ++ r)))) (w ++ (b :: g ++ s))

section Reading

variable {began : Mark} {fuel : Nat} {q : Quotation}

theorem Quotation.Sound.length_le (sound : q.Sound) (word : ∀ c ∈ w, q.blank c = false) :
    w.length ≤ (w.flatMap q.spell).length := by
  induction w with
  | nil => exact Nat.zero_le _
  | cons c w ih =>
      obtain ⟨first, later⟩ := List.forall_mem_cons.mp word
      obtain ⟨d, ds, spelled, -⟩ := sound.begins first
      have := ih later
      simp only [List.flatMap_cons, spelled, List.length_append, List.length_cons]
      omega

/-- A word ends where a blank is ahead. -/
theorem readQuotedWord_blank {quote : Char} (blank : endsWord t.head? = true) :
    readQuotedWord began quote (fuel + 1) ⟨t, m, none⟩ = .ok ([], false, ⟨t, m, none⟩) := by
  have ends : endsWord (Input.mk t m none).peek = true := blank
  rw [readQuotedWord]
  simp only [ends, if_true]
  rfl

/-- A word ends at the closing quote, which no apostrophe follows. -/
theorem readQuotedWord_quote (sound : q.Sound) (alone : rest.head? ≠ some '\x27') :
    readQuotedWord began q.quote (fuel + 1) ⟨q.quote :: rest, m, none⟩ =
      .ok ([], false, ⟨q.quote :: rest, m, none⟩) := by
  have inside : endsWord (Input.mk (q.quote :: rest) m none).peek = false := sound.closes
  have next : ((Input.mk (q.quote :: rest) m none).peekAt 1 == some '\x27') = false := by
    rw [beq_eq_false_iff_ne]
    rw [List.head?_eq_getElem?] at alone
    exact alone
  have sees : (Input.mk (q.quote :: rest) m none).sees q.quote = true := beq_self_eq_true _
  rw [readQuotedWord]
  simp only [inside, next, sees, Bool.and_false, Bool.false_eq_true, if_false, if_true]
  rfl

/-- **The spelling of a word reads back as the word**, up to what ends a word. -/
theorem readQuotedWord_spelled (began : Mark) (fuel : Nat) (sound : q.Sound) (word : ∀ c ∈ w, q.blank c = false)
    (ends : ∀ fuel m, readQuotedWord began q.quote (fuel + 1) ⟨t, m, none⟩ =
      .ok ([], false, ⟨t, m, none⟩)) (enough : w.length < fuel) :
    readQuotedWord began q.quote fuel ⟨w.flatMap q.spell ++ t, m, none⟩ =
      .ok (w, false, ⟨t, m.over (w.flatMap q.spell).length, none⟩) := by
  obtain ⟨fuel, rfl⟩ := Nat.exists_eq_add_one.mpr (Nat.zero_lt_of_lt enough)
  induction w generalizing fuel m with
  | nil => exact ends fuel m
  | cons c w ih =>
      obtain ⟨first, later⟩ := List.forall_mem_cons.mp word
      obtain ⟨fuel, rfl⟩ := Nat.exists_eq_add_one.mpr
        (Nat.zero_lt_of_lt (Nat.lt_of_succ_lt_succ enough))
      have onward := sound.reads first (ih later (m := m.over (q.spell c).length) fuel
        (Nat.lt_of_succ_lt_succ enough))
      rwa [Mark.over_over, ← List.append_assoc, ← List.length_append] at onward

/-- The last word, which the closing quote ends. -/
theorem readQuotedRest_last {quote : Char} {i : Input} {m' : Mark} (inside : i.mark.column ≠ 0)
    (ahead : i.rest ≠ []) (fault : i.fault = none)
    (word : readQuotedWord began quote (fuel + 1) i = .ok (w, false, ⟨quote :: rest, m', none⟩)) :
    readQuotedRest began quote (fuel + 1) i = .ok (w, ⟨rest, m'.next, none⟩) := by
  obtain ⟨chars, m, fault'⟩ := i
  obtain rfl : fault' = none := fault
  obtain ⟨c, chars, rfl⟩ := List.exists_cons_of_ne_nil ahead
  have sees : (Input.mk (quote :: rest) m' none).sees quote = true := beq_self_eq_true _
  rw [readQuotedRest, atDocumentEdge_of_column inside, word]
  simp only [sees, bind, Except.bind, Input.ensure, if_true]
  rfl

/-- A word and the gap behind it. -/
theorem readQuotedRest_gap {quote : Char} {i k l : Input} {m' : Mark} {b : Char} {gap : Gap}
    {more : List Char} (inside : i.mark.column ≠ 0) (ahead : i.rest ≠ []) (fault : i.fault = none)
    (closes : endsWord (some quote) = false) (blank : endsWord (some b) = true)
    (word : readQuotedWord began quote (fuel + 1) i = .ok (w, false, ⟨b :: t, m', none⟩))
    (between : Gap.read began none (fuel + 1) .empty ⟨b :: t, m', none⟩ = .ok (gap, k))
    (onward : readQuotedRest began quote fuel k = .ok (more, l)) :
    readQuotedRest began quote (fuel + 1) i = .ok (w ++ gap.text ++ more, l) := by
  obtain ⟨chars, m, fault'⟩ := i
  obtain rfl : fault' = none := fault
  obtain ⟨c, chars, rfl⟩ := List.exists_cons_of_ne_nil ahead
  have sees : (Input.mk (b :: t) m' none).sees quote = false := by
    rw [Input.sees, List.head?_cons, beq_eq_false_iff_ne]
    rintro ⟨⟩
    exact Bool.false_ne_true (blank.symm.trans closes).symm
  rw [readQuotedRest, atDocumentEdge_of_column inside, word]
  simp only [sees, bind, Except.bind, Input.ensure, Bool.false_eq_true, if_false, between, onward]
  rfl

/-- **A text in quotes reads back as the text.** -/
theorem readQuotedRest_spelled (sound : q.Sound) (spelled : Spelled q r s) (inside : m.column ≠ 0)
    (enough : r.length < fuel) (alone : rest.head? ≠ some '\x27') :
    ∃ m', readQuotedRest began q.quote fuel ⟨r ++ q.quote :: rest, m, none⟩ =
      .ok (s, ⟨rest, m', none⟩) := by
  obtain ⟨fuel, rfl⟩ := Nat.exists_eq_add_one.mpr (Nat.zero_lt_of_lt enough)
  have ends : ∀ {b : Char} {t : List Char}, endsWord (some b) = true → ∀ fuel m,
      readQuotedWord began q.quote (fuel + 1) ⟨b :: t, m, none⟩ = .ok ([], false, ⟨b :: t, m, none⟩) :=
    fun blank _ _ => readQuotedWord_blank blank
  have stops : ∀ {r : List Char}, Stops (fun c => endsWord (some c)) (r ++ [q.quote]) →
      Stops (fun c => endsWord (some c)) (r ++ q.quote :: rest) := by
    rintro (_ | ⟨c, r⟩) behind
    · exact behind
    · exact behind
  induction spelled generalizing fuel m with
  | @word w word =>
      have short := sound.length_le word
      have read := readQuotedWord_spelled began (fuel + 1) (m := m) sound word
        (fun _ _ => readQuotedWord_quote sound alone) (Nat.lt_of_le_of_lt short enough)
      exact ⟨_, readQuotedRest_last inside (by simp) rfl read⟩
  | @spaces w g r s word wide all behind more ih =>
      have short := sound.length_le word
      obtain ⟨b, g, rfl⟩ := List.exists_cons_of_ne_nil wide
      obtain rfl := all b List.mem_cons_self
      simp only [List.length_append, List.length_cons] at enough
      have read := readQuotedWord_spelled began (fuel + 1) (m := m) sound word
        (ends (b := ' ') (t := g ++ (r ++ q.quote :: rest)) rfl) (by omega)
      have between := Gap.read_spaces began none (fuel + 1)
        (m := m.over (w.flatMap q.spell).length) all (by rw [List.length_cons]; omega) (stops behind) []
      obtain ⟨fuel, rfl⟩ := Nat.exists_eq_add_one.mpr (show 0 < fuel by omega)
      obtain ⟨m', onward⟩ := ih (m := (m.over (w.flatMap q.spell).length).over (' ' :: g).length)
        (by simp [Mark.over]) fuel (by omega)
      have split : (w.flatMap q.spell ++ (' ' :: g ++ r)) ++ q.quote :: rest =
          w.flatMap q.spell ++ ' ' :: (g ++ (r ++ q.quote :: rest)) := by
        simp only [List.append_assoc, List.cons_append]
      rw [split, ← List.append_assoc w]
      exact ⟨m', readQuotedRest_gap inside (by simp) rfl sound.closes rfl read between onward⟩
  | @lines w g r s b word isEnd kept behind more ih =>
      have short := sound.length_le word
      simp only [List.length_append, List.length_cons] at enough
      have blank : endsWord (some b) = true := by
        rw [endsWord, (isEnd b List.mem_cons_self).1, Bool.or_true]
      have read := readQuotedWord_spelled began (fuel + 1) (m := m) sound word
        (ends (t := g ++ (margin ++ (r ++ q.quote :: rest))) blank) (by omega)
      have wide : g.length + margin.length ≤ fuel := by
        rw [show margin.length = 2 from rfl] at *
        omega
      have between := Gap.read_lines began none fuel (m := m.over (w.flatMap q.spell).length) g margin isEnd
        (fun c member => by simpa [margin] using member) wide (stops behind)
      obtain ⟨fuel, rfl⟩ := Nat.exists_eq_add_one.mpr (show 0 < fuel by omega)
      obtain ⟨m', onward⟩ := ih (m := ((m.over (w.flatMap q.spell).length).below (g.length + 1)).over
        margin.length) (by simp [Mark.over, margin]) fuel (by omega)
      have split : (w.flatMap q.spell ++ (b :: (g ++ (margin ++ r)))) ++ q.quote :: rest =
          w.flatMap q.spell ++ b :: (g ++ (margin ++ (r ++ q.quote :: rest))) := by
        simp only [List.append_assoc, List.cons_append]
      have text : Gap.text ⟨[], [b], g, true⟩ = b :: g := by
        simp [Gap.text, kept]
      rw [split, ← List.append_assoc w, ← text]
      exact ⟨m', readQuotedRest_gap inside (by simp) rfl sound.closes blank read between onward⟩

end Reading

/-- A character of a word that stands for itself is read in one step. -/
theorem readQuotedWord_char {began : Mark} {fuel : Nat} {quote : Char} {e : Bool} {j : Input}
    (inside : endsWord (some c) = false) (other : c ≠ quote) (direct : quote = '"' → c ≠ '\\')
    (onward : readQuotedWord began quote fuel ⟨t, m.over 1, none⟩ = .ok (w, e, j)) :
    readQuotedWord began quote (fuel + 1) ⟨c :: t, m, none⟩ = .ok (c :: w, e, j) := by
  have peek : endsWord (Input.mk (c :: t) m none).peek = false := inside
  have sees : ∀ d, c ≠ d → (Input.mk (c :: t) m none).sees d = false := fun d differs => by
    rw [Input.sees, List.head?_cons, beq_eq_false_iff_ne]
    exact fun same => differs (Option.some.inj same)
  have passed : readQuotedWord began quote fuel (Input.mk (c :: t) m none).skip = .ok (w, e, j) := onward
  have single : (quote == '\x27' && (Input.mk (c :: t) m none).sees '\x27') = false := by
    cases same : quote == '\x27' with
    | false => rfl
    | true => rw [sees _ (beq_iff_eq.mp same ▸ other), Bool.and_false]
  have escaped : (quote == '"' && (Input.mk (c :: t) m none).sees '\\') = false := by
    cases same : quote == '"' with
    | false => rfl
    | true => rw [sees _ (direct (beq_iff_eq.mp same)), Bool.and_false]
  rw [readQuotedWord]
  simp only [peek, single, sees _ other, escaped, passed, Bool.false_and, Bool.false_eq_true, if_false,
    bind, Except.bind, Input.ensure]
  rfl

/-! ### Quotation marks -/

/-- Between quotation marks a gap consists of spaces; every other blank is escaped. -/
def doubleQuotation : Quotation := ⟨'"', (· == ' '), doubleChar⟩

/-- No line break begins an escape. -/
theorem isBreak_eq_false_of_escapeOf {d : Char} (escape : (escapeOf d).isSome = true) :
    isBreak d = false := by
  by_contra breaks
  simp only [Bool.not_eq_false, isBreak, Bool.or_eq_true, beq_iff_eq] at breaks
  rcases breaks with (((rfl | rfl) | rfl) | rfl) | rfl <;> exact absurd escape (by decide)

/-- An escape in a word is read in one step. -/
theorem readQuotedWord_escape {began : Mark} {fuel : Nat} {e : Bool} {j : Input}
    (onward : readQuotedWord began '"' fuel ⟨t, m.over ((escape c).length + 1), none⟩ = .ok (w, e, j)) :
    readQuotedWord began '"' (fuel + 1) ⟨'\\' :: (escape c ++ t), m, none⟩ = .ok (c :: w, e, j) := by
  have read := readEscape_written (m := m) (t := t) began c
  have noBreak : ((Input.mk ('\\' :: (escape c ++ t)) m none).peekAt 1).any isBreak = false := by
    rw [readEscape] at read
    cases second : (Input.mk ('\\' :: (escape c ++ t)) m none).peekAt 1 with
    | none => rfl
    | some d =>
        refine isBreak_eq_false_of_escapeOf ?_
        rw [second] at read
        cases found : escapeOf d with
        | none => simp [found] at read
        | some x => rfl
  rw [readQuotedWord]
  simp only [noBreak, read, onward, bind, Except.bind, Input.ensure]
  rfl

theorem doubleQuotation_sound : doubleQuotation.Sound where
  closes := rfl
  begins := by
    intro c word
    simp only [doubleQuotation, doubleChar]
    split
    · exact ⟨'\\', escape c, rfl, rfl⟩
    next direct =>
    simp only [Bool.or_eq_true, not_or, Bool.not_eq_true, Bool.not_eq_false'] at direct
    refine ⟨c, [], rfl, ?_⟩
    rw [endsWord_of_isPrintable direct.1.1.1, direct.1.1.2, Bool.or_false]
    exact word
  reads := by
    intro c word began m fuel t w e j onward
    simp only [doubleQuotation, doubleChar] at onward ⊢
    by_cases escaped : (!isPrintable c || isBreak c || c == '"' || c == '\\') = true
    · rw [if_pos escaped] at onward ⊢
      exact readQuotedWord_escape onward
    · rw [if_neg escaped] at onward ⊢
      simp only [Bool.or_eq_true, not_or, Bool.not_eq_true, Bool.not_eq_false', beq_eq_false_iff_ne]
        at escaped
      refine readQuotedWord_char ?_ escaped.1.2 (fun _ => escaped.2) onward
      rw [endsWord_of_isPrintable escaped.1.1.1, escaped.1.1.2, Bool.or_false]
      exact word

theorem spelled_double (s : List Char) : Spelled doubleQuotation (s.flatMap doubleChar) s := by
  induction pieces (· == ' ') s with
  | word word => exact .word word
  | @gap w g s word wide spaces behind more ih =>
      have all : ∀ c ∈ g, c = ' ' := fun c hc => beq_iff_eq.mp (spaces c hc)
      have direct : g.flatMap doubleChar = g := by
        rw [List.flatMap_congr fun c hc => (all c hc ▸ rfl : doubleChar c = [c]), List.flatMap_singleton']
      rw [List.flatMap_append, List.flatMap_append, direct]
      refine .spaces word wide all ?_ ih
      cases s with
      | nil => exact stops_cons.mpr doubleQuotation_sound.closes
      | cons c s =>
          obtain ⟨d, ds, spelled, inside⟩ := doubleQuotation_sound.begins (stops_cons.mp behind)
          have first : doubleChar c = d :: ds := spelled
          rw [List.flatMap_cons, first]
          exact stops_cons.mpr inside

/-- **Between quotation marks every text reads back.** -/
theorem readQuoted_double (s rest : List Char) (m : Mark) (alone : rest.head? ≠ some '\x27') :
    ∃ m', readQuoted '"' ⟨'"' :: (s.flatMap doubleChar ++ '"' :: rest), m, none⟩ =
      .ok (s, ⟨rest, m', none⟩) := by
  refine readQuotedRest_spelled doubleQuotation_sound (spelled_double s) (m := m.next) ?_ ?_ alone
  · exact Nat.succ_ne_zero _
  · simp only [List.length_cons, List.length_append]
    omega

/-! ### Apostrophes -/

/-- Between apostrophes a gap consists of spaces or of line breaks. -/
def singleQuotation : Quotation :=
  ⟨'\x27', fun c => endsWord (some c), fun c => if c == '\x27' then [c, c] else [c]⟩

theorem singleQuotation_sound : singleQuotation.Sound where
  closes := rfl
  begins := by
    intro c word
    simp only [singleQuotation]
    split
    · exact ⟨c, [c], rfl, word⟩
    · exact ⟨c, [], rfl, word⟩
  reads := by
    intro c word began m fuel t w e j onward
    simp only [singleQuotation] at onward ⊢
    by_cases same : (c == '\x27') = true
    · obtain rfl := beq_iff_eq.mp same
      have passed : readQuotedWord began '\x27' fuel
          ((Input.mk ('\x27' :: '\x27' :: t) m none).skipMany 2) = .ok (w, e, j) := onward
      rw [if_pos same, List.cons_append, List.cons_append, List.nil_append, readQuotedWord]
      simp only [passed, bind, Except.bind, Input.ensure]
      rfl
    · rw [if_neg same] at onward ⊢
      exact readQuotedWord_char word (fun apostrophe => same (beq_iff_eq.mpr apostrophe))
        (fun double => absurd double (by decide)) onward

/-- A word is spelled character by character. -/
theorem singleRest_word (word : ∀ c ∈ w, isBreak c = false) :
    singleRest false (w ++ t) = w.flatMap singleQuotation.spell ++ singleRest false t := by
  induction w with
  | nil => rfl
  | cons c w ih =>
      obtain ⟨first, later⟩ := List.forall_mem_cons.mp word
      rw [List.cons_append, singleRest, first, ih later, List.flatMap_cons, List.append_assoc,
        List.append_assoc]
      rfl

/-- The line breaks after the first one are kept, and a margin follows them. -/
theorem singleRest_lines (ends : ∀ c ∈ g, isBreak c = true) (behind : Stops isBreak t) :
    singleRest true (g ++ t) = g ++ (margin ++ singleRest false t) := by
  induction g with
  | nil =>
      cases t with
      | nil => rfl
      | cons c t =>
          rw [List.nil_append, List.nil_append, singleRest, singleRest, stops_cons.mp behind]
          simp
  | cons c g ih =>
      obtain ⟨first, later⟩ := List.forall_mem_cons.mp ends
      rw [List.cons_append, singleRest, first, ih later]
      rfl

/-- A gap of a text in apostrophes is uniform, as no space of the text touches a line break. -/
theorem uniform_of_adjacent (edges : ∀ c ∈ g, isEdge c = true)
    (spaceBreak : adjacent isSpace isBreak g = false) (breakSpace : adjacent isBreak isSpace g = false) :
    (∀ c ∈ g, c = ' ') ∨ ∀ c ∈ g, isBreak c = true := by
  induction g with
  | nil => exact .inl nofun
  | cons c g ih =>
      obtain ⟨first, later⟩ := List.forall_mem_cons.mp edges
      cases g with
      | nil =>
          obtain space | ends := Bool.or_eq_true_iff.mp first
          · exact .inl (List.forall_mem_singleton.mpr (beq_iff_eq.mp space))
          · exact .inr (List.forall_mem_singleton.mpr ends)
      | cons d g =>
          simp only [adjacent, Bool.or_eq_false_iff, Bool.and_eq_false_iff] at spaceBreak breakSpace
          obtain spaces | breaks := ih later spaceBreak.2 breakSpace.2
          · have second : isSpace d = true := beq_iff_eq.mpr (spaces d List.mem_cons_self)
            obtain space | ends := Bool.or_eq_true_iff.mp first
            · exact .inl (List.forall_mem_cons.mpr ⟨beq_iff_eq.mp space, spaces⟩)
            · exact absurd (breakSpace.1.resolve_left (by simp [ends])) (by simp [second])
          · have second : isBreak d = true := breaks d List.mem_cons_self
            obtain space | ends := Bool.or_eq_true_iff.mp first
            · exact absurd (spaceBreak.1.resolve_left (by simp [space])) (by simp [second])
            · exact .inr (List.forall_mem_cons.mpr ⟨ends, breaks⟩)

theorem adjacent_of_append {p q : Char → Bool} (h : adjacent p q (w ++ t) = false) :
    adjacent p q w = false ∧ adjacent p q t = false := by
  induction w with
  | nil => exact ⟨rfl, h⟩
  | cons c w ih =>
      cases w with
      | nil =>
          refine ⟨rfl, ?_⟩
          cases t with
          | nil => rfl
          | cons d t => exact (Bool.or_eq_false_iff.mp h).2
      | cons d w =>
          obtain ⟨first, later⟩ := Bool.or_eq_false_iff.mp h
          exact ⟨Bool.or_eq_false_iff.mpr ⟨first, (ih later).1⟩, (ih later).2⟩

theorem stops_singleRest (behind : Stops (fun c => endsWord (some c)) s) :
    Stops (fun c => endsWord (some c)) (singleRest false s) := by
  cases s with
  | nil => exact stops_cons.mpr rfl
  | cons c s =>
      have inside := stops_cons.mp behind
      rw [singleRest, (Bool.or_eq_false_iff.mp inside).2]
      cases same : c == '\x27' with
      | false => exact stops_cons.mpr inside
      | true => exact stops_cons.mpr inside

/-- **The spelling of a text between apostrophes**, the closing one included. -/
theorem spelled_single (visible : IsVisible s) (noFeed : '\n' ∉ s)
    (spaceBreak : adjacent isSpace isBreak s = false) (breakSpace : adjacent isBreak isSpace s = false) :
    ∃ r, singleRest false s = r ++ ['\x27'] ∧ Spelled singleQuotation r s := by
  induction pieces (fun c => endsWord (some c)) s with
  | @word w word =>
      refine ⟨w.flatMap singleQuotation.spell, ?_, .word word⟩
      have inLine : ∀ c ∈ w, isBreak c = false := fun c hc => (Bool.or_eq_false_iff.mp (word c hc)).2
      rw [← List.append_nil w, singleRest_word inLine, List.append_nil]
      rfl
  | @gap w g s word wide blanks behind more ih =>
      have inLine : ∀ c ∈ w, isBreak c = false := fun c hc => (Bool.or_eq_false_iff.mp (word c hc)).2
      obtain ⟨-, inText⟩ := List.forall_mem_append.mp visible
      obtain ⟨inGap, inMore⟩ := List.forall_mem_append.mp inText
      simp only [List.mem_append, not_or] at noFeed
      obtain ⟨spaceBreak, spaceBreak'⟩ := adjacent_of_append (adjacent_of_append spaceBreak).2
      obtain ⟨breakSpace, breakSpace'⟩ := adjacent_of_append (adjacent_of_append breakSpace).2
      obtain ⟨r, rest, spelled⟩ := ih inMore noFeed.2.2 spaceBreak' breakSpace'
      have stops := stops_singleRest behind
      rw [rest] at stops
      have edges : ∀ c ∈ g, isEdge c = true := fun c hc =>
        (endsWord_of_isPrintable (inGap c hc)).symm.trans (blanks c hc)
      rw [singleRest_word inLine]
      obtain spaces | breaks := uniform_of_adjacent edges spaceBreak breakSpace
      · refine ⟨_, ?_, .spaces word wide spaces stops spelled⟩
        have direct : g.flatMap singleQuotation.spell = g := by
          rw [List.flatMap_congr fun c hc => (spaces c hc ▸ rfl : singleQuotation.spell c = [c]),
            List.flatMap_singleton']
        rw [singleRest_word fun c hc => spaces c hc ▸ rfl, direct, rest]
        simp only [List.append_assoc]
      · obtain ⟨b, g, rfl⟩ := List.exists_cons_of_ne_nil wide
        obtain ⟨first, later⟩ := List.forall_mem_cons.mp breaks
        have kept : b ≠ '\n' := fun same => noFeed.2.1 (same ▸ List.mem_cons_self)
        have inLine' : Stops isBreak s := fun c head => (Bool.or_eq_false_iff.mp (behind c head)).2
        refine ⟨_, ?_, .lines word (fun c hc => ⟨breaks c hc, inGap c hc⟩) kept stops spelled⟩
        have feed : (b == '\n') = false := beq_eq_false_iff_ne.mpr kept
        rw [List.cons_append, singleRest, first, feed, singleRest_lines later inLine', rest]
        simp

theorem isVisible_of_fitsSingle (fits : fitsSingle s = true) : IsVisible s := by
  simp only [fitsSingle, Bool.and_eq_true, Bool.not_eq_true'] at fits
  exact (isVisible_of_isSpecial fits.1).1

/-- **Between apostrophes a text reads back** if it fits that style and has no line feed. -/
theorem readQuoted_single (rest : List Char) (fits : fitsSingle s = true) (noFeed : '\n' ∉ s) (m : Mark)
    (alone : rest.head? ≠ some '\x27') :
    ∃ m', readQuoted '\x27' ⟨'\x27' :: (singleRest false s ++ rest), m, none⟩ =
      .ok (s, ⟨rest, m', none⟩) := by
  simp only [fitsSingle, Bool.and_eq_true, Bool.not_eq_true'] at fits
  obtain ⟨visible, spaceBreak⟩ := isVisible_of_isSpecial fits.1
  obtain ⟨r, spelling, spelled⟩ := spelled_single visible noFeed spaceBreak fits.2
  rw [spelling, List.append_assoc]
  refine readQuotedRest_spelled singleQuotation_sound spelled (m := m.next) ?_ ?_ alone
  · exact Nat.succ_ne_zero _
  · simp only [List.length_cons, List.length_append]
    omega

end ProjectIndex.Yaml
