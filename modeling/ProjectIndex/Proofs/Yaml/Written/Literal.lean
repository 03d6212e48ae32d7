import ProjectIndex.Proofs.Yaml.Written.Input

/-!
# Literal texts

A text of several lines is written as a literal block, each line behind a margin, and reads back with the
line breaks it has: `readBlock_written`.  The lines themselves are kept as they are.  What a block says
about its end is the chomping mark, and it is the right one for every text: none of the breaks at the end
is kept, the first one, or all of them (`readBlockLines_written`).  The indentation mark stands wherever
the first line would not show the margin.
-/

namespace ProjectIndex.Yaml

open Written

variable {s t w g rest : List Char} {m : Mark} {began stop : Mark} {fuel widest : Nat}

/-! ### The empty lines -/

/-- The margin of a line that is not empty. -/
theorem readBlockBreaks_line {indent n : Nat}
    (taken : (if indent = 0 then (t.takeWhile (· == ' ')).length
      else min (t.takeWhile (· == ' ')).length (indent - m.column)) = n)
    (word : Stops (fun c => isBreak c || c == '\t') (t.drop n)) :
    readBlockBreaks began indent (fuel + 1) widest stop ⟨t, m, none⟩ =
      .ok ⟨max widest (m.over n).column, [], stop, ⟨t.drop n, m.over n, none⟩⟩ := by
  have passed : (Input.mk t m none).skipMany n = ⟨t.drop n, m.over n, none⟩ := skipMany_eq n t m none
  have noBreak : (Input.mk (t.drop n) (m.over n) none).peek.any isBreak = false := by
    rw [Input.peek]
    cases head : (t.drop n).head? with
    | none => rfl
    | some c => exact (Bool.or_eq_false_iff.mp (word c head)).1
  have noTab : (Input.mk (t.drop n) (m.over n) none).sees '\t' = false := by
    rw [Input.sees, beq_eq_false_iff_ne]
    exact fun tab => Bool.false_ne_true (word '\t' tab).symm
  rw [readBlockBreaks]
  simp only [taken, passed, noBreak, noTab, Bool.false_eq_true, and_false, if_false]
  rfl

/-- **The empty lines before a line of a block**, and the margin of that line. -/
theorem readBlockBreaks_written (began : Mark) (fuel widest : Nat) (stop : Mark) {n : Nat}
    (ends : ∀ c ∈ g, isBreak c = true ∧ isPrintable c = true)
    (taken : min (t.takeWhile (· == ' ')).length 2 = n)
    (word : Stops (fun c => isBreak c || c == '\t') (t.drop n)) (start : m.column = 0)
    (enough : g.length < fuel) :
    ∃ gap, readBlockBreaks began 2 fuel widest stop ⟨g ++ t, m, none⟩ = .ok gap ∧ gap.breaks = g ∧
      ∃ m', gap.after = ⟨t.drop n, m', none⟩ ∧ m'.column = n := by
  obtain ⟨fuel, rfl⟩ := Nat.exists_eq_add_one.mpr (Nat.zero_lt_of_lt enough)
  have two : (2 : Nat) ≠ 0 := by decide
  induction g generalizing m widest stop fuel with
  | nil =>
      refine ⟨_, readBlockBreaks_line ?_ word, rfl, _, rfl, ?_⟩
      · rwa [if_neg two, start]
      · rw [Mark.over, start, Nat.zero_add]
  | cons c g ih =>
      obtain ⟨⟨isEnd, printable⟩, later⟩ := List.forall_mem_cons.mp ends
      obtain ⟨fuel, rfl⟩ := Nat.exists_eq_add_one.mpr
        (Nat.zero_lt_of_lt (Nat.lt_of_succ_lt_succ enough))
      have other : ∀ d, isBreak d = false → (c == d) = false := fun d => beq_eq_false_of_class isEnd
      have noSpaces : ((c :: (g ++ t)).takeWhile (· == ' ')).length = 0 := by
        rw [List.takeWhile_cons, other ' ' rfl]
        rfl
      have noTab : (Input.mk (c :: (g ++ t)) m none).sees '\t' = false := other '\t' rfl
      have breaks : (Input.mk (c :: (g ++ t)) m none).peek.any isBreak = true := isEnd
      obtain ⟨gap, read, same, after⟩ := ih (max widest m.column) (m.nextLine 1) later (m := m.nextLine 1) rfl fuel
        (Nat.lt_of_succ_lt_succ enough)
      refine ⟨{ gap with breaks := c :: gap.breaks }, ?_, congrArg (c :: ·) same, after⟩
      rw [List.cons_append, readBlockBreaks]
      simp only [noSpaces, Nat.zero_min, two, if_false, Input.skipMany, noTab, breaks, if_true,
        Bool.false_eq_true, and_false, takeBreak_cons isEnd printable, read, bind, Except.bind, Input.ensure]
      rfl

/-! ### The spelling of the lines -/

namespace Written

theorem literalRest_word (word : ∀ c ∈ w, isBreak c = false) :
    literalRest false (w ++ t) = w ++ literalRest false t := by
  induction w with
  | nil => rfl
  | cons c w ih =>
      obtain ⟨first, later⟩ := List.forall_mem_cons.mp word
      rw [List.cons_append, literalRest, first, ih later]
      rfl

/-- The last line gets a line feed. -/
theorem literalRest_last (word : ∀ c ∈ w, isBreak c = false) : literalRest false w = w ++ ['\n'] := by
  have last := literalRest_word word (t := [])
  rwa [List.append_nil] at last

theorem literalRest_breaks (ends : ∀ c ∈ g, isBreak c = true) :
    literalRest true (g ++ t) = g ++ literalRest true t := by
  induction g with
  | nil => rfl
  | cons c g ih =>
      obtain ⟨first, later⟩ := List.forall_mem_cons.mp ends
      rw [List.cons_append, literalRest, if_pos first, ih later]
      rfl

theorem length_le_literalRest (broken : Bool) (s : List Char) : s.length ≤ (literalRest broken s).length := by
  induction s generalizing broken with
  | nil => exact Nat.zero_le _
  | cons c s ih =>
      rw [literalRest]
      split
      · exact Nat.succ_le_succ (ih true)
      · rw [List.length_append]
        exact Nat.le_add_left_of_le (Nat.succ_le_succ (ih false))

/-- A line begins with the margin. -/
theorem literalRest_line (nonempty : t ≠ []) (begins : Stops isBreak t) :
    literalRest true t = margin ++ literalRest false t := by
  obtain ⟨c, t, rfl⟩ := List.exists_cons_of_ne_nil nonempty
  rw [literalRest, literalRest, stops_cons.mp begins]
  rfl

theorem stops_literalRest (nonempty : t ≠ []) (begins : Stops isBreak t)
    (visible : IsVisible t) (rest : List Char) :
    Stops (fun c => isBreak c || c == '\t') (literalRest false t ++ rest) := by
  obtain ⟨c, t, rfl⟩ := List.exists_cons_of_ne_nil nonempty
  have inside := stops_cons.mp begins
  rw [literalRest, inside]
  refine stops_cons.mpr (Bool.or_eq_false_iff.mpr ⟨inside, beq_eq_false_iff_ne.mpr ?_⟩)
  rintro rfl
  exact absurd (visible _ List.mem_cons_self) (by decide)

/-! ### The chomping mark -/

theorem chompingMark_cases (s : List Char) :
    chompingMark s = ['-'] ∨ chompingMark s = ['+'] ∨ chompingMark s = [] := by
  rw [chompingMark]
  split
  · exact .inl rfl
  · split
    · exact .inr (.inl rfl)
    · exact .inl rfl
  · split
    · exact .inl rfl
    split
    · exact .inr (.inl rfl)
    · exact .inr (.inr rfl)

/-- The end of a text decides about the mark, from the last line that is not empty on. -/
theorem chompingMark_append (nonempty : t ≠ []) (begins : Stops isBreak t) :
    chompingMark (s ++ t) = chompingMark t := by
  rw [chompingMark, chompingMark, List.reverse_append]
  match ends : t.reverse with
  | [] => exact absurd (List.reverse_eq_nil_iff.mp ends) nonempty
  | [c] =>
      obtain rfl : t = [c] := List.reverse_eq_iff.mp ends
      have inside := stops_cons.mp begins
      cases s.reverse with
      | nil => rfl
      | cons d s => simp [inside]
  | c :: d :: r => rfl

/-- A text that ends in a word. -/
theorem chompingMark_word (word : ∀ c ∈ w, isBreak c = false) (nonempty : w ≠ []) :
    chompingMark w = ['-'] := by
  rw [chompingMark]
  match ends : w.reverse with
  | [] => exact absurd (List.reverse_eq_nil_iff.mp ends) nonempty
  | [c] =>
      have inside := word c (List.mem_reverse.mp (ends ▸ List.mem_cons_self))
      simp [inside]
  | c :: d :: r =>
      have inside := word c (List.mem_reverse.mp (ends ▸ List.mem_cons_self))
      simp [inside]

/-- A text that ends in one line break behind a word. -/
theorem chompingMark_break {b : Char} (word : ∀ c ∈ w, isBreak c = false) (nonempty : w ≠ [])
    (ends : isBreak b = true) : chompingMark (w ++ [b]) = [] := by
  rw [chompingMark, List.reverse_append, List.reverse_singleton]
  match last : w.reverse with
  | [] => exact absurd (List.reverse_eq_nil_iff.mp last) nonempty
  | d :: r =>
      have inside := word d (List.mem_reverse.mp (last ▸ List.mem_cons_self))
      simp [ends, inside]

/-- A text that ends in several line breaks, or that consists of line breaks. -/
theorem chompingMark_breaks (ends : ∀ c ∈ g, isBreak c = true) (several : 2 ≤ g.length ∨ g ≠ [] ∧ w = []) :
    chompingMark (w ++ g) = ['+'] := by
  rw [chompingMark, List.reverse_append]
  have last : ∀ c ∈ g.reverse, isBreak c = true := fun c hc => ends c (List.mem_reverse.mp hc)
  have same : g.reverse.length = g.length := List.length_reverse
  match spelled : g.reverse with
  | [] =>
      rw [spelled] at same
      obtain several | ⟨nonempty, -⟩ := several
      · rw [← same] at several
        exact absurd several (by decide)
      · exact absurd (List.length_eq_zero_iff.mp same.symm) nonempty
  | [c] =>
      rw [spelled] at same last
      obtain several | ⟨-, rfl⟩ := several
      · rw [← same, List.length_singleton] at several
        exact absurd several (by decide)
      · simp [last c List.mem_cons_self]
  | c :: d :: r =>
      rw [spelled] at last
      simp [last c List.mem_cons_self, last d (List.mem_cons_of_mem c List.mem_cons_self)]

end Written

/-- What the mark of a text asks for. -/
def chompingFor (s : List Char) : Chomping := ((chompingMark s).head? >>= chompingOf).getD .clip

/-- What is kept of the line breaks at the end of a block. -/
def Chomping.kept : Chomping → (lastBreak breaks : List Char) → List Char
  | strip, _, _ => []
  | clip, lastBreak, _ => lastBreak
  | keep, lastBreak, breaks => lastBreak ++ breaks

theorem chompingFor_append (nonempty : t ≠ []) (begins : Stops isBreak t) :
    chompingFor (s ++ t) = chompingFor t := by
  rw [chompingFor, chompingMark_append nonempty begins]
  rfl

/-- Behind a word nothing is kept. -/
theorem kept_word (word : ∀ c ∈ w, isBreak c = false) (nonempty : w ≠ []) (lastBreak breaks : List Char) :
    (chompingFor w).kept lastBreak breaks = [] := by
  rw [chompingFor, chompingMark_word word nonempty]
  rfl

/-- The line breaks behind a last word are kept. -/
theorem kept_breaks {b : Char} (word : ∀ c ∈ w, isBreak c = false) (nonempty : w ≠ [])
    (ends : ∀ c ∈ b :: g, isBreak c = true) : (chompingFor (w ++ b :: g)).kept [b] g = b :: g := by
  rw [chompingFor]
  cases g with
  | nil =>
      rw [chompingMark_break word nonempty (ends b List.mem_cons_self)]
      rfl
  | cons c g =>
      rw [chompingMark_breaks ends (.inl (by simp))]
      rfl

/-! ### The lines -/

section Lines

variable {gap gap' : BlockBreaks} {lead : List Char} {blank : Bool} {b : Char} {more : BlockLines}

/-- A line further to the left ends the block. -/
theorem readBlockLines_end (began : Mark) (fuel : Nat) (lead : List Char) (blank : Bool)
    (out : gap.after.mark.column ≠ 2) :
    readBlockLines began false 2 fuel lead blank gap = .ok ⟨[], lead, gap.breaks, gap.stop, gap.after⟩ := by
  cases fuel with
  | zero => rfl
  | succ fuel => rw [readBlockLines, if_pos (.inl out)]

/-- **One line of a block**, and the empty lines behind it. -/
theorem readBlockLines_line (word : ∀ c ∈ w, isBreak c = false) (nonempty : w ≠ [])
    (ends : isBreak b = true) (printable : isPrintable b = true)
    (after : gap.after = ⟨w ++ b :: t, m, none⟩) (column : m.column = 2)
    (behind : readBlockBreaks began 2 (fuel + 1) 0 ((m.over w.length).nextLine 1)
      ⟨t, (m.over w.length).nextLine 1, none⟩ = .ok gap')
    (onward : ∀ blank, readBlockLines began false 2 fuel [b] blank gap' = .ok more) :
    readBlockLines began false 2 (fuel + 1) lead blank gap =
      .ok { more with text := lead ++ gap.breaks ++ w ++ more.text } := by
  have inside : ¬ (gap.after.mark.column ≠ 2 ∨ gap.after.peek.isNone = true) := by
    obtain ⟨c, w, rfl⟩ := List.exists_cons_of_ne_nil nonempty
    simp [after, column, Input.peek]
  have line : (gap.after.span fun c => !isBreak c) = (w, ⟨b :: t, m.over w.length, none⟩) := by
    rw [after]
    refine span_append (fun c hc => ?_) (stops_cons.mpr ?_)
    · rw [word c hc]
      rfl
    · rw [ends]
      rfl
  rw [readBlockLines, if_neg inside]
  simp only [line, takeBreak_cons ends printable, behind, onward, bind, Except.bind, Input.ensure,
    Bool.false_and, Bool.false_eq_true, if_false]

/-- What follows the block has no margin. -/
theorem no_margin_of_stops (stops : Stops (fun c => endsWord (some c)) rest) :
    min (rest.takeWhile (· == ' ')).length 2 = 0 ∧
      Stops (fun c => isBreak c || c == '\t') (rest.drop 0) := by
  cases rest with
  | nil => exact ⟨rfl, stops_nil _⟩
  | cons c rest =>
      have inside := stops_cons.mp stops
      simp only [endsWord, isSpaceOrTab, Bool.or_eq_false_iff] at inside
      rw [List.takeWhile_cons_of_neg (by simp [inside.1.1])]
      exact ⟨rfl, stops_cons.mpr (by simp [inside])⟩

/-- Behind the last line come the line breaks at the end of the text, and with them the block ends. -/
theorem readBlockBreaks_last (began : Mark) (fuel : Nat) (stop : Mark)
    (ends : ∀ c ∈ g, isBreak c = true ∧ isPrintable c = true)
    (stops : Stops (fun c => endsWord (some c)) rest) (start : m.column = 0) (enough : g.length < fuel) :
    ∃ gap, readBlockBreaks began 2 fuel 0 stop ⟨g ++ rest, m, none⟩ = .ok gap ∧
      (∀ fuel lead blank, readBlockLines began false 2 fuel lead blank gap =
        .ok ⟨[], lead, g, gap.stop, gap.after⟩) ∧
      ∃ m', gap.after = ⟨rest, m', none⟩ ∧ m'.column = 0 := by
  obtain ⟨narrow, word⟩ := no_margin_of_stops stops
  obtain ⟨gap, read, same, m', after, column⟩ :=
    readBlockBreaks_written began fuel 0 stop ends narrow word start enough
  have out : gap.after.mark.column ≠ 2 := by
    rw [after, column]
    decide
  refine ⟨gap, read, fun fuel lead blank => ?_, m', after, column⟩
  rw [readBlockLines_end began fuel lead blank out, same]

/-- Before a further line come the line breaks that the text has there, and the margin. -/
theorem readBlockBreaks_more (began : Mark) (fuel : Nat) (stop : Mark)
    (ends : ∀ c ∈ g, isBreak c = true ∧ isPrintable c = true) (nonempty : s ≠ [])
    (begins : Stops isBreak s) (visible : IsVisible s) (rest : List Char) (start : m.column = 0)
    (enough : g.length < fuel) :
    ∃ gap, readBlockBreaks began 2 fuel 0 stop ⟨g ++ (literalRest true s ++ rest), m, none⟩ = .ok gap ∧
      gap.breaks = g ∧ ∃ m', gap.after = ⟨literalRest false s ++ rest, m', none⟩ ∧ m'.column = 2 := by
  rw [literalRest_line nonempty begins, List.append_assoc]
  exact readBlockBreaks_written (t := margin ++ _) (n := 2) began fuel 0 stop ends (by simp [margin])
    (stops_literalRest nonempty begins visible rest) start enough

/-- **The lines of a block read back**, up to the line breaks at its end, of which the chomping mark keeps
what the text has. -/
theorem readBlockLines_written (began : Mark) (fuel : Nat) (lead : List Char) (pieces : Pieces isBreak s)
    (nonempty : s ≠ []) (begins : Stops isBreak s) (visible : IsVisible s)
    (after : gap.after = ⟨literalRest false s ++ rest, m, none⟩) (column : m.column = 2)
    (stops : Stops (fun c => endsWord (some c)) rest) (enough : s.length < fuel) :
    ∃ lines, (∀ blank, readBlockLines began false 2 fuel lead blank gap = .ok lines) ∧
      lines.text ++ (chompingFor s).kept lines.lastBreak lines.breaks = lead ++ gap.breaks ++ s ∧
      ∃ m', lines.after = ⟨rest, m', none⟩ ∧ m'.column = 0 := by
  obtain ⟨fuel, rfl⟩ := Nat.exists_eq_add_one.mpr (Nat.zero_lt_of_lt enough)
  induction pieces generalizing gap lead m fuel with
  | @word w word =>
      rw [literalRest_last word, List.append_assoc] at after
      obtain ⟨gap', read, done, m', after', column'⟩ := readBlockBreaks_last began (fuel + 1)
        ((m.over w.length).nextLine 1) (g := []) (m := (m.over w.length).nextLine 1) nofun stops rfl
        (Nat.succ_pos _)
      refine ⟨_, fun blank => readBlockLines_line word nonempty rfl (by decide) after column read
        (done fuel ['\n']), ?_, m', after', column'⟩
      rw [kept_word word nonempty]
      simp only [List.append_nil]
  | @gap w g s word wide breaks behind more ih =>
      have filled : w ≠ [] := by
        rintro rfl
        obtain ⟨b, g, rfl⟩ := List.exists_cons_of_ne_nil wide
        exact nomatch (stops_cons.mp begins).symm.trans (breaks b List.mem_cons_self)
      obtain ⟨-, inText⟩ := List.forall_mem_append.mp visible
      obtain ⟨inGap, inMore⟩ := List.forall_mem_append.mp inText
      obtain ⟨b, g, rfl⟩ := List.exists_cons_of_ne_nil wide
      obtain ⟨first, later⟩ := List.forall_mem_cons.mp breaks
      obtain ⟨visible', inGap⟩ := List.forall_mem_cons.mp inGap
      have ends : ∀ c ∈ g, isBreak c = true ∧ isPrintable c = true := fun c hc => ⟨later c hc, inGap c hc⟩
      have split : literalRest false (w ++ (b :: g ++ s)) ++ rest =
          w ++ b :: (g ++ (literalRest true s ++ rest)) := by
        rw [literalRest_word word, List.cons_append, literalRest, if_pos first, literalRest_breaks later]
        simp only [List.append_assoc, List.cons_append]
      rw [split] at after
      simp only [List.length_append, List.length_cons] at enough
      by_cases last : s = []
      · subst last
        obtain ⟨gap', read, done, m', after', column'⟩ := readBlockBreaks_last began (fuel + 1)
          ((m.over w.length).nextLine 1) (m := (m.over w.length).nextLine 1) ends stops rfl (by omega)
        refine ⟨_, fun blank => readBlockLines_line word filled first visible' after column read
          (done fuel [b]), ?_, m', after', column'⟩
        simp only [List.append_nil, kept_breaks word filled breaks, List.append_assoc]
      · obtain ⟨gap', read, breaks', m', after', column'⟩ := readBlockBreaks_more began (fuel + 1)
          ((m.over w.length).nextLine 1) (m := (m.over w.length).nextLine 1) ends last behind
          inMore rest rfl (by omega)
        obtain ⟨fuel, rfl⟩ := Nat.exists_eq_add_one.mpr (show 0 < fuel by omega)
        obtain ⟨lines, onward, text, m'', after'', column''⟩ :=
          ih [b] last behind inMore after' column' fuel (by omega)
        refine ⟨_, fun blank => readBlockLines_line word filled first visible' after column read onward, ?_,
          m'', after'', column''⟩
        rw [← List.append_assoc w, chompingFor_append last behind, List.append_assoc, text, breaks']
        simp only [List.append_assoc, List.cons_append, List.nil_append]

end Lines

/-! ### The whole block -/

/-- The indentation that a block asks for, zero where its first line shows it. -/
def indentationFor (s : List Char) : Nat := if s.head?.any isEdge then 2 else 0

theorem indentationFor_cases (s : List Char) : indentationFor s = 0 ∨ indentationFor s = 2 := by
  rw [indentationFor]
  split
  · exact .inr rfl
  · exact .inl rfl

/-- **The marks of a block read back.** -/
theorem readIndicators_written (began : Mark) (s : List Char) :
    ∃ m', readIndicators began ⟨indentationMark s ++ chompingMark s ++ '\n' :: t, m, none⟩ =
      .ok (indentationFor s, chompingFor s, ⟨'\n' :: t, m', none⟩) := by
  have mark := chompingMark_cases s
  rw [indentationMark, indentationFor, chompingFor]
  cases s.head?.any isEdge with
  | true => obtain same | same | same := mark <;> rw [same] <;> exact ⟨_, rfl⟩
  | false => obtain same | same | same := mark <;> rw [same] <;> exact ⟨_, rfl⟩

/-- A first line that is not blank shows the margin. -/
theorem readBlockBreaks_first (began : Mark) (fuel : Nat) (stop : Mark) (first : Stops isEdge s)
    (nonempty : s ≠ []) (visible : IsVisible s) (start : m.column = 0) :
    ∃ gap, readBlockBreaks began 0 (fuel + 1) 0 stop ⟨literalRest true s ++ rest, m, none⟩ = .ok gap ∧
      gap.widest = 2 ∧ gap.breaks = [] ∧
      ∃ m', gap.after = ⟨literalRest false s ++ rest, m', none⟩ ∧ m'.column = 2 := by
  have begins : Stops isBreak s := fun c head => (Bool.or_eq_false_iff.mp (first c head)).2
  have inside := stops_literalRest nonempty begins visible rest
  have space : Stops (· == ' ') (literalRest false s ++ rest) := by
    obtain ⟨c, s, rfl⟩ := List.exists_cons_of_ne_nil nonempty
    rw [literalRest, stops_cons.mp begins]
    exact stops_cons.mpr (Bool.or_eq_false_iff.mp (stops_cons.mp first)).1
  rw [literalRest_line nonempty begins, List.append_assoc]
  generalize literalRest false s ++ rest = t at inside space
  refine ⟨_, readBlockBreaks_line (n := 2) ?_ inside, ?_, rfl, _, rfl, ?_⟩
  · rw [if_pos rfl, takeWhile_append_of_stops (List.all_eq_true.mp rfl) space]
    rfl
  · simp [Mark.over, start]
  · rw [Mark.over, start]

/-- The lines of a block read back from its start, the indentation being asked for or shown. -/
theorem readBlockLines_all (began stop : Mark) (nonempty : s ≠ []) (visible : IsVisible s)
    (start : m.column = 0) (stops : Stops (fun c => endsWord (some c)) rest) (enough : s.length < fuel) :
    ∃ gap lines,
      readBlockBreaks began (indentationFor s) fuel 0 stop ⟨literalRest true s ++ rest, m, none⟩ = .ok gap ∧
      (indentationFor s = 0 → gap.widest = 2) ∧
      readBlockLines began false 2 fuel [] false gap = .ok lines ∧
      lines.text ++ (chompingFor s).kept lines.lastBreak lines.breaks = s ∧
      ∃ m', lines.after = ⟨rest, m', none⟩ ∧ m'.column = 0 := by
  rw [indentationFor]
  cases edge : s.head?.any isEdge with
  | false =>
      have first : Stops isEdge s := fun c head => by
        rw [head] at edge
        exact edge
      have begins : Stops isBreak s := fun c head => (Bool.or_eq_false_iff.mp (first c head)).2
      obtain ⟨fuel, rfl⟩ := Nat.exists_eq_add_one.mpr (Nat.zero_lt_of_lt enough)
      obtain ⟨gap, read, wide, none, m', after, column⟩ := readBlockBreaks_first began fuel stop
        first nonempty visible start
      obtain ⟨lines, onward, text, left⟩ := readBlockLines_written began _ []
        (pieces _ s) nonempty begins visible after column stops enough
      rw [none] at text
      exact ⟨gap, lines, read, fun _ => wide, onward false, text, left⟩
  | true =>
      -- The block begins with the line breaks of the text.
      obtain ⟨g, t, rfl, breaks, begins⟩ : ∃ g t, s = g ++ t ∧ (∀ c ∈ g, isBreak c = true) ∧
          Stops isBreak t :=
        ⟨_, _, List.takeWhile_append_dropWhile.symm, fun c hc => List.mem_takeWhile_imp hc,
          stops_dropWhile isBreak s⟩
      obtain ⟨inBreaks, inMore⟩ := List.forall_mem_append.mp visible
      have ends : ∀ c ∈ g, isBreak c = true ∧ isPrintable c = true := fun c hc => ⟨breaks c hc, inBreaks c hc⟩
      rw [List.length_append] at enough
      rw [literalRest_breaks breaks, List.append_assoc]
      by_cases last : t = []
      · subst last
        rw [List.append_nil] at nonempty
        obtain ⟨gap, read, done, m', after, column⟩ :=
          readBlockBreaks_last began fuel stop ends stops start (by omega)
        refine ⟨gap, _, read, nofun, done fuel [] false, ?_, m', after, column⟩
        have kept := chompingMark_breaks (w := []) breaks (.inr ⟨nonempty, rfl⟩)
        rw [List.append_nil, chompingFor, ← List.nil_append g, kept]
        rfl
      · obtain ⟨gap, read, same, m', after, column⟩ :=
          readBlockBreaks_more began fuel stop ends last begins inMore rest start (by omega)
        obtain ⟨lines, onward, text, left⟩ := readBlockLines_written began fuel []
          (pieces _ t) last begins inMore after column stops (by omega)
        rw [chompingFor_append last begins]
        rw [same] at text
        exact ⟨gap, lines, read, nofun, onward false, text, left⟩

theorem isVisible_of_fitsLiteral (fits : fitsLiteral s = true) : IsVisible s := by
  simp only [fitsLiteral, Bool.and_eq_true, Bool.not_eq_true'] at fits
  exact (isVisible_of_isSpecial fits.1.2).1

/-- The parts of a block in a record: its marks, its first line and its lines. -/
theorem readBlock_of {i : Input} {increment asked : Nat} {chomping : Chomping} {gap : BlockBreaks}
    {lines : BlockLines}
    (marks : readIndicators i.mark i.skip = .ok (increment, chomping, ⟨'\n' :: t, m, none⟩))
    (asks : (if increment = 0 then 0 else (max 0 0 + (increment : Int)).toNat) = asked)
    (first : readBlockBreaks i.mark asked (i.rest.length + 1) 0 (m.nextLine 1) ⟨t, m.nextLine 1, none⟩ =
      .ok gap)
    (read : readBlockLines i.mark false (if asked = 0 then max (max gap.widest 1) 1 else asked)
      (i.rest.length + 1) [] false gap = .ok lines) :
    readBlock false 0 i =
      .ok (lines.text ++ chomping.kept lines.lastBreak lines.breaks, lines.stop, lines.after) := by
  have behind : (Input.mk ('\n' :: t) m none).skipBlanks.skipComment = ⟨'\n' :: t, m, none⟩ := rfl
  have ends : endsLine (Input.mk ('\n' :: t) m none).peek = true := rfl
  have next : (Input.mk ('\n' :: t) m none).skipBreak = ⟨t, m.nextLine 1, none⟩ := rfl
  rw [readBlock]
  simp only [marks, bind, Except.bind, behind, ends, next, asks, Input.ensure, Bool.not_true,
    Bool.false_eq_true, if_false, first]
  have parent : ((0 : Int) + 1).toNat = 1 := rfl
  simp only [parent, read]
  cases chomping <;> rfl

/-- **A text of several lines reads back as it is** from a literal block, up to the next line that begins
further to the left. -/
theorem readBlock_written (fits : fitsLiteral s = true) (m : Mark)
    (stops : Stops (fun c => endsWord (some c)) rest) :
    ∃ stop m', readBlock false 0 ⟨'|' :: (indentationMark s ++ chompingMark s ++
      '\n' :: (literalRest true s ++ rest)), m, none⟩ = .ok (s, stop, ⟨rest, m', none⟩) ∧ m'.column = 0 := by
  have visible := isVisible_of_fitsLiteral fits
  have nonempty : s ≠ [] := by
    rintro rfl
    exact nomatch fits
  obtain ⟨m₁, marks⟩ := readIndicators_written (m := m.next) (t := literalRest true s ++ rest) m s
  have enough : s.length < ('|' :: (indentationMark s ++ chompingMark s ++
      '\n' :: (literalRest true s ++ rest))).length + 1 := by
    have := length_le_literalRest true s
    simp only [List.length_cons, List.length_append]
    omega
  obtain ⟨gap, lines, first, wide, read, text, m', after, column⟩ := readBlockLines_all m
    (m₁.nextLine 1) (m := m₁.nextLine 1) nonempty visible rfl stops enough
  have asked : (if indentationFor s = 0 then 0 else (max 0 0 + (indentationFor s : Int)).toNat) =
      indentationFor s := by
    obtain none | two := indentationFor_cases s
    · rw [none]
      rfl
    · rw [two]
      rfl
  have indent : (if indentationFor s = 0 then max (max gap.widest 1) 1 else indentationFor s) = 2 := by
    obtain none | two := indentationFor_cases s
    · rw [wide none, if_pos none]
      rfl
    · rw [two]
      rfl
  have block := readBlock_of (i := ⟨'|' :: (indentationMark s ++ chompingMark s ++
    '\n' :: (literalRest true s ++ rest)), m, none⟩) marks asked first (by rw [indent]; exact read)
  rw [text, after] at block
  exact ⟨lines.stop, m', block, column⟩

end ProjectIndex.Yaml
