import ProjectIndex.Yaml.Written
import Mathlib.Data.List.TakeWhile

/-!
# Moving over written texts

What the writer puts into a document is read back by moving over it piece by piece.  The lemmas here say
what the moves of an `Input` do when it is known what is ahead: a text, and behind it what the move
stops at.  Written texts hold no character that a document may not hold
(`Source.ofText_of_allowed`), so no input has a fault, and inputs are given in full: what is ahead,
and the mark.

Where a text is read word by word, `Pieces` is what the reading follows: words, and the blanks
between them.
-/

namespace ProjectIndex.Yaml

open Written

/-! ### Marks -/

/-- The mark after some more characters of the same line. -/
def Mark.over (m : Mark) (n : Nat) : Mark := ⟨m.index + n, m.line, m.column + n⟩

@[simp] theorem Mark.over_over (m : Mark) (a b : Nat) : (m.over a).over b = m.over (a + b) := by
  simp only [Mark.over, Nat.add_assoc]

theorem Mark.next_eq (m : Mark) : m.next = m.over 1 := rfl

/-- The mark after some line breaks of one character each. -/
def Mark.below (m : Mark) (n : Nat) : Mark :=
  match n with
  | 0 => m
  | n + 1 => (m.nextLine 1).below n

/-! ### Moves -/

section Moves

variable {a rest : List Char} {m : Mark} {fault : Option Fault} {p : Char → Bool}

theorem skipMany_eq (n : Nat) (rest : List Char) (m : Mark) (fault : Option Fault) :
    (Input.mk rest m fault).skipMany n = ⟨rest.drop n, m.over n, fault⟩ := by
  induction n generalizing rest m with
  | zero => rfl
  | succ n ih =>
      have onward := ih (rest.drop 1) m.next
      rw [List.drop_drop, Mark.next_eq, Mark.over_over, Nat.add_comm] at onward
      exact onward

theorem skipMany_append (a rest : List Char) (m : Mark) (fault : Option Fault) :
    (Input.mk (a ++ rest) m fault).skipMany a.length = ⟨rest, m.over a.length, fault⟩ := by
  rw [skipMany_eq, List.drop_left]

/-- What is ahead stops a move over the characters of a class. -/
def Stops (p : Char → Bool) (rest : List Char) : Prop := ∀ c, rest.head? = some c → p c = false

theorem stops_nil (p : Char → Bool) : Stops p [] := nofun

theorem stops_cons {c : Char} : Stops p (c :: rest) ↔ p c = false := by
  simp [Stops]

theorem takeWhile_append_of_stops (all : ∀ c ∈ a, p c = true) (stops : Stops p rest) :
    (a ++ rest).takeWhile p = a := by
  rw [List.takeWhile_append_of_pos all]
  cases rest with
  | nil => rw [List.takeWhile_nil, List.append_nil]
  | cons c rest => rw [List.takeWhile_cons_of_neg (by simp [stops_cons.mp stops]), List.append_nil]

theorem span_append (all : ∀ c ∈ a, p c = true) (stops : Stops p rest) :
    (Input.mk (a ++ rest) m fault).span p = (a, ⟨rest, m.over a.length, fault⟩) := by
  have dropped : (a ++ rest).dropWhile p = rest := by
    rw [List.dropWhile_append_of_pos all]
    cases rest with
    | nil => rfl
    | cons c rest => rw [List.dropWhile_cons_of_neg (by simp [stops_cons.mp stops])]
  rw [Input.span, takeWhile_append_of_stops all stops, dropped]
  rfl

/-! ### Classes of characters -/

/-- A character of a class is none that is outside of it. -/
theorem beq_eq_false_of_class {c d : Char} (inside : p c = true) (outside : p d = false) :
    (c == d) = false := by
  rw [beq_eq_false_iff_ne]
  rintro rfl
  exact nomatch inside.symm.trans outside

/-- A list without characters of a class does not contain a character of it. -/
theorem contains_eq_false_of_class {c : Char} (inside : p c = true) (outside : a.all (!p ·) = true) :
    a.contains c = false := by
  by_contra found
  have member := List.contains_iff_mem.mp (Bool.not_eq_false _ |>.mp found)
  have none := List.all_eq_true.mp outside c member
  rw [inside] at none
  exact nomatch none

/-- A written line break is one character, and stands for itself. -/
theorem takeBreak_cons {c : Char} (ends : isBreak c = true) (printable : isPrintable c = true) :
    (Input.mk (c :: rest) m fault).takeBreak = ([c], ⟨rest, m.nextLine 1, fault⟩) := by
  have carriage : c ≠ '\r' := beq_eq_false_iff_ne.mp (beq_eq_false_of_class printable (by decide))
  have next : (c == Char.ofNat 0x85) = false := beq_eq_false_of_class printable (by decide)
  rw [Input.takeBreak]
  split
  · next same => exact absurd (List.cons.inj same).1 carriage
  · next d cs _ same =>
      obtain ⟨rfl, rfl⟩ := List.cons.inj same
      rw [if_pos ends, beq_eq_false_iff_ne.mpr carriage, next]
      rfl
  · next same => exact nomatch same

end Moves

/-! ### The characters of written texts -/

theorem isAllowed_of_isPrintable {c : Char} (printable : isPrintable c = true) : isAllowed c = true := by
  simp only [isPrintable, isAllowed, Bool.or_eq_true, Bool.and_eq_true, beq_iff_eq, decide_eq_true_eq,
    bne_iff_ne] at printable ⊢
  omega

/-- Every character of the text is written as it is. -/
def IsVisible (s : List Char) : Prop := ∀ c ∈ s, isPrintable c = true

instance (s : List Char) : Decidable (IsVisible s) := List.decidableBAll ..

theorem IsVisible.nil : IsVisible [] := nofun

theorem IsVisible.append {s t : List Char} (hs : IsVisible s) (ht : IsVisible t) : IsVisible (s ++ t) :=
  List.forall_mem_append.mpr ⟨hs, ht⟩

theorem IsVisible.cons {c : Char} {s : List Char} (hc : isPrintable c = true) (hs : IsVisible s) :
    IsVisible (c :: s) :=
  List.forall_mem_cons.mpr ⟨hc, hs⟩

/-- Where no character is special, a text is visible, and no space stands before a line break. -/
theorem isVisible_of_isSpecial {s : List Char} (h : isSpecial s = false) :
    IsVisible s ∧ adjacent isSpace isBreak s = false := by
  obtain ⟨printable, edges⟩ := Bool.or_eq_false_iff.mp h
  exact ⟨fun c hc => by simpa using List.any_eq_false.mp printable c hc, edges⟩

/-- The blanks of a printable text are spaces and line breaks. -/
theorem endsWord_of_isPrintable {c : Char} (printable : isPrintable c = true) :
    endsWord (some c) = (c == ' ' || isBreak c) := by
  have tab : (c == '\t') = false := by
    rw [beq_eq_false_iff_ne]
    rintro rfl
    exact absurd printable (by decide)
  rw [endsWord, isSpaceOrTab, tab, Bool.or_false]

theorem Source.collect_of_allowed {text : List Char} (allowed : ∀ c ∈ text, isAllowed c = true)
    (before current : List Char) (began offset : Nat) :
    collect before current began offset text = ⟨(current ++ before).reverse ++ text, none⟩ := by
  induction text generalizing before current began offset with
  | nil => rw [collect, List.append_nil]
  | cons c text ih =>
      obtain ⟨first, allowed⟩ := List.forall_mem_cons.mp allowed
      rw [collect]
      simp only [first, if_true, ih allowed]
      -- A character that begins a portion leaves the one before it finished.
      split <;> simp

/-- **A text of characters that a document may hold is read without a fault.** -/
theorem Source.ofText_of_allowed {text : List Char} (allowed : ∀ c ∈ text, isAllowed c = true) :
    ofText text = ⟨text, none⟩ :=
  collect_of_allowed allowed [] [] 0 0

/-! ### Words and blanks -/

/-- A text as words and the blanks between them; the first and the last word may be empty. -/
inductive Pieces (blank : Char → Bool) : List Char → Prop
  | word {w : List Char} (word : ∀ c ∈ w, blank c = false) : Pieces blank w
  | gap {w g s : List Char} (word : ∀ c ∈ w, blank c = false) (nonempty : g ≠ [])
    (gap : ∀ c ∈ g, blank c = true) (behind : Stops blank s) (more : Pieces blank s) :
    Pieces blank (w ++ (g ++ s))

theorem stops_dropWhile (p : Char → Bool) (s : List Char) : Stops p (s.dropWhile p) := by
  intro c head
  have := List.head?_dropWhile_not p s
  rw [head] at this
  simpa using this

theorem pieces (blank : Char → Bool) (s : List Char) : Pieces blank s := by
  induction length : s.length using Nat.strongRecOn generalizing s with
  | ind n ih =>
      have split : s = s.takeWhile (!blank ·) ++ s.dropWhile (!blank ·) := List.takeWhile_append_dropWhile.symm
      have word : ∀ c ∈ s.takeWhile (!blank ·), blank c = false := fun c hc => by
        simpa using List.mem_takeWhile_imp hc
      have begins := stops_dropWhile (!blank ·) s
      generalize s.takeWhile (!blank ·) = w at split word
      generalize s.dropWhile (!blank ·) = r at split begins
      subst split
      cases r with
      | nil =>
          rw [List.append_nil]
          exact .word word
      | cons c r =>
          have first : blank c = true := by simpa using stops_cons.mp begins
          have again : c :: r = (c :: r).takeWhile blank ++ (c :: r).dropWhile blank :=
            List.takeWhile_append_dropWhile.symm
          rw [List.takeWhile_cons_of_pos first, List.dropWhile_cons_of_pos first] at again
          rw [again]
          refine .gap word (List.cons_ne_nil _ _) ?_ (stops_dropWhile blank r) (ih _ ?_ _ rfl)
          · exact List.forall_mem_cons.mpr ⟨first, fun d hd => List.mem_takeWhile_imp hd⟩
          · have shorter := (List.dropWhile_sublist blank (l := r)).length_le
            rw [← length, List.length_append, List.length_cons]
            omega

/-! ### Gaps -/

namespace Gap

variable {began m : Mark} {indent : Option Nat} {fuel : Nat} {g : Gap} {rest : List Char}

/-- White space ends before a character of a word, and before the end. -/
theorem read_of_stops (stops : Stops (fun c => endsWord (some c)) rest) :
    read began indent fuel g ⟨rest, m, none⟩ = .ok (g, ⟨rest, m, none⟩) := by
  cases fuel with
  | zero => rfl
  | succ fuel =>
      rw [read]
      cases rest with
      | nil => rfl
      | cons c rest =>
          obtain ⟨blank, ends⟩ := Bool.or_eq_false_iff.mp (stops_cons.mp stops)
          simp only [Input.peek, List.head?_cons, blank, ends, Bool.false_eq_true, if_false]
          rfl

/-- Spaces in a line are kept. -/
theorem read_spaces (began : Mark) (indent : Option Nat) (fuel : Nat) {spaces : List Char}
    (all : ∀ c ∈ spaces, c = ' ') (enough : spaces.length ≤ fuel)
    (stops : Stops (fun c => endsWord (some c)) rest) (blanks : List Char) :
    read began indent fuel ⟨blanks, [], [], false⟩ ⟨spaces ++ rest, m, none⟩ =
      .ok (⟨blanks ++ spaces, [], [], false⟩, ⟨rest, m.over spaces.length, none⟩) := by
  induction spaces generalizing fuel blanks m with
  | nil =>
      rw [List.append_nil]
      exact read_of_stops stops
  | cons c spaces ih =>
      obtain ⟨rfl, later⟩ := List.forall_mem_cons.mp all
      obtain ⟨fuel, rfl⟩ := Nat.exists_eq_add_one.mpr (Nat.lt_of_lt_of_le (Nat.zero_lt_succ _) enough)
      have onward := ih fuel later (Nat.le_of_succ_le_succ enough) (m := m.next) (blanks ++ [' '])
      rw [Mark.next_eq, Mark.over_over, Nat.add_comm, List.append_assoc] at onward
      exact onward

/-- The margin of a new line counts for nothing. -/
theorem read_margin {spaces : List Char} (all : ∀ c ∈ spaces, c = ' ') (enough : spaces.length ≤ fuel)
    (stops : Stops (fun c => endsWord (some c)) rest) (broken : g.breaks = true) :
    read began indent fuel g ⟨spaces ++ rest, m, none⟩ =
      .ok (g, ⟨rest, m.over spaces.length, none⟩) := by
  induction spaces generalizing fuel m with
  | nil => exact read_of_stops stops
  | cons c spaces ih =>
      obtain ⟨rfl, later⟩ := List.forall_mem_cons.mp all
      obtain ⟨fuel, rfl⟩ := Nat.exists_eq_add_one.mpr (Nat.lt_of_lt_of_le (Nat.zero_lt_succ _) enough)
      have onward := ih later (Nat.le_of_succ_le_succ enough) (m := m.next)
      rw [Mark.next_eq, Mark.over_over, Nat.add_comm] at onward
      rw [read]
      simp only [Input.peek, List.cons_append, List.head?_cons, broken]
      exact onward

/-- A line break begins the gap, or adds to it. -/
theorem read_break {c : Char} (ends : isBreak c = true) (printable : isPrintable c = true) :
    read began indent (fuel + 1) g ⟨c :: rest, m, none⟩ =
      read began indent fuel
        (if g.breaks then { g with laterBreaks := g.laterBreaks ++ [c] } else ⟨[], [c], [], true⟩)
        ⟨rest, m.nextLine 1, none⟩ := by
  have space : isSpaceOrTab c = false := by
    rw [isSpaceOrTab, Bool.or_eq_false_iff, beq_eq_false_iff_ne, beq_eq_false_iff_ne]
    constructor <;> rintro rfl <;> exact absurd ends (by decide)
  rw [read]
  simp only [Input.peek, List.head?_cons, space, ends, Bool.false_eq_true, if_false, if_true,
    takeBreak_cons ends printable]
  rfl

/-- The breaks after the first one are kept, and the margin behind them counts for nothing. -/
theorem read_laterBreaks {breaks spaces : List Char}
    (ends : ∀ c ∈ breaks, isBreak c = true ∧ isPrintable c = true) (all : ∀ c ∈ spaces, c = ' ')
    (enough : breaks.length + spaces.length ≤ fuel) (stops : Stops (fun c => endsWord (some c)) rest)
    (broken : g.breaks = true) :
    read began indent fuel g ⟨breaks ++ (spaces ++ rest), m, none⟩ =
      .ok ({ g with laterBreaks := g.laterBreaks ++ breaks },
        ⟨rest, (m.below breaks.length).over spaces.length, none⟩) := by
  induction breaks generalizing fuel g m with
  | nil =>
      rw [List.length_nil, Nat.zero_add] at enough
      rw [List.append_nil]
      exact read_margin all enough stops broken
  | cons c breaks ih =>
      obtain ⟨⟨isEnd, printable⟩, later⟩ := List.forall_mem_cons.mp ends
      rw [List.length_cons, Nat.add_right_comm] at enough
      obtain ⟨fuel, rfl⟩ := Nat.exists_eq_add_one.mpr (Nat.lt_of_lt_of_le (Nat.zero_lt_succ _) enough)
      have onward := ih (g := { g with laterBreaks := g.laterBreaks ++ [c] }) (m := m.nextLine 1) later
        (Nat.le_of_succ_le_succ enough) broken
      rw [List.append_assoc] at onward
      rw [List.cons_append, read_break isEnd printable, if_pos broken]
      exact onward

/-- **The white space around line breaks**: the first break, the others, and the margin behind them. -/
theorem read_lines (began : Mark) (indent : Option Nat) (fuel : Nat) {b : Char} (breaks spaces : List Char)
    (ends : ∀ c ∈ b :: breaks, isBreak c = true ∧ isPrintable c = true) (all : ∀ c ∈ spaces, c = ' ')
    (enough : breaks.length + spaces.length ≤ fuel) (stops : Stops (fun c => endsWord (some c)) rest) :
    read began indent (fuel + 1) empty ⟨b :: (breaks ++ (spaces ++ rest)), m, none⟩ =
      .ok (⟨[], [b], breaks, true⟩, ⟨rest, (m.below (breaks.length + 1)).over spaces.length, none⟩) := by
  obtain ⟨⟨isEnd, printable⟩, later⟩ := List.forall_mem_cons.mp ends
  rw [read_break isEnd printable]
  exact read_laterBreaks later all enough stops rfl

end Gap

end ProjectIndex.Yaml
