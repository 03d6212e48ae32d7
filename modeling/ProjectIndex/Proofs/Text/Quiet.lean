import ProjectIndex.Text.Blank
import ProjectIndex.Yaml.Source
import Mathlib.Data.List.Basic

/-!
# Quiet texts

Whether a text holds nothing but blanks and comments is asked twice, by `Text.isIdle` before a document
is read and by the reader of the document.  The two disagree about lines and about blanks.  For the
first one a line ends at a line feed, and all of Unicode's white space is blank; for the second one a
line ends at any of five characters, and only spaces and tabs are blank, any other white space being a
word.

A text is quiet if it holds nothing but white space and comments as the second one understands them.
`isQuiet` says so by an automaton with three states.  Idle texts are quiet as long as the two agree on
where comments begin and end: `isQuiet_of_isIdle`.  Texts without comments always are:
`isQuiet_of_blank`.
-/

namespace ProjectIndex.Yaml

open ProjectIndex.Text (isBlank isIdle isIdleLine lines)

/-! ### Classes of characters -/

theorem isBlank_of_isBreak {c : Char} (h : isBreak c = true) : isBlank c = true := by
  simp only [isBreak, Bool.or_eq_true, beq_iff_eq] at h
  rcases h with (((rfl | rfl) | rfl) | rfl) | rfl <;> decide

theorem isBlank_of_isSpaceOrTab {c : Char} (h : isSpaceOrTab c = true) : isBlank c = true := by
  simp only [isSpaceOrTab, Bool.or_eq_true, beq_iff_eq] at h
  rcases h with rfl | rfl <;> decide

/-! ### The automaton -/

/-- Where in a text a character stands. -/
inductive Stance
  /-- Where a number sign opens a comment. -/
  | margin
  /-- Directly behind a word of white space, to which a number sign would belong. -/
  | word
  /-- In a comment. -/
  | comment
  deriving DecidableEq, Repr

/-- The stance behind a character, if a quiet text may go on with it. -/
def Stance.after (s : Stance) (c : Char) : Option Stance :=
  if isBreak c then some margin
  else if s = comment then some comment
  else if isSpaceOrTab c then some margin
  else if isBlank c then some word
  else if s = margin ∧ c = '#' then some comment
  else none

/-- Whether a text goes on quietly from a stance. -/
def isQuiet : Stance → List Char → Bool
  | _, [] => true
  | s, c :: cs => match s.after c with
    | some t => isQuiet t cs
    | none => false

variable {s t : Stance} {c : Char} {cs ds : List Char}

@[simp] theorem isQuiet_nil (s : Stance) : isQuiet s [] = true := by
  cases s <;> rfl

theorem isQuiet_cons : isQuiet s (c :: cs) = true ↔ ∃ t, s.after c = some t ∧ isQuiet t cs = true := by
  rw [isQuiet]
  cases s.after c <;> simp

theorem isQuiet_cons_of (h : s.after c = some t) : isQuiet s (c :: cs) = isQuiet t cs := by
  rw [isQuiet, h]

theorem after_of_isBreak (s : Stance) (h : isBreak c = true) : s.after c = some .margin := by
  rw [Stance.after, if_pos h]

theorem after_comment (h : isBreak c = false) : Stance.comment.after c = some .comment := by
  rw [Stance.after, h, if_neg Bool.false_ne_true, if_pos rfl]

theorem after_of_isSpaceOrTab (hs : s ≠ .comment) (h : isSpaceOrTab c = true) :
    s.after c = some .margin := by
  rw [Stance.after, if_neg hs, h]
  split <;> rfl

/-- What ends a word leads to a margin. -/
theorem after_of_endsWord (hs : s ≠ .comment) (h : endsWord (some c) = true) :
    s.after c = some .margin := by
  rcases Bool.or_eq_true_iff.mp h with space | ends
  · exact after_of_isSpaceOrTab hs space
  · exact after_of_isBreak s ends

theorem after_of_isBlank (hs : s ≠ .comment) (ends : isBreak c = false) (space : isSpaceOrTab c = false)
    (h : isBlank c = true) : s.after c = some .word := by
  rw [Stance.after, if_neg hs, ends, space, h]
  rfl

/-- Outside of comments a quiet text goes on with white space, or opens a comment. -/
theorem isBlank_or_of_after (hs : s ≠ .comment) (h : s.after c = some t) :
    isBlank c = true ∨ s = .margin ∧ c = '#' ∧ t = .comment := by
  rw [Stance.after, if_neg hs] at h
  split at h
  · next ends => exact .inl (isBlank_of_isBreak ends)
  split at h
  · next space => exact .inl (isBlank_of_isSpaceOrTab space)
  split at h
  · next blank => exact .inl blank
  split at h
  · next sign => exact .inr ⟨sign.1, sign.2, (Option.some.inj h).symm⟩
  · exact nomatch h

/-- What begins a quiet text is quiet. -/
theorem isQuiet_of_append (h : isQuiet s (cs ++ ds) = true) : isQuiet s cs = true := by
  induction cs generalizing s with
  | nil => exact isQuiet_nil s
  | cons c cs ih =>
      obtain ⟨t, after, rest⟩ := isQuiet_cons.mp h
      exact isQuiet_cons.mpr ⟨t, after, ih rest⟩

/-- White space is quiet. -/
theorem isQuiet_of_blank (h : ∀ c ∈ cs, isBlank c = true) : isQuiet s cs = true := by
  induction cs generalizing s with
  | nil => exact isQuiet_nil s
  | cons c cs ih =>
      obtain ⟨blank, rest⟩ := List.forall_mem_cons.mp h
      refine isQuiet_cons.mpr ?_
      rw [Stance.after, if_pos blank]
      split
      · exact ⟨_, rfl, ih rest⟩
      split
      · exact ⟨_, rfl, ih rest⟩
      split <;> exact ⟨_, rfl, ih rest⟩

/-! ### Idle texts -/

/-- Both readings agree on where comments begin and end. -/
structure PlainComments (text : List Char) : Prop where
  /-- White space in front of a number sign is a space, a tab or the end of a line. -/
  sign : ∀ before c behind, text = before ++ c :: '#' :: behind → isBlank c = true →
    isSpaceOrTab c = true ∨ isBreak c = true
  /-- Behind a number sign the line ends at a line feed, alone or with a carriage return in front of
  it, or at a carriage return that ends the text. -/
  ends : ∀ before comment c behind, text = before ++ '#' :: (comment ++ c :: behind) →
    '\n' ∉ comment → isBreak c = true → c = '\n' ∨ c = '\r' ∧ ∀ d, behind.head? = some d → d = '\n'

/-- Both readings agree on comments where the only white space is spaces, tabs and line feeds. -/
theorem PlainComments.of_all {text : List Char}
    (h : text.all (fun c => !isBlank c || isSpaceOrTab c || c == '\n') = true) :
    PlainComments text := by
  have white : ∀ c ∈ text, isBlank c = true → isSpaceOrTab c = true ∨ c = '\n' := by
    intro c member blank
    simpa [blank] using List.all_eq_true.mp h c member
  constructor
  · intro before c behind whole blank
    exact (white c (by simp [whole]) blank).imp_right fun feed => by rw [feed]; rfl
  · intro before comment c behind whole _ ends
    obtain space | feed := white c (by simp [whole]) (isBlank_of_isBreak ends)
    · simp only [isSpaceOrTab, Bool.or_eq_true, beq_iff_eq] at space
      obtain rfl | rfl := space <;> exact nomatch ends
    · exact .inl feed

/-- Whether all lines but the first one are idle. -/
def isIdleBelow (text : List Char) : Bool := (lines text).tail.all isIdleLine

theorem lines_ne_nil (text : List Char) : lines text ≠ [] := by
  cases text with
  | nil => exact List.cons_ne_nil _ _
  | cons c cs =>
      rw [lines]
      split
      · exact List.cons_ne_nil _ _
      · split <;> exact List.cons_ne_nil _ _

theorem lines_cons (h : c ≠ '\n') : ∃ line rest, lines cs = line :: rest ∧
    lines (c :: cs) = (c :: line) :: rest := by
  obtain ⟨line, rest, split⟩ := List.exists_cons_of_ne_nil (lines_ne_nil cs)
  exact ⟨line, rest, split, by rw [lines, if_neg h, split]⟩

theorem isIdleBelow_cons (h : c ≠ '\n') : isIdleBelow (c :: cs) = isIdleBelow cs := by
  obtain ⟨line, rest, split, splitMore⟩ := @lines_cons c cs h
  rw [isIdleBelow, isIdleBelow, split, splitMore, List.tail_cons, List.tail_cons]

/-- An idle text goes on with white space, or with a comment up to the next line feed. -/
theorem isIdle_cons (h : c ≠ '\n') (idle : isIdle (c :: cs) = true) :
    isBlank c = true ∧ isIdle cs = true ∨ c = '#' ∧ isIdleBelow cs = true := by
  obtain ⟨line, rest, split, splitMore⟩ := @lines_cons c cs h
  rw [isIdle, splitMore, List.all_cons, Bool.and_eq_true] at idle
  obtain ⟨first, later⟩ := idle
  cases blank : isBlank c with
  | true =>
      refine .inl ⟨rfl, ?_⟩
      rw [isIdleLine, List.dropWhile_cons, if_pos blank] at first
      rw [isIdle, split, List.all_cons, later, Bool.and_true]
      exact first
  | false =>
      rw [isIdleLine, List.dropWhile_cons, if_neg (by rw [blank]; exact Bool.false_ne_true)] at first
      refine .inr ⟨beq_iff_eq.mp first, ?_⟩
      rw [isIdleBelow, split, List.tail_cons, later]

/-- The stance is possible behind a beginning of a text: a word ends in white space that is neither a
blank nor the end of a line, and a comment goes back to a number sign in the same line. -/
def Stance.Behind (before : List Char) : Stance → Prop
  | margin => True
  | word => ∃ front c, before = front ++ [c] ∧ isBlank c = true ∧ isSpaceOrTab c = false ∧
      isBreak c = false
  | comment => ∃ front inside, before = front ++ '#' :: inside ∧ '\n' ∉ inside

/-- **Idle texts are quiet if both readings agree on comments.** -/
theorem isQuiet_of_isIdle {text : List Char} (plain : PlainComments text) (idle : isIdle text = true) :
    isQuiet .margin text = true := by
  -- In a comment only the lines below count, elsewhere the line that is being read counts as well.
  suffices both : ∀ cs before s, text = before ++ cs → s.Behind before →
      (if s = .comment then isIdleBelow cs else isIdle cs) = true → isQuiet s cs = true from
    both text [] .margin rfl trivial idle
  intro cs
  induction cs with
  | nil => exact fun _ s _ _ _ => isQuiet_nil s
  | cons c cs ih =>
      intro before s whole behind idle
      have onward : text = (before ++ [c]) ++ cs := by simpa using whole
      by_cases lineFeed : c = '\n'
      · subst lineFeed
        refine isQuiet_cons.mpr ⟨.margin, after_of_isBreak s rfl, ih _ .margin onward trivial ?_⟩
        split at idle <;> exact idle
      by_cases inside : s = .comment
      · subst inside
        rw [if_pos rfl, isIdleBelow_cons lineFeed] at idle
        obtain ⟨front, comment, rfl, unbroken⟩ := behind
        cases ends : isBreak c with
        | false =>
            refine isQuiet_cons.mpr ⟨.comment, after_comment ends, ih _ .comment onward ?_ idle⟩
            exact ⟨front, comment ++ [c], by simp, by simp [unbroken, Ne.symm lineFeed]⟩
        | true =>
            refine isQuiet_cons.mpr ⟨.margin, after_of_isBreak _ ends, ih _ .margin onward trivial ?_⟩
            obtain rfl | ⟨rfl, feeds⟩ := plain.ends front comment c cs (by simpa using whole)
              unbroken ends
            · exact absurd rfl lineFeed
            · cases cs with
              | nil => rfl
              | cons d cs =>
                  obtain rfl := feeds d rfl
                  exact idle
      · rw [if_neg inside] at idle
        obtain ⟨blank, idle⟩ | ⟨rfl, below⟩ := isIdle_cons lineFeed idle
        · cases ends : isBreak c with
          | true =>
              exact isQuiet_cons.mpr
                ⟨.margin, after_of_isBreak s ends, ih _ .margin onward trivial idle⟩
          | false =>
              cases space : isSpaceOrTab c with
              | true =>
                  exact isQuiet_cons.mpr ⟨.margin, after_of_isSpaceOrTab inside space,
                    ih _ .margin onward trivial idle⟩
              | false =>
                  exact isQuiet_cons.mpr ⟨.word, after_of_isBlank inside ends space blank,
                    ih _ .word onward ⟨before, c, rfl, blank, space, ends⟩ idle⟩
        · cases s with
          | comment => exact absurd rfl inside
          | margin =>
              exact isQuiet_cons.mpr
                ⟨.comment, rfl, ih _ .comment onward ⟨before, [], rfl, nofun⟩ below⟩
          | word =>
              obtain ⟨front, c, rfl, blank, space, ends⟩ := behind
              obtain found | found := plain.sign front c cs (by simpa using whole) blank
              · rw [space] at found; exact nomatch found
              · rw [ends] at found; exact nomatch found

end ProjectIndex.Yaml
