import ProjectIndex.Proofs.Results
import ProjectIndex.Proofs.Text.Quiet
import ProjectIndex.Yaml.Token.Lexer

/-!
# The tokens of a quiet text

From a quiet text the lexer reads plain scalars and nothing else between the edges of the stream:
`tokens_quiet`.  Between two tokens it stands at a margin, outside of all collections (`Lexer.Calm`),
and whatever it does next keeps it there.  No reading of the text as such is needed for this: a comment
is passed over, white space that is a word begins a plain scalar, and no other character can come.
-/

namespace ProjectIndex.Yaml

open ProjectIndex.Text (isBlank)

variable {c : Char} {cs : List Char} {s : Stance} {i j : Input}

/-! ### Moving over a quiet text -/

/-- The input goes on quietly from a margin. -/
def Input.Quiet (i : Input) : Prop := isQuiet .margin i.rest = true

theorem isQuiet_dropWhile {p : Char → Bool} (spaces : ∀ c, p c = true → isSpaceOrTab c = true)
    (h : isQuiet .margin cs = true) : isQuiet .margin (cs.dropWhile p) = true := by
  induction cs with
  | nil => exact h
  | cons c cs ih =>
      rw [List.dropWhile_cons]
      split
      · next passed =>
          rw [isQuiet_cons_of (after_of_isSpaceOrTab (s := .margin) nofun (spaces c passed))] at h
          exact ih h
      · exact h

/-- A comment ends at a margin. -/
theorem isQuiet_dropWhile_comment (h : isQuiet .comment cs = true) :
    isQuiet .margin (cs.dropWhile fun c => !isBreak c) = true := by
  induction cs with
  | nil => rfl
  | cons c cs ih =>
      rw [List.dropWhile_cons]
      cases ends : isBreak c with
      | true =>
          rw [isQuiet_cons_of (after_of_isBreak _ ends)] at h
          rw [Bool.not_true, if_neg Bool.false_ne_true, isQuiet_cons_of (after_of_isBreak _ ends), h]
      | false =>
          rw [isQuiet_cons_of (after_comment ends)] at h
          rw [Bool.not_false, if_pos rfl, ih h]

/-- The character ahead of a quiet input is blank, or a number sign. -/
theorem Input.Quiet.head (h : i.Quiet) (ahead : i.rest = c :: cs) : isBlank c = true ∨ c = '#' := by
  rw [Quiet, ahead] at h
  obtain ⟨t, after, -⟩ := isQuiet_cons.mp h
  exact (isBlank_or_of_after (s := .margin) nofun after).imp_right fun sign => sign.2.1

theorem Input.Quiet.span {p : Char → Bool} (spaces : ∀ c, p c = true → isSpaceOrTab c = true)
    (h : i.Quiet) : (i.span p).2.Quiet := isQuiet_dropWhile spaces h

theorem Input.Quiet.skipComment (h : i.Quiet) : i.skipComment.Quiet := by
  rw [Input.skipComment]
  split
  · next sees =>
      obtain ⟨cs, ahead⟩ := List.head?_eq_some_iff.mp (beq_iff_eq.mp sees)
      rw [Quiet, ahead, isQuiet_cons_of (t := .comment) rfl] at h
      have passed : ('#' :: cs).dropWhile (fun c => !isBreak c) =
          cs.dropWhile fun c => !isBreak c := rfl
      rw [Quiet, Input.span, ahead, passed]
      exact isQuiet_dropWhile_comment h
  · exact h

theorem Input.Quiet.takeBreak (h : i.Quiet) : i.takeBreak.2.Quiet := by
  rw [Input.takeBreak]
  split
  · next cs ahead =>
      rw [Quiet, ahead, isQuiet_cons_of (t := .margin) rfl, isQuiet_cons_of (t := .margin) rfl] at h
      exact h
  · next c cs _ ahead =>
      split
      · next ends =>
          rw [Quiet, ahead, isQuiet_cons_of (after_of_isBreak _ ends)] at h
          exact h
      · exact h
  · exact h

theorem rest_skipMany (n : Nat) : ∀ i : Input, (i.skipMany n).rest = i.rest.drop n := by
  induction n with
  | zero => exact fun i => rfl
  | succ n ih =>
      intro i
      rw [Input.skipMany, ih, Input.skip, List.drop_drop, Nat.add_comm]

/-! ### Plain scalars -/

/-- The white space between words leads from margin to margin. -/
theorem Gap.read_quiet {began : Mark} {indent : Option Nat} (fuel : Nat) :
    ∀ {g g' : Gap} {i j : Input}, i.Quiet → Gap.read began indent fuel g i = .ok (g', j) → j.Quiet := by
  induction fuel with
  | zero =>
      intro g g' i j h read
      obtain ⟨-, rfl⟩ := Prod.mk.inj (Except.ok.inj read)
      exact h
  | succ fuel ih =>
      intro g g' i j h read
      obtain ⟨-, -, read⟩ := eq_ok_of_bind read
      split at read
      · obtain ⟨-, rfl⟩ := Prod.mk.inj (Except.ok.inj read)
        exact h
      next c ahead =>
      obtain ⟨cs, ahead⟩ := List.head?_eq_some_iff.mp ahead
      split at read
      · next space =>
          split at read
          · exact nomatch read
          · refine ih ?_ read
            rw [Input.Quiet, Input.skip, ahead]
            rw [Input.Quiet, ahead,
              isQuiet_cons_of (after_of_isSpaceOrTab (s := .margin) nofun space)] at h
            exact h
      split at read
      · obtain ⟨-, -, read⟩ := eq_ok_of_bind read
        exact ih h.takeBreak read
      · obtain ⟨-, rfl⟩ := Prod.mk.inj (Except.ok.inj read)
        exact h

theorem isStrayColon_false (cs : List Char) : isStrayColon false cs = false := by
  unfold isStrayColon
  split <;> rfl

/-- Outside of flow collections, white space that is a word belongs to the word around it. -/
theorem endsPlainWord_eq_endsWord (blank : isBlank c = true) :
    endsPlainWord false (c :: cs) = endsWord (some c) := by
  have colon : (c == ':') = false := by
    rw [beq_eq_false_iff_ne]
    rintro rfl
    exact absurd blank (by decide)
  rw [endsPlainWord, isStrayColon_false, colon]
  simp

/-- Outside of flow collections, a word of white space ends at a margin. -/
theorem isQuiet_behind_word (h : isQuiet .word cs = true) :
    isQuiet .margin (cs.drop (takeUntil (endsPlainWord false) cs).length) = true := by
  induction cs with
  | nil => rfl
  | cons c cs ih =>
      obtain ⟨t, after, rest⟩ := isQuiet_cons.mp h
      obtain blank | sign := isBlank_or_of_after (s := .word) nofun after
      · rw [takeUntil, endsPlainWord_eq_endsWord blank]
        cases ends : endsWord (some c) with
        | true =>
            rw [after_of_endsWord (s := .word) nofun ends] at after
            obtain rfl := Option.some.inj after
            rw [if_pos rfl, List.length_nil, List.drop_zero,
              isQuiet_cons_of (after_of_endsWord (s := .margin) nofun ends), rest]
        | false =>
            obtain ⟨space, breaks⟩ := Bool.or_eq_false_iff.mp ends
            rw [after_of_isBlank (s := .word) nofun breaks space blank] at after
            obtain rfl := Option.some.inj after
            rw [if_neg Bool.false_ne_true, List.length_cons, List.drop_succ_cons]
            exact ih rest
      · exact nomatch sign.1

/-- Where no comment begins, a margin is like the inside of a word. -/
theorem isQuiet_word (h : isQuiet .margin cs = true) (sign : cs.head? ≠ some '#') :
    isQuiet .word cs = true := by
  cases cs with
  | nil => rfl
  | cons c cs =>
      obtain ⟨t, after, rest⟩ := isQuiet_cons.mp h
      obtain blank | comment := isBlank_or_of_after (s := .margin) nofun after
      · refine isQuiet_cons.mpr ⟨t, ?_, rest⟩
        rw [← after, Stance.after, Stance.after, blank]
        rfl
      · exact absurd (congrArg some comment.2.1) sign

/-- **A plain scalar outside of flow collections leads from margin to margin.** -/
theorem readPlainRest_quiet {began : Mark} {indent : Nat} (fuel : Nat) :
    ∀ {gap : Gap} {stop : Mark} {i : Input} {p : PlainScalar}, i.Quiet →
      readPlainRest began false indent fuel gap stop i = .ok p → p.after.Quiet := by
  induction fuel with
  | zero =>
      intro gap stop i p h read
      obtain rfl := Except.ok.inj read
      exact h
  | succ fuel ih =>
      intro gap stop i p h read
      obtain ⟨-, -, read⟩ := eq_ok_of_bind read
      split at read
      · obtain rfl := Except.ok.inj read
        exact h
      next sign =>
      have unsigned : i.rest.head? ≠ some '#' := by
        intro sees
        rw [Input.sees, sees] at sign
        simp at sign
      have behind : (i.skipMany (takeUntil (endsPlainWord false) i.rest).length).Quiet := by
        rw [Input.Quiet, rest_skipMany]
        exact isQuiet_behind_word (isQuiet_word h unsigned)
      obtain ⟨-, -, read⟩ := eq_ok_of_bind read
      rw [if_neg (by rw [isStrayColon_false]; exact Bool.false_ne_true)] at read
      extract_lets said between place at read
      split at read
      · obtain ⟨⟨g, k⟩, gap, read⟩ := eq_ok_of_bind read
        have onward := Gap.read_quiet _ behind gap
        dsimp only at read
        split at read
        · obtain rfl := Except.ok.inj read
          exact onward
        · obtain ⟨more, rest, read⟩ := eq_ok_of_bind read
          obtain rfl := Except.ok.inj read
          have after : more.after.Quiet := ih onward rest
          exact after
      · obtain rfl := Except.ok.inj read
        exact behind

/-! ### The lexer -/

/-- The tokens that come from a quiet text: plain scalars, and the edges of the stream. -/
inductive TokenKind.Quiet : TokenKind → Prop
  | streamStart : Quiet .streamStart
  | streamEnd : Quiet .streamEnd
  | scalar (text : List Char) : Quiet (.scalar text .plain)

namespace Lexer

variable {l m : Lexer}

/-- The lexer stands at a margin outside of all collections, and has read quiet tokens only. -/
structure Calm (l : Lexer) : Prop where
  quiet : l.input.Quiet
  depth : l.depth = 0
  outer : l.outer = []
  read : ∀ t ∈ l.read, t.kind.Quiet

theorem Calm.inFlow (h : l.Calm) : l.inFlow = false := by
  rw [Lexer.inFlow, h.depth]
  rfl

theorem Calm.push (h : l.Calm) {kind : TokenKind} (quiet : kind.Quiet) (start stop : Mark) :
    (l.push kind start stop).Calm :=
  ⟨h.quiet, h.depth, h.outer, List.forall_mem_cons.mpr ⟨quiet, h.read⟩⟩

/-- Outside of all collections there is nothing to close. -/
theorem Calm.closeBlocks (h : l.Calm) (column : Int) : (l.closeBlocks column).Calm := by
  rw [Lexer.closeBlocks, h.inFlow, if_neg Bool.false_ne_true, h.outer, furtherIn]
  exact ⟨h.quiet, h.depth, rfl, h.read⟩

theorem Calm.dropKey (h : l.Calm) (dropped : l.dropKey = .ok m) : m.Calm := by
  rw [Lexer.dropKey] at dropped
  split at dropped
  · split at dropped
    · exact nomatch dropped
    · obtain rfl := Except.ok.inj dropped
      exact ⟨h.quiet, h.depth, h.outer, h.read⟩
  · obtain rfl := Except.ok.inj dropped
    exact h

theorem Calm.markKey (h : l.Calm) (marked : l.markKey = .ok m) : m.Calm := by
  rw [Lexer.markKey] at marked
  split at marked
  · obtain rfl := Except.ok.inj marked
    exact h
  · obtain ⟨k, dropped, marked⟩ := eq_ok_of_bind marked
    obtain rfl := Except.ok.inj marked
    have calm := h.dropKey dropped
    exact ⟨calm.quiet, calm.depth, calm.outer, calm.read⟩

theorem Calm.dropStaleKeys (h : l.Calm) (dropped : l.dropStaleKeys = .ok m) : m.Calm := by
  obtain ⟨keys, -, dropped⟩ := eq_ok_of_bind dropped
  obtain rfl := Except.ok.inj dropped
  exact ⟨h.quiet, h.depth, h.outer, h.read⟩

/-- Moving to the next token leads to a margin. -/
theorem Calm.skipToToken (fuel : Nat) :
    ∀ {l : Lexer}, l.Calm → l.skipToToken fuel = .ok m → m.Calm := by
  induction fuel with
  | zero =>
      intro l h skipped
      obtain rfl := Except.ok.inj skipped
      exact h
  | succ fuel ih =>
      intro l h skipped
      obtain ⟨-, -, skipped⟩ := eq_ok_of_bind skipped
      -- No byte order mark is white space, so there is none to pass over.
      have unmarked : ¬ (l.mark.column = 0 ∧ l.input.sees (Char.ofNat 0xFEFF) = true) := by
        rintro ⟨-, sees⟩
        obtain ⟨cs, ahead⟩ := List.head?_eq_some_iff.mp (beq_iff_eq.mp sees)
        exact absurd (h.quiet.head ahead) (by decide)
      rw [if_neg unmarked] at skipped
      obtain ⟨-, -, skipped⟩ := eq_ok_of_bind skipped
      extract_lets tabs passed at skipped
      obtain ⟨-, -, skipped⟩ := eq_ok_of_bind skipped
      obtain ⟨-, -, skipped⟩ := eq_ok_of_bind skipped
      have spaces : ∀ c, (c == ' ' || (tabs && c == '\t')) = true → isSpaceOrTab c = true := by
        intro c passes
        rw [Bool.or_eq_true, Bool.and_eq_true] at passes
        exact Bool.or_eq_true_iff.mpr (passes.imp_right And.right)
      have behind : passed.skipComment.Quiet := (h.quiet.span spaces).skipComment
      split at skipped
      · obtain ⟨-, -, skipped⟩ := eq_ok_of_bind skipped
        refine ih ?_ skipped
        exact ⟨behind.takeBreak, h.depth, h.outer, h.read⟩
      · obtain rfl := Except.ok.inj skipped
        exact ⟨behind, h.depth, h.outer, h.read⟩

/-- The token before all others. -/
theorem Calm.fetchStart (h : l.Calm) : l.fetchStart.Calm :=
  have pushed := h.push .streamStart l.mark l.mark
  ⟨pushed.quiet, pushed.depth, pushed.outer, pushed.read⟩

theorem Calm.fetchEnd (h : l.Calm) (fetched : l.fetchEnd = .ok m) : m.Calm := by
  obtain ⟨k, dropped, fetched⟩ := eq_ok_of_bind fetched
  obtain rfl := Except.ok.inj fetched
  have calm : k.Calm := by
    refine Calm.dropKey (Calm.closeBlocks ?_ (-1)) dropped
    exact ⟨h.quiet, h.depth, h.outer, h.read⟩
  have pushed := fun place => calm.push .streamEnd place place
  exact ⟨calm.quiet, calm.depth, calm.outer, (pushed _).read⟩

theorem Calm.fetchPlain (h : l.Calm) (fetched : l.fetchPlain = .ok m) : m.Calm := by
  obtain ⟨k, marked, fetched⟩ := eq_ok_of_bind fetched
  obtain ⟨s, read, fetched⟩ := eq_ok_of_bind fetched
  obtain rfl := Except.ok.inj fetched
  have calm := h.markKey marked
  rw [calm.inFlow] at read
  have pushed := calm.push (.scalar s.text) k.mark s.stop
  exact ⟨readPlainRest_quiet _ calm.quiet read, pushed.depth, pushed.outer, pushed.read⟩

/-- Of the characters that a quiet text can go on with none begins anything but a plain scalar. -/
theorem Calm.fetchHere_eq (h : l.Calm) (ahead : l.input.peek = some c) :
    l.fetchHere = if l.startsPlain then l.fetchPlain
      else .error (.within .nextToken l.mark .noTokenStart l.mark) := by
  obtain ⟨cs, rest⟩ := List.head?_eq_some_iff.mp ahead
  have other : ∀ d, (isBlank d || d == '#') = false → (c == d) = false := by
    intro d visible
    rw [beq_eq_false_iff_ne]
    rintro rfl
    have white := h.quiet.head rest
    rw [← beq_iff_eq (b := '#'), ← Bool.or_eq_true, visible] at white
    exact nomatch white
  have edge : ∀ d, (isBlank d || d == '#') = false → l.input.atIndicator d = false := by
    intro d visible
    have unlike : (some c == some d) = false := other d visible
    rw [Input.atIndicator, ahead, unlike]
    simp
  rw [fetchHere, ahead]
  simp only [other '%' rfl, other '[' rfl, other '{' rfl, other ']' rfl, other '}' rfl, other ',' rfl,
    other '-' rfl, other '?' rfl, other ':' rfl, other '*' rfl, other '&' rfl, other '!' rfl,
    other '|' rfl, other '>' rfl, other '\x27' rfl, other '"' rfl, edge '-' rfl, edge '.' rfl,
    Bool.false_and, Bool.false_eq_true, if_false]

theorem Calm.fetchHere (h : l.Calm) (fetched : l.fetchHere = .ok m) : m.Calm := by
  cases ahead : l.input.peek with
  | none =>
      rw [Lexer.fetchHere, ahead] at fetched
      exact h.fetchEnd fetched
  | some c =>
      rw [h.fetchHere_eq ahead] at fetched
      split at fetched
      · exact h.fetchPlain fetched
      · exact nomatch fetched

theorem Calm.fetch (h : l.Calm) (fetched : l.fetch = .ok m) : m.Calm := by
  obtain ⟨-, -, fetched⟩ := eq_ok_of_bind fetched
  split at fetched
  · obtain rfl := Except.ok.inj fetched
    exact h.fetchStart
  · obtain ⟨k, skipped, fetched⟩ := eq_ok_of_bind fetched
    obtain ⟨k', dropped, fetched⟩ := eq_ok_of_bind fetched
    obtain ⟨-, -, fetched⟩ := eq_ok_of_bind fetched
    exact (((h.skipToToken _ skipped).dropStaleKeys dropped).closeBlocks _).fetchHere fetched

/-- **From a quiet text the lexer reads quiet tokens.** -/
theorem Calm.run (fuel : Nat) : ∀ {l : Lexer}, l.Calm → ∀ t ∈ (l.run fuel).1, t.kind.Quiet := by
  induction fuel with
  | zero => exact fun h t member => h.read t (List.mem_reverse.mp member)
  | succ fuel ih =>
      intro l h
      rw [Lexer.run]
      split
      · exact fun t member => h.read t (List.mem_reverse.mp member)
      split
      · next next fetched =>
          obtain ⟨k, fetched, dropped⟩ := eq_ok_of_bind fetched
          exact ih ((h.fetch fetched).dropStaleKeys dropped)
      · exact fun t member => h.read t (List.mem_reverse.mp (List.mem_of_mem_take member))

end Lexer

/-- The characters of a source begin the text. -/
theorem collect_isPrefix (text : List Char) : ∀ (before current : List Char) (began offset : Nat),
    (Source.collect before current began offset text).chars <+:
      (current ++ before).reverse ++ text := by
  induction text with
  | nil =>
      intro before current began offset
      rw [Source.collect]
      exact List.prefix_append _ _
  | cons c cs ih =>
      intro before current began offset
      rw [Source.collect]
      by_cases fresh : began + portion < offset + c.utf8Size
      · simp only [fresh, if_true]
        split
        · simpa using ih (current ++ before) [c] offset (offset + c.utf8Size)
        · exact List.prefix_append _ _
      · simp only [fresh, if_false]
        split
        · simpa using ih before (c :: current) began (offset + c.utf8Size)
        · rw [List.reverse_append, List.append_assoc]
          exact List.prefix_append _ _

/-- **The tokens of a quiet text are quiet.** -/
theorem tokens_quiet {text : List Char} (h : isQuiet .margin text = true) :
    ∀ t ∈ (tokens (.ofText text)).1, t.kind.Quiet := by
  obtain ⟨more, whole⟩ : (Source.ofText text).chars <+: text := collect_isPrefix text [] [] 0 0
  rw [← whole] at h
  exact Lexer.Calm.run _ ⟨isQuiet_of_append h, rfl, rfl, nofun⟩

end ProjectIndex.Yaml
