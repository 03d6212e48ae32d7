import ProjectIndex.Proofs.Yaml.QuietTokens
import ProjectIndex.Proofs.Yaml.Written.Input

/-!
# Plain texts

A text that fits the plain style is read back as it is: `readPlain_written`.  Its words end where spaces
begin, for no colon in it stands before a space and no number sign behind one (`isCut`), and the spaces
between two words of a line are kept.  The line feed behind the last word ends the scalar, since the next
line, if there is one, begins too far to the left.
-/

namespace ProjectIndex.Yaml

open Written

variable {s t w g rest : List Char} {m : Mark}

/-! ### Cuts -/

namespace Written

/-- What stands before a blank is cut only where the whole text is. -/
theorem isCut_of_append {previous : Char} (blank : endsWord t.head? = true)
    (h : isCut previous (w ++ t) = false) : isCut previous w = false := by
  induction w generalizing previous with
  | nil => rfl
  | cons c w ih =>
      simp only [List.cons_append, isCut, Bool.or_eq_false_iff] at h ⊢
      obtain ⟨⟨colon, sign⟩, more⟩ := h
      refine ⟨⟨?_, sign⟩, ih more⟩
      cases w with
      | nil =>
          rw [List.nil_append, blank] at colon
          exact colon
      | cons d w => exact colon

/-- What stands behind a piece of the text is not cut if the whole text is not. -/
theorem isCut_behind {previous : Char} (h : isCut previous (w ++ t) = false) :
    isCut (w.getLastD previous) t = false := by
  induction w generalizing previous with
  | nil => exact h
  | cons c w ih =>
      rw [List.cons_append, isCut, Bool.or_eq_false_iff] at h
      rw [List.getLastD_cons]
      exact ih h.2

/-- A text of words and spaces between them, none of which is cut. -/
structure IsLine (s : List Char) : Prop where
  nonempty : s ≠ []
  inLine : ∀ c ∈ s, endsWord (some c) = (c == ' ')
  whole : isCut ' ' s = false
  first : s.head? ≠ some ' '
  last : s.getLast? ≠ some ' '

/-- Behind a space, a number sign would be a cut. -/
theorem IsLine.no_sign (h : IsLine s) : s.head? ≠ some '#' := by
  intro head
  obtain ⟨s, rfl⟩ := List.head?_eq_some_iff.mp head
  exact absurd h.whole (by simp [isCut, endsWord, isSpaceOrTab])

theorem IsLine.stops (h : IsLine s) (t : List Char) : Stops (fun c => endsWord (some c)) (s ++ t) := by
  obtain ⟨c, s, rfl⟩ := List.exists_cons_of_ne_nil h.nonempty
  refine stops_cons.mpr ((h.inLine c List.mem_cons_self).trans (beq_eq_false_iff_ne.mpr ?_))
  rintro rfl
  exact h.first rfl

theorem isVisible_of_fitsPlain (fits : fitsPlain s = true) : IsVisible s := by
  simp only [fitsPlain, Bool.and_eq_true, Bool.not_eq_true'] at fits
  exact (isVisible_of_isSpecial fits.1.1.1.1.1).1

/-- A text that fits the plain style is such a line. -/
theorem isLine_of_fitsPlain (fits : fitsPlain s = true) (nonempty : s ≠ []) : IsLine s := by
  have visible := isVisible_of_fitsPlain fits
  simp only [fitsPlain, Bool.and_eq_true, Bool.not_eq_true'] at fits
  obtain ⟨⟨⟨⟨⟨-, breaks⟩, first⟩, last⟩, starts⟩, cut⟩ := fits
  have noEdge : ∀ o : Option Char, o.any isEdge = false → o ≠ some ' ' := by
    rintro o edge rfl
    exact nomatch edge
  refine ⟨nonempty, fun c hc => ?_, ?_, noEdge _ first, noEdge _ last⟩
  · have inside : isBreak c = false := by simpa using List.any_eq_false.mp breaks c hc
    rw [endsWord_of_isPrintable (visible c hc), inside, Bool.or_false]
  · obtain ⟨c, s, rfl⟩ := List.exists_cons_of_ne_nil nonempty
    -- What would be a cut at the first character is an odd start.
    have colon : (c == ':' && endsWord s.head?) = false := by
      by_contra cuts
      obtain ⟨same, blank⟩ := Bool.and_eq_true_iff.mp (Bool.not_eq_false _ |>.mp cuts)
      obtain rfl := beq_iff_eq.mp same
      simp [startsOddly, blank] at starts
    have sign : (c == '#') = false := by
      rw [beq_eq_false_iff_ne]
      rintro rfl
      simp [startsOddly] at starts
    rw [isCut, colon, sign]
    exact cut

/-- The spaces of a line stand between a word and the rest of the line. -/
theorem IsLine.split (h : IsLine (w ++ (g ++ s))) (wide : g ≠ []) (spaces : ∀ c ∈ g, c = ' ')
    (behind : Stops (· == ' ') s) : w ≠ [] ∧ IsLine s := by
  have filled : w ≠ [] := by
    rintro rfl
    obtain ⟨c, g, rfl⟩ := List.exists_cons_of_ne_nil wide
    exact h.first (congrArg some (spaces c List.mem_cons_self))
  have lastSpace : g.getLast? = some ' ' := by
    rw [List.getLast?_eq_some_getLast wide, spaces _ (List.getLast_mem wide)]
  have later : s ≠ [] := by
    rintro rfl
    refine h.last ?_
    rw [List.append_nil, List.getLast?_append_of_ne_nil _ wide, lastSpace]
  refine ⟨filled, later, fun c hc => ?_, ?_, fun head => ?_, fun last => h.last ?_⟩
  · exact h.inLine c (List.mem_append_right w (List.mem_append_right g hc))
  · have whole := isCut_behind (isCut_behind h.whole)
    rwa [List.getLastD_eq_getLast?, lastSpace] at whole
  · have := behind ' ' head
    exact nomatch this
  · rw [List.getLast?_append_of_ne_nil _ (List.append_ne_nil_of_right_ne_nil g later),
      List.getLast?_append_of_ne_nil _ later, last]

end Written

/-- A word without blanks that is not cut is taken as a whole. -/
theorem takeUntil_word {previous : Char} (word : ∀ c ∈ w, endsWord (some c) = false)
    (whole : isCut previous w = false) (blank : endsWord t.head? = true) :
    takeUntil (endsPlainWord false) (w ++ t) = w := by
  induction w generalizing previous with
  | nil =>
      cases t with
      | nil => rfl
      | cons c t =>
          have ends : endsWord (some c) = true := blank
          rw [List.nil_append, takeUntil, endsPlainWord, ends]
          rfl
  | cons c w ih =>
      obtain ⟨first, later⟩ := List.forall_mem_cons.mp word
      simp only [isCut, Bool.or_eq_false_iff] at whole
      obtain ⟨⟨colon, -⟩, more⟩ := whole
      have goesOn : (c == ':' && endsWord (w ++ t).head?) = false := by
        cases w with
        | nil =>
            have alone : (c == ':' && true) = false := colon
            rw [List.nil_append, blank, alone]
        | cons d w => exact colon
      rw [List.cons_append, takeUntil, endsPlainWord, first, isStrayColon_false, goesOn]
      simp [ih later more]

/-- The letters of the names of fields. -/
def isNameChar (c : Char) : Bool := 'a' ≤ c && c ≤ 'z'

theorem endsPlainWord_of_isNameChar {c : Char} (letter : isNameChar c = true) (t : List Char) :
    endsPlainWord false (c :: t) = false := by
  have other : ∀ d, isNameChar d = false → (c == d) = false := fun d => beq_eq_false_of_class letter
  rw [endsPlainWord, isStrayColon_false, endsWord, isSpaceOrTab, isBreak]
  simp only [other ' ' rfl, other '\t' rfl, other '\n' rfl, other '\r' rfl, other (Char.ofNat 0x85) rfl,
    other (Char.ofNat 0x2028) rfl, other (Char.ofNat 0x2029) rfl, other ':' rfl, Bool.or_self,
    Bool.false_and]

theorem takeUntil_name (letters : ∀ c ∈ w, isNameChar c = true) (ends : endsPlainWord false t = true) :
    takeUntil (endsPlainWord false) (w ++ t) = w := by
  induction w with
  | nil =>
      cases t with
      | nil => rfl
      | cons c t => rw [List.nil_append, takeUntil, if_pos ends]
  | cons c w ih =>
      obtain ⟨first, later⟩ := List.forall_mem_cons.mp letters
      rw [List.cons_append, takeUntil, endsPlainWord_of_isNameChar first, ih later]
      rfl

/-! ### Reading -/

section Reading

variable {began stop : Mark} {indent fuel : Nat} {gap gap' : Gap} {k : Input}

theorem atDocumentEdge_of_column {i : Input} (inside : i.mark.column ≠ 0) : i.atDocumentEdge = false := by
  simp [Input.atDocumentEdge, Input.atIndicator, inside]

/-- **One word of a plain scalar**, and the white space behind it. -/
theorem readPlainRest_word {previous : Char} (word : ∀ c ∈ w, endsWord (some c) = false)
    (nonempty : w ≠ []) (whole : isCut previous w = false) (sign : w.head? ≠ some '#')
    (inside : m.column ≠ 0) {b : Char} (blank : endsWord (some b) = true)
    (between : Gap.read began (some indent) (fuel + 1) .empty ⟨b :: t, m.over w.length, none⟩ =
      .ok (gap', k)) :
    readPlainRest began false indent (fuel + 1) gap stop ⟨w ++ b :: t, m, none⟩ =
      if k.mark.column < indent then .ok ⟨gap.text ++ w, m.over w.length, k, gap'.breaks⟩
      else
        readPlainRest began false indent fuel gap' (m.over w.length) k >>= fun more =>
          .ok { more with text := gap.text ++ w ++ more.text } := by
  have edge : (Input.mk (w ++ b :: t) m none).atDocumentEdge = false := atDocumentEdge_of_column inside
  have noComment : (Input.mk (w ++ b :: t) m none).sees '#' = false := by
    obtain ⟨c, w, rfl⟩ := List.exists_cons_of_ne_nil nonempty
    rw [Input.sees, beq_eq_false_iff_ne]
    exact sign
  have passed : (Input.mk (w ++ b :: t) m none).skipMany w.length = ⟨b :: t, m.over w.length, none⟩ :=
    skipMany_append w (b :: t) m none
  have full : w.isEmpty = false := by simpa using nonempty
  have behind : (isSpaceOrTab b || isBreak b) = true := blank
  rw [readPlainRest, edge, noComment]
  simp only [takeUntil_word word whole (t := b :: t) blank, passed, isStrayColon_false, full, Input.peek,
    List.head?_cons, Option.any_some, behind, Bool.or_false, Bool.false_eq_true, if_false, if_true,
    between, Bool.not_false, Bool.true_and, decide_eq_true_eq]
  rfl

/-- Nothing is left of a scalar at the end of the text. -/
theorem readPlainRest_nil (broken : gap.breaks = true) :
    readPlainRest began false indent fuel gap stop ⟨[], m, none⟩ =
      .ok ⟨[], stop, ⟨[], m, none⟩, true⟩ := by
  rw [← broken]
  cases fuel with
  | zero => rfl
  | succ fuel =>
      have edge : (Input.mk [] m none).atDocumentEdge = false := by
        simp [Input.atDocumentEdge, Input.atIndicator, Input.peek]
      rw [readPlainRest, edge]
      rfl

/-- The next line does not belong to a scalar that must be indented, nor does the end of the text belong
to any. -/
def Leaves (indent : Nat) (rest : List Char) : Prop :=
  rest = [] ∨ 0 < indent ∧ Stops (fun c => endsWord (some c)) rest

theorem Leaves.stops (h : Leaves indent rest) : Stops (fun c => endsWord (some c)) rest := by
  obtain rfl | ⟨-, stops⟩ := h
  · exact stops_nil _
  · exact stops

/-- **The words of a line of a plain scalar**, read to the end of the line. -/
theorem readPlainRest_line (pieces : Pieces (· == ' ') s) (line : IsLine s) (inside : m.column ≠ 0)
    (enough : s.length < fuel) (leaves : Leaves indent rest) (narrow : indent ≤ 1) :
    readPlainRest began false indent fuel gap stop ⟨s ++ '\n' :: rest, m, none⟩ =
      .ok ⟨gap.text ++ s, m.over s.length, ⟨rest, (m.over s.length).nextLine 1, none⟩, true⟩ := by
  obtain ⟨fuel, rfl⟩ := Nat.exists_eq_add_one.mpr (Nat.zero_lt_of_lt enough)
  induction pieces generalizing gap stop m fuel with
  | @word w word =>
      have unbroken : ∀ c ∈ w, endsWord (some c) = false := fun c hc =>
        (line.inLine c hc).trans (word c hc)
      have between := Gap.read_lines began (some indent) fuel (b := '\n') (m := m.over w.length) [] []
        (List.forall_mem_singleton.mpr (by decide)) nofun (Nat.zero_le _) leaves.stops
      rw [readPlainRest_word unbroken line.nonempty line.whole line.no_sign inside
        (b := '\n') (t := rest) (by decide) between]
      split
      · rfl
      next notLess =>
      obtain rfl | ⟨positive, -⟩ := leaves
      · rw [readPlainRest_nil rfl]
        simp only [bind, Except.bind, List.append_nil]
        rfl
      · exact absurd positive notLess
  | @gap w g s word wide spaces behind more ih =>
      have all : ∀ c ∈ g, c = ' ' := fun c hc => beq_iff_eq.mp (spaces c hc)
      obtain ⟨filled, later⟩ := line.split wide all behind
      have unbroken : ∀ c ∈ w, endsWord (some c) = false := fun c hc =>
        (line.inLine c (List.mem_append_left _ hc)).trans (word c hc)
      have sign : w.head? ≠ some '#' := by
        obtain ⟨c, w, rfl⟩ := List.exists_cons_of_ne_nil filled
        exact line.no_sign
      obtain ⟨b, g, rfl⟩ := List.exists_cons_of_ne_nil wide
      obtain rfl := all b List.mem_cons_self
      simp only [List.length_append, List.length_cons] at enough
      have between := Gap.read_spaces began (some indent) (fuel + 1) (m := m.over w.length) all
        (by rw [List.length_cons]; omega) (later.stops ('\n' :: rest)) []
      obtain ⟨fuel, rfl⟩ := Nat.exists_eq_add_one.mpr (show 0 < fuel by omega)
      have onward : readPlainRest began false indent (fuel + 1) ⟨[] ++ (' ' :: g), [], [], false⟩ (m.over w.length)
          ⟨s ++ '\n' :: rest, (m.over w.length).over (' ' :: g).length, none⟩ = _ :=
        ih later (by simp [Mark.over, inside]) fuel (by omega)
      have split : (w ++ (' ' :: g ++ s)) ++ '\n' :: rest = w ++ ' ' :: (g ++ (s ++ '\n' :: rest)) := by
        simp only [List.append_assoc, List.cons_append]
      have enters : ¬ ((m.over w.length).over (' ' :: g).length).column < indent := by
        simp only [Mark.over]
        omega
      rw [split, readPlainRest_word unbroken filled (isCut_of_append (t := ' ' :: g ++ s) rfl line.whole)
        sign inside (b := ' ') (t := g ++ (s ++ '\n' :: rest)) rfl between, if_neg enters, onward]
      simp only [bind, Except.bind, Mark.over_over, List.length_append, List.append_assoc, Nat.add_assoc,
        List.nil_append]
      rfl

/-- **A text that fits the plain style reads back as it is**, up to the end of its line. -/
theorem readPlain_written (fits : fitsPlain s = true) (nonempty : s ≠ []) (inside : m.column ≠ 0)
    (leaves : Leaves indent rest) (narrow : indent ≤ 1) :
    readPlain false indent ⟨s ++ '\n' :: rest, m, none⟩ =
      .ok ⟨s, m.over s.length, ⟨rest, (m.over s.length).nextLine 1, none⟩, true⟩ := by
  refine readPlainRest_line (pieces _ s) (isLine_of_fitsPlain fits nonempty) inside ?_ leaves narrow
  simp only [List.length_append, List.length_cons]
  omega

/-- **The name of a field reads back as it is**, up to its colon. -/
theorem readPlain_name (letters : ∀ c ∈ w, isNameChar c = true) (nonempty : w ≠ []) :
    readPlain false indent ⟨w ++ ':' :: ' ' :: rest, m, none⟩ =
      .ok ⟨w, m.over w.length, ⟨':' :: ' ' :: rest, m.over w.length, none⟩, false⟩ := by
  have passed := skipMany_append w (':' :: ' ' :: rest) m none
  have taken : takeUntil (endsPlainWord false) (w ++ ':' :: ' ' :: rest) = w :=
    takeUntil_name letters rfl
  have full : w.isEmpty = false := by simpa using nonempty
  have edge : (Input.mk (w ++ ':' :: ' ' :: rest) m none).atDocumentEdge = false ∧
      (Input.mk (w ++ ':' :: ' ' :: rest) m none).sees '#' = false := by
    obtain ⟨c, w, rfl⟩ := List.exists_cons_of_ne_nil nonempty
    have first := letters c List.mem_cons_self
    have other : ∀ d, isNameChar d = false → (some c == some d) = false := fun d => beq_eq_false_of_class first
    simp [Input.atDocumentEdge, Input.atIndicator, Input.sees, Input.peek, other '-' rfl, other '.' rfl,
      other '#' rfl]
  rw [readPlain, readPlainRest, edge.1, edge.2]
  simp only [taken, passed, isStrayColon_false, full]
  rfl

end Reading

end ProjectIndex.Yaml
