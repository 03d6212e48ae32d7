import ProjectIndex.Proofs.Cursor.Run
import Mathlib.Data.List.Induction

/-!
# The books of a cursor

A cursor keeps three records of where it stands: the lengths of the lines read, their number, and the
reader's own position.  `Cursor.Balanced` says that they agree.  No event unbalances them, whatever
becomes of the file: the position moves only by bytes that were given and by seeks to sums of
recorded lengths, and neither depends on what the file holds now.

What the disk does decide is how large the sums can get.  They are positions of the reader, so they
stay below any bound that the offsets of the open file keep (`sum_lineLengths_lt`).
-/

namespace ProjectIndex

/-- The records of a cursor agree: as many lines as lengths, and an open reader stands, buffer
deducted, where the lengths add up to. -/
structure Cursor.Balanced (c : Cursor) : Prop where
  count : c.lineCount = c.lineLengths.length
  reader : ∀ r, c.stage = .reading r →
    r.buffer.length ≤ r.offset ∧ r.position = c.lineLengths.sum

namespace Cursor.Balanced

theorem forSuffix (suffix : String) : (Cursor.forSuffix suffix).Balanced where
  count := rfl
  reader r h := by cases h

theorem ofReader {c : Cursor} {r : Reader} (h : c.stage = .reading r)
    (count : c.lineCount = c.lineLengths.length) (buffered : r.buffer.length ≤ r.offset)
    (real : r.position = c.lineLengths.sum) : c.Balanced where
  count := count
  reader r' hr := by
    rw [h, Stage.reading.injEq] at hr
    exact hr ▸ ⟨buffered, real⟩

end Cursor.Balanced

namespace Scene

variable {s : Scene} {e : Event} {a : Answer} {c : Cursor}

/-- **No event unbalances a cursor.** -/
theorem Moves.balanced (m : s.Moves e a c) (h : s.cursor.Balanced) : c.Balanced := by
  cases m with
  | refuses why => exact h
  | opens _ valid opened =>
      obtain ⟨-, offset, buffer, -⟩ := Disk.openFile_ok opened
      exact .ofReader rfl rfl (by simp [buffer]) (Reader.position_of_start offset buffer)
  | closes _ => exact ⟨h.count, fun _ hr => nomatch hr⟩
  | reads hs given =>
      obtain ⟨buffered, real⟩ := h.reader _ hs
      refine .ofReader rfl ?_ (given.length_le buffered) ?_
      · simp [h.count]
      · simp [given.position buffered, real]
  | stepsBack hs back =>
      obtain ⟨-, real⟩ := h.reader _ hs
      exact .ofReader rfl h.count (by simp [back.buffer]) (back.position.trans real)
  | rewinds hs known => exact .ofReader rfl (by simp [known]) (Nat.zero_le _) rfl
  | sets p => exact ⟨h.count, h.reader⟩
  | updates p => exact ⟨h.count, h.reader⟩
  | asks n => exact h
  | changes d => exact h
  | resupplies supply =>
      unfold Cursor.resupply
      cases hs : s.cursor.stage with
      | reading r =>
          obtain ⟨buffered, real⟩ := h.reader r hs
          exact .ofReader rfl h.count buffered real
      | closed => exact h
      | finished => exact h

theorem run_balanced (h : s.cursor.Balanced) (es : List Event) : (s.run es).cursor.Balanced :=
  s.run_induction es h fun s e _ hs => (s.moves e).balanced hs

/-! ### Bounds -/

/-- Throughout a run the offset of the open file stays below a limit. -/
def OffsetsBelow (limit : Nat) (s : Scene) (es : List Event) : Prop :=
  ∀ k r, (s.run (es.take k)).cursor.stage = .reading r → r.offset < limit

/-- The lengths are those of the open file, or, once it is closed, those it left behind. -/
theorem Moves.lineLengths_of_not_reading (m : s.Moves e a c) (h : ∀ r, c.stage ≠ .reading r) :
    c.lineLengths = s.cursor.lineLengths := by
  cases m with
  | refuses why => rfl
  | opens hs valid opened => exact absurd rfl (h _)
  | closes hs => rfl
  | reads hs given => exact absurd rfl (h _)
  | stepsBack hs back => rfl
  | rewinds hs known => exact absurd rfl (h _)
  | sets p => rfl
  | updates p => rfl
  | asks n => rfl
  | changes d => rfl
  | resupplies supply =>
      unfold Cursor.resupply
      split <;> rfl

theorem sum_lineLengths_lt {limit : Nat} (h : s.cursor.Balanced)
    (start : s.cursor.lineLengths.sum < limit) (es : List Event) (below : OffsetsBelow limit s es) :
    (s.run es).cursor.lineLengths.sum < limit := by
  induction es using List.reverseRecOn with
  | nil => exact start
  | append_singleton es e ih =>
      have before : OffsetsBelow limit s es := by
        intro k r hr
        rcases Nat.le_total k es.length with hk | hk
        · refine below k r ?_
          rwa [List.take_append_of_le_length hk]
        · refine below es.length r ?_
          rw [List.take_of_length_le hk] at hr
          rwa [List.take_left]
      have balanced := run_balanced h (es ++ [e])
      -- A closed file has no offset any more, but the lengths are still those of the open one.
      by_cases reading : ∃ r, (s.run (es ++ [e])).cursor.stage = .reading r
      · obtain ⟨r, hr⟩ := reading
        obtain ⟨-, real⟩ := balanced.reader r hr
        have offset := below (es ++ [e]).length r (by rwa [List.take_length])
        rw [← real]
        exact Nat.lt_of_le_of_lt (Nat.sub_le _ _) offset
      · rw [run_concat] at reading ⊢
        rw [((s.run es).moves e).lineLengths_of_not_reading fun r hr => reading ⟨r, hr⟩]
        exact ih before

end Scene

/-- Every start of a line is at most the sum of the lengths. -/
theorem Cursor.lineOffset_le {c : Cursor} {n start : Nat} (h : c.lineOffset n = some start) :
    start ≤ c.lineLengths.sum := by
  rw [lineOffset_eq] at h
  split at h
  · have parts := congrArg List.sum (List.take_append_drop n c.lineLengths)
    rw [List.sum_append] at parts
    have sum := Option.some.inj h
    omega
  · simp at h

theorem Cursor.Balanced.lineOffset_lineCount {c : Cursor} {r : Reader} (h : c.Balanced)
    (hr : c.stage = .reading r) : c.lineOffset c.lineCount = some r.position := by
  rw [lineOffset_eq, h.count, if_pos (Nat.le_refl _), List.take_length, (h.reader r hr).2]

namespace Scene

variable {s : Scene}

/-- A read that succeeds records one more line and sets the virtual position to the real one. -/
theorem reads_of_ok {text : String} {c : Cursor}
    (h : s.cursor.readLine s.disk = (.ok text, c)) :
    ∃ r n, c.stage = .reading r ∧ c.position = r.position ∧
      c.lineLengths = s.cursor.lineLengths ++ [n] := by
  have m := s.moves (.use .readLine)
  simp only [answer, step, next, Cursor.perform, h, Answer.ofText] at m
  cases m with
  | reads hs given => exact ⟨_, _, rfl, rfl, rfl⟩

/-- A rewind that succeeds keeps as many lines as were asked for, and sets both positions. -/
theorem rewinds_of_ok {n : Nat} {c : Cursor} (h : s.cursor.rewind n = (.ok (), c)) :
    ∃ r, c.stage = .reading r ∧ c.position = r.position ∧
      c.lineLengths = s.cursor.lineLengths.take n ∧ c.lineLengths.length = n := by
  have m := s.moves (.use (.rewind n))
  simp only [answer, step, next, Cursor.perform, h, Answer.ofUnit] at m
  cases m with
  | rewinds hs known => exact ⟨_, rfl, rfl, rfl, by simp [known]⟩

/-- **Positions are accounted for in every run**, whatever happens to the files.  There are as many
lines as lengths; an open reader stands where the lengths add up to, which is the start of the line
after those read; each read adds one length and each rewind keeps as many as asked for, and both set
the virtual position to the real one.  If the system keeps offsets below `2 ^ 63`, then so are the
starts of all lines, and the sum of lengths behind such a start never leaves 64 bits. -/
theorem run_accounts_for_positions (suffix : String) (d : Disk) (es : List Event) :
    let start : Scene := ⟨d, .forSuffix suffix⟩
    let s := start.run es
    s.cursor.lineCount = s.cursor.lineLengths.length ∧
      (∀ r, s.cursor.stage = .reading r →
        r.position + r.buffer.length = r.offset ∧ r.position = s.cursor.lineLengths.sum ∧
          s.cursor.lineOffset s.cursor.lineCount = some r.position) ∧
      (∀ text c, s.cursor.readLine s.disk = (.ok text, c) →
        (∃ r, c.stage = .reading r ∧ c.position = r.position) ∧
          c.position = c.lineLengths.sum ∧
          ∃ n, c.lineLengths = s.cursor.lineLengths ++ [n]) ∧
      (∀ n c, s.cursor.rewind n = (.ok (), c) →
        (∃ r, c.stage = .reading r ∧ c.position = r.position) ∧
          c.position = c.lineLengths.sum ∧
          c.lineLengths = s.cursor.lineLengths.take n ∧ c.lineLengths.length = n) ∧
      (start.OffsetsBelow (2 ^ 63) es →
        ∀ n offset, s.cursor.lineOffset n = some offset → offset < 2 ^ 63) := by
  intro start s
  have balanced : s.cursor.Balanced := run_balanced (.forSuffix suffix) es
  refine ⟨balanced.count, fun r hr => ?_, fun text c h => ?_, fun n c h => ?_, fun below n o h => ?_⟩
  · obtain ⟨buffered, real⟩ := balanced.reader r hr
    exact ⟨Reader.position_add_length buffered, real, balanced.lineOffset_lineCount hr⟩
  · obtain ⟨r, n, hr, position, lengths⟩ := reads_of_ok h
    have after := (s.moves (.use .readLine)).balanced balanced
    simp only [step, next, Cursor.perform, h] at after
    exact ⟨⟨r, hr, position⟩, position.trans (after.reader r hr).2, n, lengths⟩
  · obtain ⟨r, hr, position, lengths, length⟩ := rewinds_of_ok h
    have after := (s.moves (.use (.rewind n))).balanced balanced
    simp only [step, next, Cursor.perform, h] at after
    exact ⟨⟨r, hr, position⟩, position.trans (after.reader r hr).2, lengths, length⟩
  · refine Nat.lt_of_le_of_lt (Cursor.lineOffset_le h) ?_
    exact sum_lineLengths_lt (.forSuffix suffix) (Nat.two_pow_pos 63) es below

end Scene

end ProjectIndex
