import Mathlib
import ProjectIndex.Proofs.Cursor.Pointer

/-!
# Rejected calls change nothing

A call on a cursor fails for one of two kinds of reasons.  The file may not be readable at the moment, and
then something has happened to the reader.  Or the call is *rejected*: the cursor is at another stage of its
life, the path leads to no source file, or the line has not been read.  The checks for this come before
anything is done, so the scene after a rejected call is the scene before it (`Scene.step_of_rejection`).

For a run this means that rejected calls can be taken out of it, some of them or all.  What is left of the
journal is then the journal of what is left of the events, and both runs end in the same scene:
`Scene.journal_of_sublist`.
-/

namespace ProjectIndex

/-- The failure is that of a call which was not to be made, and not that of a file which cannot be read. -/
def CursorError.isRejection : CursorError → Bool
  | invalidSource .. => true
  | unopened .. => true
  | alreadyOpen _ => true
  | finished => true
  | notOpen => true
  | lineOutOfRange .. => true
  | io _ => false

namespace Scene

variable {s : Scene} {e : Event} {error : CursorError} {c : Cursor} {n : Nat}

/-- The entry is of a call that was rejected. -/
def Entry.rejected (x : Entry) : Bool :=
  match x.answer with
  | .refused error => error.isRejection
  | _ => false

/-! ### One call -/

theorem Moves.of_rejection (moved : s.Moves e (.refused error) c) (rejection : error.isRejection = true) :
    s.Refuses e error ∧ c = s.cursor := by
  cases moved with
  | refuses why => exact ⟨why, rfl⟩
  | stepsBack => cases rejection

/-- What is refused was asked of the cursor, and the disk has no part in it. -/
theorem Refuses.disk_eq (why : s.Refuses e error) : (s.step e).disk = s.disk := by
  cases why <;> rfl

/-- **A rejected call leaves the scene as it was.** -/
theorem step_of_rejection (refused : s.answer e = .refused error) (rejection : error.isRejection = true) :
    s.step e = s := by
  have moved := s.moves e
  rw [refused] at moved
  obtain ⟨why, same⟩ := moved.of_rejection rejection
  exact congrArg₂ Scene.mk why.disk_eq same

theorem step_of_rejected {c : Cursor} (h : Entry.rejected ⟨e, s.answer e, c⟩ = true) : s.step e = s := by
  cases answer : s.answer e with
  | refused error =>
      rw [Entry.rejected, answer] at h
      exact step_of_rejection answer h
  | _ =>
      rw [Entry.rejected, answer] at h
      cases h

/-- What a cursor answers to a rewind: the line is looked at first, and then the stage. -/
theorem answer_rewind (s : Scene) (n : Nat) : s.answer (.use (.rewind n)) =
    if n ≤ s.cursor.lineLengths.length then if s.cursor.isOpen then .done else .refused .notOpen
    else .refused (.lineOutOfRange n s.cursor.lineLengths.length) := by
  simp only [answer, next, Cursor.perform, Cursor.rewind, Cursor.lineOffset_eq]
  by_cases known : n ≤ s.cursor.lineLengths.length
  · cases stage : s.cursor.stage with
    | reading r => simp only [known, if_true, Cursor.isOpen_of_reading stage, Answer.ofUnit]
    | _ => simp only [known, if_true, stage, Cursor.isOpen, Bool.false_eq_true, if_false, Answer.ofUnit]
  · simp only [known, if_false, Answer.ofUnit]

theorem answer_rewind_eq_notOpen_iff : s.answer (.use (.rewind n)) = .refused .notOpen ↔
    n ≤ s.cursor.lineLengths.length ∧ s.cursor.isOpen = false := by
  rw [answer_rewind]
  by_cases known : n ≤ s.cursor.lineLengths.length
  · cases s.cursor.isOpen <;> simp [known]
  · simp [known]

theorem answer_rewind_eq_lineOutOfRange_iff {line read : Nat} :
    s.answer (.use (.rewind n)) = .refused (.lineOutOfRange line read) ↔
      s.cursor.lineLengths.length < n ∧ line = n ∧ read = s.cursor.lineLengths.length := by
  rw [answer_rewind]
  by_cases known : n ≤ s.cursor.lineLengths.length
  · cases s.cursor.isOpen <;> simp [known, Nat.not_lt.mpr known]
  · simp [known, Nat.lt_of_not_le known, eq_comm]

/-! ### Runs -/

/-- The entries of calls that were not rejected. -/
def accepted (journal : List Entry) : List Entry := journal.filter fun x => !x.rejected

/-- **Rejected calls can be taken out of a run.**  What is left of the journal, if no more than entries of
rejected calls is missing, is the journal of what is left of the events. -/
theorem journal_of_sublist (es : List Event) : ∀ {s : Scene} {kept : List Entry},
    kept.Sublist (s.journal es) → accepted kept = accepted (s.journal es) →
    s.journal (kept.map Entry.event) = kept ∧ s.run (kept.map Entry.event) = s.run es := by
  induction es with
  | nil =>
      intro s kept part _
      obtain rfl := List.sublist_nil.mp part
      exact ⟨rfl, rfl⟩
  | cons e es ih =>
      intro s kept part same
      rw [journal] at part same
      cases part with
      | @cons_cons kept _ _ part =>
          have rest : accepted kept = accepted ((s.step e).journal es) := by
            unfold accepted at same
            rw [List.filter_cons, List.filter_cons] at same
            split at same
            · exact (List.cons.inj same).2
            · exact same
          obtain ⟨entries, after⟩ := ih part rest
          exact ⟨congrArg _ entries, after⟩
      | cons _ part =>
          -- An entry that is missing is of a rejected call, or else too few entries would be left.
          cases rejected : Entry.rejected ⟨e, s.answer e, (s.step e).cursor⟩ with
          | false =>
              rw [accepted, accepted, List.filter_cons_of_pos (by rw [rejected]; rfl)] at same
              have shorter := (part.filter fun x => !x.rejected).length_le
              rw [same, List.length_cons] at shorter
              exact absurd shorter (Nat.not_succ_le_self _)
          | true =>
              rw [accepted, accepted, List.filter_cons_of_neg (by rw [rejected]; decide)] at same
              rw [step_of_rejected rejected] at part same
              obtain ⟨entries, after⟩ := ih part same
              refine ⟨entries, ?_⟩
              rw [run_cons, step_of_rejected rejected, after]

/-- **Rejected calls change nothing.**
* A call that is refused, though no file fails to be read, leaves the disk and the cursor as they were, the
  reader and its buffer included.
* Take rejected calls out of a run, some of them or all.  Every other event is answered as before, with the
  same cursor behind it, and the run ends in the same scene.
* A rewind is refused for its line exactly if the line is behind those read, at every stage; it is refused
  for the stage exactly if the line is known and the cursor is not open. -/
theorem rejections_change_nothing (s : Scene) :
    (∀ e error, s.answer e = .refused error → error.isRejection = true → s.step e = s) ∧
      (∀ es (kept : List Entry), kept.Sublist (s.journal es) →
        accepted kept = accepted (s.journal es) →
        s.journal (kept.map Entry.event) = kept ∧ s.run (kept.map Entry.event) = s.run es) ∧
      ∀ n, let read := s.cursor.lineLengths.length
        (∀ line known, s.answer (.use (.rewind n)) = .refused (.lineOutOfRange line known) ↔
          read < n ∧ line = n ∧ known = read) ∧
        (s.answer (.use (.rewind n)) = .refused .notOpen ↔ n ≤ read ∧ s.cursor.isOpen = false) :=
  ⟨fun _ _ refused rejection => step_of_rejection refused rejection,
    fun es _ part same => journal_of_sublist es part same,
    fun _ => ⟨fun _ _ => answer_rewind_eq_lineOutOfRange_iff, answer_rewind_eq_notOpen_iff⟩⟩

/-- What is asked of the cursor below: three calls of a whole life, and before, between and behind them what
is rejected at each stage. -/
def singleRejections : List Event :=
  [.use .readLine, .use (.rewind 1), .use (.rewind 0), .openOn (.ofString "/b.clua"),
    .openOn (.ofString "/a.clua"), .openOn (.ofString "/a.clua"), .use (.rewind 2), .use .readLine, .close,
    .close, .openOn (.ofString "/a.clua"), .use (.rewind 1), .use (.rewind 2)]

/-- Without the rejected calls the life of the cursor is opening, reading and closing, and each of the
three is answered as before. -/
theorem rejections_change_nothing_single :
    let s : Scene := ⟨.single [0x78, lineFeed], .forSuffix Names.sourceSuffix⟩
    let kept := accepted (s.journal singleRejections)
    let life : List Event := [.openOn (.ofString "/a.clua"), .use .readLine, .close]
    s.answer (.use (.rewind 1)) = .refused (.lineOutOfRange 1 0) ∧ s.step (.use (.rewind 1)) = s ∧
      kept.map Entry.event = life ∧ s.journal life = kept ∧ s.run life = s.run singleRejections ∧
      s.answers life = [.done, .text "x\n", .done] ∧
      (s.run life).answer (.use (.rewind 1)) = .refused .notOpen ∧
      (s.run life).answer (.use (.rewind 2)) = .refused (.lineOutOfRange 2 1) := by
  intro s kept life
  obtain ⟨stays, taken, rewinds⟩ := rejections_change_nothing s
  have early : s.answer (.use (.rewind 1)) = .refused (.lineOutOfRange 1 0) :=
    ((rewinds 1).1 1 0).mpr ⟨by decide, rfl, rfl⟩
  have events : kept.map Entry.event = life := by cbv
  have once : accepted kept = kept := by
    refine List.filter_filter.trans (List.filter_congr fun x _ => ?_)
    exact Bool.and_self _
  obtain ⟨entries, after⟩ := taken singleRejections kept List.filter_sublist once
  rw [events] at entries after
  obtain ⟨-, -, rewinds⟩ := rejections_change_nothing (s.run life)
  have one : (s.run life).cursor.lineLengths.length = 1 := by cbv
  have closed : (s.run life).cursor.isOpen = false := by cbv
  refine ⟨early, stays _ _ early rfl, events, entries, after, by cbv, ?_, ?_⟩
  · exact (rewinds 1).2.mpr ⟨Nat.le_of_eq one.symm, closed⟩
  · exact ((rewinds 2).1 2 1).mpr ⟨by rw [one]; decide, rfl, one.symm⟩

end Scene

end ProjectIndex
