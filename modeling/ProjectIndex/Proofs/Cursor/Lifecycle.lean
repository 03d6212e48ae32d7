import Mathlib
import ProjectIndex.Proofs.Cursor.Run
import ProjectIndex.Proofs.Disk.Resolve

/-!
# The life of a cursor

A cursor is opened once and closed once, whatever else it is asked: `Scene.run_lives_once`.  The
milestones of a run are the opens and closes that succeed.  There are three lists of them only, and
`Scene.Lives` ties each to what the cursor is then, stage and path.  One event extends the list and moves
the cursor accordingly (`Scene.Moves.lives`), so the milestones of a run determine its cursor's stage, and
what a cursor accepts and refuses can be said in terms of what succeeded before.

Beyond the last milestone nothing changes but the virtual position (`Scene.run_of_finished`).
-/

namespace ProjectIndex

/-- An open or a close that succeeds. -/
inductive Milestone
  | opened (path : Path)
  | closed
  deriving DecidableEq, Repr

/-- The milestone that an event is, by the answer to it. -/
def Milestone.of? : Event → Answer → Option Milestone
  | .openOn p, .done => some (.opened p)
  | .close, .done => some .closed
  | _, _ => none

/-- Where a cursor was opened. -/
def Milestone.path? : Milestone → Option Path
  | opened p => some p
  | closed => none

namespace Disk

variable {d : Disk} {p : Path} {suffix : String}

/-- A file that exists can be opened. -/
theorem exists_openFile (h : d.isFileWith p (some suffix) = true) : ∃ r, d.openFile p = .ok r := by
  obtain ⟨⟨id, there⟩, -⟩ := isFileWith_iff.mp h
  obtain ⟨names, resolved⟩ := node?_eq_some_iff.mp there
  rw [openFile, resolved]
  exact ⟨_, rfl⟩

end Disk

namespace Scene

variable {s : Scene} {e : Event} {a : Answer} {c : Cursor} {suffix : String} {m : List Milestone}
  {p : Path}

/-- The milestones of a run. -/
def milestones : Scene → List Event → List Milestone
  | _, [] => []
  | s, e :: es => (Milestone.of? e (s.answer e)).toList ++ (s.step e).milestones es

/-! ### What the milestones say of the cursor -/

/-- What a cursor for a suffix is behind some milestones: closed behind none, open behind an open, and
finished behind an open and a close. -/
inductive Lives (suffix : String) : List Milestone → Cursor → Prop
  | closed {c : Cursor} (own : c.suffix = suffix) (stage : c.stage = .closed) (path : c.path = none) :
    Lives suffix [] c
  | reading {c : Cursor} {p : Path} {r : Reader} (own : c.suffix = suffix) (stage : c.stage = .reading r)
    (path : c.path = some p) : Lives suffix [.opened p] c
  | finished {c : Cursor} {p : Path} (own : c.suffix = suffix) (stage : c.stage = .finished)
    (path : c.path = some p) : Lives suffix [.opened p, .closed] c

/-- A cursor of the same suffix, stage and path lives as well, the reader of the file apart. -/
theorem Lives.of_reading {r r' : Reader} {c' : Cursor} (h : Lives suffix m c) (old : c.stage = .reading r)
    (own : c'.suffix = c.suffix) (stage : c'.stage = .reading r') (path : c'.path = c.path) :
    Lives suffix m c' := by
  cases h with
  | closed _ other => cases old.symm.trans other
  | finished _ other => cases old.symm.trans other
  | reading same _ there => exact .reading (own.trans same) stage (path.trans there)

theorem Lives.congr {c' : Cursor} (h : Lives suffix m c) (own : c'.suffix = c.suffix)
    (stage : c'.stage = c.stage) (path : c'.path = c.path) : Lives suffix m c' := by
  cases h with
  | closed same at' there => exact .closed (own.trans same) (stage.trans at') (path.trans there)
  | reading same at' there => exact .reading (own.trans same) (stage.trans at') (path.trans there)
  | finished same at' there => exact .finished (own.trans same) (stage.trans at') (path.trans there)

theorem Lives.milestones_eq (h : Lives suffix m c) :
    m = [] ∨ (∃ p, m = [.opened p]) ∨ ∃ p, m = [.opened p, .closed] := by
  cases h with
  | closed => exact .inl rfl
  | @reading _ p => exact .inr (.inl ⟨p, rfl⟩)
  | @finished _ p => exact .inr (.inr ⟨p, rfl⟩)

theorem Lives.own_suffix (h : Lives suffix m c) : c.suffix = suffix := by
  cases h <;> assumption

theorem Lives.path_eq (h : Lives suffix m c) : c.path = m.findSome? Milestone.path? := by
  cases h <;> assumption

theorem Lives.isOpen_iff (h : Lives suffix m c) :
    c.isOpen = true ↔ (∃ p, .opened p ∈ m) ∧ .closed ∉ m := by
  cases h with
  | closed _ stage => simp [Cursor.isOpen, stage]
  | reading _ stage => simp [Cursor.isOpen, stage]
  | finished _ stage => simp [Cursor.isOpen, stage]

theorem Lives.stage_eq_closed_iff (h : Lives suffix m c) :
    c.stage = .closed ↔ ∀ p, .opened p ∉ m := by
  cases h with
  | closed _ stage => simp [stage]
  | reading _ stage => simp [stage]
  | finished _ stage => simp [stage]

theorem Lives.stage_of_mem (h : Lives suffix m c) (closed : .closed ∈ m) : c.stage = .finished := by
  cases h with
  | closed => cases closed
  | reading => simp at closed
  | finished _ stage => exact stage

/-- Where nothing is added, nothing has to be said anew. -/
theorem Lives.stays (none : Milestone.of? e a = none) (h : Lives suffix m c) :
    Lives suffix (m ++ (Milestone.of? e a).toList) c := by
  rwa [none, Option.toList_none, List.append_nil]

/-- **An event that is a milestone takes the cursor to its next stage, and others leave it there.** -/
theorem Moves.lives (moved : s.Moves e a c) (h : Lives suffix m s.cursor) :
    Lives suffix (m ++ (Milestone.of? e a).toList) c := by
  cases moved with
  | refuses why =>
      have none : ∀ error, Milestone.of? e (.refused error) = none := by
        intro error
        cases e <;> rfl
      exact h.stays (none _)
  | opens stage valid opened =>
      cases h with
      | closed own _ path => exact .reading own rfl rfl
      | reading _ other => cases stage.symm.trans other
      | finished _ other => cases stage.symm.trans other
  | closes stage =>
      cases h with
      | reading own _ path => exact .finished own rfl path
      | closed _ other => cases stage.symm.trans other
      | finished _ other => cases stage.symm.trans other
  | reads stage given =>
      refine Lives.stays rfl ?_
      exact h.of_reading stage rfl rfl rfl
  | stepsBack stage back =>
      refine Lives.stays rfl ?_
      exact h.of_reading stage rfl rfl rfl
  | rewinds stage known =>
      refine Lives.stays rfl ?_
      exact h.of_reading stage rfl rfl rfl
  | sets p =>
      refine Lives.stays rfl ?_
      exact h.congr rfl rfl rfl
  | updates p =>
      refine Lives.stays rfl ?_
      exact h.congr rfl rfl rfl
  | asks n => exact h.stays rfl
  | changes d => exact h.stays rfl
  | resupplies supply =>
      refine Lives.stays rfl ?_
      unfold Cursor.resupply
      split
      · next r stage => exact h.of_reading stage rfl rfl rfl
      · exact h

theorem run_lives (es : List Event) (h : Lives suffix m s.cursor) :
    Lives suffix (m ++ s.milestones es) (s.run es).cursor := by
  induction es generalizing s m with
  | nil => rwa [milestones, List.append_nil]
  | cons e es ih =>
      rw [milestones, ← List.append_assoc]
      exact ih ((s.moves e).lives h)

/-! ### Behind the last milestone -/

/-- A call on a finished cursor changes at most the virtual position. -/
theorem Moves.of_finished (moved : s.Moves e a c) (h : s.cursor.stage = .finished) :
    ∃ position, c = { s.cursor with position } := by
  cases moved with
  | refuses why => exact ⟨s.cursor.position, rfl⟩
  | opens stage => cases stage.symm.trans h
  | closes stage => cases stage.symm.trans h
  | reads stage => cases stage.symm.trans h
  | stepsBack stage => cases stage.symm.trans h
  | rewinds stage => cases stage.symm.trans h
  | sets p => exact ⟨p, rfl⟩
  | updates p => exact ⟨p, rfl⟩
  | asks n => exact ⟨s.cursor.position, rfl⟩
  | changes d => exact ⟨s.cursor.position, rfl⟩
  | resupplies supply =>
      refine ⟨s.cursor.position, ?_⟩
      rw [Cursor.resupply, h]

/-- **Nothing changes a finished cursor, but for the virtual position.** -/
theorem run_of_finished (es : List Event) (h : s.cursor.stage = .finished) :
    ∃ position, (s.run es).cursor = { s.cursor with position } := by
  refine s.run_induction (P := fun t => ∃ position, t.cursor = { s.cursor with position }) es
    ⟨s.cursor.position, rfl⟩ ?_
  rintro t e - ⟨position, same⟩
  obtain ⟨later, moved⟩ := (t.moves e).of_finished (by rw [same]; exact h)
  exact ⟨later, by rw [moved, same]⟩

/-- What a finished cursor answers to the calls that only an open or a closed one is there for. -/
theorem answers_of_finished (h : s.cursor.stage = .finished) :
    (∀ p, s.answer (.openOn p) = .refused .finished) ∧ s.answer .close = .refused .notOpen ∧
      s.answer (.use .readLine) = .refused .notOpen ∧
      ∀ n, s.answer (.use (.rewind n)) = .refused (if n ≤ s.cursor.lineLengths.length then .notOpen
        else .lineOutOfRange n s.cursor.lineLengths.length) := by
  refine ⟨fun p => ?_, ?_, ?_, fun n => ?_⟩
  · simp only [answer, next, Cursor.openOn, h]
    rfl
  · simp only [answer, next, Cursor.close, h]
    rfl
  · simp only [answer, next, Cursor.perform, Cursor.readLine, h]
    rfl
  · simp only [answer, next, Cursor.perform, Cursor.rewind, Cursor.lineOffset_eq]
    by_cases known : n ≤ s.cursor.lineLengths.length
    · simp only [known, if_true, h]
      rfl
    · simp only [known, if_false]
      rfl

/-! ### The first milestone -/

/-- A closed cursor opens on every file with its suffix, and on nothing else. -/
theorem answer_openOn_iff : s.answer (.openOn p) = .done ↔ s.cursor.stage = .closed ∧
    (∃ id, s.disk.node? p = some (.file id)) ∧ p.suffix? = some s.cursor.suffix := by
  rw [← Disk.isFileWith_iff]
  constructor
  · intro done
    have moved := s.moves (.openOn p)
    rw [done] at moved
    generalize (s.step (.openOn p)).cursor = c at moved
    cases moved with
    | opens stage valid => exact ⟨stage, valid⟩
  · rintro ⟨stage, valid⟩
    obtain ⟨r, opened⟩ := Disk.exists_openFile valid
    simp only [answer, next, Cursor.openOn, stage, valid, opened]
    rfl

/-- A cursor that was just opened remembers nothing of what it was before. -/
theorem cursor_of_answer_openOn (done : s.answer (.openOn p) = .done) :
    ∃ r, (s.step (.openOn p)).cursor = ⟨.reading r, s.cursor.suffix, some p, 0, [], 0, ""⟩ := by
  have moved := s.moves (.openOn p)
  rw [done] at moved
  generalize (s.step (.openOn p)).cursor = c at moved
  cases moved with
  | opens => exact ⟨_, rfl⟩

/-! ### The whole life -/

/-- **A cursor is opened once and closed once, and stays as it then is.**  Let a new cursor for a suffix
have gone through any events, on a disk that may change.
* Its milestones are none, one open, or one open and then one close.
* It is open exactly between the two, and its path is none before the open and the path opened ever after.
* An open succeeds exactly if none has succeeded before and the path leads to a file with the suffix,
  however often opening was refused.
* An open that succeeds sets the position and all records back to what they are at the start.
* Once a close has succeeded, whatever happens next, every open, close, read and rewind is refused, and
  the records, the path and the starts of all lines stay the same. -/
theorem run_lives_once (d : Disk) (suffix : String) (es : List Event) :
    let start : Scene := ⟨d, .forSuffix suffix⟩
    let s := start.run es
    let m := start.milestones es
    (m = [] ∨ (∃ p, m = [.opened p]) ∨ ∃ p, m = [.opened p, .closed]) ∧
      (s.cursor.isOpen = true ↔ (∃ p, .opened p ∈ m) ∧ .closed ∉ m) ∧
      s.cursor.path = m.findSome? Milestone.path? ∧
      (∀ p, s.answer (.openOn p) = .done ↔ (∀ q, .opened q ∉ m) ∧
        (∃ id, s.disk.node? p = some (.file id)) ∧ p.suffix? = some suffix) ∧
      (∀ p, s.answer (.openOn p) = .done → let c := (s.step (.openOn p)).cursor
        c.isOpen = true ∧ c.path = some p ∧ c.position = 0 ∧ c.lineLengths = [] ∧ c.lineCount = 0 ∧
          c.line = "") ∧
      (.closed ∈ m → ∀ fs, let t := s.run fs
        (∀ p, t.answer (.openOn p) = .refused .finished) ∧ t.answer .close = .refused .notOpen ∧
          t.answer (.use .readLine) = .refused .notOpen ∧
          (∀ n, ∃ error, t.answer (.use (.rewind n)) = .refused error) ∧
          t.cursor.isOpen = false ∧ t.cursor.lineLengths = s.cursor.lineLengths ∧
          t.cursor.lineCount = s.cursor.lineCount ∧ t.cursor.line = s.cursor.line ∧
          t.cursor.path = s.cursor.path ∧ ∀ n, t.cursor.lineOffset n = s.cursor.lineOffset n) := by
  intro start s m
  have lives : Lives suffix m s.cursor := run_lives (m := []) es (.closed rfl rfl rfl)
  refine ⟨lives.milestones_eq, lives.isOpen_iff, lives.path_eq, fun p => ?_, fun p done => ?_,
    fun closed fs => ?_⟩
  · rw [answer_openOn_iff, lives.stage_eq_closed_iff, lives.own_suffix]
  · obtain ⟨r, opened⟩ := cursor_of_answer_openOn done
    rw [opened]
    exact ⟨rfl, rfl, rfl, rfl, rfl, rfl⟩
  · have stage := lives.stage_of_mem closed
    obtain ⟨position, same⟩ := run_of_finished fs stage
    have still : (s.run fs).cursor.stage = .finished := by rw [same, stage]
    obtain ⟨opens, closes, reads, rewinds⟩ := answers_of_finished still
    refine ⟨opens, closes, reads, fun n => ⟨_, rewinds n⟩, Cursor.isOpen_eq_false (by simp [still]), ?_⟩
    rw [same]
    exact ⟨rfl, rfl, rfl, rfl, fun _ => rfl⟩

/-- What happens to the cursor below: opening fails, it is opened, a line is read, it is closed. -/
def singleLife : List Event :=
  [.use (.setPosition 7), .openOn (.ofString "/b.clua"), .openOn (.ofString "/a.clua"), .use .readLine,
    .close]

/-- A cursor that was moved, refused, opened, read from and closed cannot be opened again, and what it
recorded stays. -/
theorem run_lives_once_single :
    let p := Path.ofString "/a.clua"
    let start : Scene := ⟨.single [0x78, lineFeed], .forSuffix Names.sourceSuffix⟩
    let before := start.run (singleLife.take 2)
    let s := start.run singleLife
    before.answer (.openOn p) = .done ∧ (before.step (.openOn p)).cursor.position = 0 ∧
      start.milestones singleLife = [.opened p, .closed] ∧ s.cursor.lineLengths = [2] ∧
      let t := s.run [.use (.setPosition 9), .use (.rewind 0)]
      t.answer (.openOn p) = .refused .finished ∧ t.cursor.path = some p ∧ t.cursor.lineLengths = [2] := by
  intro p start before s
  have leads : before.disk.node? p = some (.file 0) := rfl
  obtain ⟨-, -, -, opens, resets, -⟩ := run_lives_once start.disk Names.sourceSuffix (singleLife.take 2)
  have done : before.answer (.openOn p) = .done := by
    refine (opens p).mpr ⟨?_, ⟨0, leads⟩, by cbv⟩
    have none : start.milestones (singleLife.take 2) = [] := by cbv
    rw [none]
    exact fun _ => List.not_mem_nil
  have passed : start.milestones singleLife = [.opened p, .closed] := by cbv
  have read : s.cursor.lineLengths = [2] := by cbv
  have there : s.cursor.path = some p := by cbv
  obtain ⟨-, -, -, -, -, after⟩ := run_lives_once start.disk Names.sourceSuffix singleLife
  obtain ⟨refused, -, -, -, -, kept, -, -, path, -⟩ := after (by rw [passed]; decide)
    [.use (.setPosition 9), .use (.rewind 0)]
  exact ⟨done, (resets p done).2.2.1, passed, read, refused p, path.trans there, kept.trans read⟩

end Scene

end ProjectIndex
