import ProjectIndex.Proofs.Cursor.Run

/-!
# The virtual pointer never influences reading

A user may put the virtual position anywhere, at any time.  Reading takes its offsets from the reader
and from the recorded lengths, so nothing else comes of it.  Said of two runs: take the moves of the
pointer out of the events, and the `journal` of the run, which has an entry for each event, loses the entries
of those moves and is the same otherwise, but for positions.

The two runs are kept together by `Scene.pointedTo`: at every point one scene is the other with its pointer
put somewhere.  A move changes only where (`step_of_movesPointer`).  Any other event answers the same and
keeps the relation (`movesAlike`); a successful open, read or rewind even makes the two scenes one, since
what such an operation leaves behind has nothing of the old pointer (`Cursor.Parallel`).
-/

namespace ProjectIndex

namespace Cursor

variable (c : Cursor) (d : Disk) (p : Nat)

@[simp] theorem setPosition_stage : (c.setPosition p).stage = c.stage := rfl

@[simp] theorem setPosition_suffix : (c.setPosition p).suffix = c.suffix := rfl

@[simp] theorem setPosition_path : (c.setPosition p).path = c.path := rfl

@[simp] theorem setPosition_lineLengths : (c.setPosition p).lineLengths = c.lineLengths := rfl

@[simp] theorem setPosition_lineOffset (n : Nat) : (c.setPosition p).lineOffset n = c.lineOffset n := rfl

/-! ### Operations beside a pointer put elsewhere -/

/-- The outcome of an operation on a cursor, and its outcome on the cursor with the pointer put at `p`: they
are equal, or a failure left the pointer of the second where it was. -/
def Parallel {ε α : Type} (p : Nat) (x y : Except ε α × Cursor) : Prop :=
  y = x ∨ (∃ e, x.1 = .error e) ∧ y = (x.1, x.2.setPosition p)

theorem openOn_parallel (path : Path) :
    Parallel p (c.openOn d path).value ((c.setPosition p).openOn d path).value := by
  simp only [openOn, setPosition_stage]
  cases c.stage with
  | reading r => exact .inr ⟨⟨_, rfl⟩, rfl⟩
  | finished => exact .inr ⟨⟨_, rfl⟩, rfl⟩
  | closed =>
      cases valid : d.isFileWith path (some c.suffix) with
      | false =>
          rw [← c.setPosition_suffix p] at valid
          simp only [valid]
          exact .inr ⟨⟨_, rfl⟩, rfl⟩
      | true =>
          rw [← c.setPosition_suffix p] at valid
          simp only [valid]
          cases d.openFile path with
          | error e => exact .inr ⟨⟨_, rfl⟩, rfl⟩
          | ok r => exact .inl rfl

theorem readLine_parallel : Parallel p (c.readLine d) ((c.setPosition p).readLine d) := by
  simp only [readLine, setPosition_stage]
  cases c.stage with
  | closed => exact .inr ⟨⟨_, rfl⟩, rfl⟩
  | finished => exact .inr ⟨⟨_, rfl⟩, rfl⟩
  | reading r =>
      -- A failed read, too, puts the pointer where the reader is.
      rcases r.nextLine (d.contents r) with ⟨e | line, r'⟩
      · exact .inl rfl
      · exact .inl rfl

theorem rewind_parallel (n : Nat) : Parallel p (c.rewind n) ((c.setPosition p).rewind n) := by
  simp only [rewind, setPosition_lineOffset, setPosition_stage, setPosition_lineLengths]
  cases c.lineOffset n with
  | none => exact .inr ⟨⟨_, rfl⟩, rfl⟩
  | some place =>
      cases c.stage with
      | reading r => exact .inl rfl
      | closed => exact .inr ⟨⟨_, rfl⟩, rfl⟩
      | finished => exact .inr ⟨⟨_, rfl⟩, rfl⟩

theorem close_setPosition :
    (c.setPosition p).close.value = (c.close.value.1, c.close.value.2.setPosition p) := by
  simp only [close, setPosition_stage, setPosition_path]
  cases c.stage with
  | closed => rfl
  | finished => rfl
  | reading r => cases c.path <;> rfl

theorem resupply_setPosition (supply : Supply) :
    (c.setPosition p).resupply supply = (c.resupply supply).setPosition p := by
  simp only [resupply, setPosition_stage]
  cases c.stage <;> rfl

end Cursor

/-! ### Events -/

/-- The event puts the virtual position where the user says. -/
def Event.movesPointer : Event → Bool
  | .use (.setPosition _) => true
  | .use (.updatePosition _) => true
  | _ => false

/-- If it succeeds, the event puts the virtual position at the real one. -/
def Event.resyncs : Event → Bool
  | .openOn _ => true
  | .use .readLine => true
  | .use (.rewind _) => true
  | _ => false

/-- The answer is no refusal. -/
def Answer.succeeds : Answer → Bool
  | .refused _ => false
  | _ => true

namespace Scene

/-- The scene with the virtual position put somewhere. -/
def pointedTo (s : Scene) (p : Nat) : Scene := ⟨s.disk, s.cursor.setPosition p⟩

/-- A move of the pointer does nothing but put it elsewhere. -/
theorem step_of_movesPointer {e : Event} (h : e.movesPointer = true) (s : Scene) (p : Nat) :
    ∃ q, (s.pointedTo p).step e = s.pointedTo q := by
  cases e with
  | use u =>
      cases u with
      | setPosition q => exact ⟨q, rfl⟩
      | updatePosition q => exact ⟨q, rfl⟩
      | readLine => cases h
      | rewind n => cases h
      | lineOffset n => cases h
  | openOn path => cases h
  | close => cases h
  | change d => cases h
  | resupply supply => cases h

/-- An event is answered alike with the pointer put at `p`, and leaves the scene it would leave, with the
pointer at `q`; if it brings the pointer back to the real position, it does so from `p` as well. -/
structure MovesAlike (s : Scene) (e : Event) (p q : Nat) : Prop where
  answer : (s.pointedTo p).answer e = s.answer e
  step : (s.pointedTo p).step e = (s.step e).pointedTo q
  resync : e.resyncs = true → (s.answer e).succeeds = true → q = (s.step e).cursor.position

theorem movesAlike_of_parallel {α : Type} {s : Scene} {e : Event} {p : Nat}
    {x y : Except CursorError α × Cursor} (f : Except CursorError α → Answer)
    (fails : ∀ error, (f (.error error)).succeeds = false)
    (hx : s.next e = (f x.1, { s with cursor := x.2 }))
    (hy : (s.pointedTo p).next e = (f y.1, { s with cursor := y.2 }))
    (h : Cursor.Parallel p x y) : ∃ q, s.MovesAlike e p q := by
  obtain same | ⟨⟨error, failed⟩, rest⟩ := h
  · refine ⟨x.2.position, ?_, ?_, fun _ _ => ?_⟩
    · rw [Scene.answer, Scene.answer, hx, hy, same]
    · rw [Scene.step, Scene.step, hx, hy, same]
      rfl
    · rw [Scene.step, hx]
  · refine ⟨p, ?_, ?_, fun _ succeeds => ?_⟩
    · rw [Scene.answer, Scene.answer, hx, hy, rest]
    · rw [Scene.step, Scene.step, hx, hy, rest]
      rfl
    · rw [Scene.answer, hx, failed, fails error] at succeeds
      cases succeeds

/-- **Only moves of the pointer look at the pointer.** -/
theorem movesAlike {e : Event} (h : e.movesPointer = false) (s : Scene) (p : Nat) :
    ∃ q, s.MovesAlike e p q := by
  cases e with
  | openOn path =>
      exact movesAlike_of_parallel .ofUnit (fun _ => rfl) rfl rfl (s.cursor.openOn_parallel s.disk p path)
  | close =>
      have closed := s.cursor.close_setPosition p
      refine ⟨p, ?_, ?_, nofun⟩
      · show Answer.ofUnit (s.cursor.setPosition p).close.value.1 = _
        rw [closed]
        rfl
      · show Scene.mk _ (s.cursor.setPosition p).close.value.2 = _
        rw [closed]
        rfl
  | change d => exact ⟨p, rfl, rfl, nofun⟩
  | resupply supply =>
      refine ⟨p, rfl, ?_, nofun⟩
      show Scene.mk _ ((s.cursor.setPosition p).resupply supply) = _
      rw [Cursor.resupply_setPosition]
      rfl
  | use u =>
      cases u with
      | readLine =>
          exact movesAlike_of_parallel .ofText (fun _ => rfl) rfl rfl (s.cursor.readLine_parallel s.disk p)
      | rewind n =>
          exact movesAlike_of_parallel .ofUnit (fun _ => rfl) rfl rfl (s.cursor.rewind_parallel p n)
      | lineOffset n => exact ⟨p, rfl, rfl, nofun⟩
      | setPosition q => cases h
      | updatePosition q => cases h

/-! ### Runs -/

/-- What is heard of an event, and the cursor after it. -/
structure Entry where
  event : Event
  answer : Answer
  cursor : Cursor

/-- What is heard and seen of some events, one entry for each. -/
def journal : Scene → List Event → List Entry
  | _, [] => []
  | s, e :: es => ⟨e, s.answer e, (s.step e).cursor⟩ :: (s.step e).journal es

/-- The entries say the same, but that the virtual positions may differ where the event was no successful
open, read or rewind. -/
structure Entry.Agrees (x y : Entry) : Prop where
  event : x.event = y.event
  answer : x.answer = y.answer
  isOpen : x.cursor.isOpen = y.cursor.isOpen
  path : x.cursor.path = y.cursor.path
  lineLengths : x.cursor.lineLengths = y.cursor.lineLengths
  lineCount : x.cursor.lineCount = y.cursor.lineCount
  line : x.cursor.line = y.cursor.line
  lineOffset : ∀ n, x.cursor.lineOffset n = y.cursor.lineOffset n
  position : x.event.resyncs = true → x.answer.succeeds = true → x.cursor.position = y.cursor.position

theorem MovesAlike.agrees {s : Scene} {e : Event} {p q : Nat} (h : s.MovesAlike e p q) :
    Entry.Agrees ⟨e, (s.pointedTo p).answer e, ((s.pointedTo p).step e).cursor⟩
      ⟨e, s.answer e, (s.step e).cursor⟩ := by
  rw [h.answer, h.step]
  exact ⟨rfl, rfl, rfl, rfl, rfl, rfl, rfl, fun _ => rfl, h.resync⟩

theorem journal_pointedTo (es : List Event) : ∀ (s : Scene) (p : Nat),
    List.Forall₂ Entry.Agrees (((s.pointedTo p).journal es).filter fun x => !x.event.movesPointer)
      (s.journal (es.filter fun e => !e.movesPointer)) := by
  induction es with
  | nil => exact fun _ _ => .nil
  | cons e es ih =>
      intro s p
      cases moves : e.movesPointer with
      | true =>
          obtain ⟨q, step⟩ := step_of_movesPointer moves s p
          rw [journal, List.filter_cons_of_neg (by simp [moves]), List.filter_cons_of_neg (by simp [moves]),
            step]
          exact ih s q
      | false =>
          obtain ⟨q, alike⟩ := movesAlike moves s p
          rw [journal, List.filter_cons_of_pos (by simp [moves]), List.filter_cons_of_pos (by simp [moves]),
            journal]
          refine .cons alike.agrees ?_
          rw [alike.step]
          exact ih (s.step e) q

/-- **The virtual pointer never influences reading.**  However the pointer is moved between the events of a
run, every other event is answered as without the moves, with the same cursor behind it, records and
offsets of lines included; and behind a successful open, read or rewind the virtual position is the same as
well. -/
theorem journal_without_pointer (s : Scene) (es : List Event) :
    List.Forall₂ Entry.Agrees ((s.journal es).filter fun x => !x.event.movesPointer)
      (s.journal (es.filter fun e => !e.movesPointer)) :=
  journal_pointedTo es s s.cursor.position

end Scene

end ProjectIndex
