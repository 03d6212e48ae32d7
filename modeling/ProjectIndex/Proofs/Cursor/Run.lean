import ProjectIndex.Cursor
import ProjectIndex.Proofs.Cursor.NextLine

/-!
# Runs of a cursor

A `Scene` is a disk and a cursor.  What happens to it is an `Event`: a call on the cursor, or
something that the cursor has no part in.  The disk may become any other disk at any moment, and the
fetches of the open file may go in any way from any moment on; so a statement about all runs covers
every change of files and every schedule of short and failing reads, and what a particular statement
needs of them it says about the events.

`Scene.Moves` says once what an event can do, reasons for refusals included, and `Scene.moves` that
nothing else happens.  Invariants are proved by cases on it and carried over runs by
`Scene.run_induction`.
-/

namespace ProjectIndex

/-- A call that an open cursor is there for. -/
inductive Use
  | readLine
  | rewind (line : Nat)
  | setPosition (place : Nat)
  | updatePosition (place : Nat)
  | lineOffset (line : Nat)
  deriving DecidableEq, Repr

/-- What may happen to a disk and a cursor. -/
inductive Event
  | openOn (path : Path)
  | use (call : Use)
  | close
  /-- The disk becomes another one. -/
  | change (disk : Disk)
  /-- From now on the fetches of the open file go as said. -/
  | resupply (supply : Supply)

/-- What is heard of an event. -/
inductive Answer
  | done
  | text (line : String)
  /-- The virtual position before. -/
  | position (before : Nat)
  | offset (start : Option Nat)
  | refused (error : CursorError)
  deriving DecidableEq, Repr

namespace Answer

/-- The answer of an operation without a result. -/
def ofUnit : Except CursorError Unit → Answer
  | .ok () => done
  | .error e => refused e

/-- The answer of a read. -/
def ofText : Except CursorError String → Answer
  | .ok s => text s
  | .error e => refused e

end Answer

namespace Cursor

/-- Makes a call. -/
def perform (c : Cursor) (d : Disk) : Use → Answer × Cursor
  | .readLine => (.ofText (c.readLine d).1, (c.readLine d).2)
  | .rewind n => (.ofUnit (c.rewind n).1, (c.rewind n).2)
  | .setPosition p => (.done, c.setPosition p)
  | .updatePosition p => (.position (c.updatePosition p).1, (c.updatePosition p).2)
  | .lineOffset n => (.offset (c.lineOffset n), c)

/-- Lets the fetches of the open file go another way. -/
def resupply (c : Cursor) (supply : Supply) : Cursor :=
  match c.stage with
  | .reading r => { c with stage := .reading { r with supply } }
  | _ => c

theorem lineOffset_eq (c : Cursor) (n : Nat) :
    c.lineOffset n =
      if n ≤ c.lineLengths.length then some (c.lineLengths.take n).sum else none := by
  rw [lineOffset]
  by_cases h : n ≤ c.lineLengths.length
  · rw [if_neg (Nat.not_lt.mpr h), if_pos h]; rfl
  · rw [if_pos (Nat.lt_of_not_le h), if_neg h]

theorem close_of_reading {c : Cursor} {r : Reader} (h : c.stage = .reading r) :
    c.close.value = (.ok (), { c with stage := .finished }) := by
  simp only [close, h]
  cases c.path <;> rfl

theorem readLine_of_ok {c : Cursor} {d : Disk} {r r' : Reader} {line : Bytes}
    (h : c.stage = .reading r) (hn : r.nextLine (d.contents r) = (.ok line, r')) :
    c.readLine d = (.ok (Utf8.lossy line), { c with
      stage := .reading r'
      position := r'.position
      lineLengths := c.lineLengths ++ [line.length]
      lineCount := c.lineCount + 1
      line := Utf8.lossy line }) := by
  simp only [readLine, h, hn]

theorem readLine_of_error {c : Cursor} {d : Disk} {r r' : Reader} {e : IoError}
    (h : c.stage = .reading r) (hn : r.nextLine (d.contents r) = (.error e, r')) :
    c.readLine d = (.error (.io e), { c with stage := .reading r', position := r'.position }) := by
  simp only [readLine, h, hn]

theorem resupply_of_reading {c : Cursor} {r : Reader} (h : c.stage = .reading r) (supply : Supply) :
    c.resupply supply = { c with stage := .reading { r with supply } } := by
  rw [resupply, h]

theorem isOpen_eq_false {c : Cursor} (h : ∀ r, c.stage ≠ .reading r) : c.isOpen = false := by
  unfold isOpen
  split
  · next r hr => exact absurd hr (h r)
  · rfl

theorem isOpen_of_reading {c : Cursor} {r : Reader} (h : c.stage = .reading r) :
    c.isOpen = true := by
  rw [isOpen, h]

end Cursor

/-- A disk and a cursor. -/
structure Scene where
  disk : Disk
  cursor : Cursor

namespace Scene

/-- The answer to an event, and the scene after it. -/
def next (s : Scene) : Event → Answer × Scene
  | .openOn p =>
    (.ofUnit (s.cursor.openOn s.disk p).value.1,
      { s with cursor := (s.cursor.openOn s.disk p).value.2 })
  | .use u => ((s.cursor.perform s.disk u).1, { s with cursor := (s.cursor.perform s.disk u).2 })
  | .close => (.ofUnit s.cursor.close.value.1, { s with cursor := s.cursor.close.value.2 })
  | .change d => (.done, { s with disk := d })
  | .resupply supply => (.done, { s with cursor := s.cursor.resupply supply })

/-- The answer to an event. -/
def answer (s : Scene) (e : Event) : Answer := (s.next e).1

/-- The scene after an event. -/
def step (s : Scene) (e : Event) : Scene := (s.next e).2

/-- The scene after some events. -/
def run (s : Scene) (es : List Event) : Scene := es.foldl step s

/-- The answers to some events, one for each. -/
def answers : Scene → List Event → List Answer
  | _, [] => []
  | s, e :: es => s.answer e :: (s.step e).answers es

@[simp] theorem run_nil (s : Scene) : s.run [] = s := rfl

@[simp] theorem run_cons (s : Scene) (e : Event) (es : List Event) :
    s.run (e :: es) = (s.step e).run es := rfl

theorem run_append (s : Scene) (es fs : List Event) : s.run (es ++ fs) = (s.run es).run fs :=
  List.foldl_append

theorem run_concat (s : Scene) (es : List Event) (e : Event) :
    s.run (es ++ [e]) = (s.run es).step e := s.run_append es [e]

/-- What holds at the start and survives each event holds after every run. -/
theorem run_induction {P : Scene → Prop} (s : Scene) (es : List Event) (start : P s)
    (keeps : ∀ s, ∀ e ∈ es, P s → P (s.step e)) : P (s.run es) := by
  induction es generalizing s with
  | nil => exact start
  | cons e es ih =>
      refine ih (s.step e) (keeps s e List.mem_cons_self start) fun s f hf => ?_
      exact keeps s f (List.mem_cons_of_mem _ hf)

/-! ### What an event does -/

/-- Why a call is refused without any effect. -/
inductive Refuses (s : Scene) : Event → CursorError → Prop
  | alreadyOpen {r : Reader} {p : Path} (h : s.cursor.stage = .reading r) :
    Refuses s (.openOn p) (.alreadyOpen (s.cursor.path.getD ⟨[]⟩))
  | finished {p : Path} (h : s.cursor.stage = .finished) : Refuses s (.openOn p) .finished
  | invalidSource {p : Path} (h : s.cursor.stage = .closed)
    (invalid : s.disk.isFileWith p (some s.cursor.suffix) = false) :
    Refuses s (.openOn p) (.invalidSource p s.cursor.suffix)
  | unopened {p : Path} {e : IoError} (h : s.cursor.stage = .closed)
    (valid : s.disk.isFileWith p (some s.cursor.suffix) = true)
    (failed : s.disk.openFile p = .error e) : Refuses s (.openOn p) (.unopened p e)
  | closeNotOpen (h : s.cursor.isOpen = false) : Refuses s .close .notOpen
  | readNotOpen (h : s.cursor.isOpen = false) : Refuses s (.use .readLine) .notOpen
  | lineOutOfRange {n : Nat} (h : s.cursor.lineLengths.length < n) :
    Refuses s (.use (.rewind n)) (.lineOutOfRange n s.cursor.lineLengths.length)
  | rewindNotOpen {n : Nat} (known : n ≤ s.cursor.lineLengths.length)
    (h : s.cursor.isOpen = false) : Refuses s (.use (.rewind n)) .notOpen

/-- What an event does to the cursor, and the answer to it. -/
inductive Moves (s : Scene) : Event → Answer → Cursor → Prop
  | refuses {e : Event} {error : CursorError} (why : s.Refuses e error) :
    Moves s e (.refused error) s.cursor
  | opens {p : Path} {r : Reader} (h : s.cursor.stage = .closed)
    (valid : s.disk.isFileWith p (some s.cursor.suffix) = true)
    (opened : s.disk.openFile p = .ok r) :
    Moves s (.openOn p) .done ⟨.reading r, s.cursor.suffix, some p, 0, [], 0, ""⟩
  | closes {r : Reader} (h : s.cursor.stage = .reading r) :
    Moves s .close .done { s.cursor with stage := .finished }
  | reads {r r' : Reader} {line : Bytes} (h : s.cursor.stage = .reading r)
    (given : r.GivesLine (s.disk.contents r) line r') :
    Moves s (.use .readLine) (.text (Utf8.lossy line))
      { s.cursor with
        stage := .reading r'
        position := r'.position
        lineLengths := s.cursor.lineLengths ++ [line.length]
        lineCount := s.cursor.lineCount + 1
        line := Utf8.lossy line }
  | stepsBack {r r' : Reader} {e : IoError} (h : s.cursor.stage = .reading r)
    (back : r.StepsBack r') :
    Moves s (.use .readLine) (.refused (.io e))
      { s.cursor with stage := .reading r', position := r'.position }
  | rewinds {r : Reader} {n : Nat} (h : s.cursor.stage = .reading r)
    (known : n ≤ s.cursor.lineLengths.length) :
    Moves s (.use (.rewind n)) .done
      { s.cursor with
        stage := .reading (r.seek (s.cursor.lineLengths.take n).sum)
        position := (s.cursor.lineLengths.take n).sum
        lineLengths := s.cursor.lineLengths.take n
        lineCount := n
        line := "" }
  | sets (p : Nat) : Moves s (.use (.setPosition p)) .done { s.cursor with position := p }
  | updates (p : Nat) :
    Moves s (.use (.updatePosition p)) (.position s.cursor.position)
      { s.cursor with position := p }
  | asks (n : Nat) : Moves s (.use (.lineOffset n)) (.offset (s.cursor.lineOffset n)) s.cursor
  | changes (d : Disk) : Moves s (.change d) .done s.cursor
  | resupplies (supply : Supply) : Moves s (.resupply supply) .done (s.cursor.resupply supply)

theorem moves_openOn (s : Scene) (p : Path) :
    s.Moves (.openOn p) (s.answer (.openOn p)) (s.step (.openOn p)).cursor := by
  simp only [answer, step, next, Cursor.openOn]
  cases h : s.cursor.stage with
  | reading r => exact .refuses (.alreadyOpen h)
  | finished => exact .refuses (.finished h)
  | closed =>
      cases valid : s.disk.isFileWith p (some s.cursor.suffix) with
      | false => exact .refuses (.invalidSource h valid)
      | true =>
          cases opened : s.disk.openFile p with
          | error e => exact .refuses (.unopened h valid opened)
          | ok r => exact .opens h valid opened

theorem moves_close (s : Scene) : s.Moves .close (s.answer .close) (s.step .close).cursor := by
  simp only [answer, step, next]
  cases h : s.cursor.stage with
  | reading r =>
      rw [Cursor.close_of_reading h]
      exact .closes h
  | closed =>
      simp only [Cursor.close, h]
      exact .refuses (.closeNotOpen (Cursor.isOpen_eq_false (by simp [h])))
  | finished =>
      simp only [Cursor.close, h]
      exact .refuses (.closeNotOpen (Cursor.isOpen_eq_false (by simp [h])))

theorem moves_readLine (s : Scene) :
    s.Moves (.use .readLine) (s.answer (.use .readLine)) (s.step (.use .readLine)).cursor := by
  simp only [answer, step, next, Cursor.perform]
  cases h : s.cursor.stage with
  | closed =>
      simp only [Cursor.readLine, h]
      exact .refuses (.readNotOpen (Cursor.isOpen_eq_false (by simp [h])))
  | finished =>
      simp only [Cursor.readLine, h]
      exact .refuses (.readNotOpen (Cursor.isOpen_eq_false (by simp [h])))
  | reading r =>
      generalize hn : r.nextLine (s.disk.contents r) = n
      obtain ⟨_ | line, r'⟩ := n
      · rw [Cursor.readLine_of_error h hn]
        exact .stepsBack h (Reader.nextLine_error hn)
      · rw [Cursor.readLine_of_ok h hn]
        exact .reads h (Reader.nextLine_ok hn)

theorem moves_rewind (s : Scene) (n : Nat) :
    s.Moves (.use (.rewind n)) (s.answer (.use (.rewind n))) (s.step (.use (.rewind n))).cursor := by
  simp only [answer, step, next, Cursor.perform, Cursor.rewind, Cursor.lineOffset_eq]
  by_cases known : n ≤ s.cursor.lineLengths.length
  · simp only [known, if_true]
    cases h : s.cursor.stage with
    | reading r => exact .rewinds h known
    | closed => exact .refuses (.rewindNotOpen known (Cursor.isOpen_eq_false (by simp [h])))
    | finished => exact .refuses (.rewindNotOpen known (Cursor.isOpen_eq_false (by simp [h])))
  · simp only [known, if_false]
    exact .refuses (.lineOutOfRange (Nat.lt_of_not_le known))

/-- **Every event does one of the things that `Moves` lists.** -/
theorem moves (s : Scene) (e : Event) : s.Moves e (s.answer e) (s.step e).cursor := by
  cases e with
  | openOn p => exact s.moves_openOn p
  | close => exact s.moves_close
  | change d => exact .changes d
  | resupply supply => exact .resupplies supply
  | use u =>
      cases u with
      | readLine => exact s.moves_readLine
      | rewind n => exact s.moves_rewind n
      | setPosition p => exact .sets p
      | updatePosition p => exact .updates p
      | lineOffset n => exact .asks n

/-- A cursor that was opened is at the start of the file, its records empty. -/
theorem opens_of_ok {d : Disk} {c c₀ : Cursor} {p : Path}
    (h : (c.openOn d p).value = (.ok (), c₀)) :
    ∃ r, d.openFile p = .ok r ∧ c₀ = ⟨.reading r, c.suffix, some p, 0, [], 0, ""⟩ := by
  have m := (Scene.mk d c).moves (.openOn p)
  simp only [answer, step, next, h, Answer.ofUnit] at m
  cases m with
  | opens _ _ opened => exact ⟨_, opened, rfl⟩

end Scene

/-! ### One file -/

/-- A disk with nothing but the source file `/a.clua`. -/
def Disk.single (contents : Bytes) : Disk :=
  ⟨.directory [(Utf8.encode "a.clua", .file 0)], [⟨contents, none⟩], []⟩

/-- The cursor opened on the file of such a disk. -/
def Cursor.single : Cursor :=
  ⟨.reading ⟨0, 0, [], .full⟩, Names.sourceSuffix, some (.ofString "/a.clua"), 0, [], 0, ""⟩

end ProjectIndex
