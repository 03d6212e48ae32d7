import ProjectIndex.Proofs.Cursor.Run

/-!
# A cursor is a bookmark in a list of lines

On a file that stays as it is, a cursor can be understood without buffers, offsets and seeks: as a
`Bookmark`, a count of the lines taken from the list `cutLines` of the file's contents.  The count
runs over the end of the list, where reads take empty lines; the last text shown and the virtual
position are registers beside it.

`Cursor.Shows` relates a cursor to a bookmark, `Scene.Moves.shows` says that every event moves both
alike, and `run_refines_lines` that no sequence of events tells them apart.  The relation fixes
where the reader stands and that its buffer agrees with the file, but not how much is in the buffer.

That fetches do not fail is needed for one thing only, and so it is a part of its own: a cursor that is
`InPlace` follows its `mark` with every call, but for a read that fails (`Moves.follows_or_failsBack`).
-/

namespace ProjectIndex

/-- A place in a list of lines. -/
structure Bookmark where
  /-- How many lines were taken, which is the number of the next one. -/
  count : Nat
  /-- The text shown last. -/
  line : String
  /-- The virtual position. -/
  position : Nat
  deriving DecidableEq, Repr

namespace Bookmark

/-- The bookmark before the first line. -/
def start : Bookmark := ⟨0, "", 0⟩

/-- Where the line of a number starts, if it was taken or is the next one. -/
def startOf? (lines : List Bytes) (b : Bookmark) (n : Nat) : Option Nat :=
  if n ≤ b.count then some (startOf lines n) else none

/-- What a bookmark answers to a call. -/
def respond (lines : List Bytes) (b : Bookmark) : Use → Answer
  | .readLine => .text (Utf8.lossy (lineAt lines b.count))
  | .rewind n => if n ≤ b.count then .done else .refused (.lineOutOfRange n b.count)
  | .setPosition _ => .done
  | .updatePosition _ => .position b.position
  | .lineOffset n => .offset (b.startOf? lines n)

/-- The bookmark after a call. -/
def advance (lines : List Bytes) (b : Bookmark) : Use → Bookmark
  | .readLine => ⟨b.count + 1, Utf8.lossy (lineAt lines b.count), startOf lines (b.count + 1)⟩
  | .rewind n => if n ≤ b.count then ⟨n, "", startOf lines n⟩ else b
  | .setPosition p => { b with position := p }
  | .updatePosition p => { b with position := p }
  | .lineOffset _ => b

/-- The answer to an event.  Calls alone concern a bookmark. -/
def answer (lines : List Bytes) (b : Bookmark) : Event → Answer
  | .use u => b.respond lines u
  | _ => .done

/-- The bookmark after an event. -/
def step (lines : List Bytes) (b : Bookmark) : Event → Bookmark
  | .use u => b.advance lines u
  | _ => b

/-- The bookmark after some events. -/
def run (lines : List Bytes) (b : Bookmark) (es : List Event) : Bookmark := es.foldl (step lines) b

/-- The answers to some events, one for each. -/
def answers (lines : List Bytes) : Bookmark → List Event → List Answer
  | _, [] => []
  | b, e :: es => b.answer lines e :: answers lines (b.step lines e) es

/-- A bookmark that only reads answers with one line after the other. -/
theorem answers_readLine (lines : List Bytes) (n : Nat) : ∀ b : Bookmark,
    b.answers lines (List.replicate n (.use .readLine)) =
      (List.range' b.count n).map fun i => .text (Utf8.lossy (lineAt lines i)) := by
  induction n with
  | zero => exact fun _ => rfl
  | succ n ih =>
      intro b
      rw [List.replicate_succ, Bookmark.answers, ih, List.range'_succ]
      rfl

end Bookmark

/-- The event is a call on the open cursor, or it leaves the contents of the file as they are and its
fetches without failures. -/
def Event.Spares (file : Nat) (contents : Bytes) : Event → Prop
  | .use _ => True
  | .change d => (d.fileData file).bytes = contents
  | .resupply supply => supply.NeverFails
  | .openOn _ => False
  | .close => False

/-- The lengths of the first lines. -/
def lengthsTo (lines : List Bytes) (k : Nat) : List Nat :=
  (List.range k).map fun i => (lineAt lines i).length

@[simp] theorem length_lengthsTo (lines : List Bytes) (k : Nat) :
    (lengthsTo lines k).length = k := by
  simp [lengthsTo]

theorem lengthsTo_succ (lines : List Bytes) (k : Nat) :
    lengthsTo lines (k + 1) = lengthsTo lines k ++ [(lineAt lines k).length] := by
  simp [lengthsTo, List.range_succ]

theorem take_lengthsTo {lines : List Bytes} {n k : Nat} (h : n ≤ k) :
    (lengthsTo lines k).take n = lengthsTo lines n := by
  rw [lengthsTo, ← List.map_take, List.take_range, Nat.min_eq_left h, lengthsTo]

theorem sum_lengthsTo (lines : List Bytes) (k : Nat) : (lengthsTo lines k).sum = startOf lines k :=
  rfl

/-- The bookmark of a cursor. -/
def Cursor.mark (c : Cursor) : Bookmark := ⟨c.lineCount, c.line, c.position⟩

/-- No fetch from the open file fails. -/
def Cursor.NeverFails (c : Cursor) : Prop := ∀ r, c.stage = .reading r → r.supply.NeverFails

theorem Cursor.mark_resupply (c : Cursor) (supply : Supply) : (c.resupply supply).mark = c.mark := by
  unfold resupply
  cases c.stage <;> rfl

theorem Cursor.neverFails_resupply (c : Cursor) {supply : Supply} (h : supply.NeverFails) :
    (c.resupply supply).NeverFails := by
  intro r hr
  unfold resupply at hr
  split at hr
  · obtain rfl := Stage.reading.inj hr
    exact h
  · next closed => exact absurd hr (closed r)

/-- The first lines of the contents are on record, and the reader stands at the start of the next one, its
buffer in step with the contents. -/
structure Cursor.InPlace (file : Nat) (contents : Bytes) (c : Cursor) : Prop where
  reader : ∃ r, c.stage = .reading r ∧ r.file = file ∧ r.InStep contents ∧
    r.position = startOf (cutLines contents) c.lineCount
  lengths : c.lineLengths = lengthsTo (cutLines contents) c.lineCount

/-- The cursor shows the bookmark in the lines of the contents. -/
structure Cursor.Shows (file : Nat) (contents : Bytes) (b : Bookmark) (c : Cursor) : Prop where
  reader : ∃ r, c.stage = .reading r ∧ r.file = file ∧ r.supply.NeverFails ∧ r.InStep contents ∧
    r.position = startOf (cutLines contents) b.count
  count : c.lineCount = b.count
  lengths : c.lineLengths = lengthsTo (cutLines contents) b.count
  line : c.line = b.line
  position : c.position = b.position

namespace Cursor

variable {file : Nat} {contents : Bytes} {b : Bookmark} {c : Cursor}

/-- To show a bookmark is to have it, to be in place and not to fail. -/
theorem shows_iff :
    c.Shows file contents b ↔ c.mark = b ∧ c.InPlace file contents ∧ c.NeverFails := by
  constructor
  · rintro ⟨⟨r, hr, hfile, sound, inStep, stands⟩, count, lengths, line, position⟩
    obtain rfl : c.mark = b := by rw [mark, count, line, position]
    refine ⟨rfl, ⟨⟨r, hr, hfile, inStep, stands⟩, lengths⟩, fun r' hr' => ?_⟩
    obtain rfl := Stage.reading.inj (hr.symm.trans hr')
    exact sound
  · rintro ⟨rfl, ⟨⟨r, hr, hfile, inStep, stands⟩, lengths⟩, sound⟩
    exact ⟨⟨r, hr, hfile, sound r hr, inStep, stands⟩, rfl, lengths, rfl, rfl⟩

namespace InPlace

theorem lineOffset (h : c.InPlace file contents) (n : Nat) :
    c.lineOffset n = c.mark.startOf? (cutLines contents) n := by
  rw [lineOffset_eq, h.lengths, length_lengthsTo, Bookmark.startOf?]
  change (if n ≤ c.lineCount then _ else _) = if n ≤ c.lineCount then _ else _
  split
  · next known => rw [take_lengthsTo known, sum_lengthsTo]
  · rfl

/-- A line given is the next one. -/
theorem read {r r' : Reader} {line : Bytes} (h : c.InPlace file contents) (hr : c.stage = .reading r)
    (given : r.GivesLine contents line r') :
    line = lineAt (cutLines contents) c.lineCount ∧
      r'.position = startOf (cutLines contents) (c.lineCount + 1) ∧
      InPlace file contents
        { c with
          stage := .reading r'
          position := r'.position
          lineLengths := c.lineLengths ++ [line.length]
          lineCount := c.lineCount + 1
          line := Utf8.lossy line } := by
  obtain ⟨r₀, hr₀, hfile, inStep, stands⟩ := h.reader
  obtain rfl := Stage.reading.inj (hr₀.symm.trans hr)
  have split := given.split_drop inStep
  rw [stands, splitLine_drop_startOf, Prod.mk.injEq] at split
  obtain ⟨rfl, -⟩ := split
  have position : r'.position = startOf (cutLines contents) (c.lineCount + 1) := by
    rw [given.position inStep.length_le, stands, startOf_succ]
  refine ⟨rfl, position, ⟨r', rfl, given.file.trans hfile, given.inStep inStep, position⟩, ?_⟩
  simp only [h.lengths, lengthsTo_succ]

/-- A reader that stepped back stands at the start of the line it was to give. -/
theorem back {r r' : Reader} (h : c.InPlace file contents) (hr : c.stage = .reading r)
    (back : r.StepsBack r') :
    r'.file = file ∧ r'.position = startOf (cutLines contents) c.lineCount ∧
      InPlace file contents { c with stage := .reading r', position := r'.position } := by
  obtain ⟨r₀, hr₀, hfile, inStep, stands⟩ := h.reader
  obtain rfl := Stage.reading.inj (hr₀.symm.trans hr)
  have position := back.position.trans stands
  exact ⟨back.file.trans hfile, position,
    ⟨r', rfl, back.file.trans hfile, back.inStep inStep, position⟩, h.lengths⟩

/-- A rewind to a known line goes back to its start. -/
theorem rewind {r : Reader} {n : Nat} (h : c.InPlace file contents) (hr : c.stage = .reading r)
    (known : n ≤ c.lineCount) :
    (c.lineLengths.take n).sum = startOf (cutLines contents) n ∧
      InPlace file contents
        { c with
          stage := .reading (r.seek (c.lineLengths.take n).sum)
          position := (c.lineLengths.take n).sum
          lineLengths := c.lineLengths.take n
          lineCount := n
          line := "" } := by
  obtain ⟨r₀, hr₀, hfile, -, -⟩ := h.reader
  obtain rfl := Stage.reading.inj (hr₀.symm.trans hr)
  have lengths : c.lineLengths.take n = lengthsTo (cutLines contents) n := by
    rw [h.lengths, take_lengthsTo known]
  rw [lengths, sum_lengthsTo]
  exact ⟨rfl, ⟨_, rfl, hfile, r₀.inStep_seek (startOf_le_length contents n), rfl⟩, rfl⟩

/-- How the fetches go has no part in the place. -/
theorem resupply (h : c.InPlace file contents) (supply : Supply) :
    (c.resupply supply).InPlace file contents := by
  obtain ⟨⟨r, hr, hfile, inStep, stands⟩, lengths⟩ := h
  rw [resupply_of_reading hr]
  exact ⟨⟨_, rfl, hfile, ⟨inStep.offset_le, inStep.length_le, inStep.ahead⟩, stands⟩, lengths⟩

end InPlace

theorem Shows.lineOffset (h : c.Shows file contents b) (n : Nat) :
    c.lineOffset n = b.startOf? (cutLines contents) n := by
  obtain ⟨rfl, inPlace, -⟩ := shows_iff.mp h
  exact inPlace.lineOffset n

end Cursor

namespace Scene

variable {s : Scene} {e : Event} {u : Use} {a : Answer} {c : Cursor} {file : Nat} {contents : Bytes}
  {b : Bookmark}

/-- A call was answered as the bookmark answers it, and moved the cursor as it moves the bookmark. -/
structure Follows (file : Nat) (contents : Bytes) (s : Scene) (u : Use) (a : Answer) (c : Cursor) :
    Prop where
  answer : a = s.cursor.mark.respond (cutLines contents) u
  mark : c.mark = s.cursor.mark.advance (cutLines contents) u
  inPlace : c.InPlace file contents
  path : c.path = s.cursor.path
  sound : s.cursor.NeverFails → c.NeverFails

/-- A read failed, and left the reader where its line starts with nothing in the buffer, the virtual
position with it and all else as it was. -/
structure FailsBack (file : Nat) (contents : Bytes) (s : Scene) (u : Use) (a : Answer) (c : Cursor) :
    Prop where
  call : u = .readLine
  answer : ∃ error, a = .refused (.io error)
  cursor : ∃ r, c = { s.cursor with
      stage := .reading r
      position := startOf (cutLines contents) s.cursor.lineCount } ∧
    r.file = file ∧ r.offset = startOf (cutLines contents) s.cursor.lineCount ∧ r.buffer = []
  inPlace : c.InPlace file contents
  mayFail : ¬ s.cursor.NeverFails

/-- **A call in place follows the bookmark, but for reads that fail.** -/
theorem Moves.follows_or_failsBack (m : s.Moves (.use u) a c)
    (same : (s.disk.fileData file).bytes = contents) (h : s.cursor.InPlace file contents) :
    s.Follows file contents u a c ∨ s.FailsBack file contents u a c := by
  obtain ⟨r, hr, rfl, inStep, stands⟩ := h.reader
  have isOpen := Cursor.isOpen_of_reading hr
  have length : s.cursor.lineLengths.length = s.cursor.mark.count := by
    rw [h.lengths, length_lengthsTo]
    rfl
  cases m with
  | refuses why =>
      -- An open cursor refuses nothing but going back to a line that was not read.
      cases why with
      | readNotOpen closed => simp [isOpen] at closed
      | rewindNotOpen _ closed => simp [isOpen] at closed
      | lineOutOfRange beyond =>
          rw [length] at beyond ⊢
          have unknown := Nat.not_le.mpr beyond
          refine .inl ⟨?_, ?_, h, rfl, id⟩
          · rw [Bookmark.respond, if_neg unknown]
          · rw [Bookmark.advance, if_neg unknown]
  | reads hr₀ given =>
      obtain rfl := Stage.reading.inj (hr₀.symm.trans hr)
      subst same
      obtain ⟨line, position, after⟩ := h.read hr given
      refine .inl ⟨by rw [line]; rfl, ?_, after, rfl, fun sound r' hr' => ?_⟩
      · rw [Cursor.mark, position, line]
        rfl
      · obtain rfl := Stage.reading.inj hr'
        exact given.supply (sound _ hr)
  | stepsBack hr₀ back =>
      obtain rfl := Stage.reading.inj (hr₀.symm.trans hr)
      obtain ⟨hfile, position, after⟩ := h.back hr back
      rw [position] at after ⊢
      refine .inr ⟨rfl, ⟨_, rfl⟩, ⟨_, rfl, hfile, ?_, back.buffer⟩, after, fun sound => ?_⟩
      · rw [back.offset, ← back.position, position]
      · exact back.mayFail (sound _ hr)
  | rewinds hr₀ known =>
      obtain rfl := Stage.reading.inj (hr₀.symm.trans hr)
      rw [length] at known
      obtain ⟨place, after⟩ := h.rewind hr known
      refine .inl ⟨?_, ?_, after, rfl, fun sound r' hr' => ?_⟩
      · rw [Bookmark.respond, if_pos known]
      · rw [Bookmark.advance, if_pos known, Cursor.mark, place]
      · have fetches := sound _ hr
        obtain rfl := Stage.reading.inj hr'
        exact fetches
  | sets p => exact .inl ⟨rfl, rfl, ⟨⟨r, hr, rfl, inStep, stands⟩, h.lengths⟩, rfl, id⟩
  | updates p => exact .inl ⟨rfl, rfl, ⟨⟨r, hr, rfl, inStep, stands⟩, h.lengths⟩, rfl, id⟩
  | asks n => exact .inl ⟨by rw [h.lineOffset]; rfl, rfl, h, rfl, id⟩

/-- **An event moves cursor and bookmark alike, and both answer alike.** -/
theorem Moves.shows (m : s.Moves e a c) (spares : e.Spares file contents)
    (same : (s.disk.fileData file).bytes = contents) (h : s.cursor.Shows file contents b) :
    a = b.answer (cutLines contents) e ∧ c.Shows file contents (b.step (cutLines contents) e) := by
  obtain ⟨rfl, inPlace, sound⟩ := Cursor.shows_iff.mp h
  cases e with
  | openOn p => exact spares.elim
  | close => exact spares.elim
  | use u =>
      obtain follows | failed := m.follows_or_failsBack same inPlace
      · exact ⟨follows.answer, Cursor.shows_iff.mpr ⟨follows.mark, follows.inPlace, follows.sound sound⟩⟩
      · exact absurd sound failed.mayFail
  | change d =>
      cases m with
      | refuses why => cases why
      | changes d => exact ⟨rfl, h⟩
  | resupply supply =>
      cases m with
      | refuses why => cases why
      | resupplies supply =>
          exact ⟨rfl, Cursor.shows_iff.mpr ⟨s.cursor.mark_resupply supply, inPlace.resupply supply,
            s.cursor.neverFails_resupply spares⟩⟩

/-- An event that spares the file leaves its contents as they are. -/
theorem contents_step (spares : e.Spares file contents)
    (same : (s.disk.fileData file).bytes = contents) :
    ((s.step e).disk.fileData file).bytes = contents := by
  cases e with
  | change d => exact spares
  | openOn p => exact same
  | use u => exact same
  | close => exact same
  | resupply supply => exact same

theorem run_shows (es : List Event) :
    ∀ {s : Scene} {b : Bookmark}, (∀ e ∈ es, e.Spares file contents) →
      (s.disk.fileData file).bytes = contents → s.cursor.Shows file contents b →
        s.answers es = b.answers (cutLines contents) es ∧
          (s.run es).cursor.Shows file contents (b.run (cutLines contents) es) := by
  induction es with
  | nil => exact fun _ _ h => ⟨rfl, h⟩
  | cons e es ih =>
      intro s b spares same h
      have first := spares e List.mem_cons_self
      obtain ⟨answer, after⟩ := (s.moves e).shows first same h
      obtain ⟨answers, shows⟩ := ih (fun f hf => spares f (List.mem_cons_of_mem _ hf))
        (contents_step first same) after
      exact ⟨by rw [Scene.answers, Bookmark.answers, answer, answers], shows⟩

/-- A cursor just opened is in place at the start. -/
theorem inPlace_opened {d : Disk} {c c₀ : Cursor} {p : Path} {r : Reader}
    (opened : (c.openOn d p).value = (.ok (), c₀)) (reading : c₀.stage = .reading r) :
    c₀.mark = .start ∧ c₀.InPlace r.file (d.contents r) := by
  obtain ⟨r₀, hr₀, rfl⟩ := opens_of_ok opened
  obtain rfl := Stage.reading.inj reading
  obtain ⟨-, offset, buffer, -⟩ := Disk.openFile_ok hr₀
  exact ⟨rfl, ⟨r₀, rfl, rfl, Reader.inStep_of_start offset buffer _,
    Reader.position_of_start offset buffer⟩, rfl⟩

/-- A cursor just opened on a file that can be read shows the start. -/
theorem shows_opened {d : Disk} {c c₀ : Cursor} {p : Path} {r : Reader}
    (opened : (c.openOn d p).value = (.ok (), c₀)) (reading : c₀.stage = .reading r)
    (readable : (d.fileData r.file).failure = none) :
    c₀.Shows r.file (d.contents r) .start := by
  obtain ⟨start, inPlace⟩ := inPlace_opened opened reading
  refine Cursor.shows_iff.mpr ⟨start, inPlace, fun r' hr' => ?_⟩
  obtain ⟨r₀, hr₀, rfl⟩ := opens_of_ok opened
  obtain rfl := Stage.reading.inj reading
  obtain rfl := Stage.reading.inj hr'
  obtain ⟨-, -, -, sound⟩ := Disk.openFile_ok hr₀
  exact sound readable

/-- **A cursor refines a list of lines.**  Once it was opened on a file that can be read, and as long
as the contents of that file stay as they are and its fetches do not fail, a cursor answers every
call as a bookmark in the lines of the contents does, and shows at every point what the bookmark
shows. -/
theorem run_refines_lines {d : Disk} {c c₀ : Cursor} {p : Path} {r : Reader} {es : List Event}
    (opened : (c.openOn d p).value = (.ok (), c₀)) (reading : c₀.stage = .reading r)
    (readable : (d.fileData r.file).failure = none)
    (spares : ∀ e ∈ es, e.Spares r.file (d.contents r)) :
    let lines := cutLines (d.contents r)
    let b := Bookmark.start.run lines es
    let s := Scene.run ⟨d, c₀⟩ es
    Scene.answers ⟨d, c₀⟩ es = Bookmark.start.answers lines es ∧
      s.cursor.isOpen = true ∧
      s.cursor.lineCount = b.count ∧
      s.cursor.lineLengths = (List.range b.count).map (fun i => (lineAt lines i).length) ∧
      (∀ n, s.cursor.lineOffset n = if n ≤ b.count then some (startOf lines n) else none) ∧
      s.cursor.line = b.line ∧ s.cursor.position = b.position := by
  intro lines b s
  obtain ⟨answers, shows⟩ := run_shows (s := ⟨d, c₀⟩) es spares rfl
    (shows_opened opened reading readable)
  obtain ⟨r', hr', -⟩ := shows.reader
  exact ⟨answers, Cursor.isOpen_of_reading hr', shows.count, shows.lengths, shows.lineOffset,
    shows.line, shows.position⟩

/-- A file with a blank line, a byte that is no text and no line feed at the end, read in portions of
one byte, over its end and again from a line in the middle, its name being removed in between. -/
theorem run_refines_lines_single :
    let d := Disk.single [0x61, 0x0A, 0x0A, 0xFF, 0x62]
    let es : List Event :=
      [.use .readLine, .resupply ⟨[], .upTo 0⟩, .use .readLine, .use .readLine, .use .readLine,
        .use .readLine, .use (.rewind 2), .use (.setPosition 7), .use (.lineOffset 3),
        .change { d with root := .directory [] }, .use .readLine, .use (.rewind 9),
        .use (.updatePosition 0)]
    (Cursor.new.openOn d (.ofString "/a.clua")).value = (.ok (), .single) ∧
      Scene.answers ⟨d, .single⟩ es =
        [.text "a\n", .done, .text "\n", .text "\uFFFDb", .text "", .text "", .done, .done,
          .offset none, .done, .text "\uFFFDb", .refused (.lineOutOfRange 9 3), .position 5] ∧
      (Scene.run ⟨d, .single⟩ es).cursor.lineLengths = [2, 1, 2] := by
  intro d es
  have opened : (Cursor.new.openOn d (.ofString "/a.clua")).value = (.ok (), .single) := rfl
  have spares : ∀ e ∈ es, e.Spares 0 (d.fileData 0).bytes := by
    have steady : Supply.NeverFails ⟨[], .upTo 0⟩ := ⟨nofun, trivial⟩
    simp [es, Event.Spares, Disk.fileData, steady]
  have refines := run_refines_lines opened rfl rfl spares
  exact ⟨opened, refines.1.trans rfl, refines.2.2.2.1.trans rfl⟩

end Scene

end ProjectIndex
