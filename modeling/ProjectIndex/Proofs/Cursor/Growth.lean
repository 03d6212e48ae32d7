import ProjectIndex.Disk.Change
import ProjectIndex.Proofs.Cursor.Run

/-!
# Reading a file that grows

While a file only grows, the lines on record are pieces of it: laid end to end they are the bytes
before the position, and growth adds behind them.  `Cursor.Holds` says so of a cursor and a list of
pieces.  Bytes that wait in the buffer are no exception, because the buffer stays in step with a
growing file (`Reader.InStep.append`); a file that shrinks or is overwritten would break exactly
this.

A piece is not always a line of the file as it is now: a last line read before its line feed was
written stays one piece, and its rest becomes the next one.
-/

namespace ProjectIndex

/-- Every change of the disk leaves what the file holds and may add bytes behind it. -/
def Disk.Grows (file : Nat) : Disk → List Event → Prop
  | _, [] => True
  | d, .change d' :: es => (d.fileData file).bytes <+: (d'.fileData file).bytes ∧ Grows file d' es
  | d, .openOn _ :: es => Grows file d es
  | d, .use _ :: es => Grows file d es
  | d, .close :: es => Grows file d es
  | d, .resupply _ :: es => Grows file d es

/-- Adding bytes at the end of any file is growth of every file. -/
theorem Disk.contents_prefix_of_appendFile {d d' : Disk} {p : Path} {more : Bytes}
    (h : d.appendFile p more = .ok d') (file : Nat) :
    (d.fileData file).bytes <+: (d'.fileData file).bytes := by
  cases hres : d.resolve p with
  | error e =>
      rw [appendFile, hres] at h
      exact absurd h (by simp [bind, Except.bind])
  | ok found =>
      obtain ⟨names, t⟩ := found
      rw [appendFile, hres] at h
      cases t with
      | directory children => exact absurd h (by simp [bind, Except.bind])
      | link target => exact absurd h (by simp [bind, Except.bind])
      | special => exact absurd h (by simp [bind, Except.bind])
      | file id =>
          obtain rfl := Except.ok.inj h
          simp only [fileData, List.getElem?_set]
          split
          · next same =>
              split
              · next there =>
                  rw [same]
                  exact List.prefix_append _ _
              · next missing =>
                  rw [same] at missing
                  simp only [List.getElem?_eq_none (Nat.le_of_not_lt missing), List.prefix_rfl]
          · exact List.prefix_rfl

/-- The texts of the lines on record after an event was answered. -/
def record (texts : List String) : Event → Answer → List String
  | .use .readLine, .text line => texts ++ [line]
  | .use (.rewind n), .done => texts.take n
  | _, _ => texts

/-- The texts of the lines on record after some events. -/
def Scene.recorded : Scene → List String → List Event → List String
  | _, texts, [] => texts
  | s, texts, e :: es => (s.step e).recorded (record texts e (s.answer e)) es

/-- The lines on record are the pieces, and the pieces are what lies before the position. -/
structure Cursor.Holds (file : Nat) (contents : Bytes) (pieces : List Bytes) (c : Cursor) : Prop where
  opened : c.stage ≠ .closed
  count : c.lineCount = pieces.length
  lengths : c.lineLengths = pieces.map List.length
  laid : pieces.flatten <+: contents
  cut : ∀ piece ∈ pieces, lineFeed ∉ piece.dropLast
  reader : ∀ r, c.stage = .reading r →
    r.file = file ∧ r.InStep contents ∧ r.position = pieces.flatten.length

namespace Cursor.Holds

variable {file : Nat} {contents : Bytes} {pieces : List Bytes} {c : Cursor}

/-- Growth of the file changes nothing on record. -/
theorem grow (h : c.Holds file contents pieces) {contents' : Bytes} (more : contents <+: contents') :
    c.Holds file contents' pieces := by
  obtain ⟨behind, rfl⟩ := more
  refine ⟨h.opened, h.count, h.lengths, h.laid.trans (List.prefix_append _ _), h.cut, fun r hr => ?_⟩
  obtain ⟨hfile, inStep, stands⟩ := h.reader r hr
  exact ⟨hfile, inStep.append behind, stands⟩

/-- A line given from the position on is the next piece. -/
theorem read {r r' : Reader} {line : Bytes} (h : c.Holds file contents pieces)
    (hr : c.stage = .reading r) (given : r.GivesLine contents line r') :
    Cursor.Holds file contents (pieces ++ [line])
      { c with
        stage := .reading r'
        position := r'.position
        lineLengths := c.lineLengths ++ [line.length]
        lineCount := c.lineCount + 1
        line := Utf8.lossy line } := by
  obtain ⟨hfile, inStep, stands⟩ := h.reader r hr
  have split := given.split_drop inStep
  have position := given.position inStep.length_le
  refine ⟨nofun, by simp [h.count], by simp [h.lengths], ?_, fun piece hp => ?_, fun r₁ hr₁ => ?_⟩
  -- The reader stands where the pieces end, so the line joins them without a gap.
  · have behind := Reader.splitLine_append (contents.drop r.position)
    simp only [split] at behind
    refine ⟨contents.drop r'.position, ?_⟩
    rw [List.flatten_append, List.flatten_singleton, List.append_assoc, behind, stands]
    exact List.prefix_iff_eq_append.mp h.laid
  · rcases List.mem_append.mp hp with old | new
    · exact h.cut piece old
    · rw [List.mem_singleton.mp new]
      have cut := Reader.lineFeed_notMem_dropLast_splitLine (contents.drop r.position)
      rwa [split] at cut
  · obtain rfl := Stage.reading.inj hr₁
    refine ⟨given.file.trans hfile, given.inStep inStep, ?_⟩
    simp [position, stands]

/-- After a rewind the first pieces are left. -/
theorem rewind {r : Reader} {n : Nat} (h : c.Holds file contents pieces)
    (hr : c.stage = .reading r) (known : n ≤ c.lineLengths.length) :
    Cursor.Holds file contents (pieces.take n)
      { c with
        stage := .reading (r.seek (c.lineLengths.take n).sum)
        position := (c.lineLengths.take n).sum
        lineLengths := c.lineLengths.take n
        lineCount := n
        line := "" } := by
  obtain ⟨hfile, -, -⟩ := h.reader r hr
  have sum : (c.lineLengths.take n).sum = (pieces.take n).flatten.length := by
    rw [h.lengths, ← List.map_take, List.length_flatten]
  have laid : (pieces.take n).flatten <+: contents := by
    refine List.IsPrefix.trans ⟨(pieces.drop n).flatten, ?_⟩ h.laid
    rw [← List.flatten_append, List.take_append_drop]
  refine ⟨nofun, ?_, by simp [h.lengths], laid, fun piece hp => h.cut piece (List.mem_of_mem_take hp),
    fun r₁ hr₁ => ?_⟩
  · rw [h.lengths, List.length_map] at known
    simp [known]
  · obtain rfl := Stage.reading.inj hr₁
    rw [sum]
    exact ⟨hfile, r.inStep_seek laid.length_le, rfl⟩

theorem lineOffset (h : c.Holds file contents pieces) {i : Nat} (hi : i ≤ pieces.length) :
    c.lineOffset i = some (pieces.take i).flatten.length := by
  rw [lineOffset_eq, h.lengths, List.length_map, if_pos hi, ← List.map_take, List.length_flatten]

theorem start_succ {pieces : List Bytes} {i : Nat} (hi : i < pieces.length) :
    (pieces.take (i + 1)).flatten.length =
      (pieces.take i).flatten.length + pieces[i].length := by
  rw [List.take_succ_eq_append_getElem hi, List.flatten_append, List.flatten_singleton,
    List.length_append]

/-- Between the starts of a line and of the next one lies the piece of that line. -/
theorem extract (h : c.Holds file contents pieces) {i : Nat} (hi : i < pieces.length) :
    contents.extract (pieces.take i).flatten.length (pieces.take (i + 1)).flatten.length =
      pieces[i] := by
  obtain ⟨behind, hb⟩ := h.laid
  have laid : contents = (pieces.take i).flatten ++
      (pieces[i] ++ ((pieces.drop (i + 1)).flatten ++ behind)) :=
    calc contents = (pieces.take i ++ pieces.drop i).flatten ++ behind := by
          rw [List.take_append_drop, hb]
      _ = _ := by
          rw [List.drop_eq_getElem_cons hi, List.flatten_append, List.flatten_cons,
            List.append_assoc, List.append_assoc]
  rw [List.extract_eq_take_drop, start_succ hi, Nat.add_sub_cancel_left, laid, List.drop_left,
    List.take_left]

end Cursor.Holds

namespace Scene

variable {s : Scene} {e : Event} {a : Answer} {c : Cursor} {file : Nat} {contents : Bytes}
  {pieces : List Bytes}

/-- **Whatever an event does, the lines on record stay pieces of the file, end to end.** -/
theorem Moves.holds (m : s.Moves e a c) (same : (s.disk.fileData file).bytes = contents)
    (h : s.cursor.Holds file contents pieces) :
    ∃ pieces', record (pieces.map Utf8.lossy) e a = pieces'.map Utf8.lossy ∧
      c.Holds file contents pieces' := by
  cases m with
  | refuses why => exact ⟨pieces, by cases why <;> rfl, h⟩
  | opens hs valid opened => exact absurd hs h.opened
  | closes hs => exact ⟨pieces, rfl, nofun, h.count, h.lengths, h.laid, h.cut, nofun⟩
  | reads hs given =>
      obtain ⟨rfl, -⟩ := h.reader _ hs
      subst same
      exact ⟨_, by simp [record], h.read hs given⟩
  | stepsBack hs back =>
      obtain ⟨hfile, inStep, stands⟩ := h.reader _ hs
      refine ⟨pieces, rfl, nofun, h.count, h.lengths, h.laid, h.cut, fun r hr => ?_⟩
      obtain rfl := Stage.reading.inj hr
      exact ⟨back.file.trans hfile, back.inStep inStep, back.position.trans stands⟩
  | rewinds hs known => exact ⟨_, by simp [record, List.map_take], h.rewind hs known⟩
  | sets p => exact ⟨pieces, rfl, h.opened, h.count, h.lengths, h.laid, h.cut, h.reader⟩
  | updates p => exact ⟨pieces, rfl, h.opened, h.count, h.lengths, h.laid, h.cut, h.reader⟩
  | asks n => exact ⟨pieces, rfl, h⟩
  | changes d => exact ⟨pieces, rfl, h⟩
  | resupplies supply =>
      refine ⟨pieces, rfl, ?_⟩
      unfold Cursor.resupply
      cases hs : s.cursor.stage with
      | closed => exact h
      | finished => exact h
      | reading r =>
          obtain ⟨hfile, inStep, stands⟩ := h.reader r hs
          refine ⟨nofun, h.count, h.lengths, h.laid, h.cut, fun r' hr' => ?_⟩
          obtain rfl := Stage.reading.inj hr'
          exact ⟨hfile, ⟨inStep.offset_le, inStep.length_le, inStep.ahead⟩, stands⟩

/-- Growth spoken of one event at a time. -/
theorem grows_cons {d : Disk} {es : List Event} (h : d.Grows file (e :: es)) (c : Cursor) :
    (d.fileData file).bytes <+: (((Scene.mk d c).step e).disk.fileData file).bytes ∧
      ((Scene.mk d c).step e).disk.Grows file es := by
  cases e with
  | change d' => exact h
  | openOn p => exact ⟨List.prefix_rfl, h⟩
  | use u => exact ⟨List.prefix_rfl, h⟩
  | close => exact ⟨List.prefix_rfl, h⟩
  | resupply supply => exact ⟨List.prefix_rfl, h⟩

theorem run_holds (es : List Event) :
    ∀ {s : Scene} {pieces : List Bytes}, s.disk.Grows file es →
      s.cursor.Holds file (s.disk.fileData file).bytes pieces →
        ∃ pieces', s.recorded (pieces.map Utf8.lossy) es = pieces'.map Utf8.lossy ∧
          (s.run es).cursor.Holds file ((s.run es).disk.fileData file).bytes pieces' := by
  induction es with
  | nil => exact fun {_ pieces} _ h => ⟨pieces, rfl, h⟩
  | cons e es ih =>
      intro s pieces grows h
      obtain ⟨more, rest⟩ := grows_cons grows s.cursor
      obtain ⟨pieces₁, texts, after⟩ := (s.moves e).holds rfl h
      rw [recorded, texts]
      exact ih rest (after.grow more)

/-- A cursor just opened has nothing on record. -/
theorem holds_opened {d : Disk} {c c₀ : Cursor} {p : Path} {r : Reader}
    (opened : (c.openOn d p).value = (.ok (), c₀)) (reading : c₀.stage = .reading r) :
    c₀.Holds r.file (d.fileData r.file).bytes [] := by
  obtain ⟨r₀, hr₀, rfl⟩ := opens_of_ok opened
  obtain rfl := Stage.reading.inj reading
  obtain ⟨-, offset, buffer, -⟩ := Disk.openFile_ok hr₀
  refine ⟨nofun, rfl, rfl, List.nil_prefix, nofun, fun r hr => ?_⟩
  obtain rfl := Stage.reading.inj hr
  exact ⟨rfl, Reader.inStep_of_start offset buffer _, Reader.position_of_start offset buffer⟩

/-- **Reading a growing file loses and repeats nothing.**  Let a cursor be opened and then used in any
way while the file only grows, reads failing or not.  The starts of the lines on record begin at zero,
never go back and never leave the file; between two of them lies what the read of that line gave,
with a line feed at its end or nowhere; and what all of them gave is, end to end, what the file holds
up to the start of the next line. -/
theorem run_reads_growing_file {d : Disk} {c c₀ : Cursor} {p : Path} {r : Reader} {es : List Event}
    (opened : (c.openOn d p).value = (.ok (), c₀)) (reading : c₀.stage = .reading r)
    (grows : d.Grows r.file es) :
    let s := Scene.run ⟨d, c₀⟩ es
    let contents := (s.disk.fileData r.file).bytes
    let texts := Scene.recorded ⟨d, c₀⟩ [] es
    let start := fun i => (s.cursor.lineOffset i).getD 0
    let slice := fun i => contents.extract (start i) (start (i + 1))
    texts.length = s.cursor.lineCount ∧
      (∀ i ≤ s.cursor.lineCount, s.cursor.lineOffset i = some (start i)) ∧
      start 0 = 0 ∧
      (∀ i < s.cursor.lineCount, start i ≤ start (i + 1)) ∧
      start s.cursor.lineCount ≤ contents.length ∧
      (∀ i < s.cursor.lineCount,
        texts[i]? = some (Utf8.lossy (slice i)) ∧ lineFeed ∉ (slice i).dropLast) ∧
      ((List.range s.cursor.lineCount).map slice).flatten =
        contents.take (start s.cursor.lineCount) := by
  intro s contents texts start slice
  obtain ⟨pieces, recorded, h⟩ := run_holds es (s := ⟨d, c₀⟩) grows (holds_opened opened reading)
  have known : ∀ i ≤ pieces.length, start i = (pieces.take i).flatten.length := fun i hi => by
    simp only [start, s, h.lineOffset hi, Option.getD_some]
  have sliced : ∀ i (hi : i < pieces.length), slice i = pieces[i] := fun i hi => by
    simp only [slice]
    rw [known i (Nat.le_of_lt hi), known (i + 1) hi]
    exact h.extract hi
  have stop : start pieces.length = pieces.flatten.length := by
    rw [known _ (Nat.le_refl _), List.take_length]
  have count : s.cursor.lineCount = pieces.length := h.count
  have shown : texts = pieces.map Utf8.lossy := recorded
  rw [count, stop]
  refine ⟨by rw [shown, List.length_map], fun i hi => ?_, rfl, fun i hi => ?_, h.laid.length_le,
    fun i hi => ⟨?_, ?_⟩, ?_⟩
  · rw [known i hi]
    exact h.lineOffset hi
  · rw [known i (Nat.le_of_lt hi), known (i + 1) hi, Cursor.Holds.start_succ hi]
    exact Nat.le_add_right _ _
  · rw [shown, sliced i hi, List.getElem?_map, List.getElem?_eq_getElem hi]
    rfl
  · rw [sliced i hi]
    exact h.cut _ (List.getElem_mem hi)
  · have all : (List.range pieces.length).map slice = pieces := by
      refine List.ext_getElem (by simp) fun i _ hi => ?_
      rw [List.getElem_map, List.getElem_range, sliced i hi]
    rw [all]
    exact List.prefix_iff_eq_take.mp h.laid

/-- Bytes are appended behind an unterminated last line while its first half waits in the buffer, and
again after a read at the end that is then taken back: the second and the third read give two halves
of one line. -/
theorem run_reads_growing_file_single :
    let d := Disk.single [0x61, 0x0A, 0x62]
    let grown : Bytes := [0x61, 0x0A, 0x62, 0x63, 0x64, 0x0A]
    let es : List Event :=
      [.use .readLine, .change (.single [0x61, 0x0A, 0x62, 0x63]), .use .readLine, .use .readLine,
        .use (.rewind 2), .change (.single grown), .use .readLine]
    let texts := Scene.recorded ⟨d, .single⟩ [] es
    (Cursor.new.openOn d (.ofString "/a.clua")).value = (.ok (), .single) ∧ d.Grows 0 es ∧
      texts = ["a\n", "bc", "d\n"] ∧
      texts[1]? = some (Utf8.lossy (grown.extract 2 4)) ∧
      texts[2]? = some (Utf8.lossy (grown.extract 4 6)) := by
  intro d grown es texts
  have opened : (Cursor.new.openOn d (.ofString "/a.clua")).value = (.ok (), .single) := rfl
  have first : d.appendFile (.ofString "/a.clua") [0x63] = .ok (.single [0x61, 0x0A, 0x62, 0x63]) := rfl
  have second : (Disk.single [0x61, 0x0A, 0x62, 0x63]).appendFile (.ofString "/a.clua") [0x64, 0x0A] =
      .ok (.single grown) := rfl
  have grows : d.Grows 0 es :=
    ⟨Disk.contents_prefix_of_appendFile first 0, Disk.contents_prefix_of_appendFile second 0, trivial⟩
  obtain ⟨-, -, -, -, -, slices, -⟩ := run_reads_growing_file opened rfl grows
  exact ⟨opened, grows, by decide, (slices 1 (by decide)).1.trans (by decide),
    (slices 2 (by decide)).1.trans (by decide)⟩

end Scene

end ProjectIndex
