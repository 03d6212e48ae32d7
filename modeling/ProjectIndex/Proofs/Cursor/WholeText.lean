import ProjectIndex.Proofs.Cursor.Bookmark
import ProjectIndex.Proofs.Text.Utf8

/-!
# Reading to the end gives the whole text

A file that is read line by line is shown as it would be shown at once.  This is not for free: the text
of some bytes is made piece by piece, and a cut inside a piece would show it twice.  But a line feed lies
below `0x80`, so lines are cut where nothing is cut in two (`Utf8.lossy_append_of_ascii`), even if a
character is broken off right before the line feed: `lossy_cutLines`.

`Scene.readToEnd` is the loop itself.  Before each read the events of a pause happen, so other files may
come and go, and fetches may get as few bytes as they like; the number of pauses bounds the number of
reads, and so the statement says when the loop ends, and not only what it gives if it does.  That the empty
text ends the loop where the file ends, and nowhere before, is `Utf8.lossy_eq_empty_iff`: bytes that are no
text are shown as something.
-/

namespace ProjectIndex

/-! ### The text of the lines -/

/-- **The lines of some bytes show what the bytes show.** -/
theorem lossy_cutLines (bytes : Bytes) :
    String.join ((cutLines bytes).map Utf8.lossy) = Utf8.lossy bytes := by
  induction h : bytes.length using Nat.strongRecOn generalizing bytes with
  | ind n ih =>
      subst h
      by_cases empty : bytes = []
      · rw [empty]
        rfl
      rw [cutLines_eq_cons empty, List.map_cons, String.join_cons]
      by_cases ends : lineFeed ∈ bytes
      · have last := Reader.getLast?_splitLine.mpr ends
        calc Utf8.lossy (Reader.splitLine bytes).1 ++
              String.join ((cutLines (Reader.splitLine bytes).2).map Utf8.lossy)
            = Utf8.lossy (Reader.splitLine bytes).1 ++ Utf8.lossy (Reader.splitLine bytes).2 := by
              rw [ih _ (length_splitLine_snd_lt empty) _ rfl]
          _ = Utf8.lossy bytes := by
              rw [← Utf8.lossy_append_of_ascii last (by decide), Reader.splitLine_append]
      · rw [Reader.splitLine_of_notMem ends]
        exact String.append_empty

/-- A text is empty exactly where it was read at the end. -/
theorem isEnd_lossy_lineAt {bytes : Bytes} {k : Nat} :
    Cursor.isEnd (Utf8.lossy (lineAt (cutLines bytes) k)) = true ↔ (cutLines bytes).length ≤ k := by
  unfold Cursor.isEnd
  rw [String.isEmpty_iff, Utf8.lossy_eq_empty_iff]
  constructor
  · intro empty
    by_contra inside
    have inside := Nat.lt_of_not_le inside
    rw [lineAt_of_lt inside] at empty
    exact ne_nil_of_mem_cutLines (List.getElem_mem inside) empty
  · exact lineAt_of_length_le

/-! ### The loop -/

/-- The event is no call on the cursor, and leaves the contents of the file as they are and its fetches
without failures. -/
def Event.Passes (file : Nat) (contents : Bytes) : Event → Prop
  | .change d => (d.fileData file).bytes = contents
  | .resupply supply => supply.NeverFails
  | .openOn _ => False
  | .use _ => False
  | .close => False

theorem Event.Passes.spares {file : Nat} {contents : Bytes} {e : Event} (h : e.Passes file contents) :
    e.Spares file contents := by
  cases e with
  | change d => exact h
  | resupply supply => exact h
  | openOn p => exact h.elim
  | use u => exact h.elim
  | close => exact h.elim

theorem Event.Passes.step {file : Nat} {contents : Bytes} {e : Event} (h : e.Passes file contents)
    (lines : List Bytes) (b : Bookmark) : b.step lines e = b := by
  cases e with
  | use u => exact h.elim
  | openOn p => rfl
  | close => rfl
  | change d => rfl
  | resupply supply => rfl

namespace Scene

/-- Reads lines until one marks the end of the file, and gives the texts read, with the scene after the
last read.  The events of a pause happen before each read.  There is no result if a read fails, or if
another read is due and no pause is left. -/
def readToEnd : Scene → List (List Event) → Option (List String × Scene)
  | _, [] => none
  | s, pause :: pauses =>
    let ready := s.run pause
    let after := ready.step (.use .readLine)
    match ready.answer (.use .readLine) with
    | .text line =>
      if Cursor.isEnd line then some ([line], after)
      else (after.readToEnd pauses).map fun (lines, last) => (line :: lines, last)
    | _ => none

variable {s : Scene} {file : Nat} {contents : Bytes} {b : Bookmark}

theorem readToEnd_of_end {line : String} {pause : List Event} (pauses : List (List Event))
    (read : (s.run pause).answer (.use .readLine) = .text line) (last : Cursor.isEnd line = true) :
    s.readToEnd (pause :: pauses) = some ([line], (s.run pause).step (.use .readLine)) := by
  rw [readToEnd]
  simp only [read, last, if_true]

theorem readToEnd_of_line {line : String} {pause : List Event} (pauses : List (List Event))
    (read : (s.run pause).answer (.use .readLine) = .text line) (more : ¬ Cursor.isEnd line = true) :
    s.readToEnd (pause :: pauses) = (((s.run pause).step (.use .readLine)).readToEnd pauses).map
      fun (lines, last) => (line :: lines, last) := by
  rw [readToEnd]
  simp only [read, if_neg more]

/-- In a pause a cursor shows the same all the time. -/
theorem run_pause {pause : List Event} (passes : ∀ e ∈ pause, e.Passes file contents)
    (same : (s.disk.fileData file).bytes = contents) (h : s.cursor.Shows file contents b) :
    ((s.run pause).disk.fileData file).bytes = contents ∧ (s.run pause).cursor.Shows file contents b := by
  refine run_induction (P := fun s => (s.disk.fileData file).bytes = contents ∧
    s.cursor.Shows file contents b) s pause ⟨same, h⟩ ?_
  rintro s e he ⟨same, h⟩
  have spares := (passes e he).spares
  obtain ⟨-, after⟩ := (s.moves e).shows spares same h
  rw [(passes e he).step] at after
  exact ⟨contents_step spares same, after⟩

/-- **From any line on, the loop reads all further lines and then once more.** -/
theorem readToEnd_of_shows (pauses : List (List Event)) : ∀ {s : Scene} {b : Bookmark},
    (∀ pause ∈ pauses, ∀ e ∈ pause, e.Passes file contents) →
    (s.disk.fileData file).bytes = contents → s.cursor.Shows file contents b →
    b.count ≤ (cutLines contents).length →
      (b.count + pauses.length ≤ (cutLines contents).length → s.readToEnd pauses = none) ∧
      ((cutLines contents).length < b.count + pauses.length → ∃ s' place,
        s.readToEnd pauses = some (((cutLines contents).drop b.count).map Utf8.lossy ++ [""], s') ∧
          s'.cursor.Shows file contents ⟨(cutLines contents).length + 1, "", place⟩) := by
  induction pauses with
  | nil =>
      intro s b _ _ _ inside
      exact ⟨fun _ => rfl, fun beyond => absurd inside (Nat.not_le_of_lt beyond)⟩
  | cons pause pauses ih =>
      intro s b passes same h inside
      obtain ⟨first, passes⟩ := List.forall_mem_cons.mp passes
      obtain ⟨same, h⟩ := run_pause first same h
      obtain ⟨read, after⟩ := ((s.run pause).moves (.use .readLine)).shows trivial same h
      have same' := contents_step (s := s.run pause) (e := .use .readLine) trivial same
      have read : (s.run pause).answer (.use .readLine) =
        .text (Utf8.lossy (lineAt (cutLines contents) b.count)) := read
      rw [List.length_cons]
      by_cases last : (cutLines contents).length ≤ b.count
      · obtain ended : b.count = (cutLines contents).length := Nat.le_antisymm inside last
        have none : Utf8.lossy (lineAt (cutLines contents) b.count) = "" := by
          rw [lineAt_of_length_le last]
          rfl
        refine ⟨fun few => absurd few (by omega), fun _ => ?_⟩
        rw [readToEnd_of_end pauses read (isEnd_lossy_lineAt.mpr last), none,
          List.drop_eq_nil_of_le last, ← ended]
        refine ⟨_, startOf (cutLines contents) (b.count + 1), rfl, ?_⟩
        rw [← none]
        exact after
      · rw [readToEnd_of_line pauses read (mt isEnd_lossy_lineAt.mp last)]
        obtain ⟨few, enough⟩ := ih passes same' after (Nat.lt_of_not_le last)
        change (b.count + 1 + pauses.length ≤ _ → _) at few
        change (_ < b.count + 1 + pauses.length → _) at enough
        refine ⟨fun h => ?_, fun h => ?_⟩
        · rw [few (by omega)]
          rfl
        · obtain ⟨s', place, texts, shows⟩ := enough (by omega)
          refine ⟨s', place, ?_, shows⟩
          rw [texts, List.drop_eq_getElem_cons (Nat.lt_of_not_le last),
            lineAt_of_lt (Nat.lt_of_not_le last)]
          rfl

/-- **Reading to the end gives the whole text.**  Let a cursor have been opened on a file that can be
read, and let the contents of that file stay as they are and its fetches not fail, whatever else happens
between two reads.  The loop reads once for each line and once more.  No text before the last one is empty,
all of them together are what is shown of the whole file, which is its text if it has one, and the lengths on
record add up to the length of the file in bytes. -/
theorem readToEnd_gives_whole_text {d : Disk} {c c₀ : Cursor} {p : Path} {r : Reader}
    (opened : (c.openOn d p).value = (.ok (), c₀)) (reading : c₀.stage = .reading r)
    (readable : (d.fileData r.file).failure = none) :
    let bytes := d.contents r
    let lines := cutLines bytes
    ∀ pauses : List (List Event), (∀ pause ∈ pauses, ∀ e ∈ pause, e.Passes r.file bytes) →
      (pauses.length ≤ lines.length → readToEnd ⟨d, c₀⟩ pauses = none) ∧
      (lines.length < pauses.length → ∃ texts s, readToEnd ⟨d, c₀⟩ pauses = some (texts, s) ∧
        texts.length = lines.length + 1 ∧
        (∀ text ∈ texts.dropLast, text ≠ "") ∧
        String.join texts = Utf8.lossy bytes ∧
        (∀ text, bytes = Utf8.encode text → String.join texts = text) ∧
        s.cursor.lineCount = texts.length ∧ s.cursor.lineLengths.length = texts.length ∧
        s.cursor.lineLengths.sum = bytes.length) := by
  intro bytes lines pauses passes
  have shows := shows_opened opened reading readable
  obtain ⟨few, enough⟩ := readToEnd_of_shows (s := ⟨d, c₀⟩) pauses passes rfl shows (Nat.zero_le _)
  change (0 + pauses.length ≤ _ → _) at few
  change (_ < 0 + pauses.length → _) at enough
  rw [Nat.zero_add] at few enough
  refine ⟨few, fun h => ?_⟩
  obtain ⟨s, place, ended, after⟩ := enough h
  have texts : ((cutLines (d.contents r)).drop Bookmark.start.count).map Utf8.lossy ++ [""] =
      lines.map Utf8.lossy ++ [""] := rfl
  have whole : String.join (lines.map Utf8.lossy ++ [""]) = Utf8.lossy bytes := by
    rw [← lossy_cutLines bytes]
    simp [lines]
  rw [texts] at ended
  refine ⟨_, s, ended, ?_, ?_, whole, ?_, ?_, ?_, ?_⟩
  · rw [List.length_append, List.length_map]
    rfl
  · rw [List.dropLast_concat]
    intro text member empty
    obtain ⟨line, hline, rfl⟩ := List.mem_map.mp member
    exact ne_nil_of_mem_cutLines hline (Utf8.lossy_eq_empty_iff.mp empty)
  · intro text spelled
    rw [whole, spelled, Utf8.lossy_encode]
  · rw [after.count, List.length_append, List.length_map]
    rfl
  · rw [after.lengths, length_lengthsTo, List.length_append, List.length_map]
    rfl
  · rw [after.lengths, sum_lengthsTo]
    exact startOf_of_length_le (Nat.le_succ _)

/-- A character is broken off before the line feed, and a byte that is no text begins the last line.  From
the second read on a fetch gets one byte, and before the third the file loses its name. -/
theorem readToEnd_gives_whole_text_single :
    let bytes : Bytes := [0x61, 0xC3, 0x0A, 0xFF, 0x62]
    let d := Disk.single bytes
    let pauses : List (List Event) :=
      [[], [.resupply ⟨[], .upTo 0⟩], [.change { d with root := .directory [] }]]
    (Cursor.new.openOn d (.ofString "/a.clua")).value = (.ok (), .single) ∧
      ∃ texts s, readToEnd ⟨d, .single⟩ pauses = some (texts, s) ∧
        texts = ["a\uFFFD\n", "\uFFFDb", ""] ∧ String.join texts = Utf8.lossy bytes ∧
        s.cursor.lineLengths.sum = 5 := by
  intro bytes d pauses
  have opened : (Cursor.new.openOn d (.ofString "/a.clua")).value = (.ok (), .single) := rfl
  have passes : ∀ pause ∈ pauses, ∀ e ∈ pause, e.Passes 0 bytes := by
    have steady : Supply.NeverFails ⟨[], .upTo 0⟩ := ⟨nofun, trivial⟩
    simp [pauses, Event.Passes, Disk.fileData, steady, d, Disk.single]
  obtain ⟨-, enough⟩ := readToEnd_gives_whole_text opened rfl rfl pauses passes
  obtain ⟨texts, s, ended, -, -, whole, -, -, -, total⟩ := enough (by decide)
  have shown : (readToEnd ⟨d, .single⟩ pauses).map Prod.fst = some ["a\uFFFD\n", "\uFFFDb", ""] := rfl
  rw [ended, Option.map_some, Option.some_inj] at shown
  exact ⟨opened, texts, s, ended, shown, whole, total⟩

end Scene

end ProjectIndex
