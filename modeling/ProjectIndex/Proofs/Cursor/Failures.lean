import ProjectIndex.Proofs.Cursor.Bookmark
import ProjectIndex.Proofs.Cursor.Pointer

/-!
# A failed read loses nothing

Fetches may fail anywhere, inside of a line or between two lines, and again when the read is tried again.
A read that fails leaves the cursor as if it had not been made, but for the virtual position, which is then
the real one: `Moves.follows_or_failsBack` says so of one call.  For a whole run this means that the failed
reads can be struck out of its journal; what is left is the journal of a run whose fetches do not
fail.  The two runs stay `Abreast`: they may have fetched differently, and one may have been taken back,
but both stand at the start of the same line.

How often reads fail is said by an account of the failures that are still to come.  Each failed read
spends one of them (`Reader.nextLine_spends`), so with finitely many ahead the reads get through.
-/

namespace ProjectIndex

/-! ### The failures ahead -/

/-- How many of the coming fetches fail. -/
def Supply.failures (s : Supply) : Nat := s.coming.countP fun f => ¬ f.Succeeds

/-- From `s` on, fetches were made and `s'` is left; if only the coming ones may fail, `k` of them at least
did. -/
structure Supply.Spends (k : Nat) (s s' : Supply) : Prop where
  steady : s'.steady = s.steady
  failures : s.steady.Succeeds → s'.failures + k ≤ s.failures

namespace Supply.Spends

variable {k l : Nat} {s s' s'' : Supply}

theorem refl (s : Supply) : s.Spends 0 s := ⟨rfl, fun _ => Nat.le_refl _⟩

theorem trans (h : s.Spends k s') (h' : s'.Spends l s'') : s.Spends (k + l) s'' where
  steady := h'.steady.trans h.steady
  failures := by
    intro succeeds
    have first := h.failures succeeds
    have second := h'.failures (h.steady ▸ succeeds)
    omega

end Supply.Spends

/-- What a result spends. -/
def toll {α : Type} : Except IoError α → Nat
  | .ok _ => 0
  | .error _ => 1

namespace Reader

theorem fetch_spends (contents : Bytes) (r : Reader) :
    r.supply.Spends (toll (r.fetch contents).1) (r.fetch contents).2.supply := by
  obtain ⟨file, offset, buffer, ⟨coming, steady⟩⟩ := r
  unfold fetch Supply.next
  cases coming with
  | nil =>
      cases steady with
      | upTo more => exact .refl _
      | fails e => exact ⟨rfl, fun succeeds => succeeds.elim⟩
  | cons f fs =>
      cases f with
      | upTo more => exact ⟨rfl, fun _ => Nat.le_of_eq (List.countP_cons_of_neg Bool.false_ne_true).symm⟩
      | fails e => exact ⟨rfl, fun _ => Nat.le_of_eq (List.countP_cons_of_pos rfl).symm⟩

theorem lineBytes_spends (contents : Bytes) (fuel : Nat) (r : Reader) :
    r.supply.Spends (toll (lineBytes contents fuel r).1) (lineBytes contents fuel r).2.supply := by
  fun_induction lineBytes contents fuel r with
  | case1 r => exact .refl _
  | case2 fuel r empty e r' failed =>
      have spends := r.fetch_spends contents
      rwa [failed] at spends
  | case3 fuel r empty r' fetched ended =>
      have spends := r.fetch_spends contents
      rwa [fetched] at spends
  | case4 fuel r empty r' fetched nonempty ih =>
      have spends := r.fetch_spends contents
      rw [fetched] at spends
      have whole := spends.trans ih
      rwa [toll, Nat.zero_add] at whole
  | case5 fuel r nonempty taken left split r' last => exact .refl _
  | case6 fuel r nonempty taken left split r' last more r'' rest ih =>
      rw [rest] at ih
      exact ih
  | case7 fuel r nonempty taken left split r' last e r'' rest ih =>
      rw [rest] at ih
      exact ih

/-- **A read that fails spends a failure.** -/
theorem nextLine_spends (contents : Bytes) (r : Reader) :
    r.supply.Spends (toll (r.nextLine contents).1) (r.nextLine contents).2.supply := by
  have spends := lineBytes_spends contents (2 * contents.length + 3) r
  unfold nextLine
  generalize lineBytes contents (2 * contents.length + 3) r = result at spends ⊢
  obtain ⟨_ | line, r'⟩ := result
  · exact spends
  · exact spends

end Reader

/-! ### Bookmarks that differ in the position -/

namespace Bookmark

variable (lines : List Bytes) {b b' : Bookmark} {u : Use}

theorem respond_congr (count : b.count = b'.count) (stays : (Event.use u).movesPointer = false) :
    b.respond lines u = b'.respond lines u := by
  cases u with
  | readLine => simp only [respond, count]
  | rewind n => simp only [respond, count]
  | lineOffset n => simp only [respond, startOf?, count]
  | setPosition p => cases stays
  | updatePosition p => cases stays

theorem advance_congr (count : b.count = b'.count) (line : b.line = b'.line)
    (stays : (Event.use u).movesPointer = false) :
    (b.advance lines u).count = (b'.advance lines u).count ∧
      (b.advance lines u).line = (b'.advance lines u).line ∧
      ((Event.use u).resyncs = true → (b.respond lines u).succeeds = true →
        (b.advance lines u).position = (b'.advance lines u).position) := by
  cases u with
  | readLine => simp only [advance, count, true_and, implies_true]
  | rewind n =>
      by_cases known : n ≤ b'.count
      · simp only [advance, count, if_pos known, true_and, implies_true]
      · simp only [advance, respond, count, if_neg known, line, true_and]
        exact fun _ succeeds => by cases succeeds
  | lineOffset n => exact ⟨count, line, fun resyncs => by cases resyncs⟩
  | setPosition p => cases stays
  | updatePosition p => cases stays

end Bookmark

namespace Scene

variable {s t : Scene} {u : Use} {file : Nat} {contents : Bytes}

/-- The entry is of a read that failed. -/
def Entry.failed (x : Entry) : Bool :=
  match x.event, x.answer with
  | .use .readLine, .refused _ => true
  | _, _ => false

/-- Where a call is answered as a bookmark answers it, no read failed. -/
theorem Follows.failed {a : Answer} {c : Cursor} (h : s.Follows file contents u a c) :
    Entry.failed ⟨.use u, a, c⟩ = false := by
  rw [h.answer]
  cases u with
  | readLine => rfl
  | rewind n => rfl
  | setPosition p => rfl
  | updatePosition p => rfl
  | lineOffset n => rfl

theorem FailsBack.failed {a : Answer} {c : Cursor} (h : s.FailsBack file contents u a c) :
    Entry.failed ⟨.use u, a, c⟩ = true := by
  obtain ⟨error, answer⟩ := h.answer
  rw [h.call, answer]
  rfl

/-! ### Two runs -/

/-- Two cursors in place at the same line, the second of which cannot fail. -/
structure Abreast (file : Nat) (contents : Bytes) (s t : Scene) : Prop where
  contents_left : (s.disk.fileData file).bytes = contents
  contents_right : (t.disk.fileData file).bytes = contents
  left : s.cursor.InPlace file contents
  right : t.cursor.InPlace file contents
  count : s.cursor.lineCount = t.cursor.lineCount
  line : s.cursor.line = t.cursor.line
  path : s.cursor.path = t.cursor.path
  sound : t.cursor.NeverFails

theorem Abreast.agrees {e : Event} {a a' : Answer} (h : Abreast file contents s t) (answer : a = a')
    (position : e.resyncs = true → a.succeeds = true → s.cursor.position = t.cursor.position) :
    Entry.Agrees ⟨e, a, s.cursor⟩ ⟨e, a', t.cursor⟩ := by
  obtain ⟨r, hr, -⟩ := h.left.reader
  obtain ⟨r', hr', -⟩ := h.right.reader
  have lengths : s.cursor.lineLengths = t.cursor.lineLengths := by
    rw [h.left.lengths, h.right.lengths, h.count]
  refine ⟨rfl, answer, ?_, h.path, lengths, h.count, h.line, fun n => ?_, position⟩
  · rw [Cursor.isOpen_of_reading hr, Cursor.isOpen_of_reading hr']
  · rw [Cursor.lineOffset_eq, Cursor.lineOffset_eq, lengths]

/-- **A call keeps two runs abreast, or it is a read that fails and does so alone.** -/
theorem Abreast.step (h : Abreast file contents s t) (stays : (Event.use u).movesPointer = false) :
    let x : Entry := ⟨.use u, s.answer (.use u), (s.step (.use u)).cursor⟩
    let y : Entry := ⟨.use u, t.answer (.use u), (t.step (.use u)).cursor⟩
    (x.failed = true ∧ Abreast file contents (s.step (.use u)) t) ∨
      (x.failed = false ∧ x.Agrees y ∧ Abreast file contents (s.step (.use u)) (t.step (.use u))) := by
  intro x y
  obtain follows | failed := (s.moves (.use u)).follows_or_failsBack h.contents_left h.left
  · obtain follows' | failed' := (t.moves (.use u)).follows_or_failsBack h.contents_right h.right
    · have count : s.cursor.mark.count = t.cursor.mark.count := h.count
      have line : s.cursor.mark.line = t.cursor.mark.line := h.line
      have answers : s.answer (.use u) = t.answer (.use u) := by
        rw [follows.answer, follows'.answer]
        exact Bookmark.respond_congr _ count stays
      obtain ⟨count, line, position⟩ := Bookmark.advance_congr (cutLines contents) count line stays
      rw [← follows.mark, ← follows'.mark] at count line position
      rw [← follows.answer] at position
      have after : Abreast file contents (s.step (.use u)) (t.step (.use u)) :=
        ⟨h.contents_left, h.contents_right, follows.inPlace, follows'.inPlace, count, line,
          follows.path.trans (h.path.trans follows'.path.symm), follows'.sound h.sound⟩
      exact .inr ⟨follows.failed, after.agrees answers position, after⟩
    · exact absurd h.sound failed'.mayFail
  · obtain ⟨r, cursor, -⟩ := failed.cursor
    refine .inl ⟨failed.failed, h.contents_left, h.contents_right, failed.inPlace, h.right, ?_, ?_, ?_,
      h.sound⟩
    · rw [cursor]
      exact h.count
    · rw [cursor]
      exact h.line
    · rw [cursor]
      exact h.path

/-- Without the entries of failed reads, the journals of two runs agree. -/
theorem Abreast.journal (us : List Use) : ∀ {s t : Scene}, Abreast file contents s t →
    (∀ u ∈ us, (Event.use u).movesPointer = false) →
    let kept := (s.journal (us.map .use)).filter fun x => !x.failed
    List.Forall₂ Entry.Agrees kept (t.journal (kept.map Entry.event)) := by
  induction us with
  | nil => exact fun _ _ => .nil
  | cons u us ih =>
      intro s t h stay
      obtain ⟨first, stay⟩ := List.forall_mem_cons.mp stay
      intro kept
      have entries : kept = ((⟨.use u, s.answer (.use u), (s.step (.use u)).cursor⟩ : Entry) ::
        (s.step (.use u)).journal (us.map .use)).filter fun x => !x.failed := rfl
      obtain ⟨failed, after⟩ | ⟨failed, agrees, after⟩ := h.step first
      · rw [entries, List.filter_cons_of_neg (by simp [failed])]
        exact ih after stay
      · rw [entries, List.filter_cons_of_pos (by simp [failed])]
        exact .cons agrees (ih after stay)

/-! ### One run -/

/-- A cursor stays in place with every call. -/
theorem run_inPlace (us : List Use) (same : (s.disk.fileData file).bytes = contents)
    (h : s.cursor.InPlace file contents) :
    ((s.run (us.map .use)).disk.fileData file).bytes = contents ∧
      (s.run (us.map .use)).cursor.InPlace file contents := by
  refine run_induction (P := fun s => (s.disk.fileData file).bytes = contents ∧
    s.cursor.InPlace file contents) s _ ⟨same, h⟩ ?_
  rintro s e he ⟨same, h⟩
  obtain ⟨u, -, rfl⟩ := List.mem_map.mp he
  obtain follows | failed := (s.moves (.use u)).follows_or_failsBack same h
  · exact ⟨same, follows.inPlace⟩
  · exact ⟨same, failed.inPlace⟩

/-- A call spends a failure if it is a read that fails. -/
theorem step_spends {r : Reader} (hr : s.cursor.stage = .reading r) (u : Use) :
    let x : Entry := ⟨.use u, s.answer (.use u), (s.step (.use u)).cursor⟩
    ∃ r', x.cursor.stage = .reading r' ∧ r.supply.Spends x.failed.toNat r'.supply := by
  cases u with
  | readLine =>
      have spends := r.nextLine_spends (s.disk.contents r)
      simp only [Scene.answer, Scene.step, Scene.next, Cursor.perform]
      generalize hn : r.nextLine (s.disk.contents r) = result at spends
      obtain ⟨e | line, r'⟩ := result
      · rw [Cursor.readLine_of_error hr hn]
        exact ⟨r', rfl, spends⟩
      · rw [Cursor.readLine_of_ok hr hn]
        exact ⟨r', rfl, spends⟩
  | rewind n =>
      have m := s.moves (.use (.rewind n))
      dsimp only
      generalize s.answer (.use (.rewind n)) = a, (s.step (.use (.rewind n))).cursor = c at m
      cases m with
      | refuses why => exact ⟨r, hr, .refl _⟩
      | rewinds hr' known =>
          obtain rfl := Stage.reading.inj (hr'.symm.trans hr)
          exact ⟨_, rfl, .refl _⟩
  | setPosition p => exact ⟨r, hr, .refl _⟩
  | updatePosition p => exact ⟨r, hr, .refl _⟩
  | lineOffset n => exact ⟨r, hr, .refl _⟩

/-- The failed reads of a run spend a failure each. -/
theorem journal_spends (us : List Use) : ∀ {s : Scene} {r : Reader}, s.cursor.stage = .reading r →
    ∃ r' : Reader, r.supply.Spends ((s.journal (us.map .use)).countP Entry.failed) r'.supply := by
  induction us with
  | nil => exact fun {_ r} _ => ⟨r, .refl _⟩
  | cons u us ih =>
      intro s r hr
      obtain ⟨r₁, hr₁, first⟩ := step_spends hr u
      obtain ⟨r', rest⟩ := ih hr₁
      have whole := first.trans rest
      refine ⟨r', ?_⟩
      rw [List.map_cons, Scene.journal]
      cases failed : Entry.failed ⟨.use u, s.answer (.use u), (s.step (.use u)).cursor⟩ with
      | true =>
          rw [failed, Nat.add_comm] at whole
          rwa [List.countP_cons_of_pos failed]
      | false =>
          rw [failed, Nat.add_comm] at whole
          rwa [List.countP_cons_of_neg (by rw [failed]; exact Bool.false_ne_true)]

theorem length_journal (es : List Event) : ∀ s : Scene, (s.journal es).length = es.length := by
  induction es with
  | nil => exact fun _ => rfl
  | cons e es ih =>
      intro s
      rw [Scene.journal, List.length_cons, List.length_cons, ih]

/-- **A failed read loses nothing.**  Let a cursor have been opened, and let fetches fail in any way.

After any calls, a read that fails does so with an I/O error and leaves the reader at the start of the line it
was reading, with nothing in the buffer, and the virtual position there; all else is as before.

The journal of reads, rewinds and questions for offsets agrees, the failed reads left out, with the journal
of the calls left if no fetch fails: texts, lengths and all.  And no more reads fail than
fetches are to fail, if these are finitely many. -/
theorem failed_reads_lose_nothing {d : Disk} {c c₀ : Cursor} {p : Path} {r : Reader}
    (opened : (c.openOn d p).value = (.ok (), c₀)) (reading : c₀.stage = .reading r)
    (supply : Supply) :
    let lines := cutLines (d.contents r)
    let faulty : Scene := ⟨d, c₀.resupply supply⟩
    (∀ (calls : List Use) (error : CursorError),
      let s := faulty.run (calls.map .use)
      let start := startOf lines s.cursor.lineCount
      s.answer (.use .readLine) = .refused error →
        (∃ e, error = .io e) ∧ s.cursor.lineOffset s.cursor.lineCount = some start ∧
        ∃ r', (s.step (.use .readLine)).cursor =
            { s.cursor with stage := .reading r', position := start } ∧
          r'.file = r.file ∧ r'.offset = start ∧ r'.buffer = []) ∧
    (∀ (calls : List Use) (clean : Supply),
      (∀ u ∈ calls, (Event.use u).movesPointer = false) → clean.NeverFails →
      let smooth : Scene := ⟨d, c₀.resupply clean⟩
      let kept := (faulty.journal (calls.map .use)).filter fun x => !x.failed
      List.Forall₂ Entry.Agrees kept (smooth.journal (kept.map Entry.event)) ∧
        (supply.steady.Succeeds → calls.length ≤ kept.length + supply.failures)) := by
  intro lines faulty
  obtain ⟨-, inPlace⟩ := inPlace_opened opened reading
  refine ⟨fun calls error => ?_, fun calls clean stay sound => ?_⟩
  · intro s start refused
    obtain ⟨same, inPlace⟩ := run_inPlace (s := faulty) calls rfl (inPlace.resupply supply)
    obtain follows | failed := (s.moves (.use .readLine)).follows_or_failsBack same inPlace
    · have text := follows.answer
      rw [refused] at text
      cases text
    · obtain ⟨e, io⟩ := failed.answer
      refine ⟨⟨e, Answer.refused.inj (refused.symm.trans io)⟩, ?_, failed.cursor⟩
      rw [inPlace.lineOffset]
      exact if_pos (Nat.le_refl _)
  · intro smooth kept
    have left : faulty.cursor = { c₀ with stage := .reading { r with supply } } :=
      Cursor.resupply_of_reading reading supply
    have right : smooth.cursor = { c₀ with stage := .reading { r with supply := clean } } :=
      Cursor.resupply_of_reading reading clean
    have abreast : Abreast r.file (d.contents r) faulty smooth := by
      refine ⟨rfl, rfl, inPlace.resupply supply, inPlace.resupply clean, ?_, ?_, ?_,
        c₀.neverFails_resupply sound⟩
      · rw [left, right]
      · rw [left, right]
      · rw [left, right]
    refine ⟨abreast.journal calls stay, fun succeeds => ?_⟩
    -- Each entry struck out has spent a failure.
    obtain ⟨r', spent⟩ := journal_spends calls (s := faulty) (by rw [left])
    have failures := spent.failures succeeds
    have split := List.length_eq_length_filter_add (l := faulty.journal (calls.map .use)) Entry.failed
    rw [length_journal, List.length_map, ← List.countP_eq_length_filter] at split
    change calls.length = _ + kept.length at split
    change _ ≤ supply.failures at failures
    omega

/-- The first line fails after one byte and again after two, and the second one while its first byte is
in the buffer. -/
theorem failed_reads_lose_nothing_single :
    let d := Disk.single [0x61, 0x62, 0x0A, 0x63, 0x64, 0x0A]
    let supply : Supply :=
      ⟨[.upTo 0, .fails .inputOutput, .upTo 1, .fails .inputOutput, .upTo 3, .fails .inputOutput], .upTo 0⟩
    let faulty : Scene := ⟨d, Cursor.single.resupply supply⟩
    let smooth : Scene := ⟨d, Cursor.single.resupply .full⟩
    let reads := fun n => List.replicate n Use.readLine
    let kept := (faulty.journal ((reads 6).map .use)).filter fun x => !x.failed
    (Cursor.new.openOn d (.ofString "/a.clua")).value = (.ok (), .single) ∧
      (faulty.run ((reads 3).map .use)).answer (.use .readLine) = .refused (.io .inputOutput) ∧
      (faulty.run ((reads 4).map .use)).cursor.position = 3 ∧
      kept.map Entry.answer = [.text "ab\n", .text "cd\n", .text ""] ∧
      List.Forall₂ Entry.Agrees kept (smooth.journal (kept.map Entry.event)) ∧
      6 ≤ kept.length + supply.failures := by
  intro d supply faulty smooth reads kept
  have opened : (Cursor.new.openOn d (.ofString "/a.clua")).value = (.ok (), .single) := rfl
  obtain ⟨fails, succeeds⟩ := failed_reads_lose_nothing opened rfl supply
  have refused : (faulty.run ((reads 3).map .use)).answer (.use .readLine) =
    .refused (.io .inputOutput) := rfl
  obtain ⟨-, -, r, back, -⟩ := fails (reads 3) _ refused
  have stay : ∀ u ∈ reads 6, (Event.use u).movesPointer = false := by
    intro u hu
    rw [List.eq_of_mem_replicate hu]
    rfl
  obtain ⟨agrees, progress⟩ := succeeds (reads 6) .full stay Supply.neverFails_full
  refine ⟨opened, refused, ?_, by decide +kernel, agrees, progress trivial⟩
  exact congrArg Cursor.position back

end Scene

end ProjectIndex
