import ProjectIndex.Proofs.Cursor.Lines

/-!
# What a reader gives

`Reader.nextLine` runs a loop over a buffer that is filled in portions of any size.  What it does is
said here once, without the loop: if it gives a line, the line is the first line of the bytes that
lie `ahead` of the reader, that is of the buffered bytes and those behind them in the file, and all
the other bytes stay ahead (`GivesLine`); if it fails, the reader is back where it stood
(`StepsBack`).  The bound on the rounds of the loop never cuts a line short.

The contents may be others at each call.  `InStep` says that the buffer still agrees with them; it
is kept by reads, by seeks and by growth of the file, and makes the bytes ahead those of the file from
the position on.
-/

namespace ProjectIndex

/-- Whether a fetch gets bytes. -/
def Fetch.Succeeds : Fetch → Prop
  | .upTo _ => True
  | .fails _ => False

instance : DecidablePred Fetch.Succeeds
  | .upTo _ => .isTrue trivial
  | .fails _ => .isFalse id

/-- A supply without failures.  It may still get fewer bytes at a time than the buffer holds. -/
structure Supply.NeverFails (s : Supply) : Prop where
  coming : ∀ f ∈ s.coming, f.Succeeds
  steady : s.steady.Succeeds

namespace Supply

theorem neverFails_full : full.NeverFails := ⟨by simp [full], trivial⟩

theorem NeverFails.next {s : Supply} (h : s.NeverFails) :
    s.next.1.Succeeds ∧ s.next.2.NeverFails := by
  obtain ⟨coming, steady⟩ := s
  cases coming with
  | nil => exact ⟨h.steady, h⟩
  | cons f fs =>
      exact ⟨h.coming f List.mem_cons_self,
        fun g hg => h.coming g (List.mem_cons_of_mem _ hg), h.steady⟩

end Supply

namespace Reader

/-- The bytes that the reader gives from here on if the contents stay as they are. -/
def ahead (r : Reader) (contents : Bytes) : Bytes := r.buffer ++ contents.drop r.offset

/-- From `r` to `r'` a line was given: the first one of the bytes ahead. -/
structure GivesLine (contents : Bytes) (r : Reader) (line : Bytes) (r' : Reader) : Prop where
  split : splitLine (r.ahead contents) = (line, r'.ahead contents)
  file : r'.file = r.file
  /-- Every byte fetched is in the line or in the buffer. -/
  moved : r'.offset + r.buffer.length = r.offset + line.length + r'.buffer.length
  bounded : r'.offset ≤ max r.offset contents.length
  supply : r.supply.NeverFails → r'.supply.NeverFails

/-- From `r` to `r'` a read failed: the reader stands where it stood, its buffer empty. -/
structure StepsBack (r r' : Reader) : Prop where
  file : r'.file = r.file
  offset : r'.offset = r.position
  buffer : r'.buffer = []
  mayFail : ¬ r.supply.NeverFails

/-! ### One fetch -/

/-- From `r` to `r'` bytes moved from the file to the empty buffer. -/
structure Fetched (contents : Bytes) (r r' : Reader) : Prop where
  ahead : r'.ahead contents = r.ahead contents
  file : r'.file = r.file
  offset : r'.offset = r.offset + r'.buffer.length
  room : r'.buffer.length ≤ contents.length - r.offset
  ended : r'.buffer = [] → contents.drop r.offset = []
  supply : r.supply.NeverFails → r'.supply.NeverFails

theorem fetch_ok {contents : Bytes} {r r' : Reader} (empty : r.buffer = [])
    (h : r.fetch contents = (.ok (), r')) : Fetched contents r r' := by
  unfold fetch at h
  generalize hn : r.supply.next = n at h
  obtain ⟨how, supply⟩ := n
  cases how with
  | fails e => simp at h
  | upTo more =>
      simp only [Prod.mk.injEq, true_and] at h
      subst h
      refine ⟨?_, rfl, rfl, ?_, fun none => ?_, fun hs => ?_⟩
      · have got := List.prefix_iff_eq_append.mp
          (List.take_prefix (min (more + 1) bufferSize) (contents.drop r.offset))
        simp only [Reader.ahead, empty, List.nil_append, ← List.drop_drop]
        exact got
      · simp only [List.length_take, List.length_drop]
        exact Nat.min_le_right _ _
      · rcases List.take_eq_nil_iff.mp none with hz | hd
        · simp [bufferSize] at hz
        · exact hd
      · have := (Supply.NeverFails.next hs).2
        rwa [hn] at this

/-- A fetch fails only if the supply may. -/
theorem fetch_error {contents : Bytes} {r r' : Reader} {e : IoError}
    (h : r.fetch contents = (.error e, r')) :
    r'.file = r.file ∧ ¬ r.supply.NeverFails := by
  unfold fetch at h
  generalize hn : r.supply.next = n at h
  obtain ⟨how, supply⟩ := n
  cases how with
  | upTo more => simp at h
  | fails e' =>
      simp only [Prod.mk.injEq] at h
      refine ⟨by rw [← h.2], fun hs => ?_⟩
      have := (Supply.NeverFails.next hs).1
      rwa [hn] at this

/-! ### The rounds of a read -/

/-- How many rounds the rest of a read takes at most: two for each byte of the file that is still to
be fetched, one for the buffer, and one that finds the end. -/
def rounds (contents : Bytes) (r : Reader) : Nat :=
  2 * (contents.length - r.offset) + if r.buffer = [] then 1 else 2

/-- At the end of the file an empty line is given. -/
theorem GivesLine.atEnd {contents : Bytes} {r r' : Reader} (empty : r.buffer = [])
    (h : Fetched contents r r') (none : r'.buffer = []) : GivesLine contents r [] r' where
  split := by
    have rest : r'.ahead contents = [] := by
      rw [h.ahead, ahead, empty, h.ended none, List.append_nil]
    rw [← h.ahead, rest]
    rfl
  file := h.file
  moved := by simp [h.offset, empty]
  bounded := by
    rw [h.offset, none]
    exact Nat.le_max_left _ _
  supply := h.supply

/-- A read goes on after a fetch as if the bytes had been in the buffer before. -/
theorem GivesLine.afterFetch {contents line : Bytes} {r r₁ r' : Reader} (empty : r.buffer = [])
    (h : Fetched contents r r₁) (g : GivesLine contents r₁ line r') :
    GivesLine contents r line r' where
  split := by rw [← h.ahead]; exact g.split
  file := g.file.trans h.file
  moved := by
    have moved := g.moved
    rw [h.offset] at moved
    rw [empty, List.length_nil]
    omega
  bounded := by
    have bounded := g.bounded
    have offset := h.offset
    have room := h.room
    omega
  supply := fun hs => g.supply (h.supply hs)

/-- A line that ends in the buffer is given from there. -/
theorem GivesLine.ofBuffer (contents : Bytes) {r : Reader} (h : lineFeed ∈ r.buffer) :
    GivesLine contents r (splitLine r.buffer).1 { r with buffer := (splitLine r.buffer).2 } where
  split := splitLine_append_of_mem h _
  file := rfl
  moved := by
    have whole := congrArg List.length (splitLine_append r.buffer)
    rw [List.length_append] at whole
    simp only
    omega
  bounded := Nat.le_max_left _ _
  supply := id

/-- A buffer without a line feed is given whole, and the line goes on behind it. -/
theorem GivesLine.afterBuffer {contents more : Bytes} {r r' : Reader} (h : lineFeed ∉ r.buffer)
    (g : GivesLine contents { r with buffer := [] } more r') :
    GivesLine contents r (r.buffer ++ more) r' where
  split := by
    have split := g.split
    rw [ahead, List.nil_append] at split
    rw [ahead, splitLine_append_of_notMem h, split]
  file := g.file
  moved := by
    have moved : r'.offset + 0 = r.offset + more.length + r'.buffer.length := g.moved
    rw [List.length_append]
    omega
  bounded := g.bounded
  supply := g.supply

/-- What one round of a read comes to, the rest of the read being bounded by `fuel`. -/
inductive Round (contents : Bytes) (fuel : Nat) (r : Reader) : Except IoError Bytes × Reader → Prop
  /-- The buffer is empty, and the fetch fails. -/
  | fails {r' : Reader} {e : IoError} (empty : r.buffer = [])
    (h : r.fetch contents = (.error e, r')) : Round contents fuel r (.error e, r')
  /-- The buffer is empty, and the fetch meets the end. -/
  | ended {r' : Reader} (empty : r.buffer = []) (fetched : Fetched contents r r')
    (none : r'.buffer = []) : Round contents fuel r (.ok [], r')
  /-- The buffer was empty, and the read goes on with the bytes fetched. -/
  | filled {r₁ : Reader} {result : Except IoError Bytes × Reader} (empty : r.buffer = [])
    (fetched : Fetched contents r r₁) (nonempty : r₁.buffer ≠ [])
    (rest : lineBytes contents fuel r₁ = result) : Round contents fuel r result
  /-- The line ends in the buffer. -/
  | given (h : lineFeed ∈ r.buffer) :
    Round contents fuel r (.ok (splitLine r.buffer).1, { r with buffer := (splitLine r.buffer).2 })
  /-- The buffer has no line feed, and the line goes on behind it. -/
  | carried {r' : Reader} {more : Bytes} (nonempty : r.buffer ≠ []) (h : lineFeed ∉ r.buffer)
    (rest : lineBytes contents fuel { r with buffer := [] } = (.ok more, r')) :
    Round contents fuel r (.ok (r.buffer ++ more), r')
  /-- The buffer has no line feed, and the read fails behind it. -/
  | broken {r' : Reader} {e : IoError}
    (rest : lineBytes contents fuel { r with buffer := [] } = (.error e, r')) :
    Round contents fuel r (.error e, r')

theorem lineBytes_round (contents : Bytes) (fuel : Nat) (r : Reader) :
    Round contents fuel r (lineBytes contents (fuel + 1) r) := by
  rw [lineBytes]
  split
  · next empty =>
      generalize hf : r.fetch contents = f
      obtain ⟨_ | _, r₁⟩ := f
      · exact .fails empty hf
      · have fetched := fetch_ok empty hf
        dsimp only
        split
        · next none => exact .ended empty fetched none
        · next nonempty => exact .filled empty fetched nonempty rfl
  · next nonempty =>
      by_cases h : lineFeed ∈ r.buffer
      · have last := getLast?_splitLine.mpr h
        simp only [last, if_true]
        exact .given h
      · have last : r.buffer.getLast? ≠ some lineFeed := fun last => h (List.mem_of_getLast? last)
        simp only [splitLine_of_notMem h, last, if_false]
        generalize hm : lineBytes contents fuel { r with buffer := [] } = m
        obtain ⟨e | more, r₁⟩ := m
        · exact .broken hm
        · exact .carried nonempty h hm

/-- Given enough rounds, what is given is a line. -/
theorem lineBytes_ok (contents : Bytes) :
    ∀ (fuel : Nat) {r r' : Reader} {line : Bytes}, r.rounds contents ≤ fuel →
      lineBytes contents fuel r = (.ok line, r') → GivesLine contents r line r' := by
  intro fuel
  induction fuel with
  | zero =>
      intro r r' line enough _
      unfold rounds at enough
      split at enough <;> omega
  | succ fuel ih =>
      intro r r' line enough h
      have round := lineBytes_round contents fuel r
      rw [h] at round
      cases round with
      | ended empty fetched none => exact .atEnd empty fetched none
      | filled empty fetched nonempty rest =>
          refine .afterFetch empty fetched (ih ?_ rest)
          -- The fetch takes at least one byte, which pays for this round and for the next one.
          have got := List.length_pos_of_ne_nil nonempty
          have room := fetched.room
          have offset := fetched.offset
          rw [rounds, if_pos empty] at enough
          rw [rounds, if_neg nonempty]
          omega
      | given hlf => exact .ofBuffer contents hlf
      | carried nonempty hlf rest =>
          refine .afterBuffer hlf (ih ?_ rest)
          rw [rounds, if_neg nonempty] at enough
          rw [rounds, if_pos rfl]
          exact Nat.le_of_succ_le_succ enough

theorem lineBytes_error (contents : Bytes) :
    ∀ (fuel : Nat) {r r' : Reader} {e : IoError}, lineBytes contents fuel r = (.error e, r') →
      r'.file = r.file ∧ ¬ r.supply.NeverFails := by
  intro fuel
  induction fuel with
  | zero => intro r r' e h; simp [lineBytes] at h
  | succ fuel ih =>
      intro r r' e h
      have round := lineBytes_round contents fuel r
      rw [h] at round
      cases round with
      | fails empty failed => exact fetch_error failed
      | filled empty fetched nonempty rest =>
          obtain ⟨file, fails⟩ := ih rest
          exact ⟨file.trans fetched.file, fun hs => fails (fetched.supply hs)⟩
      | broken rest =>
          obtain ⟨file, fails⟩ := ih rest
          exact ⟨file, fails⟩

/-! ### Whole reads -/

theorem rounds_le (contents : Bytes) (r : Reader) :
    r.rounds contents ≤ 2 * contents.length + 3 := by
  unfold rounds
  split <;> omega

/-- **A read that succeeds gives the first line of the bytes ahead.** -/
theorem nextLine_ok {contents line : Bytes} {r r' : Reader}
    (h : r.nextLine contents = (.ok line, r')) : GivesLine contents r line r' := by
  refine lineBytes_ok contents _ (r.rounds_le contents) ?_
  unfold nextLine at h
  split at h
  · next hl => exact h ▸ hl
  · simp at h

/-- **A read that fails leaves the reader where it stood.** -/
theorem nextLine_error {contents : Bytes} {r r' : Reader} {e : IoError}
    (h : r.nextLine contents = (.error e, r')) : StepsBack r r' := by
  unfold nextLine at h
  split at h
  · simp at h
  · next hl =>
      obtain ⟨file, fails⟩ := lineBytes_error contents _ hl
      simp only [Prod.mk.injEq] at h
      rw [← h.2]
      exact ⟨file, rfl, rfl, fails⟩

/-! ### Positions -/

/-- The buffer holds bytes from before the offset, so the position is a true difference. -/
theorem position_add_length {r : Reader} (h : r.buffer.length ≤ r.offset) :
    r.position + r.buffer.length = r.offset := Nat.sub_add_cancel h

theorem GivesLine.length_le {contents line : Bytes} {r r' : Reader}
    (g : GivesLine contents r line r') (h : r.buffer.length ≤ r.offset) :
    r'.buffer.length ≤ r'.offset := by
  have moved := g.moved
  omega

/-- A line moves the position by its length. -/
theorem GivesLine.position {contents line : Bytes} {r r' : Reader}
    (g : GivesLine contents r line r') (h : r.buffer.length ≤ r.offset) :
    r'.position = r.position + line.length := by
  have moved := g.moved
  unfold Reader.position
  omega

theorem StepsBack.position {r r' : Reader} (s : StepsBack r r') : r'.position = r.position := by
  rw [Reader.position, s.buffer, s.offset]
  rfl

/-- The buffer agrees with the file: what lies ahead is the file from the position on. -/
structure InStep (contents : Bytes) (r : Reader) : Prop where
  offset_le : r.offset ≤ contents.length
  length_le : r.buffer.length ≤ r.offset
  ahead : r.ahead contents = contents.drop r.position

/-- A reader at the start of a file with nothing in the buffer is in step with any contents. -/
theorem inStep_of_start {r : Reader} (offset : r.offset = 0) (buffer : r.buffer = [])
    (contents : Bytes) : InStep contents r where
  offset_le := by rw [offset]; exact Nat.zero_le _
  length_le := by rw [buffer]; exact Nat.zero_le _
  ahead := by rw [Reader.ahead, Reader.position, offset, buffer]; rfl

theorem position_of_start {r : Reader} (offset : r.offset = 0) (buffer : r.buffer = []) :
    r.position = 0 := by
  rw [Reader.position, offset, buffer]
  rfl

theorem inStep_seek (r : Reader) {contents : Bytes} {place : Nat} (h : place ≤ contents.length) :
    InStep contents (r.seek place) := ⟨h, Nat.zero_le _, rfl⟩

/-- What is in step stays so while the file grows, whatever is in the buffer. -/
theorem InStep.append {contents : Bytes} {r : Reader} (h : InStep contents r) (more : Bytes) :
    InStep (contents ++ more) r where
  offset_le := by
    rw [List.length_append]
    exact Nat.le_add_right_of_le h.offset_le
  length_le := h.length_le
  ahead := by
    have position : r.position ≤ contents.length := Nat.le_trans (Nat.sub_le _ _) h.offset_le
    have split := h.ahead
    rw [Reader.ahead] at split
    rw [Reader.ahead, List.drop_append_of_le_length h.offset_le, ← List.append_assoc, split,
      List.drop_append_of_le_length position]

theorem GivesLine.inStep {contents line : Bytes} {r r' : Reader} (g : GivesLine contents r line r')
    (h : InStep contents r) : InStep contents r' where
  offset_le := Nat.le_trans g.bounded (Nat.max_le.mpr ⟨h.offset_le, Nat.le_refl _⟩)
  length_le := g.length_le h.length_le
  ahead := by
    have left := splitLine_snd (r.ahead contents)
    simp only [g.split] at left
    rw [left, h.ahead, List.drop_drop, g.position h.length_le]

theorem StepsBack.inStep {contents : Bytes} {r r' : Reader} (s : StepsBack r r')
    (h : InStep contents r) : InStep contents r' where
  offset_le := by
    rw [s.offset]
    exact Nat.le_trans (Nat.sub_le _ _) h.offset_le
  length_le := by rw [s.buffer]; exact Nat.zero_le _
  ahead := by rw [Reader.ahead, s.buffer, s.position, s.offset, List.nil_append]

/-- In step with the file, a read gives the file's first line from the position on. -/
theorem GivesLine.split_drop {contents line : Bytes} {r r' : Reader}
    (g : GivesLine contents r line r') (h : InStep contents r) :
    splitLine (contents.drop r.position) = (line, contents.drop r'.position) := by
  rw [← h.ahead, g.split, (g.inStep h).ahead]

end Reader

/-! ### Opening -/

/-- A file is opened at its start, with nothing in the buffer, and where the file can be read the
fetches do not fail. -/
theorem Disk.openFile_ok {d : Disk} {p : Path} {r : Reader} (h : d.openFile p = .ok r) :
    (∃ names, d.resolve p = .ok (names, .file r.file)) ∧ r.offset = 0 ∧ r.buffer = [] ∧
      ((d.fileData r.file).failure = none → r.supply.NeverFails) := by
  cases hres : d.resolve p with
  | error e =>
      rw [openFile, hres] at h
      exact absurd h (by simp [bind, Except.bind])
  | ok found =>
      obtain ⟨names, t⟩ := found
      rw [openFile, hres] at h
      cases t with
      | file id =>
          obtain rfl := Except.ok.inj h
          refine ⟨⟨names, rfl⟩, rfl, rfl, fun readable => ?_⟩
          rw [readable]
          exact Supply.neverFails_full
      | directory children => exact absurd h (by simp [bind, Except.bind])
      | link target => exact absurd h (by simp [bind, Except.bind])
      | special => exact absurd h (by simp [bind, Except.bind])

end ProjectIndex
