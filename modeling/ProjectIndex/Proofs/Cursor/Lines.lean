import ProjectIndex.Disk.Reader
import Mathlib.Algebra.GroupWithZero.Nat
import Mathlib.Data.List.Basic

/-!
# The lines of a byte sequence

`cutLines` cuts a byte sequence after every line feed.  It is the view of a file that everything
said about reading by lines refers to: it recurses on the bytes alone and knows neither a buffer nor
a position.  `Reader.splitLine`, which a reader applies to the bytes at hand, is tied to it by
`splitLine_drop_startOf`: from the start of line `k` on, the first line is line `k`, and what it
leaves begins where line `k + 1` starts.

Line numbers run over the end: `lineAt` is empty there and `startOf` stays at the end, so a read at
the end of a file is the read of one more line.
-/

namespace ProjectIndex

namespace Reader

/-! ### The first line of some bytes -/

@[simp] theorem splitLine_nil : splitLine [] = ([], []) := rfl

theorem splitLine_lineFeed (bs : Bytes) : splitLine (lineFeed :: bs) = ([lineFeed], bs) := rfl

theorem splitLine_cons {b : UInt8} (hb : b ≠ lineFeed) (bs : Bytes) :
    splitLine (b :: bs) = (b :: (splitLine bs).1, (splitLine bs).2) := by
  rw [splitLine, if_neg hb]

/-- What lies behind the first line does not change it. -/
theorem splitLine_append_of_mem {bs : Bytes} (h : lineFeed ∈ bs) (more : Bytes) :
    splitLine (bs ++ more) = ((splitLine bs).1, (splitLine bs).2 ++ more) := by
  induction bs with
  | nil => simp at h
  | cons b bs ih =>
      by_cases hb : b = lineFeed
      · rw [hb, List.cons_append, splitLine_lineFeed, splitLine_lineFeed]
      · have rest : lineFeed ∈ bs := by simpa [Ne.symm hb] using h
        rw [List.cons_append, splitLine_cons hb, splitLine_cons hb, ih rest]

/-- Bytes without a line feed are carried over into the first line of what follows. -/
theorem splitLine_append_of_notMem {bs : Bytes} (h : lineFeed ∉ bs) (more : Bytes) :
    splitLine (bs ++ more) = (bs ++ (splitLine more).1, (splitLine more).2) := by
  induction bs with
  | nil => rfl
  | cons b bs ih =>
      rw [List.mem_cons, not_or] at h
      rw [List.cons_append, splitLine_cons (Ne.symm h.1), ih h.2, List.cons_append]

theorem splitLine_of_notMem {bs : Bytes} (h : lineFeed ∉ bs) : splitLine bs = (bs, []) := by
  simpa using splitLine_append_of_notMem h []

/-- The first line ends in a line feed as soon as there is one. -/
theorem getLast?_splitLine {bs : Bytes} :
    (splitLine bs).1.getLast? = some lineFeed ↔ lineFeed ∈ bs := by
  constructor
  · intro h
    rw [← splitLine_append bs]
    exact List.mem_append_left _ (List.mem_of_getLast? h)
  · intro h
    induction bs with
    | nil => simp at h
    | cons b bs ih =>
        by_cases hb : b = lineFeed
        · rw [hb, splitLine_lineFeed]; rfl
        · have rest : lineFeed ∈ bs := by simpa [Ne.symm hb] using h
          rw [splitLine_cons hb, List.getLast?_cons, ih rest]
          rfl

/-- A line feed stands at the end of the first line or nowhere in it. -/
theorem lineFeed_notMem_dropLast_splitLine (bs : Bytes) :
    lineFeed ∉ (splitLine bs).1.dropLast := by
  induction bs with
  | nil => simp
  | cons b bs ih =>
      by_cases hb : b = lineFeed
      · rw [hb, splitLine_lineFeed]; simp
      · rw [splitLine_cons hb]
        by_cases line : (splitLine bs).1 = []
        · simp [line]
        · rw [List.dropLast_cons_of_ne_nil line, List.mem_cons, not_or]
          exact ⟨Ne.symm hb, ih⟩

theorem splitLine_snd (bs : Bytes) : (splitLine bs).2 = bs.drop (splitLine bs).1.length := by
  have whole := congrArg (List.drop (splitLine bs).1.length) (splitLine_append bs)
  rwa [List.drop_left] at whole

end Reader

/-! ### All lines -/

/-- The pieces of a byte sequence, cut after every line feed.  A last piece without line feed is
kept unless it is empty. -/
def cutLines : Bytes → List Bytes
  | [] => []
  | b :: bs =>
    if b = lineFeed then [b] :: cutLines bs
    else match cutLines bs with
      | [] => [[b]]
      | line :: lines => (b :: line) :: lines

/-- A line by its number, the first being line zero; behind the last one there are empty lines. -/
def lineAt (lines : List Bytes) (k : Nat) : Bytes := (lines[k]?).getD []

theorem lineAt_of_lt {lines : List Bytes} {k : Nat} (h : k < lines.length) : lineAt lines k = lines[k] := by
  rw [lineAt, List.getElem?_eq_getElem h, Option.getD_some]

theorem lineAt_of_length_le {lines : List Bytes} {k : Nat} (h : lines.length ≤ k) : lineAt lines k = [] := by
  rw [lineAt, List.getElem?_eq_none h, Option.getD_none]

/-- Where a line starts: the sum of the lengths of the lines before it. -/
def startOf (lines : List Bytes) (k : Nat) : Nat :=
  ((List.range k).map fun i => (lineAt lines i).length).sum

@[simp] theorem startOf_zero (lines : List Bytes) : startOf lines 0 = 0 := rfl

theorem startOf_succ (lines : List Bytes) (k : Nat) :
    startOf lines (k + 1) = startOf lines k + (lineAt lines k).length := by
  simp [startOf, List.range_succ]

/-- The first piece is the first line, and the others are the pieces of what it leaves. -/
theorem cutLines_eq_cons {bs : Bytes} (h : bs ≠ []) :
    cutLines bs = (Reader.splitLine bs).1 :: cutLines (Reader.splitLine bs).2 := by
  induction bs with
  | nil => exact absurd rfl h
  | cons b bs ih =>
      by_cases hb : b = lineFeed
      · rw [hb, Reader.splitLine_lineFeed, cutLines, if_pos rfl]
      · rw [Reader.splitLine_cons hb, cutLines, if_neg hb]
        cases bs with
        | nil => rfl
        | cons a as => rw [ih (by simp)]

theorem ne_nil_of_mem_cutLines {bs line : Bytes} (h : line ∈ cutLines bs) : line ≠ [] := by
  induction bs generalizing line with
  | nil => exact nomatch h
  | cons b bs ih =>
      rw [cutLines] at h
      split at h
      · obtain rfl | later := List.mem_cons.mp h
        · exact List.cons_ne_nil _ _
        · exact ih later
      · split at h
        · obtain rfl := List.mem_singleton.mp h
          exact List.cons_ne_nil _ _
        · next rest =>
            obtain rfl | later := List.mem_cons.mp h
            · exact List.cons_ne_nil _ _
            · exact ih (rest ▸ List.mem_cons_of_mem _ later)

/-- The first line takes something of what there is. -/
theorem length_splitLine_snd_lt {bs : Bytes} (h : bs ≠ []) :
    (Reader.splitLine bs).2.length < bs.length := by
  have first : (Reader.splitLine bs).1 ∈ cutLines bs := by
    rw [cutLines_eq_cons h]
    exact List.mem_cons_self
  have taken := List.length_pos_of_ne_nil (ne_nil_of_mem_cutLines first)
  have there := List.length_pos_of_ne_nil h
  rw [Reader.splitLine_snd, List.length_drop]
  omega

theorem head?_cutLines (bs : Bytes) :
    (cutLines bs).head?.getD [] = (Reader.splitLine bs).1 := by
  by_cases h : bs = []
  · rw [h]; rfl
  · rw [cutLines_eq_cons h]; rfl

theorem tail_cutLines (bs : Bytes) : (cutLines bs).tail = cutLines (Reader.splitLine bs).2 := by
  by_cases h : bs = []
  · rw [h]; rfl
  · rw [cutLines_eq_cons h]; rfl

theorem lineAt_eq_splitLine {lines : List Bytes} {rest : Bytes} {k : Nat}
    (h : cutLines rest = lines.drop k) : lineAt lines k = (Reader.splitLine rest).1 := by
  rw [lineAt, ← List.head?_drop, ← h, head?_cutLines]

/-- Behind the start of a line lie that line and the lines after it. -/
theorem cutLines_drop_startOf (bs : Bytes) (k : Nat) :
    cutLines (bs.drop (startOf (cutLines bs) k)) = (cutLines bs).drop k := by
  induction k with
  | zero => rfl
  | succ k ih =>
      rw [startOf_succ, ← List.drop_drop, lineAt_eq_splitLine ih, ← Reader.splitLine_snd,
        ← tail_cutLines, ih, List.tail_drop]

/-- **A reader at the start of line `k` is given line `k`, and then stands at the start of line
`k + 1`.** -/
theorem splitLine_drop_startOf (bs : Bytes) (k : Nat) :
    Reader.splitLine (bs.drop (startOf (cutLines bs) k)) =
      (lineAt (cutLines bs) k, bs.drop (startOf (cutLines bs) (k + 1))) := by
  rw [startOf_succ, ← List.drop_drop, lineAt_eq_splitLine (cutLines_drop_startOf bs k),
    ← Reader.splitLine_snd]

/-- No line starts behind the end. -/
theorem startOf_le_length (bs : Bytes) (k : Nat) : startOf (cutLines bs) k ≤ bs.length := by
  induction k with
  | zero => exact Nat.zero_le _
  | succ k ih =>
      have line := congrArg (fun p => p.1.length) (splitLine_drop_startOf bs k)
      have whole := congrArg List.length
        (Reader.splitLine_append (bs.drop (startOf (cutLines bs) k)))
      rw [List.length_append, List.length_drop] at whole
      rw [startOf_succ, ← line]
      omega

/-- Behind the last line there is nothing, and so no line starts before the end there. -/
theorem startOf_of_length_le {bs : Bytes} {k : Nat} (h : (cutLines bs).length ≤ k) :
    startOf (cutLines bs) k = bs.length := by
  refine Nat.le_antisymm (startOf_le_length bs k) ?_
  have rest := cutLines_drop_startOf bs k
  rw [List.drop_eq_nil_of_le h] at rest
  by_contra short
  have left : bs.drop (startOf (cutLines bs) k) ≠ [] := mt List.drop_eq_nil_iff.mp short
  rw [cutLines_eq_cons left] at rest
  cases rest

end ProjectIndex
