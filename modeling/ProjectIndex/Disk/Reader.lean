import ProjectIndex.Disk.Resolve

/-!
# Open files

An open file is read through a buffer.  When the buffer is empty, a fetch gets the next bytes of
the file as it is at that moment; bytes in the buffer are not affected by later changes of the
file.  A fetch may fail, and it may get fewer bytes than there are.  `Supply` says how the coming
fetches go, so that reading is a function of the contents and the supply.

The position of a reader is the place in the file of the next byte it gives.
-/

namespace ProjectIndex

/-- How a fetch goes. -/
inductive Fetch
  /-- It gets bytes, at most `more + 1` of them. -/
  | upTo (more : Nat)
  | fails (error : IoError)
  deriving DecidableEq, Repr

/-- How the fetches from an open file go: those of `coming` one after the other, and then all like
`steady`. -/
structure Supply where
  coming : List Fetch
  steady : Fetch
  deriving DecidableEq, Repr

/-- The greatest number of bytes in the buffer. -/
def bufferSize : Nat := 8192

namespace Supply

/-- Fetches that fill the buffer. -/
def full : Supply := ⟨[], .upTo (bufferSize - 1)⟩

/-- Fetches that fail. -/
def failing (e : IoError) : Supply := ⟨[], .fails e⟩

/-- The next fetch, and those after it. -/
def next (s : Supply) : Fetch × Supply :=
  match s.coming with
  | [] => (s.steady, s)
  | f :: fs => (f, { s with coming := fs })

end Supply

/-- An open file. -/
structure Reader where
  /-- The number of its contents. -/
  file : Nat
  /-- The place in the file of the next byte to be fetched. -/
  offset : Nat
  /-- The bytes fetched and not given yet. -/
  buffer : Bytes
  supply : Supply
  deriving DecidableEq, Repr

/-- The byte that ends a line. -/
def lineFeed : UInt8 := 0x0A

namespace Reader

/-- The place in the file of the next byte to be given. -/
def position (r : Reader) : Nat := r.offset - r.buffer.length

/-- Goes to a place in the file, forgetting the buffer. -/
def seek (r : Reader) (place : Nat) : Reader := { r with offset := place, buffer := [] }

/-- Fetches bytes into the empty buffer; none are fetched at the end of the file. -/
def fetch (r : Reader) (contents : Bytes) : Except IoError Unit × Reader :=
  let (how, supply) := r.supply.next
  match how with
  | .fails e => (.error e, { r with supply })
  | .upTo more =>
    let got := (contents.drop r.offset).take (min (more + 1) bufferSize)
    (.ok (), { r with offset := r.offset + got.length, buffer := got, supply })

/-- The bytes up to the first line feed, included, and the bytes behind it. -/
def splitLine : Bytes → Bytes × Bytes
  | [] => ([], [])
  | b :: bs => if b = lineFeed then ([b], bs) else (b :: (splitLine bs).1, (splitLine bs).2)

/-- Gives the bytes up to the next line feed, included, or up to the end of the file; `fuel` bounds
the rounds, each of which but the last takes a byte of the buffer or of the file. -/
def lineBytes (contents : Bytes) : (fuel : Nat) → Reader → Except IoError Bytes × Reader
  | 0, r => (.ok [], r)
  | fuel + 1, r =>
    if r.buffer = [] then
      match r.fetch contents with
      | (.error e, r) => (.error e, r)
      | (.ok (), r) => if r.buffer = [] then (.ok [], r) else lineBytes contents fuel r
    else
      let (taken, left) := splitLine r.buffer
      let r := { r with buffer := left }
      if taken.getLast? = some lineFeed then (.ok taken, r)
      else
        match lineBytes contents fuel r with
        | (.ok more, r) => (.ok (taken ++ more), r)
        | (.error e, r) => (.error e, r)

/-- Gives the next line.  A failed fetch takes the reader back to where the line begins. -/
def nextLine (r : Reader) (contents : Bytes) : Except IoError Bytes × Reader :=
  match lineBytes contents (2 * contents.length + 3) r with
  | (.ok line, r') => (.ok line, r')
  | (.error e, r') => (.error e, r'.seek r.position)

theorem splitLine_append (bs : Bytes) : (splitLine bs).1 ++ (splitLine bs).2 = bs := by
  induction bs with
  | nil => rfl
  | cons b bs ih =>
    unfold splitLine
    split
    · rfl
    · simp [ih]

end Reader

/-- Opens the file to which a path leads. -/
def Disk.openFile (d : Disk) (p : Path) : Except IoError Reader := do
  match ← d.resolve p with
  | (_, .file id) =>
    let supply := match (d.fileData id).failure with
      | some e => .failing e
      | none => .full
    .ok ⟨id, 0, [], supply⟩
  | (_, .special) => .error .noDevice
  | _ => .error .isADirectory

/-- What the open file holds now. -/
def Disk.contents (d : Disk) (r : Reader) : Bytes := (d.fileData r.file).bytes

end ProjectIndex
