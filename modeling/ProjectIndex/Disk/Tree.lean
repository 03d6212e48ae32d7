import ProjectIndex.Path

/-!
# Trees of files

A tree holds directories, which map names to nodes, symbolic links, which hold a path as it was
written, files, and special nodes, which are none of these.  A file node holds only a number: what
the file contains is kept apart in the `Disk`, so that an open file lives on when its name is removed
or given to another file.

The children of a directory are listed in no particular order.
-/

namespace ProjectIndex

/-- Why the tree of files refuses a request. -/
inductive IoError
  | notFound
  | inputOutput
  | alreadyExists
  | notADirectory
  | isADirectory
  | nameTooLong
  | tooManyLinks
  /-- A special node, which cannot be opened. -/
  | noDevice
  /-- A zero byte in a path. -/
  | zeroInPath
  /-- Contents that are not a text. -/
  | notText
  deriving DecidableEq, Repr

/-- The words for a refusal. -/
def IoError.message : IoError → String
  | notFound => "No such file or directory (os error 2)"
  | inputOutput => "Input/output error (os error 5)"
  | alreadyExists => "File exists (os error 17)"
  | notADirectory => "Not a directory (os error 20)"
  | isADirectory => "Is a directory (os error 21)"
  | nameTooLong => "File name too long (os error 36)"
  | tooManyLinks => "Too many levels of symbolic links (os error 40)"
  | noDevice => "No such device or address (os error 6)"
  | zeroInPath => "file name contained an unexpected NUL byte"
  | notText => "stream did not contain valid UTF-8"

/-- A name in a directory. -/
abbrev FileName := Bytes

/-- A node of a tree of files. -/
inductive Tree
  /-- A file, by the number of its contents. -/
  | file (id : Nat)
  | directory (children : List (FileName × Tree))
  /-- A symbolic link, which holds the path it leads to. -/
  | link (target : Path)
  /-- A socket, or anything else that is neither of the above. -/
  | special
  deriving Inhabited

namespace Tree

/-- The node under a name. -/
def child? : Tree → FileName → Option Tree
  | directory children, n => children.lookup n
  | _, _ => none

/-- The node to which names lead, no link being followed. -/
def find? (t : Tree) : List FileName → Option Tree
  | [] => some t
  | n :: ns => (t.child? n).bind fun c => c.find? ns

/-- Whether the node is a directory. -/
def isDirectory : Tree → Bool
  | directory _ => true
  | _ => false

@[simp] theorem find?_nil (t : Tree) : t.find? [] = some t := rfl

theorem find?_cons (t : Tree) (n : FileName) (ns : List FileName) :
    t.find? (n :: ns) = (t.child? n).bind fun c => c.find? ns := rfl

theorem find?_append (t : Tree) (ns ms : List FileName) :
    t.find? (ns ++ ms) = (t.find? ns).bind fun c => c.find? ms := by
  induction ns generalizing t with
  | nil => rfl
  | cons n ns ih =>
    rw [List.cons_append, find?_cons, find?_cons]
    cases t.child? n with
    | none => rfl
    | some c => exact ih c

end Tree

/-- What a file holds. -/
structure FileData where
  bytes : Bytes
  /-- Set for a file that can be opened but not read. -/
  failure : Option IoError
  deriving DecidableEq, Repr, Inhabited

/-- All files, and the directory in which relative paths begin. -/
structure Disk where
  /-- The root directory. -/
  root : Tree
  /-- What the files hold, by number. -/
  files : List FileData
  /-- The names that lead to the current directory. -/
  here : List FileName

namespace Disk

/-- No files, in the root directory. -/
def empty : Disk := ⟨.directory [], [], []⟩

/-- What a file holds; a number that no file has stands for an empty file. -/
def fileData (d : Disk) (id : Nat) : FileData := (d.files[id]?).getD ⟨[], none⟩

end Disk

end ProjectIndex
