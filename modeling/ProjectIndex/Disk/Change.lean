import ProjectIndex.Disk.Resolve

/-!
# Changing files

Directories, files and links are made with the directories they lie in.  Writing to a file that
exists changes its contents in place, so whoever has it open sees the change; removing a name
leaves the contents to those who have the file open.
-/

namespace ProjectIndex

/-- The children with the node under a name replaced, added or taken away. -/
def Tree.setChild (children : List (FileName × Tree)) (n : FileName) (t : Option Tree) :
    List (FileName × Tree) :=
  match t with
  | none => children.filter (·.1 != n)
  | some t =>
    if (children.lookup n).isSome then children.map fun c => if c.1 == n then (n, t) else c
    else children ++ [(n, t)]

/-- The tree with the node at some names replaced, added or taken away, if their directory exists. -/
def Tree.set (t : Tree) (new : Option Tree) : List FileName → Tree
  | [] => new.getD t
  | n :: ns =>
    match t with
    | .directory children =>
      match ns with
      | [] => .directory (setChild children n new)
      | ns =>
        match children.lookup n with
        | some c => .directory (setChild children n (some (c.set new ns)))
        | none => t
    | t => t

namespace Disk

/-- Replaces, adds or takes away the node at some names. -/
def set (d : Disk) (names : List FileName) (t : Option Tree) : Disk :=
  { d with root := d.root.set t names }

/-- Refuses a name that no node can be given. -/
def checkName (n : FileName) : Except IoError Unit :=
  if n.contains 0 then .error .zeroInPath
  else if nameLimit < n.length then .error .nameTooLong
  else .ok ()

/-- Makes the directories on the way of some steps from the directory at `base`, and gives the place
they lead to. -/
def makeSteps (d : Disk) : (base : List FileName) → List Step → Except IoError (Disk × List FileName)
  | base, [] => .ok (d, base)
  | base, s :: rest =>
    match d.root.find? base, s with
    | some (.directory _), .stay => d.makeSteps base rest
    | some (.directory _), .up => d.makeSteps base.dropLast rest
    | some (.directory children), .down n =>
      match children.lookup n with
      | none => do
        checkName n
        (d.set (base ++ [n]) (some (.directory []))).makeSteps (base ++ [n]) rest
      | some (.link target) => do
        let place ← d.walk true linkLimit (target.origin base) target.steps
        d.makeSteps place rest
      | some _ => d.makeSteps (base ++ [n]) rest
    | some _, _ => .error .notADirectory
    | none, _ => .error .notFound

/-- Makes a directory, with the directories it lies in. -/
def makeDirectory (d : Disk) (p : Path) : Except IoError Disk := do
  let (d, place) ← d.makeSteps (p.origin d.here) p.steps
  match d.root.find? place with
  | some (.directory _) => .ok d
  | _ => .error .alreadyExists

/-- Makes the directories that a path's last name lies in, and gives their place and that name. -/
def makeParent (d : Disk) (p : Path) : Except IoError (Disk × List FileName × FileName) := do
  match p.steps.getLast? with
  | some (.down n) =>
    checkName n
    let (d, place) ← d.makeSteps (p.origin d.here) p.steps.dropLast
    .ok (d, place, n)
  | _ => .error .isADirectory

/-- Sets the contents of the file at some names, which may be new. -/
def setFile (d : Disk) (names : List FileName) (data : FileData) : Except IoError Disk :=
  match d.root.find? names with
  | some (.file id) => .ok { d with files := d.files.set id data }
  | some (.directory _) => .error .isADirectory
  | some (.link _) => .error .alreadyExists
  | some .special => .error .noDevice
  | none =>
    .ok { d.set names (some (.file d.files.length)) with files := d.files ++ [data] }

/-- Writes a file, with the directories it lies in. -/
def writeFile (d : Disk) (p : Path) (bytes : Bytes) : Except IoError Disk := do
  let (d, place, n) ← d.makeParent p
  match d.root.find? (place ++ [n]) with
  | some (.link target) =>
    let names ← d.walk true linkLimit (target.origin place) target.steps
    d.setFile names ⟨bytes, none⟩
  | _ => d.setFile (place ++ [n]) ⟨bytes, none⟩

/-- Makes a symbolic link, with the directories it lies in. -/
def makeLink (d : Disk) (p target : Path) : Except IoError Disk := do
  let (d, place, n) ← d.makeParent p
  match d.root.find? (place ++ [n]) with
  | none => .ok (d.set (place ++ [n]) (some (.link target)))
  | some _ => .error .alreadyExists

/-- Adds bytes at the end of a file. -/
def appendFile (d : Disk) (p : Path) (bytes : Bytes) : Except IoError Disk := do
  match ← d.resolve p with
  | (_, .file id) =>
    let data := d.fileData id
    .ok { d with files := d.files.set id { data with bytes := data.bytes ++ bytes } }
  | (_, .special) => .error .noDevice
  | _ => .error .isADirectory

/-- Removes a file, a link, or a directory with all that lies in it. -/
def remove (d : Disk) (p : Path) : Except IoError Disk := do
  let names ← d.locate p false
  .ok (d.set names none)

end Disk

end ProjectIndex
