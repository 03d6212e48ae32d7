import ProjectIndex.Disk.Tree

/-!
# Where a path leads

A path is resolved step by step from the root or from the current directory.  Every step needs a
directory to stand in; a symbolic link is replaced by the steps of its path; at most forty links
are followed.  What comes out is the list of names that leads to the node without any link, the
canonical place of the node.

`walk` recurses on the links that may still be followed, and between two links on the steps.

To spell that place as an absolute path takes more than to find it.  The canonical form of a path is
found by asking for the absolute path of every node on the way, and it exists only if none of these is
too long, however short the path is and the place to which it leads.  `asked` lists what is asked for in
the order of the walk.
-/

namespace ProjectIndex

/-- A step of a path. -/
inductive Step
  /-- An empty segment, or a period. -/
  | stay
  /-- Two periods. -/
  | up
  /-- A name. -/
  | down (name : FileName)
  deriving DecidableEq, Repr

/-- The step of a segment. -/
def Step.ofSegment (s : Bytes) : Step :=
  match Path.component? s with
  | none => .stay
  | some (.name n) => .down n
  | some _ => .up

/-- The steps of a path. -/
def Path.steps (p : Path) : List Step := (segments p.bytes).map Step.ofSegment

/-- Whether what is under a name has to be shown to be a directory before the steps that follow the name
are taken: they stay there, or go up from there.  A step down shows it by itself. -/
def Step.needDirectory : List Step → Bool
  | [] => false
  | .stay :: rest => rest.isEmpty || needDirectory rest
  | .up :: _ => true
  | .down _ :: _ => false

/-- The absolute path that is asked for at the node under `names`, before the steps `rest`: a slash
behind it asks for a directory. -/
def Path.probe (names : List FileName) (rest : List Step) : Path :=
  if Step.needDirectory rest then ⟨(ofNames names).bytes ++ [slash]⟩ else ofNames names

/-- The greatest number of bytes of a name. -/
def nameLimit : Nat := 255

/-- The greatest number of bytes of a path. -/
def pathLimit : Nat := 4095

/-- The greatest number of links that one path may lead through. -/
def linkLimit : Nat := 40

/-- The place in which a path begins that is met at `base`. -/
def Path.origin (p : Path) (base : List FileName) : List FileName :=
  if p.isAbsolute then [] else base

namespace Disk

/-- Walks `steps` from the directory at `at`, handing the rest of the walk to `follow` at a link.
A link at the last step is left alone unless `followLast` is set. -/
def walkSteps (d : Disk) (followLast : Bool)
    (follow : (base : List FileName) → (target : Path) → List Step → Except IoError (List FileName)) :
    (base : List FileName) → List Step → Except IoError (List FileName)
  | base, [] => .ok base
  | base, s :: rest =>
    match d.root.find? base with
    | some (.directory children) =>
      match s with
      | .stay => walkSteps d followLast follow base rest
      | .up => walkSteps d followLast follow base.dropLast rest
      | .down n =>
        if nameLimit < n.length then .error .nameTooLong
        else match children.lookup n with
          | none => .error .notFound
          | some (.link target) =>
            if rest = [] ∧ followLast = false then .ok (base ++ [n]) else follow base target rest
          | some _ => walkSteps d followLast follow (base ++ [n]) rest
    | some _ => .error .notADirectory
    | none => .error .notFound

/-- Walks steps from a directory, through at most `links` links. -/
def walk (d : Disk) (followLast : Bool) :
    (links : Nat) → (base : List FileName) → List Step → Except IoError (List FileName)
  | 0 => d.walkSteps followLast fun _ _ _ => .error .tooManyLinks
  | links + 1 => d.walkSteps followLast fun base target rest =>
      walk d followLast links (target.origin base) (target.steps ++ rest)

/-- The canonical place of a path. -/
def locate (d : Disk) (p : Path) (followLast : Bool) : Except IoError (List FileName) :=
  if p.bytes.contains 0 then .error .zeroInPath
  else if p.bytes = [] then .error .notFound
  else if pathLimit < p.bytes.length then .error .nameTooLong
  else d.walk followLast linkLimit (p.origin d.here) p.steps

/-- The canonical place of a path, all links followed, and the node there. -/
def resolve (d : Disk) (p : Path) : Except IoError (List FileName × Tree) := do
  let names ← d.locate p true
  match d.root.find? names with
  | some t => .ok (names, t)
  | none => .error .notFound

/-- The node to which a path leads. -/
def node? (d : Disk) (p : Path) : Option Tree :=
  match d.resolve p with
  | .ok (_, t) => some t
  | .error _ => none

/-- Whether the path leads to a file. -/
def isFile (d : Disk) (p : Path) : Bool :=
  match d.node? p with
  | some (.file _) => true
  | _ => false

/-- Whether the path leads to a directory. -/
def isDirectory (d : Disk) (p : Path) : Bool :=
  match d.node? p with
  | some (.directory _) => true
  | _ => false

/-- The absolute paths that are asked for along `steps`, those behind a link being given by `follow`. -/
def askedSteps (d : Disk)
    (follow : (base : List FileName) → (target : Path) → List Step → List Path) :
    (base : List FileName) → List Step → List Path
  | _, [] => []
  | base, .stay :: rest => askedSteps d follow base rest
  | base, .up :: rest => askedSteps d follow base.dropLast rest
  | base, .down n :: rest =>
    match d.root.find? (base ++ [n]) with
    | some (.link target) => .ofNames (base ++ [n]) :: follow base target rest
    | _ => .probe (base ++ [n]) rest :: askedSteps d follow (base ++ [n]) rest

/-- The absolute paths that are asked for along steps, through at most `links` links. -/
def askedAlong (d : Disk) : (links : Nat) → (base : List FileName) → List Step → List Path
  | 0 => d.askedSteps fun _ _ _ => []
  | links + 1 => d.askedSteps fun base target rest =>
      askedAlong d links (target.origin base) (target.steps ++ rest)

/-- The absolute paths that are asked for in order to make a path canonical. -/
def asked (d : Disk) (p : Path) : List Path := d.askedAlong linkLimit (p.origin d.here) p.steps

/-- The absolute path without links, periods and repeated slashes to where a path leads, unless a path
that is asked for on the way is too long. -/
def canonical (d : Disk) (p : Path) : Except IoError Path := do
  let (names, _) ← d.resolve p
  if (d.asked p).any (pathLimit < ·.bytes.length) then .error .nameTooLong else .ok (.ofNames names)

/-- The contents of the file to which a path leads. -/
def readBytes (d : Disk) (p : Path) : Except IoError Bytes := do
  match ← d.resolve p with
  | (_, .file id) =>
    match (d.fileData id).failure with
    | some e => .error e
    | none => .ok (d.fileData id).bytes
  | (_, .special) => .error .noDevice
  | _ => .error .isADirectory

/-- The contents of the file to which a path leads, if they are a text. -/
def readText (d : Disk) (p : Path) : Except IoError String := do
  match Utf8.text? (← d.readBytes p) with
  | some s => .ok s
  | none => .error .notText

end Disk

end ProjectIndex
