import ProjectIndex.Yaml.Error
import ProjectIndex.Yaml.Event

/-!
# The first document of a text

The events of a document are gathered into a tree of nodes.  An alias is a node of its own, which
names the anchored node by number, so the tree is finite even where a document refers to itself.

A text may break off inside its document.  The tree then ends in a `Node.cut` wherever a part is
missing, and what stands before the cut can be read: an error of the content that comes earlier is
reported rather than the fault of the text.

Anchors are numbered by how many different names have been used before.  A name that is used again
gets a number of its own, which the next new name gets too, and a number means the node that got
it last.
-/

namespace ProjectIndex.Yaml

/-- A part of a document. -/
inductive Node
  | scalar (mark : Mark) (tag : Option Bytes) (text : List Char) (style : ScalarStyle)
  /-- A reference to the node with an anchor's number. -/
  | aliasOf (mark : Mark) (anchor : Nat)
  | sequence (mark : Mark) (tag : Option Bytes) (items : List Node)
  | mapping (mark : Mark) (tag : Option Bytes) (entries : List (Node × Node))
  /-- The content of a text without any document. -/
  | void (mark : Mark)
  /-- The place at which the text breaks off. -/
  | cut
  deriving Repr, Inhabited

/-- The place where a node begins. -/
def Node.mark : Node → Mark
  | scalar m .. => m
  | aliasOf m _ => m
  | sequence m .. => m
  | mapping m .. => m
  | void m => m
  | cut => .origin

/-- Whether the node refers to another one. -/
def Node.isAlias : Node → Bool
  | aliasOf .. => true
  | _ => false

/-- The first document of a text. -/
structure Content where
  root : Node
  /-- The anchored nodes by number, the meaning of a number being its first entry. -/
  anchors : List (Nat × Node)
  /-- How many nodes, counting the ends of collections, the document has. -/
  size : Nat
  /-- Why the text breaks off in or right after the document. -/
  error : Option Error
  /-- Whether more follows the document. -/
  hasMore : Bool

/-- A collection that is being gathered. -/
structure OpenNode where
  mark : Mark
  tag : Option Bytes
  isMapping : Bool
  /-- The position of its start among the events, if it is anchored. -/
  anchored : Option Nat
  /-- Its items, or the keys and values of its entries in turn, backwards. -/
  parts : List Node

/-- The entries made of keys and values in turn; a key without a value is cut off. -/
def pairUp : List Node → List (Node × Node)
  | k :: v :: rest => (k, v) :: pairUp rest
  | [k] => [(k, .cut)]
  | [] => []

/-- The collection with the parts gathered so far. -/
def OpenNode.close (o : OpenNode) : Node :=
  if o.isMapping then .mapping o.mark o.tag (pairUp o.parts.reverse)
  else .sequence o.mark o.tag o.parts.reverse

/-- A document that is being gathered. -/
structure Gathering where
  /-- The events of the document so far. -/
  size : Nat
  /-- The number of each anchor name, its last use first. -/
  names : List (List Char × Nat)
  /-- How many different names there are. -/
  distinct : Nat
  /-- For each number the position of the node that got it, the last one first. -/
  starts : List (Nat × Nat)
  /-- The finished anchored nodes by position. -/
  finished : List (Nat × Node)
  /-- The open collections, the innermost first. -/
  opened : List OpenNode
  root : Option Node

namespace Gathering

/-- Nothing gathered. -/
def empty : Gathering := ⟨0, [], 0, [], [], [], none⟩

/-- Adds a finished node to the innermost open collection. -/
def place (g : Gathering) (n : Node) : Gathering :=
  match g.opened with
  | [] => { g with root := some n }
  | o :: os => { g with opened := { o with parts := n :: o.parts } :: os }

/-- Records a finished node that is anchored. -/
def record (g : Gathering) (anchored : Option Nat) (n : Node) : Gathering :=
  match anchored with
  | none => g
  | some position => { g with finished := (position, n) :: g.finished }

/-- Numbers the anchor in front of the node that starts here, if there is one. -/
def anchor (g : Gathering) : Option (List Char) → Gathering × Option Nat
  | none => (g, none)
  | some name =>
    let isNew := (g.names.lookup name).isNone
    ({ g with
      names := (name, g.distinct) :: g.names
      distinct := if isNew then g.distinct + 1 else g.distinct
      starts := (g.distinct, g.size) :: g.starts },
      some g.size)

/-- Counts an event. -/
def count (g : Gathering) : Gathering := { g with size := g.size + 1 }

/-- Closes the innermost open collection. -/
def close (g : Gathering) : Gathering :=
  match g.opened with
  | [] => g
  | o :: os =>
    let n := o.close
    ({ g with opened := os }.record o.anchored n).place n

/-- Closes all open collections after a cut; `fuel` bounds their number. -/
def closeAll (g : Gathering) : (fuel : Nat) → Gathering
  | 0 => g
  | fuel + 1 =>
    match g.opened with
    | [] => g
    | _ => g.close.closeAll fuel

/-- The document gathered, if the text ended it properly or broke off. -/
def finish (g : Gathering) (error : Option Error) (hasMore : Bool) : Content :=
  let g := if g.opened.isEmpty then g else (g.place .cut).closeAll g.opened.length
  { root := g.root.getD .cut
    anchors := g.starts.filterMap fun s => (g.finished.lookup s.2).map fun n => (s.1, n)
    size := g.size, error, hasMore }

/-- Opens a collection. -/
def enter (g : Gathering) (m : Mark) (name : Option (List Char)) (tag : Option Bytes)
    (isMapping : Bool) : Gathering :=
  let (g, anchored) := g.anchor name
  { g with opened := ⟨m, tag, isMapping, anchored, []⟩ :: g.opened }

/-- Gathers the first document of a stream of events, which may break off in a fault. -/
def run (fault : Option Fault) : Gathering → List Event → Content
  | g, [] => g.finish (fault.map .fault) false
  | g, e :: es =>
    match e.kind with
    | .streamStart => run fault g es
    | .documentStart => run fault g es
    | .documentEnd => g.finish none (es.head?.map (·.kind) != some .streamEnd)
    | .streamEnd =>
      if g.size = 0 then (g.count.place (.void e.mark)).finish none false
      else g.finish none false
    | .aliasOf name =>
      match g.names.lookup name with
      | some n => run fault (g.place (.aliasOf e.mark n)).count es
      | none => g.finish (some (.unknownAlias e.mark)) false
    | .scalar name tag text style =>
      let (g, anchored) := g.anchor name
      let n : Node := .scalar e.mark tag text style
      run fault ((g.record anchored n).place n).count es
    | .sequenceStart name tag => run fault (g.enter e.mark name tag false).count es
    | .mappingStart name tag => run fault (g.enter e.mark name tag true).count es
    | .sequenceEnd => run fault g.close.count es
    | .mappingEnd => run fault g.close.count es

end Gathering

/-- The first document of a text. -/
def Content.ofText (text : List Char) : Content :=
  let (es, fault) := events (.ofText text)
  Gathering.empty.run fault es

end ProjectIndex.Yaml
