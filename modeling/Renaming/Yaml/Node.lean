import Renaming.Yaml.TokenStream
import Renaming.Yaml.Tag

/-!
# `Yaml/Node` — the nodes that the tokens of a document describe

A node is a scalar or a collection of nodes with a tag. An alias stands for the very node with its
anchor, which may be a node around the alias, so the nodes of a document are a graph: each has a
number, in the order in which they begin, and collections hold numbers. Where a key, a value or an
item is left out, the node there is an empty scalar.

The tokens are read by descent. Every call either takes a token or passes the same tokens to a
narrower reader, so a bound of a few calls per token is never reached.
-/

set_option autoImplicit false

namespace Renaming

namespace Yaml

abbrev NodeId := Nat

/-- What a node is made of. -/
inductive Content where
  | scalar (text : Text)
  | sequence (items : List NodeId)
  | mapping (pairs : List (NodeId × NodeId))

/-- A node of a document. -/
structure Node where
  tag : Tag
  content : Content

/-- The nodes of a document, of which one stands for the whole. -/
structure Graph where
  nodes : Array Node
  root : NodeId

namespace Node

/-- The scalar that stands where nothing is written. -/
def missing : Node := ⟨.null, .scalar []⟩

instance : Inhabited Node := ⟨missing⟩

/-! ## Reading -/

/-- What is left to read of a document, and what it has shown so far. -/
structure Reader where
  tokens : List Token
  nodes : Array Node
  anchors : List (Text × NodeId)
  /-- The abbreviations of tags. -/
  handles : List (Text × Text)
  /-- The number of collections around the next token. -/
  depth : Nat

abbrev Read := StateT Reader (Except Fault)

/-- The next token. A fault of the tokens is found when they are read up to it. -/
def peek : Read Token := do
  match (← get).tokens with
  | .broken f :: _ => throw f
  | t :: _ => return t
  | [] => return .streamEnd

def skip : Read Unit := modify fun s => { s with tokens := s.tokens.tail }

def nextIn (ts : List Token) : Read Bool := return ts.contains (← peek)

/-- Leaves the next token behind if it is this one, and says whether it was. -/
def accept (t : Token) : Read Bool := do
  if (← peek) = t then
    skip
    return true
  else return false

/-- Leaves this token behind, which must come next. -/
def expect (t : Token) : Read Unit := do
  if !(← accept t) then throw malformed

/-! ## Properties -/

/-- The anchor and the tag in front of a node. -/
structure Properties where
  anchor : Option Text
  tag : Option Text

def anchor? : Read (Option Text) := do
  match ← peek with
  | .anchor name =>
    skip
    return some name
  | _ => return none

/-- The full name of the tag that comes next, if one does. -/
def tag? : Read (Option Text) := do
  match ← peek with
  | .tag none suffix =>
    skip
    return some suffix
  | .tag (some handle) suffix =>
    skip
    match (← get).handles.lookup handle with
    | some start => return some (start ++ suffix)
    | none => throw malformed
  | _ => return none

/-- The properties of the next node, in either order. No two nodes share an anchor. -/
def properties : Read Properties := do
  let first ← anchor?
  let tag ← tag?
  let anchor ← if first.isSome || tag.isNone then pure first else anchor?
  return ⟨anchor, tag⟩

def setAnchor (name : Option Text) (id : NodeId) : Read Unit :=
  match name with
  | some n => modify fun s => { s with anchors := (n, id) :: s.anchors }
  | none => pure ()

def checkAnchor (name : Option Text) : Read Unit := do
  let taken := (← get).anchors
  if name.any fun n => (taken.lookup n).isSome then throw malformed

/-- The tag of a scalar. A lone exclamation mark asks for its spelling even between quotes. -/
def scalarTag (p : Properties) (plain : Bool) (text : Text) : Tag :=
  match p.tag with
  | some ['!'] => Tag.byShape text
  | some name => Tag.ofName name
  | none => if plain then Tag.byShape text else .str

def collectionTag (p : Properties) (default : Tag) : Tag :=
  match p.tag with
  | none | some ['!'] => default
  | some name => Tag.ofName name

def add (node : Node) : Read NodeId :=
  modifyGet fun s => (s.nodes.size, { s with nodes := s.nodes.push node })

/-- Adds the scalar that stands where nothing is written. -/
def addMissing : Read NodeId := add missing

def addScalar (p : Properties) (plain : Bool) (text : Text) : Read NodeId := do
  let id ← add ⟨scalarTag p plain text, .scalar text⟩
  setAnchor p.anchor id
  return id

/-- Adds a collection with its properties. Its anchor stands for it from its beginning on, before
its body has been read. -/
def addCollection (p : Properties) (default : Tag) (body : Read Content) : Read NodeId := do
  let tag := collectionTag p default
  let id ← add ⟨tag, .sequence []⟩
  setAnchor p.anchor id
  modify fun s => { s with depth := s.depth + 1 }
  let content ← body
  modify fun s =>
    { s with nodes := s.nodes.setIfInBounds id ⟨tag, content⟩, depth := s.depth - 1 }
  return id

/-- The number of collections that may stand around a node. -/
def maxDepth : Nat := 486

def checkDepth : Read Unit := do
  if maxDepth < (← get).depth then throw (.value .tooDeep)

/-! ## Nodes -/

mutual

/-- A node. Block collections are allowed when `block` holds, and an item of a sequence that is
not indented further than its key when `indentless` does. -/
def read (block indentless : Bool) : Nat → Read NodeId
  | 0 => throw malformed
  | n + 1 => do
    checkDepth
    match ← peek with
    | .alias name =>
      skip
      match (← get).anchors.lookup name with
      | some id => return id
      | none => throw malformed
    | _ =>
      let p ← properties
      let t ← peek
      if indentless && t = .blockEntry then
        checkAnchor p.anchor
        addCollection p .seq (.sequence <$> readIndentless n)
      else
        match t with
        | .scalar text plain =>
          checkAnchor p.anchor
          skip
          addScalar p plain text
        | .flowSequenceStart =>
          checkAnchor p.anchor
          skip
          addCollection p .seq (.sequence <$> readFlowItems true n)
        | .flowMappingStart =>
          checkAnchor p.anchor
          skip
          addCollection p .map (.mapping <$> readFlowPairs true n)
        | .blockSequenceStart =>
          if !block then throw malformed
          checkAnchor p.anchor
          skip
          addCollection p .seq (.sequence <$> readBlockItems n)
        | .blockMappingStart =>
          if !block then throw malformed
          checkAnchor p.anchor
          skip
          addCollection p .map (.mapping <$> readBlockPairs n)
        | _ =>
          if p.anchor.isNone && p.tag.isNone then throw malformed
          checkAnchor p.anchor
          addScalar p true []

/-- A node, or the missing one in front of the tokens that may follow it. -/
def readUnless (followers : List Token) (block indentless : Bool) : Nat → Read NodeId
  | 0 => throw malformed
  | n + 1 => do if ← nextIn followers then addMissing else read block indentless n

/-- The items of a block sequence up to its end. -/
def readBlockItems : Nat → Read (List NodeId)
  | 0 => throw malformed
  | n + 1 => do
    if ← accept .blockEntry then
      let item ← readUnless [.blockEntry, .blockEnd] true false n
      return item :: (← readBlockItems n)
    else
      expect .blockEnd
      return []

/-- The items of a block sequence that has no end of its own. -/
def readIndentless : Nat → Read (List NodeId)
  | 0 => throw malformed
  | n + 1 => do
    if ← accept .blockEntry then
      let item ← readUnless [.blockEntry, .key, .value, .blockEnd] true false n
      return item :: (← readIndentless n)
    else return []

/-- The value behind a key, the missing one without a colon or in front of the tokens that may
follow it. -/
def readValue (followers : List Token) (block : Bool) : Nat → Read NodeId
  | 0 => throw malformed
  | n + 1 => do if ← accept .value then readUnless followers block block n else addMissing

/-- The pairs of a block mapping up to its end. -/
def readBlockPairs : Nat → Read (List (NodeId × NodeId))
  | 0 => throw malformed
  | n + 1 => do
    if ← accept .key then
      let followers : List Token := [.key, .value, .blockEnd]
      let key ← readUnless followers true true n
      let value ← readValue followers true n
      return (key, value) :: (← readBlockPairs n)
    else
      expect .blockEnd
      return []

/-- The items of a flow sequence up to its end. An item may be a single pair without braces. -/
def readFlowItems (first : Bool) : Nat → Read (List NodeId)
  | 0 => throw malformed
  | n + 1 => do
    if ← accept .flowSequenceEnd then return []
    else
      if !first then expect .flowEntry
      if ← accept .key then
        let followers : List Token := [.flowEntry, .flowSequenceEnd]
        let item ← addCollection ⟨none, none⟩ .map (readFlowPair followers n)
        return item :: (← readFlowItems false n)
      else if ← accept .flowSequenceEnd then return []
      else
        let item ← read false false n
        return item :: (← readFlowItems false n)

/-- A single pair of a flow collection behind the mark of its key. -/
def readFlowPair (followers : List Token) : Nat → Read Content
  | 0 => throw malformed
  | n + 1 => do
    let key ← readUnless (.value :: followers) false false n
    let value ← readValue followers false n
    return .mapping [(key, value)]

/-- The pairs of a flow mapping up to its end. A key may stand without a value. -/
def readFlowPairs (first : Bool) : Nat → Read (List (NodeId × NodeId))
  | 0 => throw malformed
  | n + 1 => do
    if ← accept .flowMappingEnd then return []
    else
      if !first then expect .flowEntry
      if ← accept .key then
        let followers : List Token := [.flowEntry, .flowMappingEnd]
        let key ← readUnless (.value :: followers) false false n
        let value ← readValue followers false n
        return (key, value) :: (← readFlowPairs false n)
      else if ← accept .flowMappingEnd then return []
      else
        let key ← read false false n
        let value ← addMissing
        return (key, value) :: (← readFlowPairs false n)

end

/-! ## Documents -/

def defaultHandles : List (Text × Text) := [(['!'], ['!']), (['!', '!'], Tag.family)]

/-- Reads the directives in front of a document: its version, once, and abbreviations of tags,
each once. The document has the abbreviations of the directives and the default ones. -/
def readDirectives (versionSeen : Bool) (own : List (Text × Text)) : Nat → Read Unit
  | 0 => throw malformed
  | n + 1 => do
    match ← peek with
    | .directive d =>
      skip
      match d with
      | .version major _ =>
        if versionSeen || major != 1 then throw malformed else readDirectives true own n
      | .handle handle uri =>
        if (own.lookup handle).isSome then throw malformed
        else readDirectives versionSeen ((handle, uri) :: own) n
      | .other => readDirectives versionSeen own n
    | _ => modify fun s => { s with handles := own ++ defaultHandles }

/-- Leaves the marks of the end of a document behind. -/
def skipDocumentEnds : Nat → Read Unit
  | 0 => pure ()
  | n + 1 => do if ← accept .documentEnd then skipDocumentEnds n

/-- Whether the next token starts a document or ends the text. -/
def atBoundary : Read Bool := do
  match ← peek with
  | .directive _ | .documentStart | .streamEnd => return true
  | _ => return false

/-- The document of a text, if there is one; a text of two documents is refused. -/
def document? (bound : Nat) : Read (Option NodeId) := do
  let root ←
    if ← atBoundary then
      if ← nextIn [.streamEnd] then pure none
      else
        readDirectives false [] bound
        expect .documentStart
        if (← atBoundary) || (← nextIn [.documentEnd]) then some <$> addMissing
        else some <$> read true false bound
    else some <$> read true false bound
  skipDocumentEnds bound
  expect .streamEnd
  return root

/-- The nodes that tokens describe, none for a text without a document. -/
def ofTokens? (tokens : List Token) : Except Fault (Option Graph) := do
  let (root, s) ← (document? (6 * tokens.length + 8)).run ⟨tokens, #[], [], defaultHandles, 0⟩
  return root.map fun id => ⟨s.nodes, id⟩

end Node

end Yaml

end Renaming
