import Renaming.Yaml.Node
import Renaming.Yaml.ScalarValue
import Renaming.Datum.Basic
import Renaming.Datum.Slot

/-!
# `Yaml/Value` — the value of a document

The value of a node follows from its tag. Atoms have theirs at once. A collection is first a place
in the store of the document, and the places are filled in the order in which they were taken, so
a part may well be the collection that it is a part of.

Before a mapping is filled, its merge keys are taken out and the pairs of the mappings that they
name are put in front of its own. This changes the node itself, and whatever reads the node later
finds it changed. Since places are filled in order, of two faults in a document the one nearer to
its root is met first.

This reader is one among those that a run can be given (`DocumentReader`), and the one that the
program uses. Nothing that is proved of the program depends on how it reads.
-/

set_option autoImplicit false

namespace Renaming

namespace Yaml

/-- A document on the way from its nodes to its value. -/
structure Filling where
  /-- The number of the document. -/
  document : Nat
  nodes : Array Node
  /-- The parts that nodes stand for, as far as they have been asked for. -/
  parts : Array (Option Part)
  /-- The collections, each with its node. -/
  places : Array (NodeId × Collection)
  /-- The number of pairs of the document before any were merged. -/
  pairs : Nat

/-- A step on the way from nodes to their value. -/
abbrev Fill := StateT Filling (Except Fault)

namespace Fill

def node (id : NodeId) : Fill Node := return (← get).nodes.getD id .missing

/-! ## Merging -/

abbrev Pair := NodeId × NodeId

def pairsOf (id : NodeId) : Fill (List Pair) := do
  match (← node id).content with
  | .mapping ps => return ps
  | _ => return []

def setPairs (id : NodeId) (ps : List Pair) : Fill Unit :=
  modify fun s =>
    { s with nodes := s.nodes.modify id fun n => { n with content := .mapping ps } }

/-- The first merge key of a mapping is taken out, and its value is the answer. -/
def takeMergeKey? (id : NodeId) : Fill (Option NodeId) := do
  let nodes := (← get).nodes
  let isMerge (p : Pair) : Bool := (nodes.getD p.1 .missing).tag = .merge
  let ps ← pairsOf id
  match ps.find? isMerge with
  | some p =>
    setPairs id (ps.eraseP isMerge)
    return some p.2
  | none => return none

/-- The key that would stand for its mapping is an ordinary one from now on. -/
def asOrdinaryKey (n : Node) : Node := if n.tag = .value then { n with tag := .str } else n

mutual

/-- The pairs of a mapping with the merged ones in front. -/
def merged : Nat → NodeId → Fill (List Pair)
  | 0, _ => throw malformed
  | n + 1, id => do
    let inFront ← takeMerged n id
    let own ← pairsOf id
    modify fun s => { s with nodes := own.foldl (fun a p => a.modify p.1 asOrdinaryKey) s.nodes }
    setPairs id (inFront ++ own)
    return inFront ++ own

/-- The pairs that the merge keys of a mapping name. -/
def takeMerged : Nat → NodeId → Fill (List Pair)
  | 0, _ => throw malformed
  | n + 1, id => do
    match ← takeMergeKey? id with
    | none => return []
    | some value =>
      let ps ← namedPairs n value
      return ps ++ (← takeMerged n id)

/-- The pairs of the mappings that the value of a merge key names. Of several the last comes
first. -/
def namedPairs : Nat → NodeId → Fill (List Pair)
  | 0, _ => throw malformed
  | n + 1, value => do
    match (← node value).content with
    | .scalar _ => throw malformed
    | .mapping _ => merged n value
    | .sequence items =>
      let parts ← items.mapM fun i => do
        match (← node i).content with
        | .mapping _ => merged n i
        | _ => throw malformed
      return parts.reverse.flatten

end

/-- The pairs of a mapping with the merged ones in front. Every step in depth takes out a merge
key, so a bound of a few steps per pair of the document is never reached. -/
def mergedPairs (id : NodeId) : Fill (List Pair) := do merged (4 * (← get).pairs + 8) id

/-! ## Scalars -/

/-- The text of a scalar, or of the value under the key that stands for a mapping. -/
def scalarText (nodes : Array Node) : Nat → NodeId → Except Fault Text
  | 0, _ => .error (.value .endless)
  | n + 1, id =>
    match (nodes.getD id .missing).content with
    | .scalar t => .ok t
    | .sequence _ => .error malformed
    | .mapping ps =>
      match ps.find? fun p => (nodes.getD p.1 .missing).tag = .value with
      | some p => scalarText nodes n p.2
      | none => .error malformed

/-- The atom that a text stands for under a tag for scalars. -/
def atomOf (document : Nat) (id : NodeId) (tag : Tag) (t : Text) : Except Fault Atom :=
  match tag with
  | .null => .ok .null
  | .bool => ScalarValue.bool t
  | .int => ScalarValue.int t
  | .float => ScalarValue.float document id t
  | .binary => ScalarValue.binary t
  | .timestamp => ScalarValue.timestamp t
  | .str => .ok (.text t)
  | .omap | .pairs | .set | .seq | .map | .merge | .value | .other => .error malformed

/-- The atom of a node with a tag for scalars. A date is never given by a stand-in. -/
def atom (s : Filling) (id : NodeId) (n : Node) : Except Fault Atom := do
  let t ← scalarText s.nodes (s.nodes.size + 1) id
  match n.tag, n.content with
  | .timestamp, .mapping _ => throw (.value .wrongKind)
  | tag, _ => atomOf s.document id tag t

/-! ## Parts and collections -/

/-- Takes a place for the collection of a node. -/
def takePlace (id : NodeId) : Fill Nat :=
  modifyGet fun s => (s.places.size, { s with places := s.places.push (id, .empty) })

/-- The part that a node stands for: always the same one. -/
def part (id : NodeId) : Fill Part := do
  match (← get).parts.getD id none with
  | some p => return p
  | none =>
    let n ← node id
    let p ←
      match n.tag with
      | .omap | .pairs | .set | .seq | .map => Part.link <$> takePlace id
      | .merge | .value | .other => throw malformed
      | _ => Part.atom <$> atom (← get) id n
    modify fun s => { s with parts := s.parts.setIfInBounds id (some p) }
    return p

/-- The atom that a key stands for. A collection is no key. -/
def key (id : NodeId) : Fill Atom := do
  match ← part id with
  | .atom a => return a
  | .link _ => throw malformed

/-- The entries of a mapping. The first pair of a key keeps its place and the last its value. -/
def entries (id : NodeId) : Fill (List (Atom × Part)) := do
  let ps ← mergedPairs id
  let es ← ps.mapM fun p => do
    let k ← key p.1
    return (k, ← part p.2)
  return es.foldl (fun m e => Atom.put e.1 e.2 m) []

/-- The pair that a mapping with a single one stands for. -/
def onlyPair (id : NodeId) : Fill (Part × Part) := do
  match (← node id).content with
  | .mapping [p] =>
    let k ← part p.1
    return (k, ← part p.2)
  | _ => throw malformed

def collection (id : NodeId) : Fill Collection := do
  let n ← node id
  match n.tag, n.content with
  | .seq, .sequence items => return .list (← items.mapM part)
  | .map, .mapping _ => return .mapping (← entries id)
  | .set, .mapping _ => return .set (Atom.inSlotOrder ((← entries id).map Prod.fst))
  | .omap, .sequence items | .pairs, .sequence items => return .ofPairs (← items.mapM onlyPair)
  | _, _ => throw malformed

/-- Fills the places from number `k` on. No node has two places, so there are not more of them
than nodes. -/
def fillFrom : Nat → Nat → Fill Unit
  | 0, _ => return ()
  | n + 1, k => do
    match (← get).places[k]? with
    | none => return ()
    | some (id, _) =>
      let c ← collection id
      modify fun s => { s with places := s.places.setIfInBounds k (id, c) }
      fillFrom n (k + 1)

end Fill

def Graph.pairCount (g : Graph) : Nat :=
  g.nodes.foldl (fun k n => k + match n.content with
    | .mapping ps => ps.length
    | _ => 0) 0

/-- The value of a document that has this number. -/
def Graph.value (document : Nat) (g : Graph) : Except Fault Datum := do
  let fill : Fill Part := do
    let p ← Fill.part g.root
    Fill.fillFrom g.nodes.size 0
    return p
  let (p, s) ← fill.run ⟨document, g.nodes, Array.replicate g.nodes.size none, #[], g.pairCount⟩
  return Store.datum ⟨document, s.places.map Prod.snd⟩ p

/-- The value of a text, null for one without a document. Values of different documents are told
apart by the number `document`. -/
def load (document : Nat) (t : Text) : Except Fault Datum := do
  if t.any fun c => !isAllowed c then throw malformed
  match ← Node.ofTokens? (tokens t) with
  | none => return .null
  | some g => g.value document

end Yaml

end Renaming
