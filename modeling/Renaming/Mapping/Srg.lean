import Renaming.Mapping.Basic
import Renaming.Text.Lines

/-!
# `Mapping/Srg` — the SRG family of notations

SRG rows start with a directive and spell every member with its owner. CSRG drops the directives
and tells rows apart by their number of columns. TSRG puts member rows below their class, indented.
TSRG2 does the same for any number of namespaces, which its header names.

Each notation is read row by row. A reader's step takes what is read so far and one numbered line,
so what a row means is said once, and what a file means follows from the list of its rows.
-/

set_option autoImplicit false

namespace Renaming

namespace Mapping

/-- Goes through the content lines of a text with the step of a notation. -/
def readLines {σ : Type} (step : σ → Nat × Text → Except Fault σ) (start : σ)
    (lines : List (Nat × Text)) : Except Fault σ := lines.foldlM step start

def twoNames (source target : Text) : List (Option Text) := [some source, some target]

/-! ## SRG -/

/-- A member of an SRG row, owner and name in one. -/
def srgMember (number : Nat) (token : Text) : Except Fault MemberKey :=
  match MemberKey.parse token with
  | .ok k => .ok k
  | .error _ => .error (.format (.memberWithoutOwner number token))

/-- Mentions the owner of an SRG member on both sides. -/
def mentionOwners (m : Mapping) (source target : Text) : Mapping :=
  m.onOwner source fun c => { c with names := nameIfMissing c.names 1 target }

/-- The directive of an SRG row and the columns behind its colon. -/
def srgColumns (line : Text) : Text × List Text :=
  match Text.cut ':' line with
  | some (directive, rest) => (directive, Text.fields rest)
  | none => (line, [])

def srgStep (m : Mapping) (p : Nat × Text) : Except Fault Mapping :=
  let (number, line) := p
  match srgColumns line with
  | (['P', 'K'], [source, target]) => .ok (m.addPackage source target)
  | (['C', 'L'], [source, target]) => (·.1) <$> m.declare (twoNames source target) none
  | (['F', 'D'], [source, target]) => do
    let s ← srgMember number source
    let t ← srgMember number target
    return (m.mentionOwners s.owner t.owner).addField s.owner ⟨twoNames s.name t.name, none, none⟩
  | (['F', 'D'], [source, descriptor, target, _]) => do
    let s ← srgMember number source
    let t ← srgMember number target
    return (m.mentionOwners s.owner t.owner).addField s.owner
      ⟨twoNames s.name t.name, some descriptor, none⟩
  | (['M', 'D'], [source, descriptor, target, _]) => do
    let s ← srgMember number source
    let t ← srgMember number target
    return (m.mentionOwners s.owner t.owner).addMethod s.owner
      ⟨twoNames s.name t.name, some descriptor, none⟩
  | _ => .error (.format (.unrecognisedRow .srgLine number line))

def ofSrg (text : Text) : Except Fault Mapping :=
  readLines srgStep (ofNamespaces .srg twoTiers) text.contentLines

/-! ## CSRG -/

def csrgStep (m : Mapping) (p : Nat × Text) : Except Fault Mapping :=
  let (number, line) := p
  match Text.fields line with
  | [source, target] =>
    if Text.endsWith ['/'] source then .ok (m.addPackage source target)
    else (·.1) <$> m.declare (twoNames source target) none
  | [owner, source, target] => .ok (m.addField owner ⟨twoNames source target, none, none⟩)
  | [owner, source, descriptor, target] =>
    if Text.startsWith ['('] descriptor then
      .ok (m.addMethod owner ⟨twoNames source target, some descriptor, none⟩)
    else .error (.format (.unrecognisedRow .csrgLine number line))
  | _ => .error (.format (.unrecognisedRow .csrgLine number line))

def ofCsrg (text : Text) : Except Fault Mapping :=
  readLines csrgStep (ofNamespaces .csrg twoTiers) text.contentLines

/-! ## TSRG -/

/-- A mapping on the way, with the class whose members are being read. -/
structure Reading where
  mapping : Mapping
  current : Option Text

/-- Whether a line starts with a blank or a tab. -/
def isIndented : Text → Bool
  | ' ' :: _ | '\t' :: _ => true
  | _ => false

def tsrgStep (s : Reading) (p : Nat × Text) : Except Fault Reading :=
  let (number, line) := p
  if isIndented line then
    match s.current with
    | none => .error (.format (.memberOutsideClass number))
    | some owner =>
      match Text.fields line with
      | [source, target] =>
        .ok { s with mapping := s.mapping.addField owner ⟨twoNames source target, none, none⟩ }
      | [source, descriptor, target] =>
        .ok { s with
          mapping := s.mapping.addMethod owner ⟨twoNames source target, some descriptor, none⟩ }
      | _ => .error (.format (.unrecognisedRow .tsrgMember number line))
  else
    match Text.fields line with
    | [source, target] =>
      if Text.endsWith ['/'] source then .ok ⟨s.mapping.addPackage source target, none⟩
      else do
        let (m, name) ← s.mapping.declare (twoNames source target) none
        return ⟨m, some name⟩
    | _ => .error (.format (.unrecognisedRow .tsrgLine number line))

def ofTsrg (text : Text) : Except Fault Mapping :=
  (·.mapping) <$> readLines tsrgStep ⟨ofNamespaces .tsrg twoTiers, none⟩ text.contentLines

/-! ## TSRG2 -/

/-- The number of tabs in front of a line. -/
def tabDepth (line : Text) : Nat := (line.takeWhile (· == '\t')).length

/-- Reads a TSRG2 row below a header of `width` namespaces. Rows two tabs deep or more describe
parameters and markers, which have no names to change. -/
def tsrg2Step (width : Nat) (s : Reading) (p : Nat × Text) : Except Fault Reading :=
  let (number, line) := p
  let tokens := Text.fields line
  match tabDepth line with
  | 0 =>
    if tokens.length = width then do
      let (m, name) ← s.mapping.declare (tokens.map some) none
      return ⟨m, some name⟩
    else .error (.format (.classColumns number))
  | 1 =>
    match s.current with
    | none => .error (.format (.memberOutsideClass number))
    | some owner =>
      if tokens.length = width then
        .ok { s with mapping := s.mapping.addField owner ⟨tokens.map some, none, none⟩ }
      else
        match tokens with
        | first :: descriptor :: others =>
          if tokens.length = width + 1 then
            let row : MemberRow := ⟨(first :: others).map some, some descriptor, none⟩
            if Text.startsWith ['('] descriptor then
              .ok { s with mapping := s.mapping.addMethod owner row }
            else .ok { s with mapping := s.mapping.addField owner row }
          else .error (.format (.memberColumns number))
        | _ => .error (.format (.memberColumns number))
  | _ => .ok s

def ofTsrg2 (text : Text) : Except Fault Mapping :=
  match text.contentLines with
  | [] => .error (.format (.missingHeader .tsrg2))
  | (_, header) :: rows =>
    match Text.fields header with
    | word :: namespaces =>
      if word = "tsrg2".toList ∧ 2 ≤ namespaces.length then
        (·.mapping) <$>
          readLines (tsrg2Step namespaces.length) ⟨ofNamespaces .tsrg2 namespaces, none⟩ rows
      else .error (.format (.invalidHeader .tsrg2 header))
    | [] => .error (.format (.invalidHeader .tsrg2 header))

end Mapping

end Renaming
