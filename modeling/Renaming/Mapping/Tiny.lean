import Renaming.Mapping.Srg

/-!
# `Mapping/Tiny` — the Tiny notations

Tiny rows are columns between tabs, one name per namespace, with an empty column for a missing
name. Version 1 starts each row with a word for its kind and names the owner of every member.
Version 2 puts members below their class by a tab in front, and comments below what they are
about. In comments, and in names when the header says so, a backslash and a letter stand for
characters that would break the row apart.
-/

set_option autoImplicit false

namespace Renaming

namespace Tiny

/-- The character that a letter behind a backslash stands for. -/
def escapeValue : Char → Char
  | 'n' => '\n'
  | 'r' => '\r'
  | 't' => '\t'
  | '0' => '\x00'
  | c => c

/-- The text that an escaped text stands for. A backslash at the very end stands for itself. -/
def unescape : Text → Text
  | '\\' :: c :: r => escapeValue c :: unescape r
  | c :: r => c :: unescape r
  | [] => []

/-- The escaped form of a text: what would break a row apart is written with a backslash. -/
def escape : Text → Text
  | [] => []
  | '\\' :: r => '\\' :: '\\' :: escape r
  | '\n' :: r => '\\' :: 'n' :: escape r
  | '\r' :: r => '\\' :: 'r' :: escape r
  | '\t' :: r => '\\' :: 't' :: escape r
  | '\x00' :: r => '\\' :: '0' :: escape r
  | c :: r => c :: escape r

def columns (line : Text) : List Text := Text.splitOn '\t' line

def names (escaped : Bool) (columns : List Text) : List (Option Text) :=
  columns.map fun c => (Text.nonempty? c).map fun n => if escaped then unescape n else n

end Tiny

namespace Mapping

/-! ## Version 1 -/

/-- Reads a Tiny v1 row below a header of `width` namespaces. -/
def tiny1Step (width : Nat) (m : Mapping) (p : Nat × Text) : Except Fault Mapping :=
  let (number, line) := p
  let refused : Except Fault Mapping := .error (.format (.unrecognisedRow .tiny1Row number line))
  match Tiny.columns line with
  | kind :: cells =>
    if kind = "CLASS".toList then
      if cells.length = width then (·.1) <$> m.declare (Tiny.names false cells) none else refused
    else
      match cells with
      | owner :: descriptor :: names =>
        let row : MemberRow := ⟨Tiny.names false names, some descriptor, none⟩
        if names.length ≠ width then refused
        else if kind = "FIELD".toList then .ok (m.addField owner row)
        else if kind = "METHOD".toList then .ok (m.addMethod owner row)
        else refused
      | _ => refused
  | [] => refused

def ofTiny1 (text : Text) : Except Fault Mapping :=
  match text.contentLines with
  | [] => .error (.format (.missingHeader .tiny1))
  | (_, header) :: rows =>
    match Tiny.columns header with
    | version :: namespaces =>
      if version = "v1".toList ∧ 2 ≤ namespaces.length then
        readLines (tiny1Step namespaces.length) (ofNamespaces .tiny1 namespaces) rows
      else .error (.format (.invalidHeader .tiny1 header))
    | [] => .error (.format (.invalidHeader .tiny1 header))

/-! ## Version 2 -/

/-- A mapping on the way, with the class and the member whose rows are being read. -/
structure Tiny2Reading where
  mapping : Mapping
  /-- Whether names are escaped. -/
  escaped : Bool
  current : Option Text
  /-- The kind of the member read last in the current class, if its rows are still going on. -/
  member : Option MemberKind

/-- Writes a comment to the last row of a list. -/
def commentLast (comment : Text) : List MemberRow → List MemberRow
  | [] => []
  | [r] => [{ r with comment := some comment }]
  | r :: s :: rs => r :: commentLast comment (s :: rs)

/-- Writes a comment to the member of a class that was read last. -/
def commentMember (m : Mapping) (owner : Text) (kind : MemberKind) (comment : Text) : Mapping :=
  m.onOwner owner fun c =>
    match kind with
    | .field => { c with fields := commentLast comment c.fields }
    | .method => { c with methods := commentLast comment c.methods }

/-- The comment in a row: everything behind its first tab. -/
def rowComment (line : Text) : Text :=
  match Text.cut '\t' line with
  | some (_, comment) => Tiny.unescape comment
  | none => []

def tiny2Class (width : Nat) (s : Tiny2Reading) (number : Nat) (line : Text) :
    Except Fault Tiny2Reading :=
  match Tiny.columns line with
  | ['c'] :: cells =>
    if cells.length = width then do
      let (m, name) ← s.mapping.declare (Tiny.names s.escaped cells) none
      return { s with mapping := m, current := some name, member := none }
    else .error (.format (.unrecognisedRow .tiny2Row number line))
  | _ => .error (.format (.unrecognisedRow .tiny2Row number line))

/-- Reads a row of Tiny v2 directly below a class; `row` is the line without its tab. -/
def tiny2Member (width : Nat) (s : Tiny2Reading) (owner : Text) (number : Nat) (line row : Text) :
    Except Fault Tiny2Reading :=
  let refused : Except Fault Tiny2Reading :=
    .error (.format (.unrecognisedRow .tiny2Member number line))
  let added (kind : MemberKind) (m : Mapping) : Except Fault Tiny2Reading :=
    .ok { s with mapping := m, member := some kind }
  match Tiny.columns row with
  | ['c'] :: _ =>
    .ok { s with
      mapping := s.mapping.onOwner owner fun c => { c with comment := some (rowComment row) }
      member := none }
  | ['f'] :: descriptor :: cells =>
    if cells.length = width then
      added .field (s.mapping.addField owner ⟨Tiny.names s.escaped cells, some descriptor, none⟩)
    else refused
  | ['m'] :: descriptor :: cells =>
    if cells.length = width then
      added .method (s.mapping.addMethod owner ⟨Tiny.names s.escaped cells, some descriptor, none⟩)
    else refused
  | _ => refused

/-- Reads a Tiny v2 row below a header of `width` namespaces. Properties stand in front of the
first class; parameters, local variables and what is said about them have no names to change. -/
def tiny2Step (width : Nat) (s : Tiny2Reading) (p : Nat × Text) : Except Fault Tiny2Reading :=
  let (number, line) := p
  let depth := tabDepth line
  let row := line.drop depth
  match depth, s.current with
  | 0, _ => tiny2Class width s number line
  | 1, none =>
    .ok (if (Tiny.columns row).head? = some "escaped-names".toList then { s with escaped := true }
      else s)
  | 1, some owner => tiny2Member width s owner number line row
  | 2, some owner =>
    match s.member, Tiny.columns row with
    | some kind, ['c'] :: _ =>
      .ok { s with mapping := s.mapping.commentMember owner kind (rowComment row) }
    | _, _ => .ok s
  | _, _ => .ok s

def ofTiny2 (text : Text) : Except Fault Mapping :=
  match text.contentLines with
  | [] => .error (.format (.missingHeader .tiny2))
  | (_, header) :: rows =>
    match Tiny.columns header with
    | ['t', 'i', 'n', 'y'] :: ['2'] :: ['0'] :: namespaces =>
      if 2 ≤ namespaces.length then
        (·.mapping) <$> readLines (tiny2Step namespaces.length)
          ⟨ofNamespaces .tiny2 namespaces, false, none, none⟩ rows
      else .error (.format (.invalidHeader .tiny2 header))
    | _ => .error (.format (.invalidHeader .tiny2 header))

end Mapping

end Renaming
