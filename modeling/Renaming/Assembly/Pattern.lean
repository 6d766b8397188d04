import Renaming.Text.Word

/-!
# `Assembly/Pattern` — the shapes in which names stand in code

Five shapes hold names: the declaration of a class, the definitions of a field and of a method at
the start of a line, and, anywhere in it, the reference to a member of a class and the type `L…;`.
In each of them a name runs as far as its characters allow, and what follows it has to fit, so a
shape is recognised in one way only. `scan` finds a shape from left to right, each time going on
behind the one it found.
-/

set_option autoImplicit false

namespace Renaming

namespace Assembly

/-! ## Characters of names -/

/-- Whether a character is blank or one of these marks. -/
def isBlankOr (marks : List Char) (c : Char) : Bool := Text.isBlank c || marks.contains c

/-- The characters of the name in a declaration. -/
def isDeclaredChar (c : Char) : Bool := !isBlankOr [';', '"'] c

/-- The characters of the owner in a reference. -/
def isOwnerChar (c : Char) : Bool :=
  !isBlankOr [';', '"', '(', ')', '[', ']', '\x7b', '\x7d', ':', ','] c

def isClassChar (c : Char) : Bool := isOwnerChar c && !(['=', '<', '>'].contains c)

/-- The characters of the name of a field or method where it is referred to. -/
def isMemberChar (c : Char) : Bool := !isBlankOr ['(', ':', '"'] c

/-- The characters of the name of a field where it is defined. -/
def isFieldChar (c : Char) : Bool := !isBlankOr [':', '"'] c

/-- The characters of the name of a method where it is defined. -/
def isMethodChar (c : Char) : Bool := !isBlankOr ['(', '"'] c

/-- The characters of the parameter types of a method. -/
def isParameterChar (c : Char) : Bool := !isBlankOr [')'] c

/-- The characters of the class in a result or field type of a reference. -/
def isResultChar (c : Char) : Bool := !isBlankOr [';'] c

/-- Any character that is not blank. -/
def isInk (c : Char) : Bool := !Text.isBlank c

/-- The longest run of characters in `p`, if it is not empty, and what follows it. -/
def run? (p : Char → Bool) (t : Text) : Option (Text × Text) :=
  match t.takeWhile p with
  | [] => none
  | c :: r => some (c :: r, t.dropWhile p)

/-- What follows `head` in a text that begins with it. -/
def after? (head t : Text) : Option Text :=
  if Text.startsWith head t then some (t.drop head.length) else none

/-! ## Scanning -/

/-- The places at which `find` recognises a shape, with what it answers. It tells the length of the
shape, and the characters of one that was found, `skip` of which are left, are passed over. -/
def scanFrom {α : Type} (find : Text → Option (α × Nat)) : Nat → Nat → Text → List (Nat × α × Nat)
  | _, _, [] => []
  | skip + 1, i, _ :: r => scanFrom find skip (i + 1) r
  | 0, i, c :: r =>
    match find (c :: r) with
    | some (a, n) => (i, a, n) :: scanFrom find (n - 1) (i + 1) r
    | none => scanFrom find 0 (i + 1) r

/-- The shapes in a text from left to right. -/
def scan {α : Type} (find : Text → Option (α × Nat)) (t : Text) : List (Nat × α × Nat) :=
  scanFrom find 0 0 t

/-! ## Types -/

/-- The class of a type at the start of a text, with the length of the type. -/
def type? (t : Text) : Option (Text × Nat) :=
  match t with
  | 'L' :: r =>
    match run? isClassChar r with
    | some (name, ';' :: _) => some (name, name.length + 2)
    | _ => none
  | _ => none

/-! ## References -/

/-- A reference to a member: the class before the arrow, the name behind it, and a method's
descriptor. -/
structure Reference where
  owner : Text
  name : Text
  descriptor : Option Text
deriving DecidableEq, Repr

/-- The type of a result or of a field at the start of a text: array brackets, then the letter of
one of these primitive types or a class. -/
def result? (primitives : List Char) (t : Text) : Option Text :=
  let brackets := t.takeWhile (· == '[')
  match t.dropWhile (· == '[') with
  | 'L' :: r =>
    match run? isResultChar r with
    | some (name, ';' :: _) => some (brackets ++ 'L' :: name ++ [';'])
    | _ => none
  | c :: _ => if primitives.contains c then some (brackets ++ [c]) else none
  | [] => none

def primitives : List Char := ['Z', 'B', 'S', 'C', 'I', 'J', 'F', 'D']

/-- What stands behind the name in a reference: the descriptor of a method, or none for a field,
and the length. -/
def signature? (t : Text) : Option (Option Text × Nat) :=
  match t with
  | '(' :: r =>
    match r.dropWhile isParameterChar with
    | ')' :: rest =>
      (result? ('V' :: primitives) rest).map fun result =>
        let d := '(' :: r.takeWhile isParameterChar ++ ')' :: result
        (some d, d.length)
    | _ => none
  | ':' :: r => (result? primitives r).map fun type => (none, type.length + 1)
  | _ => none

/-- The reference at the start of a text, with its length. -/
def reference? (t : Text) : Option (Reference × Nat) :=
  match t with
  | 'L' :: r =>
    match run? isOwnerChar r with
    | some (owner, ';' :: '-' :: '>' :: r) =>
      match run? isMemberChar r with
      | some (name, r) =>
        (signature? r).map fun (descriptor, n) =>
          (⟨owner, name, descriptor⟩, owner.length + name.length + n + 4)
      | none => none
    | _ => none
  | _ => none

/-! ## Definitions -/

/-- The flags in front of the name in a definition: words of letters, digits, underscores and
hyphens with blanks behind each. Answers how many characters they take. -/
def flagsLength : Nat → Text → Nat
  | 0, _ => 0
  | fuel + 1, t =>
    match run? (fun c => Text.isWord c || c == '-') t with
    | some (word, r) =>
      match run? Text.isBlank r with
      | some (gap, r) => word.length + gap.length + flagsLength fuel r
      | none => 0
    | none => 0

/-- What stands behind a directive at the start of a line, the blanks behind it and the flags, and
where it stands. -/
def afterDirective? (directive line : Text) : Option (Nat × Text) := do
  let indent := (line.takeWhile Text.isBlank).length
  let (gap, r) ← run? Text.isBlank (← after? directive (line.drop indent))
  let flags := flagsLength r.length r
  return (indent + directive.length + gap.length + flags, r.drop flags)

/-- The definition of a field: where its name stands, the name and the type. -/
structure FieldDefinition where
  place : Nat
  name : Text
  type : Text
deriving DecidableEq, Repr

namespace FieldDefinition

def typePlace (d : FieldDefinition) : Nat := d.place + d.name.length + 1

def stop (d : FieldDefinition) : Nat := d.typePlace + d.type.length

end FieldDefinition

/-- The definition of a field on a line: the directive, flags, and the name with its type behind a
colon. -/
def fieldDefinition? (line : Text) : Option FieldDefinition := do
  let (place, r) ← afterDirective? ".field".toList line
  let (name, r) ← run? isFieldChar r
  let (type, _) ← run? isInk (← after? [':'] r)
  return ⟨place, name, type⟩

/-- The definition of a method: where its name stands, the name, the types of its parameters and of
its result. -/
structure MethodDefinition where
  place : Nat
  name : Text
  parameters : Text
  result : Text
deriving DecidableEq, Repr

namespace MethodDefinition

def parametersPlace (d : MethodDefinition) : Nat := d.place + d.name.length + 1

def resultPlace (d : MethodDefinition) : Nat := d.parametersPlace + d.parameters.length + 1

def stop (d : MethodDefinition) : Nat := d.resultPlace + d.result.length

def descriptor (d : MethodDefinition) : Text := '(' :: d.parameters ++ ')' :: d.result

end MethodDefinition

def methodDefinition? (line : Text) : Option MethodDefinition := do
  let (place, r) ← afterDirective? ".method".toList line
  let (name, r) ← run? isMethodChar r
  let r ← after? ['('] r
  let parameters := r.takeWhile isParameterChar
  let (result, _) ← run? isInk (← after? [')'] (r.dropWhile isParameterChar))
  return ⟨place, name, parameters, result⟩

/-! ## Declarations -/

/-- The class behind a declaring directive: the first `L…;` in front of every quote whose letter
does not end a word. `previous` is the character in front. -/
def declaredIn? (previous : Char) : Text → Option Text
  | [] => none
  | c :: r =>
    let here :=
      if c = 'L' ∧ Text.isWord previous = false then
        match run? isDeclaredChar r with
        | some (name, ';' :: _) => some name
        | _ => none
      else none
    match here with
    | some name => some name
    | none => if c = '"' then none else declaredIn? c r

def declaration? (code : Text) : Option Text := do
  let r ← after? ".class".toList (code.dropWhile Text.isBlank)
  if r.head?.any Text.isWord then none else declaredIn? 's' r

end Assembly

end Renaming
