import Renaming.Mapping.Srg
import Renaming.Text.Digit

/-!
# `Mapping/ProGuard` — obfuscation reports

A report of ProGuard has a block per class, headed `readable -> obfuscated:`, with a row per
member below it. Types are in their display spelling and in readable names, a member may carry
line numbers in front or behind, and a member whose name has a dot was inlined from another class
and is left out. The mapping goes from obfuscated to readable names, so that descriptors need every
class's obfuscated name; since a class may be used before its own block, they are renamed at the
end.
-/

set_option autoImplicit false

namespace Renaming

namespace ProGuard

/-- The readable and the obfuscated name that a class row announces. The row starts at the margin
and has three words, the second an arrow and the last with a colon behind it. -/
def classRow? (line : Text) : Option (Text × Text) :=
  match line with
  | [] => none
  | c :: _ =>
    if Text.isBlank c then none
    else
      match Text.fields line with
      | [readable, ['-', '>'], obfuscated] =>
        match obfuscated.reverse with
        | ':' :: d :: r => some (readable, (d :: r).reverse)
        | _ => none
      | _ => none

/-- A member as its row spells it. Fields have no parameters. -/
structure MemberText where
  type : Text
  name : Text
  parameters : Option Text
  obfuscated : Text
deriving DecidableEq, Repr

def dropLineNumber? (t : Text) : Option Text :=
  match t.span Text.isDecimalDigit with
  | (_ :: _, ':' :: rest) => some rest
  | _ => none

/-- The type without the pair of line numbers in front of it. A type is never empty, so a pair
alone is a type of its own. -/
def dropLineRange (type : Text) : Text :=
  match (dropLineNumber? type).bind dropLineNumber? with
  | some (c :: r) => c :: r
  | _ => type

/-- The parameters in the parentheses a text begins with, and what follows them. Without
parentheses there are none. -/
def parameters? (t : Text) : Option (Option Text × Text) :=
  match t with
  | '(' :: r => (Text.cut ')' r).map fun p => (some p.1, p.2)
  | r => some (none, r)

/-- What follows a colon and a number, if they are there. -/
def dropColonNumber (t : Text) : Text :=
  match t with
  | ':' :: r =>
    match r.span Text.isDecimalDigit with
    | (_ :: _, rest) => rest
    | _ => t
  | _ => t

/-- The obfuscated name behind the arrow; nothing else may follow it. -/
def arrowTarget? (t : Text) : Option Text :=
  match t with
  | [] => none
  | c :: _ =>
    if Text.isBlank c then
      match Text.fields t with
      | [['-', '>'], obfuscated] => some obfuscated
      | _ => none
    else none

/-- The parts of a member row, which is indented. Blanks at its end do not count. -/
def memberRow? (line : Text) : Option MemberText :=
  let word (t : Text) : Text × Text := t.span fun c => !Text.isBlank c
  match line with
  | [] => none
  | c :: _ =>
    if !Text.isBlank c then none
    else
      let (type, rest) := word (Text.trimLeft line)
      match (Text.trimLeft rest).span fun c => !Text.isBlank c && c != '(' with
      | ([], _) => none
      | (name, rest) => do
        let (parameters, rest) ← parameters? rest
        let obfuscated ← arrowTarget? (dropColonNumber (dropColonNumber rest))
        return ⟨dropLineRange type, name, parameters, obfuscated⟩

/-- The types between the parentheses, trimmed; empty ones are left out. -/
def parameterTypes (t : Text) : List Text :=
  ((Text.splitOn ',' t).map Text.trim).filter fun p => !p.isEmpty

/-- The descriptor of a member in readable names. -/
def MemberText.descriptor (m : MemberText) : Text :=
  match m.parameters with
  | none => Descriptor.ofDisplay m.type
  | some ps => Descriptor.ofMethod (parameterTypes ps) m.type

end ProGuard

namespace Mapping

/-- A report on the way, with the obfuscated names of the readable classes seen so far. -/
structure ReportReading where
  mapping : Mapping
  obfuscated : OrderedMap Text Text
  current : Option Text

/-- Reads a row of a report. Descriptors stay in readable names for now. -/
def proguardStep (s : ReportReading) (p : Nat × Text) : Except Fault ReportReading :=
  let (number, line) := p
  let row := Text.trimRight line
  if Text.startsWith ['#'] (Text.trimLeft line) then .ok s
  else
    match ProGuard.classRow? row with
    | some (readable, obfuscated) => do
      let readable := Descriptor.internalName readable
      let obfuscated := Descriptor.internalName obfuscated
      let (m, name) ← s.mapping.declare (twoNames obfuscated readable) none
      return ⟨m, s.obfuscated.insert readable obfuscated, some name⟩
    | none =>
      match ProGuard.memberRow? row with
      | none => .error (.format (.unrecognisedRow .proguardLine number line))
      | some member =>
        match s.current with
        | none => .error (.format (.memberOutsideClass number))
        | some owner =>
          let row : MemberRow :=
            ⟨twoNames member.obfuscated member.name, some member.descriptor, none⟩
          if '.' ∈ member.name then .ok s
          else if member.parameters.isNone then
            .ok { s with mapping := s.mapping.addField owner row }
          else .ok { s with mapping := s.mapping.addMethod owner row }

/-- The row with the classes of its descriptor renamed. -/
def renameRow (f : Text → Text) (r : MemberRow) : MemberRow :=
  { r with descriptor := r.descriptor.map (Descriptor.rename f) }

/-- The mapping with the classes of every descriptor renamed. -/
def renameDescriptors (f : Text → Text) (m : Mapping) : Mapping :=
  m.classes.keys.foldl (fun m first => m.onOwner first fun c =>
    { c with fields := c.fields.map (renameRow f), methods := c.methods.map (renameRow f) }) m

def ofProGuard (text : Text) : Except Fault Mapping := do
  let namespaces := ["obfuscated".toList, "original".toList]
  let s ← readLines proguardStep ⟨ofNamespaces .proguard namespaces, .empty, none⟩
    text.contentLines
  return s.mapping.renameDescriptors fun c => s.obfuscated.getD c c

end Mapping

end Renaming
