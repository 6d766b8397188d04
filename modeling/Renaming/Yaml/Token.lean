import Renaming.Yaml.Scalar
import Renaming.Text.Digit

/-!
# `Yaml/Token` — the tokens of a document

The tokens make the structure that indentation implies explicit: a block collection has a start
and an end of its own, and a key is announced before its text. This file holds the type and the
readers of the tokens that have an inside: directives, anchors and tags.
-/

set_option autoImplicit false

namespace Renaming

namespace Yaml

/-- What a directive says. -/
inductive Directive where
  | version (major minor : Nat)
  | handle (handle uri : Text)
  /-- A directive of an unknown name, which says nothing. -/
  | other
deriving DecidableEq, Repr

/-- A token. -/
inductive Token where
  | directive (d : Directive)
  | documentStart
  | documentEnd
  | streamEnd
  | blockSequenceStart
  | blockMappingStart
  | blockEnd
  | flowSequenceStart
  | flowSequenceEnd
  | flowMappingStart
  | flowMappingEnd
  | blockEntry
  | flowEntry
  | key
  | value
  | alias (name : Text)
  | anchor (name : Text)
  /-- A tag with the handle that abbreviates its beginning, if there is one. -/
  | tag (handle : Option Text) (suffix : Text)
  | scalar (text : Text) (plain : Bool)
  /-- The place where reading could not go on. -/
  | broken (f : Fault)
deriving DecidableEq, Repr

/-! ## Names and numbers -/

/-- A name that is not empty. -/
def name (c : Cursor) : Except Fault (Text × Cursor) :=
  match c.takeWhile isNameChar with
  | ([], _) => .error malformed
  | p => .ok p

/-- A decimal number, zeros in front included not longer than numbers may be. -/
def number (c : Cursor) : Except Fault (Nat × Cursor) :=
  match c.takeWhile Char.isDigit with
  | ([], _) => .error malformed
  | (ds, c) =>
    if Text.maxDigits < ds.length then .error (.value .tooManyDigits)
    else .ok (ds.foldl (fun n d => 10 * n + (d.toNat - 48)) 0, c)

/-- An anchor or alias behind its indicator. -/
def anchorName (c : Cursor) : Except Fault (Text × Cursor) := do
  let (n, c) ← name c.next
  if isGapOrEnd c.head || ['?', ':', ',', ']', '\x7d', '%', '@', Char.ofNat 0x60].contains c.head then
    return (n, c)
  else throw malformed

/-! ## Tags -/

/-- The characters of a tag that stand for themselves. -/
def isTagChar (c : Char) : Bool :=
  c.isAlphanum || ['-', ';', '/', '?', ':', '@', '&', '=', '+', '$', ',', '_', '.', '!', '~', '*',
    '\'', '(', ')', '[', ']'].contains c

/-- The bytes of a run of percent signs with two hexadecimal digits each. -/
def percentBytes : Nat → Cursor → Except Fault (List UInt8 × Cursor)
  | 0, _ => .error malformed
  | n + 1, c =>
    if c.head == '%' then
      let a := c.peek 1
      let b := c.peek 2
      if isHexDigit a && isHexDigit b then do
        let (bs, c) ← percentBytes n (c.advance 3)
        return (UInt8.ofNat (16 * hexValue a + hexValue b) :: bs, c)
      else .error malformed
    else .ok ([], c)

/-- The characters of a tag, percent signs decoded. -/
def tagText : Nat → Text → Cursor → Except Fault (Text × Cursor)
  | 0, _, _ => .error malformed
  | n + 1, acc, c =>
    if c.head == '%' then do
      let (bs, c) ← percentBytes c.steps c
      match String.fromUTF8? (ByteArray.mk bs.toArray) with
      | some s => tagText n (acc ++ s.toList) c
      | none => .error malformed
    else if isTagChar c.head then tagText n (acc ++ [c.head]) c.next
    else .ok (acc, c)

/-- The characters of a tag, of which there is at least one. -/
def tagUri (c : Cursor) : Except Fault (Text × Cursor) := do
  let (t, c') ← tagText c.steps [] c
  if c'.index = c.index then throw malformed else return (t, c')

/-- A tag handle: an exclamation mark alone, or a name between two. -/
def tagHandle (c : Cursor) : Except Fault (Text × Cursor) :=
  if c.head != '!' then .error malformed
  else if c.peek 1 == ' ' then .ok (['!'], c.next)
  else
    let (n, c') := c.next.takeWhile isNameChar
    if c'.head == '!' then .ok ('!' :: n ++ ['!'], c'.next) else .error malformed

/-- A tag: between angle brackets, a lone exclamation mark, or a handle and the rest. -/
def tag (c : Cursor) : Except Fault (Token × Cursor) := do
  let (t, c) ←
    if c.peek 1 == '<' then do
      let (uri, c) ← tagUri (c.advance 2)
      if c.head == '>' then pure (Token.tag none uri, c.next) else throw malformed
    else if isGapOrEnd (c.peek 1) then pure (Token.tag none ['!'], c.next)
    else do
      let word := c.next.rest.takeWhile fun x => !isSpaceOrEnd x
      let (handle, c) ← if word.contains '!' then tagHandle c else pure (['!'], c.next)
      let (suffix, c) ← tagUri c
      pure (Token.tag (some handle) suffix, c)
  if isSpaceOrEnd c.head then return (t, c) else throw malformed

/-! ## Directives -/

/-- The two numbers of a version. -/
def versionDirective (c : Cursor) : Except Fault (Directive × Cursor) := do
  let (major, c) ← number c.skipSpaces
  if c.head != '.' then throw malformed
  let (minor, c) ← number c.next
  if isSpaceOrEnd c.head then return (.version major minor, c) else throw malformed

/-- The handle and the text of an abbreviation. -/
def handleDirective (c : Cursor) : Except Fault (Directive × Cursor) := do
  let (handle, c) ← tagHandle c.skipSpaces
  if c.head != ' ' then throw malformed
  let (uri, c) ← tagUri c.skipSpaces
  if isSpaceOrEnd c.head then return (.handle handle uri, c) else throw malformed

/-- A directive behind its percent sign, with the rest of its line. -/
def directive (c : Cursor) : Except Fault (Directive × Cursor) := do
  let (n, c) ← name c.next
  if !isSpaceOrEnd c.head then throw malformed
  let (d, c) ←
    if n = "YAML".toList then versionDirective c
    else if n = "TAG".toList then handleDirective c
    else pure (.other, c.skipWhile fun x => !isBreak x)
  let c ← ignoredLine c
  return (d, c)

end Yaml

end Renaming
