import Renaming.Yaml.Cursor

/-!
# `Yaml/Tag` — the kinds of nodes, and the kind that a plain scalar shows

A tag says what a node stands for. Where none is written, collections are what their brackets or
indentation make them, quoted scalars are text, and a plain scalar is whatever it is spelt like:
`byShape` tries the spellings of truth values, numbers, dates and the two special keys in a fixed
order. Each spelling is one test on the whole scalar below.
-/

set_option autoImplicit false

namespace Renaming

namespace Yaml

/-- What a node stands for. -/
inductive Tag where
  | null
  | bool
  | int
  | float
  | binary
  | timestamp
  | omap
  | pairs
  | set
  | str
  | seq
  | map
  /-- The key `<<`, whose value is merged into the mapping around it. -/
  | merge
  /-- The key `=`, whose value stands for the mapping around it. -/
  | value
  /-- A tag without meaning here. -/
  | other
deriving DecidableEq, Repr

namespace Tag

/-- The beginning of the names of all tags with a meaning. -/
def family : Text := "tag:yaml.org,2002:".toList

/-- The tags with a meaning by the ends of their names. -/
def known : List (String × Tag) :=
  [("null", null), ("bool", bool), ("int", int), ("float", float), ("binary", binary),
    ("timestamp", timestamp), ("omap", omap), ("pairs", pairs), ("set", set), ("str", str),
    ("seq", seq), ("map", map), ("merge", merge), ("value", value)]

def ofName (name : Text) : Tag :=
  (known.findSome? fun p =>
    if family ++ p.1.toList = name then some p.2 else none).getD .other

/-! ## Pieces of spellings -/

def dropSign : Text → Text
  | '+' :: r => r
  | '-' :: r => r
  | r => r

/-- Digits or underscores, a digit first. -/
def isDigitRun : Text → Bool
  | [] => false
  | c :: r => c.isDigit && r.all fun x => x.isDigit || x == '_'

/-- An exponent: the letter, a sign and digits. -/
def isExponent : Text → Bool
  | e :: s :: d :: r =>
    (e == 'e' || e == 'E') && (s == '+' || s == '-') && d.isDigit && r.all Char.isDigit
  | _ => false

/-- The places behind a decimal point, with an exponent or without. -/
def isFraction (t : Text) : Bool :=
  match t.dropWhile fun x => x.isDigit || x == '_' with
  | [] => true
  | r => isExponent r

/-- A number below sixty with one or two digits. -/
def isSexagesimalDigit : Text → Bool
  | [a] => a.isDigit
  | [a, b] => '0' ≤ a && a ≤ '5' && b.isDigit
  | _ => false

/-- Numbers joined by colons, all but the first below sixty. -/
def isSexagesimal (t : Text) : Bool :=
  match Text.splitOn ':' t with
  | first :: d :: ds => isDigitRun first && (d :: ds).all isSexagesimalDigit
  | _ => false

/-! ## Spellings -/

/-- The words for truth values in lower case, capitalised and in upper case. -/
def isBool (t : Text) : Bool :=
  ["yes", "Yes", "YES", "no", "No", "NO", "true", "True", "TRUE", "false", "False", "FALSE",
    "on", "On", "ON", "off", "Off", "OFF"].any fun w => w.toList == t

/-- Numbers with a decimal point, the infinite ones and the one that is no number. -/
def isFloat (t : Text) : Bool :=
  let u := dropSign t
  let words (ws : List String) (x : Text) : Bool := ws.any fun w => w.toList == x
  (match Text.cut '.' u with
    | some (whole, places) =>
      (isDigitRun whole && isFraction places) ||
        (isSexagesimal whole && places.all fun x => x.isDigit || x == '_')
    | none => false) ||
  (match t with
    | '.' :: d :: r => d.isDigit && isFraction r
    | _ => false) ||
  words [".inf", ".Inf", ".INF"] u || words [".nan", ".NaN", ".NAN"] t

/-- Whole numbers in base two, eight, ten, sixteen and sixty. -/
def isInt (t : Text) : Bool :=
  match dropSign t with
  | ['0'] => true
  | '0' :: 'b' :: c :: r => (c :: r).all fun x => x == '0' || x == '1' || x == '_'
  | '0' :: 'x' :: c :: r => (c :: r).all fun x => isHexDigit x || x == '_'
  | '0' :: c :: r => (c :: r).all fun x => ('0' ≤ x && x ≤ '7') || x == '_'
  | c :: r =>
    c != '0' && (isDigitRun (c :: r) || isSexagesimal (c :: r))
  | [] => false

def isNull (t : Text) : Bool :=
  ["", "~", "null", "Null", "NULL"].any fun w => w.toList == t

/-! ## Dates -/

/-- A day and, behind it, a time of day, as they are spelt. -/
structure Timestamp where
  year : Text
  month : Text
  day : Text
  /-- Hour, minute, second, the places of the second, and the offset: its sign, hours and minutes,
  or none of them for universal time. -/
  time : Option (Text × Text × Text × Text × Option (Option (Char × Text × Text)))

/-- One or two digits in front, and what follows them. -/
def oneOrTwoDigits : Text → Option (Text × Text)
  | a :: b :: r =>
    if a.isDigit then if b.isDigit then some ([a, b], r) else some ([a], b :: r) else none
  | [a] => if a.isDigit then some ([a], []) else none
  | [] => none

/-- Two digits behind a mark, and what follows them. -/
def twoDigitsBehind (mark : Char) : Text → Option (Text × Text)
  | m :: a :: b :: r => if m == mark && a.isDigit && b.isDigit then some ([a, b], r) else none
  | _ => none

/-- The offset at the end of a time: nothing, `Z`, or a sign with hours and perhaps minutes. -/
def offset? (t : Text) : Option (Option (Option (Char × Text × Text))) :=
  match t.dropWhile fun x => x == ' ' || x == '\t' with
  | [] => if t.isEmpty then some none else none
  | ['Z'] => some (some none)
  | s :: r =>
    if s == '+' || s == '-' then
      match oneOrTwoDigits r with
      | some (h, []) => some (some (some (s, h, [])))
      | some (h, r) =>
        match twoDigitsBehind ':' r with
        | some (m, []) => some (some (some (s, h, m)))
        | _ => none
      | none => none
    else none

/-- The places of the second in front, and what follows them. -/
def places : Text → Text × Text
  | '.' :: r => r.span Char.isDigit
  | r => ([], r)

/-- A time of day behind its separator, a letter T or blanks. -/
def time? (t : Text) : Option (Text × Text × Text × Text × Option (Option (Char × Text × Text))) := do
  let blank (x : Char) : Bool := x == ' ' || x == '\t'
  let r ← match t with
    | c :: r => if c == 'T' || c == 't' then some r else if blank c then some (r.dropWhile blank) else none
    | [] => none
  let (hour, r) ← oneOrTwoDigits r
  let (minute, r) ← twoDigitsBehind ':' r
  let (second, r) ← twoDigitsBehind ':' r
  let (fraction, r) := places r
  let offset ← offset? r
  return (hour, minute, second, fraction, offset)

def timestamp? (t : Text) : Option Timestamp := do
  let year := t.take 4
  if year.length < 4 || !year.all Char.isDigit then none
  else
    match t.drop 4 with
    | '-' :: r => do
      let (month, r) ← oneOrTwoDigits r
      match r with
      | '-' :: r => do
        let (day, r) ← oneOrTwoDigits r
        if r.isEmpty then return ⟨year, month, day, none⟩
        else return ⟨year, month, day, some (← time? r)⟩
      | _ => none
    | _ => none

/-- A day on its own has two digits for month and day; in front of a time of day one is enough. -/
def isTimestamp (t : Text) : Bool :=
  match timestamp? t with
  | some s => s.time.isSome || t.length == 10
  | none => false

/-- The text without one line feed at its end, which no spelling minds. -/
def dropFinalBreak (t : Text) : Text :=
  if t.getLast? = some '\n' then t.dropLast else t

def byShape (text : Text) : Tag :=
  let t := dropFinalBreak text
  if text = ['\n'] then .str
  else if isBool t then .bool
  else if isFloat t then .float
  else if isInt t then .int
  else if t = ['<', '<'] then .merge
  else if isNull t then .null
  else if isTimestamp t then .timestamp
  else if t = ['='] then .value
  else if t = ['!'] ∨ t = ['&'] ∨ t = ['*'] then .other
  else .str

example : byShape "1:30".toList = .int ∧ byShape "1.5e3".toList = .str ∧
    byShape "08".toList = .str ∧ byShape "2020-01-02".toList = .timestamp := by decide +kernel

end Tag

end Yaml

end Renaming
