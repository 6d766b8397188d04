import Renaming.Mapping.Tiny
import Renaming.Mapping.ProGuard
import Renaming.Text.Word

/-!
# `Mapping/Detection` — telling the notation of a text

The suffix of a file name settles the notation where only one uses it. Otherwise the first line
that says something decides, and if it could belong to several notations, the shape of all lines.
A text in which every line is a row of name-shaped words counts as a compact table only when at
least one of them shows a package path or a method descriptor, so that prose is refused.
-/

set_option autoImplicit false

namespace Renaming

namespace Format

/-- The suffix of a file name in lower case: from the last dot of its last component, unless that
dot is the first or the last character. Only the ASCII letters have a lower case here; no suffix
that names a notation can be reached from other letters. -/
def suffix (filename : Text) : Text :=
  let component := ((Text.splitOn '/' filename).filter fun c => c ≠ [] ∧ c ≠ ['.']).getLast?.getD []
  match Text.cutLast '.' component with
  | some (_ :: _, c :: r) => Text.lowerAscii ('.' :: c :: r)
  | _ => []

/-- The notation that a suffix alone settles. -/
def ofSuffix? (s : Text) : Option Format :=
  if s = ".yaml".toList ∨ s = ".yml".toList then some .yaml
  else if s = ".srg".toList ∨ s = ".xsrg".toList then some .srg
  else if s = ".csrg".toList then some .csrg
  else none

/-- Whether a line starts with a directive of SRG, a colon and a blank. -/
def isSrgRow : Text → Bool
  | a :: b :: ':' :: c :: _ =>
    [['P', 'K'], ['C', 'L'], ['F', 'D'], ['M', 'D']].contains [a, b] && Text.isBlank c
  | _ => false

/-- Whether a line starts with a key of the structured document: its version or its classes. -/
def isDocumentKey (line : Text) : Bool :=
  ["version".toList, "classes".toList].any fun k =>
    Text.startsWith k line && Text.startsWith [':'] (Text.trimLeft (line.drop k.length))

/-- Whether a word could be the name of a class or member. -/
def isNameShaped (word : Text) : Bool :=
  word.all fun c => Text.isWord c || ['$', '/', '<', '>', '-'].contains c

/-- Whether a line is a row of a compact table, and then whether it shows a package path or a
descriptor. -/
def compactRow? (line : Text) : Option Bool :=
  match Text.fields line with
  | [a, b] => if [a, b].all isNameShaped then some (a.contains '/') else none
  | [a, b, c] => if [a, b, c].all isNameShaped then some (a.contains '/') else none
  | [a, b, d, c] =>
    if d.head? = some '(' ∧ ')' ∈ d ∧ [a, b, c].all isNameShaped then some true else none
  | _ => none

/-- Whether the lines form a compact table. -/
def isCompactTable (lines : List Text) : Bool :=
  match lines.mapM compactRow? with
  | some shown => shown.any id
  | none => false

/-- The notation of a list of lines that is not empty, told by its content and, for TSRG, by the
suffix of its file. -/
def ofLines? (suffix first : Text) (lines : List Text) : Option Format :=
  if Text.startsWith "tiny\t2\t".toList first then some .tiny2
  else if Text.startsWith "v1\t".toList first then some .tiny1
  else if Text.startsWith "tsrg2 ".toList first then some .tsrg2
  else if suffix = ".tsrg".toList then some .tsrg
  else if isSrgRow first then some .srg
  else if (ProGuard.classRow? (Text.trimRight first)).isSome then some .proguard
  else if isDocumentKey first then some .yaml
  else if lines.any Mapping.isIndented then some .tsrg
  else if isCompactTable lines then some .csrg
  else none

/-- The notation of a text. -/
def detect (filename : Option Text) (text : Text) : Except Fault Format :=
  let suffix := (filename.map suffix).getD []
  match ofSuffix? suffix with
  | some f => .ok f
  | none =>
    match text.contentLines.map (·.2) with
    | [] =>
      if suffix = ".tsrg".toList then .ok .tsrg
      else if suffix = ".tiny".toList then .ok .tiny2
      else .error (.format (.emptyContent filename))
    | first :: rest =>
      match ofLines? suffix first (first :: rest) with
      | some f => .ok f
      | none => .error (.format (.unrecognisedContent filename))

end Format

end Renaming
