import Renaming.Text.Digit

/-!
# `CommandLine/Arguments` — from arguments to a request

The first argument names a command, and the others are options with one value each. The value is
the next argument or stands behind an equals sign, and an option may be shortened as long as only
one option of the command begins so. A value that begins with a hyphen is taken for an option,
unless it is a negative number, holds a space or is the hyphen alone. Anything else is refused,
as is a request for help, and no reason is given.
-/

set_option autoImplicit false

namespace Renaming

namespace CommandLine

/-- The options of all commands. -/
inductive OptionName where
  | help
  | mapping
  | namespaces
  | reverse
  | excludePackage
  | input
  | output
  | workers
  | className
deriving DecidableEq, Repr

def OptionName.text : OptionName → Text
  | help => "--help".toList
  | mapping => "--mapping".toList
  | namespaces => "--namespaces".toList
  | reverse => "--reverse".toList
  | excludePackage => "--exclude-package".toList
  | input => "--input".toList
  | output => "--output".toList
  | workers => "--workers".toList
  | className => "--class".toList

def shortHelp : Text := ['-', 'h']

/-- What one argument is, seen on its own. -/
inductive Argument where
  | value
  /-- An option, with the value behind its equals sign if it has one. -/
  | option (name : OptionName) (value : Option Text)
  | refused
deriving DecidableEq, Repr

/-! ## Single arguments -/

/-- Whether a text is spelt like a negative number, whole or with a decimal point. -/
def isNegativeNumber (t : Text) : Bool :=
  let isNumber (u : Text) : Bool := !u.isEmpty && u.all Text.isDecimalDigit
  match (if t.getLast? = some '\n' then t.dropLast else t) with
  | '-' :: r =>
    isNumber r ||
      match Text.cut '.' r with
      | some (whole, places) => whole.all Text.isDecimalDigit && isNumber places
      | none => false
  | _ => false

/-- The option of a command with this full name. -/
def exactOption? (options : List OptionName) (t : Text) : Option OptionName :=
  if t = shortHelp then some .help else options.find? fun o => o.text = t

/-- The options of a command that an argument may shorten. -/
def shortened (options : List OptionName) (t : Text) : List OptionName :=
  match t with
  | '-' :: '-' :: _ => options.filter fun o => Text.startsWith t o.text
  | _ => if Text.startsWith shortHelp t then [.help] else []

def cutValue (t : Text) : Text × Option Text :=
  match Text.cut '=' t with
  | some (name, value) => (name, some value)
  | none => (t, none)

/-- What an argument that begins with a hyphen and more is. -/
def readHyphen (options : List OptionName) (t : Text) : Argument :=
  match exactOption? options t with
  | some o => .option o none
  | none =>
    let (name, value) := cutValue t
    match exactOption? options name with
    | some o => .option o value
    | none =>
      match shortened options name with
      | [o] => .option o value
      | _ :: _ :: _ => .refused
      | [] => if isNegativeNumber t || t.contains ' ' then .value else .refused

def readArgument (options : List OptionName) (t : Text) : Argument :=
  match t with
  | '-' :: _ :: _ => readHyphen options t
  | _ => .value

/-! ## All arguments -/

/-- The options in a list of arguments with their values. -/
def readOptions (options : List OptionName) : List Text → Option (List (OptionName × Text))
  | [] => some []
  | a :: as =>
    match readArgument options a with
    | .value | .refused | .option .help _ => none
    | .option o (some v) => (readOptions options as).map ((o, v) :: ·)
    | .option o none =>
      match as with
      | [] => none
      | v :: as =>
        if readArgument options v = .value then (readOptions options as).map ((o, v) :: ·) else none

def valuesOf (o : OptionName) (given : List (OptionName × Text)) : List Text :=
  given.filterMap fun p => if p.1 = o then some p.2 else none

def lastOf (o : OptionName) (given : List (OptionName × Text)) : Option Text :=
  (valuesOf o given).getLast?

/-! ## Requests -/

/-- The mapping files and how each is to be read. -/
structure MappingOptions where
  mappings : List Text
  namespaces : Text
  reverse : Text
deriving DecidableEq, Repr

/-- What is wanted. -/
inductive Request where
  /-- Rename the assembly files of a folder. -/
  | remap (mapping : MappingOptions) (excluded : List Text) (input output : Text) (workers : Int)
  /-- Show the size of a table and perhaps what becomes of a class. -/
  | inspect (mapping : MappingOptions) (className : Option Text)
deriving DecidableEq, Repr

/-- The options for mapping files, of which there has to be one. -/
def mappingOptions? (given : List (OptionName × Text)) : Option MappingOptions :=
  match valuesOf .mapping given with
  | [] => none
  | ms => some ⟨ms, (lastOf .namespaces given).getD [], (lastOf .reverse given).getD []⟩

/-- The number of workers, four unless another is given. Every number given has to be one. -/
def workers? (given : List (OptionName × Text)) : Option Int :=
  ((valuesOf .workers given).mapM Text.readInt).map fun ns => ns.getLast?.getD 4

def remapOptions : List OptionName :=
  [.help, .mapping, .namespaces, .reverse, .excludePackage, .input, .output, .workers]

def inspectOptions : List OptionName := [.help, .mapping, .namespaces, .reverse, .className]

def readRemap (arguments : List Text) : Option Request := do
  let given ← readOptions remapOptions arguments
  let mapping ← mappingOptions? given
  let workers ← workers? given
  let input ← lastOf .input given
  let output ← lastOf .output given
  return .remap mapping (valuesOf .excludePackage given) input output workers

def readInspect (arguments : List Text) : Option Request := do
  let given ← readOptions inspectOptions arguments
  let mapping ← mappingOptions? given
  return .inspect mapping (lastOf .className given)

/-- The request that arguments make, none if they are refused. -/
def readRequest : List Text → Option Request
  | [] => none
  | command :: arguments =>
    if command = "remap-smali".toList then readRemap arguments
    else if command = "inspect".toList then readInspect arguments
    else none

end CommandLine

end Renaming
