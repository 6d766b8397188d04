import Renaming.Datum.Written

/-!
# `Fault` — why a request cannot be answered

Faults are causes, not sentences: each constructor names one way in which an input is unusable and
carries what is needed to point at it. The sentences are written in one place, `message`, so that
a statement about a failure speaks of its cause and the wording can be read off in a table.

Only the faults of mappings, options and files that a user can mend have a sentence. The others
(`hasMessage` is false) are told apart by their cause alone.
-/

set_option autoImplicit false

namespace Renaming

/-- The spellings of a mapping file. -/
inductive Format where
  | yaml
  | srg
  | csrg
  | tsrg
  | tsrg2
  | tiny1
  | tiny2
  | proguard
deriving DecidableEq, Repr

/-- The kinds of symbols that are renamed. -/
inductive SymbolKind where
  | ofClass
  | ofField
  | ofMethod
deriving DecidableEq, Repr

def SymbolKind.word : SymbolKind → String
  | .ofClass => "class"
  | .ofField => "field"
  | .ofMethod => "method"

/-- The rows of a mapping file whose shape is checked as a whole. -/
inductive RowKind where
  | srgLine
  | csrgLine
  | tsrgLine
  | tsrgMember
  | tiny1Row
  | tiny2Row
  | tiny2Member
  | proguardLine
deriving DecidableEq, Repr

/-- How a message names a row, up to its line number. -/
def RowKind.label : RowKind → String
  | .srgLine => "SRG line "
  | .csrgLine => "CSRG line "
  | .tsrgLine => "TSRG line "
  | .tsrgMember => "TSRG member on line "
  | .tiny1Row => "tiny v1 row on line "
  | .tiny2Row => "tiny v2 row on line "
  | .tiny2Member => "tiny v2 member on line "
  | .proguardLine => "ProGuard line "

/-- The notations that begin with a header of namespaces. -/
inductive HeaderKind where
  | tsrg2
  | tiny1
  | tiny2
deriving DecidableEq, Repr

/-- Mapping content that fits no notation, or not the one it is read as. -/
inductive FormatFault where
  | emptyContent (filename : Option Text)
  | unrecognisedContent (filename : Option Text)
  | unrecognisedRow (row : RowKind) (number : Nat) (line : Text)
  | missingHeader (header : HeaderKind)
  | invalidHeader (header : HeaderKind) (line : Text)
  | classWithoutName
  | memberWithoutOwner (number : Nat) (token : Text)
  | memberOutsideClass (number : Nat)
  | classColumns (number : Nat)
  | memberColumns (number : Nat)
  | invalidDocument
  | documentNotMapping
  | conflict (kind : SymbolKind) (key previous next : Text)
deriving DecidableEq, Repr

/-- Options that do not fit the list of mappings or the files at hand. -/
inductive OptionFault where
  | tooManyPairs
  | invalidReverse (list : Text)
  | reverseOutOfRange (indexes : List Int)
  | noSuchMapping (path : Text)
  | pairWithoutColon (pair : Text)
  | inputNotFolder (path : Text)
  | noWorkers
deriving DecidableEq, Repr

/-- Files that cannot be read, written or removed. -/
inductive FileFault where
  | unreadableMapping (path : Text)
  | unreadable (path : Text)
  | unwritable (path : Text)
  | unremovable (path : Text)
  | inputNotFolder (path : Text)
deriving DecidableEq, Repr

/-- Values of a structured document in places where their kind has no meaning. -/
inductive ValueFault where
  /-- A value of this kind cannot be gone through, measured or joined. -/
  | wrongKind
  /-- What is spelt like a value does not exist. -/
  | noSuchValue
  /-- A value without fields stands where a record is needed. -/
  | notRecord
  /-- A key is looked up that is not there. -/
  | missingKey
  /-- The first item is asked of an empty text or row. -/
  | nothingThere
  /-- A number is out of every range. -/
  | outOfRange
  /-- A number has too many digits to be read or written. -/
  | tooManyDigits
  /-- A value contains itself, and what is asked of it has no end. -/
  | endless
  /-- Collections are nested too deeply. -/
  | tooDeep
  /-- A text holds half of a character that is spelt as two. -/
  | loneSurrogate
deriving DecidableEq, Repr

/-- Destinations that no write can reach. -/
inductive PathFault where
  /-- A part of the path is a plain file. -/
  | throughFile
  /-- A folder stands where a file is to be cleaned up. -/
  | folderInPlace
  /-- A name is longer than the file system allows. -/
  | nameTooLong
  /-- A name holds the NUL character. -/
  | nulInName
  /-- The destination does not lie below the output folder. -/
  | outsideOutput
  /-- The system refuses to write there. -/
  | notPermitted
deriving DecidableEq, Repr

/-- Why a request cannot be answered. -/
inductive Fault where
  | keyWithoutOwner (key : Text)
  | keyWithoutDescriptor (key : Text)
  | format (f : FormatFault)
  | namespaceNotFound (requested : Text) (available : List Text)
  | emptyChain
  | file (f : FileFault)
  | option (o : OptionFault)
  | value (v : ValueFault)
  | path (p : PathFault)
  | tooFewWorkers
  /-- The console cannot show a text. -/
  | unshown
  /-- A look-up goes through more classes than the stack has frames left. -/
  | stackFull
deriving DecidableEq, Repr

namespace FormatFault

def filenameText : Option Text → Text
  | none => "None".toList
  | some t => t

/-- The sentence for content that cannot be read. -/
def message : FormatFault → Text
  | emptyContent f => "Mapping content is empty (filename=".toList ++ filenameText f ++ [')']
  | unrecognisedContent f =>
    "Unrecognized mapping format (filename=".toList ++ filenameText f ++ [')']
  | unrecognisedRow row n line =>
    "Unrecognized ".toList ++ row.label.toList ++ Text.ofNat n ++ ": ".toList ++ line.quoted
  | missingHeader .tsrg2 => "TSRG2 mapping has no header".toList
  | missingHeader .tiny1 => "Tiny v1 mapping has no header".toList
  | missingHeader .tiny2 => "Tiny v2 mapping has no header".toList
  | invalidHeader .tsrg2 line => "Invalid TSRG2 header: ".toList ++ line.quoted
  | invalidHeader .tiny1 line => "Invalid tiny v1 header: ".toList ++ line.quoted
  | invalidHeader .tiny2 line => "Invalid tiny v2 header: ".toList ++ line.quoted
  | classWithoutName => "Class row without a first-tier name".toList
  | memberWithoutOwner n token =>
    "Member without owner on line ".toList ++ Text.ofNat n ++ ": ".toList ++ token.quoted
  | memberOutsideClass n => "Member row outside a class on line ".toList ++ Text.ofNat n
  | classColumns n => "Class row with wrong column count on line ".toList ++ Text.ofNat n
  | memberColumns n => "Member row with wrong column count on line ".toList ++ Text.ofNat n
  | invalidDocument => "Invalid structured mapping".toList
  | documentNotMapping => "Structured mapping must be a mapping document".toList
  | conflict kind key previous next =>
    "Conflicting ".toList ++ kind.word.toList ++ " mapping for ".toList ++ key ++ ": ".toList ++
      previous ++ " and ".toList ++ next

end FormatFault

namespace OptionFault

def message : OptionFault → Text
  | tooManyPairs => "More namespace pairs than mappings".toList
  | invalidReverse list => "Invalid reverse index list: ".toList ++ list
  | reverseOutOfRange ns =>
    "Reverse indexes out of range: [".toList ++ Text.commaSeparated (ns.map Text.ofInt) ++ [']']
  | noSuchMapping path => "Mapping path does not exist: ".toList ++ path
  | pairWithoutColon pair => "Namespace pair must be SRC:TGT: ".toList ++ pair
  | inputNotFolder path => "Input path must be a directory: ".toList ++ path
  | noWorkers => "Workers must be greater than zero".toList

end OptionFault

namespace FileFault

/-- The sentence for a file that cannot be used. What the system says of it is left out. -/
def message : FileFault → Text
  | unreadableMapping path => "Cannot read mapping file ".toList ++ path
  | unreadable path => "Cannot read ".toList ++ path
  | unwritable path => "Cannot write ".toList ++ path
  | unremovable path => "Cannot remove ".toList ++ path
  | inputNotFolder path => "Input path must be a directory: ".toList ++ path

end FileFault

namespace Fault

/-- Whether the fault is one that its sentence explains to a user. -/
def hasMessage : Fault → Bool
  | keyWithoutOwner _ | keyWithoutDescriptor _ | format _ | namespaceNotFound .. | emptyChain
  | file _ | option _ => true
  | value _ | path _ | tooFewWorkers | unshown | stackFull => false

/-- The sentence for a fault, empty for those that have none. -/
def message : Fault → Text
  | keyWithoutOwner key => "Member key has no owner: ".toList ++ key.quoted
  | keyWithoutDescriptor key => "Method key has no descriptor: ".toList ++ key.quoted
  | format f => f.message
  | namespaceNotFound requested available =>
    "Namespace ".toList ++ requested.quoted ++ " not found; available: ".toList ++
      Text.commaSeparated available
  | emptyChain => "Mapping chain has no hops".toList
  | file f => f.message
  | option o => o.message
  | value _ | path _ | tooFewWorkers | unshown | stackFull => []

end Fault

end Renaming
