import Renaming.Text.Basic

/-!
# `Text/Utf8` — text as bytes

Files hold bytes. A text is written in UTF-8, and bytes are read as text only if they are well
formed: the shortest form of every character, no surrogates and nothing behind the last code point.
-/

set_option autoImplicit false

namespace Renaming

namespace Text

def utf8 (t : Text) : List UInt8 := (String.ofList t).toUTF8.toList

/-- The text that bytes spell, if they are well formed. -/
def ofUtf8? (bs : List UInt8) : Option Text := (String.fromUTF8? ⟨bs.toArray⟩).map String.toList

/-- Every line ends with a single line feed: a carriage return counts as one, and together with the
line feed behind it as one too. -/
def unifyBreaks : Text → Text
  | [] => []
  | '\r' :: '\n' :: r => '\n' :: unifyBreaks r
  | c :: r => (if c = '\r' then '\n' else c) :: unifyBreaks r

end Text

end Renaming
