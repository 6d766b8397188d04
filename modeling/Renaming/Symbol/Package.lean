import Renaming.Text.Blank

/-!
# `Symbol/Package` — package prefixes in one form

Packages are written with dots or slashes, with or without a separator at either end. They are
kept in one form, slashes between the parts and one at the end, so that a package matches the
classes in it by being a prefix of their names. The package without a name is a single dot.
-/

set_option autoImplicit false

namespace Renaming

namespace Package

/-- The package of classes that lie in none. -/
def root : Text := ['.']

/-- The spellings of the root package. -/
def rootSpellings : List Text := [[], ['.'], ['/'], ['.', '/']]

/-- The one form of a package name. -/
def canonical (name : Text) : Text :=
  let t := Text.trim name
  if t ∈ rootSpellings then root
  else
    let isSlash := (· == '/')
    Text.dropTrailing isSlash (Text.dropLeading isSlash (Text.replaceChar '.' '/' t)) ++ ['/']

end Package

end Renaming
