import Renaming.Text.Basic

/-!
# `Text/Blank` — white space, and the cuts that follow it

A blank is any Unicode white-space character, the four information separators U+001C to U+001F
included; the zero-width space and the byte-order mark are not blank. The mapping notations put
names between blanks (`fields`), the recognisers of assembly lines stop at them, and option values
are trimmed of them. The characters are given once, as ranges, so that no two readers can disagree
about one of them.
-/

set_option autoImplicit false

namespace Renaming

namespace Text

/-- Whether a code point lies in one of the closed ranges. -/
def inRanges (ranges : List (Nat × Nat)) (n : Nat) : Bool :=
  ranges.any fun r => r.1 ≤ n && n ≤ r.2

/-- The blank characters as closed ranges, ascending and apart. -/
def blankRanges : List (Nat × Nat) :=
  [(0x09, 0x0D), (0x1C, 0x20), (0x85, 0x85), (0xA0, 0xA0), (0x1680, 0x1680), (0x2000, 0x200A),
   (0x2028, 0x2029), (0x202F, 0x202F), (0x205F, 0x205F), (0x3000, 0x3000)]

/-- White space of any kind. -/
def isBlank (c : Char) : Bool := inRanges blankRanges c.toNat

example : isBlank '\u00a0' = true ∧ isBlank '\u200b' = false ∧ isBlank '\ufeff' = false := by decide

/-- Whether nothing but blanks is there. -/
def isBlankText (t : Text) : Bool := t.all isBlank

def trimLeft (t : Text) : Text := dropLeading isBlank t

def trimRight (t : Text) : Text := dropTrailing isBlank t

def trim (t : Text) : Text := trimRight (trimLeft t)

/-- The maximal runs of characters that are not blank, in order. -/
def fields (t : Text) : List Text := (splitWhere isBlank t).filter fun w => !w.isEmpty

/-- A field is a word: it is not empty and holds no blank. -/
theorem of_mem_fields {t w : Text} (h : w ∈ fields t) : w ≠ [] ∧ ∀ c ∈ w, isBlank c = false := by
  simp only [fields, List.mem_filter, Bool.not_eq_true', List.isEmpty_eq_false_iff] at h
  exact ⟨h.2, fun c hc => not_of_mem_splitWhere h.1 hc⟩

end Text

end Renaming
