import Renaming.Text.Basic

/-!
# `Symbol/Nesting` — classes that follow the class around them

A nested class is named by its enclosing class, a dollar sign and its own name. Without a rename
of its own it follows the nearest enclosing class that has one and keeps the rest of its name. An
enclosing class renamed to itself counts as not renamed, and hides the classes around it.
-/

set_option autoImplicit false

namespace Renaming

/-- What stands in front of a mark is shorter than the whole. -/
theorem Text.length_lt_of_cutLast {c : Char} {t a b : Text} (h : cutLast c t = some (a, b)) :
    a.length < t.length := by
  rw [(cutLast_eq_some_iff.1 h).1, List.length_append, List.length_cons]
  omega

/-- The new name of a class by its own rename or that of an enclosing class; the old one when
neither applies. -/
def resolveNested (find : Text → Option Text) (name : Text) : Text :=
  match find name with
  | some mapped => mapped
  | none =>
    match h : Text.cutLast '$' name with
    | some (outer, inner) =>
      if outer.isEmpty then name
      else
        have : outer.length < name.length := Text.length_lt_of_cutLast h
        let mapped := resolveNested find outer
        if mapped = outer then name else mapped ++ '$' :: inner
    | none => name
termination_by name.length

theorem resolveNested_eq (find : Text → Option Text) (name : Text) :
    resolveNested find name =
      match find name with
      | some mapped => mapped
      | none =>
        match Text.cutLast '$' name with
        | some (outer, inner) =>
          if outer.isEmpty then name
          else if resolveNested find outer = outer then name
          else resolveNested find outer ++ '$' :: inner
        | none => name := by
  rw [resolveNested]
  split
  · rfl
  · split
    · rename_i hcut
      simp only [hcut]
    · rename_i hcut
      simp only [hcut]

end Renaming
