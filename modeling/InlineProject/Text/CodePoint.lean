/-!
Texts that may hold half of a surrogate pair. An escape in a quoted scalar can name such a half,
so a loaded text is a list of code points; only a text without halves is a `String`.
-/

namespace InlineProject

/-- One code point: a character, or half of a surrogate pair that stands alone. -/
inductive CodePoint where
  | char (c : Char)
  | half (offset : Fin 2048)
deriving DecidableEq, Inhabited

abbrev Text := List CodePoint

-- The first code unit that is no character.
def CodePoint.firstHalf : Nat := 0xD800

/-- The number of a code point; characters and halves do not overlap. -/
def CodePoint.toNat : CodePoint → Nat
  | .char c => c.toNat
  | .half offset => firstHalf + offset.val

/-- The code point of a number, if there is one. -/
def CodePoint.ofNat? (n : Nat) : Option CodePoint :=
  if h : n.isValidChar then some (.char (Char.ofNatAux n h))
  else if h : firstHalf ≤ n ∧ n < firstHalf + 2048 then
    some (.half ⟨n - firstHalf, by omega⟩)
  else none

def CodePoint.toChar? : CodePoint → Option Char
  | .char c => some c
  | .half _ => none

namespace Text

def ofChars (cs : List Char) : Text := cs.map .char

def ofString (s : String) : Text := ofChars s.toList

/-- The characters, where no half stands alone. -/
def toChars? (t : Text) : Option (List Char) := t.mapM CodePoint.toChar?

def toString? (t : Text) : Option String := (toChars? t).map String.ofList

-- Readers of numbers need no more than this: a replacement character is no part of one.
/-- The characters, with U+FFFD for each half. -/
def toCharsLossy (t : Text) : List Char := t.map fun
  | .char c => c
  | .half _ => '\uFFFD'

def toStringLossy (t : Text) : String := String.ofList (toCharsLossy t)

@[simp] theorem toChars_ofChars (cs : List Char) : toChars? (ofChars cs) = some cs := by
  induction cs with
  | nil => rfl
  | cons c rest ih =>
      simp only [toChars?, ofChars, List.map_cons, List.mapM_cons, CodePoint.toChar?] at *
      rw [ih]; rfl

@[simp] theorem toString_ofString (s : String) : toString? (ofString s) = some s := by
  simp [toString?, ofString]

end Text
end InlineProject
