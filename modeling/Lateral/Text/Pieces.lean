/-!
# Pieces of a text

Cutting a text at a delimiter and joining pieces with a separator. Delimiters
are found from the left and do not overlap; a text without a delimiter is one
piece, and a delimiter at either end leaves an empty piece there.
-/

namespace Lateral.Text

/-- The pieces in order with the separator between neighbours. -/
def join (separator : String) (parts : List String) : String :=
  separator.intercalate parts

/-- Whether the text begins with `lead`. -/
def startsWith (text lead : String) : Bool :=
  lead.toList.isPrefixOf text.toList

/-- A text of decimal digits only, with at least one of them. -/
def isNumeral (text : String) : Bool :=
  !text.isEmpty && text.toList.all Char.isDigit

/-- The number that a text of decimal digits writes, most significant digit first. -/
def numeralValue (text : String) : Nat :=
  text.toList.foldl (fun value digit => 10 * value + (digit.toNat - '0'.toNat)) 0

/-- Puts a character in front of the first piece. -/
def extendFirst (character : Char) : List (List Char) → List (List Char)
  | [] => [[character]]
  | first :: others => (character :: first) :: others

/-- The pieces between the occurrences of a delimiter, where the first `skip`
characters belong to an occurrence that has been found already. -/
def pieces (delimiter : List Char) : Nat → List Char → List (List Char)
  | _, [] => [[]]
  | skip + 1, _ :: rest => pieces delimiter skip rest
  | 0, character :: rest =>
    if delimiter.isPrefixOf (character :: rest) then
      [] :: pieces delimiter (delimiter.length - 1) rest
    else
      extendFirst character (pieces delimiter 0 rest)

/-- The pieces of a text between the occurrences of a non-empty delimiter. -/
def split (delimiter text : String) : List String :=
  (pieces delimiter.toList 0 text.toList).map String.ofList

/-- A text has at least one piece. -/
theorem pieces_ne_nil (delimiter : List Char) (skip : Nat) (text : List Char) :
    pieces delimiter skip text ≠ [] := by
  fun_induction pieces delimiter skip text with
  | case1 => simp
  | case2 skip _ rest inductionHypothesis => exact inductionHypothesis
  | case3 => simp
  | case4 character rest _ inductionHypothesis =>
      cases shape : pieces delimiter 0 rest with
      | nil => exact absurd shape inductionHypothesis
      | cons first others => simp [extendFirst]

end Lateral.Text
