/-!
# Letter case

Case mapping for the ASCII letters. Every other character, accented letters
included, is left as it is, so a text keeps its length under both maps.
-/

namespace Lateral.Text

/-- The text with each capital ASCII letter replaced by its small form. -/
def lower (text : String) : String :=
  text.map Char.toLower

/-- The text with each small ASCII letter replaced by its capital form. -/
def upper (text : String) : String :=
  text.map Char.toUpper

/-- Two texts agree without regard to case when they are equally long and agree character by
character in the small form. -/
def sameIgnoringCase (left right : String) : Bool :=
  left.toList.isEqv right.toList fun one other => one.toLower == other.toLower

/-- The characters of a small form are the small forms of the characters. -/
@[simp] theorem toList_lower (text : String) :
    (lower text).toList = text.toList.map Char.toLower :=
  String.toList_map

/-- The characters of a capital form are the capital forms of the characters. -/
@[simp] theorem toList_upper (text : String) :
    (upper text).toList = text.toList.map Char.toUpper :=
  String.toList_map

/-- Two texts agree without regard to case exactly when their small forms are equal. -/
theorem sameIgnoringCase_iff {left right : String} :
    sameIgnoringCase left right = true ↔ lower left = lower right := by
  rw [sameIgnoringCase, ← String.toList_inj, toList_lower, toList_lower]
  generalize left.toList = characters, right.toList = others
  induction characters generalizing others with
  | nil => cases others <;> simp [List.isEqv]
  | cons character rest inductionHypothesis =>
      cases others <;> simp [List.isEqv, inductionHypothesis]

end Lateral.Text
