import Lateral.Text.Case

/-!
# Field names

When two field names count as the same name, and how a list of names is made
distinct. A name that clashes with an earlier one gets the smallest number
appended that makes it free; a name that clashes with none is kept.
-/

namespace Lateral

/-- Whether names that differ only in the case of ASCII letters are different names. -/
inductive CaseRule where
  | sensitive
  | insensitive
  deriving DecidableEq, Repr, Inhabited

namespace CaseRule

/-- The rule that distinguishes case exactly when the flag is set. -/
def ofSensitive (flag : Bool) : CaseRule :=
  if flag then .sensitive else .insensitive

/-- Whether the rule distinguishes case. -/
def isSensitive : CaseRule → Bool
  | .sensitive => true
  | .insensitive => false

/-- The name of the rule. -/
def text : CaseRule → String
  | .sensitive => "sensitive"
  | .insensitive => "insensitive"

/-- What is compared in place of a name: two names are the same name when their keys agree. -/
def key : CaseRule → String → String
  | .sensitive, name => name
  | .insensitive, name => Text.lower name

/-- Whether two texts are the same name. -/
def sameName (rule : CaseRule) (left right : String) : Bool :=
  match rule with
  | .sensitive => left == right
  | .insensitive => Text.sameIgnoringCase left right

/-- Two texts are the same name exactly when their keys agree. -/
theorem sameName_iff (rule : CaseRule) (left right : String) :
    rule.sameName left right = true ↔ rule.key left = rule.key right := by
  cases rule <;> simp [sameName, key, Text.sameIgnoringCase_iff]

/-- Whether a name is still free when the names with the keys `used` are taken. -/
def isFree (rule : CaseRule) (used : List String) (name : String) : Bool :=
  !used.contains (rule.key name)

/-- The name with a number appended. -/
def numbered (name : String) (number : Nat) : String :=
  name ++ toString number

/-- The name itself when it is free, else the name with the smallest number appended that makes
it free. One more number than there are names in use is enough, since the numbered names all
differ. -/
def freshName (rule : CaseRule) (used : List String) (name : String) : String :=
  if rule.isFree used name then name
  else
    (((List.range (used.length + 1)).map (numbered name)).find? (rule.isFree used)).getD name

/-- Makes names distinct from each other and from the names with the keys `used`. -/
def uniquifyBehind (rule : CaseRule) : (used names : List String) → List String
  | _, [] => []
  | used, name :: rest =>
    let fresh := rule.freshName used name
    fresh :: uniquifyBehind rule (rule.key fresh :: used) rest

/-- Makes names distinct, from left to right. -/
def uniquify (rule : CaseRule) (names : List String) : List String :=
  rule.uniquifyBehind [] names

@[simp] theorem length_uniquifyBehind (rule : CaseRule) (used names : List String) :
    (rule.uniquifyBehind used names).length = names.length := by
  induction names generalizing used with
  | nil => rfl
  | cons name rest inductionHypothesis => simp [uniquifyBehind, inductionHypothesis]

@[simp] theorem length_uniquify (rule : CaseRule) (names : List String) :
    (rule.uniquify names).length = names.length :=
  length_uniquifyBehind rule [] names

end CaseRule

end Lateral
