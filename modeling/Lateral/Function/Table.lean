import Lateral.Function.Scalar

/-!
# Native table functions

Ranges of integers and the pieces of a text, one row for each. A null argument
gives no rows.
-/

namespace Lateral

/-- Whether counting in steps of `step` has still to reach `stop`. -/
def beforeStop (stop step current : Int64) : Bool :=
  if step > 0 then current < stop else current > stop

/-- The numbers from `current` in steps of `step` up to `stop` or down to it, without `stop`
itself and `fuel` of them at most. -/
def countFrom (stop step : Int64) : Nat → Int64 → List Int64
  | 0, _ => []
  | fuel + 1, current =>
    if beforeStop stop step current then
      current :: countFrom stop step fuel (current + step)
    else
      []

/-- The numbers of a range. The distance between the limits bounds how many there are, since
each step covers at least one. -/
def rangeNumbers (start stop step : Int32) : List Int32 :=
  let distance := (stop.toInt - start.toInt).natAbs
  (countFrom stop.toInt64 step.toInt64 distance start.toInt64).map Int64.toInt32

/-- One row for each number of a range, unless the step stands still. -/
def rangeRows (name : String) (start stop step : Int32) : Except Error (List Row) :=
  if step = 0 then .error (.call name .zeroStep)
  else .ok ((rangeNumbers start stop step).map fun number => [.int number])

/-- What a list of range arguments amounts to. -/
inductive RangeArguments where
  | integers (numbers : List Int32)
  | holdsNull
  | holdsOther
  deriving DecidableEq

/-- Reads range arguments from the left up to the first that is no integer. -/
def RangeArguments.read : List Value → RangeArguments
  | [] => .integers []
  | .int number :: rest =>
    match read rest with
    | .integers numbers => .integers (number :: numbers)
    | other => other
  | .null :: _ => .holdsNull
  | _ :: _ => .holdsOther

/-- The rows of a range given by its stop, its start and stop, or its start, stop and step. -/
def generateRange (name : String) (arguments : List Value) : Except Error (List Row) :=
  if arguments.isEmpty || 3 < arguments.length then
    .error (.call name (.unmet .oneToThreeArguments))
  else
    match RangeArguments.read arguments with
    | .holdsNull => .ok []
    | .holdsOther => .error (.call name (.unmet .intArguments))
    | .integers [stop] => rangeRows name 0 stop 1
    | .integers [start, stop] => rangeRows name start stop 1
    | .integers [start, stop, step] => rangeRows name start stop step
    | .integers _ => .error (.call name (.unmet .oneToThreeArguments))

/-- One row for each piece of a text between the occurrences of a delimiter. -/
def generateSplit (name : String) : List Value → Except Error (List Row)
  | [text, delimiter] =>
    if text.isNull || delimiter.isNull then .ok []
    else
      match text, delimiter with
      | .string text, .string delimiter =>
        if delimiter.isEmpty then .error (.call name (.emptyDelimiter text))
        else .ok ((Text.split delimiter text).map fun piece => [.string piece])
      | _, _ => .error (.call name (.unmet .stringArguments))
  | _ => .error (.call name (.unmet .twoArguments))

namespace TableFunction

/-- The function `RANGE`: the integers of a range. -/
def range (identity : String) : TableFunction where
  toSignature := nativeSignature identity "RANGE" .int
  schema := [⟨"range", .int⟩]
  generate := generateRange "RANGE"

/-- The function `SPLIT`: the pieces of a text. -/
def split (identity : String) : TableFunction where
  toSignature := nativeSignature identity "SPLIT" .string
  schema := [⟨"token", .string⟩]
  generate := generateSplit "SPLIT"

end TableFunction

end Lateral
