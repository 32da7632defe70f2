import Lateral.Optimizer.Rule
import Lateral.Text.Pieces

/-!
# Command line options

The arguments of the demonstration program:

- `--case-insensitive`: names that differ only in case are the same name,
- `--max-iterations N`: the most rule firings, one to nine decimal digits,
- `--log-file PATH`: where the log goes; the path may be any text.

Arguments are read from the left. What was read before a fault keeps its effect.
-/

namespace Lateral

/-- The settings of the demonstration program. -/
structure Options where
  settings : Settings
  logFile : String
  deriving DecidableEq, Repr

namespace Options

/-- The options of an empty command line. -/
def standard : Options where
  settings := .standard
  logFile := "./logs/zweig.log"

/-- The firing count that an argument writes. A count of nine digits fits in 32 bits. -/
def count? (value : String) : Option UInt32 :=
  if Text.isNumeral value && value.utf8ByteSize < 10 then
    some (UInt32.ofNat (Text.numeralValue value))
  else
    none

/-- The options with names compared without regard to case. -/
def ignoringCase (options : Options) : Options :=
  { options with settings := { options.settings with caseRule := .insensitive } }

/-- The options with another number of rule firings. -/
def withMaxFirings (options : Options) (count : UInt32) : Options :=
  { options with settings := { options.settings with maxFirings := count } }

/-- The options after reading the arguments, and whether all of them could be read. -/
def parse (options : Options) : List String → Options × Status
  | [] => (options, .ok)
  | argument :: rest =>
    if argument = "--case-insensitive" then
      parse options.ignoringCase rest
    else if argument = "--log-file" then
      match rest with
      | [] => (options, .failed (.option (.missingValue argument)))
      | value :: rest => parse { options with logFile := value } rest
    else if argument = "--max-iterations" then
      match rest with
      | [] => (options, .failed (.option (.missingValue argument)))
      | value :: rest =>
        match count? value with
        | some count => parse (options.withMaxFirings count) rest
        | none => (options, .failed (.option (.invalidCount value)))
    else
      (options, .failed (.option (.unknown argument)))

end Options

end Lateral
