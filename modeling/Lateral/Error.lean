import Lateral.Naming
import Lateral.Schema

/-!
# Errors

Every failure of the library with its cause. An error belongs to one of five
kinds and has one message; both are read off the cause. Nodes and expressions
appear in a cause by their one-line text.
-/

namespace Lateral

/-- The kinds that callers tell apart. -/
inductive ErrorKind where
  | invalidArgument
  | notFound
  | typeError
  | executionError
  | planInvariantViolation
  deriving DecidableEq, Repr, Inhabited

/-- What a function may want of its arguments. -/
inductive Demand where
  | oneArgument
  | twoArguments
  | oneToThreeArguments
  | intArgument
  | intArguments
  | stringArgument
  | stringArguments
  | numericArguments
  deriving DecidableEq, Repr

namespace Demand

/-- The wording of a demand. -/
def text : Demand → String
  | .oneArgument => "one argument"
  | .twoArguments => "two arguments"
  | .oneToThreeArguments => "one to three arguments"
  | .intArgument => "an int argument"
  | .intArguments => "int arguments"
  | .stringArgument => "a string argument"
  | .stringArguments => "string arguments"
  | .numericArguments => "numeric arguments"

/-- A wrong number of arguments is an execution error, a wrong type a type error. -/
def kind : Demand → ErrorKind
  | .oneArgument => .executionError
  | .twoArguments => .executionError
  | .oneToThreeArguments => .executionError
  | .intArgument => .typeError
  | .intArguments => .typeError
  | .stringArgument => .typeError
  | .stringArguments => .typeError
  | .numericArguments => .typeError

end Demand

/-- How a call of a function can fail. -/
inductive CallFault where
  | unmet (demand : Demand)
  | smallestInt
  | outOfIntRange (result : String)
  | zeroStep
  | emptyDelimiter (text : String)
  | notScalar
  | notTable
  | rowWidth (actual expected : Nat)
  deriving DecidableEq, Repr

namespace CallFault

/-- The message about a call of the named function. -/
def message (function : String) : CallFault → String
  | .unmet demand => function ++ " need " ++ demand.text
  | .smallestInt => function ++ " of the smallest int is out of range"
  | .outOfIntRange result => function ++ " result " ++ result ++ " is out of int range"
  | .zeroStep => function ++ " step can not be zero"
  | .emptyDelimiter text => function ++ " got empty delimiter for '" ++ text ++ "'"
  | .notScalar => function ++ " is no scalar function"
  | .notTable => function ++ " is no table function"
  | .rowWidth actual expected =>
    function ++ " produced a row of " ++ toString actual ++ " values, expected "
      ++ toString expected

/-- Calls fail while they execute; only a demand on types is a type error. -/
def kind : CallFault → ErrorKind
  | .unmet demand => demand.kind
  | _ => .executionError

end CallFault

/-- How a request to a catalog of functions can fail. -/
inductive CatalogFault where
  | taken
  | missing
  | notScalar
  | notTable
  deriving DecidableEq, Repr

namespace CatalogFault

/-- The message about the named function. -/
def message (name : String) : CatalogFault → String
  | .taken => "function " ++ name ++ " is already registered"
  | .missing => "function " ++ name ++ " not found"
  | .notScalar => name ++ " is not a scalar function"
  | .notTable => name ++ " is not a table function"

/-- A name that is taken is an invalid argument, an unknown one is not found, and a function of
the other sort is a type error. -/
def kind : CatalogFault → ErrorKind
  | .taken => .invalidArgument
  | .missing => .notFound
  | .notScalar => .typeError
  | .notTable => .typeError

end CatalogFault

/-- What can be wrong with a plan node. -/
inductive PlanFault where
  | rowWidth (actual expected : Nat)
  | nameCount (names expressions : Nat)
  | danglingReference (expression : String) (index : Nat) (row : Schema)
  | missingRequired (index : Nat) (row : Schema)
  | duplicateName (name : String)
  deriving DecidableEq, Repr

/-- The wording of a fault of a plan node. -/
def PlanFault.text : PlanFault → String
  | .rowWidth actual expected =>
    "row of " ++ toString actual ++ " values, expected " ++ toString expected
  | .nameCount names expressions =>
    toString names ++ " names for " ++ toString expressions ++ " expressions"
  | .danglingReference expression index row =>
    expression ++ " references $" ++ toString index ++ " but the row is " ++ row.text
  | .missingRequired index row =>
    "required column " ++ toString index ++ " not in " ++ row.text
  | .duplicateName name => "duplicate field name " ++ name

/-- Why a correlate can not be split. -/
inductive SplitFault where
  | noCorrelate
  | noTableFunctionCall
  | caseMismatch (correlate optimizer : CaseRule)
  | renamedField (name renamed : String) (row : Schema)
  | changedRow (found expected : Schema)
  deriving DecidableEq, Repr

/-- The wording of a reason not to split. -/
def SplitFault.text : SplitFault → String
  | .noCorrelate => "matched node is no correlate"
  | .noTableFunctionCall => "right input is no table function call"
  | .caseMismatch correlate optimizer =>
    "correlate is case " ++ correlate.text ++ " but the optimizer is case " ++ optimizer.text
  | .renamedField name renamed row =>
    "left field " ++ name ++ " renamed to " ++ renamed ++ ", left row " ++ row.text
      ++ " has duplicate names"
  | .changedRow found expected =>
    "rewritten row " ++ found.text ++ " differs from original row " ++ expected.text

/-- What can be wrong with a command line. -/
inductive OptionFault where
  | missingValue (option : String)
  | invalidCount (value : String)
  | unknown (argument : String)
  deriving DecidableEq, Repr

/-- The wording of a fault of a command line. -/
def OptionFault.text : OptionFault → String
  | .missingValue option => option ++ " need a value"
  | .invalidCount value => "invalid iteration count " ++ value
  | .unknown argument => "unknown option " ++ argument

/-- A failure and its cause. -/
inductive Error where
  | call (function : String) (fault : CallFault)
  | catalog (name : String) (fault : CatalogFault)
  | noSuchField (index : Nat) (row : Schema)
  | uncoveredReference (index count : Nat)
  | shortRow (index width : Nat)
  | noTableFunctionCall (expression : String)
  | plan (node : String) (fault : PlanFault)
  | split (rule : String) (fault : SplitFault)
  | option (fault : OptionFault)
  | raised (kind : ErrorKind) (message : String)
  deriving DecidableEq, Repr

namespace Error

/-- The kind of an error. -/
def kind : Error → ErrorKind
  | .call _ fault => fault.kind
  | .catalog _ fault => fault.kind
  | .noSuchField .. => .planInvariantViolation
  | .uncoveredReference .. => .planInvariantViolation
  | .shortRow .. => .executionError
  | .noTableFunctionCall _ => .executionError
  | .plan .. => .planInvariantViolation
  | .split .. => .planInvariantViolation
  | .option _ => .invalidArgument
  | .raised kind _ => kind

/-- The message of an error. -/
def message : Error → String
  | .call function fault => fault.message function
  | .catalog name fault => fault.message name
  | .noSuchField index row =>
    "field $" ++ toString index ++ " out of range of row " ++ row.text
  | .uncoveredReference index count =>
    "can not substitute $" ++ toString index ++ ", only " ++ toString count
      ++ " expressions below"
  | .shortRow index width =>
    "field $" ++ toString index ++ " out of a row of " ++ toString width ++ " values"
  | .noTableFunctionCall expression => expression ++ " is no table function call"
  | .plan node fault => node ++ ": " ++ fault.text
  | .split rule fault => rule ++ ": " ++ fault.text
  | .option fault => fault.text
  | .raised _ message => message

end Error

/-- How an operation ended when it has no other result. -/
inductive Status where
  | ok
  | failed (error : Error)
  deriving DecidableEq, Repr

namespace Status

/-- The status of an operation whose result is dropped. -/
def ofExcept {α : Type} : Except Error α → Status
  | .ok _ => .ok
  | .error error => .failed error

/-- A status of the given kind, where no kind means success and the message is dropped. -/
def ofKind? (kind : Option ErrorKind) (message : String) : Status :=
  match kind with
  | none => .ok
  | some kind => .failed (.raised kind message)

/-- Whether the operation succeeded. -/
def isOk : Status → Bool
  | .ok => true
  | .failed _ => false

/-- The kind of the failure, if there is one. -/
def kind? : Status → Option ErrorKind
  | .ok => none
  | .failed error => some error.kind

/-- The message of a status; that of success ends its line. -/
def message : Status → String
  | .ok => "OK\n"
  | .failed error => error.message

end Status

end Lateral
