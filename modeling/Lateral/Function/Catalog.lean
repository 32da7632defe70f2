import Lateral.Function.Arithmetic
import Lateral.Function.Table

/-!
# Catalog of functions

Functions by name, without regard to the case of ASCII letters. Registering a
function under a name that is taken is refused; registering the native functions
makes new ones and puts them in place whatever the catalog held under their names.
-/

namespace Lateral

/-- The functions that are registered, each under the capital form of its name. -/
structure Catalog where
  entries : List (String × Function)

namespace Catalog

/-- The catalog without functions. -/
def empty : Catalog :=
  ⟨[]⟩

/-- The function that is registered under a name in capital letters. -/
def lookup? (catalog : Catalog) (key : String) : Option Function :=
  (catalog.entries.find? fun entry => entry.1 == key).map Prod.snd

/-- Whether a function is registered under the name. -/
def contains (catalog : Catalog) (name : String) : Bool :=
  (catalog.lookup? (Text.upper name)).isSome

/-- Puts a function under its name, in front of one that is there. -/
def insert (catalog : Catalog) (function : Function) : Catalog :=
  ⟨(Text.upper function.name, function) :: catalog.entries⟩

/-- The native functions as they are made at one time. They are new functions whenever they are
made, so it has to be said which identity the function of each name gets; its name serves where
they are made once only. -/
def natives (identify : String → String := id) : List Function :=
  [.scalar (.abs (identify "ABS")), .scalar (.toUpper (identify "TO_UPPER")),
    .scalar (.toLower (identify "TO_LOWER")), .scalar (.concat (identify "CONCAT")),
    .scalar (.arithmetic (identify "ADD") .add .int),
    .scalar (.arithmetic (identify "SUB") .sub .int),
    .scalar (.arithmetic (identify "MUL") .mul .int),
    .scalar (.arithmetic (identify "DIV") .div .double),
    .table (.range (identify "RANGE")), .table (.split (identify "SPLIT"))]

/-- Makes the native functions and puts them in place. -/
def registerNatives (catalog : Catalog) (identify : String → String := id) : Catalog :=
  (natives identify).foldl insert catalog

/-- Adds a function under a name that is still free. -/
def register (catalog : Catalog) (function : Function) : Except Error Catalog :=
  if catalog.contains function.name then .error (.catalog function.name .taken)
  else .ok (catalog.insert function)

/-- The function of a name. -/
def find (catalog : Catalog) (name : String) : Except Error Function :=
  match catalog.lookup? (Text.upper name) with
  | some function => .ok function
  | none => .error (.catalog name .missing)

/-- The scalar function of a name. -/
def findScalar (catalog : Catalog) (name : String) : Except Error ScalarFunction :=
  match catalog.find name with
  | .ok (.scalar function) => .ok function
  | .ok (.table _) => .error (.catalog name .notScalar)
  | .error error => .error error

/-- The table function of a name. -/
def findTable (catalog : Catalog) (name : String) : Except Error TableFunction :=
  match catalog.find name with
  | .ok (.table function) => .ok function
  | .ok (.scalar _) => .error (.catalog name .notTable)
  | .error error => .error error

@[simp] theorem lookup?_insert (catalog : Catalog) (function : Function) (key : String) :
    (catalog.insert function).lookup? key =
      if Text.upper function.name == key then some function else catalog.lookup? key := by
  by_cases h : Text.upper function.name == key <;> simp [insert, lookup?, h]

end Catalog

end Lateral
