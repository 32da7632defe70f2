import Lateral.Text.Pieces
import Lateral.Value

/-!
# Schemas

The ordered, named and typed fields of the rows that an operator produces.
-/

namespace Lateral

/-- A named field and the type it declares. -/
structure Field where
  name : String
  type : DataType
  deriving DecidableEq, Repr

/-- The fields of a row, in order. -/
abbrev Schema := List Field

namespace Schema

/-- The names of the fields, in order. -/
def names (schema : Schema) : List String :=
  schema.map Field.name

/-- The types of the fields, in order. -/
def types (schema : Schema) : List DataType :=
  schema.map Field.type

/-- The written form `[name:type, name:type]`. -/
def text (schema : Schema) : String :=
  "[" ++ Text.join ", " (schema.map fun field => field.name ++ ":" ++ field.type.text) ++ "]"

@[simp] theorem length_names (schema : Schema) : schema.names.length = schema.length :=
  List.length_map ..

@[simp] theorem length_types (schema : Schema) : schema.types.length = schema.length :=
  List.length_map ..

@[simp] theorem names_append (left right : Schema) :
    names (left ++ right) = left.names ++ right.names :=
  List.map_append

@[simp] theorem types_append (left right : Schema) :
    types (left ++ right) = left.types ++ right.types :=
  List.map_append

end Schema

end Lateral
