import Lateral.Plan.Execute

/-!
# Relations

Rows with the schema they belong to, and the table that shows them. Rows may be
longer or shorter than the schema: missing cells are blank, surplus ones are not
shown. Rows without a schema are not shown at all.
-/

namespace Lateral

/-- Rows and their schema. -/
structure Relation where
  schema : Schema
  rows : List Row

namespace Relation

/-- The width in bytes that a column needs for its name and the values that rows have in it. -/
def columnWidth (name : String) (column : Nat) (rows : List Row) : Nat :=
  rows.foldl (fun width row =>
      match row[column]? with
      | some value => max width value.text.utf8ByteSize
      | none => width)
    name.utf8ByteSize

/-- The width in bytes of each column. -/
def columnWidths (relation : Relation) : List Nat :=
  relation.schema.names.mapIdx fun column name => columnWidth name column relation.rows

/-- The width that texts are filled up to when a width in bytes is asked for. It is held in 32 bits
with a sign: a request for 2 ^ 31 bytes or more stands for a smaller width, or for a negative one
that nothing is filled up to. -/
def padWidth (width : Nat) : Nat :=
  (Int32.ofNat width).toInt.toNat

/-- The text followed by blanks up to the width that is asked for. -/
def padRight (text : String) (width : Nat) : String :=
  text.pushn ' ' (padWidth width - text.utf8ByteSize)

/-- The rule above, below and between the parts of a table. -/
def rule (widths : List Nat) : String :=
  "+" ++ String.join (widths.map fun width => "".pushn '-' (width + 2) ++ "+") ++ "\n"

/-- A line of cells, one in each column. -/
def cellLine (widths : List Nat) (cells : List String) : String :=
  "|" ++ String.join (List.zipWith (fun width cell => " " ++ padRight cell width ++ " |")
    widths cells) ++ "\n"

/-- The cells of a row in as many columns as there are, blank behind the end of the row. -/
def rowCells (row : Row) (columns : Nat) : List String :=
  (List.range columns).map fun column => ((row[column]?).map Value.text).getD ""

/-- The table that shows a relation: the names between two rules, then the rows and a last
rule. -/
def table (relation : Relation) : String :=
  let widths := relation.columnWidths
  rule widths ++ cellLine widths relation.schema.names ++ rule widths
    ++ String.join (relation.rows.map fun row => cellLine widths (rowCells row widths.length))
    ++ rule widths

/-- What is printed of rows: their table, or nothing where they have no schema. -/
def printed (schema : Option Schema) (rows : List Row) : String :=
  match schema with
  | some schema => table ⟨schema, rows⟩
  | none => ""

end Relation

/-- The rows and schema of a plan outside of any correlate. -/
def Plan.execute (plan : Plan) : Except Error Relation :=
  match plan.prepare with
  | .ok () =>
    match plan.run none with
    | .ok rows => .ok ⟨plan.schema, rows⟩
    | .error error => .error error
  | .error error => .error error

end Lateral
