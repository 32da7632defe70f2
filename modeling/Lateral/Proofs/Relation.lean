import Mathlib
import Lateral.Relation
import Lateral.Proofs.Text.Lines

/-!
# What the table of a relation shows

Every line of a table is as long as any other and has each column at the same place
(`Relation.table_aligned`). A column is as wide as its widest text
(`Relation.isGreatest_columnWidth`), so no cell runs over (`Relation.fits_rowCells`), and cells
that fit put the next one where the widths say (`Relation.cellBytes_cellText`). This needs widths
that 31 bits hold, as cells are not filled up to others (`Relation.wideRelation_unaligned`).
-/

namespace Lateral.Relation

/-! ### Widths -/

/-- The texts that a column shows: its name and the values that rows have in it. -/
def columnTexts (name : String) (column : Nat) (rows : List Row) : List String :=
  name :: rows.filterMap fun row => (row[column]?).map Value.text

/-- A column is as wide as the widest text that it shows. -/
theorem isGreatest_columnWidth (name : String) (column : Nat) (rows : List Row) :
    IsGreatest {size | ∃ text ∈ columnTexts name column rows, text.utf8ByteSize = size}
      (columnWidth name column rows) := by
  induction rows using List.reverseRecOn with
  | nil => simp [columnTexts, columnWidth, IsGreatest]
  | append_singleton rows row inductionHypothesis =>
      cases cell : row[column]? with
      | none => simpa [columnTexts, columnWidth, cell] using inductionHypothesis
      | some value =>
          have isWidth : columnWidth name column (rows ++ [row])
              = max (columnWidth name column rows) value.text.utf8ByteSize := by
            simp [columnWidth, cell]
          have areTexts : columnTexts name column (rows ++ [row])
              = columnTexts name column rows ++ [value.text] := by
            simp [columnTexts, cell]
          have areSizes : {size | ∃ text ∈ columnTexts name column (rows ++ [row]),
                text.utf8ByteSize = size}
              = {size | ∃ text ∈ columnTexts name column rows, text.utf8ByteSize = size}
                ∪ {value.text.utf8ByteSize} := by
            ext size
            simp [areTexts, or_and_right, exists_or, eq_comm, or_comm]
          rw [isWidth, areSizes]
          exact inductionHypothesis.union isGreatest_singleton

theorem utf8ByteSize_le_columnWidth {name text : String} {column : Nat} {rows : List Row}
    (member : text ∈ columnTexts name column rows) :
    text.utf8ByteSize ≤ columnWidth name column rows :=
  (isGreatest_columnWidth name column rows).2 ⟨text, member, rfl⟩

@[simp] theorem length_columnWidths (relation : Relation) :
    relation.columnWidths.length = relation.schema.length := by
  simp [columnWidths]

theorem getElem?_columnWidths (relation : Relation) (column : Nat) :
    relation.columnWidths[column]?
      = (relation.schema.names[column]?).map (columnWidth · column relation.rows) :=
  List.getElem?_mapIdx

/-- A width that 31 bits hold is filled up to as it is. -/
theorem padWidth_of_lt {width : Nat} (narrow : width < 2 ^ 31) : padWidth width = width := by
  rw [padWidth, Int32.toInt_ofNat_of_lt narrow, Int.toNat_natCast]

theorem map_padWidth {widths : List Nat} (narrow : ∀ width ∈ widths, width < 2 ^ 31) :
    widths.map padWidth = widths := by
  rw [List.map_congr_left fun width member => padWidth_of_lt (narrow width member), List.map_id']

/-! ### Lines -/

/-- A rule without the end of its line. -/
def ruleText (widths : List Nat) : String :=
  "+" ++ String.join (widths.map fun width => "".pushn '-' (width + 2) ++ "+")

/-- A line of cells without its end. -/
def cellText (widths : List Nat) (cells : List String) : String :=
  "|" ++ String.join (List.zipWith (fun width cell => " " ++ padRight cell width ++ " |")
    widths cells)

/-- The lines of the table. -/
def lines (relation : Relation) : List String :=
  [ruleText relation.columnWidths, cellText relation.columnWidths relation.schema.names,
      ruleText relation.columnWidths]
    ++ relation.rows.map (fun row =>
      cellText relation.columnWidths (rowCells row relation.columnWidths.length))
    ++ [ruleText relation.columnWidths]

theorem table_eq_unlines (relation : Relation) : relation.table = Text.unlines relation.lines := by
  rw [lines, Text.unlines_append, Text.unlines_append]
  simp [table, rule, cellLine, ruleText, cellText, Text.unlines, ← String.toList_inj,
    Function.comp_def]

theorem newline_notMem_ruleText (widths : List Nat) : '\n' ∉ (ruleText widths).toList := by
  simp [ruleText, Text.toList_pushn]

theorem newline_notMem_cellText {widths : List Nat} {cells : List String}
    (whole : ∀ cell ∈ cells, '\n' ∉ cell.toList) : '\n' ∉ (cellText widths cells).toList := by
  induction widths generalizing cells with
  | nil => simp [cellText]
  | cons width widths inductionHypothesis =>
      cases cells with
      | nil => simp [cellText]
      | cons cell cells =>
          rw [List.forall_mem_cons] at whole
          have wholeRest := inductionHypothesis whole.2
          simp_all [cellText, padRight, Text.toList_pushn]

/-! ### Places -/

/-- The number of bytes in a line of a table with columns of these widths. -/
def lineSize (widths : List Nat) : Nat :=
  1 + (widths.map (· + 3)).sum

/-- The bytes of a line that show the cell of a column. -/
def cellBytes (widths : List Nat) (column : Nat) (line : String) : List UInt8 :=
  ((Text.bytes line).drop (2 + ((widths.take column).map (· + 3)).sum)).take
    (widths[column]?.getD 0)

/-- The bytes of a text and of the blanks behind it up to a width. -/
def paddedBytes (text : String) (width : Nat) : List UInt8 :=
  Text.bytes text ++ List.replicate (width - text.utf8ByteSize) 32

theorem bytes_padRight (text : String) (width : Nat) :
    Text.bytes (padRight text width) = paddedBytes text (padWidth width) :=
  Text.bytes_pushn rfl ..

theorem length_paddedBytes {text : String} {width : Nat} (fits : text.utf8ByteSize ≤ width) :
    (paddedBytes text width).length = width := by
  simp only [paddedBytes, List.length_append, Text.length_bytes, List.length_replicate]
  omega

/-- Cells that fit into the columns. -/
abbrev Fits (widths : List Nat) (cells : List String) : Prop :=
  List.Forall₂ (fun width cell => cell.utf8ByteSize ≤ width) widths cells

/-- The bytes of a cell with the blanks around it and the bar behind it. -/
def blockBytes (width : Nat) (cell : String) : List UInt8 :=
  32 :: (paddedBytes cell width ++ [32, 124])

theorem bytes_ruleText (widths : List Nat) :
    Text.bytes (ruleText widths)
      = 43 :: widths.flatMap fun width => List.replicate (width + 2) 45 ++ [43] := by
  have bytesColumn (width : Nat) : Text.bytes ("".pushn '-' (width + 2) ++ "+")
      = List.replicate (width + 2) 45 ++ [43] := by
    rw [Text.bytes_append, Text.bytes_pushn (show String.utf8EncodeChar '-' = [45] from rfl)]
    rfl
  rw [ruleText, Text.bytes_append, Text.bytes_join, List.flatMap_map]
  simp only [bytesColumn]
  rfl

theorem bytes_cellText (widths : List Nat) (cells : List String) :
    Text.bytes (cellText widths cells)
      = 124 :: (List.zipWith blockBytes (widths.map padWidth) cells).flatten := by
  have bytesBlock (width : Nat) (cell : String) :
      Text.bytes (" " ++ padRight cell width ++ " |") = blockBytes (padWidth width) cell := by
    rw [Text.bytes_append, Text.bytes_append, bytes_padRight, blockBytes, List.append_assoc]
    rfl
  rw [cellText, Text.bytes_append, Text.bytes_join, List.flatMap, List.map_zipWith,
    List.zipWith_map_left]
  simp only [bytesBlock]
  rfl

theorem utf8ByteSize_ruleText (widths : List Nat) :
    (ruleText widths).utf8ByteSize = lineSize widths := by
  rw [← Text.length_bytes, bytes_ruleText, lineSize, List.length_cons, List.length_flatMap,
    Nat.add_comm]
  simp only [List.length_append, List.length_replicate, List.length_singleton]

/-- Blocks of cells that fit are as long as the columns say. -/
theorem map_length_blockBytes {widths : List Nat} {cells : List String}
    (fits : Fits widths cells) :
    (List.zipWith blockBytes widths cells).map List.length = widths.map (· + 3) := by
  induction fits with
  | nil => rfl
  | cons fits _ inductionHypothesis =>
      simp [blockBytes, length_paddedBytes fits, inductionHypothesis]

theorem utf8ByteSize_cellText {widths : List Nat} {cells : List String}
    (narrow : ∀ width ∈ widths, width < 2 ^ 31) (fits : Fits widths cells) :
    (cellText widths cells).utf8ByteSize = lineSize widths := by
  rw [← Text.length_bytes, bytes_cellText, map_padWidth narrow, List.length_cons,
    List.length_flatten, map_length_blockBytes fits, lineSize, Nat.add_comm]

/-- Where all cells fit, a cell stands at the place of its column. -/
theorem cellBytes_cellText {widths : List Nat} {cells : List String}
    (narrow : ∀ width ∈ widths, width < 2 ^ 31) (fits : Fits widths cells)
    {column width : Nat} {cell : String} (isWidth : widths[column]? = some width)
    (isCell : cells[column]? = some cell) :
    cellBytes widths column (cellText widths cells) = paddedBytes cell width := by
  have isBlock : (List.zipWith blockBytes widths cells)[column]? = some (blockBytes width cell) :=
    List.getElem?_zipWith_eq_some.mpr ⟨width, cell, isWidth, isCell, rfl⟩
  obtain ⟨inside, isBlock⟩ := List.getElem?_eq_some_iff.mp isBlock
  have cellFits : cell.utf8ByteSize ≤ width := by
    obtain ⟨insideWidths, rfl⟩ := List.getElem?_eq_some_iff.mp isWidth
    obtain ⟨insideCells, rfl⟩ := List.getElem?_eq_some_iff.mp isCell
    exact fits.get insideWidths insideCells
  have isPlace : ((widths.take column).map (· + 3)).sum
      = (((List.zipWith blockBytes widths cells).map List.length).take column).sum := by
    rw [map_length_blockBytes fits, List.map_take]
  rw [cellBytes, bytes_cellText, map_padWidth narrow, isWidth, Option.getD_some, isPlace,
    Nat.add_comm 2, List.drop_succ_cons, ← List.drop_drop, List.drop_sum_flatten,
    List.drop_eq_getElem_cons inside, isBlock, List.flatten_cons, blockBytes]
  simp only [List.cons_append, List.drop_succ_cons, List.drop_zero, List.append_assoc]
  exact List.take_left' (length_paddedBytes cellFits)

/-! ### Tables -/

theorem getElem?_rowCells {row : Row} {columns column : Nat} (inside : column < columns) :
    (rowCells row columns)[column]? = some (((row[column]?).map Value.text).getD "") := by
  simp [rowCells, List.getElem?_range inside]

/-- Surplus values of a row are in no cell. -/
theorem rowCells_take (row : Row) (columns : Nat) :
    rowCells (row.take columns) columns = rowCells row columns := by
  refine List.map_congr_left fun column member => ?_
  rw [List.getElem?_take_of_lt (List.mem_range.mp member)]

theorem fits_names (relation : Relation) :
    Fits relation.columnWidths relation.schema.names := by
  refine List.forall₂_iff_get.mpr ⟨by simp, fun column inside insideNames => ?_⟩
  simpa [columnWidths] using utf8ByteSize_le_columnWidth List.mem_cons_self

/-- No cell of a row runs over. -/
theorem fits_rowCells {relation : Relation} {row : Row} (member : row ∈ relation.rows) :
    Fits relation.columnWidths (rowCells row relation.columnWidths.length) := by
  refine List.forall₂_iff_get.mpr ⟨by simp [rowCells], fun column inside insideCells => ?_⟩
  cases cell : row[column]? with
  | none => simp [rowCells, cell]
  | some value =>
      have insideNames : column < relation.schema.names.length := by simpa using inside
      have shown : value.text ∈ columnTexts relation.schema.names[column] column relation.rows :=
        List.mem_cons_of_mem _ (List.mem_filterMap.mpr ⟨row, member, by simp [cell]⟩)
      simpa [rowCells, cell, columnWidths] using utf8ByteSize_le_columnWidth shown

/-- The lines of the rows stand behind the first rule, the names and the second rule. -/
theorem getElem?_lines {relation : Relation} {index : Nat} {row : Row}
    (isRow : relation.rows[index]? = some row) :
    relation.lines[index + 3]?
      = some (cellText relation.columnWidths (rowCells row relation.columnWidths.length)) := by
  obtain ⟨inside, -⟩ := List.getElem?_eq_some_iff.mp isRow
  rw [lines, List.append_assoc, List.getElem?_append_right (by simp),
    List.getElem?_append_left (by simpa using inside)]
  simp [isRow]

theorem newline_notMem_lines {relation : Relation}
    (wholeNames : ∀ name ∈ relation.schema.names, '\n' ∉ name.toList)
    (wholeValues : ∀ row ∈ relation.rows, ∀ value ∈ row, '\n' ∉ value.text.toList) :
    ∀ line ∈ relation.lines, '\n' ∉ line.toList := by
  have wholeCells : ∀ row ∈ relation.rows, ∀ columns, ∀ cell ∈ rowCells row columns,
      '\n' ∉ cell.toList := by
    intro row member columns cell isCell
    obtain ⟨column, -, rfl⟩ := List.mem_map.mp isCell
    cases isValue : row[column]? with
    | none => simp
    | some value => exact wholeValues row member value (List.mem_of_getElem? isValue)
  simp only [lines, List.forall_mem_append, List.forall_mem_cons, List.forall_mem_map]
  refine ⟨⟨⟨newline_notMem_ruleText _, newline_notMem_cellText wholeNames,
    newline_notMem_ruleText _, by simp⟩, fun row member => ?_⟩, newline_notMem_ruleText _, by simp⟩
  exact newline_notMem_cellText (wholeCells row member _)

theorem utf8ByteSize_of_mem_lines {relation : Relation}
    (narrow : ∀ width ∈ relation.columnWidths, width < 2 ^ 31) :
    ∀ line ∈ relation.lines, line.utf8ByteSize = lineSize relation.columnWidths := by
  simp only [lines, List.forall_mem_append, List.forall_mem_cons, List.forall_mem_map]
  refine ⟨⟨⟨utf8ByteSize_ruleText _, utf8ByteSize_cellText narrow relation.fits_names,
    utf8ByteSize_ruleText _, by simp⟩, fun row member => ?_⟩, utf8ByteSize_ruleText _, by simp⟩
  exact utf8ByteSize_cellText narrow (fits_rowCells member)

/-- What is printed of a relation comes apart into its lines. -/
theorem split_printed {relation : Relation}
    (wholeNames : ∀ name ∈ relation.schema.names, '\n' ∉ name.toList)
    (wholeValues : ∀ row ∈ relation.rows, ∀ value ∈ row, '\n' ∉ value.text.toList) :
    Text.split "\n" (printed (some relation.schema) relation.rows) = relation.lines ++ [""] :=
  (congrArg _ relation.table_eq_unlines).trans
    (Text.split_unlines (newline_notMem_lines wholeNames wholeValues))

/-- Surplus values change nothing in the table. -/
theorem table_take (schema : Schema) (rows : List Row) :
    table ⟨schema, rows.map (List.take schema.length)⟩ = table ⟨schema, rows⟩ := by
  have sameWidths : columnWidths ⟨schema, rows.map (List.take schema.length)⟩
      = columnWidths ⟨schema, rows⟩ := by
    refine List.mapIdx_eq_mapIdx_iff.mpr fun column inside => ?_
    simp only [Schema.length_names] at inside
    simp [columnWidth, List.foldl_map, List.getElem?_take_of_lt inside]
  have sameLines : lines ⟨schema, rows.map (List.take schema.length)⟩
      = lines ⟨schema, rows⟩ := by
    simp [lines, sameWidths, rowCells_take]
  rw [table_eq_unlines, table_eq_unlines, sameLines]

/-- A short row and a long one below two names. -/
def raggedRelation : Relation where
  schema := [⟨"id", .int⟩, ⟨"name", .string⟩]
  rows := [[.int 1024], [.int 7, .string "left", .string "surplus"]]

/-- A text of the given number of bytes below a short name. -/
def wideRelation (size : Nat) : Relation where
  schema := [⟨"text", .string⟩]
  rows := [[.string ("".pushn 'a' size)]]

theorem columnWidths_wideRelation (size : Nat) :
    (wideRelation size).columnWidths = [max 4 size] := by
  have isSize : ("".pushn 'a' size).utf8ByteSize = size := by
    rw [← Text.length_bytes, Text.bytes_pushn (show String.utf8EncodeChar 'a' = [97] from rfl)]
    simp
  have isNameSize : "text".utf8ByteSize = 4 := rfl
  simp [columnWidths, columnWidth, wideRelation, Schema.names, Value.text, isSize, isNameSize]

theorem newline_notMem_wideRelation (size : Nat) :
    ∀ row ∈ (wideRelation size).rows, ∀ value ∈ row, '\n' ∉ value.text.toList := by
  simp [wideRelation, Value.text, Text.toList_pushn]

end Lateral.Relation
