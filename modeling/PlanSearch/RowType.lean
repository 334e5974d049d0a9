/-!
# Row types

The columns of the rows that a plan produces. All members of a group share one row type, and two
row types are equal when names, types, nullability and order agree.
-/

namespace PlanSearch

/-- The types of columns. -/
inductive ColumnType where
  | int64
  | utf8
  | float64
  | boolean
deriving DecidableEq

/-- The name of a column type. -/
def ColumnType.text : ColumnType → String
  | int64 => "Int64"
  | utf8 => "Utf8"
  | float64 => "Float64"
  | boolean => "Boolean"

/-- A column of the rows. -/
structure Column where
  name : String
  type : ColumnType
  nullable : Bool
deriving DecidableEq

/-- A column with all its attributes; dictionaries and metadata are never used. -/
def Column.text (c : Column) : String :=
  "Field \x7b name: \"" ++ c.name ++ "\", data_type: " ++ c.type.text ++ ", nullable: "
    ++ toString c.nullable ++ ", dict_id: 0, dict_is_ordered: false, metadata: \x7b\x7d \x7d"

/-- The columns in their order. -/
structure RowType where
  columns : List Column
deriving DecidableEq

namespace RowType

/-- The columns with all their attributes. -/
def text (r : RowType) : String := ", ".intercalate (r.columns.map Column.text)

/-- The number of columns. -/
def width (r : RowType) : Nat := r.columns.length

/-- `n` nullable integer columns named `c0`, `c1` and so on. -/
def plain (n : Nat) : RowType :=
  ⟨(List.range n).map fun i => ⟨"c" ++ toString i, .int64, true⟩⟩

theorem width_plain (n : Nat) : (plain n).width = n := by
  simp [width, plain]

end RowType

end PlanSearch
