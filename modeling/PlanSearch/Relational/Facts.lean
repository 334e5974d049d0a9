import PlanSearch.Relational.Kind

/-!
# Facts about relational groups

How many tables lie below a group, which ones, and the shape of the tree that created it.
-/

namespace PlanSearch.Relational

/-- The number of leaves below. -/
def tableCount : FactRule Kind where
  name := "table_count"
  type := .count
  derive _ _ inputs :=
    let counts : List Nat := inputs
    let total := if counts.isEmpty then 1 else counts.foldl (· + ·) 0
    if total < UInt64.size then .ok total else .error .overflow

/-- The names of the tables below, in ascending order, each once. A fact about an input lists its names
between commas; what an operator carries is one name. An empty text names no table. -/
def tables : FactRule Kind where
  name := "tables"
  type := .text
  derive _ data inputs :=
    let below : List String := inputs
    let own := match data with | some (.string s) => [s] | _ => []
    let names := (below.flatMap (·.splitOn ",") ++ own).filter fun n => !n.isEmpty
    .ok (",".intercalate (names.mergeSort (· ≤ ·)).eraseReps)

/-- The operator over the shapes of its inputs. -/
def shape : FactRule Kind where
  name := "shape"
  type := .text
  derive op _ inputs :=
    let below : List String := inputs
    .ok (op.text ++ "(" ++ " ".intercalate below ++ ")")

/-- The fact rule of a name. -/
def factRule? : String → Option (FactRule Kind)
  | "table_count" => some tableCount
  | "tables" => some tables
  | "shape" => some shape
  | _ => none

end PlanSearch.Relational
