import PlanSearch.Relational.Kind

/-!
# Cost tables

A cost model given by tables. The cost of an operator is a base, to whose first amount the rows of
the table named by the operator and the rows of its inputs are added, each times a factor. The rows
that an operator produces are a base times the rows of the table and of some of its inputs. A base
without amounts has no first one to add to.
-/

namespace PlanSearch.Relational

/-- The cost of the operators of one variant. -/
structure OperatorCost where
  base : List Float
  /-- The factor for the rows of the table. -/
  table : Option Float
  /-- The factors for the rows of the inputs, from the first on. -/
  inputs : List Float

/-- The number of rows that operators of one variant produce. -/
structure RowEstimate where
  base : Float
  /-- Whether the rows of the table count. -/
  table : Bool
  /-- The positions of the inputs whose rows count. -/
  inputs : List Nat

/-- All that the cost model knows. -/
structure CostTable where
  weights : List Float
  /-- By the names of variants. -/
  operators : List (String × OperatorCost)
  /-- By the names of variants. -/
  rows : List (String × RowEstimate)
  /-- The rows of the tables, by name. -/
  tables : List (String × Float)

namespace CostTable

/-- An unknown amount. -/
def nan : Float := 0.0 / 0.0

/-- An amount above all others. -/
def infinity : Float := 1.0 / 0.0

/-- The rows of the table that an operator names. -/
def tableRows (t : CostTable) (x : Expr Kind) : Option Float :=
  match x.data with
  | some (.string name) => t.tables.lookup name
  | _ => none

/-- The rows of one input. -/
def inputRows (x : Expr Kind) (i : Nat) : RowQuery Float (Option Float) :=
  match x.inputs[i]? with
  | some r => RowQuery.rows r.group
  | none => .done none

/-- A cost with something added to its first amount, which it must have. -/
def addToFirst : List Float → Float → Except Fault (List Float)
  | [], _ => .error (.noSuchPosition 0)
  | a :: amounts, x => .ok ((a + x) :: amounts)

/-- Adds the rows of the inputs from position `i` on, each times its factor; unknown rows are
infinitely many. -/
def addInputs (x : Expr Kind) :
    List Float → Nat → List Float → RowQuery Float (Except Fault (List Float))
  | [], _, amounts => .done (.ok amounts)
  | k :: ks, i, amounts => do
    let rows ← inputRows x i
    match addToFirst amounts (k * rows.getD infinity) with
    | .error f => return .error f
    | .ok amounts => addInputs x ks (i + 1) amounts

/-- The cost of an operation alone; that of an unlisted variant is unknown in every dimension. -/
def operationCost (t : CostTable) (x : Expr Kind) : RowQuery Float (Except Fault (Cost Float)) :=
  match t.operators.lookup x.op.variantName with
  | none => .done (.ok ⟨t.weights.map fun _ => nan⟩)
  | some c =>
    let start : Except Fault (List Float) :=
      match c.table with
      | none => .ok c.base
      | some k => addToFirst c.base (k * (t.tableRows x).getD infinity)
    match start with
    | .error f => .done (.error f)
    | .ok amounts => do return (← addInputs x c.inputs 0 amounts).map Cost.mk

/-- Multiplies by the rows of some inputs; the first unknown number ends it. -/
def timesInputs (x : Expr Kind) : List Nat → Float → RowQuery Float (Option Float)
  | [], rows => .done (some rows)
  | i :: is, rows => do
    match ← inputRows x i with
    | none => return none
    | some more => timesInputs x is (rows * more)

/-- The rows that an operation produces; an unlisted variant passes its first input on. -/
def estimatedRows (t : CostTable) (x : Expr Kind) : RowQuery Float (Option Float) :=
  match t.rows.lookup x.op.variantName with
  | none => inputRows x 0
  | some r =>
    if r.table then
      match t.tableRows x with
      | none => .done none
      | some rows => timesInputs x r.inputs (r.base * rows)
    else timesInputs x r.inputs r.base

/-- The amounts times the weights, added up; a cost without amounts has no weight. -/
def weigh (t : CostTable) (c : Cost Float) : Float :=
  if c.amounts.isEmpty then nan
  else (c.amounts.zip t.weights).foldl (fun sum (a, w) => sum + a * w) 0.0

/-- Adds amount by amount, as far as both costs have one. -/
def addAmounts : List Float → List Float → List Float
  | a :: as, b :: bs => (a + b) :: addAmounts as bs
  | as, _ => as

/-- The cost model of the tables. -/
def model (t : CostTable) : CostModel Kind Float where
  operationCost x _ _ := t.operationCost x
  estimatedRows x := t.estimatedRows x
  weigh := t.weigh
  accumulate total c := ⟨addAmounts total.amounts c.amounts⟩
  zero := ⟨t.weights.map fun _ => 0.0⟩
  explain c := "/".intercalate (c.amounts.map Quantity.text)

end CostTable

end PlanSearch.Relational
