import Mathlib
import PlanSearch.Proofs.Meaning
import PlanSearch.Relational.Kind

/-!
# A small host

A host with natural numbers for quantities, on which the general theorems are tried out. Tables are
scanned, joined without a condition, put together, filtered and sorted. A plan means the most rows that
it can produce: a table has the number of rows that its scan has as a parameter, a join the product of
those of its inputs, and everything else the sum.

    mostRows is blind to the order of inputs        (mostRows_perm)
    mostRows is blind to how an operator is run     (mostRows_run)
-/

namespace PlanSearch

instance : Quantity Nat where
  less a b := decide (a < b)
  same a b := decide (a = b)
  isUnknown _ := false
  unbounded := 0
  text := toString

namespace SmallHost

open Relational

/-! ## What plans mean -/

/-- The number of rows that a table is said to have. -/
def tableRows (data : Option Value) : Nat :=
  match data.map Value.canon with
  | some (.i64 n) => n.toInt.toNat
  | _ => 0

/-- The most rows that an operator can produce. -/
def mostRows : Interpretation Kind Nat where
  apply op data rows :=
    match op with
    | .scan | .physicalScan => tableRows data
    | .join _ | .hashJoin _ => rows.prod
    | _ => rows.sum
  same op d d' rows h := by
    have hd : d.map Value.canon = d'.map Value.canon := h
    unfold tableRows
    rw [hd]

theorem mostRows_perm (op : Kind) (data : Option Value) {rows rows' : List Nat}
    (h : rows.Perm rows') : mostRows.apply op data rows = mostRows.apply op data rows' := by
  unfold mostRows
  cases op <;> first | rfl | exact h.prod_eq | exact h.sum_eq

/-- The expressions of a memo, each with its group. -/
def entries (m : Memo Kind Nat) : List (Kind × Option Value × List GroupId × GroupId) :=
  m.exprs.toList.map fun p =>
    (p.2.expr.op, p.2.expr.data, p.2.expr.inputs.map SubGroupRef.group, p.2.group)

theorem value_of_mem_entries {m : Memo Kind Nat} {v : GroupId → Nat} (h : m.Consistent mostRows v) :
    ∀ x ∈ entries m, mostRows.apply x.1 x.2.1 (x.2.2.1.map v) = v x.2.2.2 := by
  intro x hx
  obtain ⟨⟨e, entry⟩, he, rfl⟩ := List.mem_map.1 hx
  rw [List.map_map]
  exact h.exprs e entry (Std.TreeMap.mem_toList_iff_getElem?_eq_some.1 he)

/-- The physical operator that runs a logical one. -/
def run : Kind → Kind
  | .scan => .physicalScan
  | .filter => .physicalFilter
  | .join how => .hashJoin how
  | .union => .physicalUnion
  | op => op

theorem mostRows_run (op : Kind) (data : Option Value) (rows : List Nat) :
    mostRows.apply (run op) data rows = mostRows.apply op data rows := by
  cases op <;> rfl

/-! ## Rules and costs -/

/-- Swaps the inputs of a join. -/
def swap : Rule Kind Nat where
  name := "swap"
  pattern := .node (.exactly (.join "")) [.any, .any]
  isImplementation := false
  priority := 0
  apply _ n := .ok [.node n.head n.inputs.reverse]

/-- Runs a logical operator. -/
def implement : Rule Kind Nat where
  name := "implement"
  pattern := .node (.holding "logical" Kind.isLogical) [.anyMany]
  isImplementation := true
  priority := 0
  apply _ n := .ok [.node { n.head with op := run n.head.op } n.inputs]

/-- Expects a union of a join with a filter, and returns it as it is. All inputs of the join are to stay
as they are, and the operand for it stands before one that is to be opened. -/
def greedy : Rule Kind Nat where
  name := "greedy"
  pattern := .node (.exactly .physicalUnion)
    [.node (.exactly (.hashJoin "")) [.anyMany, .node (.exactly .physicalFilter) []],
     .node (.exactly .physicalFilter) [.node (.exactly .physicalScan) []]]
  isImplementation := false
  priority := 0
  apply _ n := .ok [n.toPlan]

/-- An operator costs one, and a scan the number of its rows. -/
def prices : CostModel Kind Nat where
  operationCost x _ _ := .done (.ok ⟨[if x.op = .physicalScan then tableRows x.data else 1]⟩)
  estimatedRows _ := .done none
  weigh cost := cost.amounts.sum
  accumulate total cost := ⟨total.amounts ++ cost.amounts⟩
  zero := ⟨[]⟩
  explain cost := toString cost.amounts

/-- Orders, which a sort enforces. -/
def orders : Registry Kind := ⟨[.collation (some .sort)]⟩

/-- A node that delivers no order and has no columns. -/
def bare (op : Kind) (data : Option Value) (inputs : List (Plan Kind)) : PlanNode Kind :=
  ⟨⟨op, data, ⟨[]⟩, ⟨[.collation ⟨[]⟩]⟩⟩, inputs⟩

/-- A table of `n` rows. -/
def table (op : Kind) (n : Int64) : Plan Kind := (bare op (some (.i64 n)) []).toPlan

/-! ## Plans and optimizers -/

/-- Tables of two and of three rows, joined. -/
def joined : PlanNode Kind := bare (.join "") none [table .scan 2, table .scan 3]

/-- By the first column. -/
def byFirst : TraitSet := ⟨[.collation ⟨[⟨0, .asc, false⟩]⟩]⟩

/-- Joins are swapped, run and sorted. -/
def sorter : Optimizer Kind Nat := .new [swap, implement] prices orders [] .default

/-- Tables of one and of nine rows, joined, with a filtered one of three rows. -/
def united : PlanNode Kind := bare .physicalUnion none
  [(bare (.hashJoin "") none [table .physicalScan 1, table .physicalScan 9]).toPlan,
   (bare .physicalFilter none [table .physicalScan 3]).toPlan]

/-- Fires the greedy rule. -/
def misled : Optimizer Kind Nat := .new [greedy] prices orders [] .default

end SmallHost

end PlanSearch
