import PlanSearch.Memo.Basic

/-!
# Cost models

A cost model is the host's. It prices single operations and estimates how many rows they produce, and
may ask for the row counts of groups while doing so. What it computes is therefore a query: a value,
or a question about a group with what follows from each answer.
-/

namespace PlanSearch

/-- A computation that asks for the row counts of groups. An answer is absent when it is unknown. -/
inductive RowQuery (Q α : Type) where
  | done (a : α)
  | ask (group : GroupId) (next : Option Q → RowQuery Q α)

namespace RowQuery

variable {Q α β : Type}

/-- Goes on with the value of a query. -/
def bind : RowQuery Q α → (α → RowQuery Q β) → RowQuery Q β
  | done a, f => f a
  | ask g next, f => ask g fun rows => (next rows).bind f

instance : Monad (RowQuery Q) where
  pure := done
  bind := bind

/-- Asks for the row count of one group. -/
def rows (g : GroupId) : RowQuery Q (Option Q) := ask g done

/-- Answers the questions of a query one after the other. -/
def run {σ : Type} (answer : GroupId → σ → Option Q × σ) : RowQuery Q α → σ → α × σ
  | done a, s => (a, s)
  | ask g next, s =>
    let (rows, s) := answer g s
    (next rows).run answer s

end RowQuery

/-- Where an operation that is priced stands in the memo. -/
structure ExprSite where
  group : GroupId
  expr : ExprId

/-- How plans are priced and compared. -/
structure CostModel (Op Q : Type) where
  /-- The cost of a physical operation alone, given the costs of its inputs; a model that is misused
  gives none. -/
  operationCost : Expr Op → List (Cost Q) → ExprSite → RowQuery Q (Except Fault (Cost Q))
  /-- The estimated number of rows that an operation produces, if it is known. -/
  estimatedRows : Expr Op → RowQuery Q (Option Q)
  /-- The quantity by which costs are compared. -/
  weigh : Cost Q → Q
  /-- A total with one more cost added. -/
  accumulate : Cost Q → Cost Q → Cost Q
  zero : Cost Q
  explain : Cost Q → String

namespace CostModel

variable {Op Q : Type}

/-- The cost of an operation together with its inputs. -/
def sum (c : CostModel Op Q) (operation : Cost Q) (inputs : List (Cost Q)) : Cost Q :=
  inputs.foldl c.accumulate operation

/-- The weight of a cost, where an unknown one counts as unbounded. -/
def weight [Quantity Q] (c : CostModel Op Q) (cost : Cost Q) : Q :=
  let w := c.weigh cost
  if Quantity.isUnknown w then Quantity.unbounded else w

end CostModel

end PlanSearch
