/-!
# Operator kinds

The kinds of operators are the host's. The search needs to tell them apart, to know which of them
are logical, to group them by variant, and to write them.
-/

namespace PlanSearch

/-- What the search asks of operator kinds. -/
class Operator (Op : Type) where
  decEq : DecidableEq Op
  /-- Logical operators are only explored: they are never costed and never win. -/
  isLogical : Op → Bool
  /-- Operators that differ in their payload only share a variant. -/
  variant : Op → Nat
  text : Op → String

instance (Op : Type) [Operator Op] : DecidableEq Op := Operator.decEq

end PlanSearch
