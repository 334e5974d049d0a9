import PlanSearch.Binding

/-!
# Rules

A rule turns the bindings of its pattern into plans that are equivalent to them. Transformation
rules explore; implementation rules bring in physical operations, and go on firing when the memo has
grown to its limit.
-/

namespace PlanSearch

/-- A rule of the host. -/
structure Rule (Op Q : Type) where
  name : String
  pattern : Pattern Op
  isImplementation : Bool
  /-- Higher fires first, where matches are taken by priority. -/
  priority : Int
  /-- The plans equivalent to the root of a binding. A reference says that the group of the root is
  the group referred to. -/
  apply : Memo Op Q → PlanNode Op → Except Fault (List (Plan Op))

end PlanSearch
