import PlanSearch.Ident
import PlanSearch.Operator
import PlanSearch.RowType
import PlanSearch.Trait.Basic

/-!
# Plans

A plan is a tree of operations. Where a part of the tree is already known to the memo, the plan holds
a reference to a sub group in its place: a group together with the traits required of it. The search
takes plans in, hands rules plans whose lower parts are references, and gives back plans without any.

    Plan.count p = 0 ↔ p is a reference       (Plan.count_eq_zero_iff)
-/

namespace PlanSearch

/-- A group narrowed to the traits that a reader requires. -/
structure SubGroupRef where
  group : GroupId
  traits : TraitSet
deriving DecidableEq

namespace SubGroupRef

/-- The group followed by the traits. -/
def text (r : SubGroupRef) : String := r.group.text ++ r.traits.text

/-- The reference with all values in it in canonical form. -/
def canon (r : SubGroupRef) : SubGroupRef := ⟨r.group, r.traits.canon⟩

/-- The same group under the same traits. -/
def Same (a b : SubGroupRef) : Prop := a.canon = b.canon

instance (a b : SubGroupRef) : Decidable (Same a b) := inferInstanceAs (Decidable (a.canon = b.canon))

end SubGroupRef

/-- What a node says about itself, its inputs apart. -/
structure Operation (Op : Type) where
  op : Op
  data : Option Value
  rowType : RowType
  /-- The traits that the node delivers. -/
  traits : TraitSet

/-- A tree of operations, with references to groups among its leaves. -/
inductive Plan (Op : Type) where
  | node (head : Operation Op) (inputs : List (Plan Op))
  | group (ref : SubGroupRef)

/-- A plan whose root is an operation. -/
structure PlanNode (Op : Type) where
  head : Operation Op
  inputs : List (Plan Op)

variable {Op : Type}

/-- The node as a plan. -/
def PlanNode.toPlan (n : PlanNode Op) : Plan Op := .node n.head n.inputs

/-! ## Text -/

/-- An operator with its parameter and the texts of its inputs, in parentheses. -/
def nodeText [Operator Op] (op : Op) (data : Option Value) (inputs : List String) : String :=
  "(" ++ " ".intercalate (Operator.text op :: ((data.map Value.text).toList ++ inputs)) ++ ")"

namespace Plan

mutual

/-- Operations in parentheses, references as they are. -/
def text [Operator Op] : Plan Op → String
  | node head inputs => nodeText head.op head.data (textAll inputs)
  | group ref => ref.text

/-- The texts of several plans. -/
def textAll [Operator Op] : List (Plan Op) → List String
  | [] => []
  | p :: ps => p.text :: textAll ps

end

/-! ## Size and equality -/

mutual

/-- How many operations the plan holds. -/
def count : Plan Op → Nat
  | node _ inputs => 1 + countAll inputs
  | group _ => 0

/-- How many operations several plans hold together. -/
def countAll : List (Plan Op) → Nat
  | [] => 0
  | p :: ps => p.count + countAll ps

end

mutual

/-- Whether two plans agree node by node, up to the canonical form of the values in them. -/
def same [DecidableEq Op] : Plan Op → Plan Op → Bool
  | node h inputs, node k others =>
    h.op = k.op && decide (Value.SameOption h.data k.data) && h.rowType = k.rowType
      && decide (h.traits.Same k.traits) && sameAll inputs others
  | group r, group s => decide (r.Same s)
  | _, _ => false

/-- Whether two lists of plans agree plan by plan. -/
def sameAll [DecidableEq Op] : List (Plan Op) → List (Plan Op) → Bool
  | [], [] => true
  | p :: ps, q :: qs => p.same q && sameAll ps qs
  | _, _ => false

end

/-! ## Parts -/

/-- Whether the root is an operation. -/
def isNode : Plan Op → Bool
  | node _ _ => true
  | group _ => false

/-- The plan as a node, unless it is a reference. -/
def asNode? : Plan Op → Option (PlanNode Op)
  | node head inputs => some ⟨head, inputs⟩
  | group _ => none

/-- The reference that the plan is, if it is one. -/
def asGroup? : Plan Op → Option SubGroupRef
  | node _ _ => none
  | group ref => some ref

/-- The traits that a plan has as an input: those a node delivers, those a reference requires. -/
def traits : Plan Op → TraitSet
  | node head _ => head.traits
  | group ref => ref.traits

theorem count_eq_zero_iff (p : Plan Op) : p.count = 0 ↔ p.isNode = false := by
  cases p <;> simp [count, isNode]

end Plan

namespace PlanNode

/-- The text of a node as a plan. -/
def text [Operator Op] (n : PlanNode Op) : String := n.toPlan.text

/-- The node with another operator and other delivered traits. -/
def withOp (n : PlanNode Op) (op : Op) (traits : TraitSet) : PlanNode Op :=
  { n with head := { n.head with op := op, traits := traits } }

/-- The node over other inputs. -/
def withInputs (n : PlanNode Op) (inputs : List (Plan Op)) : PlanNode Op := { n with inputs := inputs }

end PlanNode

end PlanSearch
