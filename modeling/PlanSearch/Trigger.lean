import PlanSearch.Pattern

/-!
# Triggers

When an expression appears, only those rules need to be tried that have an operand which accepts its
kind. The depth of the operand tells how far above the expression the root of a match lies. Operands
that test for one operator or for one variant are filed under it; the conditions of all others are
asked one by one.
-/

namespace PlanSearch

/-- An operand of a rule: the rule, the depth of the operand, and its test. -/
structure Trigger (Op : Type) where
  rule : Nat
  depth : Nat
  test : KindTest Op

/-- The operands of all rules, each as its rule and its depth, in the order in which they came. -/
structure TriggerIndex (Op : Type) where
  /-- Those that test for one operator, under the operator. -/
  byOp : List (Op × Nat × Nat)
  /-- Those that test for one variant, under the variant. -/
  byVariant : List (Nat × Nat × Nat)
  /-- Those that test for a condition of the host's, with the condition. -/
  byCondition : List ((Op → Bool) × Nat × Nat)

namespace TriggerIndex

variable {Op : Type}

/-- No operands. -/
def empty : TriggerIndex Op := ⟨[], [], []⟩

/-- Enters one operand, where its test belongs. -/
def enter (t : TriggerIndex Op) (x : Trigger Op) : TriggerIndex Op :=
  match x.test with
  | .exactly op => { t with byOp := t.byOp ++ [(op, x.rule, x.depth)] }
  | .variant v => { t with byVariant := t.byVariant ++ [(v, x.rule, x.depth)] }
  | .holding _ condition => { t with byCondition := t.byCondition ++ [(condition, x.rule, x.depth)] }

/-- Enters every operand of a rule that tests a kind. -/
def add (t : TriggerIndex Op) (rule : Nat) (p : Pattern Op) : TriggerIndex Op :=
  p.operands.foldl (fun t (depth, test, _) => t.enter ⟨rule, depth, test⟩) t

/-- Takes out every operand of a rule. -/
def remove (t : TriggerIndex Op) (rule : Nat) : TriggerIndex Op where
  byOp := t.byOp.filter fun x => x.2.1 ≠ rule
  byVariant := t.byVariant.filter fun x => x.2.1 ≠ rule
  byCondition := t.byCondition.filter fun x => x.2.1 ≠ rule

/-- Whether one pair of rule and depth comes no later than another. -/
def before (a b : Nat × Nat) : Bool := a.1 < b.1 || (a.1 = b.1 && a.2 ≤ b.2)

/-- The rules and depths whose operands accept the operator, table by table. -/
def found [Operator Op] (t : TriggerIndex Op) (op : Op) : List (Nat × Nat) :=
  (t.byOp.filter fun x => x.1 = op).map Prod.snd
    ++ (t.byVariant.filter fun x => x.1 = Operator.variant op).map Prod.snd
    ++ (t.byCondition.filter fun x => x.1 op).map Prod.snd

/-- The rules and depths whose operands accept the operator, in ascending order, each once. -/
def candidates [Operator Op] (t : TriggerIndex Op) (op : Op) : List (Nat × Nat) :=
  ((t.found op).mergeSort before).eraseReps

end TriggerIndex

end PlanSearch
