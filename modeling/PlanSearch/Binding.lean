import PlanSearch.Memo.Basic
import PlanSearch.Pattern

/-!
# Bindings

A binding of a pattern names one expression for every operand that tests a kind, in pre-order: the
root operand is bound to a given expression, and an operand below to a member of the group that the
expression above it reads at that place. All bindings are enumerated in the order of the members. A
binding can be turned back into a plan, with references where the pattern has wildcards.
-/

namespace PlanSearch

variable {Op Q : Type} [Operator Op]

namespace Pattern

/-- Every binding of `picks` followed by every one of `more`. -/
def extendPicks (picks more : List (List ExprId)) : List (List ExprId) :=
  picks.flatMap fun pick => more.map fun rest => pick ++ rest

mutual

/-- All bindings of the pattern with its root bound to `e`. -/
def bindings (m : Memo Op Q) : Pattern Op → ExprId → Except Failure (List (List ExprId))
  | node test ps, e => do
    let x ← m.getExpr e
    if test.accepts x.op && (node test ps).fitsArity x.inputs.length then
      bindInputs m ps x.inputs [[e]]
    else return []
  | any, e | anyMany, e => do
    let x ← m.getExpr e
    return if x.inputs.isEmpty then [[e]] else []

/-- Extends the bindings found so far by those of the operands, each against one input. -/
def bindInputs (m : Memo Op Q) :
    List (Pattern Op) → List SubGroupRef → List (List ExprId) → Except Failure (List (List ExprId))
  | [], _, picks => .ok picks
  | any :: ps, rs, picks => bindInputs m ps (rs.drop 1) picks
  | anyMany :: _, _, picks => .ok picks
  | node test qs :: ps, rs, picks =>
    match rs with
    | [] => .error (.fault (.noSuchPosition 0))
    | r :: rs => do
      let found ← (m.members r.group).mapM fun e => bindings m (node test qs) e
      let alternatives := found.flatten
      if alternatives.isEmpty then return []
      else bindInputs m ps rs (extendPicks picks alternatives)

end

/-! ## Plans from bindings -/

mutual

/-- The plan of an operand bound to the first of the expressions `es`, with the expressions left
over; `all` is the whole binding. -/
def planOf (m : Memo Op Q) (all : List ExprId) :
    Pattern Op → List ExprId → Except Failure (PlanNode Op × List ExprId)
  | p, [] => .error (.error (.internal (.bindingTooShort all p.text)))
  | node _ ps, e :: es => do
    let entry ← m.getEntry e
    let group ← m.getGroup (m.reduceGroup entry.group)
    let (inputs, es) ← planInputs m all ps entry.expr.inputs es
    return (⟨⟨entry.expr.op, entry.expr.data, group.rowType, entry.expr.traits⟩, inputs⟩, es)
  | any, e :: es | anyMany, e :: es => do
    let entry ← m.getEntry e
    let group ← m.getGroup (m.reduceGroup entry.group)
    let inputs := entry.expr.inputs.map fun r => .group (m.reduceRef r)
    return (⟨⟨entry.expr.op, entry.expr.data, group.rowType, entry.expr.traits⟩, inputs⟩, es)

/-- The inputs of a plan: a plan where the operand tests a kind, else a reference. -/
def planInputs (m : Memo Op Q) (all : List ExprId) :
    List (Pattern Op) → List SubGroupRef → List ExprId → Except Failure (List (Plan Op) × List ExprId)
  | _, [], es => .ok ([], es)
  | [], rs, es => .ok (rs.map fun r => .group (m.reduceRef r), es)
  | node test qs :: ps, _ :: rs, es => do
    let (n, es) ← planOf m all (node test qs) es
    let (ns, es) ← planInputs m all ps rs es
    return (n.toPlan :: ns, es)
  | any :: ps, r :: rs, es | anyMany :: ps, r :: rs, es => do
    let (ns, es) ← planInputs m all ps rs es
    return (.group (m.reduceRef r) :: ns, es)

end

/-- The plan that a binding stands for. It must use up the binding exactly. -/
def planOfBinding (m : Memo Op Q) (p : Pattern Op) (es : List ExprId) :
    Except Failure (PlanNode Op) := do
  let (n, rest) ← planOf m es p es
  if rest.isEmpty then return n
  else throw (.error (.internal (.bindingTooLong es p.text)))

end Pattern

end PlanSearch
