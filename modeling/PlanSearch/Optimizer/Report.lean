import PlanSearch.Optimizer.State

/-!
# Reports

The text of an event, of the memo with its winners, and of the statistics, line by line.
-/

namespace PlanSearch

variable {Op Q : Type}

namespace Event

/-- A rule with its number. -/
def ruleText (name : String) (rule : Nat) : String := name ++ "(" ++ toString rule ++ ")"

/-- An event as a line of words and fields. -/
def text [Quantity Q] : Event Q → String
  | ruleMatched rule name exprs =>
    "rule_matched rule=" ++ ruleText name rule ++ " exprs=[" ++ exprsText "," exprs ++ "]"
  | applyRule rule name group binding produced =>
    "apply_rule rule=" ++ ruleText name rule ++ " group_id=" ++ group.text ++ " binding=["
      ++ exprsText "," binding ++ "] produced=[" ++ ",".intercalate (produced.map Product.text) ++ "]"
  | mergeGroup kept absorbed => "merge_group kept=" ++ kept.text ++ " absorbed=" ++ absorbed.text
  | addEnforcer group source target exprs =>
    "add_enforcer group_id=" ++ group.text ++ " from=" ++ source.text ++ " to=" ++ target.text
      ++ " exprs=[" ++ exprsText "," exprs ++ "]"
  | decideWinner sub group traits expr weight =>
    "decide_winner sub_group_id=" ++ sub.text ++ " group_id=" ++ group.text ++ " props=" ++ traits.text
      ++ " winner_expr=" ++ expr.text ++ " total_weighted_cost=" ++ Quantity.text weight
  | budgetExhausted budget => "budget_exhausted reason=" ++ budget.text

end Event

/-- An event after the number of its step. -/
def Record.text [Quantity Q] (r : Record Q) : String :=
  "step=" ++ toString r.step ++ " " ++ r.event.text

namespace Optimizer

/-- Every line ended. -/
def lines (ls : List String) : String := String.join (ls.map (· ++ "\n"))

/-! ## The memo -/

/-- A winner with its weight and its cost as the model explains it. -/
def winnerText [Quantity Q] (model : CostModel Op Q) : Option (Winner Q) → String
  | none => "winner=<unknown>"
  | some w => "winner=" ++ w.expr.text ++ " weighted_cost=" ++ Quantity.text w.price.weight ++ " cost="
      ++ model.explain w.price.cost

/-- The line of a sub group. -/
def subGroupLine [Quantity Q] (o : Optimizer Op Q) (s : SubGroupId) : Except Failure String := do
  let sub ← o.memo.getSubGroup s
  return "  sub_group_id=" ++ s.text ++ " props=" ++ sub.traits.text ++ " required="
    ++ toString sub.required ++ " " ++ winnerText o.model sub.winner

/-- The line of an expression. -/
def exprLine [Operator Op] (o : Optimizer Op Q) (e : ExprId) : Except Failure String := do
  let x ← o.memo.getExpr e
  return "  expr_id=" ++ e.text ++ " | " ++ x.text ++ " -> " ++ x.traits.text

/-- The line of a fact. -/
def factLine (group : Group) (rule : FactRule Op) (position : Nat) : Except Failure String :=
  match group.facts[position]? with
  | some fact => .ok ("  " ++ rule.name ++ "=" ++ rule.display fact)
  | none => .error (.fault (.noSuchPosition position))

/-- The lines of a group: its own, then facts, sub groups and members. -/
def groupLines [Operator Op] [Quantity Q] (o : Optimizer Op Q) (g : GroupId) (group : Group) :
    Except Failure (List String) := do
  let facts ← o.memo.factRules.zipIdx.mapM fun (rule, i) => factLine group rule i
  let subs ← (group.subGroups.map Prod.snd).mapM o.subGroupLine
  let exprs ← group.members.mapM o.exprLine
  return ("group_id=" ++ g.text ++ " row_type=" ++ group.rowType.text) :: (facts ++ subs ++ exprs)

/-- The groups by ascending name, each with its facts, sub groups and members. -/
def dump [Operator Op] [Quantity Q] (o : Optimizer Op Q) : Except Failure String := do
  let groups ← o.memo.groups.toList.mapM fun (g, group) => o.groupLines g group
  return lines groups.flatten

/-! ## Statistics -/

/-- The line of a rule. -/
def ruleLine (s : Stats) (rule : Rule Op Q) (id : Nat) : String :=
  rule.name ++ ": matched=" ++ toString ((s.fired[id]?).getD 0) ++ ", bindings="
    ++ toString ((s.bindings[id]?).getD 0)

/-- What was done so far: in all, and by rule. -/
def dumpStats (o : Optimizer Op Q) : String :=
  let s := o.stats
  lines (("plan_space=" ++ toString o.memo.size)
    :: (o.rules.zipIdx.map fun (rule, i) => ruleLine s rule i)
    ++ ["apply_rule_count=" ++ toString s.applied, "merge_group_count=" ++ toString s.merged,
      "enforcer_count=" ++ toString s.enforcers, "cost_computed_count=" ++ toString s.costed])

end Optimizer

end PlanSearch
