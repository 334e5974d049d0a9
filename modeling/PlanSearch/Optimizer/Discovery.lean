import PlanSearch.Optimizer.State

/-!
# Discovery of matches

When an expression appears or a group grows, new bindings are possible: with the expression at the
root of a pattern, or with an expression some levels above it there. When a rule comes in, it is
matched against every expression.
-/

namespace PlanSearch

namespace Optimizer

variable {Op Q : Type} [Operator Op]

/-- Puts a match on the agenda, unless it was there before. -/
def enqueue (id : Nat) (rule : Rule Op Q) (exprs : List ExprId) : Action Op Q Unit := do
  let (agenda, accepted) := (← get).agenda.push ⟨id, exprs⟩ rule.priority
  if accepted then
    modify fun o => { o with agenda := agenda }
    count fun s => { s with bindings := Stats.bump s.bindings id }
    record (.ruleMatched id rule.name exprs)

/-- Puts every match of a rule with its root at one of the expressions on the agenda. -/
def enqueueAt (id : Nat) (rule : Rule Op Q) (roots : List ExprId) : Action Op Q Unit :=
  roots.forM fun root => do
    let found ← Action.read fun o => rule.pattern.bindings o.memo root
    found.forM (enqueue id rule)

/-- Looks for the matches that an expression takes part in. -/
def indexExpr (e : ExprId) : Action Op Q Unit := do
  let x ← Action.read fun o => o.memo.getExpr e
  ((← get).triggers.candidates x.op).forM fun (id, depth) => do
    if (← get).isActive id then
      let rule ← Action.read fun o => o.getRule id
      let roots ← Action.read fun o => o.memo.ancestors e depth
      enqueueAt id rule roots

/-- Looks for all matches of one rule. -/
def matchEverywhere (id : Nat) : Action Op Q Unit := do
  if (← get).isActive id then
    let rule ← Action.read fun o => o.getRule id
    let memo := (← get).memo
    memo.groupIds.forM fun g => enqueueAt id rule (memo.members g)

/-! ## Rules -/

/-- Takes a rule in and matches it against everything that is there already. -/
def addRule (rule : Rule Op Q) : Action Op Q Nat := do
  let id := (← get).rules.length
  modify fun o => { o with triggers := o.triggers.add id rule.pattern, rules := o.rules ++ [rule] }
  matchEverywhere id
  return id

/-- Takes a rule out. Its matches on the agenda are dropped when their turn comes. -/
def removeRule (id : Nat) : Action Op Q Unit := do
  if id < (← get).rules.length then
    modify fun o => { o with triggers := o.triggers.remove id, removed := o.removed.insert id }
  else throw (.refused (.ruleNotFound (toString id)))

/-- Keeps a rule from firing until it is enabled again. -/
def disableRule (id : Nat) : Action Op Q Unit :=
  modify fun o => { o with disabled := o.disabled.insert id }

/-- Lets a disabled rule fire again. Matches passed over in the meantime are found again. -/
def enableRule (id : Nat) : Action Op Q Unit := do
  if (← get).disabled.contains id then
    modify fun o => { o with disabled := o.disabled.erase id }
    matchEverywhere id

/-- The rules of a name that have not been removed. -/
def rulesNamed (o : Optimizer Op Q) (name : String) : List Nat :=
  (o.rules.zipIdx.filter fun (r, i) => r.name = name && !o.removed.contains i).map Prod.snd

/-- Does something to every rule of a name. -/
def forRulesNamed (name : String) (f : Nat → Action Op Q Unit) : Action Op Q Unit := do
  let ids := (← get).rulesNamed name
  if ids.isEmpty then throw (.refused (.ruleNotFound name))
  else ids.forM f

/-- Disables every rule of a name. -/
def disableRulesNamed (name : String) : Action Op Q Unit := forRulesNamed name disableRule

/-- Enables every rule of a name. -/
def enableRulesNamed (name : String) : Action Op Q Unit := forRulesNamed name enableRule

end Optimizer

end PlanSearch
