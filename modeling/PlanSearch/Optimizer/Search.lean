import PlanSearch.Memo.BestPlan
import PlanSearch.Optimizer.Settle

/-!
# Optimization calls

A call seeds the memo with a plan and the traits required of it, fires matches until none is left or
a budget runs out, and then takes the best plan out of the memo. If a budget ran out before there was
any plan, the seed is answered as it was. The phases keep the parts of a call in order.
-/

namespace PlanSearch

namespace Optimizer

variable {Op Q : Type} [Operator Op] [Quantity Q]

/-! ## Seeding -/

/-- Enters a plan and the traits required of it. Answers the group of the plan. -/
def seed (fuel : Nat) (plan : PlanNode Op) (required : TraitSet) : Action Op Q GroupId := do
  let o ← get
  if o.phase ≠ .idle then throw (.refused (.cannotSeed o.phase))
  else
    Action.read fun o => o.memo.checkTraits required
    modify fun o => { o with phase := .seeding }
    let (g, _) ← Action.onMemo (Memo.add plan)
    let _ ← Action.onMemo (Memo.ensureSubGroup ⟨g, required⟩ true)
    modify fun o => { o with root := some ⟨g, required⟩, seedPlan := some plan }
    settle fuel
    modify fun o => { o with phase := .searching }
    return (← get).memo.reduceGroup g

/-! ## Firing -/

/-- The row type of a rule's output. -/
def outputRowType (m : Memo Op Q) : Plan Op → Except Failure RowType
  | .node head _ => .ok head.rowType
  | .group ref => return (← m.getGroup ref.group).rowType

/-- Adds an output of a rule to the group of the binding's root, whose row type it must have. -/
def produce (rule : Rule Op Q) (binding : PlanNode Op) (g : GroupId) (output : Plan Op) :
    Action Op Q Product := do
  let g := (← get).memo.reduceGroup g
  let group ← Action.read fun o => o.memo.getGroup g
  let produced ← Action.read fun o => outputRowType o.memo output
  if produced ≠ group.rowType then
    throw (.error none (.invalidRuleOutput rule.name binding.text produced g group.rowType))
  else
    let m := (← get).memo
    let referred := output.asGroup?.map fun r => m.reduceGroup r.group
    let e ← Action.onMemoAt (some ⟨rule.name, binding.text⟩) (Memo.addTo output g)
    match e, referred with
    | some e, _ => return .expr e
    | none, some r => return .group r
    | none, none => return .group g

/-- Fires a match and settles what follows from it. -/
def fire (fuel : Nat) (x : Match) : Action Op Q Unit := do
  let rule ← Action.read fun o => o.getRule x.rule
  match x.exprs with
  | [] => Action.fault (.noSuchPosition 0)
  | root :: _ =>
    let g ← Action.read fun o => o.memo.groupOf root
    let binding ← Action.read fun o => rule.pattern.planOfBinding o.memo x.exprs
    modify fun o => { o with steps := o.steps + 1 }
    count fun s => { s with applied := s.applied + 1, fired := Stats.bump s.fired x.rule }
    match rule.apply (← get).memo binding with
    | .error f => Action.fault f
    | .ok outputs =>
      let products ← outputs.mapM (produce rule binding g)
      record (.applyRule x.rule rule.name g x.exprs products)
      settle fuel

/-! ## Searching -/

/-- The budget of iterations or time that has run out, if one has. -/
def spentBudget? (o : Optimizer Op Q) : Option Budget :=
  if o.options.iterationBudget.any fun n => n ≤ o.steps then some .iterations
  else if o.options.timeBudget.any fun n => n = 0 then some .time
  else none

/-- Whether the memo has grown to its limit. -/
def isPlanSpaceSpent (o : Optimizer Op Q) : Bool :=
  o.options.planSpaceBudget.any fun n => n ≤ o.memo.size

/-- Notes that a budget has run out. -/
def exhaust (b : Budget) : Action Op Q Unit := do
  modify fun o => { o with budgetExhausted := true }
  record (.budgetExhausted b)
  if (← get).options.panicOnBudget then Action.fault (.exhausted b)

/-- Deals with a match whose turn has come: matches of removed rules are dropped, those of disabled
rules are forgotten, so that they can be found again, and a transformation rule does not fire in a
full memo. -/
def dispatch (fuel : Nat) (x : Match) : Action Op Q Unit := do
  let o ← get
  if o.removed.contains x.rule then return ()
  else if o.disabled.contains x.rule then set { o with agenda := o.agenda.forget x }
  else
    let rule ← Action.read fun o => o.getRule x.rule
    if !rule.isImplementation && o.isPlanSpaceSpent then
      if !o.budgetExhausted then exhaust .planSpace
    else fire fuel x

/-- Takes matches from the agenda until it is empty or a budget has run out; fewer than `turns`. An
empty agenda is the end even if the budget ran out with the last match. -/
def searchLoop (fuel : Nat) : Nat → Action Op Q Unit
  | 0 => throw .outOfFuel
  | turns + 1 => do
    let o ← get
    match o.agenda.pop? with
    | none => return ()
    | some (x, agenda) =>
      match o.spentBudget? with
      | some b => exhaust b
      | none =>
        set { o with agenda := agenda }
        dispatch fuel x
        searchLoop fuel turns

/-- Fires matches until there are none or a budget has run out. -/
def search (fuel : Nat) : Action Op Q Unit := do
  let o ← get
  if o.phase ≠ .searching then throw (.refused (.cannotSearch o.phase))
  else searchLoop fuel fuel

/-! ## Extraction -/

/-- Takes the best plan for the root requirement out of the memo. -/
def extract : Action Op Q (Outcome Op Q) := do
  match (← get).root with
  | none => throw (.refused .notSeeded)
  | some root =>
    modify fun o => { o with phase := .extracting }
    let o ← get
    let root := o.memo.reduceRef root
    let finish : Action Op Q Unit := modify fun o => { o with phase := .done }
    match o.memo.bestPlan root with
    | .ok plan =>
      let w ← Action.read fun o => o.memo.winner root
      finish
      return ⟨plan, w.map fun w => w.price.cost, root.group, o.budgetExhausted⟩
    | .error (.fault f) => Action.fault f
    | .error (.error e) =>
      match e.isRecoverable && o.budgetExhausted, o.seedPlan with
      | true, some plan =>
        finish
        return ⟨plan, none, root.group, true⟩
      | _, _ =>
        finish
        throw (.error none e)

/-- A whole call: clears, seeds, searches and extracts. -/
def optimize (fuel : Nat) (plan : PlanNode Op) (required : TraitSet) :
    Action Op Q (Outcome Op Q) := do
  modify clear
  let _ ← seed fuel plan required
  search fuel
  extract

/-! ## Questions -/

/-- The estimated number of rows of a group, if it is known. -/
def rowCount (g : GroupId) : Action Op Q (Option Q) :=
  modifyGet fun o =>
    let (rows, cache) := o.memo.rowCount o.model g o.rowCache
    (rows, { o with rowCache := cache })

/-- A fact about a group, by the position of its rule, as a fact of the given type. -/
def fact (o : Optimizer Op Q) (g : GroupId) (position : Nat) (type : FactType) :
    Except Failure type.Carrier := do
  let group ← o.memo.getGroup g
  match (group.facts[position]?).bind type.read with
  | some x => return x
  | none => throw (.error (.internal (.noFact g position type.name)))

end Optimizer

end PlanSearch
