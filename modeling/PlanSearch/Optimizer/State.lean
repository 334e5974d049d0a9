import PlanSearch.Agenda
import PlanSearch.Memo.Insert
import PlanSearch.Memo.Integrity
import PlanSearch.RowCount
import PlanSearch.Rule
import PlanSearch.Trigger

/-!
# The state of an optimizer

An optimizer keeps a memo, the rules with the triggers of their patterns, and the agenda of matches
still to fire. It counts what it does and, if asked to, records every step as an event. Rules, and
which of them are disabled or removed, outlive a call; all else belongs to one call.
-/

namespace PlanSearch

/-- How an optimizer is to go about its work. -/
structure Options where
  /-- Whether running out of a budget is a fault. -/
  panicOnBudget : Bool
  /-- How many matches may fire. -/
  iterationBudget : Option Nat
  /-- From how many expressions on only implementation rules fire. -/
  planSpaceBudget : Option Nat
  /-- How long a search may take. A search counts as taking no time at all, so only a budget of
  nothing runs out. -/
  timeBudget : Option Nat
  /-- Whether events are recorded. -/
  tracing : Bool
  order : AgendaOrder
  tieBreak : TieBreak
deriving DecidableEq

/-- No limits; events are recorded. -/
def Options.default : Options := ⟨false, none, none, none, true, .fifo, .keepIncumbent⟩

/-- What a rule's output became. -/
inductive Product where
  | expr (e : ExprId)
  | group (g : GroupId)
deriving DecidableEq

/-- The name of a product. -/
def Product.text : Product → String
  | expr e => e.text
  | group g => g.text

/-- What an optimizer did. -/
inductive Event (Q : Type) where
  | ruleMatched (rule : Nat) (name : String) (exprs : List ExprId)
  | applyRule (rule : Nat) (name : String) (group : GroupId) (binding : List ExprId)
      (produced : List Product)
  | mergeGroup (kept absorbed : GroupId)
  | addEnforcer (group : GroupId) (source target : TraitSet) (exprs : List ExprId)
  | decideWinner (sub : SubGroupId) (group : GroupId) (traits : TraitSet) (expr : ExprId)
      (weight : Q)
  | budgetExhausted (budget : Budget)

/-- An event with the number of the step that it was. -/
structure Record (Q : Type) where
  step : Nat
  event : Event Q

/-- How often an optimizer did what. -/
structure Stats where
  /-- How often each rule fired. -/
  fired : Std.TreeMap Nat Nat
  /-- How many bindings of each rule were put on the agenda. -/
  bindings : Std.TreeMap Nat Nat
  applied : Nat
  merged : Nat
  enforcers : Nat
  costed : Nat

/-- Nothing was done. -/
def Stats.none : Stats := ⟨∅, ∅, 0, 0, 0, 0⟩

/-- One more for a key. -/
def Stats.bump (counts : Std.TreeMap Nat Nat) (key : Nat) : Std.TreeMap Nat Nat :=
  counts.insert key ((counts[key]?).getD 0 + 1)

/-- The result of a call. -/
structure Outcome (Op Q : Type) where
  plan : PlanNode Op
  /-- The cost of the plan; absent if a budget ran out first and the plan is the input as it was. -/
  cost : Option (Cost Q)
  root : GroupId
  /-- Whether the search stopped before there was nothing left to fire. -/
  budgetExhausted : Bool

/-- The rule, and the binding as text, that an error arose at. -/
structure RuleSite where
  rule : String
  binding : String
deriving DecidableEq

/-- How the place is described in errors. -/
def RuleSite.text (s : RuleSite) : String := "rule " ++ s.rule ++ " on binding " ++ s.binding

/-- What a call on an optimizer can end with in place of an answer. -/
inductive Stop where
  | error (site : Option RuleSite) (e : Error)
  | refused (r : Refusal)
  | fault (f : Fault)
  /-- More rounds were needed than allowed for. -/
  | outOfFuel
deriving DecidableEq

/-- A failure of the memo, met at a rule if that is given. -/
def Stop.ofFailure (site : Option RuleSite) : Failure → Stop
  | .error e => error site e
  | .fault f => fault f

/-- An optimizer with the call under way. -/
structure Optimizer (Op Q : Type) where
  memo : Memo Op Q
  rules : List (Rule Op Q)
  disabled : Std.TreeSet Nat
  removed : Std.TreeSet Nat
  triggers : TriggerIndex Op
  agenda : Agenda
  model : CostModel Op Q
  rowCache : RowCache Q
  /-- The conversions already tried: the group, what is delivered, what is required. -/
  attempted : List (GroupId × TraitSet × TraitSet)
  options : Options
  stats : Stats
  records : List (Record Q)
  /-- The number of the last step recorded. -/
  recorded : Nat
  phase : Phase
  /-- What the call asks for. -/
  root : Option SubGroupRef
  seedPlan : Option (PlanNode Op)
  /-- How many matches have fired in this search. -/
  steps : Nat
  budgetExhausted : Bool

/-- A step of an optimizer, which can end early with the state as it was left. -/
abbrev Action (Op Q α : Type) := EStateM Stop (Optimizer Op Q) α

namespace Action

variable {Op Q α : Type}

/-- Reads the state. -/
def read (f : Optimizer Op Q → Except Failure α) : Action Op Q α := fun o =>
  match f o with
  | .ok a => .ok a o
  | .error e => .error (.ofFailure none e) o

/-- Changes the memo; a failure counts as met at `site`. -/
def onMemoAt (site : Option RuleSite) (u : Update Op Q α) : Action Op Q α := fun o =>
  match u o.memo with
  | .ok a m => .ok a { o with memo := m }
  | .error e m => .error (.ofFailure site e) { o with memo := m }

/-- Changes the memo. -/
def onMemo (u : Update Op Q α) : Action Op Q α := onMemoAt none u

/-- Ends the session. -/
def fault (f : Fault) : Action Op Q α := throw (.fault f)

end Action

namespace Optimizer

variable {Op Q : Type}

/-- An optimizer without a call under way. -/
def new (rules : List (Rule Op Q)) (model : CostModel Op Q) (registry : Registry Op)
    (factRules : List (FactRule Op)) (options : Options) : Optimizer Op Q :=
  { memo := .empty registry factRules options.tieBreak
    rules := rules
    disabled := ∅
    removed := ∅
    triggers := rules.zipIdx.foldl (fun t (r, i) => t.add i r.pattern) .empty
    agenda := .empty options.order
    model := model
    rowCache := ∅
    attempted := []
    options := options
    stats := .none
    records := []
    recorded := 0
    phase := .idle
    root := none
    seedPlan := none
    steps := 0
    budgetExhausted := false }

/-- Ends the call under way. Rules and their state are kept, and options take effect. -/
def clear (o : Optimizer Op Q) : Optimizer Op Q :=
  { o with
    memo := .empty o.memo.registry o.memo.factRules o.options.tieBreak
    agenda := .empty o.options.order
    rowCache := ∅
    attempted := []
    stats := .none
    records := []
    recorded := 0
    phase := .idle
    root := none
    seedPlan := none
    steps := 0
    budgetExhausted := false }

/-- Whether matches of a rule are looked for. -/
def isActive (o : Optimizer Op Q) (rule : Nat) : Bool :=
  !o.disabled.contains rule && !o.removed.contains rule

/-- The rule of a number. -/
def getRule (o : Optimizer Op Q) (rule : Nat) : Except Failure (Rule Op Q) :=
  match o.rules[rule]? with
  | some r => .ok r
  | none => .error (.fault (.unknownRule rule))

/-- The optimizer with an event recorded, if events are. -/
def withEvent (o : Optimizer Op Q) (e : Event Q) : Optimizer Op Q :=
  if o.options.tracing then
    { o with recorded := o.recorded + 1, records := o.records ++ [⟨o.recorded + 1, e⟩] }
  else o

/-- Records an event, if events are. -/
def record (e : Event Q) : Action Op Q Unit := modify fun o => o.withEvent e

/-- The optimizer with its statistics changed. -/
def count (f : Stats → Stats) : Action Op Q Unit := modify fun o => { o with stats := f o.stats }

end Optimizer

end PlanSearch
