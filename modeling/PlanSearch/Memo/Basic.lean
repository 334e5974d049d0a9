import PlanSearch.Cost
import PlanSearch.Fact
import PlanSearch.Partition
import PlanSearch.Trait.Registry

/-!
# The memo

The memo holds groups of equivalent expressions. The inputs of an expression are references to sub
groups: groups narrowed to the traits that the expression requires. Each sub group knows its winner,
the cheapest expression found for it so far. Groups, sub groups and expressions are named by numbers
from one counter. When a merge retires a name, the name is redirected to what replaced it, so that
names held outside stay good; the tables themselves hold live names only.

This module has the tables and the ways to read them. A name that was never given out is a fault.
-/

namespace PlanSearch

/-- An operation whose inputs are references; its row type is that of its group. -/
structure Expr (Op : Type) where
  op : Op
  inputs : List SubGroupRef
  data : Option Value
  /-- The traits that the expression delivers. -/
  traits : TraitSet
deriving DecidableEq

namespace Expr

variable {Op : Type}

/-- The expression with all values in it in canonical form. -/
def canon (x : Expr Op) : Expr Op :=
  { x with inputs := x.inputs.map SubGroupRef.canon, data := x.data.map Value.canon,
           traits := x.traits.canon }

/-- Expressions are congruent when they agree up to the canonical form of the values in them. -/
def Congruent (x y : Expr Op) : Prop := x.canon = y.canon

instance [DecidableEq Op] (x y : Expr Op) : Decidable (Congruent x y) :=
  inferInstanceAs (Decidable (x.canon = y.canon))

/-- The expression with its inputs as references. -/
def text [Operator Op] (x : Expr Op) : String :=
  nodeText x.op x.data (x.inputs.map SubGroupRef.text)

/-- Whether some input reads the group. -/
def reads (x : Expr Op) (g : GroupId) : Bool := x.inputs.any fun r => r.group = g

/-- The expression with every input on one group moved to another. -/
def redirect (x : Expr Op) (source target : GroupId) : Expr Op :=
  { x with inputs := x.inputs.map fun r => if r.group = source then ⟨target, r.traits⟩ else r }

end Expr

/-- The cheapest known expression of a sub group, with the price it won at. -/
structure Winner (Q : Type) where
  expr : ExprId
  price : Price Q
deriving DecidableEq

/-- How a candidate that weighs exactly as much as the winner fares. -/
inductive TieBreak where
  | keepIncumbent
  | lowerId
  | higherId
deriving DecidableEq

/-- Whether a candidate of equal weight takes the place of the incumbent. -/
def TieBreak.prefers : TieBreak → ExprId → ExprId → Bool
  | keepIncumbent, _, _ => false
  | lowerId, candidate, incumbent => candidate < incumbent
  | higherId, candidate, incumbent => incumbent < candidate

/-- A group narrowed to one trait set, with the cheapest way known to deliver it. -/
structure SubGroup (Q : Type) where
  group : GroupId
  traits : TraitSet
  winner : Option (Winner Q)
  /-- Whether an expression reads it or the root requirement asks for it. -/
  required : Bool

/-- A set of equivalent expressions. -/
structure Group where
  /-- The members in the order in which they came. -/
  members : List ExprId
  rowType : RowType
  /-- The sub groups in the order in which they came, each under its traits. -/
  subGroups : List (TraitSet × SubGroupId)
  /-- One fact per fact rule. -/
  facts : List Fact
  /-- The expressions that read the group. -/
  parents : Std.TreeSet ExprId

/-- The sub group under these traits. -/
def Group.sub? (g : Group) (traits : TraitSet) : Option SubGroupId :=
  (g.subGroups.find? fun p => p.1.Same traits).map Prod.snd

/-- An expression with the group it is a member of and its total price, once that is known. -/
structure Entry (Op Q : Type) where
  expr : Expr Op
  group : GroupId
  price : Option (Price Q)

/-- What happened to the memo since it was last asked. -/
structure Changes where
  newExprs : List ExprId
  improved : List SubGroupId
  required : List SubGroupId
  /-- Pairs of the group that stayed and the group it took in. -/
  merged : List (GroupId × GroupId)

/-- Nothing happened. -/
def Changes.none : Changes := ⟨[], [], [], []⟩

/-- Whether nothing happened. -/
def Changes.isEmpty (c : Changes) : Bool :=
  c.newExprs.isEmpty && c.improved.isEmpty && c.required.isEmpty && c.merged.isEmpty

/-- The tables of the memo, with what it needs to know about traits and facts. -/
structure Memo (Op Q : Type) where
  registry : Registry Op
  factRules : List (FactRule Op)
  tieBreak : TieBreak
  /-- The next number to name something by. -/
  next : Nat
  groups : Std.TreeMap GroupId Group
  subGroups : Std.TreeMap SubGroupId (SubGroup Q)
  exprs : Std.TreeMap ExprId (Entry Op Q)
  groupAlias : Partition GroupId
  subGroupAlias : Partition SubGroupId
  exprAlias : Partition ExprId
  changes : Changes

namespace Memo

variable {Op Q : Type}

/-- A memo without expressions. -/
def empty (registry : Registry Op) (factRules : List (FactRule Op)) (tieBreak : TieBreak) :
    Memo Op Q :=
  { registry := registry, factRules := factRules, tieBreak := tieBreak, next := 0, groups := ∅,
    subGroups := ∅, exprs := ∅, groupAlias := .empty, subGroupAlias := .empty, exprAlias := .empty,
    changes := .none }

/-! ## Names -/

/-- The live group that a group name stands for. -/
def reduceGroup (m : Memo Op Q) (g : GroupId) : GroupId := m.groupAlias.resolve g

/-- The live sub group that a sub group name stands for. -/
def reduceSubGroup (m : Memo Op Q) (s : SubGroupId) : SubGroupId := m.subGroupAlias.resolve s

/-- The live expression that an expression name stands for. -/
def reduceExpr (m : Memo Op Q) (e : ExprId) : ExprId := m.exprAlias.resolve e

/-- The reference with its group replaced by the live one. -/
def reduceRef (m : Memo Op Q) (r : SubGroupRef) : SubGroupRef := ⟨m.reduceGroup r.group, r.traits⟩

/-- All live groups, by ascending name. -/
def groupIds (m : Memo Op Q) : List GroupId := m.groups.keys

/-- How many expressions are live. -/
def size (m : Memo Op Q) : Nat := m.exprs.size

/-! ## Lookups -/

/-- The record of the live group that a name stands for. -/
def group? (m : Memo Op Q) (g : GroupId) : Option Group := m.groups[m.reduceGroup g]?

/-- The record of a group, or the error of a name that leads nowhere. -/
def getGroup (m : Memo Op Q) (g : GroupId) : Except Failure Group :=
  match m.group? g with
  | some group => .ok group
  | none => .error (.error (.danglingReference (m.reduceGroup g) .lookup))

/-- The members of a group; a name without a group has none. -/
def members (m : Memo Op Q) (g : GroupId) : List ExprId := ((m.group? g).map Group.members).getD []

/-- The sub groups of a group in the order in which they came; a name without a group has none. -/
def subGroupsOf (m : Memo Op Q) (g : GroupId) : List SubGroupId :=
  ((m.group? g).map fun group => group.subGroups.map Prod.snd).getD []

/-- The record of a live sub group. -/
def liveSubGroup (m : Memo Op Q) (s : SubGroupId) : Except Failure (SubGroup Q) :=
  match m.subGroups[s]? with
  | some sub => .ok sub
  | none => .error (.fault (.unknownSubGroup s))

/-- The record of the live sub group that a name stands for. -/
def getSubGroup (m : Memo Op Q) (s : SubGroupId) : Except Failure (SubGroup Q) :=
  m.liveSubGroup (m.reduceSubGroup s)

/-- The record of a live group. -/
def liveGroup (m : Memo Op Q) (g : GroupId) : Except Failure Group :=
  match m.groups[g]? with
  | some group => .ok group
  | none => .error (.fault (.unknownGroup g))

/-- The record of the live expression that a name stands for. -/
def getEntry (m : Memo Op Q) (e : ExprId) : Except Failure (Entry Op Q) :=
  match m.exprs[m.reduceExpr e]? with
  | some entry => .ok entry
  | none => .error (.fault (.unknownExpr (m.reduceExpr e)))

/-- The live expression that a name stands for. -/
def getExpr (m : Memo Op Q) (e : ExprId) : Except Failure (Expr Op) :=
  return (← m.getEntry e).expr

/-- The live group that an expression is a member of. -/
def groupOf (m : Memo Op Q) (e : ExprId) : Except Failure GroupId :=
  return m.reduceGroup (← m.getEntry e).group

/-- The total price of an expression, once it is known. -/
def priceOf (m : Memo Op Q) (e : ExprId) : Option (Price Q) :=
  (m.exprs[m.reduceExpr e]?).bind Entry.price

/-- The sub group that a reference stands for, if it was ever asked for. -/
def findSubGroup? (m : Memo Op Q) (r : SubGroupRef) : Option SubGroupId :=
  (m.group? r.group).bind fun group => group.sub? r.traits

/-- The winner of the sub group that a reference stands for. -/
def winner (m : Memo Op Q) (r : SubGroupRef) : Except Failure (Option (Winner Q)) :=
  match m.findSubGroup? r with
  | none => .ok none
  | some s => return (← m.liveSubGroup s).winner

/-- The live expression congruent to `x`, with its record. -/
def findExpr? [DecidableEq Op] (m : Memo Op Q) (x : Expr Op) : Option (ExprId × Entry Op Q) :=
  m.exprs.toList.find? fun p => p.2.expr.Congruent x

/-- The facts of a group, in the order of the fact rules. -/
def facts (m : Memo Op Q) (g : GroupId) : Except Failure (List Fact) := return (← m.getGroup g).facts

/-! ## Readers of readers -/

/-- The expressions that read the groups of some expressions, each once, in the order found. -/
def readersOf (m : Memo Op Q) (es : List ExprId) : Except Failure (List ExprId) := do
  let found ← es.mapM fun e => do
    let group ← m.liveGroup (← m.groupOf e)
    return group.parents.toList
  return found.flatten.eraseDups

/-- The expressions `depth` levels above an expression; at depth zero the expression itself. -/
def ancestors (m : Memo Op Q) (e : ExprId) (depth : Nat) : Except Failure (List ExprId) :=
  above depth [m.reduceExpr e]
where
  above : Nat → List ExprId → Except Failure (List ExprId)
    | 0, level => .ok level
    | n + 1, level => do above n (← m.readersOf level)

/-! ## What is left to visit -/

/-- A list gets shorter when something in it is taken out. -/
theorem length_erase_lt {α : Type} [DecidableEq α] {xs : List α} {x : α} (h : x ∈ xs) :
    (xs.erase x).length < xs.length := by
  rw [List.length_erase_of_mem h]
  exact Nat.sub_lt (List.length_pos_of_mem h) Nat.one_pos

/-! ## Changes -/

/-- The memo with its record of changes emptied. -/
def forgetChanges (m : Memo Op Q) : Memo Op Q := { m with changes := .none }

end Memo

end PlanSearch
