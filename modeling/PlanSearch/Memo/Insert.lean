import PlanSearch.Memo.Merge

/-!
# Adding plans

A plan is added from its leaves upwards: every operation becomes an expression over sub groups of
the groups of its inputs. An operation congruent to a known expression is that expression; added to
another group, it shows the two groups to be equivalent, and they are merged. Anything else becomes a
new expression, in the group it was added to or in a group of its own.
-/

namespace PlanSearch

namespace Memo

variable {Op Q : Type}

/-! ## New expressions -/

/-- The facts of an expression, from those of its input groups. -/
def deriveFacts [Operator Op] (m : Memo Op Q) (x : Expr Op) : Except Failure (List Fact) := do
  let inputs ← x.inputs.mapM fun r =>
    match m.group? r.group with
    | some group => .ok group.facts
    | none => .error (.error (.danglingReference (m.reduceGroup r.group) (.inputOf x.text)))
  m.factRules.zipIdx.mapM fun (rule, i) => do
    let known ← inputs.mapM fun facts =>
      match facts[i]? with
      | some fact => .ok fact
      | none => .error (.fault (.noSuchPosition i))
    rule.apply x.op x.data known

/-- Enters `e` as a parent of every group that it reads. -/
def addParent (e : ExprId) (x : Expr Op) (m : Memo Op Q) : Memo Op Q :=
  { m with groups := x.inputs.foldl (fun t r =>
      t.modify r.group fun group => { group with parents := group.parents.insert e }) m.groups }

/-- Enters a new expression, a member of the group `g`. -/
def enterExpr (e : ExprId) (x : Expr Op) (g : GroupId) (m : Memo Op Q) : Memo Op Q :=
  let m := m.addParent e x
  { m with
    exprs := m.exprs.insert e ⟨x, g, none⟩
    exprAlias := m.exprAlias.add e
    changes := { m.changes with newExprs := m.changes.newExprs ++ [e] } }

/-- A fresh name. -/
def fresh {k : Named} : Update Op Q (Ident k) :=
  modifyGet fun m => (⟨m.next⟩, { m with next := m.next + 1 })

/-- The reference must lead to a live group, or the reader `op` cannot be added. -/
def requireLive [Operator Op] (m : Memo Op Q) (op : Op) (r : SubGroupRef) : Except Failure Unit :=
  match m.group? r.group with
  | some _ => .ok ()
  | none => .error (.error (.danglingReference (m.reduceGroup r.group)
      (.inputOf (Operator.text op))))

/-- Every group read by `x` is live. -/
def requireInputs [Operator Op] (m : Memo Op Q) (x : Expr Op) : Except Failure Unit :=
  x.inputs.forM fun r =>
    if r.group ∈ m.groups then .ok ()
    else .error (.error (.danglingReference r.group (.inputOf x.text)))

/-- Adds a new expression to the live group `g`. -/
def extend [Operator Op] (x : Expr Op) (rowType : RowType) (g : GroupId) :
    Update Op Q (GroupId × ExprId) := do
  let e : ExprId ← fresh
  Update.read fun m => m.checkRowType g rowType
  Update.read fun m => m.requireInputs x
  modify fun m =>
    let m := m.enterExpr e x g
    { m with groups := m.groups.modify g fun group => { group with members := group.members ++ [e] } }
  return (g, e)

/-- Adds a new expression in a group of its own. -/
def create [Operator Op] (x : Expr Op) (rowType : RowType) : Update Op Q (GroupId × ExprId) := do
  let e : ExprId ← fresh
  let g : GroupId ← fresh
  let facts ← Update.read fun m => m.deriveFacts x
  Update.read fun m => m.requireInputs x
  modify fun m =>
    let m := m.enterExpr e x g
    { m with
      groups := m.groups.insert g ⟨[e], rowType, [], facts, ∅⟩
      groupAlias := m.groupAlias.add g }
  return (g, e)

/-! ## Plans -/

variable [Quantity Q] [Operator Op]

/-- Finds or adds the expression of an operation over references; `target` is the group that it is to
be a member of, if that is given. -/
def register (head : Operation Op) (inputs : List SubGroupRef) (target : Option GroupId) :
    Update Op Q (GroupId × ExprId) := do
  let x : Expr Op := ⟨head.op, inputs, head.data, head.traits⟩
  match (← get).findExpr? x, target with
  | some (e, entry), some t =>
    let t := (← get).reduceGroup t
    Update.read fun m => m.checkRowType t head.rowType
    merge t entry.group
    return ((← get).reduceGroup t, e)
  | some (e, entry), none => return (entry.group, e)
  | none, some t => extend x head.rowType t
  | none, none => create x head.rowType

/-- Adds an operation, once its inputs are added. -/
def insertOver (head : Operation Op) (inputs : Update Op Q (List SubGroupRef))
    (target : Option GroupId) : Update Op Q (GroupId × ExprId) := do
  Update.read fun m => m.checkTraits head.traits
  let refs ← inputs
  register head refs target

/-- Adds the inputs of an operator `op`, from left to right, and makes sure of the sub groups that it
reads; `require` says whether they count as required by it. Operations below are always read in
earnest. -/
def insertInputs (op : Op) (require : Bool) : List (Plan Op) → Update Op Q (List SubGroupRef)
  | [] => return []
  | .group ref :: rest => do
    Update.read fun m => m.checkTraits ref.traits
    Update.read fun m => m.requireLive op ref
    let r := (← get).reduceRef ref
    let _ ← ensureSubGroup r require
    let refs ← insertInputs op require rest
    return r :: refs
  | .node head inputs :: rest => do
    let (g, _) ← insertOver head (insertInputs head.op true inputs) none
    let r : SubGroupRef := ⟨(← get).reduceGroup g, head.traits⟩
    let _ ← ensureSubGroup r require
    let refs ← insertInputs op require rest
    return r :: refs

/-- Adds an operation with everything below it. -/
def insertNode (n : PlanNode Op) (target : Option GroupId) (require : Bool) :
    Update Op Q (GroupId × ExprId) :=
  insertOver n.head (insertInputs n.head.op require n.inputs) target

/-- Adds a plan. Answers the group and the expression of its root. -/
def add (n : PlanNode Op) : Update Op Q (GroupId × ExprId) := do
  let (g, e) ← insertNode n none true
  return ((← get).reduceGroup g, e)

/-- Adds an operation as a member of a group. -/
def addNodeTo (n : PlanNode Op) (g : GroupId) (require : Bool) : Update Op Q (Option ExprId) := do
  let (_, e) ← insertNode n (some ((← get).reduceGroup g)) require
  return some e

/-- Registers a plan as equivalent to the members of a group: an operation becomes a member, and a
reference merges the group with the one that it refers to. -/
def addTo (p : Plan Op) (g : GroupId) : Update Op Q (Option ExprId) :=
  match p with
  | .node head inputs => addNodeTo ⟨head, inputs⟩ g true
  | .group ref => do
    let m ← get
    merge (m.reduceGroup g) (m.reduceGroup ref.group)
    return none

/-- Registers an enforcer with a group. What an enforcer reads does not count as required by it, so
that enforcers get no enforcers of their own. -/
def addEnforcer (n : PlanNode Op) (g : GroupId) : Update Op Q (Option ExprId) := addNodeTo n g false

end Memo

end PlanSearch
