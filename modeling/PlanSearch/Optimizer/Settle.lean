import PlanSearch.Optimizer.Discovery

/-!
# Settling changes

After the memo has changed, everything that depends on it is brought up to date: new expressions are
priced, readers of sub groups with a new winner are priced anew, groups get the enforcers that their
required sub groups call for, and new matches are discovered. All this changes the memo again, so it
is done in rounds until a round leaves no change.
-/

namespace PlanSearch

namespace Optimizer

variable {Op Q : Type} [Operator Op] [Quantity Q]

/-! ## Prices -/

/-- The costs of the winners that an expression reads, if every one of its inputs has one. -/
def inputCosts (m : Memo Op Q) (x : Expr Op) : Except Failure (Option (List (Cost Q))) := do
  let winners ← x.inputs.mapM m.winner
  return (winners.mapM id).map fun ws => ws.map fun w => w.price.cost

/-- Prices a physical expression whose inputs all have winners. -/
def priceExpr (e : ExprId) : Action Op Q Unit := do
  let x ← Action.read fun o => o.memo.getExpr e
  if !Operator.isLogical x.op then
    match ← Action.read fun o => inputCosts o.memo x with
    | none => return ()
    | some costs =>
      let site : ExprSite := ⟨← Action.read fun o => o.memo.groupOf e, e⟩
      let o ← get
      let (answer, cache) := (o.model.operationCost x costs site).eval o.memo o.model o.rowCache
      match answer with
      | .error f => Action.fault f
      | .ok operation =>
        let cost := o.model.sum operation costs
        set { o with rowCache := cache, stats := { o.stats with costed := o.stats.costed + 1 } }
        Action.onMemo (Update.step (Memo.recordPrice e ⟨cost, o.model.weight cost⟩))

/-- Prices every reader of a sub group whose winner has changed. -/
def winnerImproved (s : SubGroupId) : Action Op Q Unit := do
  let sub ← Action.read fun o => o.memo.getSubGroup s
  match sub.winner with
  | none => return ()
  | some w =>
    record (.decideWinner s sub.group sub.traits w.expr w.price.weight)
    let group ← Action.read fun o => o.memo.getGroup sub.group
    group.parents.toList.forM fun parent => do
      let x ← Action.read fun o => o.memo.getExpr parent
      let m := (← get).memo
      if x.inputs.any fun r => decide ((m.reduceRef r).Same ⟨sub.group, sub.traits⟩) then
        priceExpr parent

/-! ## Enforcers -/

/-- Adds the enforcers of a chain to a group, and answers their expressions. -/
def addChain (g : GroupId) : List (PlanNode Op) → Action Op Q (List ExprId)
  | [] => return []
  | n :: ns => do
    let target := (← get).memo.reduceGroup g
    let e ← Action.onMemo (Memo.addEnforcer n target)
    let es ← addChain g ns
    return e.toList ++ es

/-- Tries to convert what members of a group deliver into what is required, once. -/
def convertWithin (g : GroupId) (actual required : TraitSet) : Action Op Q Unit := do
  let o ← get
  let g := o.memo.reduceGroup g
  let tried := o.attempted.any fun (h, a, r) =>
    h = g && decide (a.Same actual) && decide (r.Same required)
  if !o.memo.registry.satisfies actual required && !tried then
    set { o with attempted := o.attempted ++ [(g, actual, required)] }
    let input : SubGroupRef := ⟨g, actual⟩
    let group ← Action.read fun o => o.memo.getGroup g
    match o.memo.registry.convert input group.rowType actual required with
    | .error f => Action.fault f
    | .ok none => return ()
    | .ok (some nodes) =>
      let _ ← Action.onMemo (Memo.ensureSubGroup input false)
      let exprs ← addChain g nodes
      count fun s => { s with enforcers := s.enforcers + 1 }
      record (.addEnforcer g actual required exprs)

/-- The trait sets of the required sub groups of a group, in the order in which they came. -/
def requiredOf (m : Memo Op Q) (g : GroupId) : Except Failure (List TraitSet) := do
  let subs ← (m.subGroupsOf g).mapM m.getSubGroup
  return (subs.filter SubGroup.required).map SubGroup.traits

/-- The trait sets that the physical members of a group deliver, each once, in their order. -/
def deliveredBy (m : Memo Op Q) (g : GroupId) : Except Failure (List TraitSet) := do
  let exprs ← (m.members g).mapM m.getExpr
  let physical := exprs.filter fun x => !Operator.isLogical x.op
  return (physical.map Expr.traits).eraseDupsBy fun a b => decide (a.Same b)

/-- Adds the enforcers that turn what is delivered in a group into what is required of it. -/
def addEnforcers (g : GroupId) : Action Op Q Unit := do
  let g := (← get).memo.reduceGroup g
  let required ← Action.read fun o => requiredOf o.memo g
  let delivered ← Action.read fun o => deliveredBy o.memo g
  delivered.forM fun actual => required.forM fun r => convertWithin g actual r

/-! ## Rounds -/

/-- The groups that may need enforcers after some changes, by ascending name. -/
def affectedGroups (m : Memo Op Q) (c : Changes) : Except Failure (List GroupId) := do
  let news ← c.newExprs.mapM m.groupOf
  let required ← c.required.mapM m.getSubGroup
  return (Std.TreeSet.ofList (c.merged.map Prod.fst ++ news ++ required.map SubGroup.group)).toList

/-- Counts and records one merge. -/
def noteMerge (kept absorbed : GroupId) : Action Op Q Unit := do
  count fun s => { s with merged := s.merged + 1 }
  record (.mergeGroup kept absorbed)

/-- One round. Row counts are only good until groups merge. -/
def settleRound (c : Changes) : Action Op Q Unit := do
  if !c.merged.isEmpty then modify fun o => { o with rowCache := ∅ }
  c.merged.forM fun (kept, absorbed) => noteMerge kept absorbed
  c.newExprs.forM priceExpr
  let improved := (c.improved.map (← get).memo.reduceSubGroup).eraseDups
  improved.forM winnerImproved
  let affected ← Action.read fun o => affectedGroups o.memo c
  affected.forM addEnforcers
  c.newExprs.forM indexExpr
  c.merged.forM fun (kept, _) => do
    ((← get).memo.members kept).forM indexExpr

/-- Takes the changes of the memo, leaving none. -/
def takeChanges : Action Op Q Changes :=
  modifyGet fun o => (o.memo.changes, { o with memo := o.memo.forgetChanges })

/-- Brings prices, winners, enforcers and the agenda up to date, in fewer than `fuel` rounds. -/
def settle : Nat → Action Op Q Unit
  | 0 => throw .outOfFuel
  | fuel + 1 => do
    let changes ← takeChanges
    if changes.isEmpty then Action.read fun o => o.memo.verify
    else
      settleRound changes
      settle fuel

end Optimizer

end PlanSearch
