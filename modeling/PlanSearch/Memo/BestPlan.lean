import PlanSearch.Memo.Basic

/-!
# The best plan

The best plan of a sub group is its winner over the best plans of the sub groups that the winner
reads. Following winners must not lead back into a sub group that is still being followed. The sub
groups not yet entered on the way down get fewer with every step, so the search for a plan ends.
-/

namespace PlanSearch

namespace Memo

variable {Op Q : Type}

/-- The error of a sub group without a plan. -/
def planNotFound (m : Memo Op Q) (r : SubGroupRef) : Failure :=
  .error (.planNotFound (m.reduceGroup r.group) r.traits)

/-- The best plan for a reference, entering only the sub groups of `unentered`. -/
def bestPlanWithin (m : Memo Op Q) (unentered : List SubGroupId) (r : SubGroupRef) :
    Except Failure (PlanNode Op) := do
  let group ← m.getGroup r.group
  match m.findSubGroup? r with
  | none => throw (m.planNotFound r)
  | some s =>
    let sub ← m.liveSubGroup s
    match sub.winner with
    | none => throw (m.planNotFound r)
    | some w =>
      if h : s ∈ unentered then
        let x ← m.getExpr w.expr
        let inputs ← x.inputs.mapM fun input => do
          have := length_erase_lt h
          let n ← bestPlanWithin m (unentered.erase s) input
          return n.toPlan
        return ⟨⟨x.op, x.data, group.rowType, x.traits⟩, inputs⟩
      else throw (.error (.internal (.winnerCycle s (m.reduceGroup r.group))))
termination_by unentered.length

/-- The cheapest plan for a sub group, by following winners from the top. -/
def bestPlan (m : Memo Op Q) (r : SubGroupRef) : Except Failure (PlanNode Op) :=
  m.bestPlanWithin m.subGroups.keys r

end Memo

end PlanSearch
