import PlanSearch.Memo.Basic

/-!
# Integrity

What must hold of the tables of a memo: no two expressions are congruent; every input leads to a live
group that has the sub group read and lists the reader; groups stand for themselves, are not empty and
agree with their members, parents and sub groups; every winner is a member of its group; and there are
as many live groups and expressions as the tables of names and members say.
-/

namespace PlanSearch

namespace Memo

variable {Op Q : Type}

/-- Passes if the condition holds. -/
def demand (condition : Bool) (e : Error) : Except Failure Unit :=
  if condition then .ok () else .error (.error e)

/-- An input leads to a live group that has the sub group read and lists the reader. -/
def verifyInput [Operator Op] (m : Memo Op Q) (e : ExprId) (x : Expr Op) (r : SubGroupRef) :
    Except Failure Unit :=
  match m.groups[r.group]? with
  | none => .error (.error (.danglingReference r.group
      (.inputOf ("expression " ++ e.text ++ " " ++ x.text))))
  | some group => do
    demand (group.sub? r.traits).isSome (.internal (.missingSubGroup e r.text))
    demand (group.parents.contains e) (.internal (.missingParent r.group e))

/-- An expression is the only one congruent to it, and all its inputs are in order. -/
def verifyExpr [Operator Op] (m : Memo Op Q) (e : ExprId) (entry : Entry Op Q) :
    Except Failure Unit := do
  demand ((m.findExpr? entry.expr).map Prod.fst == some e) (.internal (.congruentTwins e))
  entry.expr.inputs.forM (m.verifyInput e entry.expr)

/-- A parent of a group is live and reads the group. -/
def verifyParent (m : Memo Op Q) (g : GroupId) (e : ExprId) : Except Failure Unit :=
  match m.exprs[e]? with
  | none => .error (.error (.internal (.deadParent g e)))
  | some entry => demand (entry.expr.reads g) (.internal (.strangeParent g e))

/-- A sub group is indexed in its group, and its winner is a member of the group. -/
def verifySubGroup (m : Memo Op Q) (g : GroupId) (group : Group) (s : SubGroupId) :
    Except Failure Unit := do
  let sub ← m.liveSubGroup s
  demand (sub.group = g && group.sub? sub.traits == some s) (.internal (.unindexedSubGroup s g))
  match sub.winner with
  | none => return ()
  | some w => demand (group.members.contains w.expr) (.internal (.foreignWinner w.expr s g))

/-- A live group stands for itself, has members, and agrees with all that it lists. -/
def verifyGroup (m : Memo Op Q) (g : GroupId) (group : Group) : Except Failure Unit := do
  demand (m.groupAlias.find? g == some g) (.internal (.redirectedGroup g))
  demand (!group.members.isEmpty) (.internal (.emptyGroup g))
  group.members.forM fun e =>
    demand ((m.exprs[e]?).map Entry.group == some g) (.internal (.misplacedMember e g))
  group.parents.toList.forM (m.verifyParent g)
  (group.subGroups.map Prod.snd).forM (m.verifySubGroup g group)

/-- How many expressions the live groups list together. -/
def memberCount (m : Memo Op Q) : Nat :=
  m.groups.values.foldl (fun n group => n + group.members.length) 0

/-- Passes if the tables agree with each other. -/
def verify [Operator Op] (m : Memo Op Q) : Except Failure Unit := do
  m.exprs.toList.forM fun p => m.verifyExpr p.1 p.2
  m.groups.toList.forM fun p => m.verifyGroup p.1 p.2
  demand (m.groupAlias.parts = m.groups.size)
    (.internal (.groupCount m.groups.size m.groupAlias.parts))
  demand (m.memberCount = m.size) (.internal (.exprCount m.memberCount m.size))

end Memo

end PlanSearch
