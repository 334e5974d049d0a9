import PlanSearch.Memo.Insert

/-!
# The outline of a memo

The outline is what a memo says about names and places: which groups, sub groups and expressions are
live, what they consist of, and what the names of the others stand for. Prices, winners and marks are
left out, so whatever only changes those leaves the outline as it is. The tables are functions here,
and a change of the memo is a change of these functions.

    m.reduceRef r = m.outline.reduceRef r        (Memo.reduceRef_eq)
-/

namespace PlanSearch

/-- An expression reads the groups of its inputs. -/
theorem Expr.reads_iff {Op : Type} {x : Expr Op} {g : GroupId} :
    x.reads g = true ↔ ∃ r ∈ x.inputs, r.group = g := by
  simp [Expr.reads]

/-- A group in an outline. Its readers are a condition, as their order does not matter. -/
@[ext]
structure Cell where
  members : List ExprId
  rowType : RowType
  subs : List (TraitSet × SubGroupId)
  facts : List Fact
  parents : ExprId → Prop

/-- The group as a cell. -/
def Group.cell (g : Group) : Cell :=
  ⟨g.members, g.rowType, g.subGroups, g.facts, fun e => e ∈ g.parents⟩

/-- The group and the traits of a sub group. -/
def SubGroup.ref {Q : Type} (sub : SubGroup Q) : SubGroupRef := ⟨sub.group, sub.traits⟩

/-- An expression with the group that it is a member of. -/
def Entry.place {Op Q : Type} (x : Entry Op Q) : Expr Op × GroupId := (x.expr, x.group)

/-- Names, expressions and their places. The representative of a name that was never given out is
absent; a live name represents itself. -/
@[ext]
structure Outline (Op : Type) where
  next : Nat
  group : GroupId → Option Cell
  sub : SubGroupId → Option SubGroupRef
  /-- A live expression with the group that it is a member of. -/
  entry : ExprId → Option (Expr Op × GroupId)
  groupRep : GroupId → Option GroupId
  subRep : SubGroupId → Option SubGroupId
  exprRep : ExprId → Option ExprId
  news : List ExprId
  merged : List (GroupId × GroupId)

/-- The outline of a memo. -/
def Memo.outline {Op Q : Type} (m : Memo Op Q) : Outline Op where
  next := m.next
  group g := (m.groups[g]?).map Group.cell
  sub s := (m.subGroups[s]?).map SubGroup.ref
  entry e := (m.exprs[e]?).map Entry.place
  groupRep := m.groupAlias.find?
  subRep := m.subGroupAlias.find?
  exprRep := m.exprAlias.find?
  news := m.changes.newExprs
  merged := m.changes.merged

namespace Outline

variable {Op : Type}

/-! ## Names -/

/-- The live group that a group name stands for. -/
def reduce (o : Outline Op) (g : GroupId) : GroupId := (o.groupRep g).getD g

/-- The live expression that an expression name stands for. -/
def reduceExpr (o : Outline Op) (e : ExprId) : ExprId := (o.exprRep e).getD e

/-- The live sub group that a sub group name stands for. -/
def reduceSub (o : Outline Op) (s : SubGroupId) : SubGroupId := (o.subRep s).getD s

/-- The reference with its group replaced by the live one. -/
def reduceRef (o : Outline Op) (r : SubGroupRef) : SubGroupRef := ⟨o.reduce r.group, r.traits⟩

/-- The expression with all its inputs on live groups. -/
def settled (o : Outline Op) (x : Expr Op) : Expr Op := { x with inputs := x.inputs.map o.reduceRef }

/-- Two expressions are alike if they are congruent once all inputs are on live groups. -/
def Alike (o : Outline Op) (x y : Expr Op) : Prop := (o.settled x).Congruent (o.settled y)

/-- Two groups are linked if they cannot be told apart by a labelling that gives one label to all names
of a group and to both sides of every pair of groups still to be merged. -/
def Linked (o : Outline Op) (pending : List (GroupId × GroupId)) (g h : GroupId) : Prop :=
  ∀ label : GroupId → GroupId, (∀ a, label (o.reduce a) = label a) →
    (∀ p ∈ pending, label p.1 = label p.2) → label g = label h

/-! ## Growth -/

/-- A number is given out. -/
def skip (o : Outline Op) : Outline Op := { o with next := o.next + 1 }

/-- A new sub group of the group `g`. -/
def openSub (g : GroupId) (traits : TraitSet) (o : Outline Op) : Outline Op :=
  { o with
    next := o.next + 1
    sub := fun s => if s = ⟨o.next⟩ then some ⟨g, traits⟩ else o.sub s
    subRep := fun s => if s = ⟨o.next⟩ then some ⟨o.next⟩ else o.subRep s
    group := fun h =>
      if h = g then (o.group h).map fun c => { c with subs := c.subs ++ [(traits, ⟨o.next⟩)] }
      else o.group h }

/-- A new expression `e` with its place in the group `g`, listed as a reader where it reads. -/
def enter (e : ExprId) (x : Expr Op) (g : GroupId) (o : Outline Op) : Outline Op :=
  { o with
    entry := fun e' => if e' = e then some (x, g) else o.entry e'
    exprRep := fun e' => if e' = e then some e else o.exprRep e'
    group := fun h => (o.group h).map fun c =>
      { c with parents := fun e' => c.parents e' ∨ e' = e ∧ x.reads h = true }
    news := o.news ++ [e] }

/-- A new expression as a member of the live group `g`. -/
def attach (x : Expr Op) (g : GroupId) (o : Outline Op) : Outline Op :=
  let o' := o.enter ⟨o.next⟩ x g
  { o' with
    next := o.next + 1
    group := fun h =>
      if h = g then (o'.group h).map fun c => { c with members := c.members ++ [⟨o.next⟩] }
      else o'.group h }

/-- A new expression in a group of its own. -/
def found (x : Expr Op) (rowType : RowType) (facts : List Fact) (o : Outline Op) : Outline Op :=
  let o' := o.enter ⟨o.next⟩ x ⟨o.next + 1⟩
  { o' with
    next := o.next + 2
    group := fun h =>
      if h = ⟨o.next + 1⟩ then some ⟨[⟨o.next⟩], rowType, [], facts, fun _ => False⟩ else o'.group h
    groupRep := fun h => if h = ⟨o.next + 1⟩ then some ⟨o.next + 1⟩ else o.groupRep h }

/-! ## Merging -/

/-- The group `keep` takes in the members and readers of the group `absorbed`. -/
def takeIn (keep absorbed : GroupId) (gone : Cell) (o : Outline Op) : Outline Op :=
  { o with
    group := fun h =>
      if h = absorbed then none
      else if h = keep then
        (o.group h).map fun c =>
          { c with members := c.members ++ gone.members,
                   parents := fun e => c.parents e ∨ gone.parents e }
      else o.group h
    groupRep := fun h => if o.groupRep h = some absorbed then some keep else o.groupRep h
    entry := fun e => (o.entry e).map fun p => (p.1, if p.2 = absorbed then keep else p.2) }

/-- The sub group `s` is folded into the sub group `kept`. -/
def foldSub (kept s : SubGroupId) (o : Outline Op) : Outline Op :=
  { o with
    sub := fun s' => if s' = s then none else o.sub s'
    subRep := fun s' => if o.subRep s' = some s then some kept else o.subRep s' }

/-- The sub group `s` is handed over to the group `keep`. -/
def handSub (keep : GroupId) (traits : TraitSet) (s : SubGroupId) (o : Outline Op) : Outline Op :=
  { o with
    sub := fun s' => if s' = s then some ⟨keep, traits⟩ else o.sub s'
    group := fun h =>
      if h = keep then (o.group h).map fun c => { c with subs := c.subs ++ [(traits, s)] }
      else o.group h }

/-- The live expression `e` of the group `h` becomes `x`. -/
def rewrite (e : ExprId) (x : Expr Op) (h : GroupId) (o : Outline Op) : Outline Op :=
  { o with entry := fun e' => if e' = e then some (x, h) else o.entry e' }

/-- The live expression `e` of the group `h`, which reads as `x` does, is dropped for `twin`. -/
def drop (e twin : ExprId) (x : Expr Op) (h : GroupId) (o : Outline Op) : Outline Op :=
  { o with
    entry := fun e' => if e' = e then none else o.entry e'
    exprRep := fun e' => if o.exprRep e' = some e then some twin else o.exprRep e'
    group := fun g => (o.group g).map fun c =>
      { c with members := if g = h then c.members.filter (· ≠ e) else c.members,
               parents := fun e' => c.parents e' ∧ ¬ (e' = e ∧ x.reads g = true) }
    news := o.news.filter (· ≠ e) }

/-- A merge is noted. -/
def noteMerge (keep absorbed : GroupId) (o : Outline Op) : Outline Op :=
  { o with merged := o.merged ++ [(keep, absorbed)] }

/-- The record of changes is emptied. -/
def forget (o : Outline Op) : Outline Op := { o with news := [], merged := [] }

end Outline

/-! ## Reading a memo through its outline -/

namespace Memo

variable {Op Q : Type}

theorem reduceRef_eq (m : Memo Op Q) (r : SubGroupRef) : m.reduceRef r = m.outline.reduceRef r := rfl

theorem outline_group (m : Memo Op Q) (g : GroupId) :
    m.outline.group g = (m.groups[g]?).map Group.cell := rfl

theorem outline_entry (m : Memo Op Q) (e : ExprId) :
    m.outline.entry e = (m.exprs[e]?).map Entry.place := rfl

theorem outline_sub (m : Memo Op Q) (s : SubGroupId) :
    m.outline.sub s = (m.subGroups[s]?).map SubGroup.ref := rfl

end Memo

end PlanSearch
