import PlanSearch.CostModel

/-!
# Row counts of groups

The row count of a group is the smallest estimate among its members. An estimate may ask for the row
counts of other groups, and so come back to a group that is still being estimated; the answer to that
is that it is unknown. Known answers are kept, apart from those that were cut short in this way. The
groups that are not yet being estimated get fewer at every level, so every question is answered.
-/

namespace PlanSearch

/-- The row counts known so far. -/
abbrev RowCache (Q : Type) := Std.TreeMap GroupId Q

namespace RowCount

variable {Op Q : Type} [Quantity Q]

/-- What is known while a question is being answered, and whether a group met again cut it short. -/
structure Progress (Q : Type) where
  cache : RowCache Q
  cutShort : Bool

/-- The smaller of the best estimate so far and a further one, if there is one. -/
def least (best : Option Q) : Option Q → Option Q
  | none => best
  | some rows =>
    if Quantity.isUnknown rows then best
    else
      match best with
      | none => some rows
      | some b => some (if Quantity.less rows b then rows else b)

/-- Ends the estimation of a group: the answer is kept unless it was cut short. -/
def conclude (g : GroupId) (before : Bool) (best : Option Q) (p : Progress Q) : Progress Q :=
  let cache :=
    match best with
    | some rows => if p.cutShort then p.cache else p.cache.insert g rows
    | none => p.cache
  ⟨cache, p.cutShort || before⟩

/-- The row count of a group, where only the groups of `unopened` are not yet being estimated. -/
def answer (m : Memo Op Q) (model : CostModel Op Q) (unopened : List GroupId) (asked : GroupId)
    (p : Progress Q) : Option Q × Progress Q :=
  let g := m.reduceGroup asked
  match p.cache[g]? with
  | some rows => (some rows, p)
  | none =>
    if h : g ∈ unopened then
      have := Memo.length_erase_lt h
      let (best, after) := (m.members g).foldl (fun (best, p) e =>
        match m.exprs[e]? with
        | none => (best, p)
        | some entry =>
          let (rows, p) := (model.estimatedRows entry.expr).run
            (fun g' p => answer m model (unopened.erase g) g' p) p
          (least best rows, p)) (none, { p with cutShort := false })
      (best, conclude g p.cutShort best after)
    else (none, { p with cutShort := p.cutShort || m.groups.contains g })
termination_by unopened.length

end RowCount

namespace RowQuery

variable {Op Q α : Type} [Quantity Q]

/-- Answers a query from the memo. -/
def eval (m : Memo Op Q) (model : CostModel Op Q) (q : RowQuery Q α) (cache : RowCache Q) :
    α × RowCache Q :=
  let (a, p) := q.run (RowCount.answer m model m.groupIds) ⟨cache, false⟩
  (a, p.cache)

end RowQuery

namespace Memo

variable {Op Q : Type} [Quantity Q]

/-- The estimated number of rows of a group, if it is known, and what is known afterwards. -/
def rowCount (m : Memo Op Q) (model : CostModel Op Q) (g : GroupId) (cache : RowCache Q) :
    Option Q × RowCache Q :=
  (RowQuery.rows g).eval m model cache

end Memo

end PlanSearch
