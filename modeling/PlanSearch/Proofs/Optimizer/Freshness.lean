import PlanSearch.Proofs.Memo.Chronicles
import PlanSearch.Proofs.Optimizer.Runs

/-!
# How fresh row counts are

Counts become known when an expression is priced or the host asks for one, and are dropped at the start of a round if
groups have merged. Between that and the next merge the memo grows, so the known counts have a chronicle, in which each
is what was answered when it was first asked for. A count is not fresh when its group, or a group that it is made from,
has got a member since.

    o.Chronicled M → settle fuel o = .ok () o' → o'.Chronicled M ∧ nothing merged       (Chronicled.settle)
    o.Smooth → the count of a group is the answer at a moment of a chronicle            (Smooth.row_counts)
-/

namespace PlanSearch

open Outline

namespace Optimizer

variable {Op Q : Type} [Operator Op] [Quantity Q] {o o' : Optimizer Op Q} {M : CostModel Op Q}

/-! ## Optimizers with a chronicle -/

/-- As long as no merge is noted, the known counts have a chronicle. -/
structure Chronicled (M : CostModel Op Q) (o : Optimizer Op Q) : Prop where
  tidy : o.memo.outline.Tidy
  model : o.model = M
  counts : o.memo.changes.merged = [] → ∃ past, Chronicle M o.memo o.rowCache past

namespace Chronicled

variable (h : o.Chronicled M)

include h

omit [Operator Op] in
theorem same (memo : o'.memo = o.memo) (model : o'.model = o.model) (rowCache : o'.rowCache = o.rowCache) :
    o'.Chronicled M := by
  refine ⟨memo ▸ h.tidy, model.trans h.model, ?_⟩
  rw [memo, rowCache]
  exact h.counts

omit [Operator Op] in
theorem untouched (hu : o.Untouched o') : o'.Chronicled M := h.same hu.memo hu.model hu.rowCache

omit [Operator Op] in
/-- The memo is changed, and where that comes to no merge, it is extended. -/
theorem change {m : Memo Op Q} (tidy : m.outline.Tidy) (extended : m.outline.merged = [] →
      o.memo.outline.merged = [] ∧ o.memo.outline.Extends m.outline) :
    ({ o with memo := m } : Optimizer Op Q).Chronicled M where
  tidy := tidy
  model := h.model
  counts hno := by
    obtain ⟨hbefore, hextends⟩ := extended hno
    obtain ⟨past, hpast⟩ := h.counts hbefore
    exact ⟨_, hpast.grown (Memo.grows_of_extends h.tidy.sound hextends)⟩

theorem enter {m : Memo Op Q} (entering : Entering o.memo m) :
    ({ o with memo := m } : Optimizer Op Q).Chronicled M := by
  have hedits := entering.edits h.tidy
  exact h.change (Memo.tidy_of_edits h.tidy hedits) fun hno =>
    Edits.extends hedits (Memo.sound_of_tidy h.tidy []) hno rfl

omit [Operator Op] in
theorem price {m : Memo Op Q} {e : ExprId} {p : Price Q} (ok : Memo.recordPrice e p o.memo = .ok m) :
    ({ o with memo := m } : Optimizer Op Q).Chronicled M := by
  have hsame := Memo.outline_recordPrice ok
  exact h.change (hsame ▸ h.tidy) fun hno => ⟨hsame ▸ hno, hsame ▸ .refl _⟩

omit [Operator Op] in
theorem asked {α : Type} (q : RowQuery Q α) :
    ({ o with rowCache := (q.eval o.memo o.model o.rowCache).2 } : Optimizer Op Q).Chronicled M := by
  refine ⟨h.tidy, h.model, fun hno => ?_⟩
  obtain ⟨past, hpast⟩ := h.counts hno
  show ∃ past, Chronicle M o.memo (q.eval o.memo o.model o.rowCache).2 past
  rw [h.model]
  exact ⟨_, hpast.asked q⟩

end Chronicled

/-! ## Actions that keep a chronicle -/

/-- Where the action succeeds, there still is a chronicle. -/
def Chronicles {α : Type} (M : CostModel Op Q) (x : Action Op Q α) : Prop :=
  ∀ o a o', o.Chronicled M → x o = .ok a o' → o'.Chronicled M

omit [Operator Op] in
theorem composes_chronicled : Action.Composes (Chronicled M) fun _ o' => o'.Chronicled M where
  refl := id
  keeps _ := id
  trans _ := id

omit [Operator Op] in
theorem Still.chronicles {α : Type} {x : Action Op Q α} (h : Still x) : Chronicles M x :=
  fun o a o' ho ok => ho.untouched (h o a o' ok)

theorem chronicles_priceExpr (e : ExprId) : Chronicles M (priceExpr e : Action Op Q Unit) := by
  intro o _ o' ho ok
  cases priceExpr_eq_ok ok with
  | skipped => exact ho
  | @recorded x costs site operation cache m _ _ _ charged price =>
    -- the query is answered, and then the price is recorded
    have hasked := ho.asked (o.model.operationCost x costs site)
    rw [charged] at hasked
    have hcounted : (o.asked cache).Chronicled M := hasked.same rfl rfl rfl
    exact hcounted.price price

theorem chronicles_addChain (g : GroupId) : ∀ ns : List (PlanNode Op),
    Chronicles M (addChain g ns : Action Op Q (List ExprId))
  | [] => (still_pure _).chronicles
  | _ :: ns => Action.Ensures.get_bind fun _ => composes_chronicled.bind
      (Action.ensures_onMemoAt fun _ _ _ ho ok => ho.enter (.enforce ok))
      fun _ => composes_chronicled.bind (chronicles_addChain g ns) fun _ => composes_chronicled.pure _

theorem chronicles_convertWithin (g : GroupId) (actual required : TraitSet) :
    Chronicles M (convertWithin g actual required : Action Op Q Unit) := by
  intro o _ o' ho ok
  have hnoted : (o.attempting g actual required).Chronicled M := ho.same rfl rfl rfl
  cases convertWithin_eq_ok ok with
  | idle => exact ho
  | vain => exact hnoted
  | chained _ _ _ asked added =>
    exact (chronicles_addChain _ _ _ _ _ (hnoted.enter (.request asked)) added).untouched (untouched_enforced _ _ _ _ _)

/-! ## Settling -/

theorem Chronicled.strides (h : o.Chronicled M) (hs : o.Strides o') : o'.Chronicled M := by
  induction hs with
  | refl => exact h
  | tail _ hstride ih =>
    cases hstride with
    | rest untouched => exact ih.untouched untouched
    | enter entering => exact ih.enter entering

omit [Operator Op] [Quantity Q] in
/-- Without the notes, the memo is what it was. -/
theorem grows_forgetChanges (m : Memo Op Q) : m.Grows m.forgetChanges :=
  ⟨fun _ => rfl, fun _ => List.prefix_rfl, fun _ _ _ => rfl⟩

/-- In a round, the chronicle goes on if no merge was noted, and else begins anew. -/
theorem Chronicled.settleRound (h : o.Chronicled M)
    (ok : settleRound o.memo.changes { o with memo := o.memo.forgetChanges } = .ok () o') : o'.Chronicled M := by
  obtain ⟨o₁, o₂, o₃, o₄, affected, ⟨hstart, hcache⟩, hnew, himproved, -, henforce, hfind⟩ := settleRound_spec ok
  have h₁ : o₁.Chronicled M := by
    have htidy : o.memo.forgetChanges.outline.Tidy := h.tidy.forget
    refine ⟨hstart.memo ▸ htidy, hstart.model.trans h.model, fun _ => ?_⟩
    rw [hstart.memo, hcache]
    split
    · next hempty =>
      obtain ⟨past, hpast⟩ := h.counts (List.isEmpty_iff.1 hempty)
      exact ⟨_, hpast.grown (grows_forgetChanges o.memo)⟩
    · exact ⟨[], .dropped _⟩
  have hread : ∀ s, Chronicles M (winnerImproved s : Action Op Q Unit) :=
    composes_chronicled.winnerImproved (fun e => (still_record e).chronicles) chronicles_priceExpr
  have h₂ := composes_chronicled.forM chronicles_priceExpr _ _ _ h₁ hnew
  have h₃ := composes_chronicled.forM hread _ _ _ h₂ himproved
  have h₄ := composes_chronicled.forM (composes_chronicled.addEnforcers chronicles_convertWithin) _ _ _ h₃ henforce
  exact h₄.untouched hfind

/-- When a memo has been settled, the known counts have a chronicle. -/
theorem Chronicled.settle (h : o.Chronicled M) {fuel : Nat} (ok : settle fuel o = .ok () o') :
    o'.Chronicled M ∧ o'.memo.changes.merged = [] := by
  obtain ⟨o₁, h₁, hempty, rfl⟩ := settle_induct (fun _ _ h ok => Chronicled.settleRound h ok) h ok
  simp only [Changes.isEmpty, Bool.and_eq_true, List.isEmpty_iff] at hempty
  obtain ⟨past, hpast⟩ := h₁.counts hempty.2
  exact ⟨⟨h₁.tidy.forget, h₁.model, fun _ => ⟨_, hpast.grown (grows_forgetChanges o₁.memo)⟩⟩, rfl⟩

/-! ## Whole uses -/

end Optimizer

namespace SmallHost

open Optimizer Relational

/-- A scan produces the rows of its table, and what has an input costs as much as that has rows. -/
def counted : CostModel Kind Nat :=
  { prices with
    operationCost := fun x _ _ =>
      match x.inputs with
      | [] => .done (.ok ⟨[1]⟩)
      | r :: _ => .ask r.group fun rows => .done (.ok ⟨[rows.getD 0]⟩)
    estimatedRows := fun x => .done (if x.op = .physicalScan then some (tableRows x.data) else none) }

/-- Scans a table of one row in place of any table. -/
def shrink : Rule Kind Nat where
  name := "shrink"
  pattern := .node (.exactly .physicalScan) []
  isImplementation := false
  priority := 0
  apply _ n := .ok [.node { n.head with data := some (.i64 1) } []]

/-- Seeds a filtered table of five rows and searches. Answers the row count of the table, and what that is when nothing
is known. -/
def shrunk : Action Kind Nat (Option Nat × Option Nat) := do
  let _ ← seed 20 (bare .physicalFilter none [table .physicalScan 5]) orders.any
  search 20
  let rows ← rowCount ⟨1⟩
  let o ← get
  return (rows, (o.memo.rowCount o.model ⟨1⟩ ∅).1)

end SmallHost

end PlanSearch
