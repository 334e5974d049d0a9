import PlanSearch.Proofs.Memo.Failures
import PlanSearch.Proofs.Memo.Heeds

/-!
# What calls keep step by step

A call consists of steps: a number is given out, a sub group is opened, marked or offered expressions, an expression is
entered, two groups are merged, a price is recorded, changes are forgotten. A relation between memos that holds before
and after each of these steps holds before and after every call, also where a call fails half-way.

    Stepwise R → m.Attempt m' → R m m'                                              (Stepwise.attempt)
    Stepwise R → attempts lead from m to m' → R m m'                                (Stepwise.attempts)
-/

namespace PlanSearch

namespace Memo

variable {Op Q : Type} [Operator Op] [Quantity Q] {R : Memo Op Q → Memo Op Q → Prop} {m m' : Memo Op Q}

/-- Steps that succeed keep the relation, and no step changes the registry. Whatever is entered has traits that fit. -/
structure Stepwise (R : Memo Op Q → Memo Op Q → Prop) : Prop where
  refl : ∀ m, R m m
  trans : ∀ {m m' m''}, R m m' → R m' m'' → R m m''
  registry : ∀ {m m'}, R m m' → m'.registry = m.registry
  skip : ∀ m, R m m.skip
  opened : ∀ {m g traits}, m.registry.check traits = .ok () → R m (m.openSubGroup g traits).1
  marked : ∀ {m require s m'}, markIf require s m = .ok m' → R m m'
  offered : ∀ {m s es m'}, offerAll s es m = .ok m' → R m m'
  extended : ∀ {m x rowType g answer m'}, m.registry.check x.traits = .ok () → extend x rowType g m = .ok answer m' →
    R m m'
  created : ∀ {m x rowType answer m'}, m.registry.check x.traits = .ok () → create x rowType m = .ok answer m' → R m m'
  merged : ∀ {m a b m' more}, mergePair a b m = .ok (m', more) → R m m'
  priced : ∀ {m e p m'}, recordPrice e p m = .ok m' → R m m'
  forgot : ∀ m, R m m.forgetChanges

namespace Stepwise

/-- A step that may fail, with nothing after it. -/
theorem step (hR : Stepwise R) {f : Memo Op Q → Except Failure (Memo Op Q)} (hf : ∀ m', f m = .ok m' → R m m') :
    R m ((Update.step f).leave m) := by
  cases h : f m with
  | ok m' =>
    rw [Update.leave_of_ok (Update.step_of_ok h)]
    exact hf m' h
  | error e =>
    have hstep : Update.step f m = .error e m := by
      unfold Update.step
      rw [h]
    rw [Update.leave_of_error hstep]
    exact hR.refl m

theorem ensureSubGroup (hR : Stepwise R) (m : Memo Op Q) (r : SubGroupRef) (require : Bool) :
    R m ((ensureSubGroup r require).leave m) := by
  unfold Memo.ensureSubGroup
  refine Update.leave_read_bind (hR.refl m) fun _ hcheck => Update.leave_read_bind (hR.refl m) fun group _ => ?_
  cases group.sub? r.traits with
  | some s =>
    exact Update.leave_bind (hR.step fun _ => hR.marked) fun _ _ _ h₁ => h₁
  | none =>
    have hopen := hR.opened (g := m.reduceGroup r.group) (checkTraits_eq_ok hcheck)
    refine Update.leave_bind hopen fun s m₁ _ h₁ => ?_
    refine Update.leave_bind (hR.trans h₁ (hR.step fun _ => hR.marked)) fun _ m₂ _ h₂ => ?_
    exact Update.leave_bind (hR.trans h₂ (hR.step fun _ => hR.offered)) fun _ _ _ h₃ => h₃

theorem create (hR : Stepwise R) {x : Expr Op} (hx : m.registry.check x.traits = .ok ()) (rowType : RowType) :
    R m ((create x rowType).leave m) := by
  cases h : Memo.create x rowType m with
  | ok answer m' =>
    rw [Update.leave_of_ok h]
    exact hR.created hx h
  | error f m' =>
    rw [Update.leave_of_error h, (create_error h).1]
    exact hR.trans (hR.skip m) (hR.skip _)

theorem extend (hR : Stepwise R) {x : Expr Op} (hx : m.registry.check x.traits = .ok ()) (rowType : RowType)
    (g : GroupId) : R m ((extend x rowType g).leave m) := by
  cases h : Memo.extend x rowType g m with
  | ok answer m' =>
    rw [Update.leave_of_ok h]
    exact hR.extended hx h
  | error f m' =>
    rw [Update.leave_of_error h, (extend_error h).1]
    exact hR.skip m

/-- A chain of merges, as far as it goes. -/
theorem mergeAll (hR : Stepwise R) {ps : List (GroupId × GroupId)}
    (h : Memo.mergeAll m ps = .ok () m' ∨ ∃ f, Memo.mergeAll m ps = .error f m') : R m m' :=
  (mergeAll_run m ps).keeps hR.refl hR.trans hR.merged h

theorem merge (hR : Stepwise R) (m : Memo Op Q) (a b : GroupId) : R m ((merge a b).leave m) := by
  cases h : Memo.merge a b m with
  | ok _ m' =>
    rw [Update.leave_of_ok h]
    exact hR.mergeAll (.inl h)
  | error f m' =>
    rw [Update.leave_of_error h]
    exact hR.mergeAll (.inr ⟨f, h⟩)

theorem register (hR : Stepwise R) {head : Operation Op} (hx : m.registry.check head.traits = .ok ())
    (refs : List SubGroupRef) (target : Option GroupId) : R m ((register head refs target).leave m) := by
  unfold Memo.register
  rw [Update.leave_get_bind]
  cases m.findExpr? ⟨head.op, refs, head.data, head.traits⟩ with
  | some found =>
    cases target with
    | some t =>
      refine Update.leave_read_bind (hR.refl m) fun _ _ => ?_
      exact Update.leave_bind (hR.merge m _ _) fun _ _ _ h₁ => h₁
    | none => exact hR.refl m
  | none =>
    cases target with
    | some t => exact hR.extend hx head.rowType t
    | none => exact hR.create hx head.rowType

theorem insertOver (hR : Stepwise R) (head : Operation Op) {inputs : Update Op Q (List SubGroupRef)}
    (hi : R m (inputs.leave m)) (target : Option GroupId) : R m ((insertOver head inputs target).leave m) := by
  unfold Memo.insertOver
  refine Update.leave_read_bind (hR.refl m) fun _ hcheck => Update.leave_bind hi fun refs m₁ _ h₁ => ?_
  refine hR.trans h₁ (hR.register ?_ refs target)
  rw [hR.registry h₁]
  exact checkTraits_eq_ok hcheck

/-- The induction follows the plans from left to right, and each of them down to its leaves. -/
theorem insertInputs (hR : Stepwise R) (op : Op) (require : Bool) : ∀ (ps : List (Plan Op)) (m : Memo Op Q),
    R m ((insertInputs op require ps).leave m)
  | [], m => by
    simp only [Memo.insertInputs]
    exact hR.refl m
  | .group ref :: rest, m => by
    simp only [Memo.insertInputs]
    refine Update.leave_read_bind (hR.refl m) fun _ _ => Update.leave_read_bind (hR.refl m) fun _ _ => ?_
    rw [Update.leave_get_bind]
    refine Update.leave_bind (hR.ensureSubGroup m _ require) fun s m₁ _ h₁ => ?_
    exact Update.leave_bind (hR.trans h₁ (insertInputs hR op require rest m₁)) fun _ _ _ h₂ => h₂
  | .node head inputs :: rest, m => by
    simp only [Memo.insertInputs]
    refine Update.leave_bind (hR.insertOver head (insertInputs hR head.op true inputs m) none) fun ge m₁ _ h₁ => ?_
    rw [Update.leave_get_bind]
    refine Update.leave_bind (hR.trans h₁ (hR.ensureSubGroup m₁ _ require)) fun s m₂ _ h₂ => ?_
    exact Update.leave_bind (hR.trans h₂ (insertInputs hR op require rest m₂)) fun _ _ _ h₃ => h₃

theorem addNodeTo (hR : Stepwise R) (n : PlanNode Op) (g : GroupId) (require : Bool) (m : Memo Op Q) :
    R m ((addNodeTo n g require).leave m) := by
  unfold Memo.addNodeTo
  rw [Update.leave_get_bind]
  exact Update.leave_bind (hR.insertOver n.head (hR.insertInputs n.head.op require n.inputs m) _) fun _ _ _ h₁ => h₁

/-- What every step keeps, a call keeps that may have failed. -/
theorem attempt (hR : Stepwise R) (h : m.Attempt m') : R m m' := by
  cases h with
  | add n =>
    exact Update.leave_bind (hR.insertOver n.head (hR.insertInputs n.head.op true n.inputs m) none) fun _ _ _ h₁ => h₁
  | addTo p g =>
    cases p with
    | node head inputs => exact hR.addNodeTo ⟨head, inputs⟩ g true m
    | group ref =>
      unfold Memo.addTo
      rw [Update.leave_get_bind]
      exact Update.leave_bind (hR.merge m _ _) fun _ _ _ h₁ => h₁
  | addEnforcer n g => exact hR.addNodeTo n g false m
  | ensureSubGroup r require => exact hR.ensureSubGroup m r require
  | recordPrice e p => exact hR.step fun _ => hR.priced
  | merge a b => exact hR.merge m a b
  | forgetChanges => exact hR.forgot m

theorem attempts (hR : Stepwise R) (h : Relation.ReflTransGen Attempt m m') : R m m' := by
  induction h with
  | refl => exact hR.refl m
  | tail _ attempt ih => exact hR.trans ih (hR.attempt attempt)

end Stepwise

theorem Attempted.attempts (h : Attempted m) (hs : Relation.ReflTransGen Attempt m m') : Attempted m' := by
  induction hs with
  | refl => exact h
  | tail _ attempt ih => exact .attempt ih attempt

/-! ## The registry and the traits -/

/-- Traits go on fitting the registry, whatever is attempted. -/
theorem stepwise_fitting : Stepwise fun m m' : Memo Op Q => m'.registry = m.registry ∧ (m.Fitting → m'.Fitting) where
  refl _ := ⟨rfl, id⟩
  trans h₁ h₂ := ⟨h₂.1.trans h₁.1, fun hm => h₂.2 (h₁.2 hm)⟩
  registry h := h.1
  skip _ := ⟨rfl, fun hm => ⟨hm.delivered, hm.asked⟩⟩
  opened ht := ⟨rfl, (heeds_openSubGroup ht).fitting⟩
  marked h := ⟨(heeds_markIf h).registry, (heeds_markIf h).fitting⟩
  offered h := ⟨(piecewise_heeds.offerAll h).registry, (piecewise_heeds.offerAll h).fitting⟩
  extended ht h := ⟨(heeds_extend ht h).registry, (heeds_extend ht h).fitting⟩
  created ht h := ⟨(heeds_create ht h).registry, (heeds_create ht h).fitting⟩
  merged h := ⟨(piecewise_heeds.mergePair heeds_takeIn h).registry, (piecewise_heeds.mergePair heeds_takeIn h).fitting⟩
  priced h := ⟨(piecewise_heeds.recordPrice h).registry, (piecewise_heeds.recordPrice h).fitting⟩
  forgot _ := ⟨rfl, fun hm => ⟨hm.delivered, hm.asked⟩⟩

end Memo

end PlanSearch
