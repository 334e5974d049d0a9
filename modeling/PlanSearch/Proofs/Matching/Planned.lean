import PlanSearch.Proofs.Matching.Binds
import PlanSearch.Proofs.Meaning

/-!
# The plan of a binding

The plan that a binding stands for has the value of the group that its root is a member of, under all
values that are consistent with the memo. This takes patterns in which an operand for all remaining
inputs stands last: operands after it bind nothing, but the plan asks for their expressions.

    m.outline.Binds p e es → p.manyLast → p.planOfBinding m es = .ok n →
      I.valueOf v n.toPlan = v g                                             (planOfBinding_value)
-/

namespace PlanSearch

namespace Pattern

universe u

variable {Op Q : Type} {V : Type u}

mutual

/-- Whether operands for all remaining inputs stand last everywhere. -/
def manyLast : Pattern Op → Bool
  | node _ ps => manyLastAll ps
  | any | anyMany => true

/-- The same for the operands of one operator. -/
def manyLastAll : List (Pattern Op) → Bool
  | [] => true
  | anyMany :: ps => ps.isEmpty
  | p :: ps => p.manyLast && manyLastAll ps

end

variable {m : Memo Op Q} {all all' : List ExprId}

/-! ## Old names -/

theorem getEntry_reduceExpr (hn : m.outline.Names) (e : ExprId) :
    m.getEntry (m.reduceExpr e) = m.getEntry e := by
  have hr : m.reduceExpr (m.reduceExpr e) = m.reduceExpr e := hn.reduceExpr_reduceExpr e
  simp only [Memo.getEntry, hr]

theorem valuesOf_references {I : Interpretation Op V} {v : GroupId → V}
    (hv : m.outline.Consistent I v) (rs : List SubGroupRef) :
    I.valuesOf v (rs.map fun r => .group (m.reduceRef r)) = rs.map fun r => v r.group := by
  rw [I.valuesOf_eq_map, List.map_map]
  exact List.map_congr_left fun r _ => hv.names r.group

theorem entry_of_getEntry (hn : m.outline.Names) {e : ExprId} {x : Expr Op} {g : GroupId}
    (he : m.outline.entry e = some (x, g)) {entry : Entry Op Q} (h : m.getEntry e = .ok entry) :
    entry.expr = x ∧ entry.group = g := by
  have hr : m.reduceExpr e = e := hn.reduceExpr_of_live (by rw [he]; rfl)
  have hentry := Memo.outline_entry_of (Memo.getEntry_eq_ok h)
  rw [hr, he] at hentry
  exact ⟨(Prod.mk.inj (Option.some.inj hentry)).1.symm, (Prod.mk.inj (Option.some.inj hentry)).2.symm⟩

variable [Operator Op]

mutual

/-- A plan does not depend on the names by which its expressions are called. -/
theorem planOf_reduceExpr (hn : m.outline.Names) (p : Pattern Op) {es rest : List ExprId}
    {n : PlanNode Op} (h : planOf m all p es = .ok (n, rest)) :
    planOf m all' p (es.map m.reduceExpr) = .ok (n, rest.map m.reduceExpr) := by
  match es with
  | [] => rw [planOf] at h; cases h
  | e :: es =>
    have hwild : ∀ p : Pattern Op, p.isWildcard = true → planOf m all p (e :: es) = .ok (n, rest) →
        planOf m all' p ((e :: es).map m.reduceExpr) = .ok (n, rest.map m.reduceExpr) := by
      intro p hp h
      cases p with
      | node test ps => cases hp
      | any | anyMany =>
        rw [planOf] at h
        obtain ⟨entry, hentry, h⟩ := bind_eq_ok h
        obtain ⟨group, hgroup, h⟩ := bind_eq_ok h
        cases h
        rw [List.map_cons, planOf, getEntry_reduceExpr hn, hentry]
        show (m.getGroup (m.reduceGroup entry.group) >>= _) = _
        rw [hgroup]
        rfl
    match p with
    | .any => exact hwild _ rfl h
    | .anyMany => exact hwild _ rfl h
    | .node test ps =>
      rw [planOf] at h
      obtain ⟨entry, hentry, h⟩ := bind_eq_ok h
      obtain ⟨group, hgroup, h⟩ := bind_eq_ok h
      obtain ⟨⟨inputs, es'⟩, hinputs, h⟩ := bind_eq_ok h
      cases h
      have hi := planInputs_reduceExpr hn ps entry.expr.inputs hinputs
      rw [List.map_cons, planOf, getEntry_reduceExpr hn, hentry]
      show (m.getGroup (m.reduceGroup entry.group) >>= _) = _
      rw [hgroup]
      show (planInputs m all' ps entry.expr.inputs (es.map m.reduceExpr) >>= _) = _
      rw [hi]
      rfl

theorem planInputs_reduceExpr (hn : m.outline.Names) (ps : List (Pattern Op)) (rs : List SubGroupRef)
    {es rest : List ExprId} {inputs : List (Plan Op)}
    (h : planInputs m all ps rs es = .ok (inputs, rest)) :
    planInputs m all' ps rs (es.map m.reduceExpr) = .ok (inputs, rest.map m.reduceExpr) := by
  match ps, rs with
  | ps, [] => rw [planInputs] at h ⊢; cases h; rfl
  | [], r :: rs =>
    rw [planInputs.eq_2 _ _ _ _ (by simp)] at h ⊢
    cases h; rfl
  | .node test qs :: ps, r :: rs =>
    rw [planInputs] at h ⊢
    obtain ⟨⟨n, es₁⟩, h₁, h⟩ := bind_eq_ok h
    obtain ⟨⟨ns, es₂⟩, h₂, h⟩ := bind_eq_ok h
    cases h
    rw [planOf_reduceExpr hn (.node test qs) h₁]
    show (planInputs m all' ps rs (es₁.map m.reduceExpr) >>= _) = _
    rw [planInputs_reduceExpr hn ps rs h₂]
    rfl
  | .any :: ps, r :: rs =>
    rw [planInputs] at h ⊢
    obtain ⟨⟨ns, es₂⟩, h₂, h⟩ := bind_eq_ok h
    cases h
    rw [planInputs_reduceExpr hn ps rs h₂]
    rfl
  | .anyMany :: ps, r :: rs =>
    rw [planInputs] at h ⊢
    obtain ⟨⟨ns, es₂⟩, h₂, h⟩ := bind_eq_ok h
    cases h
    rw [planInputs_reduceExpr hn ps rs h₂]
    rfl

end

theorem planOfBinding_reduceExpr (hn : m.outline.Names) {p : Pattern Op} {es : List ExprId}
    {n : PlanNode Op} (h : p.planOfBinding m es = .ok n) :
    p.planOfBinding m (es.map m.reduceExpr) = .ok n := by
  simp only [planOfBinding] at h ⊢
  obtain ⟨⟨n', rest⟩, h₁, h⟩ := bind_eq_ok h
  rw [planOf_reduceExpr hn p h₁]
  cases rest with
  | nil => exact h
  | cons e rest => cases h

/-! ## The value of a plan -/

section Value

open Outline

variable {I : Interpretation Op V} {v : GroupId → V}

theorem bindsAll_nil {o : Outline Op} : ∀ {ps : List (Pattern Op)} {es : List ExprId},
    o.BindsAll ps [] es → es = []
  | _, _, .nil => rfl
  | _, _, .any rest => bindsAll_nil rest
  | _, _, .many => rfl

mutual

/-- The induction follows the pattern; what is left over of the binding is for the operands to the
right. -/
theorem planOf_value (hn : m.outline.Names) (hv : m.outline.Consistent I v) (p : Pattern Op)
    {e : ExprId} {es more rest : List ExprId} {x : Expr Op} {g : GroupId} {n : PlanNode Op}
    (hb : m.outline.Binds p e es) (hp : p.manyLast = true) (he : m.outline.entry e = some (x, g))
    (h : planOf m all p (es ++ more) = .ok (n, rest)) :
    rest = more ∧ I.valueOf v n.toPlan = v g := by
  cases hb with
  | leaf wild known empty =>
    rw [he] at known
    cases known
    cases p with
    | node test ps => cases wild
    | any | anyMany =>
      rw [List.singleton_append, planOf] at h
      obtain ⟨entry, hentry, h⟩ := bind_eq_ok h
      obtain ⟨group, -, h⟩ := bind_eq_ok h
      cases h
      obtain ⟨rfl, rfl⟩ := entry_of_getEntry hn he hentry
      refine ⟨rfl, ?_⟩
      rw [← hv.exprs e _ _ he]
      show I.apply _ _ (I.valuesOf v _) = I.apply _ _ _
      rw [valuesOf_references hv]
  | @node test ps _ x' g' es known accepts fits below =>
    rw [he] at known
    cases known
    rw [List.cons_append, planOf] at h
    obtain ⟨entry, hentry, h⟩ := bind_eq_ok h
    obtain ⟨group, -, h⟩ := bind_eq_ok h
    obtain ⟨⟨inputs, es'⟩, hinputs, h⟩ := bind_eq_ok h
    cases h
    obtain ⟨rfl, rfl⟩ := entry_of_getEntry hn he hentry
    obtain ⟨hrest, hvals⟩ := planInputs_value hn hv ps entry.expr.inputs below hp hinputs
    refine ⟨hrest, ?_⟩
    rw [← hv.exprs e _ _ he]
    show I.apply _ _ (I.valuesOf v inputs) = I.apply _ _ _
    rw [hvals]

theorem planInputs_value (hn : m.outline.Names) (hv : m.outline.Consistent I v)
    (ps : List (Pattern Op)) (rs : List SubGroupRef) {es more rest : List ExprId}
    {inputs : List (Plan Op)} (hb : m.outline.BindsAll ps rs es) (hp : manyLastAll ps = true)
    (h : planInputs m all ps rs (es ++ more) = .ok (inputs, rest)) :
    rest = more ∧ I.valuesOf v inputs = rs.map fun r => v r.group := by
  match ps, rs with
  | ps, [] =>
    rw [bindsAll_nil hb, List.nil_append, planInputs] at h
    cases h
    exact ⟨rfl, rfl⟩
  | [], r :: rs =>
    cases hb
    rw [List.nil_append, planInputs.eq_2 _ _ _ _ (by simp)] at h
    cases h
    exact ⟨rfl, valuesOf_references hv _⟩
  | .node test qs :: ps, r :: rs =>
    obtain ⟨hq, hps⟩ := Bool.and_eq_true_iff.1 hp
    cases hb with
    | @node _ _ _ _ _ e y es₁ es₂ member first below =>
      rw [List.append_assoc, planInputs] at h
      obtain ⟨⟨n, l₁⟩, h₁, h⟩ := bind_eq_ok h
      obtain ⟨⟨ns, l₂⟩, h₂, h⟩ := bind_eq_ok h
      cases h
      obtain ⟨rfl, hval⟩ := planOf_value hn hv (.node test qs) first hq member h₁
      obtain ⟨hrest, hvals⟩ := planInputs_value hn hv ps rs below hps h₂
      refine ⟨hrest, ?_⟩
      rw [Interpretation.valuesOf, hval, hvals, hv.names, List.map_cons]
  | .any :: ps, r :: rs =>
    have hps : manyLastAll ps = true := hp
    cases hb with
    | any below =>
      rw [planInputs] at h
      obtain ⟨⟨ns, l₂⟩, h₂, h⟩ := bind_eq_ok h
      cases h
      obtain ⟨hrest, hvals⟩ := planInputs_value hn hv ps rs below hps h₂
      refine ⟨hrest, ?_⟩
      rw [Interpretation.valuesOf, hvals, List.map_cons]
      exact congrArg (· :: _) (hv.names r.group)
  | .anyMany :: ps, r :: rs =>
    have hps : ps = [] := List.isEmpty_iff.1 hp
    subst hps
    cases hb
    rw [List.nil_append, planInputs] at h
    obtain ⟨⟨ns, l₂⟩, h₂, h⟩ := bind_eq_ok h
    cases h
    have hnil : m.outline.BindsAll [] rs [] := .nil
    obtain ⟨hrest, hvals⟩ := planInputs_value hn hv [] rs hnil rfl h₂
    refine ⟨hrest, ?_⟩
    rw [Interpretation.valuesOf, hvals, List.map_cons]
    exact congrArg (· :: _) (hv.names r.group)

end

/-- The plan of a binding has the value of the group of its root. -/
theorem planOfBinding_value (hn : m.outline.Names) (hv : m.outline.Consistent I v) {p : Pattern Op}
    {e : ExprId} {es : List ExprId} {x : Expr Op} {g : GroupId} {n : PlanNode Op}
    (hb : m.outline.Binds p e es) (hp : p.manyLast = true) (he : m.outline.entry e = some (x, g))
    (h : p.planOfBinding m es = .ok n) : I.valueOf v n.toPlan = v g := by
  simp only [planOfBinding] at h
  obtain ⟨⟨n', rest⟩, h₁, h⟩ := bind_eq_ok h
  rw [← List.append_nil es] at h₁
  obtain ⟨-, hval⟩ := planOf_value hn hv p hb hp he h₁
  cases rest with
  | nil => cases h; exact hval
  | cons e rest => cases h

end Value

end Pattern

end PlanSearch
