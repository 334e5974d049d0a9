import PlanSearch.Proofs.Matching.Planned
import PlanSearch.Proofs.Memo.Handles

/-!
# Bindings that wait

Between the time when a binding is found and the time when its plan is asked for, expressions are dropped for
others, groups are merged, and inputs are redirected. The plan can be made all the same: it takes up the names of the
binding exactly, and it shows the memo as it is by then. Where an operand tests a kind it has the operation of the
expression bound there, which passes the test and is a member of the group that the expression above reads at that
place. Everywhere else it has a reference to a live group.

    o.Binds p e (names.map o.reduceExpr) → planOf m all p (names ++ rest) = .ok (n, rest) ∧ o.Depicts p names g n
                                                                                     (Pattern.planOf_depicts)
    es ∈ found → Calls m m' → p.planOfBinding m' es = .ok n ∧ m'.outline.Depicts p es g n
                                                                              (Pattern.bindings_never_stale)
-/

namespace PlanSearch

namespace Outline

variable {Op : Type} [Operator Op]

mutual

/-- The plan is the expression that the first of the names stands for, a member of the group `g`, of a kind that the
operand takes, with its inputs laid open as far as the operand goes. The names are those of the expressions laid
open, from the left. -/
inductive Depicts (o : Outline Op) : Pattern Op → List ExprId → GroupId → PlanNode Op → Prop
  | node {p : Pattern Op} {e : ExprId} {es : List ExprId} {x : Expr Op} {g : GroupId} {rowType : RowType}
      {inputs : List (Plan Op)} (known : o.entry (o.reduceExpr e) = some (x, g)) (accepts : p.accepts x.op = true)
      (row : o.rowType? g = some rowType) (below : DepictsAll o p.inputs x.inputs es inputs) :
      Depicts o p (e :: es) g ⟨⟨x.op, x.data, rowType, x.traits⟩, inputs⟩

/-- The inputs of a plan, from the left: what stands where an operand tests a kind is a member of the group read
there, and every other input is a reference to a live group. -/
inductive DepictsAll (o : Outline Op) :
    List (Pattern Op) → List SubGroupRef → List ExprId → List (Plan Op) → Prop
  | nil : DepictsAll o [] [] [] []
  | any {ps : List (Pattern Op)} {r : SubGroupRef} {rs : List SubGroupRef} {es : List ExprId} {inputs : List (Plan Op)}
      (live : (o.group (o.reduce r.group)).isSome) (rest : DepictsAll o ps rs es inputs) :
      DepictsAll o (.any :: ps) (r :: rs) es (.group (o.reduceRef r) :: inputs)
  | many {rs : List SubGroupRef} (live : ∀ r ∈ rs, (o.group (o.reduce r.group)).isSome) :
      DepictsAll o [.anyMany] rs [] (rs.map fun r => .group (o.reduceRef r))
  | node {test : KindTest Op} {qs ps : List (Pattern Op)} {r : SubGroupRef} {rs : List SubGroupRef}
      {es more : List ExprId} {n : PlanNode Op} {inputs : List (Plan Op)}
      (first : Depicts o (.node test qs) es (o.reduce r.group) n) (rest : DepictsAll o ps rs more inputs) :
      DepictsAll o (.node test qs :: ps) (r :: rs) (es ++ more) (n.toPlan :: inputs)

end

end Outline

namespace Pattern

variable {Op Q : Type} {m m' : Memo Op Q} {all : List ExprId}

open Outline

/-! ## As many operands as inputs -/

/-- The first of several operands takes one input. -/
theorem fitsArity_cons (test : KindTest Op) (n : Nat) {p : Pattern Op} {ps : List (Pattern Op)}
    (hp : manyLastAll (p :: ps) = true) (hne : p ≠ anyMany) :
    manyLastAll ps = true ∧ (node test (p :: ps)).fitsArity (n + 1) = (node test ps).fitsArity n := by
  have hps : manyLastAll ps = true := by
    cases p with
    | anyMany => exact absurd rfl hne
    | any => exact hp
    | node test qs => exact (Bool.and_eq_true_iff.1 hp).2
  refine ⟨hps, ?_⟩
  cases ps with
  | nil =>
    cases p with
    | anyMany => exact absurd rfl hne
    | any | node test qs => exact decide_eq_decide.2 Nat.add_right_cancel_iff
  | cons q qs =>
    simp only [fitsArity, inputs, List.getLast?_cons_cons, List.length_cons]
    split
    · exact decide_eq_decide.2 Nat.add_le_add_iff_right
    · exact decide_eq_decide.2 Nat.add_right_cancel_iff

/-- Without inputs, there is no operand but one for all that remain. -/
theorem eq_anyMany_of_fitsArity {test : KindTest Op} {p : Pattern Op} {ps : List (Pattern Op)}
    (hfit : (node test (p :: ps)).fitsArity 0 = true) : p :: ps = [anyMany] := by
  simp only [fitsArity, inputs, List.length_cons] at hfit
  split at hfit
  · next hlast =>
    have hlen : ps.length = 0 := by
      have := of_decide_eq_true hfit
      omega
    rw [List.length_eq_zero_iff.1 hlen] at hlast ⊢
    simpa using hlast
  · exact absurd (of_decide_eq_true hfit) (by omega)

/-! ## The plan of a binding in hand -/

theorem exists_entry_group (hs : m.outline.Sound) {e : ExprId} {x : Expr Op} {g : GroupId}
    (h : m.outline.entry (m.outline.reduceExpr e) = some (x, g)) : ∃ entry group, m.getEntry e = .ok entry ∧
      m.getGroup (m.reduceGroup entry.group) = .ok group ∧ entry.expr = x ∧ m.outline.rowType? g = some group.rowType := by
  obtain ⟨entry, hentry, rfl, rfl⟩ := Memo.exists_entry h
  obtain ⟨c, hc⟩ := Option.isSome_iff_exists.1 (hs.places.home _ _ _ h)
  obtain ⟨group, -, hgroup, rfl⟩ := Memo.exists_liveGroup hc
  have hself : m.reduceGroup entry.group = entry.group := hs.names.reduce_of_live (by rw [hc]; rfl)
  refine ⟨entry, group, ?_, ?_, rfl, ?_⟩
  · unfold Memo.getEntry
    rw [show m.exprs[m.reduceExpr e]? = some entry from hentry]
  · unfold Memo.getGroup Memo.group?
    rw [hself, hself, hgroup]
  · unfold Outline.rowType?
    rw [show m.outline.reduce entry.group = entry.group from hself, hc]
    rfl

variable [Operator Op]

theorem binds_accepts {o : Outline Op} {p : Pattern Op} {e : ExprId} {es : List ExprId} {x : Expr Op} {g : GroupId}
    (hb : o.Binds p e es) (he : o.entry e = some (x, g)) :
    p.accepts x.op = true ∧ ∃ test more, es = e :: more ∧ (node test p.inputs).fitsArity x.inputs.length = true ∧
      o.BindsAll p.inputs x.inputs more := by
  cases hb with
  | @node test ps _ _ _ more known accepts fits below =>
    cases he.symm.trans known
    exact ⟨accepts, test, more, rfl, fits, below⟩
  | leaf wild known empty =>
    cases he.symm.trans known
    rw [empty]
    cases p with
    | node test ps => cases wild
    | any | anyMany => exact ⟨rfl, .variant 0, [], rfl, rfl, .nil⟩

/-- Past the operands, the inputs stay references. -/
theorem planInputs_nil (all : List ExprId) (rs : List SubGroupRef) (es : List ExprId) :
    planInputs m all [] rs es = .ok (rs.map fun r => .group (m.reduceRef r), es) := by
  cases rs with
  | nil => rw [planInputs, List.map_nil]
  | cons r rs => rw [planInputs.eq_2 _ _ _ _ (by simp)]

/-- What an operand lays open is a plan of its kind: where it tests none, the inputs stay references. -/
theorem planOf_cons (p : Pattern Op) (e : ExprId) (es : List ExprId) {entry : Entry Op Q} {group : Group}
    (hentry : m.getEntry e = .ok entry) (hgroup : m.getGroup (m.reduceGroup entry.group) = .ok group) :
    planOf m all p (e :: es) = (planInputs m all p.inputs entry.expr.inputs es).map fun found =>
      (⟨⟨entry.expr.op, entry.expr.data, group.rowType, entry.expr.traits⟩, found.1⟩, found.2) := by
  have hwild := @planInputs_nil _ _ m _ all entry.expr.inputs es
  cases p with
  | node test ps =>
    rw [planOf, hentry]
    show (m.getGroup (m.reduceGroup entry.group) >>= _) = _
    rw [hgroup]
    show (planInputs m all ps entry.expr.inputs es >>= _) = (planInputs m all ps entry.expr.inputs es).map _
    cases planInputs m all ps entry.expr.inputs es <;> rfl
  | any | anyMany =>
    rw [planOf, hentry]
    show (m.getGroup (m.reduceGroup entry.group) >>= _) = (planInputs m all [] entry.expr.inputs es).map _
    rw [hgroup, hwild]
    rfl

theorem planInputs_nil_depicts {rs : List SubGroupRef} {es names : List ExprId} {test : KindTest Op}
    (rest : List ExprId) (hb : m.outline.BindsAll [] rs es) (hfit : (node test []).fitsArity rs.length = true)
    (hnames : names.map m.outline.reduceExpr = es) : ∃ inputs,
      planInputs m all [] rs (names ++ rest) = .ok (inputs, rest) ∧ m.outline.DepictsAll [] rs names inputs := by
  have hlength : rs.length = 0 := by simpa [fitsArity, inputs] using hfit
  obtain rfl := List.length_eq_zero_iff.1 hlength
  cases hb
  obtain rfl := List.map_eq_nil_iff.1 hnames
  exact ⟨[], by rw [planInputs]; rfl, .nil⟩

mutual

/-- The induction follows the pattern; what is left over of the names is for the operands to the right. -/
theorem planOf_depicts (hs : m.outline.Sound) (p : Pattern Op) {e : ExprId} {es names : List ExprId}
    {x : Expr Op} {g : GroupId} (rest : List ExprId) (hb : m.outline.Binds p e es) (hp : p.manyLast = true)
    (hnames : names.map m.outline.reduceExpr = es) (he : m.outline.entry e = some (x, g)) :
    ∃ n, planOf m all p (names ++ rest) = .ok (n, rest) ∧ m.outline.Depicts p names g n := by
  obtain ⟨haccepts, test, more, rfl, hfit, hbelow⟩ := binds_accepts hb he
  obtain ⟨name, names, rfl, rfl, rfl⟩ := List.map_eq_cons_iff.1 hnames
  obtain ⟨entry, group, hentry, hgroup, rfl, hrow⟩ := exists_entry_group hs he
  obtain ⟨inputs, hinputs, hdepicts⟩ : ∃ inputs,
      planInputs m all p.inputs entry.expr.inputs (names ++ rest) = .ok (inputs, rest) ∧
        m.outline.DepictsAll p.inputs entry.expr.inputs names inputs := by
    match p with
    | .node test' ps =>
      exact planInputs_depicts hs ps entry.expr.inputs rest hbelow hp hfit rfl (hs.places.inputs _ _ _ he)
    | .any | .anyMany => exact planInputs_nil_depicts rest hbelow hfit rfl
  refine ⟨⟨⟨entry.expr.op, entry.expr.data, group.rowType, entry.expr.traits⟩, inputs⟩, ?_,
    .node he haccepts hrow hdepicts⟩
  rw [List.cons_append, planOf_cons p name _ hentry hgroup, hinputs]
  rfl

theorem planInputs_depicts (hs : m.outline.Sound) (ps : List (Pattern Op)) (rs : List SubGroupRef)
    {es names : List ExprId} {test : KindTest Op} (rest : List ExprId) (hb : m.outline.BindsAll ps rs es)
    (hp : manyLastAll ps = true) (hfit : (node test ps).fitsArity rs.length = true)
    (hnames : names.map m.outline.reduceExpr = es)
    (hlive : ∀ r ∈ rs, (m.outline.group (m.outline.reduce r.group)).isSome) :
    ∃ inputs, planInputs m all ps rs (names ++ rest) = .ok (inputs, rest) ∧
      m.outline.DepictsAll ps rs names inputs := by
  match ps, rs with
  | [], rs => exact planInputs_nil_depicts rest hb hfit hnames
  | p :: ps, [] =>
    rw [eq_anyMany_of_fitsArity hfit] at hb ⊢
    cases hb
    obtain rfl := List.map_eq_nil_iff.1 hnames
    exact ⟨[], by rw [planInputs]; rfl, .many hlive⟩
  | .anyMany :: ps, r :: rs =>
    obtain rfl := List.isEmpty_iff.1 hp
    cases hb
    obtain rfl := List.map_eq_nil_iff.1 hnames
    refine ⟨_, ?_, .many hlive⟩
    rw [planInputs]
    rw [List.nil_append, planInputs_nil]
    rfl
  | .any :: ps, r :: rs =>
    obtain ⟨hps, hfits⟩ := fitsArity_cons test rs.length hp (by simp)
    cases hb with
    | any below =>
      obtain ⟨inputs, hinputs, hdepicts⟩ := planInputs_depicts hs ps rs rest below hps (hfits ▸ hfit) hnames
        fun r' hr' => hlive r' (List.mem_cons_of_mem _ hr')
      refine ⟨.group (m.reduceRef r) :: inputs, ?_, .any (hlive r List.mem_cons_self) hdepicts⟩
      rw [planInputs, hinputs]
      rfl
  | .node test' qs :: ps, r :: rs =>
    obtain ⟨hps, hfits⟩ := fitsArity_cons test rs.length hp (by simp)
    have hq : (node test' qs).manyLast = true := (Bool.and_eq_true_iff.1 hp).1
    cases hb with
    | @node _ _ _ _ _ e y es₁ es₂ member first below =>
      obtain ⟨names₁, names₂, rfl, h₁, h₂⟩ := List.map_eq_append_iff.1 hnames
      obtain ⟨n, hn, hfirst⟩ := planOf_depicts hs (.node test' qs) (names₂ ++ rest) first hq h₁ member
      obtain ⟨inputs, hinputs, hdepicts⟩ := planInputs_depicts hs ps rs rest below hps (hfits ▸ hfit) h₂
        fun r' hr' => hlive r' (List.mem_cons_of_mem _ hr')
      refine ⟨n.toPlan :: inputs, ?_, .node hfirst hdepicts⟩
      rw [planInputs, List.append_assoc, hn]
      show (planInputs m all ps rs (names₂ ++ rest) >>= _) = _
      rw [hinputs]
      rfl

end

/-! ## Bindings found and plans made -/

/-- What is found for an expression, which may go by an old name, binds what the name stands for. -/
theorem binds_of_mem_bindings (hs : m.outline.Sound) (p : Pattern Op) {e : ExprId} {found : List (List ExprId)}
    {es : List ExprId} (h : p.bindings m e = .ok found) (hes : es ∈ found) :
    ∃ more, es = e :: more ∧ m.outline.Binds p (m.outline.reduceExpr e) (m.outline.reduceExpr e :: more) := by
  have hlive : ∀ {x : Expr Op}, m.getExpr e = .ok x → ∃ g, m.outline.entry (m.outline.reduceExpr e) = some (x, g) := by
    intro x hx
    obtain ⟨entry, hentry, hx⟩ := bind_eq_ok hx
    cases hx
    exact ⟨_, Memo.outline_entry_of (Memo.getEntry_eq_ok hentry)⟩
  cases p with
  | any | anyMany =>
    rw [bindings] at h
    obtain ⟨x, hx, h⟩ := bind_eq_ok h
    obtain ⟨g, he⟩ := hlive hx
    by_cases hempty : x.inputs.isEmpty = true
    · simp only [hempty, if_true] at h
      cases h
      exact ⟨[], List.mem_singleton.1 hes, .leaf rfl he (List.isEmpty_iff.1 hempty)⟩
    · simp only [hempty] at h
      cases h
      exact absurd hes List.not_mem_nil
  | node test ps =>
    rw [bindings] at h
    obtain ⟨x, hx, h⟩ := bind_eq_ok h
    obtain ⟨g, he⟩ := hlive hx
    split at h
    · next hfit =>
      obtain ⟨haccepts, harity⟩ := Bool.and_eq_true_iff.1 hfit
      obtain ⟨found', hfound', hmem⟩ := bindInputs_spec hs ps x.inputs [[e]] (roomy_of_fitsArity harity)
      rw [hfound'] at h
      cases h
      obtain ⟨pick, hpick, more, hb, rfl⟩ := (hmem es).1 hes
      rw [List.mem_singleton.1 hpick]
      exact ⟨more, rfl, .node he haccepts harity hb⟩
    · cases h
      exact absurd hes List.not_mem_nil

/-- A binding that was found gives a plan at any time later, which uses up the names of the binding and shows the
memo as it is by then. -/
theorem bindings_never_stale [Quantity Q] (hm : Memo.Attempted m) {p : Pattern Op} (hp : p.manyLast = true)
    {e : ExprId} {found : List (List ExprId)} (hfound : p.bindings m e = .ok found) {es : List ExprId}
    (hes : es ∈ found) (hcalls : Memo.Calls m m') :
    ∃ n g, p.planOfBinding m' es = .ok n ∧ m'.groupOf e = .ok g ∧ m'.outline.Depicts p es g n := by
  have hs' := (hcalls.tidy hm.tidy).sound
  have hevolves := hcalls.evolves hm.tidy
  obtain ⟨more, rfl, hb⟩ := binds_of_mem_bindings hm.tidy.sound p hfound hes
  have hb' := hb.later hevolves hs'
  rw [List.map_cons, hevolves.expr] at hb'
  obtain ⟨x, g, he⟩ := hb'.known
  obtain ⟨n, hn, hdepicts⟩ : ∃ n, planOf m' (e :: more) p (e :: more ++ []) = .ok (n, []) ∧
      m'.outline.Depicts p (e :: more) g n := planOf_depicts hs' p [] hb' hp rfl he
  obtain ⟨-, hgroup, -⟩ := Memo.groupOf_of_entry (hcalls.tidy hm.tidy) he
  refine ⟨n, g, ?_, hgroup, hdepicts⟩
  rw [List.append_nil] at hn
  simp only [planOfBinding]
  rw [hn]
  rfl

section SmallHost

open SmallHost Relational Memo

/-- A physical filter over a logical one. -/
def doublyFiltered : Pattern Kind := .node (.exactly .physicalFilter) [.node (.exactly .filter) [.anyMany]]

set_option maxRecDepth 100000 in
theorem doublyFiltered_bindings : doublyFiltered.bindings stacked ⟨14⟩ = .ok [[⟨14⟩, ⟨10⟩]] := by
  cbv

/-- Both filters of the binding are dropped for others when the tables turn out to be one. -/
theorem doublyFiltered_drifted : Attempted stacked ∧ doublyFiltered.manyLast = true ∧ Calls stacked drifted ∧
    ∃ n g, doublyFiltered.planOfBinding drifted [⟨14⟩, ⟨10⟩] = .ok n ∧ drifted.groupOf ⟨14⟩ = .ok g ∧
      drifted.outline.Depicts doublyFiltered [⟨14⟩, ⟨10⟩] g n :=
  ⟨stacked_reached.attempted, rfl, drifted_calls,
    bindings_never_stale stacked_reached.attempted rfl doublyFiltered_bindings (List.mem_singleton_self _) drifted_calls⟩

end SmallHost

end Pattern

end PlanSearch
