import PlanSearch.Proofs.Optimizer.Runs

/-!
# Plans deliver what is asked for

A winner was checked against what its sub group asks for when it was offered. Since then it may have moved to
another sub group, taken the name of its twin, or been left with a name that is not live any more, and its inputs
may have been redirected. Still, a plan that is taken out of a memo is made of live members of the groups asked
for, which deliver what is asked for, at every level. After a run of the optimizer all of them are physical.

    Edits P w w' → w.Sound → w.Throned → w'.Throned                                          (Edits.throned)
    m.bestPlan r = .ok n → n has no reference, and is what `r` asks for at every level   (plans_deliver)
-/

namespace PlanSearch

open Outline

/-! ## What plans are made of -/

/-- The plan has no reference to a group, and all its operations are allowed. -/
inductive Plan.MadeOf {Op : Type} (allowed : Operation Op → Prop) : Plan Op → Prop
  | node {head : Operation Op} {inputs : List (Plan Op)} (root : allowed head)
      (below : ∀ p ∈ inputs, Plan.MadeOf allowed p) : Plan.MadeOf allowed (.node head inputs)

namespace Memo

variable {Op Q : Type}

/-- The plan is what the reference asks for: its root is that of a live member of the group, delivers what is
asked for and has the row type of the group, and its inputs are what the inputs of the member ask for. -/
inductive Delivers (m : Memo Op Q) : SubGroupRef → Plan Op → Prop
  | node {r : SubGroupRef} {g : GroupId} {group : Group} {e : ExprId} {entry : Entry Op Q}
      {plans : List (Plan Op)} (reduced : m.reduceGroup r.group = g) (live : m.groups[g]? = some group)
      (known : m.exprs[e]? = some entry) (home : entry.group = g) (member : e ∈ group.members)
      (meets : m.registry.satisfies entry.expr.traits r.traits = true)
      (arity : entry.expr.inputs.length = plans.length)
      (inputs : ∀ i p, (i, p) ∈ entry.expr.inputs.zip plans → Delivers m i p) :
      Delivers m r (.node ⟨entry.expr.op, entry.expr.data, group.rowType, entry.expr.traits⟩ plans)

/-- Where a plan is found, the reference leads to a winner, and the plans of its inputs are found. -/
theorem bestPlanWithin_eq_ok {m : Memo Op Q} {us : List SubGroupId} {r : SubGroupRef} {n : PlanNode Op}
    (h : m.bestPlanWithin us r = .ok n) : ∃ group s v entry plans,
      m.groups[m.reduceGroup r.group]? = some group ∧ m.outline.subOf r = some s ∧
      m.standings.wins s = some v ∧ s ∈ us ∧ m.exprs[m.reduceExpr v.expr]? = some entry ∧
      (entry.expr.inputs.mapM fun input => do
        let n ← m.bestPlanWithin (us.erase s) input
        return n.toPlan) = .ok plans ∧
      n = ⟨⟨entry.expr.op, entry.expr.data, group.rowType, entry.expr.traits⟩, plans⟩ := by
  rw [bestPlanWithin] at h
  obtain ⟨group, hgroup, h⟩ := bind_eq_ok h
  cases hfind : m.findSubGroup? r with
  | none =>
    simp only [hfind] at h
    cases h
  | some s =>
    simp only [hfind] at h
    obtain ⟨sub, hsub, h⟩ := bind_eq_ok h
    cases hwinner : sub.winner with
    | none =>
      simp only [hwinner] at h
      cases h
    | some v =>
      simp only [hwinner] at h
      split at h
      · next hmem =>
        obtain ⟨x, hx, h⟩ := bind_eq_ok h
        obtain ⟨entry, hentry, hx⟩ := bind_eq_ok hx
        cases hx
        obtain ⟨plans, hplans, h⟩ := bind_eq_ok h
        cases h
        refine ⟨group, s, v, entry, plans, getGroup_eq_ok hgroup, ?_, ?_, hmem, getEntry_eq_ok hentry, hplans, rfl⟩
        · rw [Memo.subOf_eq, hfind]
        · exact (standings_wins_of (liveSubGroup_eq_ok hsub)).trans hwinner
      · cases h

/-- The answers to the elements of a list, paired with them. -/
theorem zip_of_mapM_eq_ok {α β ε : Type} {f : α → Except ε β} {as : List α} {bs : List β}
    (h : as.mapM f = .ok bs) : as.length = bs.length ∧ ∀ a b, (a, b) ∈ as.zip bs → f a = .ok b := by
  induction as generalizing bs with
  | nil => cases h; exact ⟨rfl, fun _ _ hab => by cases hab⟩
  | cons a as ih =>
    rw [List.mapM_cons] at h
    obtain ⟨b, hb, h⟩ := bind_eq_ok h
    obtain ⟨bs, hbs, h⟩ := bind_eq_ok h
    cases h
    obtain ⟨hlength, hzip⟩ := ih hbs
    refine ⟨by rw [List.length_cons, List.length_cons, hlength], fun a' b' hab => ?_⟩
    rcases List.mem_cons.1 hab with heq | hab
    · cases heq
      exact hb
    · exact hzip a' b' hab

/-- Where winners deliver what their sub groups ask for, so do plans, at every level. The induction is on the sub
groups not yet entered. -/
theorem bestPlanWithin_delivers {m : Memo Op Q} (ht : m.outline.Tidy) (hw : m.work.Throned)
    {allowed : Operation Op → Prop} (ha : ∀ s v entry, m.standings.wins s = some v →
      m.exprs[m.reduceExpr v.expr]? = some entry → ∀ rowType,
      allowed ⟨entry.expr.op, entry.expr.data, rowType, entry.expr.traits⟩)
    {us : List SubGroupId} {r : SubGroupRef} {n : PlanNode Op} (ok : m.bestPlanWithin us r = .ok n) :
    n.toPlan.MadeOf allowed ∧ m.Delivers r n.toPlan := by
  induction hl : us.length using Nat.strongRecOn generalizing us r n with
  | ind k ih =>
  obtain ⟨group, s, v, entry, plans, hgroup, hs, hv, hmem, hentry, hplans, rfl⟩ := bestPlanWithin_eq_ok ok
  have hx := outline_entry_of hentry
  have hcell := outline_group_of hgroup
  -- the winner is at home in the group, and delivers what the reference asks for
  obtain ⟨x, g, ref, hx', href, hlinked, hmeets⟩ := hw s v hv
  cases hx.symm.trans hx'
  obtain ⟨ref', href', htraits, hgroups⟩ := ht.subOf_iff.1 hs
  cases href.symm.trans href'
  have hhome : entry.group = m.reduceGroup r.group := by
    have hg : m.outline.reduce entry.group = m.outline.reduce ref.group :=
      ht.sound.names.linked_nil_iff.1 hlinked
    rw [ht.sound.reduce_home hx] at hg
    exact hg.trans hgroups
  have hmember : m.reduceExpr v.expr ∈ group.members :=
    (ht.sound.places.members _ _ hcell _).2 ⟨entry.expr, by rw [hx, hhome]⟩
  obtain ⟨hlength, hzip⟩ := zip_of_mapM_eq_ok hplans
  have hlt : (us.erase s).length < k := hl ▸ length_erase_lt hmem
  have hinputs : ∀ i p, (i, p) ∈ entry.expr.inputs.zip plans → p.MadeOf allowed ∧ m.Delivers i p := by
    intro i p hip
    obtain ⟨n, hn, hp⟩ := bind_eq_ok (hzip i p hip)
    cases hp
    exact ih _ hlt hn rfl
  refine ⟨.node (ha s v entry hv hentry _) fun p hp => ?_, ?_⟩
  · obtain ⟨j, hj, rfl⟩ := List.mem_iff_getElem.1 hp
    have hj' : j < entry.expr.inputs.length := hlength ▸ hj
    refine (hinputs entry.expr.inputs[j] plans[j] ?_).1
    exact List.mem_iff_getElem.2 ⟨j, by simp [hj, hj'], List.getElem_zip⟩
  · refine .node rfl hgroup hentry hhome hmember ?_ hlength fun i p hip => (hinputs i p hip).2
    rw [← m.registry.satisfies_congr (TraitSet.same_refl _) htraits]
    exact hmeets

/-! ## Winners of reached memos -/

section Reached

variable [Operator Op] [Quantity Q] {m m' : Memo Op Q}

/-- In a reached memo every winner delivers what its sub group asks for, whatever was recorded as its price. -/
theorem Reached.throned (h : Reached m) : m.work.Throned := by
  induction h with
  | empty registry factRules tieBreak =>
    intro s v hv
    simp [work, workAt, standings, Memo.empty] at hv
  | call before call ih =>
    have ht := before.orderly.ordered.tidy
    exact Edits.throned (call.edits ht) (sound_of_tidy ht []) ih

end Reached

end Memo

/-! ## Plans -/

namespace Optimizer

variable {Op Q : Type} [Operator Op] [Quantity Q]

/-- In every state of a run, winners are physical and deliver what their sub groups ask for. -/
theorem Run.bestPlan_delivers {o : Optimizer Op Q} (h : o.Run) {r : SubGroupRef} {n : PlanNode Op}
    (ok : o.memo.bestPlan r = .ok n) :
    n.toPlan.MadeOf (fun head => Operator.isLogical head.op = false) ∧ o.memo.Delivers r n.toPlan := by
  have hf := h.feasible
  refine Memo.bestPlanWithin_delivers h.tidy hf.throned (fun s v entry hv hentry _ => ?_) ok
  -- a winner was priced once, and only physical expressions are
  obtain ⟨-, x, g, -, hx, hphysical, -⟩ := hf.achieved.wins s v hv
  cases (Memo.outline_entry_of hentry).symm.trans hx
  exact hphysical

/-- A plan that is taken out of a reached memo has no reference to a group, and is what was asked for at every
level, whatever was recorded as prices. In the states of a run, no operation of it is logical either. -/
theorem plans_deliver :
    (∀ m : Memo Op Q, m.Reached → ∀ r n, m.bestPlan r = .ok n →
      n.toPlan.MadeOf (fun _ => True) ∧ m.Delivers r n.toPlan) ∧
    ∀ o : Optimizer Op Q, o.Run → ∀ r n, o.memo.bestPlan r = .ok n →
      n.toPlan.MadeOf (fun head => Operator.isLogical head.op = false) ∧ o.memo.Delivers r n.toPlan :=
  ⟨fun _ h _ _ ok => Memo.bestPlanWithin_delivers h.orderly.ordered.tidy h.throned
    (fun _ _ _ _ _ _ => trivial) ok, fun _ h _ _ ok => h.bestPlan_delivers ok⟩

section SmallHost

open SmallHost Relational

/-- The winner of the physical filter was dropped for its twin, and what that reads gets prices. -/
def repriced : Memo Kind Nat :=
  Memo.drifted
    |>.after (Update.step (Memo.recordPrice ⟨0⟩ ⟨⟨[1]⟩, 1⟩))
    |>.after (Update.step (Memo.recordPrice ⟨7⟩ ⟨⟨[1]⟩, 1⟩))

theorem repriced_reached : repriced.Reached := (Memo.drifted_reached.price _ _).price _ _

set_option maxRecDepth 100000 in
/-- A plan follows the stale name of a winner to its twin, and the plan for the sorted join sorts a physical join. -/
theorem repriced_plan : (∃ n, repriced.bestPlan ⟨⟨15⟩, orders.any⟩ = .ok n ∧
      n.toPlan.MadeOf (fun _ => True) ∧ repriced.Delivers ⟨⟨15⟩, orders.any⟩ n.toPlan) ∧
    ∃ (o : Optimizer Kind Nat) (n : PlanNode Kind), o.Run ∧ o.memo.bestPlan ⟨⟨7⟩, byFirst⟩ = .ok n ∧
      n.toPlan.MadeOf (fun head => Operator.isLogical head.op = false) ∧
      o.memo.Delivers ⟨⟨7⟩, byFirst⟩ n.toPlan := by
  constructor
  · have hfound : (repriced.bestPlan ⟨⟨15⟩, orders.any⟩).toOption.isSome = true := by cbv
    cases hn : repriced.bestPlan ⟨⟨15⟩, orders.any⟩ with
    | error e => rw [hn] at hfound; cases hfound
    | ok n => exact ⟨n, rfl, plans_deliver.1 repriced repriced_reached _ n hn⟩
  · have hrun : (answer? (optimizeLogged 20 joined byFirst) sorter).map (fun a =>
        (a.2.1.memo.bestPlan ⟨⟨7⟩, byFirst⟩).toOption.isSome) = some true := by cbv
    obtain ⟨⟨fired, o, outcome⟩, h, hfound⟩ := Option.map_eq_some_iff.1 hrun
    obtain ⟨hr, -⟩ := run_of_optimizeLogged (blank_new _ _ _ _ _) rfl h
    cases hn : o.memo.bestPlan ⟨⟨7⟩, byFirst⟩ with
    | error e => simp only [hn] at hfound; cases hfound
    | ok n => exact ⟨o, n, hr, hn, plans_deliver.2 o hr _ n hn⟩

end SmallHost

end Optimizer

end PlanSearch
