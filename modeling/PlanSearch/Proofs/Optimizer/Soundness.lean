import PlanSearch.Memo.BestPlan
import PlanSearch.Proofs.Matching.Planned
import PlanSearch.Proofs.Memo.Integrity
import PlanSearch.Proofs.Optimizer.Advance

/-!
# The search keeps the meaning

If every rule turns a binding into plans of the value of the binding, and every enforcer leaves the
value of its input as it is, then all members of a group go on having one value, whatever fires and
whatever merges. So the plan that is taken out has the value of the plan that was seeded.

The invariant is that values consistent with the memo exist, that under all of them the seed has the
value of the root group, and that every pending match is a binding under the live names of its
expressions.
-/

namespace PlanSearch

open Outline

universe u

variable {Op Q : Type} {V : Type u}

/-! ## What is asked of rules and enforcers -/

/-- Every enforcer of the kind has the value of its input. -/
def TraitKind.Neutral (I : Interpretation Op V) (k : TraitKind Op) : Prop :=
  ∀ e n, k.enforce e = some n → ∀ a, I.apply n.head.op n.head.data [a] = a

/-- Whatever the memo, and whatever values are consistent with it, each plan that the rule makes of a
binding has the value of the binding, and each group that it refers to that of the binding's root. -/
def Rule.Sound [Operator Op] [Quantity Q] (I : Interpretation Op V) (r : Rule Op Q) : Prop :=
  ∀ (m : Memo Op Q) (v : GroupId → V) (e : ExprId) (g : GroupId) (found : List (List ExprId))
    (es : List ExprId) (n : PlanNode Op) (outs : List (Plan Op)), m.Reached → m.Consistent I v →
    m.groupOf e = .ok g → r.pattern.bindings m e = .ok found → es ∈ found →
    r.pattern.planOfBinding m es = .ok n → r.apply m n = .ok outs →
    ∀ p ∈ outs, I.valueOf v p = if p.isNode then I.valueOf v n.toPlan else v g

section SmallHost

open SmallHost

theorem swap_sound : swap.Sound mostRows := by
  intro m v e g found es n outs _ _ _ _ _ _ happly p hp
  cases happly
  rw [List.mem_singleton.1 hp]
  show mostRows.apply _ _ (mostRows.valuesOf v _) = mostRows.apply _ _ (mostRows.valuesOf v _)
  rw [Interpretation.valuesOf_eq_map, Interpretation.valuesOf_eq_map]
  exact mostRows_perm _ _ (n.inputs.reverse_perm.map _)

theorem implement_sound : implement.Sound mostRows := by
  intro m v e g found es n outs _ _ _ _ _ _ happly p hp
  cases happly
  rw [List.mem_singleton.1 hp]
  exact mostRows_run _ _ _

theorem greedy_sound : greedy.Sound mostRows := by
  intro m v e g found es n outs _ _ _ _ _ _ happly p hp
  cases happly
  rw [List.mem_singleton.1 hp]
  rfl

theorem orders_neutral : ∀ k ∈ orders.kinds, k.Neutral mostRows := by
  intro k hk e n hn rows
  rw [List.mem_singleton.1 hk] at hn
  simp only [TraitKind.enforce] at hn
  split at hn
  · cases hn
    exact List.sum_singleton
  · cases hn

end SmallHost

/-! ## Plans from winners -/

namespace Memo

variable {m : Memo Op Q} {I : Interpretation Op V} {v : GroupId → V}

/-- The best plan of a sub group has the value of the group. The induction is on the sub groups that were
not yet entered. -/
theorem bestPlanWithin_value [DecidableEq Op] (hm : m.Orderly) (hv : m.outline.Consistent I v)
    {us : List SubGroupId} {r : SubGroupRef} {n : PlanNode Op}
    (h : m.bestPlanWithin us r = .ok n) : I.valueOf v n.toPlan = v r.group := by
  induction hl : us.length using Nat.strongRecOn generalizing us r n with
  | ind k ih =>
  have hs := hm.ordered.tidy.sound
  rw [bestPlanWithin] at h
  obtain ⟨group, hgroup, h⟩ := bind_eq_ok h
  cases hf : m.findSubGroup? r with
  | none => simp only [hf] at h; cases h
  | some s =>
    simp only [hf] at h
    obtain ⟨sub, hsub, h⟩ := bind_eq_ok h
    cases hw : sub.winner with
    | none => simp only [hw] at h; cases h
    | some w =>
      simp only [hw] at h
      split at h
      · next hmem =>
        obtain ⟨x, hx, h⟩ := bind_eq_ok h
        obtain ⟨inputs, hinputs, h⟩ := bind_eq_ok h
        cases h
        obtain ⟨grp, hgrp, hidx⟩ := Option.bind_eq_some_iff.1 hf
        obtain ⟨p, hp, -, rfl⟩ := Group.sub?_eq_some hidx
        have hlisted := hm.ordered.tidy.indexed.listed _ _ (outline_group_of hgrp) p hp
        have hlive := liveSubGroup_eq_ok hsub
        rw [outline_sub, hlive] at hlisted
        have hhome : sub.group = m.reduceGroup r.group :=
          congrArg SubGroupRef.group (Option.some.inj hlisted)
        obtain ⟨grp', hgrp', hmember, -⟩ := hm.winner ⟨hlive, hw⟩
        obtain ⟨y, hy⟩ := (hs.places.members _ _ (outline_group_of hgrp') _).1 hmember
        obtain ⟨entry, hentry, hx⟩ := bind_eq_ok hx
        cases hx
        have hx := outline_entry_of (getEntry_eq_ok hentry)
        rw [hy] at hx
        obtain ⟨rfl, hgroup⟩ := Prod.mk.inj (Option.some.inj hx)
        have hvals : I.valuesOf v inputs = entry.expr.inputs.map fun r => v r.group := by
          rw [I.valuesOf_eq_map]
          refine map_of_mapM_eq_ok hinputs fun input _ p hp => ?_
          obtain ⟨n, hn, hp⟩ := bind_eq_ok hp
          cases hp
          exact ih _ (hl ▸ length_erase_lt hmem) hn rfl
        have hvalue := hv.exprs _ _ _ hy
        rw [hhome] at hvalue
        rw [← hv.names r.group]
        refine Eq.trans ?_ hvalue
        show I.apply _ _ (I.valuesOf v inputs) = I.apply _ _ _
        rw [hvals]
      · cases h

end Memo

namespace Optimizer

variable [Operator Op] [Quantity Q] {I : Interpretation Op V} {plan : PlanNode Op} {g : GroupId}
  {o o' : Optimizer Op Q}

/-! ## What justifies a join -/

/-- Under all values that are consistent with the memo, the plan has the value of the group. -/
def Valued (I : Interpretation Op V) (r : Registry Op) : Just Op Q := fun m p g =>
  m.registry = r → ∀ v, m.outline.Consistent I v → I.valueOf v p = v g

omit [Operator Op] [Quantity Q] in
theorem enforcing_valued {r : Registry Op} (hr : ∀ k ∈ r.kinds, k.Neutral I) :
    Enforcing (Valued I r : Just Op Q) := by
  intro m k e n g hk henf hg hreg v hv
  obtain ⟨hin, -, -⟩ := TraitKind.enforce_shape henf
  show I.apply _ _ (I.valuesOf v n.inputs) = v g
  rw [hin]
  show I.apply _ _ [v e.input.group] = v g
  rw [hr k (hreg ▸ hk) e n henf, ← hv.names, ← hv.names g]
  exact congrArg v hg

theorem Change.carries {m m' : Memo Op Q} (h : Change (Valued I m.registry) m m') (hm : m.Orderly) :
    Carries I m.outline m'.outline := by
  have ht := hm.ordered.tidy
  cases h with
  | add ok => exact (Memo.add_stands hm.ordered ok).1.carries ht
  | request ok => exact (Memo.ensureSubGroup_grown hm.ordered ok).1.carries ht
  | price ok =>
    rw [Memo.outline_recordPrice ok]
    exact .of_same fun _ hv => hv
  | join reason ok => exact (Memo.addTo_joins hm.ordered ok).1.carries ht (reason rfl)
  | enforce reason ok => exact (Memo.addNodeTo_joins hm.ordered ok).1.carries ht (reason rfl)

/-! ## The invariant -/

/-- The match is a binding of its rule, under the live names of its expressions. -/
def Bound (o : Optimizer Op Q) (x : Match) : Prop :=
  ∃ rule e, o.rules[x.rule]? = some rule ∧
    o.memo.outline.Binds rule.pattern e (x.exprs.map o.memo.reduceExpr)

/-- Values consistent with the memo exist, and under all of them the seed has the value of the group
`g`, which is the one that the root requirement is about. -/
structure Faithful (I : Interpretation Op V) (plan : PlanNode Op) (g : GroupId) (o : Optimizer Op Q) :
    Prop where
  reached : o.memo.Reached
  kinds : ∀ k ∈ o.memo.registry.kinds, k.Neutral I
  rules : ∀ r ∈ o.rules, r.Sound I ∧ r.pattern.manyLast = true
  pending : ∀ q ∈ o.agenda.pending, o.Bound q.2
  consistent : ∃ v, o.memo.outline.Consistent I v
  seed : ∀ v, o.memo.outline.Consistent I v → I.valueOf v plan.toPlan = v g
  root : ∃ k traits, o.root = some ⟨k, traits⟩ ∧ o.memo.reduceGroup k = o.memo.reduceGroup g
  seedPlan : o.seedPlan = some plan

omit [Quantity Q] in
theorem Bound.later {x : Match} (h : o.Bound x) (hr : o'.rules = o.rules)
    (he : o.memo.outline.Evolves [] o'.memo.outline []) (hs : o'.memo.outline.Sound) :
    o'.Bound x := by
  obtain ⟨rule, e, known, hb⟩ := h
  have hb' := hb.later he hs
  have hnames : (x.exprs.map o.memo.reduceExpr).map o'.memo.outline.reduceExpr
      = x.exprs.map o'.memo.reduceExpr := by
    rw [List.map_map]
    exact List.map_congr_left fun a _ => he.expr a
  rw [hnames] at hb'
  exact ⟨rule, _, hr ▸ known, hb'⟩

/-- What carries consistent values over keeps the invariant. -/
theorem Faithful.later (h : Faithful I plan g o) (hf : o.Frame o') (hr : o'.memo.Reached)
    (hreg : o'.memo.registry = o.memo.registry)
    (he : o.memo.outline.Evolves [] o'.memo.outline [])
    (hc : Carries I o.memo.outline o'.memo.outline)
    (hp : ∀ q ∈ o'.agenda.pending, q ∈ o.agenda.pending) : Faithful I plan g o' where
  reached := hr
  kinds := hreg ▸ h.kinds
  rules := hf.rules ▸ h.rules
  pending q hq := (h.pending q (hp q hq)).later hf.rules he hr.orderly.ordered.tidy.sound
  consistent := by
    obtain ⟨v, hv⟩ := h.consistent
    obtain ⟨w, hw, -⟩ := hc v hv
    exact ⟨w, hw⟩
  seed v hv := h.seed v (hv.earlier he hr.orderly.ordered.tidy.sound.names)
  root := by
    obtain ⟨k, traits, hroot, hk⟩ := h.root
    refine ⟨k, traits, hf.root.trans hroot, ?_⟩
    exact (he.group k).symm.trans ((congrArg o'.memo.outline.reduce hk).trans (he.group g))
  seedPlan := hf.seedPlan.trans h.seedPlan

/-- Where the memo stays, only the agenda matters. -/
theorem Faithful.of_memo (h : Faithful I plan g o) (hm : o'.memo = o.memo) (hf : o.Frame o')
    (hp : ∀ q ∈ o'.agenda.pending, q ∈ o.agenda.pending) : Faithful I plan g o' := by
  refine h.later hf (hm ▸ h.reached) (by rw [hm]) ?_ ?_ hp
  · rw [hm]
    exact .refl h.reached.orderly.ordered.tidy.sound.names
  · rw [hm]
    exact .of_same fun _ hv => hv

/-- One act keeps the invariant. -/
theorem Faithful.act (h : Faithful I plan g o) (ha : o.Act (Valued I o.memo.registry) o') :
    Faithful I plan g o' := by
  have hm := h.reached.orderly
  cases ha with
  | find find =>
    cases find with
    | idle memo agenda frame => exact h.of_memo memo frame fun q hq => agenda ▸ hq
    | @push id rule e es agenda known active binds pushed =>
      refine ⟨h.reached, h.kinds, h.rules, fun q hq => ?_, h.consistent, h.seed, h.root, h.seedPlan⟩
      have hq : q ∈ agenda.pending := hq
      rw [(Agenda.push_accepted pushed).1] at hq
      rcases List.mem_append.1 hq with hq | hq
      · exact h.pending q hq
      · rw [List.mem_singleton.1 hq]
        refine ⟨rule, e, known, ?_⟩
        have hlive : es.map o.memo.reduceExpr = es := binds.map_reduceExpr hm.ordered.tidy.sound.names
        rw [show ({ o with agenda := agenda } : Optimizer Op Q).memo = o.memo from rfl, hlive]
        exact binds
  | @change m change =>
    exact h.later ⟨rfl, rfl, rfl, rfl, rfl, rfl, rfl⟩ (.call h.reached change.call)
      change.call.registry_eq (change.call.evolves hm) (change.carries hm) fun _ => id

theorem Faithful.acts (h : Faithful I plan g o) (ha : o.Acts (Valued I o.memo.registry) o') :
    Faithful I plan g o' := by
  induction ha with
  | refl => exact h
  | tail hs ha ih => exact ih.act (by rw [Acts.registry_eq hs]; exact ha)

/-! ## Settling and firing -/

theorem Faithful.settle (h : Faithful I plan g o) {fuel : Nat}
    (ok : Optimizer.settle fuel o = .ok () o') : Faithful I plan g o' := by
  -- the registry stays, and with it what may join which group
  have hall := settle_keeps (P := fun o₁ => Faithful I plan g o₁ ∧ o₁.memo.registry = o.memo.registry)
    (enforcing_valued h.kinds) (fun _ h₁ => h₁.1.reached.orderly) (fun o₁ h₁ => ?_)
    (fun o₁ o₂ h₁ ha => ?_) ⟨h, rfl⟩ ok
  · exact hall.1
  · refine ⟨h₁.1.later ⟨rfl, rfl, rfl, rfl, rfl, rfl, rfl⟩ (.call h₁.1.reached .forgetChanges) rfl
      h₁.1.reached.orderly.ordered.tidy.evolves_forget
      (.of_same fun _ hv => ⟨hv.names, hv.exprs⟩) fun _ => id, h₁.2⟩
  · exact ⟨h₁.1.acts (h₁.2 ▸ ha), (Acts.registry_eq ha).trans h₁.2⟩

/-- What a rule makes of a binding has the value of the group of the binding's root, now and later. -/
theorem Faithful.valued (h : Faithful I plan g o) {x : Match} (hx : o.Bound x) {rule : Rule Op Q}
    {root : ExprId} {more : List ExprId} {k : GroupId} {n : PlanNode Op} {outs : List (Plan Op)}
    (hrule : o.rules[x.rule]? = some rule) (hexprs : x.exprs = root :: more)
    (hk : o.memo.groupOf root = .ok k) (hn : rule.pattern.planOfBinding o.memo x.exprs = .ok n)
    (houts : rule.apply o.memo n = .ok outs) {p : Plan Op} (hp : p ∈ outs)
    (ha : o.Acts (Valued I o.memo.registry) o') {v : GroupId → V}
    (hv : o'.memo.outline.Consistent I v) : I.valueOf v p = v (o'.memo.reduceGroup k) := by
  have hm := h.reached.orderly
  have hs := hm.ordered.tidy.sound
  obtain ⟨rule', e, known, hb⟩ := hx
  rw [hrule] at known
  cases known
  have hroot : e = o.memo.reduceExpr root := by
    obtain ⟨es, hes⟩ := hb.head
    rw [hexprs, List.map_cons] at hes
    exact (List.cons.inj hes).1.symm
  subst hroot
  have hv₀ := hv.earlier (ha.evolves hm) (ha.orderly hm).ordered.tidy.sound.names
  obtain ⟨y, home, hy⟩ := hb.known
  obtain ⟨found, hfound, hmem⟩ := Pattern.bindings_spec hs rule.pattern hy
  obtain ⟨hsound, hlast⟩ := h.rules rule (List.mem_of_getElem? hrule)
  have hplan := Pattern.planOfBinding_reduceExpr hs.names hn
  obtain ⟨entry, hentry, hkeq⟩ := bind_eq_ok hk
  cases hkeq
  have hhome : entry.group = home := by
    have he := Memo.outline_entry_of (Memo.getEntry_eq_ok hentry)
    rw [hy] at he
    exact (Prod.mk.inj (Option.some.inj he)).2.symm
  have hgroup : o.memo.groupOf (o.memo.reduceExpr root) = .ok (o.memo.reduceGroup entry.group) := by
    unfold Memo.groupOf
    rw [Pattern.getEntry_reduceExpr hs.names, hentry]
    rfl
  have hval := hsound o.memo v _ _ found _ n outs h.reached (Memo.consistent_iff.2 hv₀) hgroup
    hfound ((hmem _).2 hb) hplan houts p hp
  have htarget : v (o'.memo.reduceGroup (o.memo.reduceGroup entry.group)) = v entry.group :=
    (hv.names _).trans (hv₀.names entry.group)
  rw [hval, htarget]
  split
  · rw [Pattern.planOfBinding_value hs.names hv₀ hb hlast hy hplan, hhome]
  · exact hv₀.names entry.group

theorem Faithful.fire (h : Faithful I plan g o) {x : Match} (hx : o.Bound x) {fuel : Nat}
    (ok : Optimizer.fire fuel x o = .ok () o') : Faithful I plan g o' := by
  obtain ⟨o₁, hacts, hsettle⟩ : ∃ o₁, o.Acts (Valued I o.memo.registry) o₁ ∧
      Optimizer.settle fuel o₁ = .ok () o' :=
    fire_acts h.reached.orderly (fun _ _ _ _ _ _ hrule hexprs hk hn houts _ hp _ ha _ _ hv =>
      h.valued hx hrule hexprs hk hn houts hp ha hv) ok
  exact (h.acts hacts).settle hsettle

/-! ## Turns -/

/-- A budget may run out. -/
theorem Faithful.spent (h : Faithful I plan g o) (hm : o'.memo = o.memo)
    (ha : o'.agenda = o.agenda)
    (hf : ({ o with budgetExhausted := true } : Optimizer Op Q).Frame o') : Faithful I plan g o' := by
  have hspent : Faithful I plan g ({ o with budgetExhausted := true } : Optimizer Op Q) :=
    ⟨h.reached, h.kinds, h.rules, h.pending, h.consistent, h.seed, h.root, h.seedPlan⟩
  exact hspent.of_memo hm hf fun q hq => ha ▸ hq

/-- A turn of a match that is a binding keeps the invariant. -/
theorem Faithful.dispatched (h : Faithful I plan g o) {x : Match} (hx : o.Bound x) {fuel : Nat}
    {fires : Bool} (hd : Dispatched fuel x o fires o') : Faithful I plan g o' := by
  cases hd with
  | dropped => exact h
  | forgotten =>
    exact ⟨h.reached, h.kinds, h.rules, h.pending, h.consistent, h.seed, h.root, h.seedPlan⟩
  | full memo agenda frame => exact h.spent memo agenda frame
  | fired active ok => exact h.fire hx ok

theorem Faithful.advance (h : Faithful I plan g o) (ha : o.Advance o') : Faithful I plan g o' := by
  cases ha with
  | stop ok =>
    obtain ⟨memo, agenda, -, frame⟩ := exhaust_spec ok
    exact h.spent memo agenda frame
  | @turn _ x agenda _ next ok =>
    obtain ⟨priority, hperm, -⟩ := Agenda.pop?_eq_some next
    have htaken : Faithful I plan g ({ o with agenda := agenda } : Optimizer Op Q) :=
      ⟨h.reached, h.kinds, h.rules, fun q hq => h.pending q
        (hperm.mem_iff.2 (List.mem_cons_of_mem _ hq)), h.consistent, h.seed, h.root, h.seedPlan⟩
    have hx : o.Bound x := h.pending (priority, x) (hperm.mem_iff.2 List.mem_cons_self)
    obtain ⟨fires, hd⟩ := dispatch_spec ok
    exact htaken.dispatched hx hd

theorem Faithful.advances (h : Faithful I plan g o) (ha : o.Advances o') : Faithful I plan g o' := by
  induction ha with
  | refl => exact h
  | tail _ hs ih => exact ih.advance hs

/-! ## From the seed to the plan -/

/-- A blank optimizer keeps the invariant from its seed on. -/
theorem Blank.faithful (hb : o.Blank) (hk : ∀ k ∈ o.memo.registry.kinds, k.Neutral I)
    (hr : ∀ r ∈ o.rules, r.Sound I ∧ r.pattern.manyLast = true) {fuel : Nat} {required : TraitSet}
    (ok : Optimizer.seed fuel plan required o = .ok g o') : Faithful I plan g o' := by
  obtain ⟨g₀, e, s, m₁, m₂, o₂, hadd, hask, hsettle, rfl, hg⟩ := seed_spec ok
  have hm := hb.reached.orderly
  have ht := hm.ordered.tidy
  have hstart : ∃ v, o.memo.outline.Consistent I v := by
    obtain ⟨registry, factRules, tieBreak, hempty⟩ := hb.memo
    refine ⟨fun _ => I.apply plan.head.op none [], fun _ => rfl, fun e x g he => ?_⟩
    rw [hb.entry_eq_none] at he
    cases he
  obtain ⟨hgrown, hm₁, hstands⟩ := Memo.add_stands hm.ordered hadd
  obtain ⟨hgrown', -, hm₂⟩ := Memo.ensureSubGroup_grown hm₁ hask
  have hreached : m₂.Reached := .call (.call hb.reached (.add hadd)) (.ensureSubGroup hask)
  have hcarries : Carries I o.memo.outline m₂.outline :=
    (hgrown.carries ht).trans (hgrown'.carries hm₁.tidy) hgrown.registers
  have hpending : o.agenda.pending = [] := by
    obtain ⟨order, ha⟩ := hb.agenda
    rw [ha]; rfl
  have hreg : m₂.registry = o.memo.registry :=
    (Memo.Call.registry_eq (.ensureSubGroup hask)).trans (Memo.Call.registry_eq (.add hadd))
  have hfaithful : Faithful I plan g₀ ({ o with
      phase := .seeding, memo := m₂, root := some ⟨g₀, required⟩, seedPlan := some plan } :
      Optimizer Op Q) := by
    refine ⟨hreached, fun k hk' => hk k (hreg ▸ hk'), hr, fun q hq => ?_, ?_, fun v hv => ?_,
      ⟨g₀, required, rfl, rfl⟩, rfl⟩
    · rw [hpending] at hq
      cases hq
    · obtain ⟨v, hv⟩ := hstart
      obtain ⟨w, hw, -⟩ := hcarries v hv
      exact ⟨w, hw⟩
    · exact (hstands.later (hgrown'.keeps hm₁.tidy)).valueOf_eq hv
  have hend := hfaithful.settle hsettle
  have hn := hend.reached.orderly.ordered.tidy.sound.names
  subst hg
  refine ⟨hend.reached, hend.kinds, hend.rules, hend.pending, hend.consistent, fun v hv => ?_, ?_,
    hend.seedPlan⟩
  · exact (hend.seed v hv).trans (hv.names g₀).symm
  · obtain ⟨k, traits, hroot, hk'⟩ := hend.root
    exact ⟨k, traits, hroot, hk'.trans (hn.reduce_reduce g₀).symm⟩

/-- The plan taken out has the value of the seed. -/
theorem Faithful.extracted (h : Faithful I plan g o) {outcome : Outcome Op Q}
    (ok : Optimizer.extract o = .ok outcome o') {v : GroupId → V}
    (hv : o.memo.outline.Consistent I v) :
    I.valueOf v outcome.plan.toPlan = I.valueOf v plan.toPlan := by
  obtain ⟨k, traits, hroot, hk⟩ := h.root
  obtain ⟨root, hroot', ⟨-, hbest, -, -⟩ | ⟨hseed, -⟩⟩ := extract_eq_ok ok
  · rw [hroot] at hroot'
    cases hroot'
    rw [h.seed v hv, ← hv.names g]
    exact (Memo.bestPlanWithin_value h.reached.orderly hv hbest).trans (congrArg v hk)
  · rw [h.seedPlan] at hseed
    cases hseed
    rfl

/-- The search keeps the meaning of the seed: in every state that it reaches there are values
consistent with the memo, under all of them the root group has the value of the seed, and so has every
plan taken out. -/
theorem search_sound (hb : o.Blank) (hk : ∀ k ∈ o.memo.registry.kinds, k.Neutral I)
    (hr : ∀ r ∈ o.rules, r.Sound I) (hlast : ∀ r ∈ o.rules, r.pattern.manyLast = true) {fuel : Nat}
    {required : TraitSet} (seeded : Optimizer.seed fuel plan required o = .ok g o')
    {o'' : Optimizer Op Q} (advanced : o'.Advances o'') :
    (∃ v, o''.memo.Consistent I v) ∧ ∀ v, o''.memo.Consistent I v →
      v g = I.valueOf v plan.toPlan ∧ ∀ outcome final, Optimizer.extract o'' = .ok outcome final →
        I.valueOf v outcome.plan.toPlan = I.valueOf v plan.toPlan := by
  have hend := (hb.faithful hk (fun r h => ⟨hr r h, hlast r h⟩) seeded).advances advanced
  refine ⟨?_, fun v hv => ?_⟩
  · obtain ⟨v, hv⟩ := hend.consistent
    exact ⟨v, Memo.consistent_iff.2 hv⟩
  · have hv := Memo.consistent_iff.1 hv
    exact ⟨(hend.seed v hv).symm, fun outcome _ ok => hend.extracted ok hv⟩

section SmallHost

open SmallHost Relational

/-- The join of tables of two and of three rows, sorted, has six rows before and after the search. -/
theorem joined_sound : ∃ g o' o'' outcome final, Optimizer.seed 20 joined byFirst sorter = .ok g o' ∧
    o'.Advances o'' ∧ Optimizer.extract o'' = .ok outcome final ∧
    ∃ v, o''.memo.Consistent mostRows v ∧ v g = 6 ∧ mostRows.valueOf v outcome.plan.toPlan = 6 := by
  obtain ⟨fired, o'', outcome, hrun, -, -⟩ := sorter_optimizes
  obtain ⟨g, o', final, hseed, hsearch, hextract⟩ := optimizeLogged_spec hrun
  have hadvanced : o'.Advances o'' := search_advances (search_of_searchLogged hsearch)
  have hrules : ∀ r ∈ sorter.rules, r.Sound mostRows := by
    intro r hr
    rcases List.mem_pair.1 hr with rfl | rfl
    · exact swap_sound
    · exact implement_sound
  obtain ⟨⟨v, hv⟩, hall⟩ := search_sound (blank_new _ _ _ _ _) orders_neutral hrules (by decide) hseed
    hadvanced
  obtain ⟨hroot, hplan⟩ := hall v hv
  exact ⟨g, o', o'', outcome, final, hseed, hadvanced, hextract, v, hv, hroot, hplan outcome final hextract⟩

set_option maxRecDepth 100000 in
/-- The union of the two tables' join with the filter came to be taken for one of a join with the filter,
so its group has no one number of rows. -/
theorem united_optimizes : ∃ fired o outcome, answer? (optimizeLogged 20 united orders.any) misled
    = some (fired, o, outcome) ∧ (¬ ∃ v, o.memo.Consistent mostRows v) ∧
      ∀ v, mostRows.valueOf v outcome.plan.toPlan = 6 := by
  have hrun : ∀ v, (answer? (optimizeLogged 20 united orders.any) misled).map (fun a =>
      (entries a.2.1.memo, mostRows.valueOf v a.2.2.plan.toPlan)) = some
      ([(.physicalScan, some (.i64 1), [], ⟨1⟩), (.physicalScan, some (.i64 9), [], ⟨4⟩),
        (.hashJoin "", none, [⟨1⟩, ⟨4⟩], ⟨7⟩), (.physicalScan, some (.i64 3), [], ⟨10⟩),
        (.physicalFilter, none, [⟨10⟩], ⟨13⟩), (.physicalUnion, none, [⟨7⟩, ⟨13⟩], ⟨16⟩),
        (.hashJoin "", none, [⟨1⟩, ⟨13⟩], ⟨19⟩), (.physicalUnion, none, [⟨19⟩, ⟨10⟩], ⟨16⟩)], 6) := by
    intro v
    cbv
  obtain ⟨⟨fired, o, outcome⟩, h, hshown⟩ := Option.map_eq_some_iff.1 (hrun fun _ => 0)
  refine ⟨fired, o, outcome, h, ?_, fun v => ?_⟩
  · rintro ⟨v, hv⟩
    have hall := value_of_mem_entries hv
    rw [(Prod.mk.inj hshown).1] at hall
    simp only [List.forall_mem_cons, List.map_cons, List.map_nil] at hall
    obtain ⟨h₁, h₄, h₇, h₁₀, h₁₃, h₁₆, h₁₉, h₁₆', -⟩ := hall
    rw [← h₁, ← h₄] at h₇
    rw [← h₁₀] at h₁₃ h₁₆'
    rw [← h₁, ← h₁₃] at h₁₉
    rw [← h₇, ← h₁₃] at h₁₆
    rw [← h₁₉, ← h₁₆] at h₁₆'
    exact absurd h₁₆' (by decide)
  · have hv := hrun v
    rw [h, Option.map_some] at hv
    exact (Prod.mk.inj (Option.some.inj hv)).2

/-- It takes that the operand for all remaining inputs stands last. Where another follows it, the search
can take out a plan of six rows for one of twelve. -/
theorem united_unsound : misled.Blank ∧ (∀ k ∈ misled.memo.registry.kinds, k.Neutral mostRows) ∧
    (∀ r ∈ misled.rules, r.Sound mostRows) ∧ ∃ g o' o'' outcome final,
      Optimizer.seed 20 united orders.any misled = .ok g o' ∧ o'.Advances o'' ∧
      Optimizer.extract o'' = .ok outcome final ∧ (¬ ∃ v, o''.memo.Consistent mostRows v) ∧
      ∀ v, mostRows.valueOf v united.toPlan = 12 ∧ mostRows.valueOf v outcome.plan.toPlan = 6 := by
  refine ⟨blank_new _ _ _ _ _, orders_neutral, fun r hr => ?_, ?_⟩
  · rw [List.mem_singleton.1 hr]
    exact greedy_sound
  · obtain ⟨fired, o'', outcome, hrun, hnone, hvalue⟩ := united_optimizes
    obtain ⟨g, o', final, hseed, hsearch, hextract⟩ := optimizeLogged_spec hrun
    exact ⟨g, o', o'', outcome, final, hseed, search_advances (search_of_searchLogged hsearch),
      hextract, hnone, fun v => ⟨rfl, hvalue v⟩⟩

end SmallHost

end Optimizer

end PlanSearch
