import PlanSearch.Proofs.Optimizer.Discovery

/-!
# Settling and firing as acts

A round of settling consists of acts up to the point where discovery begins. Enforcers join the group
that they read, and that is all that justifies them. Firing a match consists of acts too, one join for
each output of the rule, before what it leaves is settled.

    settleRound c o = .ok () o' → ∃ o₁, o.Acts just o₁ ∧ rediscover c o₁ = .ok () o'
                                                                          (settleRound_acts)
    fire fuel x o = .ok () o' → ∃ o₁, o.Acts just o₁ ∧ settle fuel o₁ = .ok () o'
                                                                          (fire_acts)
-/

namespace PlanSearch

open Outline

/-- Every enforcer of a chain is one that a registered kind builds over the same group. -/
theorem Registry.chain_spec {Op : Type} {rowType : RowType} {required : TraitSet} :
    ∀ {ks : List (TraitKind Op)} {i : Nat} {input : SubGroupRef} {current : TraitSet}
      {ns : List (PlanNode Op)}, chain rowType required ks i input current = .ok (some ns) →
    ∀ n ∈ ns, ∃ k ∈ ks, ∃ e : Enforcement, e.input.group = input.group ∧ k.enforce e = some n
  | [], i, input, current, ns, h, n, hn => by
    cases h
    cases hn
  | k :: ks, i, input, current, ns, h, n, hn => by
    have hlater : ∀ {input' current' ns'},
        chain rowType required ks (i + 1) input' current' = .ok (some ns') → input'.group = input.group →
        n ∈ ns' → ∃ k' ∈ k :: ks, ∃ e : Enforcement, e.input.group = input.group ∧
          k'.enforce e = some n := by
      intro input' current' ns' h' hg hn'
      obtain ⟨k', hk', e, he, henf⟩ := chain_spec h' n hn'
      exact ⟨k', List.mem_cons_of_mem _ hk', e, he.trans hg, henf⟩
    rw [chain] at h
    split at h
    · next a t ha ht =>
      split at h
      · exact hlater h rfl hn
      · dsimp only at h
        split at h
        · cases h
        · next n' henf =>
          obtain ⟨rest, hrest, h⟩ := bind_eq_ok h
          cases rest with
          | none => cases h
          | some ns' =>
            cases h
            rcases List.mem_cons.1 hn with rfl | hn
            · exact ⟨k, List.mem_cons_self, _, rfl, henf⟩
            · exact hlater hrest rfl hn
    · cases h

theorem Registry.convert_spec {Op : Type} {r : Registry Op} {input : SubGroupRef} {rowType : RowType}
    {actual required : TraitSet} {ns : List (PlanNode Op)}
    (h : r.convert input rowType actual required = .ok (some ns)) :
    ∀ n ∈ ns, ∃ k ∈ r.kinds, ∃ e : Enforcement, e.input.group = input.group ∧ k.enforce e = some n := by
  simp only [convert] at h
  obtain ⟨nodes, hnodes, h⟩ := bind_eq_ok h
  cases nodes with
  | none => cases h
  | some ns' =>
    injection h with h
    cases (Option.filter_eq_some_iff.1 h).1
    exact chain_spec hnodes

namespace Optimizer

variable {Op Q : Type} [Operator Op] [Quantity Q] {just : Just Op Q} {o o' : Optimizer Op Q}

/-! ## Prices -/

theorem leads_priceExpr (e : ExprId) : Leads just (priceExpr e : Action Op Q Unit) := by
  intro o _ o' ho ok
  cases priceExpr_eq_ok ok with
  | skipped => exact .refl
  | recorded _ _ _ _ price => exact (Acts.of_idle (o.idle_asked _)).tail (.change (.price price))

theorem leads_noteMerge (kept absorbed : GroupId) : Leads just (noteMerge kept absorbed : Action Op Q Unit) := by
  intro o _ o' _ ok
  cases ok
  exact Acts.of_idle ((o.idle_count _).trans (idle_withEvent _ _))

theorem leads_winnerImproved (s : SubGroupId) : Leads just (winnerImproved s : Action Op Q Unit) :=
  composes_acts.winnerImproved leads_record leads_priceExpr s

/-! ## Enforcers -/

/-- An enforcer may join every group that stands for the one it reads. -/
def Enforcing (just : Just Op Q) : Prop :=
  ∀ (m : Memo Op Q) (k : TraitKind Op) (e : Enforcement) (n : PlanNode Op) (g : GroupId),
    k ∈ m.registry.kinds → k.enforce e = some n → m.reduceGroup e.input.group = m.reduceGroup g →
    just m n.toPlan g

/-- A chain of enforcers, each of which a kind builds over the group `g`. -/
theorem addChain_acts (he : Enforcing just) (g : GroupId) : ∀ {ns : List (PlanNode Op)}
    {o o' : Optimizer Op Q} {es : List ExprId}, o.memo.Orderly →
    (∀ n ∈ ns, ∃ k ∈ o.memo.registry.kinds, ∃ e : Enforcement, e.input.group = g ∧
      k.enforce e = some n) → addChain g ns o = .ok es o' → o.Acts just o'
  | [], o, o', es, ho, hns, h => by
    obtain ⟨-, rfl⟩ := run_pure_eq_ok h
    exact .refl
  | n :: ns, o, o', es, ho, hns, h => by
    obtain ⟨e, m, es', hm, h₂, -⟩ := addChain_cons_eq_ok h
    obtain ⟨k, hk, enf, hg, henf⟩ := hns n List.mem_cons_self
    have hreason : just o.memo n.toPlan (o.memo.reduceGroup g) := by
      refine he o.memo k enf n _ hk henf ?_
      rw [hg]
      exact (ho.ordered.tidy.sound.names.reduce_reduce g).symm
    have hact : o.Acts just { o with memo := m } := .of_change (.enforce hreason hm)
    refine hact.trans (addChain_acts he g (hact.orderly ho) (fun n' hn' => ?_) h₂)
    rw [hact.registry_eq]
    exact hns n' (List.mem_cons_of_mem _ hn')

theorem leads_convertWithin (he : Enforcing just) (g : GroupId) (actual required : TraitSet) :
    Leads just (convertWithin g actual required : Action Op Q Unit) := by
  intro o _ o' ho ok
  have hnote : o.Acts just (o.attempting g actual required) := Acts.of_idle (o.idle_attempting g actual required)
  cases convertWithin_eq_ok ok with
  | idle => exact .refl
  | vain => exact hnote
  | chained _ _ chain asked added =>
    have hask := hnote.tail (.change (.request asked))
    have hchain := addChain_acts he (o.memo.reduceGroup g) (Acts.orderly hask ho) (fun n hn => by
      rw [Acts.registry_eq hask]
      exact Registry.convert_spec chain n hn) added
    exact (hask.trans hchain).trans (Acts.of_idle (idle_enforced _ _ _ _ _))

theorem leads_addEnforcers (he : Enforcing just) (g : GroupId) : Leads just (addEnforcers g : Action Op Q Unit) :=
  composes_acts.addEnforcers (leads_convertWithin he) g

/-! ## Rounds -/

theorem settleRound_acts (he : Enforcing just) (ho : o.memo.Orderly) {c : Changes}
    (h : settleRound c o = .ok () o') : ∃ o₁, o.Acts just o₁ ∧ rediscover c o₁ = .ok () o' := by
  obtain ⟨o₁, o₂, o₃, o₄, affected, h₁, h₂, h₃, -, h₄, hend⟩ := settleRound_eq_ok h
  have a₀ : o.Acts just (o.renewed c) := Acts.of_idle (o.idle_renewed c)
  have hnote (p : GroupId × GroupId) : Leads just (noteMerge p.1 p.2 : Action Op Q Unit) := leads_noteMerge p.1 p.2
  have a₁ : o.Acts just o₁ := a₀.trans (composes_acts.forM hnote _ _ _ (a₀.orderly ho) h₁)
  have a₂ : o.Acts just o₂ := a₁.trans (composes_acts.forM leads_priceExpr _ _ _ (a₁.orderly ho) h₂)
  have a₃ : o.Acts just o₃ := a₂.trans (composes_acts.forM leads_winnerImproved _ _ _ (a₂.orderly ho) h₃)
  have a₄ : o.Acts just o₄ := a₃.trans (composes_acts.forM (leads_addEnforcers he) _ _ _ (a₃.orderly ho) h₄)
  exact ⟨o₄, a₄, hend⟩

omit [Quantity Q] in
/-- What the end of a round finds: all bindings with a new expression, or with a member of a group that
has grown. -/
theorem rediscover_finds (hs : o.memo.outline.Sound) {c : Changes}
    (h : rediscover c o = .ok () o') : o.Finds o' ∧ (o.Synced → ∀ id rule root es,
      o.rules[id]? = some rule → o.isActive id = true → rule.pattern.isWildcard = false →
      o.memo.outline.Binds rule.pattern root es → ∀ e ∈ es,
      (e ∈ c.newExprs ∨ ∃ x g, o.memo.outline.entry e = some (x, g) ∧
        ∃ p ∈ c.merged, o.memo.outline.reduce p.1 = g) →
      (⟨id, es⟩ : Match).key ∈ o'.agenda.seen) := by
  have hindex : ∀ {es : List ExprId} {o₁ o₂ : Optimizer Op Q}, o.Finds o₁ →
      es.forM indexExpr o₁ = .ok () o₂ → o₁.Finds o₂ ∧ (o.Synced → ∀ e ∈ es, ∀ k,
        (∃ id rule root es, o.rules[id]? = some rule ∧ o.isActive id = true ∧
          rule.pattern.isWildcard = false ∧ o.memo.outline.Binds rule.pattern root es ∧
          o.memo.reduceExpr e ∈ es ∧ k = (⟨id, es⟩ : Match).key) → k ∈ o₂.agenda.seen) := by
    intro es o₁ o₂ ho₁ h
    have hall := finds_forM (K := fun e k => o.Synced ∧ ∃ id rule root es,
      o.rules[id]? = some rule ∧ o.isActive id = true ∧ rule.pattern.isWildcard = false ∧
      o.memo.outline.Binds rule.pattern root es ∧ o.memo.reduceExpr e ∈ es ∧
      k = (⟨id, es⟩ : Match).key) (fun e _ o₃ o₄ ho₃ h₃ => ?_) h
    · exact ⟨hall.1, fun hsync e he k hk => hall.2 e he k ⟨hsync, hk⟩⟩
    · have hf : o.Finds o₃ := ho₁.trans ho₃
      have hmemo := hf.memo_eq
      obtain ⟨hfinds, hseen⟩ := indexExpr_finds (hmemo ▸ hs) h₃
      refine ⟨hfinds, ?_⟩
      rintro k ⟨hsync, id, rule, root, es, known, active, wild, hb, hmem, rfl⟩
      exact hseen (hsync.of_frame hf.frame) id rule root es (hf.frame.rules ▸ known)
        ((hf.frame.isActive id).trans active) wild (hmemo ▸ hb) (hmemo ▸ hmem)
  unfold rediscover at h
  obtain ⟨_, o₁, h₁, h₂⟩ := run_bind_eq_ok h
  obtain ⟨hf₁, hnews⟩ := hindex .refl h₁
  have hmerged := finds_forM (K := fun (p : GroupId × GroupId) k => o.Synced ∧
    ∃ e ∈ o.memo.members p.1, ∃ id rule root es, o.rules[id]? = some rule ∧ o.isActive id = true ∧
      rule.pattern.isWildcard = false ∧ o.memo.outline.Binds rule.pattern root es ∧
      o.memo.reduceExpr e ∈ es ∧ k = (⟨id, es⟩ : Match).key) (fun p _ o₂ o₃ ho₂ h₃ => ?_) h₂
  · refine ⟨hf₁.trans hmerged.1, fun hsync id rule root es known active wild hb e he htouch => ?_⟩
    obtain ⟨x, g, hx⟩ := hb.live he
    have hre : o.memo.reduceExpr e = e := hs.names.reduceExpr_of_live (by rw [hx]; rfl)
    have hmem : o.memo.reduceExpr e ∈ es := by rw [hre]; exact he
    rcases htouch with hnew | ⟨x', g', hx', p, hp, hg⟩
    · exact hmerged.1.seen
        (hnews hsync e hnew _ ⟨id, rule, root, es, known, active, wild, hb, hmem, rfl⟩)
    · refine hmerged.2 p hp _
        ⟨hsync, e, ?_, id, rule, root, es, known, active, wild, hb, hmem, rfl⟩
      exact (Memo.mem_members hs).2 ⟨x', by rw [hg, hx']⟩
  · have h₃ := run_get_bind_eq_ok h₃
    have hf : o.Finds o₂ := hf₁.trans ho₂
    obtain ⟨hfinds, hseen⟩ := hindex hf h₃
    refine ⟨hfinds, ?_⟩
    rintro k ⟨hsync, e, he, hk⟩
    exact hseen hsync e (by rw [hf.memo_eq]; exact he) k hk

/-- What the acts of settling keep, and the taking of changes too, settling keeps. -/
theorem settle_keeps {P : Optimizer Op Q → Prop} (he : Enforcing just)
    (order : ∀ o, P o → o.memo.Orderly)
    (forget : ∀ o, P o → P { o with memo := o.memo.forgetChanges })
    (acts : ∀ o o', P o → o.Acts just o' → P o') (h : P o) {fuel : Nat}
    (ok : settle fuel o = .ok () o') : P o' := by
  have hround : ∀ o o' : Optimizer Op Q, P o → settleRound o.memo.changes { o with memo := o.memo.forgetChanges } =
      .ok () o' → P o' := by
    intro o o' h ok
    have htaken := forget o h
    obtain ⟨o₁, hacts, hfind⟩ := settleRound_acts he (order _ htaken) ok
    have hround := acts _ _ htaken hacts
    have hfinds := (rediscover_finds (order _ hround).ordered.tidy.sound hfind).1
    exact acts _ _ hround hfinds.acts
  obtain ⟨o₁, h₁, -, rfl⟩ := settle_induct hround h ok
  exact forget o₁ h₁

/-! ## Firing -/

theorem produce_acts {rule : Rule Op Q} {binding : PlanNode Op} {g : GroupId} {p : Plan Op}
    {product : Product} (hj : just o.memo p (o.memo.reduceGroup g))
    (h : produce rule binding g p o = .ok product o') : o.Acts just o' := by
  obtain ⟨e, m, hm, rfl⟩ := produce_eq_ok h
  exact .of_change (.join hj hm)

/-- The outputs join one after the other; what justifies them has to outlast the joins before. -/
theorem produceAll_acts {rule : Rule Op Q} {binding : PlanNode Op} {g : GroupId} :
    ∀ {outs : List (Plan Op)} {o o' : Optimizer Op Q} {products : List Product}, o.memo.Orderly →
    (∀ p ∈ outs, ∀ o₁, o.Acts just o₁ → just o₁.memo p (o₁.memo.reduceGroup g)) →
    outs.mapM (produce rule binding g) o = .ok products o' → o.Acts just o'
  | [], o, o', products, ho, hj, h => by
    obtain ⟨-, rfl⟩ := run_pure_eq_ok h
    exact .refl
  | p :: outs, o, o', products, ho, hj, h => by
    obtain ⟨product, o₁, products', h₁, h₂, -⟩ := run_mapM_cons_eq_ok h
    have ha := produce_acts (hj p List.mem_cons_self o .refl) h₁
    exact ha.trans (produceAll_acts (ha.orderly ho)
      (fun q hq o₃ ha₃ => hj q (List.mem_cons_of_mem _ hq) o₃ (ha.trans ha₃)) h₂)

/-- A match fires by acts, and then what it leaves is settled. -/
theorem fire_acts {fuel : Nat} {x : Match} (ho : o.memo.Orderly)
    (hj : ∀ rule root more g n outs, o.rules[x.rule]? = some rule → x.exprs = root :: more →
      o.memo.groupOf root = .ok g → rule.pattern.planOfBinding o.memo x.exprs = .ok n →
      rule.apply o.memo n = .ok outs → ∀ p ∈ outs, ∀ o₁, o.Acts just o₁ →
      just o₁.memo p (o₁.memo.reduceGroup g))
    (h : fire fuel x o = .ok () o') : ∃ o₁, o.Acts just o₁ ∧ settle fuel o₁ = .ok () o' := by
  obtain ⟨rule, root, more, g, n, outs, products, o₁, hrule, hx, hg, hn, houts, hjoined, hsettle⟩ := fire_eq_ok h
  refine ⟨_, ?_, hsettle⟩
  have hcounted : o.Acts just (o.firing x.rule) := Acts.of_idle (o.idle_firing x.rule)
  have hjoin := produceAll_acts (hcounted.orderly ho) (fun p hp o₂ ha =>
    hj rule root more g n outs hrule hx hg hn houts p hp o₂ (hcounted.trans ha)) hjoined
  exact (hcounted.trans hjoin).trans (Acts.of_idle (idle_withEvent _ _))

/-! ## Joining for any reason -/

/-- Every plan may join every group, as far as names and places are concerned. -/
def Freely : Just Op Q := fun _ _ _ => True

omit [Operator Op] [Quantity Q] in
theorem enforcing_freely : Enforcing (Freely : Just Op Q) := fun _ _ _ _ _ _ _ _ => trivial

theorem fire_freely {fuel : Nat} {x : Match} (ho : o.memo.Orderly)
    (h : fire fuel x o = .ok () o') : ∃ o₁, o.Acts Freely o₁ ∧ settle fuel o₁ = .ok () o' :=
  fire_acts ho (fun _ _ _ _ _ _ _ _ _ _ _ _ _ _ _ => trivial) h

end Optimizer

end PlanSearch
