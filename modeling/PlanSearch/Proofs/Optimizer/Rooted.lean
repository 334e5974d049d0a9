import PlanSearch.Proofs.Optimizer.Closure
import PlanSearch.Proofs.Optimizer.Soundness

/-!
# Where matches come from

Between seeding and the end of a search, matches are only found through triggers, and these are operands that test a
kind. So no rule fires there whose whole pattern is a wildcard. And whatever waits is a binding, by names that may be
older than those of the memo.

    Used o → the triggers are of rules that test a kind                                         (Used.triggered)
    o.Rooted → o.Advance o' → o'.Rooted                                                          (Rooted.advance)
    o.Waiting → o.Advance o' → o'.Waiting                                                       (Waiting.advance)
-/

namespace PlanSearch

/-- A pattern that has operands tests a kind at its root. -/
theorem Pattern.isWildcard_of_operands {Op : Type} {p : Pattern Op} {d : Nat} {test : KindTest Op} {q : Pattern Op}
    (h : (d, test, q) ∈ p.operands) : p.isWildcard = false := by
  cases p with
  | node => rfl
  | any => cases h
  | anyMany => cases h

namespace Optimizer

variable {Op Q : Type} {o o' : Optimizer Op Q}

/-- The rule is there, and tests the kind of the root. -/
def Tests (o : Optimizer Op Q) (n : Nat) : Prop := ∃ rule, o.rules[n]? = some rule ∧ rule.pattern.isWildcard = false

theorem Tests.of_rules {n : Nat} (h : o.Tests n) (hr : o'.rules = o.rules) : o'.Tests n := by
  unfold Tests
  rwa [hr]

/-! ## The triggers of an optimizer in use -/

variable [Operator Op]

/-- All rules that are found test the kind of the root. -/
def Triggered (o : Optimizer Op Q) : Prop := ∀ op, ∀ c ∈ o.triggers.candidates op, o.Tests c.1

theorem Triggered.of_rulebook (h : o.Triggered) (hr : o'.rulebook = o.rulebook) : o'.Triggered := by
  obtain ⟨hrules, hrest⟩ := Prod.mk.inj hr
  obtain ⟨-, htriggers⟩ := Prod.mk.inj hrest
  intro op c hc
  rw [htriggers] at hc
  exact (h op c hc).of_rules hrules

theorem triggered_new (rules : List (Rule Op Q)) (model : CostModel Op Q) (registry : Registry Op)
    (factRules : List (FactRule Op)) (options : Options) :
    (new rules model registry factRules options).Triggered := by
  intro op c hc
  rcases (mem_candidates_foldl rules.zipIdx .empty).1 hc with hc | ⟨⟨rule, n⟩, hmem, hn, test, q, hq, -⟩
  · rw [TriggerIndex.candidates_empty] at hc
    cases hc
  · exact ⟨rule, hn ▸ List.mk_mem_zipIdx_iff_getElem?.1 hmem, Pattern.isWildcard_of_operands hq⟩

theorem Triggered.addRule [Quantity Q] (h : o.Triggered) (rule : Rule Op Q) :
    ((Optimizer.addRule rule).leave o).Triggered := by
  have hadded : ({ o with triggers := o.triggers.add o.rules.length rule.pattern,
                          rules := o.rules ++ [rule] } : Optimizer Op Q).Triggered := by
    intro op c hc
    rcases TriggerIndex.mem_candidates_add.1 hc with hc | ⟨hn, test, q, hq, -⟩
    · obtain ⟨rule', known, htests⟩ := h op c hc
      have hlt := (List.getElem?_eq_some_iff.1 known).1
      exact ⟨rule', (List.getElem?_append_left hlt).trans known, htests⟩
    · have known : (o.rules ++ [rule])[c.1]? = some rule := by rw [hn, List.getElem?_concat_length]
      exact ⟨rule, known, Pattern.isWildcard_of_operands hq⟩
  refine hadded.of_rulebook ?_
  exact ((steady_matchEverywhere o.rules.length).bind fun _ => Action.steady_pure o.rules.length) _

theorem Triggered.removeRule (h : o.Triggered) (n : Nat) : ((Optimizer.removeRule n).leave o).Triggered := by
  show (Action.leave (if n < o.rules.length then _ else _) o).Triggered
  split
  · exact fun op c hc => h op c (TriggerIndex.mem_candidates_remove.1 hc).1
  · exact h

section Used

variable [Quantity Q]

/-- However an optimizer was used, its triggers are of rules that test the kind of the root. -/
theorem Used.triggered (h : Used o) : o.Triggered := by
  induction h with
  | new rules model registry factRules options => exact triggered_new _ _ _ _ _
  | host _ _ _ _ _ ih => exact ih
  | clear _ ih => exact ih
  | addRule rule _ ih => exact ih.addRule rule
  | removeRule n _ ih => exact ih.removeRule n
  | call call _ ih => exact ih.of_rulebook (call.steady _)

end Used

/-! ## Matches -/

/-- All triggers, and all matches on the agenda, are of rules that test the kind of the root. -/
structure Rooted (o : Optimizer Op Q) : Prop where
  triggers : o.Triggered
  pending : ∀ q ∈ o.agenda.pending, o.Tests q.2.rule

theorem Rooted.of_same (h : o.Rooted) (hr : o'.rules = o.rules) (ht : o'.triggers = o.triggers)
    (hp : ∀ q ∈ o'.agenda.pending, q ∈ o.agenda.pending) : o'.Rooted where
  triggers op c hmem := (h.triggers op c (ht ▸ hmem)).of_rules hr
  pending q hq := (h.pending q (hp q hq)).of_rules hr

theorem Rooted.of_idle (h : o.Rooted) (hi : o.Idle o') : o'.Rooted :=
  h.of_same hi.frame.rules hi.frame.triggers fun _ hq => hi.agenda ▸ hq

/-- Where the action succeeds, it only finds matches of rules that test the kind of the root. -/
def Rooting {α : Type} (x : Action Op Q α) : Prop := ∀ o a o', o.Rooted → x o = .ok a o' → o'.Rooted

theorem composes_rooted : Action.Composes (Rooted : Optimizer Op Q → Prop) fun _ o' => o'.Rooted where
  refl := id
  keeps _ := id
  trans _ := id

theorem rooting_modify {f : Optimizer Op Q → Optimizer Op Q} (hf : ∀ o, Idle o (f o)) :
    Rooting (modify f : Action Op Q PUnit) := by
  intro o a o' ho ok
  cases ok
  exact ho.of_idle (hf o)

theorem rooting_count (f : Stats → Stats) : Rooting (count f : Action Op Q Unit) :=
  rooting_modify fun o => o.idle_count _

theorem rooting_record (e : Event Q) : Rooting (record e : Action Op Q Unit) :=
  rooting_modify fun o => idle_withEvent o e

/-! ## Discovery -/

/-- A match of a rule that tests the kind of the root may be put on the agenda. -/
theorem Rooted.enqueue (h : o.Rooted) {n : Nat} {rule : Rule Op Q} {es : List ExprId} (hn : o.Tests n)
    (ok : enqueue n rule es o = .ok () o') : o'.Rooted := by
  simp only [Optimizer.enqueue] at ok
  have ok := run_get_bind_eq_ok ok
  cases hp : o.agenda.push ⟨n, es⟩ rule.priority with
  | mk agenda accepted =>
    rw [hp] at ok
    cases accepted with
    | false =>
      obtain ⟨-, rfl⟩ := run_pure_eq_ok ok
      exact h
    | true =>
      have ok := run_modify_bind_eq_ok ok
      have hpushed : ({ o with agenda := agenda } : Optimizer Op Q).Rooted := by
        refine ⟨h.triggers, fun q hq => ?_⟩
        have hq : q ∈ agenda.pending := hq
        rw [(Agenda.push_accepted hp).1] at hq
        rcases List.mem_append.1 hq with hq | hq
        · exact h.pending q hq
        · rw [List.mem_singleton.1 hq]
          exact hn
      exact composes_rooted.bind (rooting_count _) (fun _ => rooting_record _) _ () o' hpushed ok

variable [Quantity Q]

theorem Rooted.enqueueAt (h : o.Rooted) {n : Nat} {rule : Rule Op Q} {roots : List ExprId} (hn : o.Tests n)
    (ok : enqueueAt n rule roots o = .ok () o') : o'.Rooted := by
  have hround : ∀ (root : ExprId) (more : List ExprId) (o₁ o₂ : Optimizer Op Q), o₁.Rooted ∧ o₁.Tests n →
      (do let found ← Action.read fun o => rule.pattern.bindings o.memo root
          found.forM (Optimizer.enqueue n rule) : Action Op Q PUnit) o₁ = .ok () o₂ → o₂.Rooted ∧ o₂.Tests n := by
    intro root _ o₁ o₂ h₁ ok₁
    obtain ⟨found, -, ok₁⟩ := Action.read_bind_eq_ok ok₁
    refine run_forM_invariant (fun _ o => o.Rooted ∧ o.Tests n) (fun es _ o₃ o₄ h₃ ok₃ => ?_) ok₁ h₁
    have hrules : o₄.rules = o₃.rules := congrArg Prod.fst ((steady_enqueue n rule es).rulebook_eq ok₃)
    exact ⟨h₃.1.enqueue h₃.2 ok₃, h₃.2.of_rules hrules⟩
  exact (run_forM_invariant (fun _ o => o.Rooted ∧ o.Tests n) hround ok ⟨h, hn⟩).1

/-- What an expression takes part in is found through the triggers. -/
theorem rooting_indexExpr (e : ExprId) : Rooting (indexExpr e : Action Op Q Unit) := by
  refine composes_rooted.bind (composes_rooted.read _) fun x o _ o' ho ok => ?_
  have ok := run_get_bind_eq_ok ok
  have hcandidates : ∀ c ∈ o.triggers.candidates x.op, o.Tests c.1 := ho.triggers x.op
  refine (run_forM_invariant (fun cs o => o.Rooted ∧ ∀ c ∈ cs, o.Tests c.1) (fun c cs o₁ o₂ h₁ ok₁ => ?_) ok
    ⟨ho, hcandidates⟩).1
  obtain ⟨h₁, htests⟩ := h₁
  obtain ⟨hc, hcs⟩ := List.forall_mem_cons.1 htests
  have ok₁ := run_get_bind_eq_ok ok₁
  split at ok₁
  · obtain ⟨rule, -, ok₁⟩ := Action.read_bind_eq_ok ok₁
    obtain ⟨roots, -, ok₁⟩ := Action.read_bind_eq_ok ok₁
    have hrules : o₂.rules = o₁.rules := congrArg Prod.fst ((steady_enqueueAt c.1 rule roots).rulebook_eq ok₁)
    exact ⟨h₁.enqueueAt hc ok₁, fun c' hc' => (hcs c' hc').of_rules hrules⟩
  · obtain ⟨-, rfl⟩ := run_pure_eq_ok ok₁
    exact ⟨h₁, hcs⟩

/-! ## Settling -/

theorem rooting_priceExpr (e : ExprId) : Rooting (priceExpr e : Action Op Q Unit) := by
  intro o _ o' ho ok
  cases priceExpr_eq_ok ok with
  | skipped => exact ho
  | recorded => exact ho.of_same rfl rfl fun _ => id

theorem rooting_addChain (g : GroupId) : ∀ ns : List (PlanNode Op),
    Rooting (addChain g ns : Action Op Q (List ExprId))
  | [] => composes_rooted.pure _
  | _ :: ns => Action.Ensures.get_bind fun _ => composes_rooted.bind
      (Action.ensures_onMemoAt fun _ _ _ ho _ => ho.of_same rfl rfl fun _ => id)
      fun _ => composes_rooted.bind (rooting_addChain g ns) fun _ => composes_rooted.pure _

theorem rooting_convertWithin (g : GroupId) (actual required : TraitSet) :
    Rooting (convertWithin g actual required : Action Op Q Unit) := by
  intro o _ o' ho ok
  cases convertWithin_eq_ok ok with
  | idle => exact ho
  | vain => exact ho.of_idle (idle_attempting _ _ _ _)
  | chained _ _ _ _ added =>
    refine .of_idle (rooting_addChain _ _ _ _ _ ?_ added) (idle_enforced _ _ _ _ _)
    exact ho.of_same rfl rfl fun _ => id

theorem rooting_settleRound (c : Changes) : Rooting (settleRound c : Action Op Q Unit) :=
  composes_rooted.settleRound (fun _ _ => composes_rooted.bind (rooting_count _) fun _ => rooting_record _)
    rooting_priceExpr (composes_rooted.winnerImproved rooting_record rooting_priceExpr)
    (composes_rooted.addEnforcers rooting_convertWithin) rooting_indexExpr (rooting_modify fun o => o.idle_renewed c)

theorem rooting_settle : ∀ fuel, Rooting (settle fuel : Action Op Q Unit)
  | 0 => fun _ _ _ _ ok => by cases ok
  | fuel + 1 => by
    refine composes_rooted.bind (fun o c o' ho ok => ?_) fun c => ?_
    · cases ok
      exact ho.of_same rfl rfl fun _ => id
    · split
      · exact composes_rooted.read _
      · exact composes_rooted.bind (rooting_settleRound c) fun _ => rooting_settle fuel

/-! ## Searching -/

theorem Rooted.fire (h : o.Rooted) {fuel : Nat} {x : Match} (ok : fire fuel x o = .ok () o') : o'.Rooted := by
  obtain ⟨rule, root, more, g, n, outs, products, o₁, -, -, -, -, -, hproduced, hsettle⟩ := fire_eq_ok ok
  obtain ⟨m, rfl⟩ := produceAll_eq_ok hproduced
  have h₁ : ({ o.firing x.rule with memo := m } : Optimizer Op Q).Rooted := h.of_same rfl rfl fun _ => id
  exact rooting_settle fuel _ () o' (h₁.of_idle (idle_withEvent _ _)) hsettle

theorem Rooted.dispatched (h : o.Rooted) {fuel : Nat} {x : Match} {fires : Bool}
    (hd : Dispatched fuel x o fires o') : o'.Rooted := by
  cases hd with
  | dropped => exact h
  | forgotten => exact h.of_same rfl rfl fun _ => id
  | full _ agenda frame => exact h.of_same frame.rules frame.triggers fun _ hq => agenda ▸ hq
  | fired _ ok => exact h.fire ok

omit [Quantity Q] in
/-- A match that is taken leaves fewer. -/
theorem Rooted.taken (h : o.Rooted) {x : Match} {agenda : Agenda} (next : o.agenda.pop? = some (x, agenda)) :
    o.Tests x.rule ∧ ({ o with agenda := agenda } : Optimizer Op Q).Rooted := by
  obtain ⟨priority, hperm, -⟩ := Agenda.pop?_eq_some next
  exact ⟨h.pending (priority, x) (hperm.mem_iff.2 List.mem_cons_self),
    h.of_same rfl rfl fun q hq => hperm.mem_iff.2 (List.mem_cons_of_mem _ hq)⟩

theorem Rooted.advance (h : o.Rooted) (ha : o.Advance o') : o'.Rooted := by
  cases ha with
  | stop ok =>
    obtain ⟨-, agenda, -, frame⟩ := exhaust_spec ok
    exact h.of_same frame.rules frame.triggers fun _ hq => agenda ▸ hq
  | turn next ok =>
    obtain ⟨fires, hd⟩ := dispatch_spec ok
    exact (h.taken next).2.dispatched hd

/-- Where an optimizer in use is cleared and seeded, matches are only found through triggers. -/
theorem Rooted.seed (hb : o.Blank) (ht : o.Triggered) {fuel : Nat} {plan : PlanNode Op} {required : TraitSet}
    {g : GroupId} (ok : seed fuel plan required o = .ok g o') : o'.Rooted := by
  obtain ⟨g₀, e, s, m₁, m₂, o₂, -, -, hsettle, rfl, -⟩ := seed_spec ok
  obtain ⟨order, hagenda⟩ := hb.agenda
  have hseeded : ({ o with phase := .seeding, memo := m₂, root := some ⟨g₀, required⟩, seedPlan := some plan } :
      Optimizer Op Q).Rooted := by
    refine ⟨ht, fun q hq => ?_⟩
    rw [show ({ o with phase := .seeding, memo := m₂, root := some ⟨g₀, required⟩, seedPlan := some plan } :
      Optimizer Op Q).agenda = o.agenda from rfl, hagenda] at hq
    cases hq
  exact (rooting_settle fuel _ () o₂ hseeded hsettle).of_same rfl rfl fun _ => id

/-! ## Bindings -/

/-- All matches on the agenda are bindings, by whatever names. -/
structure Waiting (o : Optimizer Op Q) : Prop where
  reached : o.memo.Reached
  bound : ∀ q ∈ o.agenda.pending, o.Bound q.2

theorem Waiting.later (h : o.Waiting) (hr : o'.rules = o.rules) (hm : o'.memo.Reached)
    (he : o.memo.outline.Evolves [] o'.memo.outline []) (hp : ∀ q ∈ o'.agenda.pending, q ∈ o.agenda.pending) :
    o'.Waiting :=
  ⟨hm, fun q hq => (h.bound q (hp q hq)).later hr he hm.orderly.ordered.tidy.sound⟩

theorem Waiting.of_memo (h : o.Waiting) (hm : o'.memo = o.memo) (hr : o'.rules = o.rules)
    (hp : ∀ q ∈ o'.agenda.pending, q ∈ o.agenda.pending) : o'.Waiting := by
  refine h.later hr (hm ▸ h.reached) ?_ hp
  rw [hm]
  exact .refl h.reached.orderly.ordered.tidy.sound.names

theorem Waiting.act {just : Just Op Q} (h : o.Waiting) (ha : o.Act just o') : o'.Waiting := by
  cases ha with
  | find find =>
    cases find with
    | idle memo agenda frame => exact h.of_memo memo frame.rules fun _ hq => agenda ▸ hq
    | @push n rule e es agenda known active binds pushed =>
      refine ⟨h.reached, fun q hq => ?_⟩
      have hq : q ∈ agenda.pending := hq
      rw [(Agenda.push_accepted pushed).1] at hq
      rcases List.mem_append.1 hq with hq | hq
      · exact h.bound q hq
      · rw [List.mem_singleton.1 hq]
        have hlive : es.map o.memo.reduceExpr = es := binds.map_reduceExpr h.reached.orderly.ordered.tidy.sound.names
        exact ⟨rule, e, known, hlive.symm ▸ binds⟩
  | change change =>
    exact h.later rfl (.call h.reached change.call) (change.call.evolves h.reached.orderly) fun _ => id

theorem Waiting.acts {just : Just Op Q} (h : o.Waiting) (ha : o.Acts just o') : o'.Waiting := by
  induction ha with
  | refl => exact h
  | tail _ ha ih => exact ih.act ha

theorem Waiting.settle (h : o.Waiting) {fuel : Nat} (ok : settle fuel o = .ok () o') : o'.Waiting :=
  settle_keeps enforcing_freely (fun _ h => h.reached.orderly)
    (fun _ h => h.later rfl (.call h.reached .forgetChanges) h.reached.orderly.ordered.tidy.evolves_forget fun _ => id)
    (fun _ _ h ha => h.acts ha) h ok

theorem Waiting.dispatched (h : o.Waiting) {fuel : Nat} {x : Match} {fires : Bool}
    (hd : Dispatched fuel x o fires o') : o'.Waiting := by
  cases hd with
  | dropped => exact h
  | forgotten => exact h.of_memo rfl rfl fun _ => id
  | full memo agenda frame => exact h.of_memo memo frame.rules fun _ hq => agenda ▸ hq
  | fired _ ok =>
    obtain ⟨o₁, hacts, hsettle⟩ := fire_freely h.reached.orderly ok
    exact (h.acts hacts).settle hsettle

theorem Waiting.taken (h : o.Waiting) {x : Match} {agenda : Agenda} (next : o.agenda.pop? = some (x, agenda)) :
    o.Bound x ∧ ({ o with agenda := agenda } : Optimizer Op Q).Waiting := by
  obtain ⟨priority, hperm, -⟩ := Agenda.pop?_eq_some next
  exact ⟨h.bound (priority, x) (hperm.mem_iff.2 List.mem_cons_self),
    h.of_memo rfl rfl fun q hq => hperm.mem_iff.2 (List.mem_cons_of_mem _ hq)⟩

theorem Waiting.advance (h : o.Waiting) (ha : o.Advance o') : o'.Waiting := by
  cases ha with
  | stop ok =>
    obtain ⟨memo, agenda, -, frame⟩ := exhaust_spec ok
    exact h.of_memo memo frame.rules fun _ hq => agenda ▸ hq
  | turn next ok =>
    obtain ⟨fires, hd⟩ := dispatch_spec ok
    exact (h.taken next).2.dispatched hd

/-- From its seed on, all that waits are bindings. -/
theorem Waiting.seed (hb : o.Blank) {fuel : Nat} {plan : PlanNode Op} {required : TraitSet} {g : GroupId}
    (ok : seed fuel plan required o = .ok g o') : o'.Waiting := by
  obtain ⟨g₀, e, s, m₁, m₂, o₂, hadd, hask, hsettle, rfl, -⟩ := seed_spec ok
  obtain ⟨order, hagenda⟩ := hb.agenda
  have hseeded : ({ o with phase := .seeding, memo := m₂, root := some ⟨g₀, required⟩, seedPlan := some plan } :
      Optimizer Op Q).Waiting := by
    refine ⟨.call (.call hb.reached (.add hadd)) (.ensureSubGroup hask), fun q hq => ?_⟩
    rw [show ({ o with phase := .seeding, memo := m₂, root := some ⟨g₀, required⟩, seedPlan := some plan } :
      Optimizer Op Q).agenda = o.agenda from rfl, hagenda] at hq
    cases hq
  exact (hseeded.settle hsettle).of_memo rfl rfl fun _ => id

end Optimizer

end PlanSearch
