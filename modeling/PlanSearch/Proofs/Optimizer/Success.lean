import PlanSearch.Optimizer.Search
import PlanSearch.Proofs.Steps

/-!
# Actions that succeed

Where an action succeeds, so has all that it reads and calls, and it is known where it ends. This is said once for each
function. What an action ensures may depend on the state it starts from; loops and sequences ensure what their parts do,
if that adds up from one to the next.

    priceExpr e o = .ok () o' → Priced e o o'                                                        (priceExpr_eq_ok)
    convertWithin g a r o = .ok () o' → Converting g a r o o'                                    (convertWithin_eq_ok)
    fire fuel x o = .ok () o' → the outputs join, and then settle …  = .ok () o'                          (fire_eq_ok)
    Composes pre post → Ensures pre post (priceExpr _) → Ensures pre post (winnerImproved s)  (Composes.winnerImproved)
    (every round keeps before) → before o → settle fuel o = .ok () o' → before holds where there are no notes left
                                                                                                       (settle_induct)
-/

namespace PlanSearch

variable {Op Q α β : Type}

namespace Action

variable {o o' : Optimizer Op Q} {b : β}

/-! ## Parts of actions -/

theorem read_bind_eq_ok {f : Optimizer Op Q → Except Failure α} {k : α → Action Op Q β}
    (h : (Action.read f >>= k) o = .ok b o') : ∃ a, f o = .ok a ∧ k a o = .ok b o' := by
  obtain ⟨a, o₁, h₁, h₂⟩ := run_bind_eq_ok h
  unfold Action.read at h₁
  split at h₁
  · next hf => cases h₁; exact ⟨a, hf, h₂⟩
  · cases h₁

/-- What follows a look at the state need only do the same for the answer that there is. -/
theorem read_bind_congr {f : Optimizer Op Q → Except Failure α} {k k' : α → Action Op Q β}
    (h : ∀ a, f o = .ok a → k a o = k' a o) : (Action.read f >>= k) o = (Action.read f >>= k') o := by
  cases hf : f o with
  | error e =>
    have hread : Action.read f o = .error (.ofFailure none e) o := by
      unfold Action.read
      rw [hf]
    rw [run_bind_of_error hread, run_bind_of_error hread]
  | ok a =>
    have hread : Action.read f o = .ok a o := by
      unfold Action.read
      rw [hf]
    rw [run_bind_of_ok hread, run_bind_of_ok hread]
    exact h a hf

theorem onMemoAt_eq_ok {site : Option RuleSite} {u : Update Op Q α} {a : α}
    (h : onMemoAt site u o = .ok a o') : ∃ m, u o.memo = .ok a m ∧ o' = { o with memo := m } := by
  unfold onMemoAt at h
  split at h
  · next m hu => cases h; exact ⟨m, hu, rfl⟩
  · cases h

theorem set_bind_eq_ok {k : PUnit → Action Op Q β} {o₁ : Optimizer Op Q}
    (h : ((set o₁ : Action Op Q PUnit) >>= k) o = .ok b o') : k ⟨⟩ o₁ = .ok b o' := by
  obtain ⟨a, o₂, h₁, h₂⟩ := run_bind_eq_ok h
  cases h₁
  exact h₂

/-! ## What actions ensure -/

/-- Where the action succeeds from a state as in `pre`, `post` relates that state to where it ends. -/
def Ensures (pre : Optimizer Op Q → Prop) (post : Optimizer Op Q → Optimizer Op Q → Prop) (x : Action Op Q α) : Prop :=
  ∀ o a o', pre o → x o = .ok a o' → post o o'

/-- What one action ensures and then another one, the two ensure together. -/
structure Composes (pre : Optimizer Op Q → Prop) (post : Optimizer Op Q → Optimizer Op Q → Prop) : Prop where
  refl : ∀ {o}, pre o → post o o
  keeps : ∀ {o o'}, pre o → post o o' → pre o'
  trans : ∀ {o o' o''}, post o o' → post o' o'' → post o o''

variable {pre : Optimizer Op Q → Prop} {post : Optimizer Op Q → Optimizer Op Q → Prop}

theorem Ensures.get_bind {f : Optimizer Op Q → Action Op Q β} (hf : ∀ o, Ensures pre post (f o)) :
    Ensures pre post ((get : Action Op Q (Optimizer Op Q)) >>= f) :=
  fun o b o' ho ok => hf o o b o' ho (run_get_bind_eq_ok ok)

theorem ensures_onMemoAt {site : Option RuleSite} {u : Update Op Q α}
    (hu : ∀ o a m, pre o → u o.memo = .ok a m → post o { o with memo := m }) : Ensures pre post (onMemoAt site u) := by
  intro o a o' ho ok
  obtain ⟨m, hm, rfl⟩ := onMemoAt_eq_ok ok
  exact hu o a m ho hm

namespace Composes

variable (h : Composes pre post)

include h

theorem pure (a : α) : Ensures pre post (Pure.pure a : Action Op Q α) := by
  intro o b o' ho ok
  obtain ⟨-, rfl⟩ := run_pure_eq_ok ok
  exact h.refl ho

theorem bind {x : Action Op Q α} {f : α → Action Op Q β} (hx : Ensures pre post x)
    (hf : ∀ a, Ensures pre post (f a)) : Ensures pre post (x >>= f) := by
  intro o b o' ho ok
  obtain ⟨a, o₁, h₁, h₂⟩ := run_bind_eq_ok ok
  have hfirst := hx o a o₁ ho h₁
  exact h.trans hfirst (hf a o₁ b o' (h.keeps ho hfirst) h₂)

theorem read (f : Optimizer Op Q → Except Failure α) : Ensures pre post (Action.read f) := by
  intro o a o' ho ok
  unfold Action.read at ok
  split at ok
  · cases ok
    exact h.refl ho
  · cases ok

theorem forM {f : β → Action Op Q PUnit} {bs : List β} (hf : ∀ b, Ensures pre post (f b)) :
    Ensures pre post (bs.forM f) := by
  induction bs with
  | nil => exact h.pure _
  | cons b bs ih => exact h.bind (hf b) fun _ => ih

end Composes

end Action

namespace Optimizer

open PlanSearch.Action

variable [Operator Op] [Quantity Q] {o o' : Optimizer Op Q}

/-! ## Notes -/

section Notes

omit [Operator Op] [Quantity Q]

/-- The optimizer with row counts that it got to know when it asked what an expression costs. -/
def asked (o : Optimizer Op Q) (cache : RowCache Q) : Optimizer Op Q :=
  { o with rowCache := cache, stats := { o.stats with costed := o.stats.costed + 1 } }

/-- The optimizer with an attempt at a conversion noted. -/
def attempting (o : Optimizer Op Q) (g : GroupId) (actual required : TraitSet) : Optimizer Op Q :=
  { o with attempted := o.attempted ++ [(o.memo.reduceGroup g, actual, required)] }

/-- The optimizer with one more chain of enforcers counted, and recorded. -/
def enforced (o : Optimizer Op Q) (g : GroupId) (actual required : TraitSet) (es : List ExprId) : Optimizer Op Q :=
  ({ o with stats := { o.stats with enforcers := o.stats.enforcers + 1 } }).withEvent
    (.addEnforcer g actual required es)

/-- The optimizer with one more match counted. -/
def firing (o : Optimizer Op Q) (rule : Nat) : Optimizer Op Q :=
  { o with
    steps := o.steps + 1
    stats := { o.stats with applied := o.stats.applied + 1, fired := Stats.bump o.stats.fired rule } }

end Notes

/-! ## Prices -/

/-- What comes of pricing an expression. -/
inductive Priced (e : ExprId) (o : Optimizer Op Q) : Optimizer Op Q → Prop
  | skipped {x : Expr Op} (known : o.memo.getExpr e = .ok x)
      (reason : Operator.isLogical x.op = true ∨ inputCosts o.memo x = .ok none) : Priced e o o
  | recorded {x : Expr Op} {costs : List (Cost Q)} {site : ExprSite} {operation : Cost Q} {cache : RowCache Q}
      {m : Memo Op Q} (known : o.memo.getExpr e = .ok x) (physical : Operator.isLogical x.op = false)
      (fed : inputCosts o.memo x = .ok (some costs))
      (charged : (o.model.operationCost x costs site).eval o.memo o.model o.rowCache = (.ok operation, cache))
      (price : Memo.recordPrice e ⟨o.model.sum operation costs, o.model.weight (o.model.sum operation costs)⟩ o.memo =
        .ok m) :
      Priced e o { o.asked cache with memo := m }

theorem priceExpr_eq_ok {e : ExprId} (ok : priceExpr e o = .ok () o') : Priced e o o' := by
  obtain ⟨x, hx, ok⟩ := Action.read_bind_eq_ok ok
  split at ok
  · next hphysical =>
    obtain ⟨costs, hcosts, ok⟩ := Action.read_bind_eq_ok ok
    cases costs with
    | none =>
      obtain ⟨-, rfl⟩ := run_pure_eq_ok ok
      exact .skipped hx (.inr hcosts)
    | some costs =>
      obtain ⟨g, -, ok⟩ := Action.read_bind_eq_ok ok
      have ok := run_get_bind_eq_ok ok
      cases hev : (o.model.operationCost x costs ⟨g, e⟩).eval o.memo o.model o.rowCache with
      | mk answer cache =>
        simp only [hev] at ok
        cases answer with
        | error f => cases ok
        | ok operation =>
          obtain ⟨m, hm, rfl⟩ := Action.onMemoAt_eq_ok (Action.set_bind_eq_ok ok)
          unfold Update.step at hm
          split at hm
          · next hrecord =>
            cases hm
            exact .recorded hx (by simpa using hphysical) hcosts hev hrecord
          · cases hm
  · next hlogical =>
    obtain ⟨-, rfl⟩ := run_pure_eq_ok ok
    exact .skipped hx (.inl (by simpa using hlogical))

/-! ## Enforcers -/

/-- A conversion was attempted before, for trait sets that are the same. -/
def Tried (o : Optimizer Op Q) (g : GroupId) (actual required : TraitSet) : Prop :=
  ∃ a r, (o.memo.reduceGroup g, a, r) ∈ o.attempted ∧ a.Same actual ∧ r.Same required

/-- What comes of an attempt at a conversion. -/
inductive Converting (g : GroupId) (actual required : TraitSet) (o : Optimizer Op Q) : Optimizer Op Q → Prop
  | idle (reason : o.memo.registry.satisfies actual required = true ∨ o.Tried g actual required) :
      Converting g actual required o o
  | vain {group : Group} (new : ¬ o.Tried g actual required)
      (known : o.memo.getGroup (o.memo.reduceGroup g) = .ok group)
      (none : o.memo.registry.convert ⟨o.memo.reduceGroup g, actual⟩ group.rowType actual required = .ok none) :
      Converting g actual required o (o.attempting g actual required)
  | chained {group : Group} {ns : List (PlanNode Op)} {s : SubGroupId} {m : Memo Op Q} {es : List ExprId}
      {o₁ : Optimizer Op Q} (new : ¬ o.Tried g actual required)
      (known : o.memo.getGroup (o.memo.reduceGroup g) = .ok group)
      (chain : o.memo.registry.convert ⟨o.memo.reduceGroup g, actual⟩ group.rowType actual required = .ok (some ns))
      (asked : Memo.ensureSubGroup ⟨o.memo.reduceGroup g, actual⟩ false o.memo = .ok s m)
      (added : addChain (o.memo.reduceGroup g) ns { o.attempting g actual required with memo := m } = .ok es o₁) :
      Converting g actual required o (o₁.enforced (o.memo.reduceGroup g) actual required es)

omit [Operator Op] [Quantity Q] in
theorem tried_iff {g : GroupId} {actual required : TraitSet} :
    (o.attempted.any fun (h, a, r) =>
      h = o.memo.reduceGroup g && decide (a.Same actual) && decide (r.Same required)) = true ↔
    o.Tried g actual required := by
  simp only [List.any_eq_true, Bool.and_eq_true, decide_eq_true_eq]
  constructor
  · rintro ⟨⟨k, a, r⟩, hmem, ⟨rfl, ha⟩, hr⟩
    exact ⟨a, r, hmem, ha, hr⟩
  · rintro ⟨a, r, hmem, ha, hr⟩
    exact ⟨_, hmem, ⟨rfl, ha⟩, hr⟩

theorem convertWithin_eq_ok {g : GroupId} {actual required : TraitSet}
    (ok : convertWithin g actual required o = .ok () o') : Converting g actual required o o' := by
  have ok := run_get_bind_eq_ok ok
  dsimp only at ok
  split at ok
  · next hnew =>
    rw [Bool.and_eq_true, Bool.not_eq_true', Bool.not_eq_true', ← Bool.not_eq_true (List.any _ _), tried_iff] at hnew
    obtain ⟨group, hgroup, ok⟩ := Action.read_bind_eq_ok (Action.set_bind_eq_ok ok)
    cases hns : o.memo.registry.convert ⟨o.memo.reduceGroup g, actual⟩ group.rowType actual required with
    | error f =>
      simp only [hns] at ok
      cases ok
    | ok ns =>
      simp only [hns] at ok
      cases ns with
      | none =>
        obtain ⟨-, rfl⟩ := run_pure_eq_ok ok
        exact .vain hnew.2 hgroup hns
      | some ns =>
        obtain ⟨s, o₁, hasked, ok₁⟩ := run_bind_eq_ok ok
        obtain ⟨es, o₂, hadded, hnoted⟩ := run_bind_eq_ok ok₁
        obtain ⟨m, hm, rfl⟩ := Action.onMemoAt_eq_ok hasked
        cases hnoted
        exact .chained hnew.2 hgroup hns hm hadded
  · next hno =>
    obtain ⟨-, rfl⟩ := run_pure_eq_ok ok
    rw [Bool.and_eq_true, Decidable.not_and_iff_not_or_not, Bool.not_eq_true', Bool.not_eq_false, Bool.not_eq_true',
      Bool.not_eq_false, tried_iff] at hno
    exact .idle hno

/-- A chain begins with one enforcer that joins the group. -/
theorem addChain_cons_eq_ok {g : GroupId} {n : PlanNode Op} {ns : List (PlanNode Op)} {es : List ExprId}
    (ok : addChain g (n :: ns) o = .ok es o') : ∃ e m es', Memo.addEnforcer n (o.memo.reduceGroup g) o.memo = .ok e m ∧
      addChain g ns { o with memo := m } = .ok es' o' ∧ es = e.toList ++ es' := by
  have ok := run_get_bind_eq_ok ok
  obtain ⟨e, o₁, h₁, ok⟩ := run_bind_eq_ok ok
  obtain ⟨es', o₂, h₂, ok⟩ := run_bind_eq_ok ok
  obtain ⟨rfl, rfl⟩ := run_pure_eq_ok ok
  obtain ⟨m, hm, rfl⟩ := Action.onMemoAt_eq_ok h₁
  exact ⟨e, m, es', hm, h₂, rfl⟩

/-! ## Rounds -/

omit [Operator Op] [Quantity Q] in
/-- The optimizer at the start of a round: row counts are only good until groups merge. -/
def renewed (o : Optimizer Op Q) (c : Changes) : Optimizer Op Q :=
  if c.merged.isEmpty then o else { o with rowCache := ∅ }

/-- The end of a round: discovery, from the expressions that are new and from the members of the groups
that have grown. -/
def rediscover (c : Changes) : Action Op Q Unit := do
  c.newExprs.forM indexExpr
  c.merged.forM fun (kept, _) => do
    ((← get).memo.members kept).forM indexExpr

/-- All of a round that comes after its start. -/
def followUp (c : Changes) : Action Op Q Unit := do
  c.merged.forM fun p => noteMerge p.1 p.2
  c.newExprs.forM priceExpr
  let improved := (c.improved.map (← get).memo.reduceSubGroup).eraseDups
  improved.forM winnerImproved
  let affected ← Action.read fun o => affectedGroups o.memo c
  affected.forM addEnforcers
  rediscover c

theorem settleRound_eq (c : Changes) :
    (settleRound c : Action Op Q Unit) = modify (fun o => o.renewed c) >>= fun _ => followUp c := by
  funext o
  unfold settleRound renewed
  cases c.merged.isEmpty <;> rfl

/-- A round prices what is new, then what reads the improved, then adds enforcers, and then discovers. -/
theorem settleRound_eq_ok {c : Changes} (ok : settleRound c o = .ok () o') : ∃ o₁ o₂ o₃ o₄ affected,
    c.merged.forM (fun p => noteMerge p.1 p.2) (o.renewed c) = .ok () o₁ ∧ c.newExprs.forM priceExpr o₁ = .ok () o₂ ∧
    ((c.improved.map o₂.memo.reduceSubGroup).eraseDups).forM winnerImproved o₂ = .ok () o₃ ∧
    affectedGroups o₃.memo c = .ok affected ∧ affected.forM addEnforcers o₃ = .ok () o₄ ∧
    rediscover c o₄ = .ok () o' := by
  rw [settleRound_eq] at ok
  obtain ⟨_, o₁, h₁, ok⟩ := run_bind_eq_ok (run_modify_bind_eq_ok ok)
  obtain ⟨_, o₂, h₂, ok⟩ := run_bind_eq_ok ok
  have ok := run_get_bind_eq_ok ok
  obtain ⟨_, o₃, h₃, ok⟩ := run_bind_eq_ok ok
  obtain ⟨affected, haffected, ok⟩ := Action.read_bind_eq_ok ok
  obtain ⟨_, o₄, h₄, ok⟩ := run_bind_eq_ok ok
  exact ⟨o₁, o₂, o₃, o₄, affected, h₁, h₂, h₃, haffected, h₄, ok⟩

/-- What every round keeps holds when there are no notes left. -/
theorem settle_induct {before : Optimizer Op Q → Prop} (round : ∀ o o' : Optimizer Op Q, before o →
      settleRound o.memo.changes { o with memo := o.memo.forgetChanges } = .ok () o' → before o')
    (h : before o) {fuel : Nat} (ok : settle fuel o = .ok () o') :
    ∃ o₁, before o₁ ∧ o₁.memo.changes.isEmpty = true ∧ { o₁ with memo := o₁.memo.forgetChanges } = o' := by
  induction fuel generalizing o with
  | zero => cases ok
  | succ fuel ih =>
    rw [settle] at ok
    obtain ⟨c, o₁, h₁, h₂⟩ := run_bind_eq_ok ok
    cases h₁
    split at h₂
    · next hempty =>
      refine ⟨o, h, hempty, ?_⟩
      unfold Action.read at h₂
      split at h₂
      · cases h₂
        rfl
      · cases h₂
    · obtain ⟨_, o₂, h₃, h₄⟩ := run_bind_eq_ok h₂
      exact ih (round o o₂ h h₃) h₄

/-! ## Firing -/

/-- An output joins the group, and nothing else happens. -/
theorem produce_eq_ok {rule : Rule Op Q} {binding : PlanNode Op} {g : GroupId} {p : Plan Op} {product : Product}
    (h : produce rule binding g p o = .ok product o') :
    ∃ e m, Memo.addTo p (o.memo.reduceGroup g) o.memo = .ok e m ∧ o' = { o with memo := m } := by
  have h := run_get_bind_eq_ok h
  obtain ⟨group, -, h⟩ := Action.read_bind_eq_ok h
  obtain ⟨produced, -, h⟩ := Action.read_bind_eq_ok h
  split at h
  · cases h
  · have h := run_get_bind_eq_ok h
    obtain ⟨e, o₁, h₁, h₂⟩ := run_bind_eq_ok h
    obtain ⟨m, hm, rfl⟩ := Action.onMemoAt_eq_ok h₁
    refine ⟨e, m, hm, ?_⟩
    cases e with
    | some e => exact (run_pure_eq_ok h₂).2.symm
    | none =>
      cases hr : p.asGroup? with
      | none => simp only [hr] at h₂; exact (run_pure_eq_ok h₂).2.symm
      | some r => simp only [hr] at h₂; exact (run_pure_eq_ok h₂).2.symm

/-- The outputs join the group, and nothing else happens. -/
theorem produceAll_eq_ok {rule : Rule Op Q} {binding : PlanNode Op} {g : GroupId} :
    ∀ {outs : List (Plan Op)} {o o' : Optimizer Op Q} {products : List Product},
    outs.mapM (produce rule binding g) o = .ok products o' → ∃ m, o' = { o with memo := m }
  | [], o, o', products, ok => by
    obtain ⟨-, rfl⟩ := run_pure_eq_ok ok
    exact ⟨_, rfl⟩
  | p :: outs, o, o', products, ok => by
    obtain ⟨product, o₁, products', h₁, h₂, -⟩ := run_mapM_cons_eq_ok ok
    obtain ⟨e, m, -, rfl⟩ := produce_eq_ok h₁
    obtain ⟨m', rfl⟩ := produceAll_eq_ok h₂
    exact ⟨m', rfl⟩

omit [Operator Op] [Quantity Q] in
theorem getRule_eq_ok {id : Nat} {rule : Rule Op Q} (h : o.getRule id = .ok rule) :
    o.rules[id]? = some rule := by
  unfold getRule at h
  split at h
  · next hr => cases h; exact hr
  · cases h

/-- A match fires by the joins of what its rule makes of it, and then what this leaves is settled. -/
theorem fire_eq_ok {fuel : Nat} {x : Match} (ok : fire fuel x o = .ok () o') :
    ∃ rule root more g n outs products o₁, o.rules[x.rule]? = some rule ∧ x.exprs = root :: more ∧
      o.memo.groupOf root = .ok g ∧ rule.pattern.planOfBinding o.memo x.exprs = .ok n ∧
      rule.apply o.memo n = .ok outs ∧ outs.mapM (produce rule n g) (o.firing x.rule) = .ok products o₁ ∧
      settle fuel (o₁.withEvent (.applyRule x.rule rule.name g x.exprs products)) = .ok () o' := by
  obtain ⟨rule, hrule, ok⟩ := Action.read_bind_eq_ok ok
  cases hx : x.exprs with
  | nil => simp only [hx] at ok; cases ok
  | cons root more =>
    simp only [hx] at ok
    obtain ⟨g, hg, ok⟩ := Action.read_bind_eq_ok ok
    obtain ⟨n, hn, ok⟩ := Action.read_bind_eq_ok ok
    have ok := run_modify_bind_eq_ok ok
    have ok := run_modify_bind_eq_ok ok
    have ok := run_get_bind_eq_ok ok
    cases houts : rule.apply o.memo n with
    | error f => simp only [houts] at ok; cases ok
    | ok outs =>
      simp only [houts] at ok
      obtain ⟨products, o₁, h₁, ok⟩ := run_bind_eq_ok ok
      have ok := run_modify_bind_eq_ok ok
      exact ⟨rule, root, more, g, n, outs, products, o₁, getRule_eq_ok hrule, rfl, hg, hn, houts, h₁, ok⟩

end Optimizer

namespace Action

/-! ## What settling ensures -/

variable [Operator Op] [Quantity Q] {pre : Optimizer Op Q → Prop} {post : Optimizer Op Q → Optimizer Op Q → Prop}

/-- What pricing and recording ensure, so does the pricing of readers. -/
theorem Composes.winnerImproved (h : Composes pre post) (hrecord : ∀ e, Ensures pre post (Optimizer.record e))
    (hprice : ∀ e, Ensures pre post (Optimizer.priceExpr e)) (s : SubGroupId) :
    Ensures pre post (Optimizer.winnerImproved s) := by
  refine h.bind (h.read _) fun sub => ?_
  split
  · exact h.pure _
  · refine h.bind (hrecord _) fun _ => h.bind (h.read _) fun group => h.forM fun parent => ?_
    refine h.bind (h.read _) fun x => .get_bind fun o => ?_
    dsimp only
    split
    · exact hprice parent
    · exact h.pure _

/-- What attempts at conversion ensure, so does the adding of enforcers. -/
theorem Composes.addEnforcers (h : Composes pre post)
    (hconvert : ∀ g actual required, Ensures pre post (Optimizer.convertWithin g actual required)) (g : GroupId) :
    Ensures pre post (Optimizer.addEnforcers g) :=
  .get_bind fun _ => h.bind (h.read _) fun _ => h.bind (h.read _) fun _ =>
    h.forM fun actual => h.forM fun r => hconvert _ actual r

/-- What the parts of a round ensure, so does the round. -/
theorem Composes.settleRound (h : Composes pre post) (hnote : ∀ kept absorbed, Ensures pre post
      (Optimizer.noteMerge kept absorbed)) (hprice : ∀ e, Ensures pre post (Optimizer.priceExpr e))
    (hread : ∀ s, Ensures pre post (Optimizer.winnerImproved s))
    (henforce : ∀ g, Ensures pre post (Optimizer.addEnforcers g))
    (hindex : ∀ e, Ensures pre post (Optimizer.indexExpr e)) {c : Changes}
    (hrenew : Ensures pre post (modify fun o => o.renewed c : Action Op Q PUnit)) :
    Ensures pre post (Optimizer.settleRound c) := by
  rw [Optimizer.settleRound_eq]
  refine h.bind hrenew fun _ => h.bind (h.forM fun p => hnote p.1 p.2) fun _ => h.bind (h.forM hprice) fun _ => ?_
  refine .get_bind fun o => h.bind (h.forM hread) fun _ => h.bind (h.read _) fun _ => h.bind (h.forM henforce) fun _ => ?_
  exact h.bind (h.forM hindex) fun _ => h.forM fun p => .get_bind fun o => h.forM hindex

end Action

end PlanSearch
