import PlanSearch.Proofs.Optimizer.Coverage
import PlanSearch.Proofs.Optimizer.Ledger
import PlanSearch.Proofs.Optimizer.Rulebook

/-!
# The fixed point

From the moment an optimizer was cleared, whatever plans are seeded, searched and whatever rules come,
go, rest and return in between: no match fires twice, and a search that ends within its budgets has
fired every match there is. A scan of the whole memo with all active rules would find nothing more.

    o.History log → search fuel o = .ok () o' → the matches that fired are all different, and if no
      budget ran out, every binding of an active rule is among them    (search_reaches_fixpoint)
-/

namespace PlanSearch

open Outline

theorem Action.Steady.rulebook_eq {Op Q α : Type} {x : Action Op Q α} (hx : x.Steady)
    {o o' : Optimizer Op Q} {a : α} (h : x o = .ok a o') : o'.rulebook = o.rulebook := by
  have hl := hx o
  unfold Action.leave at hl
  rw [h] at hl
  exact hl

namespace Optimizer

variable {Op Q : Type} [Operator Op] [Quantity Q] {o o' : Optimizer Op Q} {log fired : List Match}

omit [Operator Op] [Quantity Q] in
theorem isActive_iff {n : Nat} : o.isActive n = true ↔ n ∉ o.disabled ∧ n ∉ o.removed := by
  simp [isActive, ← Std.TreeSet.contains_iff_mem]

/-! ## The invariant -/

/-- Between calls the triggers are right, all wanted matches have been seen, and the log with the
matches still waiting accounts for all that was seen. -/
structure Diligent (o : Optimizer Op Q) (log : List Match) : Prop where
  reached : o.memo.Reached
  synced : o.Synced
  complete : o.Complete
  ledger : o.Ledger log

theorem Blank.diligent (h : o.Blank) (hs : o.Synced) : o.Diligent [] where
  reached := h.reached
  synced := hs
  complete x hx := by
    obtain ⟨rule, root, -, -, -, binds⟩ := hx
    obtain ⟨y, g, hy⟩ := binds.known
    rw [h.entry_eq_none] at hy
    cases hy
  ledger := by
    obtain ⟨order, ha⟩ := h.agenda
    unfold Ledger
    rw [ha]
    refine ⟨List.nodup_nil, fun x hx => (by cases hx), fun k hk => ?_⟩
    rw [ha] at hk
    simp [Agenda.empty] at hk

theorem settle_reached {fuel : Nat} (h : o.memo.Reached) (ok : settle fuel o = .ok () o') :
    o'.memo.Reached :=
  settle_keeps (P := fun o => o.memo.Reached) enforcing_freely (fun _ h => h.orderly)
    (fun _ h => .call h .forgetChanges) (fun _ _ h ha => ha.reached h) h ok

/-- Settling makes good what changes of the memo have left open. -/
theorem diligent_settle {fuel : Nat} (ok : settle fuel o = .ok () o') (hr : o.memo.Reached)
    (hs : o.Synced) (hc : o.Covered [] []) (hl : o.Ledger log) : o'.Diligent log where
  reached := settle_reached hr ok
  synced := hs.of_rulebook ((steady_settle fuel).rulebook_eq ok)
  complete := hc.settle hr.orderly hs ok
  ledger := hl.settle hr.orderly ok

/-! ## Calls -/

theorem Diligent.seed (h : o.Diligent log) {fuel : Nat} {plan : PlanNode Op} {required : TraitSet}
    {g : GroupId} (ok : Optimizer.seed fuel plan required o = .ok g o') : o'.Diligent log := by
  obtain ⟨g₀, e, s, m₁, m₂, o₂, hadd, hask, hsettle, rfl, -⟩ := seed_spec ok
  have hreached : m₁.Reached := .call h.reached (.add hadd)
  have hcovered₁ : ({ o with memo := m₁ } : Optimizer Op Q).Covered [] [] :=
    h.complete.covered.change h.reached.orderly (.add hadd : Change Freely _ _)
  have hcovered₂ : ({ o with memo := m₂ } : Optimizer Op Q).Covered [] [] :=
    hcovered₁.change hreached.orderly (.request hask : Change Freely _ _)
  have hledger : ({ o with
      phase := .seeding, memo := m₂, root := some ⟨g₀, required⟩, seedPlan := some plan } :
      Optimizer Op Q).Ledger log := h.ledger.of_same rfl (fun _ => id) id
  have hend : o₂.Diligent log :=
    diligent_settle hsettle (.call hreached (.ensureSubGroup hask)) h.synced hcovered₂ hledger
  exact ⟨hend.reached, hend.synced, hend.complete, hend.ledger.of_same rfl (fun _ => id) id⟩

theorem Dispatched.reached {fuel : Nat} {x : Match} {fires : Bool}
    (h : Dispatched fuel x o fires o') (ho : o.memo.Reached) : o'.memo.Reached := by
  cases h with
  | dropped => exact ho
  | forgotten => exact ho
  | full memo => exact memo ▸ ho
  | fired _ ok =>
    obtain ⟨o₁, hacts, hsettle⟩ := fire_freely ho.orderly ok
    exact settle_reached (hacts.reached ho) hsettle

theorem Dispatched.synced {fuel : Nat} {x : Match} {fires : Bool}
    (h : Dispatched fuel x o fires o') (ho : o.Synced) : o'.Synced := by
  cases h with
  | dropped => exact ho
  | forgotten => exact ho
  | full _ _ frame =>
    have hspent : ({ o with budgetExhausted := true } : Optimizer Op Q).Synced := ho
    exact hspent.of_frame frame
  | fired _ ok => exact ho.of_rulebook ((steady_fire fuel x).rulebook_eq ok)

/-- A turn of a match keeps the invariant, with the match in the log if it fires. -/
theorem Diligent.turn (h : o.Diligent log) {fuel : Nat} {x : Match} {agenda : Agenda} {fires : Bool}
    (next : o.agenda.pop? = some (x, agenda))
    (hd : Dispatched fuel x { o with agenda := agenda } fires o') :
    o'.Diligent (if fires then log ++ [x] else log) := by
  have hcomplete : ({ o with agenda := agenda } : Optimizer Op Q).Complete := by
    obtain ⟨_, -, hseen⟩ := Agenda.pop?_eq_some next
    exact h.complete.of_frame rfl rfl (fun _ => id) fun k hk => hseen ▸ hk
  exact ⟨hd.reached h.reached, hd.synced h.synced,
    hcomplete.dispatched h.reached.orderly h.synced hd, h.ledger.turn h.reached.orderly next hd⟩

/-- A search keeps the invariant, with the matches that fire in the log. It ends when nothing is
waiting, or when a budget has run out. -/
theorem Diligent.goes {fuel : Nat} {done : List Match} (hs : Goes fuel done o fired o')
    (h : o.Diligent (log ++ done)) :
    o'.Diligent (log ++ fired) ∧ (o'.agenda.pending = [] ∨ o'.budgetExhausted = true) := by
  induction hs with
  | done empty => exact ⟨h, .inl (Agenda.pop?_eq_none empty)⟩
  | @stop _ _ _ _ b _ _ ok =>
    obtain ⟨memo, agenda, spent, frame⟩ := exhaust_spec ok
    refine ⟨⟨memo ▸ h.reached, h.synced.of_rulebook ((steady_exhaust b).rulebook_eq ok), ?_,
      h.ledger.of_same agenda (fun _ => frame.removed ▸ id) fun _ => spent⟩, .inr spent⟩
    exact h.complete.of_frame memo frame.rules (fun id ha => frame.isActive id ▸ ha) fun k hk => agenda ▸ hk
  | @turn _ _ _ _ _ _ _ fires next _ ok _ ih =>
    have hturn := h.turn next (dispatchLogged_spec ok)
    refine ih ?_
    cases fires with
    | true =>
      rw [if_pos rfl] at hturn ⊢
      rw [← List.append_assoc]
      exact hturn
    | false => exact hturn

theorem Diligent.search (h : o.Diligent log) {fuel : Nat}
    (ok : searchLogged fuel o = .ok fired o') :
    o'.Diligent (log ++ fired) ∧ (o'.agenda.pending = [] ∨ o'.budgetExhausted = true) :=
  Diligent.goes (goes_of_searchLogged ok) (by rwa [List.append_nil])

/-! ## Rules that come and go -/

/-- Matching one rule everywhere makes good what was left open about this rule. -/
theorem diligent_matchEverywhere {n : Nat} (ok : matchEverywhere n o = .ok () o')
    (hr : o.memo.Reached) (hs : o.Synced) (hl : o.Ledger log)
    (hc : ∀ x, o.Wanted x → x.rule ≠ n → x.key ∈ o.agenda.seen) : o'.Diligent log := by
  obtain ⟨hfinds, hall⟩ := matchEverywhere_finds hr.orderly.ordered.tidy.sound ok
  have hframe := hfinds.frame
  have hacts : o.Acts Freely o' := hfinds.acts
  refine ⟨hfinds.memo_eq ▸ hr, hs.of_frame hframe, fun x hx => ?_, hl.acts hacts⟩
  have hw : o.Wanted x := hx.of_frame hfinds.memo_eq hframe.rules fun ha => hframe.isActive _ ▸ ha
  by_cases hid : x.rule = n
  · obtain ⟨rule, root, known, active, -, binds⟩ := hw
    subst hid
    exact hall rule root x.exprs known active binds
  · exact hfinds.seen (hc x hw hid)

theorem Diligent.addRule (h : o.Diligent log) {rule : Rule Op Q} {n : Nat}
    (ok : Optimizer.addRule rule o = .ok n o') : o'.Diligent log := by
  have hsynced : o'.Synced := by
    have hleave := h.synced.addRule rule
    unfold Action.leave at hleave
    rw [ok] at hleave
    exact hleave
  simp only [Optimizer.addRule] at ok
  have ok := run_modify_bind_eq_ok (run_get_bind_eq_ok ok)
  obtain ⟨_, o₁, h₁, h₂⟩ := run_bind_eq_ok ok
  obtain ⟨-, rfl⟩ := run_pure_eq_ok h₂
  have hadded : ({ o with triggers := o.triggers.add o.rules.length rule.pattern,
                          rules := o.rules ++ [rule] } : Optimizer Op Q).Synced :=
    hsynced.of_rulebook ((steady_matchEverywhere _).rulebook_eq h₁).symm
  have hledger : ({ o with triggers := o.triggers.add o.rules.length rule.pattern,
                           rules := o.rules ++ [rule] } : Optimizer Op Q).Ledger log :=
    h.ledger.of_same rfl (fun _ => id) id
  refine diligent_matchEverywhere h₁ h.reached hadded hledger ?_
  rintro x ⟨rule', root, known, active, wild, binds⟩ hne
  -- the rule of any other match was there before
  have known : (o.rules ++ [rule])[x.rule]? = some rule' := known
  have hlt := (List.getElem?_eq_some_iff.1 known).1
  rw [List.length_append, List.length_singleton] at hlt
  rw [List.getElem?_append_left (by omega)] at known
  exact h.complete x ⟨rule', root, known, active, wild, binds⟩

theorem Diligent.removeRule (h : o.Diligent log) {n : Nat}
    (ok : Optimizer.removeRule n o = .ok () o') : o'.Diligent log := by
  have hsynced : o'.Synced := by
    have hleave := h.synced.removeRule n
    unfold Action.leave at hleave
    rw [ok] at hleave
    exact hleave
  simp only [Optimizer.removeRule] at ok
  have ok := run_get_bind_eq_ok ok
  split at ok
  · cases ok
    refine ⟨h.reached, hsynced, h.complete.of_frame rfl rfl (fun i ha => ?_) fun _ => id,
      h.ledger.of_same rfl (fun i hi => ?_) id⟩
    · obtain ⟨hd, hr⟩ := isActive_iff.1 ha
      exact isActive_iff.2 ⟨hd, fun hi => hr (Std.TreeSet.mem_insert.2 (.inr hi))⟩
    · show (o.removed.insert n).contains i = true
      rw [Std.TreeSet.contains_iff_mem] at hi ⊢
      exact Std.TreeSet.mem_insert.2 (.inr hi)
  · cases ok

theorem Diligent.disableRule (h : o.Diligent log) {n : Nat}
    (ok : Optimizer.disableRule n o = .ok () o') : o'.Diligent log := by
  cases ok
  refine ⟨h.reached, h.synced, h.complete.of_frame rfl rfl (fun i ha => ?_) fun _ => id,
    h.ledger.of_same rfl (fun _ => id) id⟩
  obtain ⟨hd, hr⟩ := isActive_iff.1 ha
  exact isActive_iff.2 ⟨fun hi => hd (Std.TreeSet.mem_insert.2 (.inr hi)), hr⟩

theorem Diligent.enableRule (h : o.Diligent log) {n : Nat}
    (ok : Optimizer.enableRule n o = .ok () o') : o'.Diligent log := by
  simp only [Optimizer.enableRule] at ok
  have ok := run_get_bind_eq_ok ok
  split at ok
  · have ok := run_modify_bind_eq_ok ok
    have hledger : ({ o with disabled := o.disabled.erase n } : Optimizer Op Q).Ledger log :=
      h.ledger.of_same rfl (fun _ => id) id
    refine diligent_matchEverywhere ok h.reached h.synced hledger ?_
    rintro x ⟨rule, root, known, active, wild, binds⟩ hne
    -- any other rule was active before
    obtain ⟨hd, hr⟩ := isActive_iff.1 active
    refine h.complete x ⟨rule, root, known, isActive_iff.2 ⟨fun hi => hd ?_, hr⟩, wild, binds⟩
    refine Std.TreeSet.mem_erase.2 ⟨fun hcmp => hne ?_, hi⟩
    exact (Std.LawfulEqOrd.compare_eq_iff_eq.1 hcmp).symm
  · obtain ⟨-, rfl⟩ := run_pure_eq_ok ok
    exact h

/-- What one rule can be asked to do, all rules of a name can. -/
theorem Diligent.forRulesNamed (h : o.Diligent log) {f : Nat → Action Op Q Unit} {name : String}
    (hf : ∀ n o₁ o₂, o₁.Diligent log → f n o₁ = .ok () o₂ → o₂.Diligent log)
    (ok : Optimizer.forRulesNamed name f o = .ok () o') : o'.Diligent log := by
  have key : ∀ (ids : List Nat) (o₁ : Optimizer Op Q), o₁.Diligent log →
      ids.forM f o₁ = .ok () o' → o'.Diligent log := by
    intro ids
    induction ids with
    | nil =>
      intro o₁ h₁ ok₁
      obtain ⟨-, rfl⟩ := run_pure_eq_ok ok₁
      exact h₁
    | cons n ids ih =>
      intro o₁ h₁ ok₁
      obtain ⟨_, o₂, ok₂, ok₃⟩ := run_bind_eq_ok ok₁
      exact ih o₂ (hf n o₁ o₂ h₁ ok₂) ok₃
  simp only [Optimizer.forRulesNamed] at ok
  have ok := run_get_bind_eq_ok ok
  split at ok
  · cases ok
  · exact key _ o h ok

/-! ## Histories -/

/-- A call that succeeds, with the matches that fire in it. -/
inductive Step (o : Optimizer Op Q) : List Match → Optimizer Op Q → Prop
  | seed {fuel : Nat} {plan : PlanNode Op} {required : TraitSet} {g : GroupId} {o' : Optimizer Op Q}
      (ok : seed fuel plan required o = .ok g o') : Step o [] o'
  | search {fuel : Nat} {fired : List Match} {o' : Optimizer Op Q}
      (ok : searchLogged fuel o = .ok fired o') : Step o fired o'
  | addRule {rule : Rule Op Q} {n : Nat} {o' : Optimizer Op Q} (ok : addRule rule o = .ok n o') :
      Step o [] o'
  | removeRule {n : Nat} {o' : Optimizer Op Q} (ok : removeRule n o = .ok () o') : Step o [] o'
  | disableRule {n : Nat} {o' : Optimizer Op Q} (ok : disableRule n o = .ok () o') : Step o [] o'
  | enableRule {n : Nat} {o' : Optimizer Op Q} (ok : enableRule n o = .ok () o') : Step o [] o'
  | disableRulesNamed {name : String} {o' : Optimizer Op Q}
      (ok : disableRulesNamed name o = .ok () o') : Step o [] o'
  | enableRulesNamed {name : String} {o' : Optimizer Op Q}
      (ok : enableRulesNamed name o = .ok () o') : Step o [] o'

/-- The optimizer was cleared, whatever it was used for before, and all calls since succeeded. The log
has the matches that fired since, in order. -/
inductive History : Optimizer Op Q → List Match → Prop
  | clear {o : Optimizer Op Q} (used : o.Used) : History o.clear []
  | step {o o' : Optimizer Op Q} {log fired : List Match} (before : History o log)
      (step : o.Step fired o') : History o' (log ++ fired)

omit [Operator Op] [Quantity Q] in
/-- A new optimizer need not be cleared. -/
theorem clear_new (rules : List (Rule Op Q)) (model : CostModel Op Q) (registry : Registry Op)
    (factRules : List (FactRule Op)) (options : Options) :
    (new rules model registry factRules options).clear = new rules model registry factRules options :=
  rfl

theorem Diligent.step (h : o.Diligent log) (hs : o.Step fired o') : o'.Diligent (log ++ fired) := by
  cases hs with
  | search ok => exact (h.search ok).1
  | seed ok => rw [List.append_nil]; exact h.seed ok
  | addRule ok => rw [List.append_nil]; exact h.addRule ok
  | removeRule ok => rw [List.append_nil]; exact h.removeRule ok
  | disableRule ok => rw [List.append_nil]; exact h.disableRule ok
  | enableRule ok => rw [List.append_nil]; exact h.enableRule ok
  | disableRulesNamed ok =>
    rw [List.append_nil]
    exact h.forRulesNamed (fun _ _ _ h₁ => h₁.disableRule) ok
  | enableRulesNamed ok =>
    rw [List.append_nil]
    exact h.forRulesNamed (fun _ _ _ h₁ => h₁.enableRule) ok

theorem History.diligent (h : o.History log) : o.Diligent log := by
  induction h with
  | clear used => exact (blank_clear _).diligent (used.synced.of_rulebook rfl)
  | step _ step ih => exact ih.step step

/-- The search reaches a fixed point. No match fires twice, and if no budget ran out, every binding of
every active rule in the whole memo has fired, once. -/
theorem search_reaches_fixpoint (before : o.History log) {fuel : Nat}
    (ok : search fuel o = .ok () o') (rooted : ∀ rule ∈ o'.rules, rule.pattern.isWildcard = false) :
    ∃ fired, searchLogged fuel o = .ok fired o' ∧ (log ++ fired).Nodup ∧
      (o'.budgetExhausted = false → ∀ n rule e, o'.rules[n]? = some rule → o'.isActive n = true →
        e ∈ o'.memo.exprs → ∃ found, rule.pattern.bindings o'.memo e = .ok found ∧
          ∀ es ∈ found, (log ++ fired).count ⟨n, es⟩ = 1) := by
  rw [← searchLogged_eq] at ok
  obtain ⟨fired, o₁, hlogged, hret⟩ := run_bind_eq_ok ok
  rw [(run_pure_eq_ok hret).2] at hlogged
  obtain ⟨hend, hstop⟩ := before.diligent.search hlogged
  have hnodup : (log ++ fired).Nodup := (List.nodup_append.1 hend.ledger.nodup).1
  refine ⟨fired, hlogged, hnodup, fun budget n rule e known active live => ?_⟩
  have hpending := hstop.resolve_right (by rw [budget]; simp)
  obtain ⟨x, g, hx⟩ : ∃ x g, o'.memo.outline.entry e = some (x, g) := by
    obtain ⟨entry, hentry⟩ := Option.isSome_iff_exists.1 (Std.TreeMap.mem_iff_isSome_getElem?.1 live)
    exact ⟨_, _, by rw [Memo.outline_entry, hentry]; rfl⟩
  obtain ⟨found, hfound, hmem⟩ :=
    Pattern.bindings_spec hend.reached.orderly.ordered.tidy.sound rule.pattern hx
  refine ⟨found, hfound, fun es hes => ?_⟩
  have hwanted : o'.Wanted ⟨n, es⟩ :=
    ⟨rule, e, known, active, rooted rule (List.mem_of_getElem? known), (hmem es).1 hes⟩
  have hremoved : o'.removed.contains n = false := by
    rw [Bool.eq_false_iff, Ne, Std.TreeSet.contains_iff_mem]
    exact (isActive_iff.1 active).2
  have hfired := hend.ledger.fired hpending budget (hend.complete _ hwanted) hremoved
  exact hnodup.count.trans (if_pos hfired)

section SmallHost

open SmallHost

/-- The search for a sorted join fires six matches, and there are no others. -/
theorem sorter_reaches_fixpoint : ∃ (o o' : Optimizer Relational.Kind Nat) (fired : List Match),
    o.History [] ∧ search 20 o = .ok () o' ∧ searchLogged 20 o = .ok fired o' ∧ fired.length = 6 ∧ fired.Nodup ∧
    ∀ n rule e, o'.rules[n]? = some rule → o'.isActive n = true → e ∈ o'.memo.exprs →
      ∃ found, rule.pattern.bindings o'.memo e = .ok found ∧ ∀ es ∈ found, fired.count ⟨n, es⟩ = 1 := by
  obtain ⟨fired, o', outcome, hrun, hlength, hbudget⟩ := sorter_optimizes
  obtain ⟨g, o, final, hseed, hsearch, -⟩ := optimizeLogged_spec hrun
  have hnew : sorter.History [] := by
    rw [sorter, ← clear_new]
    exact .clear (.new _ _ _ _ _)
  have hbefore : o.History [] := .step hnew (.seed hseed)
  have ok := search_of_searchLogged hsearch
  have hrules : o'.rules = sorter.rules := congrArg Prod.fst
    (((steady_search 20).rulebook_eq ok).trans ((steady_seed 20 joined byFirst).rulebook_eq hseed))
  obtain ⟨fired', hsearch', hnodup, hall⟩ :=
    search_reaches_fixpoint hbefore ok (by rw [hrules]; decide)
  rw [hsearch] at hsearch'
  cases hsearch'
  exact ⟨o, o', fired, hbefore, ok, hsearch, hlength, hnodup, hall hbudget⟩

end SmallHost

end Optimizer

end PlanSearch
