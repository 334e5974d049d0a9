import PlanSearch.Proofs.Optimizer.Discovery
import PlanSearch.Proofs.Optimizer.Plain

/-!
# The rulebook

The rules, those of them that were removed, and the triggers are the rulebook of an optimizer. Only
taking rules in and out changes it; every other action leaves it as it is, also where it fails. So the
triggers name all operands of all rules that are not removed, whatever an optimizer was used for.

    x.Steady → (x.leave o).rulebook = o.rulebook
    Used o → o.Synced                                   (Used.synced)
-/

namespace PlanSearch

variable {Op Q α β : Type}

namespace Optimizer

open PlanSearch.Action

/-! ## What is steady -/

section Steady

variable [Operator Op] [Quantity Q]

theorem steady_enqueue (id : Nat) (rule : Rule Op Q) (es : List ExprId) : (enqueue id rule es).Steady :=
  (routine_enqueue id rule es).plain.steady

theorem steady_enqueueAt (id : Nat) (rule : Rule Op Q) (roots : List ExprId) : (enqueueAt id rule roots).Steady :=
  (routine_enqueueAt id rule roots).plain.steady

theorem steady_matchEverywhere (id : Nat) : (matchEverywhere id : Action Op Q Unit).Steady :=
  (plain_matchEverywhere id).steady

theorem steady_settle (fuel : Nat) : (settle fuel : Action Op Q Unit).Steady := (plain_settle fuel).steady

theorem steady_fire (fuel : Nat) (x : Match) : (fire fuel x : Action Op Q Unit).Steady := (plain_fire fuel x).steady

theorem steady_exhaust (b : Budget) : (exhaust b : Action Op Q Unit).Steady := (plain_exhaust b).steady

theorem steady_search (fuel : Nat) : (search fuel : Action Op Q Unit).Steady := (plain_search fuel).steady

theorem steady_seed (fuel : Nat) (plan : PlanNode Op) (required : TraitSet) :
    (seed fuel plan required : Action Op Q GroupId).Steady := (plain_seed fuel plan required).steady

/-- Clearing leaves the rulebook as it is. -/
theorem steady_optimize (fuel : Nat) (plan : PlanNode Op) (required : TraitSet) :
    (optimize fuel plan required : Action Op Q (Outcome Op Q)).Steady := by
  have hclear : (modify clear : Action Op Q PUnit).Steady := fun _ => rfl
  exact hclear.bind fun _ => (steady_seed fuel plan required).bind fun _ => (steady_search fuel).bind fun _ =>
    plain_extract.steady

end Steady

/-! ## What changes the rulebook -/

variable {o o' : Optimizer Op Q}

section Synced

variable [Operator Op]

theorem Synced.of_rulebook (h : o.Synced) (hr : o'.rulebook = o.rulebook) : o'.Synced := by
  obtain ⟨hrules, hrest⟩ := Prod.mk.inj hr
  obtain ⟨hremoved, htriggers⟩ := Prod.mk.inj hrest
  intro id rule known removed d test q hq
  rw [htriggers]
  exact h id rule (hrules ▸ known) (hremoved ▸ removed) d test q hq

/-- What is found once some rules have come in. -/
theorem mem_candidates_foldl (rules : List (Rule Op Q × Nat)) (t : TriggerIndex Op) {op : Op} {c : Nat × Nat} :
    c ∈ (rules.foldl (fun t r => t.add r.2 r.1.pattern) t).candidates op ↔ c ∈ t.candidates op ∨
      ∃ r ∈ rules, c.1 = r.2 ∧ ∃ test q, (c.2, test, q) ∈ r.1.pattern.operands ∧ test.accepts op = true := by
  induction rules generalizing t with
  | nil => simp
  | cons r rules ih =>
    rw [List.foldl_cons, ih, TriggerIndex.mem_candidates_add, or_assoc]
    simp only [List.mem_cons, exists_eq_or_imp]

theorem synced_new (rules : List (Rule Op Q)) (model : CostModel Op Q) (registry : Registry Op)
    (factRules : List (FactRule Op)) (options : Options) :
    (new rules model registry factRules options).Synced := by
  intro id rule known _ d test q hq op ha
  refine (mem_candidates_foldl rules.zipIdx .empty).2 (.inr ⟨(rule, id), ?_, rfl, test, q, hq, ha⟩)
  exact List.mk_mem_zipIdx_iff_getElem?.2 known

theorem Synced.addRule [Quantity Q] (h : o.Synced) (rule : Rule Op Q) :
    ((Optimizer.addRule rule).leave o).Synced := by
  have hadded : ({ o with triggers := o.triggers.add o.rules.length rule.pattern,
                          rules := o.rules ++ [rule] } : Optimizer Op Q).Synced := by
    intro id rule' known removed d test q hq op ha
    rw [List.getElem?_append] at known
    split at known
    · exact TriggerIndex.mem_candidates_add.2 (.inl (h id rule' known removed d test q hq op ha))
    · next hid =>
      rw [List.getElem?_singleton] at known
      split at known
      · next hid' =>
        cases known
        have hlen : id = o.rules.length := by omega
        exact TriggerIndex.mem_candidates_add.2 (.inr ⟨hlen, test, q, hq, ha⟩)
      · cases known
  refine hadded.of_rulebook ?_
  exact ((steady_matchEverywhere o.rules.length).bind fun _ => steady_pure o.rules.length) _

theorem Synced.removeRule (h : o.Synced) (id : Nat) :
    ((Optimizer.removeRule id).leave o).Synced := by
  show (Action.leave (if id < o.rules.length then _ else _) o).Synced
  split
  · intro id' rule known removed d test q hq op ha
    have removed : id' ∉ o.removed.insert id := removed
    rw [Std.TreeSet.mem_insert, not_or, Std.LawfulEqOrd.compare_eq_iff_eq, eq_comm] at removed
    have hne : id' ≠ id ∧ id' ∉ o.removed := removed
    exact TriggerIndex.mem_candidates_remove.2 ⟨h id' rule known hne.2 d test q hq op ha, hne.1⟩
  · exact h

end Synced

/-! ## Optimizers in use -/

variable [Operator Op] [Quantity Q]

/-- The calls that leave the rulebook alone. -/
inductive Call : {α : Type} → Action Op Q α → Prop
  | seed (fuel : Nat) (plan : PlanNode Op) (required : TraitSet) : Call (seed fuel plan required)
  | search (fuel : Nat) : Call (search fuel)
  | extract : Call extract
  | optimize (fuel : Nat) (plan : PlanNode Op) (required : TraitSet) :
      Call (optimize fuel plan required)
  | disableRule (id : Nat) : Call (disableRule id)
  | enableRule (id : Nat) : Call (enableRule id)
  | disableRulesNamed (name : String) : Call (disableRulesNamed name)
  | enableRulesNamed (name : String) : Call (enableRulesNamed name)
  | rowCount (g : GroupId) : Call (rowCount g)

theorem Call.steady {x : Action Op Q α} (h : Call x) : x.Steady := by
  cases h with
  | seed fuel plan required => exact steady_seed fuel plan required
  | search fuel => exact steady_search fuel
  | extract => exact plain_extract.steady
  | optimize fuel plan required => exact steady_optimize fuel plan required
  | disableRule id => exact (plain_disableRule id).steady
  | enableRule id => exact (plain_enableRule id).steady
  | disableRulesNamed name => exact (plain_forRulesNamed plain_disableRule name).steady
  | enableRulesNamed name => exact (plain_forRulesNamed plain_enableRule name).steady
  | rowCount g => exact (plain_rowCount g).steady

/-- An optimizer that was built and then used in any way, by calls that may have failed too. The host
may change the memo, the cost model, the options and the statistics. -/
inductive Used : Optimizer Op Q → Prop
  | new (rules : List (Rule Op Q)) (model : CostModel Op Q) (registry : Registry Op)
      (factRules : List (FactRule Op)) (options : Options) :
      Used (.new rules model registry factRules options)
  | host {o : Optimizer Op Q} (memo : Memo Op Q) (model : CostModel Op Q) (options : Options)
      (stats : Stats) (used : Used o) :
      Used { o with memo := memo, model := model, options := options, stats := stats }
  | clear {o : Optimizer Op Q} (used : Used o) : Used o.clear
  | addRule {o : Optimizer Op Q} (rule : Rule Op Q) (used : Used o) :
      Used ((Optimizer.addRule rule).leave o)
  | removeRule {o : Optimizer Op Q} (id : Nat) (used : Used o) :
      Used ((Optimizer.removeRule id).leave o)
  | call {o : Optimizer Op Q} {α : Type} {x : Action Op Q α} (call : Call x) (used : Used o) :
      Used (x.leave o)

/-- However an optimizer was used, its triggers name all operands of the rules not removed. -/
theorem Used.synced (h : Used o) : o.Synced := by
  induction h with
  | new rules model registry factRules options => exact synced_new _ _ _ _ _
  | host _ _ _ _ _ ih => exact ih.of_rulebook rfl
  | clear _ ih => exact ih.of_rulebook rfl
  | addRule rule _ ih => exact ih.addRule rule
  | removeRule id _ ih => exact ih.removeRule id
  | call call _ ih => exact ih.of_rulebook (call.steady _)

end Optimizer

end PlanSearch
