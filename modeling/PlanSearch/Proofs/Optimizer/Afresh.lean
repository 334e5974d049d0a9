import PlanSearch.Proofs.Memo.Facts
import PlanSearch.Proofs.Optimizer.Rulebook
import PlanSearch.Proofs.SmallHost

/-!
# Calls that start afresh

What an optimizer was used for leaves its traces in the memo, the agenda, the cache, the records and the triggers. A call
clears all of them but the triggers, and these are at any time what they would be if the rules were entered anew: rules get
their numbers in order, and taking a rule out leaves the others in place. So a call ends as on an optimizer just built.

    Handled registry factRules o → o.Catalogued                                     (Handled.catalogued)
    Handled registry factRules o → some optimizer just built has the rules and the sets of o,
      and on each such a call gives the same answer or error and the same state     (Handled.optimize_afresh)
-/

namespace PlanSearch

variable {Op Q α : Type}

namespace TriggerIndex

/-- The index of some operands, entered one after the other. -/
def of (xs : List (Trigger Op)) : TriggerIndex Op := xs.foldl enter empty

/-- A rule that comes in enters its operands after those that are there. -/
theorem add_of (xs : List (Trigger Op)) (rule : Nat) (p : Pattern Op) :
    (of xs).add rule p = of (xs ++ p.operands.map fun (depth, test, _) => ⟨rule, depth, test⟩) := by
  rw [of, of, List.foldl_append, List.foldl_map]
  rfl

theorem remove_enter (t : TriggerIndex Op) (x : Trigger Op) (rule : Nat) :
    (t.enter x).remove rule = if x.rule = rule then t.remove rule else (t.remove rule).enter x := by
  obtain ⟨id, depth, test⟩ := x
  by_cases h : id = rule <;> cases test <;> simp [enter, remove, h]

/-- A rule that goes out leaves an index of the others. -/
theorem remove_of (xs : List (Trigger Op)) (rule : Nat) :
    (of xs).remove rule = of (xs.filter fun x => x.rule ≠ rule) := by
  have key : ∀ (xs : List (Trigger Op)) (t : TriggerIndex Op),
      (xs.foldl enter t).remove rule = (xs.filter fun x => x.rule ≠ rule).foldl enter (t.remove rule) := by
    intro xs
    induction xs with
    | nil => exact fun _ => rfl
    | cons x xs ih =>
      intro t
      rw [List.foldl_cons, ih, remove_enter, List.filter_cons]
      by_cases hx : x.rule = rule
      · simp [hx]
      · simp [hx]
  exact key xs empty

end TriggerIndex

namespace Optimizer

/-! ## The triggers of a rulebook -/

theorem contains_insert_iff (ids : Std.TreeSet Nat) (id id' : Nat) :
    (ids.insert id).contains id' = true ↔ id' = id ∨ ids.contains id' = true := by
  rw [Std.TreeSet.contains_insert, Bool.or_eq_true, beq_iff_eq, Std.LawfulEqOrd.compare_eq_iff_eq, eq_comm]

/-- The operands of all rules that are not removed, in the order of the rules. -/
def operandsOf (rules : List (Rule Op Q)) (removed : Std.TreeSet Nat) : List (Trigger Op) :=
  rules.zipIdx.flatMap fun (rule, id) =>
    if removed.contains id then [] else rule.pattern.operands.map fun (depth, test, _) => ⟨id, depth, test⟩

/-- The triggers are as if the rules had just been entered, and only rules that are there were removed. -/
structure Catalogued (o : Optimizer Op Q) : Prop where
  triggers : o.triggers = .of (operandsOf o.rules o.removed)
  removed : ∀ id, o.removed.contains id = true → id < o.rules.length

variable {o o' : Optimizer Op Q}

theorem Catalogued.of_rulebook (h : o.Catalogued) (hr : o'.rulebook = o.rulebook) : o'.Catalogued := by
  obtain ⟨hrules, hrest⟩ := Prod.mk.inj hr
  obtain ⟨hremoved, htriggers⟩ := Prod.mk.inj hrest
  constructor
  · rw [hrules, hremoved, htriggers]
    exact h.triggers
  · rw [hrules, hremoved]
    exact h.removed

theorem operandsOf_congr {rules : List (Rule Op Q)} {removed removed' : Std.TreeSet Nat}
    (h : ∀ id, removed'.contains id = removed.contains id) : operandsOf rules removed' = operandsOf rules removed := by
  unfold operandsOf
  simp only [h]

theorem operandsOf_append {rules : List (Rule Op Q)} {removed : Std.TreeSet Nat} (rule : Rule Op Q)
    (h : removed.contains rules.length = false) : operandsOf (rules ++ [rule]) removed =
      operandsOf rules removed ++ rule.pattern.operands.map fun (depth, test, _) => ⟨rules.length, depth, test⟩ := by
  unfold operandsOf
  rw [List.zipIdx_append, List.flatMap_append, List.zipIdx_singleton, List.flatMap_singleton, Nat.zero_add]
  simp only [h, Bool.false_eq_true, if_false]

theorem operandsOf_insert (rules : List (Rule Op Q)) (removed : Std.TreeSet Nat) (id : Nat) :
    operandsOf rules (removed.insert id) = (operandsOf rules removed).filter fun x => x.rule ≠ id := by
  unfold operandsOf
  rw [List.filter_flatMap]
  refine congrArg List.flatten (List.map_congr_left fun p _ => ?_)
  have hrule : ∀ x ∈ p.1.pattern.operands.map fun (depth, test, _) => (⟨p.2, depth, test⟩ : Trigger Op),
      x.rule = p.2 := by
    intro x hx
    obtain ⟨_, -, rfl⟩ := List.mem_map.1 hx
    rfl
  simp only [contains_insert_iff]
  by_cases hid : p.2 = id
  · rw [if_pos (.inl hid), eq_comm, List.filter_eq_nil_iff]
    intro x hx
    split at hx
    · cases hx
    · simp [hrule x hx, hid]
  · simp only [hid, false_or]
    split
    · rfl
    · exact (List.filter_eq_self.2 fun x hx => by simp [hrule x hx, hid]).symm

theorem catalogued_new (rules : List (Rule Op Q)) (model : CostModel Op Q) (registry : Registry Op)
    (factRules : List (FactRule Op)) (options : Options) : (new rules model registry factRules options).Catalogued := by
  have hfold : ∀ (rs : List (Rule Op Q × Nat)) (xs : List (Trigger Op)),
      rs.foldl (fun t (r, i) => t.add i r.pattern) (TriggerIndex.of xs) = .of (xs ++ rs.flatMap fun (rule, id) =>
        rule.pattern.operands.map fun (depth, test, _) => ⟨id, depth, test⟩) := by
    intro rs
    induction rs with
    | nil => exact fun xs => congrArg TriggerIndex.of (List.append_nil xs).symm
    | cons r rs ih =>
      intro xs
      obtain ⟨rule, id⟩ := r
      show rs.foldl _ ((TriggerIndex.of xs).add id rule.pattern) = _
      rw [TriggerIndex.add_of, ih, List.flatMap_cons, ← List.append_assoc]
  have hempty : ∀ id, (∅ : Std.TreeSet Nat).contains id = false := fun id => Std.TreeSet.contains_emptyc
  constructor
  · show rules.zipIdx.foldl (fun (t : TriggerIndex Op) (r, i) => t.add i r.pattern) (.of []) = .of (operandsOf rules ∅)
    rw [hfold]
    unfold operandsOf
    simp only [hempty]
    rfl
  · intro id hid
    cases (hempty id).symm.trans hid

theorem removeRule_leave (o : Optimizer Op Q) (id : Nat) : (removeRule id).leave o =
    if id < o.rules.length then { o with triggers := o.triggers.remove id, removed := o.removed.insert id } else o := by
  show Action.leave (if id < o.rules.length then _ else _) o = _
  split <;> rfl

theorem Catalogued.removeRule (h : o.Catalogued) (id : Nat) : ((removeRule id).leave o).Catalogued := by
  rw [removeRule_leave]
  split
  · next hid =>
    constructor
    · show o.triggers.remove id = .of (operandsOf o.rules (o.removed.insert id))
      rw [operandsOf_insert, ← TriggerIndex.remove_of, ← h.triggers]
    · intro id' hid'
      exact ((contains_insert_iff _ _ _).1 hid').elim (fun heq => heq ▸ hid) (h.removed id')
  · exact h

/-! ## Optimizers just built -/

/-- An optimizer that was built and had rules taken out and disabled, and nothing else done to it. -/
inductive Built (rules : List (Rule Op Q)) (model : CostModel Op Q) (registry : Registry Op)
    (factRules : List (FactRule Op)) (options : Options) : Optimizer Op Q → Prop
  | new : Built rules model registry factRules options (.new rules model registry factRules options)
  | removeRule {o : Optimizer Op Q} (id : Nat) (built : Built rules model registry factRules options o) :
      Built rules model registry factRules options ((removeRule id).leave o)
  | disableRule {o : Optimizer Op Q} (id : Nat) (built : Built rules model registry factRules options o) :
      Built rules model registry factRules options ((disableRule id).leave o)

section Built

variable {rules : List (Rule Op Q)} {model : CostModel Op Q} {registry : Registry Op} {factRules : List (FactRule Op)}
  {options : Options}

theorem Built.catalogued (h : Built rules model registry factRules options o) : o.Catalogued := by
  induction h with
  | new => exact catalogued_new _ _ _ _ _
  | removeRule id _ ih => exact ih.removeRule id
  | disableRule id _ ih => exact ih.of_rulebook rfl

/-- What an optimizer was built with is what it has. -/
theorem Built.parts (h : Built rules model registry factRules options o) : o.rules = rules ∧ o.model = model ∧
    o.memo.registry = registry ∧ o.memo.factRules = factRules ∧ o.options = options := by
  induction h with
  | new => exact ⟨rfl, rfl, rfl, rfl, rfl⟩
  | @removeRule o id _ ih =>
    rw [removeRule_leave]
    split <;> exact ih
  | disableRule id _ ih => exact ih

/-- Any rules can be disabled. -/
theorem Built.disableAll (h : Built rules model registry factRules options o) (ids : List Nat) :
    ∃ o', Built rules model registry factRules options o' ∧ o'.removed = o.removed ∧
      ∀ id, o'.disabled.contains id = true ↔ o.disabled.contains id = true ∨ id ∈ ids := by
  induction ids with
  | nil => exact ⟨o, h, rfl, by simp⟩
  | cons id ids ih =>
    obtain ⟨o', hbuilt, hremoved, hdisabled⟩ := ih
    refine ⟨_, hbuilt.disableRule id, hremoved, fun id' => ?_⟩
    show (o'.disabled.insert id).contains id' = true ↔ _
    rw [contains_insert_iff, hdisabled, List.mem_cons, or_left_comm]

/-- Any rules that are there can be removed. -/
theorem Built.removeAll (h : Built rules model registry factRules options o) {ids : List Nat}
    (hids : ∀ id ∈ ids, id < rules.length) :
    ∃ o', Built rules model registry factRules options o' ∧ o'.disabled = o.disabled ∧
      ∀ id, o'.removed.contains id = true ↔ o.removed.contains id = true ∨ id ∈ ids := by
  induction ids with
  | nil => exact ⟨o, h, rfl, by simp⟩
  | cons id ids ih =>
    obtain ⟨o', hbuilt, hdisabled, hremoved⟩ := ih fun id' hid' => hids id' (List.mem_cons_of_mem _ hid')
    have hid : id < o'.rules.length := hbuilt.parts.1 ▸ hids id List.mem_cons_self
    have hleave : (Optimizer.removeRule id).leave o' =
        { o' with triggers := o'.triggers.remove id, removed := o'.removed.insert id } := by
      rw [removeRule_leave, if_pos hid]
    refine ⟨_, hbuilt.removeRule id, ?_, fun id' => ?_⟩
    · rw [hleave]
      exact hdisabled
    · rw [hleave]
      show (o'.removed.insert id).contains id' = true ↔ _
      rw [contains_insert_iff, hremoved, List.mem_cons, or_left_comm]

end Built

/-- Once cleared, optimizers differ at most in what they were built with. -/
theorem Catalogued.clear_twins (h : o.Catalogued) (h' : o'.Catalogued) (rules : o'.rules = o.rules)
    (model : o'.model = o.model) (registry : o'.memo.registry = o.memo.registry)
    (factRules : o'.memo.factRules = o.memo.factRules) (options : o'.options = o.options)
    (removed : ∀ id, o'.removed.contains id = o.removed.contains id)
    (disabled : ∀ id, o'.disabled.contains id = o.disabled.contains id) : o.clear.Twins o'.clear := by
  have htriggers : o'.triggers = o.triggers := by
    rw [h'.triggers, h.triggers, rules, operandsOf_congr removed]
  have hclear : o'.clear = { o.clear with removed := o'.removed, disabled := o'.disabled } := by
    unfold clear
    rw [rules, model, registry, factRules, options, htriggers]
  rw [hclear]
  exact .intro o'.removed o'.disabled removed disabled

/-! ## Optimizers in use -/

variable [Operator Op] [Quantity Q]

/-- An optimizer that was built over a registry and then used in any way: to look, to note and to call the memo, one after
the other and also where that fails, to be cleared, and to have rules put in and taken out. -/
inductive Handled (registry : Registry Op) (factRules : List (FactRule Op)) : Optimizer Op Q → Prop
  | new (rules : List (Rule Op Q)) (model : CostModel Op Q) (options : Options) :
      Handled registry factRules (.new rules model registry factRules options)
  | act {o : Optimizer Op Q} {α : Type} {x : Action Op Q α} (plain : x.Plain) (handled : Handled registry factRules o) :
      Handled registry factRules (x.leave o)
  | clear {o : Optimizer Op Q} (handled : Handled registry factRules o) : Handled registry factRules o.clear
  | addRule {o : Optimizer Op Q} (rule : Rule Op Q) (handled : Handled registry factRules o) :
      Handled registry factRules ((addRule rule).leave o)
  | removeRule {o : Optimizer Op Q} (id : Nat) (handled : Handled registry factRules o) :
      Handled registry factRules ((removeRule id).leave o)

/-- A call is done to an optimizer as it is, or to what is left of it once it is cleared. -/
theorem Call.plain {x : Action Op Q α} (h : Call x) :
    x.Plain ∨ ∃ y : Action Op Q α, y.Plain ∧ ∀ o, x o = y o.clear := by
  cases h with
  | seed fuel plan required => exact .inl (plain_seed fuel plan required)
  | search fuel => exact .inl (plain_search fuel)
  | extract => exact .inl plain_extract
  | optimize fuel plan required =>
    exact .inr ⟨_, .bind (plain_seed fuel plan required) fun _ => .bind (plain_search fuel) fun _ => plain_extract,
      fun _ => rfl⟩
  | disableRule id => exact .inl (plain_disableRule id)
  | enableRule id => exact .inl (plain_enableRule id)
  | disableRulesNamed name => exact .inl (plain_forRulesNamed plain_disableRule name)
  | enableRulesNamed name => exact .inl (plain_forRulesNamed plain_enableRule name)
  | rowCount g => exact .inl (plain_rowCount g)

section Handled

variable {registry : Registry Op} {factRules : List (FactRule Op)}

theorem Handled.call (h : Handled registry factRules o) {x : Action Op Q α} (call : Call x) :
    Handled registry factRules (x.leave o) := by
  rcases call.plain with hplain | ⟨y, hplain, hsame⟩
  · exact h.act hplain
  · have hleave : x.leave o = y.leave o.clear := by
      unfold Action.leave
      rw [hsame]
    exact hleave ▸ h.clear.act hplain

/-- Between calls the host may set the cost model and the options, and take what was counted and recorded. -/
theorem Handled.set (h : Handled registry factRules o) (model : CostModel Op Q) (options : Options) (stats : Stats)
    (records : List (Record Q)) : Handled registry factRules
      { o with model := model, options := options, stats := stats, records := records } :=
  h.act (Action.plain_modify (f := fun o => { o with model := model, options := options, stats := stats, records := records })
    (fun _ => rfl) (fun _ => ⟨rfl, rfl⟩) fun _ _ _ => rfl)

theorem Handled.catalogued (h : Handled registry factRules o) : o.Catalogued := by
  induction h with
  | new rules model options => exact catalogued_new _ _ _ _ _
  | act plain _ ih => exact ih.of_rulebook (plain.steady _)
  | clear _ ih => exact ih.of_rulebook rfl
  | removeRule id _ ih => exact ih.removeRule id
  | @addRule o rule _ ih =>
    have hfree : o.removed.contains o.rules.length = false := by
      rw [Bool.eq_false_iff]
      exact fun hremoved => lt_irrefl _ (ih.removed _ hremoved)
    have hadded : ({ o with triggers := o.triggers.add o.rules.length rule.pattern,
                            rules := o.rules ++ [rule] } : Optimizer Op Q).Catalogued := by
      constructor
      · show o.triggers.add o.rules.length rule.pattern = .of (operandsOf (o.rules ++ [rule]) o.removed)
        rw [operandsOf_append rule hfree, ← TriggerIndex.add_of, ← ih.triggers]
      · intro id hid
        show id < (o.rules ++ [rule]).length
        rw [List.length_append]
        exact Nat.lt_add_right _ (ih.removed id hid)
    exact hadded.of_rulebook (((steady_matchEverywhere o.rules.length).bind fun _ => Action.steady_pure o.rules.length) _)

/-- The memo is one that calls lead to, and it is kept under the registry that the optimizer was built with. -/
theorem Handled.memo (h : Handled registry factRules o) :
    o.memo.Attempted ∧ o.memo.registry = registry ∧ o.memo.factRules = factRules := by
  have hplain : ∀ {o : Optimizer Op Q} {α : Type} {x : Action Op Q α}, x.Plain →
      o.memo.Attempted ∧ o.memo.registry = registry ∧ o.memo.factRules = factRules →
      (x.leave o).memo.Attempted ∧ (x.leave o).memo.registry = registry ∧ (x.leave o).memo.factRules = factRules := by
    intro o α x plain ⟨hattempted, hregistry, hfactRules⟩
    have hattempts := plain.attempts o
    obtain ⟨hregistry', hfactRules', -⟩ := Memo.stepwise_informed.attempts hattempts
    exact ⟨hattempted.attempts hattempts, hregistry'.trans hregistry, hfactRules'.trans hfactRules⟩
  induction h with
  | new rules model options => exact ⟨.empty _ _ _, rfl, rfl⟩
  | act plain _ ih => exact hplain plain ih
  | clear _ ih =>
    obtain ⟨-, hregistry, hfactRules⟩ := ih
    exact ⟨.empty _ _ _, hregistry, hfactRules⟩
  | @addRule o rule _ ih =>
    exact hplain (o := { o with triggers := o.triggers.add o.rules.length rule.pattern, rules := o.rules ++ [rule] })
      (.bind (plain_matchEverywhere o.rules.length) fun _ => .pure o.rules.length) ih
  | @removeRule o id _ ih =>
    rw [removeRule_leave]
    split <;> exact ih

/-! ## Calls -/

/-- However an optimizer was used, some optimizer just built has the same rules, of which the same are removed and disabled,
and on each that has a call ends with the same answer or the same error. What it leaves is the same but for the way in
which these two sets came about. -/
theorem Handled.optimize_afresh (h : Handled registry factRules o) :
    (∃ o', Built o.rules o.model registry factRules o.options o' ∧
      (∀ id, o'.removed.contains id = o.removed.contains id) ∧ ∀ id, o'.disabled.contains id = o.disabled.contains id) ∧
    ∀ o', Built o.rules o.model registry factRules o.options o' →
      (∀ id, o'.removed.contains id = o.removed.contains id) →
      (∀ id, o'.disabled.contains id = o.disabled.contains id) →
      ∀ fuel plan required, Action.Matches (optimize fuel plan required o) (optimize fuel plan required o') := by
  obtain ⟨-, hregistry, hfactRules⟩ := h.memo
  constructor
  · have hempty : ∀ id, (∅ : Std.TreeSet Nat).contains id = false := fun id => Std.TreeSet.contains_emptyc
    have hnew : Built o.rules o.model registry factRules o.options
        (.new o.rules o.model registry factRules o.options) := .new
    obtain ⟨o₁, hbuilt₁, hdisabled₁, hremoved₁⟩ := hnew.removeAll fun id (hid : id ∈ o.removed.toList) =>
      h.catalogued.removed id (Std.TreeSet.mem_toList.1 hid)
    obtain ⟨o₂, hbuilt₂, hremoved₂, hdisabled₂⟩ := hbuilt₁.disableAll o.disabled.toList
    refine ⟨o₂, hbuilt₂, fun id => ?_, fun id => ?_⟩
    · rw [hremoved₂, Bool.eq_iff_iff, hremoved₁, Std.TreeSet.mem_toList]
      exact or_iff_right (Bool.eq_false_iff.1 (hempty id))
    · rw [Bool.eq_iff_iff, hdisabled₂, hdisabled₁, Std.TreeSet.mem_toList]
      exact or_iff_right (Bool.eq_false_iff.1 (hempty id))
  · intro o' hbuilt removed disabled fuel plan required
    obtain ⟨rules', model', registry', factRules', options'⟩ := hbuilt.parts
    have htwins : o.clear.Twins o'.clear := h.catalogued.clear_twins hbuilt.catalogued rules' model'
      (registry'.trans hregistry.symm) (factRules'.trans hfactRules.symm) options' removed disabled
    have hplain : (do
        let _ ← seed fuel plan required
        search fuel
        extract : Action Op Q (Outcome Op Q)).Plain :=
      .bind (plain_seed fuel plan required) fun _ => .bind (plain_search fuel) fun _ => plain_extract
    exact hplain.twins htwins

end Handled

end Optimizer

namespace SmallHost

open Optimizer

/-- Used for a call, after which a rule was disabled and another one put in and taken out. -/
def worn : Optimizer Relational.Kind Nat :=
  (removeRule 2).leave ((addRule greedy).leave ((disableRule 0).leave ((optimize 100 joined byFirst).leave sorter)))

theorem worn_phase : (worn.phase, worn.rules.length, worn.memo.size) = (.done, 3, 9) := by
  cbv

/-- A second call on it ends as the first one on an optimizer of its rules. -/
theorem worn_afresh : Handled orders [] worn ∧ worn.phase = .done ∧
    ∃ o', Built worn.rules worn.model orders [] worn.options o' ∧
      Action.Matches (optimize 100 joined byFirst worn) (optimize 100 joined byFirst o') := by
  have hused : Handled orders [] ((disableRule 0).leave ((optimize 100 joined byFirst).leave sorter)) :=
    ((Handled.new [swap, implement] prices .default).call (.optimize 100 joined byFirst)).call (.disableRule 0)
  have hworn : Handled orders [] worn := .removeRule 2 (.addRule greedy hused)
  obtain ⟨⟨o', hbuilt, hremoved, hdisabled⟩, hsame⟩ := Handled.optimize_afresh hworn
  exact ⟨hworn, congrArg Prod.fst worn_phase, o', hbuilt, hsame o' hbuilt hremoved hdisabled 100 joined byFirst⟩

end SmallHost

end PlanSearch
