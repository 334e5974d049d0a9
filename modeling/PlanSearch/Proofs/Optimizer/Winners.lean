import PlanSearch.Proofs.Memo.Integrity
import PlanSearch.Proofs.Memo.Lowering
import PlanSearch.Proofs.Optimizer.Course

/-!
# Decisions on winners

Whatever a memo is asked to do, and whether that succeeds or fails, the winner of a sub group is never
replaced by a heavier one, also where the sub group becomes part of another. So the decisions that an
optimizer records on one sub group go down in weight, or stay as they are.

    o.Session → o.decisions.Pairwise fun a b => a.1 = b.1 → b.2 ≤ a.2         (winners_never_get_heavier)
-/

namespace PlanSearch

open Outline

namespace Optimizer

variable {Op Q : Type} [LinearOrder Q] [Quantity Q] [Operator Op]

/-- An optimizer that was built or cleared, and then used in any way, by calls that may have failed. The
host may call the memo directly, and change the cost model, the options and the statistics. -/
inductive Session : Optimizer Op Q → Prop
  | new (rules : List (Rule Op Q)) (model : CostModel Op Q) (registry : Registry Op)
      (factRules : List (FactRule Op)) (options : Options) :
      Session (.new rules model registry factRules options)
  | clear (o : Optimizer Op Q) : Session o.clear
  | host {o : Optimizer Op Q} (model : CostModel Op Q) (options : Options) (stats : Stats)
      (before : Session o) : Session { o with model := model, options := options, stats := stats }
  | memo {o : Optimizer Op Q} {m : Memo Op Q} (before : Session o) (attempt : o.memo.Attempt m) :
      Session { o with memo := m }
  | addRule {o : Optimizer Op Q} (rule : Rule Op Q) (before : Session o) :
      Session ((Optimizer.addRule rule).leave o)
  | removeRule {o : Optimizer Op Q} (id : Nat) (before : Session o) :
      Session ((Optimizer.removeRule id).leave o)
  | call {o : Optimizer Op Q} {α : Type} {x : Action Op Q α} (call : Call x) (before : Session o) :
      Session (x.leave o)

/-- The decisions on one sub group go down in weight, and its winner weighs no more than any of them. -/
structure Declining (o : Optimizer Op Q) : Prop where
  tidy : o.memo.outline.Tidy
  sorted : o.decisions.Pairwise fun a b => a.1 = b.1 → b.2 ≤ a.2
  latest : ∀ d ∈ o.decisions, ∃ v, o.memo.winnerOf d.1 = some v ∧ v.price.weight ≤ d.2

variable {o o' : Optimizer Op Q} {P : Terms Op Q}

omit [Quantity Q] [Operator Op] in
/-- Without decisions there is nothing to compare. -/
theorem declining_of_nil (hm : o.memo.outline.Tidy) (hd : o.decisions = []) : o.Declining where
  tidy := hm
  sorted := by rw [hd]; exact .nil
  latest d hmem := by rw [hd] at hmem; cases hmem

omit [Quantity Q] [Operator Op] in
theorem Declining.of_same (h : o.Declining) (hm : o'.memo = o.memo) (hd : o'.decisions = o.decisions) :
    o'.Declining where
  tidy := hm ▸ h.tidy
  sorted := hd ▸ h.sorted
  latest d hmem := by rw [hm]; exact h.latest d (hd ▸ hmem)

variable [Quantity.Exact Q]

omit [Operator Op] in
theorem Declining.edits (h : o.Declining) {m : Memo Op Q} {ps : List (GroupId × GroupId)}
    (he : Edits P o.memo.work (m.workAt .rest [] ps)) :
    ({ o with memo := m } : Optimizer Op Q).Declining where
  tidy := Memo.tidy_of_edits h.tidy he
  sorted := h.sorted
  latest d hmem := by
    obtain ⟨v, hv, hle⟩ := h.latest d hmem
    obtain ⟨v', hv', hle'⟩ := Memo.winnerOf_le h.tidy he hv
    exact ⟨v', hv', hle'.trans hle⟩

omit [Quantity Q] [Operator Op] [Quantity.Exact Q] in
/-- A decision is recorded with the weight of the winner, which is that of no decision before. -/
theorem Declining.decide (h : o.Declining) {s : SubGroupId} {v : Winner Q} {e : Event Q}
    (wins : o.memo.winnerOf s = some v) (event : e.decision? = some (s, v.price.weight)) :
    (o.withEvent e).Declining := by
  rcases decisions_withEvent o e with hd | ⟨d, hd, hdecisions⟩
  · exact h.of_same (memo_withEvent o e) hd
  · rw [event] at hd
    cases hd
    refine ⟨(memo_withEvent o e).symm ▸ h.tidy, ?_, fun d hmem => ?_⟩
    · rw [hdecisions, List.pairwise_append]
      refine ⟨h.sorted, List.pairwise_singleton _ _, fun a ha b hb hab => ?_⟩
      cases List.mem_singleton.1 hb
      obtain ⟨v', hv', hle⟩ := h.latest a ha
      rw [hab, wins] at hv'
      cases hv'
      exact hle
    · rw [memo_withEvent]
      rw [hdecisions] at hmem
      rcases List.mem_append.1 hmem with hmem | hmem
      · exact h.latest d hmem
      · cases List.mem_singleton.1 hmem
        exact ⟨v, wins, le_refl _⟩

omit [Operator Op] in
theorem Declining.moves (h : o.Declining) (hm : o.Moves P o') : o'.Declining := by
  induction hm with
  | refl => exact h
  | tail _ hmove ih =>
    cases hmove with
    | note memo decisions _ => exact ih.of_same memo decisions
    | decide wins event => exact ih.decide wins event
    | edit edits => exact ih.edits edits

omit [Operator Op] in
/-- Where an action runs in moves, it does not matter whether it succeeds. -/
theorem Declining.leave {α : Type} {x : Action Op Q α} (h : o.Declining) (hx : Runs P o o x) :
    (x.leave o).Declining := by
  obtain ⟨o₁, m, ps, hmoves, hedits, hleave⟩ := hx.leave
  rw [hleave]
  exact (h.moves hmoves).edits hedits

omit [Quantity Q] [Operator Op] [Quantity.Exact Q] in
theorem declining_clear (o : Optimizer Op Q) : o.clear.Declining :=
  declining_of_nil (Memo.orderly_empty _ _ _).ordered.tidy rfl

theorem Declining.call {α : Type} {x : Action Op Q α} (h : o.Declining) (hx : Call x) :
    (x.leave o).Declining := by
  have hf : ∀ {o : Optimizer Op Q}, o.Declining → o.Fit o.model := fun h => ⟨h.tidy, rfl⟩
  cases hx with
  | seed fuel plan required => exact h.leave (runs_seed (hf h) .refl fuel plan required)
  | search fuel => exact h.leave (runs_search (hf h) .refl fuel)
  | extract => exact h.leave (P := o.model.terms) (runs_extract .refl)
  | disableRule id => exact h.of_same rfl rfl
  | enableRule id => exact h.leave (P := o.model.terms) (runs_enableRule .refl id)
  | disableRulesNamed name =>
    refine h.leave (P := o.model.terms) (runs_forRulesNamed (fun id o₁ h₁ => ?_) .refl name)
    exact h₁.note rfl rfl rfl
  | enableRulesNamed name =>
    exact h.leave (P := o.model.terms) (runs_forRulesNamed (fun id o₁ h₁ => runs_enableRule h₁ id) .refl name)
  | rowCount g => exact h.of_same rfl rfl
  | optimize fuel plan required =>
    -- A whole call starts from the cleared optimizer.
    have hc := declining_clear o
    have hruns : Runs o.model.terms o.clear o.clear (do
        let _ ← Optimizer.seed fuel plan required
        Optimizer.search fuel
        Optimizer.extract : Action Op Q (Outcome Op Q)) :=
      (runs_seed (hf hc) .refl fuel plan required).bind fun _ _ _ h₁ =>
        (runs_search (hf hc) h₁ fuel).bind fun _ _ _ h₂ => runs_extract h₂
    exact hc.leave hruns

theorem Session.declining (h : o.Session) : o.Declining := by
  induction h with
  | new rules model registry factRules options =>
    exact declining_of_nil (Memo.orderly_empty _ _ _).ordered.tidy rfl
  | clear o => exact declining_clear o
  | host model options stats _ ih => exact ih.of_same rfl rfl
  | memo _ attempt ih =>
    obtain ⟨ps, hedits⟩ := attempt.edits ih.tidy
    exact ih.edits hedits
  | @addRule o rule _ ih => exact ih.leave (P := o.model.terms) (runs_addRule .refl rule)
  | @removeRule o id _ ih => exact ih.leave (P := o.model.terms) (runs_removeRule .refl id)
  | call call _ ih => exact ih.call call

/-- No call on a memo, whether it succeeds or fails, makes the winner heavier of what the name of a sub group
stands for, and the decisions of an optimizer on one sub group never go up in weight. -/
theorem winners_never_get_heavier :
    (∀ m m' : Memo Op Q, m.Attempted → m.Attempt m' → ∀ s v, m.winnerOf s = some v →
      ∃ v', m'.winnerOf s = some v' ∧ v'.price.weight ≤ v.price.weight) ∧
    ∀ o : Optimizer Op Q, o.Session → o.decisions.Pairwise fun a b => a.1 = b.1 → b.2 ≤ a.2 := by
  refine ⟨fun m m' hm h s v hv => ?_, fun o ho => ho.declining.sorted⟩
  obtain ⟨ps, hedits⟩ := h.edits hm.tidy
  exact Memo.winnerOf_le hm.tidy hedits hv

section SmallHost

open SmallHost Relational Memo

instance : Quantity.Exact Nat where
  less_iff a b := by simp [Quantity.less]
  same_iff a b := by simp [Quantity.same]

/-- Puts a table of one row in the place of every table. -/
def shrink : Rule Kind Nat where
  name := "shrink"
  pattern := .node (.exactly .physicalScan) []
  isImplementation := false
  priority := 0
  apply _ _ := .ok [table .physicalScan 1]

/-- Runs tables, and then shrinks them. -/
def shrinker : Optimizer Kind Nat := .new [implement, shrink] prices orders [] .default

/-- A whole call over a table of three rows. -/
def shrunk : Optimizer Kind Nat :=
  (optimize 20 (bare .scan (some (.i64 3)) []) orders.any).leave shrinker

set_option maxRecDepth 100000 in
theorem decisions_shrunk : shrunk.decisions = [(⟨2⟩, 3), (⟨2⟩, 1)] := by
  cbv

set_option maxRecDepth 100000 in
theorem winner_stacked : (stacked.winnerOf ⟨22⟩).map (fun v => v.price.weight) = some 1 := by
  cbv

/-- Where a winner of weight one gets a price of nine, some winner of weight one at most is left. And where
a table of three rows turns out to have one row, two decisions are recorded, for three and then for one. -/
theorem shrunk_never_heavier :
    (∃ v, ((Update.step (recordPrice ⟨14⟩ ⟨⟨[9]⟩, 9⟩)).leave stacked).winnerOf ⟨22⟩ = some v ∧
      v.price.weight ≤ 1) ∧
    shrunk.decisions = [(⟨2⟩, 3), (⟨2⟩, 1)] ∧
    shrunk.decisions.Pairwise fun a b => a.1 = b.1 → b.2 ≤ a.2 := by
  obtain ⟨hmemo, hsession⟩ := @winners_never_get_heavier Kind Nat _ _ _ _
  obtain ⟨v, hv, hweight⟩ := Option.map_eq_some_iff.1 winner_stacked
  obtain ⟨v', hv', hle⟩ := hmemo stacked _ stacked_reached.attempted (.recordPrice ⟨14⟩ ⟨⟨[9]⟩, 9⟩)
    ⟨22⟩ v hv
  refine ⟨⟨v', hv', hweight ▸ hle⟩, decisions_shrunk, hsession shrunk ?_⟩
  exact .call (.optimize 20 _ orders.any) (.new _ _ _ _ _)

end SmallHost

end Optimizer

end PlanSearch
