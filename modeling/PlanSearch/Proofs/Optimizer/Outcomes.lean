import PlanSearch.Proofs.Optimizer.Optimality

/-!
# What plans cost

The cost that is reported with a plan is what the winner at the top was priced at. Since then, a winner below it
may have given way to another one of the same weight, in a tie or when two sub groups became one. So the cost need
not be that of the plan which is taken out. But where costs are added up, what is reported weighs as much.

    m.Settled … → m.bestPlanWithin us r = .ok n → n weighs what the winner for r weighs       (bestPlanWithin_weight)
    optimize fuel plan required o = .ok outcome o' → outcome.cost = some c →
      o.model.weight c = o.model.weight (o.model.evaluate tariff outcome.plan.toPlan)     (reported_cost_weighs_plan)
-/

namespace PlanSearch

open Outline

namespace CostModel

variable {Op Q : Type}

mutual

/-- The cost of a plan from the bottom up, where a tariff has the costs of single operations. -/
def evaluate (model : CostModel Op Q) (tariff : Tariff Op (Cost Q)) : Plan Op → Cost Q
  | .node head inputs => model.sum
    (tariff head.op (head.data.map Value.canon) head.traits.canon inputs.length) (model.evaluateAll tariff inputs)
  | .group _ => model.zero

/-- The costs of several plans. -/
def evaluateAll (model : CostModel Op Q) (tariff : Tariff Op (Cost Q)) : List (Plan Op) → List (Cost Q)
  | [] => []
  | p :: ps => model.evaluate tariff p :: model.evaluateAll tariff ps

end

theorem evaluateAll_eq_map (model : CostModel Op Q) (tariff : Tariff Op (Cost Q)) (ps : List (Plan Op)) :
    model.evaluateAll tariff ps = ps.map (model.evaluate tariff) := by
  induction ps with
  | nil => rfl
  | cons p ps ih => rw [evaluateAll, ih, List.map_cons]

/-- What an operation costs is told by the operation alone. -/
def ChargesBy (model : CostModel Op Q) (tariff : Tariff Op (Cost Q)) : Prop :=
  ∀ x inputs operation, model.Charges x inputs operation → operation = tariff.fee x

theorem ChargesBy.keeps [Quantity Q] {model : CostModel Op Q} {tariff : Tariff Op (Cost Q)}
    (h : model.ChargesBy tariff) : model.Keeps fun op data traits arity => model.weight (tariff op data traits arity) :=
  fun x inputs operation hcharges => congrArg model.weight (h x inputs operation hcharges)

end CostModel

/-- What is told of the answers to the elements of a list, where these go with those of another list. -/
theorem map_of_mapM_forall₂ {α β γ δ ε : Type} {f : α → Except ε β} {R : α → γ → Prop} {p : β → δ} {q : γ → δ}
    {as : List α} {bs : List β} {cs : List γ} (h : as.mapM f = .ok bs) (hr : List.Forall₂ R as cs)
    (hpq : ∀ a c b, R a c → f a = .ok b → p b = q c) : bs.map p = cs.map q := by
  induction hr generalizing bs with
  | nil => cases h; rfl
  | cons hac _ ih =>
    rw [List.mapM_cons] at h
    obtain ⟨b₁, h₁, h⟩ := bind_eq_ok h
    obtain ⟨bs₁, h₂, h⟩ := bind_eq_ok h
    cases h
    rw [List.map_cons, List.map_cons, hpq _ _ b₁ hac h₁, ih h₂]

section Weight

variable {Op Q : Type} [Operator Op] [Quantity Q] [PartialOrder Q] [AddCommMonoid Q] [IsOrderedAddMonoid Q]
variable [CanonicallyOrderedAdd Q] {m : Memo Op Q} {model : CostModel Op Q} {tariff : Tariff Op (Cost Q)}

/-- The best plan for a reference weighs what the winner does. The induction is on the sub groups not yet
entered. -/
theorem Memo.bestPlanWithin_weight (ha : model.Additive)
    (h : m.Settled model (fun op data traits arity => model.weight (tariff op data traits arity)) Price.weight)
    {us : List SubGroupId} {r : SubGroupRef} {s : SubGroupId} {v : Winner Q} {n : PlanNode Op}
    (hs : m.outline.subOf r = some s) (hv : m.standings.wins s = some v) (ok : m.bestPlanWithin us r = .ok n) :
    model.weight (model.evaluate tariff n.toPlan) = v.price.weight := by
  induction hl : us.length using Nat.strongRecOn generalizing us r s v n with
  | ind k ih =>
  obtain ⟨x, g, vs, hx, hfeeds, hworth⟩ := h.worth_eq hv
  obtain ⟨rowType, heq⟩ := bestPlanWithin_eq h.tidy us hs hv hx
  rw [heq] at ok
  by_cases hmem : s ∈ us
  · rw [if_pos hmem] at ok
    obtain ⟨inputs, hinputs, ok⟩ := bind_eq_ok ok
    cases ok
    have hweights : inputs.map (fun p => model.weight (model.evaluate tariff p)) =
        vs.map fun v => v.price.weight := by
      refine map_of_mapM_forall₂ hinputs hfeeds fun i v p hiv hp => ?_
      obtain ⟨t, ht, hwins⟩ := hiv
      obtain ⟨n, hn, hp⟩ := bind_eq_ok hp
      cases hp
      exact ih _ (hl ▸ length_erase_lt hmem) ht hwins hn rfl
    have hlength : inputs.length = x.inputs.length := by
      rw [hfeeds.length_eq, ← List.length_map (fun v : Winner Q => v.price.weight), ← hweights, List.length_map]
    show model.weight (model.sum (tariff x.op (x.data.map Value.canon) x.traits.canon inputs.length)
      (model.evaluateAll tariff inputs)) = v.price.weight
    rw [ha.weight_sum, CostModel.evaluateAll_eq_map, List.map_map, hlength]
    show _ + (inputs.map fun p => model.weight (model.evaluate tariff p)).sum = _
    rw [hweights, hworth]
    rfl
  · rw [if_neg hmem] at ok
    cases ok

end Weight

namespace Optimizer

variable {Op Q : Type} [Operator Op] [Quantity Q] [LinearOrder Q] [Quantity.Exact Q] [AddCommMonoid Q]
variable [IsOrderedAddMonoid Q] [CanonicallyOrderedAdd Q] {o o' : Optimizer Op Q} {tariff : Tariff Op (Cost Q)}

/-- A plan taken out of a state of a run weighs what is reported. -/
theorem Run.extracted_weight (h : o.Run) (ha : o.model.Additive) (hc : o.model.ChargesBy tariff)
    {outcome : Outcome Op Q} (ok : extract o = .ok outcome o') {c : Cost Q} (cost : outcome.cost = some c) :
    o.model.weight c = o.model.weight (o.model.evaluate tariff outcome.plan.toPlan) := by
  have hsettled := h.settled Memo.ranks_weight (hc.keeps.gauges ha)
  obtain ⟨root, -, ⟨w, hbest, hwinner, hcost⟩ | ⟨-, hnone⟩⟩ := extract_eq_ok ok
  · rw [cost] at hcost
    obtain ⟨v, rfl, rfl⟩ := Option.map_eq_some_iff.1 hcost.symm
    obtain ⟨s, hs, hv⟩ := Option.bind_eq_some_iff.1 (winner_eq_ok hwinner).symm
    rw [Memo.bestPlanWithin_weight ha hsettled hs hv hbest]
    exact (hsettled.achieved.wins s v hv).1.symm
  · rw [cost] at hnone
    cases hnone

/-- Where costs are added up from what each operation costs by itself, the cost that is reported with a plan weighs
what the plan weighs from the bottom up. -/
theorem reported_cost_weighs_plan (ha : o.model.Additive) (hc : o.model.ChargesBy tariff) {fuel : Nat}
    {plan : PlanNode Op} {required : TraitSet} {outcome : Outcome Op Q}
    (ok : optimize fuel plan required o = .ok outcome o') {c : Cost Q} (cost : outcome.cost = some c) :
    o.model.weight c = o.model.weight (o.model.evaluate tariff outcome.plan.toPlan) := by
  have ok := run_modify_bind_eq_ok ok
  obtain ⟨g, o₁, hseed, ok⟩ := run_bind_eq_ok ok
  obtain ⟨_, o₂, hsearch, hextract⟩ := run_bind_eq_ok ok
  have hb := blank_clear o
  obtain ⟨hfit, hmoves⟩ := hb.moves hseed (search_advances hsearch)
  have hmodel : o₂.model = o.model := (hmoves.fit hfit).model
  have hrun : o₂.Run := .call (.search fuel) (.call (.seed fuel plan required) (.start hb rfl) hseed) hsearch
  rw [← hmodel] at ha hc ⊢
  exact hrun.extracted_weight ha hc hextract cost

section SmallHost

open SmallHost Relational

/-- Costs have two amounts. What is read by an index costs the second one, and everything else the first. -/
def split : CostModel Kind Nat :=
  { prices with
    operationCost x _ _ := .done (.ok ⟨if x.op = .indexScan then [0, 1] else [1, 0]⟩)
    weigh cost := cost.amounts.getD 0 0 + cost.amounts.getD 1 0
    accumulate a b := ⟨[a.amounts.getD 0 0 + b.amounts.getD 0 0, a.amounts.getD 1 0 + b.amounts.getD 1 0]⟩ }

/-- The two amounts of an operation, by its operator. -/
def splitFees : Tariff Kind (Cost Nat) := fun op _ _ _ => ⟨if op = .indexScan then [0, 1] else [1, 0]⟩

theorem split_additive : split.Additive where
  weight_accumulate _ _ := Nat.add_add_add_comm _ _ _ _

theorem split_chargesBy : split.ChargesBy splitFees := by
  rintro x inputs operation ⟨σ, answer, start, site, h⟩
  cases h
  rfl

/-- Reads a table by an index. -/
def reindex : Rule Kind Nat where
  name := "reindex"
  pattern := .node (.exactly .physicalScan) []
  isImplementation := false
  priority := 0
  apply _ n := .ok [.node { n.head with op := .indexScan } []]

/-- Tables are read by an index, and of two expressions of equal weight the newer one wins. -/
def indexer : Optimizer Kind Nat :=
  .new [reindex] split orders [] { Options.default with tieBreak := .higherId }

set_option maxRecDepth 100000 in
theorem answer_filtered : (answer? (optimize 20 filtered orders.any) indexer).map (fun outcome =>
    (outcome.cost, split.evaluate splitFees outcome.plan.toPlan)) = some (some ⟨[2, 0]⟩, ⟨[1, 1]⟩) := by
  cbv

/-- A filter was priced over a scan. When reading by an index wins the tie with the scan, the filter keeps the cost
that it had, and its weight is that of the plan. -/
theorem reported_cost_filtered : ∃ outcome o',
    optimize 20 filtered orders.any indexer = .ok outcome o' ∧ outcome.cost = some ⟨[2, 0]⟩ ∧
    split.evaluate splitFees outcome.plan.toPlan = ⟨[1, 1]⟩ ∧
    split.weight ⟨[2, 0]⟩ = split.weight (split.evaluate splitFees outcome.plan.toPlan) := by
  obtain ⟨outcome, hanswer, hshown⟩ := Option.map_eq_some_iff.1 answer_filtered
  obtain ⟨hcost, hplan⟩ := Prod.mk.inj hshown
  obtain ⟨o', ok⟩ := answer?_eq_some hanswer
  exact ⟨outcome, o', ok, hcost, hplan, reported_cost_weighs_plan split_additive split_chargesBy ok hcost⟩

end SmallHost

end Optimizer

end PlanSearch
