import PlanSearch.Proofs.Optimizer.Prices

/-!
# Winners are the best there is

Where costs are added up, and what an operation costs depends on the operation alone, a sub group has a winner in
every state of a run if what it asks for can be derived at all, and then no derivation costs less than the winner
weighs. It does not matter in which order winners improve, when groups turn out to be one, and how late a sub
group is asked for.

    o.Run → … → sub.winner.isSome ↔ ∃ c, o.memo.Derives tariff sub.ref c
    o.Run → … → sub.winner = some v → IsLeast {c | o.memo.Derives tariff sub.ref c} v.price.weight
                                                                                    (winners_are_optimal)
-/

namespace PlanSearch

open Outline

/-- What an operation weighs is told by the operation alone. -/
def CostModel.Keeps {Op Q : Type} [Quantity Q] (model : CostModel Op Q) (tariff : Tariff Op Q) : Prop :=
  ∀ x inputs operation, model.Charges x inputs operation → model.weight operation = tariff.fee x

/-- Where weights are added up, a price weighs what the operation costs, and what the prices below it weigh. -/
theorem CostModel.Keeps.gauges {Op Q : Type} [Quantity Q] [AddCommMonoid Q] {model : CostModel Op Q}
    {tariff : Tariff Op Q} (hk : model.Keeps tariff) (ha : model.Additive) :
    model.Gauges (tariff.gauge Price.weight) := by
  intro x ps p operation hps hcharges hcost hweight
  have hweights : (ps.map Price.cost).map model.weight = ps.map Price.weight := by
    rw [List.map_map]
    exact List.map_congr_left fun q hq => (hps q hq).symm
  show p.weight = tariff.fee x + (ps.map Price.weight).sum
  rw [hweight, hcost, ha.weight_sum, hk x _ operation hcharges, hweights]

namespace Optimizer

variable {Op Q : Type} [Operator Op] [Quantity Q] {o : Optimizer Op Q}

/-- Where costs are added up from what each operation costs by itself, a sub group has a winner in every state of
a run exactly if it has a derivation, and the winner weighs the minimum over all of its derivations. -/
theorem winners_are_optimal [LinearOrder Q] [Quantity.Exact Q] [AddCommMonoid Q] [IsOrderedAddMonoid Q]
    [CanonicallyOrderedAdd Q] (h : o.Run) (ha : o.model.Additive) {tariff : Tariff Op Q}
    (hk : o.model.Keeps tariff) {s : SubGroupId} {sub : SubGroup Q} (hs : o.memo.subGroups[s]? = some sub) :
    (sub.winner.isSome ↔ ∃ c, o.memo.Derives tariff sub.ref c) ∧
    ∀ v, sub.winner = some v → IsLeast {c | o.memo.Derives tariff sub.ref c} v.price.weight := by
  have hsettled := h.settled Memo.ranks_weight (hk.gauges ha)
  have href : o.memo.outline.sub s = some sub.ref := by
    rw [Memo.outline_sub, hs]
    rfl
  have hwins := Memo.standings_wins_of hs
  refine ⟨?_, fun v hv => hsettled.isLeast href (hwins.trans hv)⟩
  rw [← hwins]
  exact hsettled.isSome_iff href

section SmallHost

open SmallHost Relational

/-- What the operations of the small host cost. -/
def fees : Tariff Kind Nat := fun op data _ _ => if op = .physicalScan then tableRows data else 1

theorem prices_additive : prices.Additive where
  weight_accumulate _ _ := List.sum_append

theorem prices_keeps : prices.Keeps fees := by
  intro x inputs operation hcharges
  rw [charges_prices hcharges]
  have hrows : tableRows (x.data.map Value.canon) = tableRows x.data := by
    unfold tableRows
    rw [Option.map_map, show Value.canon ∘ Value.canon = Value.canon from funext Value.canon_canon]
  show (if x.op = .physicalScan then tableRows x.data else 1) + 0 =
    if x.op = .physicalScan then tableRows (x.data.map Value.canon) else 1
  rw [hrows, Nat.add_zero]

set_option maxRecDepth 100000 in
/-- Tables of two and of three rows are joined and sorted for seven at best. -/
theorem sorter_is_optimal : ∃ (o : Optimizer Kind Nat) (sub : SubGroup Nat) (v : Winner Nat),
    o.Run ∧ o.memo.subGroups[(⟨8⟩ : SubGroupId)]? = some sub ∧ sub.winner = some v ∧ v.price.weight = 7 ∧
    IsLeast {c | o.memo.Derives fees sub.ref c} 7 := by
  have hrun : (answer? (optimizeLogged 20 joined byFirst) sorter).map (fun a =>
      (a.2.1.memo.subGroups[(⟨8⟩ : SubGroupId)]?).bind fun sub => sub.winner.map fun v => v.price.weight) =
      some (some 7) := by cbv
  obtain ⟨⟨fired, o, outcome⟩, h, hshown⟩ := Option.map_eq_some_iff.1 hrun
  obtain ⟨sub, hs, hwinner⟩ := Option.bind_eq_some_iff.1 hshown
  obtain ⟨v, hv, hweight⟩ := Option.map_eq_some_iff.1 hwinner
  obtain ⟨hr, hmodel⟩ := run_of_optimizeLogged (blank_new _ _ _ _ _) rfl h
  have hprices : o.model = prices := hmodel
  obtain ⟨-, hleast⟩ := winners_are_optimal hr (hprices ▸ prices_additive) (hprices ▸ prices_keeps) hs
  exact ⟨o, sub, v, hr, hs, hv, hweight, hweight ▸ hleast v hv⟩

end SmallHost

end Optimizer

end PlanSearch
