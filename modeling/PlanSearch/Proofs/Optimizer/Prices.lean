import PlanSearch.Proofs.Optimizer.Runs

/-!
# Prices are up to date

An optimizer prices an expression anew only when it is told of a change. If what an operation costs depends on the
operation alone, nothing is missed: in every state of a run, an expression has a price exactly if it is physical
and everything that it reads has a winner, and the price is the one that it would get over the winners of now.

    o.Run → … → entry.price.isSome ↔ all that the expression reads has winners
    o.Run → … → entry.price = some p → p.cost = sum of the operation and of the winners' costs
                                                                                    (prices_are_current)
-/

namespace PlanSearch

open Outline

namespace Optimizer

variable {Op Q : Type} [Operator Op] [Quantity Q] {o : Optimizer Op Q}

/-- The price has the cost of the operation, by its operator, data, traits and arity, summed up with those of its
inputs. -/
def Recomputed (model : CostModel Op Q) (fee : Op → Option Value → TraitSet → Nat → Cost Q) : Gauge Op Q :=
  fun x ps p => p.cost = model.sum (fee x.op x.data x.traits x.inputs.length) (ps.map Price.cost)

omit [Operator Op] [Quantity Q] in
theorem blind_recomputed {model : CostModel Op Q} {fee : Op → Option Value → TraitSet → Nat → Cost Q} :
    (Recomputed model fee).Blind := by
  intro x y ps p h hp
  unfold Recomputed
  rw [← h.op, ← h.data, ← h.traits, ← h.arity]
  exact hp

omit [Operator Op] [Quantity Q] in
/-- An expression is fed if all that it reads has winners. -/
theorem exists_feeds {m : Memo Op Q} {x : Expr Op}
    (h : ∀ r ∈ x.inputs, ∃ v, m.winner r = .ok (some v)) : ∃ vs, m.work.Feeds x vs := by
  unfold Work.Feeds
  generalize x.inputs = inputs at h
  induction inputs with
  | nil => exact ⟨[], .nil⟩
  | cons r rs ih =>
    obtain ⟨vs, hvs⟩ := ih fun r hr => h r (List.mem_cons_of_mem _ hr)
    obtain ⟨v, hv⟩ := h r List.mem_cons_self
    obtain ⟨s, hs, hwins⟩ := Option.bind_eq_some_iff.1 (winner_eq_ok hv).symm
    exact ⟨v :: vs, .cons ⟨s, hs, hwins⟩ hvs⟩

/-- In every state of a run, an expression with a price is physical, and all that it reads has winners. -/
theorem Run.priced (h : o.Run) {e : ExprId} {x : Expr Op} {g : GroupId} {p : Price Q}
    (hx : o.memo.outline.entry e = some (x, g)) (hp : o.memo.standings.price e = some p) :
    Operator.isLogical x.op = false ∧ ∀ r ∈ x.inputs, ∃ v, o.memo.winner r = .ok (some v) := by
  have hsettled := h.feasible
  obtain ⟨hphysical, costs, hinputs, -⟩ := hsettled.priced hx hp
  obtain ⟨vs, hfeeds, -⟩ := hsettled.exists_feeds hx hinputs
  refine ⟨hphysical, fun r hr => ?_⟩
  obtain ⟨v, -, s, hs, hv⟩ := (exists_of_forall₂ hfeeds).1 r hr
  exact ⟨v, winner_of_wins hs hv⟩

/-- If what an operation costs depends on its operator, its data, the traits that it delivers and the number of its
inputs, then in every state of a run a physical expression has a price exactly if everything that it reads has a
winner, and the price is the cost of its operation summed up with those of these winners, in order. Logical
expressions have no price. -/
theorem prices_are_current (h : o.Run) {fee : Op → Option Value → TraitSet → Nat → Cost Q}
    (hfee : ∀ x inputs operation, o.model.Charges x inputs operation →
      operation = fee x.op x.data x.traits x.inputs.length)
    {e : ExprId} {entry : Entry Op Q} (he : o.memo.exprs[e]? = some entry) :
    (Operator.isLogical entry.expr.op = true → entry.price = none) ∧
    (Operator.isLogical entry.expr.op = false →
      (entry.price.isSome ↔ ∀ r ∈ entry.expr.inputs, ∃ v, o.memo.winner r = .ok (some v)) ∧
      ∀ p, entry.price = some p → ∃ vs : List (Winner Q), entry.expr.inputs.mapM o.memo.winner = .ok (vs.map some) ∧
        p.cost = o.model.sum (fee entry.expr.op entry.expr.data entry.expr.traits entry.expr.inputs.length)
          (vs.map fun v => v.price.cost)) := by
  have hx : o.memo.outline.entry e = some (entry.expr, entry.group) := Memo.outline_entry_of he
  have hprice := Memo.standings_price_of he
  -- a fed expression has the price that is right
  have hright : ∀ vs, Operator.isLogical entry.expr.op = false → o.memo.work.Feeds entry.expr vs →
      ∃ p, entry.price = some p ∧ Recomputed o.model fee entry.expr (vs.map Winner.price) p := by
    intro vs hphysical hfeeds
    rw [← hprice]
    refine (h.rested (fun x ps p operation _ hcharges hcost _ => ?_) blind_recomputed).quiet.price hx hphysical hfeeds
    rw [hfee x _ operation hcharges] at hcost
    exact hcost
  refine ⟨fun hlogical => ?_, fun hphysical => ⟨⟨fun hsome => ?_, fun hall => ?_⟩, fun p hp => ?_⟩⟩
  · cases hp : entry.price with
    | none => rfl
    | some p =>
      obtain ⟨hphysical, -⟩ := h.priced hx (hprice.trans hp)
      rw [hlogical] at hphysical
      cases hphysical
  · obtain ⟨p, hp⟩ := Option.isSome_iff_exists.1 hsome
    exact (h.priced hx (hprice.trans hp)).2
  · obtain ⟨vs, hfeeds⟩ := exists_feeds hall
    obtain ⟨p, hp, -⟩ := hright vs hphysical hfeeds
    rw [hp]
    rfl
  · obtain ⟨vs, hfeeds⟩ := exists_feeds (h.priced hx (hprice.trans hp)).2
    obtain ⟨p', hp', hcost⟩ := hright vs hphysical hfeeds
    rw [hp] at hp'
    cases hp'
    refine ⟨vs, mapM_winner_of_feeds hfeeds, ?_⟩
    unfold Recomputed at hcost
    rw [hcost, List.map_map]
    rfl

section SmallHost

open SmallHost Relational

/-- The costs of the small host, by the operation alone. -/
def charge (op : Kind) (data : Option Value) (_ : TraitSet) (_ : Nat) : Cost Nat :=
  ⟨[if op = .physicalScan then tableRows data else 1]⟩

theorem charges_prices {x : Expr Kind} {inputs : List (Cost Nat)} {operation : Cost Nat}
    (h : prices.Charges x inputs operation) : operation = charge x.op x.data x.traits x.inputs.length := by
  obtain ⟨σ, answer, start, site, h⟩ := h
  cases h
  rfl

set_option maxRecDepth 100000 in
/-- The sort of the join costs one, and the join six. -/
theorem sorter_prices : ∃ (o : Optimizer Kind Nat) (entry : Entry Kind Nat) (p : Price Nat),
    o.Run ∧ o.memo.exprs[(⟨14⟩ : ExprId)]? = some entry ∧ Operator.isLogical entry.expr.op = false ∧
    entry.price = some p ∧ p.cost.amounts = [1, 1, 2, 3] ∧
    ∃ vs : List (Winner Nat), entry.expr.inputs.mapM o.memo.winner = .ok (vs.map some) ∧
      p.cost = prices.sum ⟨[1]⟩ (vs.map fun v => v.price.cost) := by
  have hrun : (answer? (optimizeLogged 20 joined byFirst) sorter).map (fun a =>
      (a.2.1.memo.exprs[(⟨14⟩ : ExprId)]?).bind fun entry => entry.price.map fun p =>
        (Operator.isLogical entry.expr.op, decide (entry.expr.op = .physicalScan), p.cost.amounts)) =
      some (some (false, false, [1, 1, 2, 3])) := by cbv
  obtain ⟨⟨fired, o, outcome⟩, h, hshown⟩ := Option.map_eq_some_iff.1 hrun
  obtain ⟨entry, he, hpriced⟩ := Option.bind_eq_some_iff.1 hshown
  obtain ⟨p, hp, hfacts⟩ := Option.map_eq_some_iff.1 hpriced
  simp only [Prod.mk.injEq, decide_eq_false_iff_not] at hfacts
  obtain ⟨hphysical, hop, hamounts⟩ := hfacts
  obtain ⟨hr, hmodel⟩ := run_of_optimizeLogged (blank_new _ _ _ _ _) rfl h
  have hprices : o.model = prices := hmodel
  have hcharge : ∀ x inputs operation, o.model.Charges x inputs operation →
      operation = charge x.op x.data x.traits x.inputs.length := by
    intro x inputs operation hcharges
    rw [hprices] at hcharges
    exact charges_prices hcharges
  obtain ⟨-, hall⟩ := prices_are_current hr hcharge he
  obtain ⟨vs, hvs, hcost⟩ := (hall hphysical).2 p hp
  rw [charge, if_neg hop, hprices] at hcost
  exact ⟨o, entry, p, hr, he, hphysical, hp, hamounts, vs, hvs, hcost⟩

end SmallHost

end Optimizer

end PlanSearch
