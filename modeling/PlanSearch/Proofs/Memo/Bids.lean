import PlanSearch.Proofs.Memo.Following

/-!
# Bids

A member of a group bids its price for a sub group if it delivers what the sub group asks for, and reads the group
only under traits that do not. Bids come up at various times: a price is recorded, a sub group is opened, groups are
merged and take over each other's members, and an expression inherits the price of a twin that is dropped. Whenever a
call has succeeded, each of these bids was offered, so no winner weighs more than any bid that stands.

    m.outline.subOf r = some s → ((∃ x, m.Bids r e x p) ↔ m.work.Candidate s e p)                        (bids_iff)
    Reached m → m.work.Offered Price.weight                                                       (Reached.offered)
-/

namespace PlanSearch

open Outline

/-- An expression may win a sub group if it delivers what is required, and whatever it reads in the group delivers
less. -/
theorem Outline.eligible_iff {Op : Type} {o : Outline Op} {registry : Registry Op} {x : Expr Op} {r : SubGroupRef} :
    o.eligible registry x r = true ↔ registry.satisfies x.traits r.traits = true ∧
      ∀ i ∈ x.inputs, o.reduce i.group = r.group → registry.satisfies i.traits r.traits = false := by
  simp [Outline.eligible]

namespace Memo

variable {Op Q : Type} {m : Memo Op Q} {r : SubGroupRef} {s : SubGroupId} {e : ExprId} {x : Expr Op} {p : Price Q}

/-- The member `e` of the group of a reference, the expression `x`, bids the price `p` for the sub group. -/
structure Bids (m : Memo Op Q) (r : SubGroupRef) (e : ExprId) (x : Expr Op) (p : Price Q) : Prop where
  member : e ∈ m.members r.group
  known : m.getExpr e = .ok x
  price : m.priceOf e = some p
  delivers : m.registry.satisfies x.traits r.traits = true
  apart : ∀ i ∈ x.inputs, m.reduceGroup i.group = m.reduceGroup r.group → m.registry.satisfies i.traits r.traits = false

/-- The candidates for the sub group that a reference leads to are the members of its group that may win what it asks
for. -/
theorem candidate_iff (ht : m.outline.Tidy) (hs : m.outline.subOf r = some s) :
    m.work.Candidate s e p ↔ ∃ x, m.outline.entry e = some (x, m.outline.reduce r.group) ∧
      m.standings.price e = some p ∧ m.outline.eligible m.registry x (m.outline.reduceRef r) = true := by
  obtain ⟨ref, href, htraits, hgroup⟩ := ht.subOf_iff.1 hs
  have hlive : m.outline.reduce r.group = ref.group := by
    obtain ⟨c, hc, -⟩ := (ht.indexed.filed s ref href).resolve_left id
    rw [← hgroup, ht.sound.names.reduce_of_live (by rw [hc]; rfl)]
  have helig : ∀ x : Expr Op,
      m.outline.eligible m.registry x ref = m.outline.eligible m.registry x (m.outline.reduceRef r) := fun x => by
    rw [Bool.eq_iff_iff, eligible_iff, eligible_iff]
    simp only [Outline.reduceRef, ← hlive, m.registry.satisfies_congr (TraitSet.same_refl _) htraits]
  constructor
  · rintro ⟨x, ref', hx, href', hp, hel⟩
    cases href.symm.trans href'
    exact ⟨x, hlive ▸ hx, hp, (helig x).symm.trans hel⟩
  · rintro ⟨x, hx, hp, hel⟩
    exact ⟨x, ref, hlive ▸ hx, href, hp, (helig x).trans hel⟩

/-- Who bids by a reference is a candidate for the sub group that it leads to. -/
theorem bids_iff (ht : m.outline.Tidy) (hs : m.outline.subOf r = some s) :
    (∃ x, m.Bids r e x p) ↔ m.work.Candidate s e p := by
  have hnames := ht.sound.names
  have hprice : ∀ {x : Expr Op} {g : GroupId}, m.outline.entry e = some (x, g) →
      m.priceOf e = m.standings.price e := fun hx => by
    have hself : m.reduceExpr e = e := hnames.reduceExpr_of_live (by rw [hx]; rfl)
    unfold priceOf
    rw [hself]
    rfl
  rw [candidate_iff ht hs]
  constructor
  · rintro ⟨x, hb⟩
    obtain ⟨y, hy⟩ := (mem_members ht.sound).1 hb.member
    cases (getExpr_of_entry hnames hy).symm.trans hb.known
    exact ⟨x, hy, (hprice hy).symm.trans hb.price, eligible_iff.2 ⟨hb.delivers, hb.apart⟩⟩
  · rintro ⟨x, hx, hp, hel⟩
    obtain ⟨hdelivers, hapart⟩ := eligible_iff.1 hel
    exact ⟨x, (mem_members ht.sound).2 ⟨x, hx⟩, getExpr_of_entry hnames hx, (hprice hx).trans hp, hdelivers, hapart⟩

section Reached

variable [Operator Op] [Quantity Q] [LinearOrder Q] [Quantity.Exact Q]

/-- Every candidate has been offered, whatever was called. The induction is on the calls; what each of them keeps is
what its edits keep. -/
theorem Reached.offered (h : Reached m) : m.work.Offered Price.weight := by
  induction h with
  | empty registry factRules tieBreak =>
    rintro s e p ⟨x, r, hx, -⟩
    simp [work, workAt, outline, Memo.empty] at hx
  | @call m m' before call ih =>
    have ht := before.orderly.ordered.tidy
    exact Edits.offered ranks_weight (call.edits ht) (sound_of_tidy ht []) ih

/-- No winner weighs more than a bid: where anyone bids for a sub group, it has a winner, and one that weighs no more
than the bid. Prices may have been recorded, and raised, in any way. -/
theorem Reached.winner_le_bid (h : Reached m) (hs : m.findSubGroup? r = some s) (hb : m.Bids r e x p) :
    ∃ v, m.winner r = .ok (some v) ∧ v.price.weight ≤ p.weight := by
  have ht := h.orderly.ordered.tidy
  have hsub := (subOf_eq m r).trans hs
  have hidle : m.work.Idle := ⟨rfl, rfl⟩
  obtain ⟨v, hv, hle⟩ := (h.offered s e p ((bids_iff ht hsub).1 ⟨x, hb⟩)).resolve_left (Work.not_due hidle rfl)
  exact ⟨v, (winner_eq_some_iff ht).2 ⟨s, hs, hv⟩, hle⟩

end Reached

section SmallHost

open SmallHost Relational

/-- The physical filter that is left in the end where the tables turned out to be one. -/
def lastFilter : Expr Kind := ⟨.physicalFilter, [⟨⟨6⟩, orders.any⟩], none, orders.any⟩

set_option maxRecDepth 100000 in
theorem lookups_drifted : drifted.findSubGroup? ⟨⟨15⟩, orders.any⟩ = some ⟨22⟩ ∧ drifted.members ⟨15⟩ = [⟨20⟩] ∧
    drifted.getExpr ⟨20⟩ = .ok lastFilter ∧ drifted.priceOf ⟨20⟩ = some ⟨⟨[1]⟩, 1⟩ ∧
    drifted.reduceGroup ⟨6⟩ = ⟨6⟩ ∧ drifted.reduceGroup ⟨15⟩ = ⟨21⟩ ∧
    drifted.registry.satisfies lastFilter.traits orders.any = true := by
  cbv

/-- The filter that is left inherited the price that it bids from one that was dropped. -/
theorem bids_drifted : drifted.Bids ⟨⟨15⟩, orders.any⟩ ⟨20⟩ lastFilter ⟨⟨[1]⟩, 1⟩ := by
  obtain ⟨-, hmembers, hexpr, hprice, hbelow, habove, hdelivers⟩ := lookups_drifted
  refine ⟨hmembers ▸ List.mem_singleton_self _, hexpr, hprice, hdelivers, fun i hi hgroup => ?_⟩
  cases List.mem_singleton.1 hi
  -- its only input is on another group
  cases hbelow.symm.trans (hgroup.trans habove)

/-- So the sub group has a winner, although no price was ever recorded for the filter by its own name. -/
theorem drifted_winner_le : Reached drifted ∧ drifted.Bids ⟨⟨15⟩, orders.any⟩ ⟨20⟩ lastFilter ⟨⟨[1]⟩, 1⟩ ∧
    ∃ v, drifted.winner ⟨⟨15⟩, orders.any⟩ = .ok (some v) ∧ v.price.weight ≤ 1 :=
  ⟨drifted_reached, bids_drifted, Reached.winner_le_bid drifted_reached lookups_drifted.1 bids_drifted⟩

end SmallHost

end Memo

end PlanSearch
