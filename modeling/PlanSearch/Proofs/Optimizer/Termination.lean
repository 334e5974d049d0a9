import PlanSearch.Proofs.Memo.Descent
import PlanSearch.Proofs.Optimizer.Enforcers
import PlanSearch.Proofs.Optimizer.Fuel
import PlanSearch.Proofs.Optimizer.Outcomes
import PlanSearch.Proofs.Optimizer.Untried

/-!
# Settling comes to an end

A round of settling prices expressions, and then adds enforcers. Enforcers are added only in attempts that were not
made before, and all attempts that can be made are among finitely many. In a round without an attempt nothing but
prices and winners changes, and so the next round has something to do only if a winner was replaced. Where costs are
added up and no operation has a negative weight, winners cannot be replaced forever.

    settleRound … = .ok () o' → fewer attempts are left, or o'.memo.changes.isEmpty, or winners rank lower
                                                                                              (Primed.settleRound)
    o.Run → … → o.Strides o₁ → o₁.Settles                                                          (settling_ends)
-/

namespace PlanSearch

open Outline

namespace CostModel

variable {Op Q : Type} [Quantity Q]

/-- No operation has a negative weight. -/
def NonNegative [Zero Q] [LE Q] (model : CostModel Op Q) : Prop :=
  ∀ x inputs operation, model.Charges x inputs operation → 0 ≤ model.weight operation

end CostModel

section Payable

variable {Op Q : Type} [Quantity Q] [AddCommMonoid Q] {model : CostModel Op Q} {P : Terms Op Q}

/-- Where costs are added up, a fair price weighs what the operation does, and what the winners below it weigh. -/
theorem CostModel.Fair.weight_eq [Operator Op] (ha : model.Additive) {w : Work Op Q}
    (hq : ∀ s v, w.standings.wins s = some v → v.price.weight = model.weight v.price.cost) {e : ExprId} {p : Price Q}
    (hf : model.Fair w.outline w.standings e p) : ∃ x g inputs operation, ∃ vs : List (Winner Q),
      w.outline.entry e = some (x, g) ∧ model.Charges x inputs operation ∧
      (∀ v ∈ vs, ∃ s, w.standings.wins s = some v) ∧
      p.weight = model.weight operation + (vs.map fun v => v.price.weight).sum := by
  obtain ⟨x, g, vs, operation, hx, -, hfeeds, hcharges, hcost, hweight⟩ := hf
  have hwins : ∀ v ∈ vs, ∃ s, w.standings.wins s = some v := fun v hv => by
    obtain ⟨i, -, s, -, hs⟩ := (exists_of_forall₂ hfeeds).2 v hv
    exact ⟨s, hs⟩
  have hweights : (vs.map fun v => v.price.cost).map model.weight = vs.map fun v => v.price.weight := by
    rw [List.map_map]
    refine List.map_congr_left fun v hv => ?_
    obtain ⟨s, hs⟩ := hwins v hv
    exact (hq s v hs).symm
  exact ⟨x, g, _, operation, vs, hx, hcharges, hwins, by rw [hweight, hcost, ha.weight_sum, hweights]⟩

variable [LinearOrder Q]

/-- The quote has the weight of its cost, and that is not negative. -/
def Payable (model : CostModel Op Q) : Knowledge Op Q := fun w e p => Weighed model w e p ∧ 0 ≤ p.weight

theorem payable_lasting : Lasting P (Payable model) := fun _ _ _ _ _ _ _ hknown _ => hknown

/-- A fair price is not negative if no quote before was. -/
theorem payable_sure [Operator Op] [IsOrderedAddMonoid Q] (ha : model.Additive) (hn : model.NonNegative) :
    Sure model.terms (Payable model) := by
  intro w e p hw hi hq hfair
  obtain ⟨x, g, inputs, operation, vs, -, hcharges, hwins, hsum⟩ :=
    hfair.weight_eq ha fun s v hv => (hq.wins s v hv).1
  refine ⟨weighed_sure hw hi ⟨fun s v hv => (hq.wins s v hv).1, fun e p hp => (hq.price e p hp).1⟩ hfair, ?_⟩
  rw [hsum]
  refine add_nonneg (hn x _ operation hcharges) (List.sum_nonneg fun a ha => ?_)
  obtain ⟨v, hv, rfl⟩ := List.mem_map.1 ha
  obtain ⟨s, hs⟩ := hwins v hv
  exact (hq.wins s v hs).2

/-- What an operation costs by the tariff, or zero if that is negative. -/
def Tariff.charge (tariff : Tariff Op Q) (x : Expr Op) : Q := max (tariff.fee x) 0

/-- Where what operations cost and what winners weigh is on a scale, so is a fair price. -/
theorem CostModel.Fair.mem_amounts [Operator Op] (ha : model.Additive) (hn : model.NonNegative) {tariff : Tariff Op Q}
    (hk : model.Keeps tariff) {m : Memo Op Q} {k : Scale Q} (hm : m.Measured tariff.charge k)
    (hq : m.work.Quoted (Payable model)) {e : ExprId} {p : Price Q}
    (hf : model.Fair m.outline m.standings e p) : p.weight ∈ k.amounts := by
  obtain ⟨x, g, inputs, operation, vs, hx, hcharges, hwins, hsum⟩ :=
    hf.weight_eq (w := m.work) ha fun s v hv => (hq.wins s v hv).1
  have hcharge : model.weight operation = tariff.charge x := by
    rw [Tariff.charge, ← hk x _ operation hcharges, max_eq_left (hn x _ operation hcharges)]
  rw [hsum, hcharge]
  refine k.amounts.add_mem (hm.fees e x g hx).1 (AddSubmonoid.list_sum_mem _ fun a ha => ?_)
  obtain ⟨v, hv, rfl⟩ := List.mem_map.1 ha
  obtain ⟨s, hs⟩ := hwins v hv
  exact (hm.covers.wins s v hs).1

end Payable

namespace Optimizer

variable {Op Q : Type} [Quantity Q] [AddCommMonoid Q] [LinearOrder Q]
variable {M : CostModel Op Q} {j : Stock} {fee : Expr Op → Q} {k : Scale Q} {o o' o'' : Optimizer Op Q}

/-- The optimizer goes by the cost model, its memo is in order, all groups and traits are in stock, and no quote is
negative. -/
structure Primed (M : CostModel Op Q) (j : Stock) (o : Optimizer Op Q) : Prop where
  model : o.model = M
  stocked : o.Stocked j
  payable : o.memo.work.Quoted (Payable M)

/-- All is measured on a scale, besides. -/
structure Poised (M : CostModel Op Q) (j : Stock) (fee : Expr Op → Q) (k : Scale Q) (o : Optimizer Op Q) : Prop
    extends o.Primed M j where
  measured : o.memo.Measured fee k

/-- Nothing but prices and winners has changed, and nothing was attempted. -/
structure Reprices (k : Scale Q) (o o' : Optimizer Op Q) : Prop where
  memo : o.memo.Repriced k o'.memo
  attempted : o'.attempted = o.attempted

theorem Primed.fit (h : o.Primed M j) : o.Fit M := ⟨h.stocked.orderly.ordered.tidy, h.model⟩

theorem Primed.unmoved (h : o.Primed M j) (hu : o.Unmoved o') : o'.Primed M j :=
  ⟨hu.model.trans h.model, h.stocked.unmoved hu, hu.memo ▸ h.payable⟩

theorem Poised.unmoved (h : o.Poised M j fee k) (hu : o.Unmoved o') : o'.Poised M j fee k :=
  ⟨h.toPrimed.unmoved hu, hu.memo ▸ h.measured⟩

theorem Poised.reprices (h : o.Poised M j fee k) (hu : o.Unmoved o') : o.Reprices k o' := by
  refine ⟨?_, hu.attempted⟩
  rw [hu.memo]
  exact .refl h.measured.covers

omit [Quantity Q] in
theorem Reprices.trans (h₁ : o.Reprices k o') (h₂ : o'.Reprices k o'') : o.Reprices k o'' :=
  ⟨h₁.memo.trans h₂.memo, h₂.attempted.trans h₁.attempted⟩

/-! ## Pricing -/

/-- What the action does where it succeeds is pricing. -/
def Pricing {α : Type} (M : CostModel Op Q) (j : Stock) (fee : Expr Op → Q) (k : Scale Q) (x : Action Op Q α) : Prop :=
  ∀ o a o', o.Poised M j fee k → x o = .ok a o' → o'.Poised M j fee k ∧ o.Reprices k o'

theorem composes_poised : Action.Composes (Poised M j fee k) fun o o' => o'.Poised M j fee k ∧ o.Reprices k o' where
  refl ho := ⟨ho, ho.reprices ⟨rfl, rfl, rfl⟩⟩
  keeps _ h := h.1
  trans h₁ h₂ := ⟨h₂.1, h₁.2.trans h₂.2⟩

theorem Still.pricing {α : Type} {x : Action Op Q α} (h : Still x) : Pricing M j fee k x :=
  fun o a o' ho ok => ⟨ho.unmoved (h o a o' ok).toUnmoved, ho.reprices (h o a o' ok).toUnmoved⟩

section Settling

variable [Operator Op] [IsOrderedAddMonoid Q] (ha : M.Additive) (hn : M.NonNegative)

section Pricing

variable [Quantity.Exact Q] {tariff : Tariff Op Q} (hk : M.Keeps tariff)

include ha hn hk

theorem pricing_priceExpr (e : ExprId) : Pricing M j tariff.charge k (priceExpr e : Action Op Q Unit) := by
  intro o _ o' ho ok
  obtain ⟨hprecedes, hattempted⟩ := proceeds_priceExpr e o _ o' ho.stocked.orderly ok
  have hmoves := (runs_priceExpr ho.fit .refl e).of_ok ok
  have hpayable := Edits.quoted hmoves.edits (Memo.sound_of_tidy ho.fit.tidy []) payable_lasting
    (payable_sure ha hn) ho.payable
  have hrepriced : o.memo.Repriced k o'.memo := by
    rcases priceExpr_spec ok with ⟨hmemo, -⟩ | ⟨p, hfair, hrecord⟩
    · rw [hmemo]
      exact .refl ho.measured.covers
    · rw [ho.model] at hfair
      exact Memo.recordPrice_repriced ho.measured (hfair.mem_amounts ha hn hk ho.measured ho.payable) hrecord
  have hstocked : o'.Stocked j := ⟨hprecedes.orderly, hrepriced.outline ▸ ho.stocked.outline⟩
  exact ⟨⟨⟨(hmoves.fit ho.fit).model, hstocked, hpayable⟩, ho.measured.repriced hrepriced⟩, hrepriced, hattempted⟩

theorem pricing_winnerImproved (s : SubGroupId) :
    Pricing M j tariff.charge k (winnerImproved s : Action Op Q Unit) :=
  composes_poised.winnerImproved (fun e => (still_record e).pricing) (pricing_priceExpr ha hn hk) s

end Pricing

/-! ## Rounds -/

include ha hn in
/-- Enforcers are added from stock, and only in attempts. -/
theorem Primed.addEnforcers {gs : List GroupId} (h : o.Primed M j) (ok : gs.forM addEnforcers o = .ok () o') :
    o'.Primed M j ∧ o.Narrows j o' := by
  have hmoves : o.Moves M.terms o' := (runs_forM (fun g o₁ h₁ => runs_addEnforcers h.fit h₁ g) .refl).of_ok ok
  have hpayable := Edits.quoted hmoves.edits (Memo.sound_of_tidy h.fit.tidy []) payable_lasting
    (payable_sure ha hn) h.payable
  obtain ⟨hstocked, hnarrows⟩ := run_forM_invariant (fun _ o₁ => o₁.Stocked j ∧ o.Narrows j o₁)
    (fun g gs o₁ o₂ h₁ ok₁ => by
      obtain ⟨hstocked, hnarrows⟩ := h₁.1.addEnforcers ok₁
      exact ⟨hstocked, h₁.2.trans hnarrows⟩) ok ⟨h.stocked, .refl j o⟩
  exact ⟨⟨(hmoves.fit h.fit).model, hstocked, hpayable⟩, hnarrows⟩

omit [IsOrderedAddMonoid Q] in
/-- With the notes forgotten, the memo is as good. -/
theorem Poised.forget (h : o.Poised M j fee k) :
    ({ o with memo := o.memo.forgetChanges } : Optimizer Op Q).Poised M j fee k where
  model := h.model
  stocked := ⟨Memo.Call.orderly .forgetChanges h.stocked.orderly,
    ⟨h.stocked.outline.group, h.stocked.outline.sub, h.stocked.outline.entry⟩⟩
  payable := ⟨h.payable.wins, h.payable.price⟩
  measured := ⟨⟨h.measured.covers.wins, h.measured.covers.price⟩, h.measured.tie, h.measured.subs, h.measured.fees⟩

variable [Quantity.Exact Q] {tariff : Tariff Op Q} (hk : M.Keeps tariff)

include ha hn hk

/-- After a round from a memo without notes, fewer attempts are left, or there is nothing to do in the next one, or
winners rank lower. -/
theorem Poised.settleRound {c : Changes} (h : o.Poised M j tariff.charge k) (hquiet : o.memo.changes = .none)
    (ok : settleRound c o = .ok () o') :
    o'.Primed M j ∧ (j.untried o'.attempted ⊂ j.untried o.attempted ∨ o'.memo.changes.isEmpty = true ∨
      o'.Poised M j tariff.charge k ∧ o'.attempted = o.attempted ∧
        k.ranks o'.memo.standings < k.ranks o.memo.standings) := by
  obtain ⟨o₁, o₂, o₃, o₄, affected, hstart, hnew, himproved, -, henforce, hfind⟩ := settleRound_spec ok
  obtain ⟨h₂, hpriced⟩ := composes_poised.forM (pricing_priceExpr ha hn hk) o₁ _ o₂ (h.unmoved hstart.1) hnew
  obtain ⟨h₃, hread⟩ := composes_poised.forM (pricing_winnerImproved ha hn hk) o₂ _ o₃ h₂ himproved
  have hrepriced : o.Reprices k o₃ := ((h.reprices hstart.1).trans hpriced).trans hread
  obtain ⟨h₄, hnarrows⟩ := h₃.toPrimed.addEnforcers ha hn henforce
  have hprimed := h₄.unmoved hfind.toUnmoved
  refine ⟨hprimed, ?_⟩
  rcases hnarrows with ⟨hmemo, hsame⟩ | hless
  · -- without an attempt, the round has only priced
    have hlast : o₃.Unmoved o' :=
      ⟨hfind.memo.trans hmemo, hprimed.model.trans h₃.model.symm, hfind.attempted.trans hsame⟩
    have hall := hrepriced.trans (h₃.reprices hlast)
    rcases hall.memo.descends.lt with hnone | hlower
    · exact .inr (.inl (hall.memo.isEmpty hquiet hnone))
    · exact .inr (.inr ⟨h₃.unmoved hlast, hall.attempted, hlower⟩)
  · rw [hfind.attempted, ← hrepriced.attempted]
    exact .inl hless

/-- While no attempts are made, settling comes to an end, or it gets to where fewer are left. The induction is on the
ranks of the winners. -/
theorem Poised.settles (h : o.Poised M j tariff.charge k)
    (hless : ∀ o' : Optimizer Op Q, o'.Primed M j → j.untried o'.attempted ⊂ j.untried o.attempted → o'.Settles) :
    o.Settles := by
  have := k.wellFoundedLT
  induction hr : k.ranks o.memo.standings using WellFoundedLT.induction generalizing o with
  | ind r ih =>
  subst hr
  refine settles_of_round fun o' ok => ?_
  obtain ⟨hprimed, hfewer | hdone | ⟨hpoised, hattempted, hlower⟩⟩ := h.forget.settleRound ha hn hk rfl ok
  · exact hless o' hprimed hfewer
  · exact settles_of_isEmpty hdone
  · exact ih _ hlower hpoised (fun o'' hprimed' hfewer => hless o'' hprimed' (hattempted ▸ hfewer)) rfl

/-- Settling comes to an end. The induction is on the number of attempts that are left. -/
theorem Primed.settles (h : o.Primed M j) : o.Settles := by
  induction hl : (j.untried o.attempted).ncard using Nat.strongRecOn generalizing o with
  | ind n ih =>
  have hcharge : ∀ x, 0 ≤ tariff.charge x := fun x => le_max_right _ _
  have hpos : o.memo.work.Quoted fun _ _ p => 0 ≤ p.weight :=
    ⟨fun s v hv => (h.payable.wins s v hv).2, fun e p hp => (h.payable.price e p hp).2⟩
  obtain ⟨k, hm⟩ := Memo.exists_scale hcharge hpos (Memo.sound_of_tidy h.fit.tidy [])
  refine Poised.settles ha hn hk ⟨h, hm⟩ fun o' h' hfewer => ih _ ?_ h' rfl
  exact hl ▸ Set.ncard_lt_ncard hfewer (j.finite_untried _)

end Settling

/-- Where costs are added up from what each operation costs by itself, and no operation has a negative weight,
settling comes to an end after finitely many rounds, from any state of a run with anything entered into its memo. -/
theorem settling_ends [Operator Op] [Quantity.Exact Q] [IsOrderedAddMonoid Q] (h : o.Run) (ha : o.model.Additive)
    (hn : o.model.NonNegative) {tariff : Tariff Op Q} (hk : o.model.Keeps tariff) {o₁ : Optimizer Op Q}
    (hs : o.Strides o₁) : o₁.Settles := by
  obtain ⟨hedits, hmodel⟩ := hs.moves h.tidy
  obtain ⟨j, hj⟩ := Memo.exists_stock o₁.memo
  have horderly := (h.attending.1.strides hs).orderly
  have hpayable := Edits.quoted hedits (Memo.sound_of_tidy h.tidy []) payable_lasting (sure_strict _)
    (h.quoted payable_lasting (payable_sure ha hn))
  exact Primed.settles ha hn hk ⟨hmodel, ⟨horderly, hj⟩, hpayable⟩

section SmallHost

open SmallHost Relational

set_option maxRecDepth 100000 in
/-- What is left by entering a union of tables and asking for it in order is settled in finitely many rounds. -/
theorem settling_ends_united : ∃ o₁ : Optimizer Kind Nat,
    indexer.Run ∧ indexer.Strides o₁ ∧ o₁.memo.changes.isEmpty = false ∧ o₁.Settles := by
  have hpending : (match Memo.add united indexer.memo with
      | .ok (g, _) m => match Memo.ensureSubGroup ⟨g, byFirst⟩ true m with
        | .ok _ m => some m.changes.isEmpty
        | .error _ _ => none
      | .error _ _ => none) = some false := by cbv
  split at hpending
  · next g _ m₁ hadd =>
    split at hpending
    · next _ m₂ hask =>
      have hrun : indexer.Run := .start (blank_new _ _ _ _ _) rfl
      have hadded : indexer.Strides { indexer with memo := m₁ } := .single (.enter (.add hadd))
      have hasked : indexer.Strides { indexer with memo := m₂ } :=
        hadded.tail (.enter (o := { indexer with memo := m₁ }) (.request hask))
      exact ⟨_, hrun, hasked, Option.some.inj hpending,
        settling_ends hrun split_additive (fun _ _ _ _ => Nat.zero_le _) split_chargesBy.keeps hasked⟩
    · cases hpending
  · cases hpending

end SmallHost

end Optimizer

end PlanSearch
