import PlanSearch.Proofs.Optimizer.Outcomes

/-!
# When plans are found

Where a sum always weighs more than each of the costs that are summed up, winners never lead back to where they
came from. So looking for the plan of a sub group succeeds whenever it has a winner, and otherwise fails because
of that sub group itself. Weights need to compare well only for costs that the model can come to: this leaves out
quantities that are not known, such as those that are not a number.

    Edits model.terms w w' → w.Quoted (Risen model rank) → w'.Quoted (Risen model rank)      (Edits.risen)
    o.Run → o.model.Steep rank → the plan for a reference to a live group is found if there is a winner,
      and otherwise the error names that group and these traits                            (plans_are_found)
-/

namespace PlanSearch

open Outline

/-- Quantities that are known compare as their ranks do. -/
structure Quantity.Ranked {Q K : Type} [Quantity Q] [LinearOrder K] (rank : Q → K) : Prop where
  less_iff : ∀ a b : Q, Quantity.isUnknown a = false → Quantity.isUnknown b = false →
    (Quantity.less a b = true ↔ rank a < rank b)
  same_iff : ∀ a b : Q, Quantity.isUnknown a = false → Quantity.isUnknown b = false →
    (Quantity.same a b = true ↔ rank a = rank b)

namespace CostModel

variable {Op Q K : Type}

/-- The costs that a model can come to. -/
inductive Made (model : CostModel Op Q) : Cost Q → Prop
  | sum {x : Expr Op} {inputs : List (Cost Q)} {operation : Cost Q} (charges : model.Charges x inputs operation)
      (below : ∀ c ∈ inputs, Made model c) : Made model (model.sum operation inputs)

/-- The weight of a sum is known, and it is higher than that of each cost that is summed up. -/
def Steep [Quantity Q] [LinearOrder K] (model : CostModel Op Q) (rank : Q → K) : Prop :=
  ∀ x inputs operation, model.Charges x inputs operation → (∀ c ∈ inputs, model.Made c) →
    Quantity.isUnknown (model.weigh (model.sum operation inputs)) = false ∧
    ∀ c ∈ inputs, rank (model.weigh c) < rank (model.weigh (model.sum operation inputs))

end CostModel

/-! ## Quotes that are higher than what they are computed from -/

section Risen

variable {Op Q K : Type} [Operator Op] [Quantity Q] [LinearOrder K] {model : CostModel Op Q} {rank : Q → K}

/-- The price has a cost that the model can come to, and its weight is known. -/
def Price.Sober (model : CostModel Op Q) (p : Price Q) : Prop :=
  model.Made p.cost ∧ p.weight = model.weigh p.cost ∧ Quantity.isUnknown p.weight = false

/-- The price is a sober one, and whatever the expression reads has a winner that weighs less. -/
def Risen (model : CostModel Op Q) (rank : Q → K) : Knowledge Op Q := fun w e p =>
  p.Sober model ∧ Backed model (fun a b => rank a < rank b) w e p

omit [Operator Op] in
/-- Offers go by the ranks of weights where these are known. -/
theorem Memo.ranks_known (hk : Quantity.Ranked rank) :
    Memo.Ranks (fun p => Quantity.isUnknown p.weight = false) fun p => rank p.weight where
  taken hv hv' h := by
    simp only [beats, Bool.or_eq_true, Bool.and_eq_true] at h
    rcases h with h | ⟨h, -⟩
    · exact ((hk.less_iff _ _ hv hv').1 h).le
    · exact ((hk.same_iff _ _ hv hv').1 h).le
  kept hv hv' h := by
    simp only [beats, Bool.or_eq_true, not_or] at h
    exact not_lt.1 (mt (hk.less_iff _ _ hv hv').2 h.1)

omit [Operator Op] in
theorem Memo.ranks_sober (hk : Quantity.Ranked rank) :
    Memo.Ranks (Price.Sober model) fun p => rank p.weight :=
  (Memo.ranks_known hk).mono fun _ h => h.2.2

/-- A fair price is higher than the winners that it is computed from. -/
theorem risen_of_fair (hs : model.Steep rank) {w : Work Op Q} (hw : w.Sound) (hi : w.Idle)
    (hq : w.Quoted (Risen model rank)) {e : ExprId} {p : Price Q}
    (hf : model.Fair w.outline w.standings e p) : Risen model rank w e p := by
  obtain ⟨x, g, winners, operation, hx, -, hwinners, hcharges, hcost, hp⟩ := hf
  have ht := hw.tidy hi.stage
  have hsober : ∀ v ∈ winners, v.price.Sober model := by
    intro v hv
    obtain ⟨r, -, s, -, hwins⟩ := (exists_of_forall₂ hwinners).2 v hv
    exact (hq.wins s v hwins).1
  have hmade : ∀ c ∈ winners.map fun v => v.price.cost, model.Made c := by
    intro c hc
    obtain ⟨v, hv, rfl⟩ := List.mem_map.1 hc
    exact (hsober v hv).1
  obtain ⟨hknown, habove⟩ := hs x _ operation hcharges hmade
  rw [← hcost] at hknown habove
  have hweight : p.weight = model.weigh p.cost := by
    rw [hp, CostModel.weight, hknown]
    rfl
  refine ⟨⟨hcost ▸ .sum hcharges hmade, hweight, hweight ▸ hknown⟩, hp, x, g, ?_, fun r hr => ?_⟩
  · rw [ht.sound.names.reduceExpr_of_live (by rw [hx]; rfl)]
    exact hx
  · obtain ⟨v, hv, s, hs, hwins⟩ := (exists_of_forall₂ hwinners).1 r hr
    refine ⟨s, v, ht.subOf_iff.1 hs, hwins, ?_⟩
    rw [hweight, (hsober v hv).2.1]
    exact habove _ (List.mem_map_of_mem hv)

theorem Edits.risen (hk : Quantity.Ranked rank) (hs : model.Steep rank) {w w' : Work Op Q}
    (h : Edits model.terms w w') (hw : w.Sound) (hq : w.Quoted (Risen model rank)) :
    w'.Quoted (Risen model rank) := by
  induction h with
  | refl => exact hq
  | tail hr hedit ih =>
    have hw₁ := Edits.sound hr hw
    have hlow := hedit.lowers (Memo.ranks_sober hk) hw₁
      ⟨fun s v hv => (ih.wins s v hv).1, fun e p hp => (ih.price e p hp).1⟩
    refine hedit.quoted_of hw₁ (fun e e' p hp he => ⟨hp.1, ?_⟩)
      (fun hi e p hf => risen_of_fair hs hw₁ hi ih hf) ih
    exact hedit.backed hw₁ hlow (fun _ _ _ hle hlt => hle.trans_lt hlt) hp.2 he

end Risen

/-! ## Plans that are not found -/

theorem Memo.winner_eq {Op Q : Type} {m : Memo Op Q} (ht : m.outline.Tidy) (r : SubGroupRef) :
    m.winner r = .ok ((m.outline.subOf r).bind m.standings.wins) := by
  unfold winner
  rw [← Memo.subOf_eq]
  cases hs : m.outline.subOf r with
  | none => rfl
  | some s =>
    obtain ⟨ref, href, -⟩ := ht.subOf_iff.1 hs
    obtain ⟨sub, hsub, hlive, -⟩ := exists_liveSubGroup href
    show (m.liveSubGroup s >>= fun sub => pure sub.winner) = .ok ((m.subGroups[s]?).bind SubGroup.winner)
    rw [hsub, hlive]
    rfl

/-- Where a live group has no winner for some traits, the plan is not found, and the error says so. -/
theorem Memo.bestPlan_eq_error {Op Q : Type} {m : Memo Op Q} (ht : m.outline.Tidy) {r : SubGroupRef}
    (hg : (m.outline.group (m.outline.reduce r.group)).isSome)
    (hnone : (m.outline.subOf r).bind m.standings.wins = none) : m.bestPlan r = .error (m.planNotFound r) := by
  obtain ⟨c, hc⟩ := Option.isSome_iff_exists.1 hg
  obtain ⟨group, -, hgroup, -⟩ := exists_liveGroup hc
  have hget : m.getGroup r.group = .ok group := by
    unfold getGroup group?
    rw [show m.groups[m.reduceGroup r.group]? = some group from hgroup]
  rw [bestPlan, bestPlanWithin, hget]
  simp only [bind, Except.bind]
  cases hs : m.outline.subOf r with
  | none =>
    have hfind : m.findSubGroup? r = none := by rw [← Memo.subOf_eq, hs]
    rw [hfind]
    rfl
  | some s =>
    have hfind : m.findSubGroup? r = some s := by rw [← Memo.subOf_eq, hs]
    obtain ⟨ref, href, -⟩ := ht.subOf_iff.1 hs
    obtain ⟨sub, hsub, hlive, -⟩ := exists_liveSubGroup href
    have hwinner : sub.winner = none := by
      rw [hs] at hnone
      exact (standings_wins_of hlive).symm.trans hnone
    simp only [hfind, hsub, hwinner]
    rfl

namespace Optimizer

variable {Op Q K : Type} [Operator Op] [Quantity Q] [LinearOrder K] {o : Optimizer Op Q} {rank : Q → K}

/-- In every state of a run, all quotes are higher than what they are computed from. -/
theorem Run.risen (h : o.Run) (hk : Quantity.Ranked rank) (hs : o.model.Steep rank) :
    o.memo.work.Quoted (Risen o.model rank) := by
  obtain ⟨registry, factRules, tieBreak, hedits⟩ := h.edits
  exact Edits.risen hk hs hedits (Memo.sound_of_tidy (Memo.orderly_empty _ _ _).ordered.tidy [])
    (Memo.quoted_empty _ _ _ _)

/-- Where a sum always weighs more than each cost that is summed up, and its weight is known, in every state of a
run the plan for traits of a live group is found if there is a winner for them. Otherwise it is not found, for
that group and these traits. -/
theorem plans_are_found (h : o.Run) (hk : Quantity.Ranked rank) (hs : o.model.Steep rank) {g : GroupId}
    (hg : g ∈ o.memo.groups) (traits : TraitSet) :
    (∃ v n, o.memo.winner ⟨g, traits⟩ = .ok (some v) ∧ o.memo.bestPlan ⟨g, traits⟩ = .ok n) ∨
    o.memo.winner ⟨g, traits⟩ = .ok none ∧
      o.memo.bestPlan ⟨g, traits⟩ = .error (.error (.planNotFound g traits)) := by
  have ht := h.tidy
  have hq := h.risen hk hs
  have hlive : (o.memo.outline.group g).isSome := (o.memo.outline_group_isSome g).2 hg
  have hreduce : o.memo.outline.reduce g = g := ht.sound.names.reduce_of_live hlive
  have hbacked : o.memo.work.Quoted (Backed o.model fun a b => rank a < rank b) :=
    ⟨fun s v hv => (hq.wins s v hv).2, fun e p hp => (hq.price e p hp).2⟩
  rw [Memo.winner_eq ht]
  cases hwins : (o.memo.outline.subOf ⟨g, traits⟩).bind o.memo.standings.wins with
  | some v =>
    rcases Memo.bestPlan_cases ht hbacked ⟨g, traits⟩ with ⟨n, hn⟩ | ⟨s, k, -, hcycle⟩ | hnone
    · exact .inl ⟨v, n, rfl, hn⟩
    · -- along a cycle the weight would fall below itself
      obtain ⟨u, u', hu, hu', hlt⟩ := Memo.below_of_transGen ht hbacked (fun _ _ _ => lt_trans) hcycle
      rw [hu] at hu'
      cases hu'
      exact absurd hlt (lt_irrefl _)
    · rw [hwins] at hnone
      cases hnone
  | none =>
    refine .inr ⟨rfl, ?_⟩
    rw [Memo.bestPlan_eq_error ht (hreduce.symm ▸ hlive) hwins, Memo.planNotFound]
    show Except.error (Failure.error (.planNotFound (o.memo.outline.reduce g) traits)) = _
    rw [hreduce]

section SmallHost

open SmallHost Relational

/-- Every operation costs one. -/
def unitPrices : CostModel Kind Nat := { prices with operationCost _ _ _ := .done (.ok ⟨[1]⟩) }

theorem unitPrices_steep : unitPrices.Steep id := by
  rintro x inputs operation ⟨σ, answer, start, site, h⟩ -
  cases h
  have hadd : unitPrices.Additive := ⟨fun _ _ => List.sum_append⟩
  refine ⟨rfl, fun c hc => ?_⟩
  calc unitPrices.weight c ≤ (inputs.map unitPrices.weight).sum := List.le_sum_of_mem (List.mem_map_of_mem hc)
    _ < 1 + (inputs.map unitPrices.weight).sum := by omega
    _ = unitPrices.weight (unitPrices.sum ⟨[1]⟩ inputs) := (hadd.weight_sum ⟨[1]⟩ inputs).symm

theorem ranked_nat : Quantity.Ranked (id : Nat → Nat) where
  less_iff a b _ _ := Quantity.Exact.less_iff a b
  same_iff a b _ _ := Quantity.Exact.same_iff a b

/-- Joins are swapped, run and sorted, each for one. -/
def unitSorter : Optimizer Kind Nat := .new [swap, implement] unitPrices orders [] .default

/-- By the first column, downwards. -/
def byFirstDown : TraitSet := ⟨[.collation ⟨[⟨0, .desc, false⟩]⟩]⟩

set_option maxRecDepth 100000 in
/-- A plan for the sorted join is found, and there is none that sorts it the other way. -/
theorem sorter_plans : ∃ (o : Optimizer Kind Nat) (n : PlanNode Kind), o.Run ∧ (⟨7⟩ : GroupId) ∈ o.memo.groups ∧
    o.memo.bestPlan ⟨⟨7⟩, byFirst⟩ = .ok n ∧
    o.memo.bestPlan ⟨⟨7⟩, byFirstDown⟩ = .error (.error (.planNotFound ⟨7⟩ byFirstDown)) := by
  have hrun : (answer? (optimizeLogged 20 joined byFirst) unitSorter).map (fun a =>
      (a.2.1.memo.groups.contains ⟨7⟩, (a.2.1.memo.winner ⟨⟨7⟩, byFirst⟩).toOption.map Option.isSome,
        (a.2.1.memo.winner ⟨⟨7⟩, byFirstDown⟩).toOption.map Option.isSome)) =
      some (true, some true, some false) := by cbv
  obtain ⟨⟨fired, o, outcome⟩, h, hshown⟩ := Option.map_eq_some_iff.1 hrun
  simp only [Prod.mk.injEq] at hshown
  obtain ⟨hlive, hup, hdown⟩ := hshown
  obtain ⟨hr, hmodel⟩ := run_of_optimizeLogged (blank_new _ _ _ _ _) rfl h
  have hprices : o.model = unitPrices := hmodel
  have hall := plans_are_found hr ranked_nat (hprices ▸ unitPrices_steep) (Std.TreeMap.mem_iff_contains.2 hlive)
  rcases hall byFirst with ⟨v, n, -, hn⟩ | ⟨hnone, -⟩
  · rcases hall byFirstDown with ⟨v', n', hwinner, -⟩ | ⟨-, hfails⟩
    · rw [hwinner] at hdown
      cases hdown
    · exact ⟨o, n, hr, Std.TreeMap.mem_iff_contains.2 hlive, hn, hfails⟩
  · rw [hnone] at hup
    cases hup

end SmallHost

end Optimizer

end PlanSearch
