import PlanSearch.Proofs.Memo.Lookups
import PlanSearch.Proofs.Optimizer.Extraction
import PlanSearch.Proofs.Optimizer.Delivery

/-!
# Following winners

A plan is taken out of a memo by following references: from a reference to the winner of the sub group that it leads
to, and on to what the winner reads. A plan is found exactly if every reference that is met leads to a sub group with a
winner, and to none that is still being followed. It does not matter how often a sub group is met side by side: each
part of a plan is the best plan for the reference that it stands for, and references to one sub group have one plan.

    m.bestPlanWithin us r = .ok n → whatever is followed from `r` has a plan within `us`          (Follows.reaches)
    m.Attempted → ((∃ n, m.bestPlan r = .ok n) ↔ m.Grounded r)                    (Attempted.winners_are_followed)
-/

namespace PlanSearch

open Outline

namespace Memo

section Following

variable {Op Q : Type}

/-- The winner for the first reference reads the second one. -/
def Follows (m : Memo Op Q) (r r' : SubGroupRef) : Prop :=
  ∃ v x, m.winner r = .ok (some v) ∧ m.getExpr v.expr = .ok x ∧ r' ∈ x.inputs

/-- Every reference that is followed from here leads to a sub group with a winner, and none leads to a sub group from
which it is followed itself. -/
structure Grounded (m : Memo Op Q) (r : SubGroupRef) : Prop where
  won : ∀ r', Relation.ReflTransGen m.Follows r r' → ∃ s v, m.findSubGroup? r' = some s ∧ m.winner r' = .ok (some v)
  apart : ∀ r₁ r₂, Relation.ReflTransGen m.Follows r r₁ → Relation.TransGen m.Follows r₁ r₂ →
    m.findSubGroup? r₁ ≠ m.findSubGroup? r₂

/-- The second plan is a part of the first one, and stands for the second reference where the first one stands for the
first. -/
inductive Part (m : Memo Op Q) : SubGroupRef → Plan Op → SubGroupRef → Plan Op → Prop
  | whole (r : SubGroupRef) (p : Plan Op) : Part m r p r p
  | input {r r₁ r' : SubGroupRef} {head : Operation Op} {inputs : List (Plan Op)} {p₁ p' : Plan Op} {v : Winner Q}
      {x : Expr Op} (winner : m.winner r = .ok (some v)) (known : m.getExpr v.expr = .ok x)
      (stands : (r₁, p₁) ∈ x.inputs.zip inputs) (below : Part m r₁ p₁ r' p') : Part m r (.node head inputs) r' p'

variable {m : Memo Op Q} {us us' : List SubGroupId} {r r₁ r₂ r' : SubGroupRef} {s : SubGroupId} {n n' : PlanNode Op}

theorem winner_eq_some_iff (ht : m.outline.Tidy) {v : Winner Q} :
    m.winner r = .ok (some v) ↔ ∃ s, m.findSubGroup? r = some s ∧ m.standings.wins s = some v := by
  rw [winner_eq ht, Except.ok.injEq, Option.bind_eq_some_iff]
  simp only [subOf_eq]

theorem getExpr_eq_ok {e : ExprId} {x : Expr Op} (h : m.getExpr e = .ok x) :
    ∃ entry, m.exprs[m.reduceExpr e]? = some entry ∧ entry.expr = x := by
  obtain ⟨entry, hentry, hx⟩ := bind_eq_ok h
  cases hx
  exact ⟨entry, getEntry_eq_ok hentry, rfl⟩

theorem getExpr_of_getElem? {e : ExprId} {entry : Entry Op Q} (h : m.exprs[m.reduceExpr e]? = some entry) :
    m.getExpr e = .ok entry.expr := by
  unfold getExpr getEntry
  rw [h]
  rfl

/-! ## Plans within a list of sub groups -/

/-- Where a reference leads to a winner that has not been entered, and the plans of its inputs are found, a plan is
found. -/
theorem bestPlanWithin_of {group : Group} {v : Winner Q} {entry : Entry Op Q} {plans : List (Plan Op)}
    (hgroup : m.groups[m.reduceGroup r.group]? = some group) (hs : m.findSubGroup? r = some s)
    (hv : m.standings.wins s = some v) (hmem : s ∈ us) (hentry : m.exprs[m.reduceExpr v.expr]? = some entry)
    (hplans : (entry.expr.inputs.mapM fun input => do
      let n ← m.bestPlanWithin (us.erase s) input
      return n.toPlan) = .ok plans) :
    m.bestPlanWithin us r = .ok ⟨⟨entry.expr.op, entry.expr.data, group.rowType, entry.expr.traits⟩, plans⟩ := by
  have hget : m.getGroup r.group = .ok group := by
    unfold getGroup group?
    rw [hgroup]
  obtain ⟨sub, hsub, hwinner⟩ := Option.bind_eq_some_iff.1 hv
  have hlive : m.liveSubGroup s = .ok sub := by
    unfold liveSubGroup
    rw [hsub]
  rw [bestPlanWithin, hget]
  simp only [bind, Except.bind, hs, hlive, hwinner, dif_pos hmem, getExpr_of_getElem? hentry]
  simp only [bind, Except.bind] at hplans
  rw [hplans]
  rfl

/-- Where every answer stays, so do all of them together. -/
theorem mapM_eq_ok_of_imp {α β ε : Type} {f f' : α → Except ε β} {as : List α} {bs : List β}
    (h : as.mapM f = .ok bs) (hf : ∀ a ∈ as, ∀ b, f a = .ok b → f' a = .ok b) : as.mapM f' = .ok bs := by
  induction as generalizing bs with
  | nil => exact h
  | cons a as ih =>
    rw [List.mapM_cons] at h ⊢
    obtain ⟨b, hb, h⟩ := bind_eq_ok h
    obtain ⟨bs, hbs, h⟩ := bind_eq_ok h
    rw [hf a List.mem_cons_self b hb, ih hbs fun a' ha' => hf a' (List.mem_cons_of_mem _ ha')]
    exact h

/-- A plan that is found is found as well where more sub groups may be entered. -/
theorem bestPlanWithin_mono (hn : us.Nodup) (hus : us ⊆ us') (ok : m.bestPlanWithin us r = .ok n) :
    m.bestPlanWithin us' r = .ok n := by
  induction hl : us.length using Nat.strongRecOn generalizing us us' r n with
  | ind k ih =>
  obtain ⟨group, s, v, entry, plans, hgroup, hs, hv, hmem, hentry, hplans, rfl⟩ := bestPlanWithin_eq_ok ok
  refine bestPlanWithin_of hgroup (by rw [← subOf_eq, hs]) hv (hus hmem) hentry ?_
  refine mapM_eq_ok_of_imp hplans fun input _ p hp => ?_
  obtain ⟨n, hinput, hp⟩ := bind_eq_ok hp
  have herase : us.erase s ⊆ us'.erase s := fun t ht => by
    obtain ⟨hne, ht⟩ := hn.mem_erase_iff.1 ht
    exact (List.mem_erase_of_ne hne).2 (hus ht)
  rw [ih _ (hl ▸ length_erase_lt hmem) (hn.erase s) herase hinput rfl]
  exact hp

/-- What is followed from a reference with a plan has a plan without entering the sub group again. -/
theorem Follows.step (ht : m.outline.Tidy) (h : m.Follows r r') (ok : m.bestPlanWithin us r = .ok n) :
    ∃ s n', m.findSubGroup? r = some s ∧ s ∈ us ∧ m.bestPlanWithin (us.erase s) r' = .ok n' := by
  obtain ⟨v, x, hwinner, hx, hr'⟩ := h
  obtain ⟨s, hs, hv⟩ := (winner_eq_some_iff ht).1 hwinner
  obtain ⟨group, s', v', entry, plans, -, hs', hv', hmem, hentry, hplans, -⟩ := bestPlanWithin_eq_ok ok
  rw [subOf_eq, hs] at hs'
  cases hs'
  cases hv.symm.trans hv'
  obtain ⟨entry', hentry', rfl⟩ := getExpr_eq_ok hx
  cases hentry.symm.trans hentry'
  obtain ⟨p, hp⟩ := ok_of_mapM_eq_ok hplans hr'
  obtain ⟨n', hn', -⟩ := bind_eq_ok hp
  exact ⟨s, n', hs, hmem, hn'⟩

/-- Whatever is followed from a reference with a plan has a plan within what may be entered. -/
theorem Follows.reaches (ht : m.outline.Tidy) (hn : us.Nodup) (ok : m.bestPlanWithin us r = .ok n)
    (h : Relation.ReflTransGen m.Follows r r') : ∃ us' n', us'.Nodup ∧ us' ⊆ us ∧ m.bestPlanWithin us' r' = .ok n' := by
  induction h with
  | refl => exact ⟨us, n, hn, fun _ => id, ok⟩
  | tail _ hstep ih =>
    obtain ⟨us₁, n₁, hn₁, hsub, ok₁⟩ := ih
    obtain ⟨s, n₂, -, -, ok₂⟩ := hstep.step ht ok₁
    exact ⟨us₁.erase s, n₂, hn₁.erase s, fun t h => hsub (List.mem_of_mem_erase h), ok₂⟩

/-- A plan is found only where everything that is followed leads to a winner, and not back. -/
theorem grounded_of_bestPlanWithin (ht : m.outline.Tidy) (hn : us.Nodup) (ok : m.bestPlanWithin us r = .ok n) :
    m.Grounded r where
  won r' h := by
    obtain ⟨us', n', -, -, ok'⟩ := Follows.reaches ht hn ok h
    obtain ⟨group, s, v, entry, plans, -, hs, hv, -⟩ := bestPlanWithin_eq_ok ok'
    rw [subOf_eq] at hs
    exact ⟨s, v, hs, (winner_eq_some_iff ht).2 ⟨s, hs, hv⟩⟩
  apart r₁ r₂ h₁ h₂ heq := by
    obtain ⟨us₁, n₁, hn₁, -, ok₁⟩ := Follows.reaches ht hn ok h₁
    obtain ⟨r', hfirst, hrest⟩ := Relation.TransGen.head'_iff.1 h₂
    obtain ⟨s, n', hs, -, ok'⟩ := hfirst.step ht ok₁
    -- below `r₁` its sub group is not entered again
    obtain ⟨us₂, n₂, -, hsub, ok₂⟩ := Follows.reaches ht (hn₁.erase s) ok' hrest
    obtain ⟨_, s', _, _, _, -, hs', -, hmem, -⟩ := bestPlanWithin_eq_ok ok₂
    rw [subOf_eq, ← heq, hs] at hs'
    cases hs'
    exact hn₁.not_mem_erase (hsub hmem)

/-- Where everything that is followed leads to a winner, and not back, a plan is found if all of it may be entered. The
induction is on what may be entered. -/
theorem Grounded.bestPlanWithin (ht : m.outline.Tidy) (hw : m.work.Seated) (h : m.Grounded r)
    (hall : ∀ r' s, Relation.ReflTransGen m.Follows r r' → m.findSubGroup? r' = some s → s ∈ us) :
    ∃ n, m.bestPlanWithin us r = .ok n := by
  induction hl : us.length using Nat.strongRecOn generalizing us r with
  | ind k ih =>
  obtain ⟨s, v, hs, hwinner⟩ := h.won r .refl
  obtain ⟨s', hs', hv⟩ := (winner_eq_some_iff ht).1 hwinner
  cases hs.symm.trans hs'
  obtain ⟨c, hc, -⟩ := Option.bind_eq_some_iff.1 ((subOf_eq m r).trans hs)
  obtain ⟨group, -, hgroup, -⟩ := exists_liveGroup hc
  obtain ⟨⟨x, g⟩, hx⟩ := Option.isSome_iff_exists.1 (hw s v hv)
  obtain ⟨entry, hentry, rfl, -⟩ := exists_entry hx
  have hmem : s ∈ us := hall r s .refl hs
  rcases mapM_cases (fun input => do
      let n ← m.bestPlanWithin (us.erase s) input
      return n.toPlan : SubGroupRef → Except Failure (Plan Op)) entry.expr.inputs with
    ⟨plans, hplans⟩ | ⟨input, hinput, f, hf, -⟩
  · exact ⟨_, bestPlanWithin_of hgroup hs hv hmem hentry hplans⟩
  · have hfollows : m.Follows r input := ⟨v, entry.expr, hwinner, getExpr_of_getElem? hentry, hinput⟩
    have hbelow : m.Grounded input :=
      ⟨fun r' h' => h.won r' (.head hfollows h'), fun r₁ r₂ h₁ => h.apart r₁ r₂ (.head hfollows h₁)⟩
    obtain ⟨n, hn⟩ := ih _ (hl ▸ length_erase_lt hmem) hbelow (fun r' t h' htr => by
      have hne : t ≠ s := fun hts => h.apart r r' .refl (.head' hfollows h') (by rw [hs, htr, hts])
      exact (List.mem_erase_of_ne hne).2 (hall r' t (.head hfollows h') htr)) rfl
    rw [hn] at hf
    cases hf

/-! ## Whole plans -/

theorem nodup_keys_subGroups (m : Memo Op Q) : m.subGroups.keys.Nodup :=
  Std.TreeMap.distinct_keys.imp fun h heq => h (by rw [heq]; exact Std.ReflCmp.compare_self)

theorem mem_keys_of_find (ht : m.outline.Tidy) (h : m.findSubGroup? r = some s) : s ∈ m.subGroups.keys := by
  obtain ⟨sub, -, hsub⟩ := liveSubGroup_of_find ht h
  rw [Std.TreeMap.mem_keys, Std.TreeMap.mem_iff_isSome_getElem?, hsub]
  rfl

/-- A plan is found exactly where everything that is followed leads to a winner, and not back. -/
theorem bestPlan_iff_grounded (ht : m.outline.Tidy) (hw : m.work.Seated) :
    (∃ n, m.bestPlan r = .ok n) ↔ m.Grounded r :=
  ⟨fun ⟨_, ok⟩ => grounded_of_bestPlanWithin ht m.nodup_keys_subGroups ok,
    fun h => h.bestPlanWithin ht hw fun _ _ _ hs => mem_keys_of_find ht hs⟩

/-- References to one sub group have one plan. -/
theorem bestPlan_congr (ht : m.outline.Tidy) (hr : m.findSubGroup? r' = m.findSubGroup? r) (ok : m.bestPlan r = .ok n) :
    m.bestPlan r' = .ok n := by
  obtain ⟨group, s, v, entry, plans, hgroup, hs, hv, hmem, hentry, hplans, rfl⟩ := bestPlanWithin_eq_ok ok
  have hs' : m.outline.subOf r' = some s := by rw [subOf_eq, hr, ← subOf_eq, hs]
  obtain ⟨ref, href, -, hg⟩ := ht.subOf_iff.1 hs
  obtain ⟨ref', href', -, hg'⟩ := ht.subOf_iff.1 hs'
  cases href.symm.trans href'
  have hsame : m.reduceGroup r'.group = m.reduceGroup r.group := hg'.symm.trans hg
  exact bestPlanWithin_of (hsame ▸ hgroup) (by rw [← subOf_eq, hs']) hv hmem hentry hplans

/-- The inputs of a best plan are the best plans for what the winner reads. -/
theorem bestPlan_inputs (ht : m.outline.Tidy) (ok : m.bestPlan r = .ok n) {v : Winner Q} {x : Expr Op}
    (hwinner : m.winner r = .ok (some v)) (hx : m.getExpr v.expr = .ok x) :
    x.inputs.length = n.inputs.length ∧
      ∀ r' p, (r', p) ∈ x.inputs.zip n.inputs → ∃ n', p = n'.toPlan ∧ m.bestPlan r' = .ok n' := by
  obtain ⟨s, hs, hv⟩ := (winner_eq_some_iff ht).1 hwinner
  obtain ⟨group, s', v', entry, plans, -, hs', hv', hmem, hentry, hplans, rfl⟩ := bestPlanWithin_eq_ok ok
  rw [subOf_eq, hs] at hs'
  cases hs'
  cases hv.symm.trans hv'
  obtain ⟨entry', hentry', rfl⟩ := getExpr_eq_ok hx
  cases hentry.symm.trans hentry'
  obtain ⟨hlength, hzip⟩ := zip_of_mapM_eq_ok hplans
  refine ⟨hlength, fun r' p hp => ?_⟩
  obtain ⟨n', hn', hp⟩ := bind_eq_ok (hzip r' p hp)
  cases hp
  exact ⟨n', rfl, bestPlanWithin_mono (m.nodup_keys_subGroups.erase s) List.erase_subset hn'⟩

/-- Each part of a best plan is the best plan for what it stands for. -/
theorem Part.bestPlan (ht : m.outline.Tidy) {p p' : Plan Op} (h : m.Part r p r' p') (hp : p = n.toPlan)
    (ok : m.bestPlan r = .ok n) : ∃ n', p' = n'.toPlan ∧ m.bestPlan r' = .ok n' := by
  induction h generalizing n with
  | whole => exact ⟨n, hp, ok⟩
  | input winner known stands _ ih =>
    cases hp
    obtain ⟨n₁, hp₁, ok₁⟩ := (bestPlan_inputs ht ok winner known).2 _ _ stands
    exact ih hp₁ ok₁

/-- Whatever is followed has a part of the plan that stands for it. -/
theorem exists_part (ht : m.outline.Tidy) (ok : m.bestPlan r = .ok n)
    (h : Relation.ReflTransGen m.Follows r r') : ∃ p', m.Part r n.toPlan r' p' := by
  induction h using Relation.ReflTransGen.head_induction_on generalizing n with
  | refl => exact ⟨_, .whole _ _⟩
  | head hfirst _ ih =>
    obtain ⟨v, x, hwinner, hx, hmem⟩ := hfirst
    obtain ⟨hlength, hbelow⟩ := bestPlan_inputs ht ok hwinner hx
    obtain ⟨i, hi, rfl⟩ := List.getElem_of_mem hmem
    have hzip : (x.inputs[i], n.inputs.get ⟨i, hlength ▸ hi⟩) ∈ x.inputs.zip n.inputs :=
      List.mem_iff_getElem.2 ⟨i, by rw [List.length_zip, ← hlength]; omega, List.getElem_zip⟩
    obtain ⟨n₁, hp₁, ok₁⟩ := hbelow _ _ hzip
    obtain ⟨p', hpart⟩ := ih ok₁
    exact ⟨p', .input hwinner hx hzip (hp₁ ▸ hpart)⟩

/-- A plan for a reference is found exactly if every reference that is followed from there leads to a sub group with a
winner, and none leads back to a sub group that it is followed from. Then the plan has a part for every one of these
references, which is the best plan for that reference, and references to one sub group have one plan, wherever they
are met. The prices may have been recorded in any way, and some of the calls that led to the memo may have failed. -/
theorem Attempted.winners_are_followed [Operator Op] [Quantity Q] (h : Attempted m) (r : SubGroupRef) :
    ((∃ n, m.bestPlan r = .ok n) ↔ m.Grounded r) ∧
    ∀ n, m.bestPlan r = .ok n →
      (∀ r', m.findSubGroup? r' = m.findSubGroup? r → m.bestPlan r' = .ok n) ∧
      (∀ r', Relation.ReflTransGen m.Follows r r' → ∃ p', m.Part r n.toPlan r' p') ∧
      (∀ r' p', m.Part r n.toPlan r' p' → ∃ n', p' = n'.toPlan ∧ m.bestPlan r' = .ok n') ∧
      ∀ r₁ p₁ r₂ p₂, m.Part r n.toPlan r₁ p₁ → m.Part r n.toPlan r₂ p₂ →
        m.findSubGroup? r₁ = m.findSubGroup? r₂ → p₁ = p₂ := by
  have ht := h.tidy
  refine ⟨bestPlan_iff_grounded ht h.seated, fun n ok => ⟨fun r' hr => bestPlan_congr ht hr ok,
    fun r' hr => exists_part ht ok hr, fun r' p' hp => hp.bestPlan ht rfl ok, fun r₁ p₁ r₂ p₂ hp₁ hp₂ hr => ?_⟩⟩
  obtain ⟨n₁, rfl, ok₁⟩ := hp₁.bestPlan ht rfl ok
  obtain ⟨n₂, rfl, ok₂⟩ := hp₂.bestPlan ht rfl ok
  cases ok₁.symm.trans (bestPlan_congr ht hr ok₂)
  rfl

end Following

section SmallHost

open SmallHost Relational

/-- A table is read filtered and unfiltered. -/
def shared : Memo Kind Nat :=
  (empty orders [] .keepIncumbent : Memo Kind Nat)
    |>.after (add (bare .physicalUnion none
      [(bare .physicalFilter none [table .physicalScan 3]).toPlan, table .physicalScan 3]))
    |>.after (ensureSubGroup ⟨⟨7⟩, orders.any⟩ true)
    |>.after (Update.step (recordPrice ⟨0⟩ ⟨⟨[3]⟩, 3⟩))
    |>.after (Update.step (recordPrice ⟨3⟩ ⟨⟨[2]⟩, 2⟩))
    |>.after (Update.step (recordPrice ⟨6⟩ ⟨⟨[1]⟩, 1⟩))

theorem shared_reached : Reached shared :=
  ((((((Reached.empty _ _ _).after fun _ _ => .add).after fun _ _ => .ensureSubGroup).price _ _).price _ _).price _ _)

set_option maxRecDepth 100000 in
theorem bestPlan_shared : (shared.bestPlan ⟨⟨7⟩, orders.any⟩).toOption.isSome = true := by
  cbv

/-- The table is met twice, and the plan for the union is found, with one plan for the table. -/
theorem shared_followed : Attempted shared ∧ shared.Grounded ⟨⟨7⟩, orders.any⟩ ∧
    ∃ n, shared.bestPlan ⟨⟨7⟩, orders.any⟩ = .ok n ∧
      ∀ p₁ p₂, shared.Part ⟨⟨7⟩, orders.any⟩ n.toPlan ⟨⟨1⟩, orders.any⟩ p₁ →
        shared.Part ⟨⟨7⟩, orders.any⟩ n.toPlan ⟨⟨1⟩, orders.any⟩ p₂ → p₁ = p₂ := by
  obtain ⟨hiff, hparts⟩ := Attempted.winners_are_followed shared_reached.attempted ⟨⟨7⟩, orders.any⟩
  cases hn : shared.bestPlan ⟨⟨7⟩, orders.any⟩ with
  | error f =>
    have hfound := bestPlan_shared
    rw [hn] at hfound
    cases hfound
  | ok n =>
    obtain ⟨-, -, -, hsame⟩ := hparts n hn
    exact ⟨shared_reached.attempted, hiff.1 ⟨n, hn⟩, n, rfl, fun p₁ p₂ h₁ h₂ => hsame _ p₁ _ p₂ h₁ h₂ rfl⟩

end SmallHost

end Memo

end PlanSearch
