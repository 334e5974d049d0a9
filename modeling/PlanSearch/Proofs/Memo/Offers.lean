import PlanSearch.Proofs.Memo.Backing
import PlanSearch.Proofs.Requirements

/-!
# Offers

Every sub group is offered every member of its group that has a price, and takes it if it may and it is worth
no more than the winner so far. That is so at all times, except where the offer is owed, and where the group
will be offered all its members anew: when a merge has brought new members, or is still pending.

    Edit P w w' → w.Sound → w.Offered worth → w'.Offered worth                           (Edit.offered)
-/

namespace PlanSearch

open Outline

section Eligible

variable {Op : Type} {o : Outline Op} {x y : Expr Op}

theorem Outline.Alike.traits (h : o.Alike x y) : x.traits.Same y.traits := congrArg Expr.traits h

/-- Alike expressions may win the same sub groups. -/
theorem Outline.Alike.eligible (h : o.Alike x y) (registry : Registry Op) (r : SubGroupRef) :
    o.eligible registry x r = o.eligible registry y r := by
  have hakin : ∀ i i' : SubGroupRef, o.Akin i i' →
      (o.reduce i.group = r.group ∧ registry.satisfies i.traits r.traits = true ↔
        o.reduce i'.group = r.group ∧ registry.satisfies i'.traits r.traits = true) := fun i i' hi => by
    rw [hi.2, registry.satisfies_congr hi.1 (TraitSet.same_refl r.traits)]
  obtain ⟨hleft, hright⟩ := exists_of_forall₂ h.akin
  have hany : (x.inputs.any fun i => o.reduce i.group = r.group && registry.satisfies i.traits r.traits)
      = y.inputs.any fun i => o.reduce i.group = r.group && registry.satisfies i.traits r.traits := by
    rw [Bool.eq_iff_iff]
    simp only [List.any_eq_true, Bool.and_eq_true, decide_eq_true_eq]
    constructor
    · rintro ⟨i, hi, hr⟩
      obtain ⟨i', hi', hii⟩ := hleft i hi
      exact ⟨i', hi', (hakin i i' hii).1 hr⟩
    · rintro ⟨i', hi', hr⟩
      obtain ⟨i, hi, hii⟩ := hright i' hi'
      exact ⟨i, hi, (hakin i i' hii).2 hr⟩
  unfold Outline.eligible
  rw [hany, registry.satisfies_congr h.traits (TraitSet.same_refl r.traits)]

/-- Whether an expression may win a sub group depends on which names stand for the group. -/
theorem Outline.eligible_congr {o' : Outline Op} (registry : Registry Op) (x : Expr Op) {r : SubGroupRef}
    (h : ∀ g, o'.reduce g = r.group ↔ o.reduce g = r.group) :
    o'.eligible registry x r = o.eligible registry x r := by
  unfold Outline.eligible
  simp only [h]

end Eligible

/-- When a group is taken in, what stands for a group other than the two is as before. -/
theorem Outline.Names.reduce_takeIn_iff {Op : Type} {o : Outline Op} (hn : o.Names) {keep absorbed k : GroupId}
    (gone : Cell) (known : (o.group absorbed).isSome) (hkeep : k ≠ keep) (hgone : k ≠ absorbed)
    (g : GroupId) : (o.takeIn keep absorbed gone).reduce g = k ↔ o.reduce g = k := by
  rw [hn.reduce_takeIn known]
  split
  · next hg =>
    rw [hg]
    exact ⟨fun h => absurd h.symm hkeep, fun h => absurd h.symm hgone⟩
  · rfl

section Offered

variable {Op Q W : Type} [Preorder W] {worth : Price Q → W}

/-- The expression `e` has the price `p` and may win the sub group `s` of its group. -/
def Work.Candidate (w : Work Op Q) (s : SubGroupId) (e : ExprId) (p : Price Q) : Prop :=
  ∃ x r, w.outline.entry e = some (x, r.group) ∧ w.outline.sub s = some r ∧ w.standings.price e = some p ∧
    w.outline.eligible w.registry x r = true

/-- All members of the group will be offered anew, when the merge under way or one that is pending is done. -/
def Work.Waiting (w : Work Op Q) (g : GroupId) : Prop :=
  (∃ absorbed hadReaders strays, w.stage = .moving g absorbed hadReaders strays) ∨
    ∃ p ∈ w.pending, w.outline.reduce p.1 ≠ w.outline.reduce p.2 ∧
      (w.outline.reduce p.1 = g ∨ w.outline.reduce p.2 = g)

/-- The offer of `e` to `s` is still to be made. -/
def Work.Due (w : Work Op Q) (s : SubGroupId) (e : ExprId) : Prop :=
  (s, e) ∈ w.owed ∨ ∃ r, w.outline.sub s = some r ∧ w.Waiting r.group

/-- The sub group has a winner that is worth no more than the price. -/
def Work.Met (worth : Price Q → W) (w : Work Op Q) (s : SubGroupId) (p : Price Q) : Prop :=
  ∃ v, w.standings.wins s = some v ∧ worth v.price ≤ worth p

/-- Every sub group has met the prices of its candidates, except where the offer is still to be made. -/
def Work.Offered (worth : Price Q → W) (w : Work Op Q) : Prop :=
  ∀ s e p, w.Candidate s e p → w.Due s e ∨ w.Met worth s p

variable {w w' : Work Op Q}

omit [Preorder W] in
/-- Between calls, no offers are due. -/
theorem Work.not_due (hi : w.Idle) (hp : w.pending = []) {s : SubGroupId} {e : ExprId} : ¬ w.Due s e := by
  rintro (howed | ⟨r, -, ⟨_, _, _, hstage⟩ | ⟨p, hmem, -⟩⟩)
  · exact hi.not_owed howed
  · rw [hi.stage] at hstage
    cases hstage
  · rw [hp] at hmem
    cases hmem

/-- No offers are owed, and no sub groups are being moved. -/
structure Work.Calm (w : Work Op Q) : Prop where
  owed : w.owed = []
  stage : ∀ keep absorbed hadReaders strays, w.stage ≠ .moving keep absorbed hadReaders strays

omit [Preorder W] in
theorem Work.Idle.calm (hi : w.Idle) : w.Calm where
  owed := hi.owed
  stage keep absorbed hadReaders strays h := by
    rw [hi.stage] at h
    cases h

omit [Preorder W] in
theorem Work.calm_of_redirecting {keep absorbed : GroupId} {todo : List ExprId} (calm : w.owed = [])
    (stage : w.stage = .redirecting keep absorbed todo) : w.Calm where
  owed := calm
  stage keep absorbed hadReaders strays h := by
    rw [stage] at h
    cases h

section Due

variable {s : SubGroupId} {e e' : ExprId}

omit [Preorder W] in
/-- In calm, offers are due because of a pending merge. -/
theorem Work.Calm.due (hc : w.Calm) (h : w.Due s e) :
    ∃ r, w.outline.sub s = some r ∧ ∃ p ∈ w.pending, w.outline.reduce p.1 ≠ w.outline.reduce p.2 ∧
      (w.outline.reduce p.1 = r.group ∨ w.outline.reduce p.2 = r.group) := by
  rcases h with howed | ⟨r, hr, ⟨_, _, _, hstage⟩ | hpair⟩
  · rw [hc.owed] at howed
    cases howed
  · exact absurd hstage (hc.stage _ _ _ _)
  · exact ⟨r, hr, hpair⟩

omit [Preorder W] in
/-- Where the sub groups and the pending merges stay, so do the offers that are due. -/
theorem Work.Calm.due_of_kept (hc : w.Calm) (hsub : ∀ s r, w.outline.sub s = some r → w'.outline.sub s = some r)
    (hr : ∀ g, w'.outline.reduce g = w.outline.reduce g) (hp : ∀ p ∈ w.pending, p ∈ w'.pending)
    (h : w.Due s e) : w'.Due s e' := by
  obtain ⟨r, hs, p, hmem, hne, hg⟩ := hc.due h
  refine .inr ⟨r, hsub s r hs, .inr ⟨p, hp p hmem, ?_, ?_⟩⟩
  · rw [hr, hr]
    exact hne
  · rw [hr, hr]
    exact hg

omit [Preorder W] in
/-- While sub groups are being moved, an offer to one that stays where it is remains due. -/
theorem Work.Due.move {keep absorbed : GroupId} {hadReaders : Bool} {strays strays' : List SubGroupId}
    {r : SubGroupRef} (h : w.Due s e) (calm : w.owed = []) (stage : w.stage = .moving keep absorbed hadReaders strays)
    (stage' : w'.stage = .moving keep absorbed hadReaders strays') (hs : w.outline.sub s = some r)
    (hs' : w'.outline.sub s = some r) (hr : w'.outline.reduce = w.outline.reduce) (hp : w'.pending = w.pending) :
    w'.Due s e := by
  rcases h with howed | ⟨r', hr', hwait⟩
  · rw [calm] at howed
    cases howed
  · rw [hs] at hr'
    cases hr'
    refine .inr ⟨r, hs', ?_⟩
    rcases hwait with ⟨_, _, _, hstage⟩ | hpair
    · rw [stage] at hstage
      cases hstage
      exact .inl ⟨_, _, _, stage'⟩
    · rw [Work.Waiting, hp, hr]
      exact .inr hpair

end Due

variable [Quantity Q] {P : Terms Op Q}

/-- An edit keeps up the offers if every candidate after it was one before, by whatever name, and was not
due unless it is due still. -/
theorem Work.Offered.next (hr : Memo.Ranks (fun _ => True) worth) (h : w.Offered worth) (hw : w.Sound)
    (hedit : Edit P w w') (back : ∀ s e p, w'.Candidate s e p → (w'.Due s e ∨ w'.Met worth s p) ∨
      ∃ e₀, w.Candidate s e₀ p ∧ (w.Due s e₀ → w'.Due s e)) : w'.Offered worth := by
  intro s e p hc
  rcases back s e p hc with hdone | ⟨e₀, hc₀, hdue⟩
  · exact hdone
  · rcases h s e₀ p hc₀ with hdue₀ | ⟨v, hv, hle⟩
    · exact .inl (hdue hdue₀)
    · obtain ⟨v', hv', hle'⟩ := hedit.lowers hr hw w.quoted_true s v hv
      obtain ⟨x, r, -, hs, -⟩ := hc
      rw [(hedit.sound hw).outline.names.reduceSub_of_live (by rw [hs]; rfl)] at hv'
      exact .inr ⟨v', hv', hle'.trans hle⟩

/-- The same, where the names of the candidates stay. -/
theorem Work.Offered.next_same (hr : Memo.Ranks (fun _ => True) worth) (h : w.Offered worth) (hw : w.Sound)
    (hedit : Edit P w w') (back : ∀ s e p, w'.Candidate s e p → w.Candidate s e p ∧ (w.Due s e → w'.Due s e)) :
    w'.Offered worth :=
  h.next hr hw hedit fun s e p hc => .inr ⟨e, back s e p hc⟩

omit [Preorder W] [Quantity Q] in
/-- A new expression has no price yet. -/
theorem Work.Sound.price_new (hw : w.Sound) : w.standings.price ⟨w.outline.next⟩ = none := by
  cases hp : w.standings.price ⟨w.outline.next⟩ with
  | none => rfl
  | some p =>
    have hlive := hw.price ⟨w.outline.next⟩ (by rw [hp]; rfl)
    rw [hw.outline.names.fresh_entry (Nat.le_refl _)] at hlive
    cases hlive

/-- A candidate's offer is taken, or the winner is worth no more already. -/
theorem Work.Candidate.met_offer (hr : Memo.Ranks (fun _ => True) worth) {s : SubGroupId} {e : ExprId} {p : Price Q}
    (hc : w.Candidate s e p) : ∃ v, (w.standings.offer w.registry w.tie w.outline s e).wins s = some v ∧
      worth v.price ≤ worth p := by
  obtain ⟨x, r, hx, hs, hp, helig⟩ := hc
  simp only [Standings.offer, hx, hs, hp, helig, Bool.true_and]
  split
  · exact ⟨⟨e, p⟩, if_pos rfl, le_refl _⟩
  · next hbeats =>
    cases hv : w.standings.wins s with
    | none =>
      rw [hv] at hbeats
      exact absurd rfl hbeats
    | some v =>
      rw [hv] at hbeats
      exact ⟨v, rfl, hr.kept trivial trivial hbeats⟩

section Cases

variable (hr : Memo.Ranks (fun _ => True) worth) (ho : w.Offered worth) (hw : w.Sound)

include hr ho hw

/-- A new sub group is owed all members of its group. -/
theorem Work.Offered.openSub {g : GroupId} {traits : TraitSet} {c : Cell} (idle : w.Idle)
    (live : w.outline.group g = some c) (new : ∀ p ∈ c.subs, ¬ p.1.Same traits) :
    Work.Offered worth { w with
      outline := w.outline.openSub g traits, owed := c.members.map fun e => (⟨w.outline.next⟩, e) } := by
  refine ho.next hr hw (Edit.openSub idle live new : Edit Terms.free w _) fun s e p hc => ?_
  obtain ⟨x, r, hx, hs, hp, helig⟩ := hc
  change (if s = ⟨w.outline.next⟩ then some ⟨g, traits⟩ else w.outline.sub s) = some r at hs
  split at hs
  · next hnew =>
    cases hs
    rw [hnew]
    exact .inl (.inl (.inl (List.mem_map_of_mem ((hw.outline.places.members g c live e).2 ⟨x, hx⟩))))
  · refine .inr ⟨e, ⟨x, r, hx, hs, hp, helig⟩, fun hdue => ?_⟩
    obtain ⟨r', hs', hpair⟩ := idle.calm.due hdue
    rw [hs] at hs'
    cases hs'
    refine .inr ⟨r, ?_, .inr hpair⟩
    exact (if_neg ‹_›).trans hs

/-- An expression with a new price is owed to all sub groups of its group. -/
theorem Work.Offered.price {e₀ : ExprId} {x₀ : Expr Op} {k : GroupId} {c : Cell} (p₀ : Price Q) (idle : w.Idle)
    (known : w.outline.entry e₀ = some (x₀, k)) (home : w.outline.group k = some c) :
    Work.Offered worth { w with
      standings := w.standings.setPrice e₀ p₀, owed := c.subs.map fun q => (q.2, e₀) } := by
  refine ho.next hr hw (Edit.price idle known home trivial : Edit Terms.free w _) fun s e p hc => ?_
  obtain ⟨x, r, hx, hs, hp, helig⟩ := hc
  by_cases he : e = e₀
  · change w.outline.entry e = some (x, r.group) at hx
    change w.outline.sub s = some r at hs
    rw [he, known] at hx
    cases hx
    obtain ⟨c', hc', hmem⟩ := ((hw.tidy idle.stage).indexed.filed s r hs).resolve_left id
    rw [home] at hc'
    cases hc'
    rw [he]
    exact .inl (.inl (.inl (List.mem_map.2 ⟨_, hmem, rfl⟩)))
  · refine .inr ⟨e, ⟨x, r, hx, hs, (if_neg he).symm.trans hp, helig⟩, fun hdue => idle.calm.due_of_kept ?_ ?_ ?_ hdue⟩
    exacts [fun _ _ => id, fun _ => rfl, fun _ => id]

/-- All offers are due in a group that takes another one in. -/
theorem Work.Offered.takeIn {q : GroupId × GroupId} {ps : List (GroupId × GroupId)} {keep absorbed : GroupId}
    {kept gone : Cell} {hadReaders : Bool} (idle : w.Idle) (next : w.pending = q :: ps)
    (pair : (keep, absorbed) = (w.outline.reduce q.1, w.outline.reduce q.2) ∨
      (absorbed, keep) = (w.outline.reduce q.1, w.outline.reduce q.2))
    (ne : keep ≠ absorbed) (live : w.outline.group keep = some kept) (known : w.outline.group absorbed = some gone)
    (rowType : kept.rowType = gone.rowType) (readers : ∀ e, gone.parents e → hadReaders = true) :
    Work.Offered worth { w with
      outline := w.outline.takeIn keep absorbed gone
      stage := .moving keep absorbed hadReaders (gone.subs.map Prod.snd)
      pending := ps } := by
  refine ho.next hr hw (Edit.takeIn idle next pair ne live known rowType readers : Edit Terms.free w _)
    fun s e p hc => ?_
  obtain ⟨x, r, hx, hs, hp, helig⟩ := hc
  by_cases hkeep : r.group = keep
  · exact .inl (.inl (.inr ⟨r, hs, .inl ⟨absorbed, hadReaders, _, by rw [hkeep]⟩⟩))
  · obtain ⟨g₀, hx₀, hg₀⟩ := entry_takeIn.1 hx
    have hgone : g₀ ≠ absorbed := fun hg => by
      rw [if_pos hg] at hg₀
      exact hkeep hg₀
    rw [if_neg hgone] at hg₀
    subst hg₀
    have hiff := hw.outline.names.reduce_takeIn_iff gone (by rw [known]; rfl) hkeep hgone
    refine .inr ⟨e, ⟨x, r, hx₀, hs, hp, ?_⟩, fun hdue => ?_⟩
    · rw [← Outline.eligible_congr w.registry x hiff]
      exact helig
    · obtain ⟨r', hs', q', hmem, hne, hg⟩ := idle.calm.due hdue
      change w.outline.sub s = some r at hs
      rw [hs] at hs'
      cases hs'
      rw [next] at hmem
      rcases List.mem_cons.1 hmem with rfl | hmem
      · -- the groups of the pair itself are `keep` and `absorbed`
        rcases pair with hp | hp <;>
          (obtain ⟨h₁, h₂⟩ := Prod.mk.inj hp; rw [← h₁, ← h₂] at hg; rcases hg with hg | hg) <;>
          first | exact absurd hg.symm hkeep | exact absurd hg.symm hgone
      · refine .inr ⟨r, hs, .inr ⟨q', hmem, ?_, ?_⟩⟩
        · intro heq
          rcases hg with hg | hg
          · exact hne (hg.trans ((hiff _).1 (heq.symm.trans ((hiff _).2 hg))).symm)
          · exact hne (((hiff _).1 (heq.trans ((hiff _).2 hg))).trans hg.symm)
        · exact hg.imp (hiff _).2 (hiff _).2

/-- A sub group that is handed over to the group that stays is owed all offers there. -/
theorem Work.Offered.hand {keep absorbed : GroupId} {hadReaders : Bool} {s₀ : SubGroupId} {strays : List SubGroupId}
    {t : TraitSet} {c : Cell} (calm : w.owed = []) (stage : w.stage = .moving keep absorbed hadReaders (s₀ :: strays))
    (stray : w.outline.sub s₀ = some ⟨absorbed, t⟩) (live : w.outline.group keep = some c)
    (new : ∀ q ∈ c.subs, ¬ q.1.Same t) :
    Work.Offered worth { w with
      outline := w.outline.handSub keep t s₀, stage := .moving keep absorbed hadReaders strays } := by
  refine ho.next hr hw (Edit.hand calm stage stray live new : Edit Terms.free w _) fun s e p hc => ?_
  obtain ⟨x, r, hx, hs, hp, helig⟩ := hc
  have hs' := hs
  change (if s = s₀ then some ⟨keep, t⟩ else w.outline.sub s) = some r at hs
  split at hs
  · cases hs
    exact .inl (.inl (.inr ⟨_, hs', .inl ⟨_, _, _, rfl⟩⟩))
  · exact .inr ⟨e, ⟨x, r, hx, hs, hp, helig⟩, fun hdue => hdue.move calm stage rfl hs hs' rfl rfl⟩

/-- When all sub groups have been moved, the members of the group that stays are owed to all of them. -/
theorem Work.Offered.convene {keep absorbed : GroupId} {hadReaders : Bool} {c : Cell} {todo : List ExprId}
    (calm : w.owed = []) (stage : w.stage = .moving keep absorbed hadReaders [])
    (live : w.outline.group keep = some c) (readers : ∀ e, c.parents e → e ∈ todo) :
    Work.Offered worth { w with stage := .redirecting keep absorbed todo, owed := Work.convened c } := by
  refine ho.next hr hw (Edit.convene calm stage live readers : Edit Terms.free w _) fun s e p hc => ?_
  obtain ⟨x, r, hx, hs, hp, helig⟩ := hc
  change w.outline.entry e = some (x, r.group) at hx
  change w.outline.sub s = some r at hs
  by_cases hkeep : r.group = keep
  · rw [hkeep] at hx
    obtain ⟨c', hc', hmem⟩ := ((hw.gathering stage).moving.indexed.filed s r hs).resolve_left (by simp)
    rw [hkeep, live] at hc'
    cases hc'
    refine .inl (.inl (.inl (List.mem_flatMap.2 ⟨s, List.mem_map.2 ⟨_, hmem, rfl⟩, ?_⟩)))
    exact List.mem_map_of_mem ((hw.outline.places.members keep c live e).2 ⟨x, hx⟩)
  · refine .inr ⟨e, ⟨x, r, hx, hs, hp, helig⟩, ?_⟩
    rintro (howed | ⟨r', hr', hwait | hpair⟩)
    · rw [calm] at howed
      cases howed
    · rw [hs] at hr'
      cases hr'
      obtain ⟨_, _, _, hstage⟩ := hwait
      rw [stage] at hstage
      cases hstage
      exact absurd rfl hkeep
    · exact .inr ⟨r', hr', .inr hpair⟩

/-- An offer that is made is met. -/
theorem Work.Offered.offer {s₀ : SubGroupId} {e₀ : ExprId} {owed : List (SubGroupId × ExprId)}
    (next : w.owed = (s₀, e₀) :: owed) :
    Work.Offered worth { w with
      standings := w.standings.offer w.registry w.tie w.outline s₀ e₀, owed := owed } := by
  refine ho.next hr hw (Edit.offer next : Edit Terms.free w _) fun s e p hc => ?_
  obtain ⟨x, r, hx, hs, hp, helig⟩ := hc
  rw [Standings.price_offer] at hp
  have hc₀ : w.Candidate s e p := ⟨x, r, hx, hs, hp, helig⟩
  by_cases hnow : s = s₀ ∧ e = e₀
  · obtain ⟨rfl, rfl⟩ := hnow
    exact .inl (.inr (hc₀.met_offer hr))
  · refine .inr ⟨e, hc₀, ?_⟩
    rintro (howed | hwait)
    · rw [next] at howed
      rcases List.mem_cons.1 howed with heq | howed
      · exact absurd (Prod.mk.inj heq) hnow
      · exact .inl howed
    · exact .inr hwait

/-- A redirected reader is a candidate of the sub groups that it was a candidate of. -/
theorem Work.Offered.rewrite {keep absorbed : GroupId} {e₀ : ExprId} {todo : List ExprId} {x₀ : Expr Op} {k : GroupId}
    (calm : w.owed = []) (stage : w.stage = .redirecting keep absorbed (e₀ :: todo))
    (known : w.outline.entry e₀ = some (x₀, k)) (apart : w.outline.Apart (x₀.redirect absorbed keep)) :
    Work.Offered worth { w with
      outline := w.outline.rewrite e₀ (x₀.redirect absorbed keep) k, stage := .redirecting keep absorbed todo } := by
  have hg := (hw.redirecting stage).gone
  have halike : w.outline.Alike x₀ (x₀.redirect absorbed keep) :=
    .of_settled_eq (settled_redirect (reduce_kept hw.outline hg) hg x₀)
  refine ho.next_same hr hw (Edit.rewrite calm stage known apart : Edit Terms.free w _) fun s e p hc => ⟨?_, ?_⟩
  · obtain ⟨x, r, hx, hs, hp, helig⟩ := hc
    change (if e = e₀ then some (x₀.redirect absorbed keep, k) else w.outline.entry e) = some (x, r.group) at hx
    split at hx
    · next he =>
      cases hx
      refine ⟨x₀, r, he ▸ known, hs, hp, ?_⟩
      rw [halike.eligible]
      exact helig
    · exact ⟨x, r, hx, hs, hp, helig⟩
  · refine fun hdue => (Work.calm_of_redirecting calm stage).due_of_kept ?_ ?_ ?_ hdue
    exacts [fun _ _ => id, fun _ => rfl, fun _ => id]

/-- The twin of an expression that is dropped inherits its price, and its victories if it is at home in the same group.
Else the two groups are still to be merged. -/
theorem Work.Offered.drop {keep absorbed : GroupId} {e₀ twin : ExprId} {todo : List ExprId} {x₀ y : Expr Op}
    {k k' : GroupId} {c : Cell} (calm : w.owed = []) (stage : w.stage = .redirecting keep absorbed (e₀ :: todo))
    (known : w.outline.entry e₀ = some (x₀, k)) (ne : twin ≠ e₀) (other : w.outline.entry twin = some (y, k'))
    (congruent : y.Congruent (x₀.redirect absorbed keep)) (home : w.outline.group k = some c) :
    Work.Offered worth { w with
      outline := w.outline.drop e₀ twin (x₀.redirect absorbed keep) k
      standings := w.standings.drop e₀ twin (c.subs.map Prod.snd)
      stage := .redirecting keep absorbed todo
      pending := if k' = k then w.pending else w.pending ++ [(k', k)] } := by
  have hnames := hw.outline.names
  have hg := (hw.redirecting stage).gone
  have halike : w.outline.Alike x₀ y :=
    (Alike.of_settled_eq (settled_redirect (reduce_kept hw.outline hg) hg x₀)).trans
      (Alike.of_congruent congruent).symm
  have hcalm := Work.calm_of_redirecting calm stage
  have hpending : ∀ q ∈ w.pending, q ∈ if k' = k then w.pending else w.pending ++ [(k', k)] := by
    intro q hmem
    split
    · exact hmem
    · exact List.mem_append_left _ hmem
  refine ho.next hr hw (Edit.drop calm stage known ne other congruent home : Edit Terms.free w _) fun s e p hc => ?_
  obtain ⟨x, r, hx, hs, hp, helig⟩ := hc
  obtain ⟨hne, hx⟩ := entry_drop.1 hx
  simp only [Standings.drop] at hp
  by_cases htwin : e = twin
  · rw [if_pos htwin] at hp
    rw [htwin, other] at hx
    cases hx
    cases htp : w.standings.price twin with
    | some p' =>
      rw [htp] at hp
      cases hp
      exact .inr ⟨twin, ⟨_, r, other, hs, htp, helig⟩, hcalm.due_of_kept (fun _ _ => id) (fun _ => rfl) hpending⟩
    | none =>
      rw [htp] at hp
      by_cases hk : r.group = k
      · refine .inr ⟨e₀, ⟨x₀, r, hk ▸ known, hs, hp, ?_⟩,
          hcalm.due_of_kept (fun _ _ => id) (fun _ => rfl) hpending⟩
        rw [halike.eligible]
        exact helig
      · refine .inl (.inl (.inr ⟨r, hs, .inr ⟨(r.group, k), ?_, ?_, .inl ?_⟩⟩))
        · show (r.group, k) ∈ if r.group = k then w.pending else w.pending ++ [(r.group, k)]
          rw [if_neg hk]
          exact List.mem_append_right _ List.mem_cons_self
        · show w.outline.reduce r.group ≠ w.outline.reduce k
          rw [hw.outline.reduce_home other, hw.outline.reduce_home known]
          exact hk
        · exact hw.outline.reduce_home other
  · rw [if_neg htwin, if_neg hne] at hp
    exact .inr ⟨e, ⟨x, r, hx, hs, hp, helig⟩, hcalm.due_of_kept (fun _ _ => id) (fun _ => rfl) hpending⟩

end Cases

/-- Whatever is edited, offers are made, or they are due. -/
theorem Edit.offered (hr : Memo.Ranks (fun _ => True) worth) (h : Edit P w w') (hw : w.Sound)
    (ho : w.Offered worth) : w'.Offered worth := by
  have hedit := h
  have hnew : ∀ {e : ExprId} {p : Price Q}, w.standings.price e = some p → e ≠ ⟨w.outline.next⟩ := by
    intro e p hp he
    rw [he, hw.price_new] at hp
    cases hp
  cases h with
  | skip idle | forget idle _ =>
    refine ho.next_same hr hw hedit fun s e p hc => ⟨hc, fun hdue => idle.calm.due_of_kept ?_ ?_ ?_ hdue⟩
    exacts [fun _ _ => id, fun _ => rfl, fun _ => id]
  | propose q idle =>
    refine ho.next_same hr hw hedit fun s e p hc => ⟨hc, fun hdue => idle.calm.due_of_kept ?_ ?_ ?_ hdue⟩
    exacts [fun _ _ => id, fun _ => rfl, fun _ => List.mem_cons_of_mem _]
  | @same q ps idle next same =>
    refine ho.next_same hr hw hedit fun s e p hc => ⟨hc, fun hdue => ?_⟩
    obtain ⟨r, hr, q', hmem, hne, hg⟩ := idle.calm.due hdue
    rw [next] at hmem
    rcases List.mem_cons.1 hmem with rfl | hmem
    · exact absurd same hne
    · exact .inr ⟨r, hr, .inr ⟨q', hmem, hne, hg⟩⟩
  | openSub idle live new => exact ho.openSub hr hw idle live new
  | @price e x k c p idle known home fair => exact ho.price hr hw p idle known home
  | attach idle live ready apart =>
    refine ho.next_same hr hw hedit fun s e p hc => ?_
    obtain ⟨x, r, hx, hs, hp, helig⟩ := hc
    refine ⟨⟨x, r, (if_neg (hnew hp)).symm.trans hx, hs, hp, helig⟩, fun hdue =>
      idle.calm.due_of_kept ?_ ?_ ?_ hdue⟩
    exacts [fun _ _ => id, fun _ => rfl, fun _ => id]
  | @found x₀ rowType facts idle ready apart =>
    refine ho.next_same hr hw hedit fun s e p hc => ?_
    obtain ⟨x, r, hx, hs, hp, helig⟩ := hc
    have hred := hw.outline.names.reduce_found x₀ rowType facts
    refine ⟨⟨x, r, (if_neg (hnew hp)).symm.trans hx, hs, hp, ?_⟩, fun hdue =>
      idle.calm.due_of_kept ?_ ?_ ?_ hdue⟩
    · rw [← Outline.eligible_congr w.registry x fun g => by rw [congrFun hred g]]
      exact helig
    · exact fun _ _ => id
    · exact congrFun hred
    · exact fun _ => id
  | takeIn idle next pair ne live known rowType readers =>
    exact ho.takeIn hr hw idle next pair ne live known rowType readers
  | @fold keep absorbed hadReaders s₀ strays t c q calm stage stray live listed same =>
    refine ho.next_same hr hw hedit fun s e p hc => ?_
    obtain ⟨x, r, hx, hs, hp, helig⟩ := hc
    change (if s = s₀ then none else w.outline.sub s) = some r at hs
    split at hs
    · cases hs
    · rw [Standings.price_fold] at hp
      exact ⟨⟨x, r, hx, hs, hp, helig⟩, fun hdue =>
        hdue.move calm stage rfl hs ((if_neg ‹_›).trans hs) rfl rfl⟩
  | hand calm stage stray live new => exact ho.hand hr hw calm stage stray live new
  | convene calm stage live readers => exact ho.convene hr hw calm stage live readers
  | offer next => exact ho.offer hr hw next
  | rewrite calm stage known apart => exact ho.rewrite hr hw calm stage known apart
  | drop calm stage known ne other congruent home => exact ho.drop hr hw calm stage known ne other congruent home
  | pass calm stage _ | finish calm stage =>
    refine ho.next_same hr hw hedit fun s e p hc => ⟨hc, fun hdue =>
      (Work.calm_of_redirecting calm stage).due_of_kept ?_ ?_ ?_ hdue⟩
    exacts [fun _ _ => id, fun _ => rfl, fun _ => id]

theorem Edits.offered (hr : Memo.Ranks (fun _ => True) worth) (h : Edits P w w') (hw : w.Sound)
    (ho : w.Offered worth) : w'.Offered worth := by
  induction h with
  | refl => exact ho
  | tail hedits he ih => exact he.offered hr (Edits.sound hedits hw) ih

end Offered

end PlanSearch
