import PlanSearch.Proofs.Memo.Bids

/-!
# The lead

A winner is in the lead if it bids and no other bid beats it. A first price for an expression and the opening of a sub
group bring new bids, and each of them is offered: so the lead is kept, offer by offer, in whatever order they come.
Among bids of one price each, there is one leader if names decide between equal weights, and one weight to lead with
if they do not.

    recordPrice e p m = .ok m' → m.standings.price (m.reduceExpr e) = none → m.work.Led → m'.work.Led (recordPrice_led)
    ensureSubGroup r require m = .ok s m' → m.work.Led → m'.work.Led                               (ensureSubGroup_led)
    tie ≠ .keepIncumbent → Leads tie bids bids v → Leads tie bids bids v' → v = v'                       (Leads.unique)
-/

namespace PlanSearch

open Outline

/-! ## Who beats whom -/

namespace TieBreak

variable {tie : TieBreak} {a b c : ExprId}

theorem not_prefers_self (tie : TieBreak) (a : ExprId) : ¬ tie.prefers a a = true := by
  cases tie <;> simp [prefers, Ident.lt_def]

theorem prefers_trans (hab : tie.prefers a b = true) (hbc : tie.prefers b c = true) : tie.prefers a c = true := by
  cases tie <;> simp only [prefers, decide_eq_true_eq, Ident.lt_def] at hab hbc ⊢
  · cases hab
  · exact hab.trans hbc
  · exact hbc.trans hab

/-- Names decide, unless the incumbent is kept. -/
theorem eq_of_not_prefers (htie : tie ≠ .keepIncumbent) (hab : ¬ tie.prefers a b = true)
    (hba : ¬ tie.prefers b a = true) : a = b := by
  obtain ⟨a⟩ := a
  obtain ⟨b⟩ := b
  cases tie <;> simp only [prefers, decide_eq_true_eq, Ident.lt_def, not_lt] at hab hba
  · exact absurd rfl htie
  · rw [Nat.le_antisymm hba hab]
  · rw [Nat.le_antisymm hab hba]

end TieBreak

namespace Memo

variable {Q : Type} [Quantity Q] [LinearOrder Q] [Quantity.Exact Q] {tie : TieBreak} {u v c : Winner Q}

theorem beats_iff : beats tie c (some v) = true ↔ c.price.weight < v.price.weight ∨
    c.price.weight = v.price.weight ∧ tie.prefers c.expr v.expr = true := by
  simp only [beats, Bool.or_eq_true, Bool.and_eq_true, Quantity.Exact.less_iff, Quantity.Exact.same_iff]

theorem beats_trans (huv : beats tie u (some v) = true) (hvc : beats tie v (some c) = true) :
    beats tie u (some c) = true := by
  rw [beats_iff] at huv hvc ⊢
  obtain hlt | ⟨heq, hu⟩ := huv
  · obtain hlt' | ⟨heq', -⟩ := hvc
    · exact .inl (hlt.trans hlt')
    · exact .inl (heq' ▸ hlt)
  · obtain hlt' | ⟨heq', hv⟩ := hvc
    · exact .inl (heq ▸ hlt')
    · exact .inr ⟨heq.trans heq', TieBreak.prefers_trans hu hv⟩

theorem not_beats_self (tie : TieBreak) (v : Winner Q) : ¬ beats tie v (some v) = true := by
  rw [beats_iff]
  rintro (hlt | ⟨-, hself⟩)
  · exact hlt.false
  · exact tie.not_prefers_self _ hself

end Memo

/-! ## The lead -/

section Leads

variable {Q : Type} [Quantity Q] {tie : TieBreak} {bids bids' rivals rivals' : ExprId → Price Q → Prop}

/-- The winner bids, and no rival beats it. Where there is no winner, there are no rivals. -/
def Leads (tie : TieBreak) (bids rivals : ExprId → Price Q → Prop) : Option (Winner Q) → Prop
  | none => ∀ e p, ¬ rivals e p
  | some v => bids v.expr v.price ∧ ∀ e p, rivals e p → ¬ Memo.beats tie ⟨e, p⟩ (some v) = true

theorem Leads.mono {v : Option (Winner Q)} (h : Leads tie bids rivals v) (hbids : ∀ e p, bids e p → bids' e p)
    (hrivals : ∀ e p, rivals' e p → rivals e p) : Leads tie bids' rivals' v := by
  cases v with
  | none => exact fun e p hr => h e p (hrivals e p hr)
  | some v => exact ⟨hbids _ _ h.1, fun e p hr => h.2 e p (hrivals e p hr)⟩

variable [LinearOrder Q] [Quantity.Exact Q]

/-- One more rival is beaten, or takes the lead. -/
theorem Leads.offer {v : Option (Winner Q)} {e : ExprId} {p : Price Q} (h : Leads tie bids rivals v) (hbid : bids e p)
    (hrivals : ∀ e' p', rivals' e' p' → rivals e' p' ∨ e' = e ∧ p' = p) :
    Leads tie bids rivals' (if Memo.beats tie ⟨e, p⟩ v then some ⟨e, p⟩ else v) := by
  split
  · next hbeats =>
    refine ⟨hbid, fun e' p' hr hbeats' => ?_⟩
    obtain hr | ⟨rfl, rfl⟩ := hrivals e' p' hr
    · cases v with
      | none => exact h e' p' hr
      | some v => exact h.2 e' p' hr (Memo.beats_trans hbeats' hbeats)
    · exact Memo.not_beats_self tie _ hbeats'
  · next hbeats =>
    cases v with
    | none => exact absurd rfl hbeats
    | some v =>
      refine ⟨h.1, fun e' p' hr => ?_⟩
      obtain hr | ⟨rfl, rfl⟩ := hrivals e' p' hr
      · exact h.2 e' p' hr
      · exact hbeats

/-- All that lead among the same bids weigh the same. -/
theorem Leads.weight_eq {v v' : Option (Winner Q)} (h : Leads tie bids bids v) (h' : Leads tie bids bids v') :
    v.map (fun v => v.price.weight) = v'.map fun v => v.price.weight := by
  cases v with
  | none =>
    cases v' with
    | none => rfl
    | some v' => exact absurd h'.1 (h _ _)
  | some v =>
    cases v' with
    | none => exact absurd h.1 (h' _ _)
    | some v' =>
      have hle : ¬ v'.price.weight < v.price.weight := fun hlt => h.2 _ _ h'.1 (Memo.beats_iff.2 (.inl hlt))
      have hge : ¬ v.price.weight < v'.price.weight := fun hlt => h'.2 _ _ h.1 (Memo.beats_iff.2 (.inl hlt))
      exact congrArg some (le_antisymm (not_lt.1 hle) (not_lt.1 hge))

/-- Where names decide, and everyone bids one price at most, there is one leader. -/
theorem Leads.unique {v v' : Option (Winner Q)} (htie : tie ≠ .keepIncumbent)
    (hone : ∀ e p p', bids e p → bids e p' → p = p') (h : Leads tie bids bids v) (h' : Leads tie bids bids v') :
    v = v' := by
  have hweight := h.weight_eq h'
  cases v with
  | none =>
    cases v' with
    | none => rfl
    | some v' => cases hweight
  | some v =>
    cases v' with
    | none => cases hweight
    | some v' =>
      have hsame : v.price.weight = v'.price.weight := Option.some.inj hweight
      have hexpr : v.expr = v'.expr := TieBreak.eq_of_not_prefers htie
        (fun hp => h'.2 _ _ h.1 (Memo.beats_iff.2 (.inr ⟨hsame, hp⟩)))
        (fun hp => h.2 _ _ h'.1 (Memo.beats_iff.2 (.inr ⟨hsame.symm, hp⟩)))
      obtain ⟨e, p⟩ := v
      obtain ⟨e', p'⟩ := v'
      cases hexpr
      cases hone _ _ _ h.1 h'.1
      rfl

end Leads

/-! ## Winners in the lead -/

section Led

variable {Op Q : Type} [Quantity Q] {w w' : Work Op Q}

/-- Every winner is in the lead among the candidates for its sub group, but for the offers that are still to be made. -/
def Work.Led (w : Work Op Q) : Prop :=
  ∀ s, Leads w.tie (w.Candidate s) (fun e p => w.Candidate s e p ∧ (s, e) ∉ w.owed) (w.standings.wins s)

/-- Where no offers are left to be made, all candidates are beaten. -/
theorem Work.Led.leads (h : w.Led) (howed : w.owed = []) (s : SubGroupId) :
    Leads w.tie (w.Candidate s) (w.Candidate s) (w.standings.wins s) :=
  (h s).mono (fun _ _ => id) fun e p hc => ⟨hc, by rw [howed]; exact List.not_mem_nil⟩

/-- The lead is kept if no winner changes, and whoever bids anew is still to be offered. -/
theorem Work.Led.later (h : w.Led) (htie : w'.tie = w.tie) (hwins : w'.standings.wins = w.standings.wins)
    (hkept : ∀ s e p, w.Candidate s e p → w'.Candidate s e p)
    (hnew : ∀ s e p, w'.Candidate s e p → w.Candidate s e p ∧ (s, e) ∉ w.owed ∨ (s, e) ∈ w'.owed) : w'.Led := by
  intro s
  rw [htie, hwins]
  exact (h s).mono (hkept s) fun e p ⟨hc, hno⟩ => (hnew s e p hc).resolve_right hno

/-- What is offered to a sub group wins it if it beats the winner, provided that it is a candidate. -/
theorem Work.Candidate.wins_offer {s : SubGroupId} {e : ExprId} {p : Price Q} (hc : w.Candidate s e p) :
    (w.standings.offer w.registry w.tie w.outline s e).wins s =
      if Memo.beats w.tie ⟨e, p⟩ (w.standings.wins s) then some ⟨e, p⟩ else w.standings.wins s := by
  obtain ⟨x, r, hx, hs, hp, helig⟩ := hc
  simp only [Standings.offer, hx, hs, hp, helig, Bool.true_and]
  split
  · exact if_pos rfl
  · rfl

theorem Work.offer_of_no_candidate {s : SubGroupId} {e : ExprId} (hw : w.Sound) (hmem : (s, e) ∈ w.owed)
    (h : ∀ p, ¬ w.Candidate s e p) : w.standings.offer w.registry w.tie w.outline s e = w.standings := by
  rcases w.standings.offer_cases w.registry w.tie w.outline s e with hst | ⟨x, k, r, p, hx, hr, hp, helig, -, -⟩
  · exact hst
  · obtain ⟨r', x', hr', hx'⟩ := hw.owed (s, e) hmem
    cases hr.symm.trans hr'
    cases hx.symm.trans hx'
    exact absurd ⟨x, r, hx, hr, hp, helig⟩ (h p)

variable [LinearOrder Q] [Quantity.Exact Q]

/-- An offer that is made keeps the lead. -/
theorem Work.Led.offer (h : w.Led) (hw : w.Sound) {s : SubGroupId} {e : ExprId} {owed : List (SubGroupId × ExprId)}
    (next : w.owed = (s, e) :: owed) :
    ({ w with standings := w.standings.offer w.registry w.tie w.outline s e, owed := owed } : Work Op Q).Led := by
  have hcand : ({ w with standings := w.standings.offer w.registry w.tie w.outline s e, owed := owed } :
      Work Op Q).Candidate = w.Candidate := by
    funext s' e' p'
    unfold Work.Candidate
    rw [Standings.price_offer]
  have hrest : ∀ s' e' p', w.Candidate s' e' p' ∧ (s', e') ∉ owed →
      w.Candidate s' e' p' ∧ (s', e') ∉ w.owed ∨ s' = s ∧ e' = e := by
    rintro s' e' p' ⟨hc, hno⟩
    rw [next, List.mem_cons, Prod.mk.injEq]
    by_cases hhead : s' = s ∧ e' = e
    · exact .inr hhead
    · exact .inl ⟨hc, fun hmem => hmem.elim hhead hno⟩
  intro s'
  rw [hcand]
  by_cases hs : s' = s
  · subst hs
    by_cases hc : ∃ p, w.Candidate s' e p
    · obtain ⟨p, hc⟩ := hc
      rw [hc.wins_offer]
      refine (h s').offer hc fun e' p' hr => (hrest s' e' p' hr).imp id fun ⟨_, he⟩ => ⟨he, ?_⟩
      subst he
      obtain ⟨_, _, -, -, hp, -⟩ := hc
      obtain ⟨_, _, -, -, hp', -⟩ := hr.1
      exact Option.some.inj (hp'.symm.trans hp)
    · rw [w.offer_of_no_candidate hw (by rw [next]; exact List.mem_cons_self) fun p hp => hc ⟨p, hp⟩]
      refine (h s').mono (fun _ _ => id) fun e' p' hr => (hrest s' e' p' hr).resolve_right fun ⟨_, he⟩ => ?_
      exact hc ⟨p', he ▸ hr.1⟩
  · have hwins : (w.standings.offer w.registry w.tie w.outline s e).wins s' = w.standings.wins s' := by
      rcases w.standings.offer_cases w.registry w.tie w.outline s e with hst | ⟨x, k, r, p, -, -, -, -, -, hst⟩
      · rw [hst]
      · rw [hst]
        exact if_neg hs
    rw [hwins]
    exact (h s').mono (fun _ _ => id) fun e' p' hr => (hrest s' e' p' hr).resolve_right fun ⟨hs', _⟩ => hs hs'

end Led

/-! ## What calls do to the lead -/

namespace Memo

section Calls

variable {Op Q : Type} [Quantity Q] [LinearOrder Q] [Quantity.Exact Q] {m m' : Memo Op Q}

/-- One offer after the other keeps the lead. -/
theorem led_of_offers {ι : Type} (target : ι → SubGroupId × ExprId) {is : List ι}
    (hw : (m.workAt .rest (is.map target) []).Sound) (hl : (m.workAt .rest (is.map target) []).Led)
    (h : is.foldlM (fun m i => offer (target i).1 (target i).2 m) m = .ok m') : m'.work.Led := by
  refine (foldlM_invariant (f := fun m i => offer (target i).1 (target i).2 m) (fun is m' =>
    (m'.workAt .rest (is.map target) []).Sound ∧ (m'.workAt .rest (is.map target) []).Led) ?_ is m m' ⟨hw, hl⟩ h).2
  rintro i is m₁ m₂ ⟨hw₁, hl₁⟩ h₂
  rw [workAt_eq (piecewise_settings.offer h₂) (outline_offer h₂) (standings_offer h₂)]
  have hedit : Edit .free (m₁.workAt .rest ((i :: is).map target) []) _ := .offer rfl
  exact ⟨hedit.sound hw₁, hl₁.offer hw₁ rfl⟩

omit [LinearOrder Q] [Quantity.Exact Q] in
theorem price_of_offers {ι : Type} (target : ι → SubGroupId × ExprId) {is : List ι}
    (h : is.foldlM (fun m i => offer (target i).1 (target i).2 m) m = .ok m') :
    m'.standings.price = m.standings.price ∧ m'.settings = m.settings := by
  refine ⟨foldlM_keeps (fun m : Memo Op Q => m.standings.price) (fun _ _ _ h₂ => ?_) _ _ _ h,
    piecewise_settings.foldlM id (fun _ _ _ => piecewise_settings.offer) _ _ _ h⟩
  rw [standings_offer h₂, Standings.price_offer]

/-- A first price keeps the lead: the expression is offered to all sub groups of its group. -/
theorem recordPrice_led {e : ExprId} {p : Price Q} (ht : m.outline.Tidy) (hl : m.work.Led)
    (hnew : m.standings.price (m.reduceExpr e) = none) (h : recordPrice e p m = .ok m') : m'.work.Led ∧
      m'.standings.price = (m.standings.setPrice (m.reduceExpr e) p).price ∧ m'.settings = m.settings := by
  obtain ⟨entry, group, hentry, hlive, h⟩ := recordPrice_eq_ok h
  rw [List.foldlM_map] at h
  have hx := outline_entry_of hentry
  have hgroup : m.outline.group entry.group = some group.cell := by
    change m.groups[m.outline.reduce entry.group]? = some group at hlive
    rw [ht.sound.reduce_home hx] at hlive
    exact outline_group_of hlive
  have hout := outline_setPrice (p := some p) hentry
  have hst : ({ m with exprs := m.exprs.insert (m.reduceExpr e) { entry with price := some p } } : Memo Op Q).standings
      = m.standings.setPrice (m.reduceExpr e) p := standings_setPrice p m
  obtain ⟨hprice, hsettings⟩ := price_of_offers (fun q : TraitSet × SubGroupId => (q.2, m.reduceExpr e)) h
  refine ⟨led_of_offers (fun q : TraitSet × SubGroupId => (q.2, m.reduceExpr e)) ?_ ?_ h,
    hprice.trans (congrArg Standings.price hst), hsettings⟩
  all_goals rw [workAt_eq rfl hout hst]
  · have hedit : Edit .free m.work _ := .price (p := p) ⟨rfl, rfl⟩ hx hgroup trivial
    exact hedit.sound (sound_of_tidy ht [])
  · refine hl.later rfl rfl (fun s e' p' hc => ?_) fun s e' p' hc => ?_
    · obtain ⟨x, r, hx', hs, hp, helig⟩ := hc
      have hne : e' ≠ m.reduceExpr e := fun heq => by
        rw [heq] at hp
        cases hnew.symm.trans hp
      exact ⟨x, r, hx', hs, (if_neg hne).trans hp, helig⟩
    · obtain ⟨x, r, hx', hs, hp, helig⟩ := hc
      by_cases heq : e' = m.reduceExpr e
      · -- the expression is owed to every sub group of its group
        rw [heq] at hx' ⊢
        obtain ⟨-, hhome⟩ := Prod.mk.inj (Option.some.inj (hx.symm.trans hx'))
        obtain ⟨c, hc, hmem⟩ := (ht.indexed.filed s r hs).resolve_left id
        rw [← hhome] at hc
        cases hgroup.symm.trans hc
        exact .inr (List.mem_map.2 ⟨_, hmem, rfl⟩)
      · exact .inl ⟨⟨x, r, hx', hs, (if_neg heq).symm.trans hp, helig⟩, List.not_mem_nil⟩

/-- Asking for a sub group keeps the lead: if it is opened, it is offered all members of its group. -/
theorem ensureSubGroup_led {r : SubGroupRef} {require : Bool} {s : SubGroupId} (ht : m.outline.Tidy) (hl : m.work.Led)
    (h : ensureSubGroup r require m = .ok s m') : m'.work.Led ∧
      m'.standings.price = m.standings.price ∧ m'.settings = m.settings := by
  obtain ⟨-, group, hgroup, ⟨-, hmark⟩ | ⟨hno, rfl, m₁, hmark, hoffer⟩⟩ := ensureSubGroup_eq_ok h
  · refine ⟨?_, by rw [standings_markIf hmark], settings_markIf hmark⟩
    rw [work, workAt_markIf hmark]
    exact hl
  · have hg := outline_group_of hgroup
    have hnew := Group.sub?_eq_none hno
    have hfresh := ht.sound.names.fresh_sub (s := ⟨m.next⟩) (Nat.le_refl _)
    have hout : (m.openSubGroup (m.reduceGroup r.group) r.traits).1.outline
        = m.outline.openSub (m.reduceGroup r.group) r.traits :=
      outline_openSubGroup (ht.sound.names.subs.rep_eq_none (Nat.le_refl m.next))
    have hst : (m.openSubGroup (m.reduceGroup r.group) r.traits).1.standings = m.standings :=
      standings_openSubGroup hfresh
    obtain ⟨hprice, hsettings⟩ := price_of_offers (fun e => ((⟨m.next⟩ : SubGroupId), e)) hoffer
    refine ⟨led_of_offers (fun e => ((⟨m.next⟩ : SubGroupId), e)) ?_ ?_ hoffer, ?_, ?_⟩
    · rw [workAt_markIf hmark, workAt_eq rfl hout hst]
      have hedit : Edit .free m.work _ := .openSub ⟨rfl, rfl⟩ hg hnew
      exact hedit.sound (sound_of_tidy ht [])
    · rw [workAt_markIf hmark, workAt_eq rfl hout hst]
      refine hl.later rfl rfl (fun s e p hc => ?_) fun s e p hc => ?_
      · obtain ⟨x, ref, hx, hs, hp, helig⟩ := hc
        have hne : s ≠ ⟨m.next⟩ := fun heq => by
          rw [heq] at hs
          cases hfresh.symm.trans hs
        exact ⟨x, ref, hx, (if_neg hne).trans hs, hp, helig⟩
      · obtain ⟨x, ref, hx, hs, hp, helig⟩ := hc
        change (if s = ⟨m.next⟩ then some ⟨m.reduceGroup r.group, r.traits⟩ else m.outline.sub s) = some ref at hs
        split at hs
        · next heq =>
          -- the new sub group is owed every member of its group
          cases hs
          rw [heq]
          exact .inr (List.mem_map_of_mem ((ht.sound.places.members _ _ hg e).2 ⟨x, hx⟩))
        · exact .inl ⟨⟨x, ref, hx, hs, hp, helig⟩, List.not_mem_nil⟩
    · rw [hprice, standings_markIf hmark, hst]
    · rw [hsettings, settings_markIf hmark]
      rfl

end Calls

end Memo

end PlanSearch
