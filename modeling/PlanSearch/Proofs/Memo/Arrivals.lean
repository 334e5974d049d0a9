import PlanSearch.Proofs.Memo.Leading

/-!
# The order of arrival

Prices come in for expressions, and sub groups are asked for. A sub group that is asked for late is offered what was
priced before, one that is asked for early is offered each price as it comes in. What the sub groups have won in the
end is described without the order: the winner is in the lead among all members that got a price. So where every
expression gets one price, and names decide between equal weights, the same prices and requests lead to the same
winners in any order; if the incumbent is kept, to winners of the same weights.

    Attempted m → (∀ e, m.priceOf e = none) → … → m.Received as (m.receiveAll as)                        (received)
    as.Perm as' → (m.receiveAll as).winner r = (m.receiveAll as').winner r          (Attempted.winner_of_perm)
-/

namespace PlanSearch

open Outline

/-! ## Winners have been paid for -/

section Paid

variable {Op Q : Type} [Quantity Q] {P : Terms Op Q} {w w' : Work Op Q}

/-- There are no winners unless some expression has a price. -/
def Work.Paid (w : Work Op Q) : Prop :=
  ∀ s v, w.standings.wins s = some v → ∃ e p, w.standings.price e = some p

/-- Prices change, and change hands, but they do not all go away. -/
theorem Edit.exists_price (h : Edit P w w') {e : ExprId} {p : Price Q} (hp : w.standings.price e = some p) :
    ∃ e' p', w'.standings.price e' = some p' := by
  cases h with
  | skip | forget | openSub | attach | found | propose | same | takeIn | hand | convene | pass | rewrite | finish =>
    exact ⟨e, p, hp⟩
  | @price e₀ _ _ _ p₀ => exact ⟨e₀, p₀, if_pos rfl⟩
  | fold => exact ⟨e, p, by rw [Standings.price_fold]; exact hp⟩
  | offer => exact ⟨e, p, by rw [Standings.price_offer]; exact hp⟩
  | @drop _ _ e₀ twin =>
    by_cases htwin : e = twin
    · exact ⟨twin, p, by simp [Standings.drop, ← htwin, hp]⟩
    by_cases he : e = e₀
    · cases ht : w.standings.price twin with
      | none => exact ⟨twin, p, by simp [Standings.drop, ht, ← he, hp]⟩
      | some p₁ => exact ⟨twin, p₁, by simp [Standings.drop, ht]⟩
    · exact ⟨e, p, by simp [Standings.drop, htwin, he, hp]⟩

theorem Edit.paid (h : Edit P w w') (hw : w.Sound) (hp : w.Paid) : w'.Paid := by
  intro s' v' hv'
  rcases h.wins_descend hw hv' with ⟨s, v, hv, -⟩ | ⟨-, x, r, -, -, -, hprice⟩
  · obtain ⟨e, p, hep⟩ := hp s v hv
    exact h.exists_price hep
  · exact h.exists_price hprice

theorem Edits.paid (h : Edits P w w') (hw : w.Sound) (hp : w.Paid) : w'.Paid := by
  induction h with
  | refl => exact hp
  | tail hr hedit ih => exact hedit.paid (Edits.sound hr hw) ih

theorem Memo.Attempted.paid [Operator Op] {m : Memo Op Q} (h : m.Attempted) : m.work.Paid := by
  induction h with
  | empty registry factRules tieBreak =>
    intro s v hv
    cases hv
  | @attempt m m' before attempt ih =>
    obtain ⟨ps, hedits⟩ := attempt.edits before.tidy
    have hpaid : (m'.workAt .rest [] ps).Paid := Edits.paid hedits (sound_of_tidy before.tidy []) ih
    exact hpaid

end Paid

/-! ## Outlines with more sub groups -/

section Widens

variable {Op : Type} {o o' o'' : Outline Op}

/-- An outline with the same names, expressions and groups. -/
structure Outline.Widens (o o' : Outline Op) : Prop where
  entry : o'.entry = o.entry
  reduce : o'.reduce = o.reduce
  reduceExpr : o'.reduceExpr = o.reduceExpr
  live : ∀ g, (o'.group g).isSome = (o.group g).isSome

theorem Outline.Widens.refl (o : Outline Op) : o.Widens o := ⟨rfl, rfl, rfl, fun _ => rfl⟩

theorem Outline.Widens.trans (h : o.Widens o') (h' : o'.Widens o'') : o.Widens o'' :=
  ⟨h'.entry.trans h.entry, h'.reduce.trans h.reduce, h'.reduceExpr.trans h.reduceExpr,
    fun g => (h'.live g).trans (h.live g)⟩

theorem Outline.widens_openSub (o : Outline Op) (g : GroupId) (traits : TraitSet) : o.Widens (o.openSub g traits) :=
  ⟨rfl, rfl, rfl, fun h => isSome_group_openSub o g h traits⟩

/-- A sub group that is opened serves what it was opened for, beside those that were there. -/
theorem Outline.Names.serves_openSub (h : o.Names) {g : GroupId} {traits : TraitSet} {r : SubGroupRef} :
    (∃ s, (o.openSub g traits).Serves s r) ↔ (∃ s, o.Serves s r) ∨ o.Akin ⟨g, traits⟩ r := by
  have hfresh : o.sub ⟨o.next⟩ = none := h.fresh_sub (Nat.le_refl _)
  constructor
  · rintro ⟨s, ref, href, hakin⟩
    change (if s = ⟨o.next⟩ then some ⟨g, traits⟩ else o.sub s) = some ref at href
    split at href
    · cases href
      exact .inr hakin
    · exact .inl ⟨s, ref, href, hakin⟩
  · rintro (⟨s, ref, href, hakin⟩ | hakin)
    · have hne : s ≠ ⟨o.next⟩ := fun hs => by
        rw [hs, hfresh] at href
        cases href
      exact ⟨s, ref, (if_neg hne).trans href, hakin⟩
    · exact ⟨⟨o.next⟩, _, if_pos rfl, hakin⟩

end Widens

/-! ## Arrivals -/

/-- A price that comes in for an expression, or a request for a sub group. -/
inductive Arrival (Q : Type) where
  | price (e : ExprId) (p : Price Q)
  | request (r : SubGroupRef) (require : Bool)

/-- The expression that a price is for. -/
def Arrival.expr? {Q : Type} : Arrival Q → Option ExprId
  | .price e _ => some e
  | .request _ _ => none

namespace Memo

variable {Op Q : Type} {m m' : Memo Op Q} {as as' : List (Arrival Q)} {r : SubGroupRef}

section Receive

variable [Quantity Q]

/-- The memo after an arrival was seen to, with success or not. -/
def receive (m : Memo Op Q) : Arrival Q → Memo Op Q
  | .price e p => (Update.step (recordPrice e p)).leave m
  | .request r require => (ensureSubGroup r require).leave m

/-- The memo after all arrivals were seen to, in their order. -/
def receiveAll (m : Memo Op Q) (as : List (Arrival Q)) : Memo Op Q := as.foldl receive m

/-- A sub group that is asked for is granted: the traits fit, and there is such a group. -/
structure Grants (m : Memo Op Q) (r : SubGroupRef) : Prop where
  traits : m.checkTraits r.traits = .ok ()
  group : (m.outline.group (m.outline.reduce r.group)).isSome

theorem grants_iff (ht : m.outline.Tidy) {require : Bool} :
    m.Grants r ↔ ∃ s m', ensureSubGroup r require m = .ok s m' := by
  constructor
  · intro hg
    cases h : ensureSubGroup r require m with
    | ok s m' => exact ⟨s, m', rfl⟩
    | error f m' =>
      obtain ⟨-, hcheck | hget⟩ := ensureSubGroup_error ht h
      · cases hg.traits.symm.trans hcheck
      · obtain ⟨c, hc⟩ := Option.isSome_iff_exists.1 hg.group
        obtain ⟨group, -, hgroup, -⟩ := exists_liveGroup hc
        have hfound : m.group? r.group = some group := hgroup
        rw [getGroup, hfound] at hget
        cases hget
  · rintro ⟨s, m', h⟩
    obtain ⟨hcheck, group, hgroup, -⟩ := ensureSubGroup_eq_ok h
    exact ⟨hcheck, by rw [show m.outline.group (m.outline.reduce r.group) = _ from outline_group_of hgroup]; rfl⟩

end Receive

/-! ## What arrivals come to, whatever their order -/

/-- The live expression `e` gets the price `p`, by whatever name. -/
def Gets (m : Memo Op Q) (as : List (Arrival Q)) (e : ExprId) (p : Price Q) : Prop :=
  (m.outline.entry e).isSome ∧ ∃ e₀, Arrival.price e₀ p ∈ as ∧ m.reduceExpr e₀ = e

/-- Some sub group serves the reference, or one that does is asked for and granted. -/
def Opens (m : Memo Op Q) (as : List (Arrival Q)) (r : SubGroupRef) : Prop :=
  (∃ s, m.outline.Serves s r) ∨ ∃ r' require, Arrival.request r' require ∈ as ∧ m.Grants r' ∧ m.outline.Akin r' r

/-- The expression `e` gets the price `p`, and may win what the reference asks for. -/
def Contends (m : Memo Op Q) (as : List (Arrival Q)) (r : SubGroupRef) (e : ExprId) (p : Price Q) : Prop :=
  ∃ x, m.outline.entry e = some (x, m.outline.reduce r.group) ∧ m.Gets as e p ∧
    m.outline.eligible m.registry x (m.outline.reduceRef r) = true

/-- Arrivals are the same in any order. -/
theorem contends_of_perm (h : as.Perm as') : m.Contends as = m.Contends as' ∧ m.Opens as = m.Opens as' := by
  constructor
  · funext r e p
    simp only [Contends, Gets, h.mem_iff]
  · funext r
    simp only [Opens, h.mem_iff]

variable [Operator Op] [Quantity Q] {a : Arrival Q}

/-- What a memo has come to when the arrivals have been seen to. -/
structure Received (m : Memo Op Q) (as : List (Arrival Q)) (m' : Memo Op Q) : Prop where
  attempted : Attempted m'
  settings : m'.settings = m.settings
  widens : m.outline.Widens m'.outline
  price : ∀ e p, m'.standings.price e = some p ↔ m.Gets as e p
  serves : ∀ r, (∃ s, m'.outline.Serves s r) ↔ m.Opens as r
  led : m'.work.Led

theorem Received.grants (h : m.Received as m') : m'.Grants r ↔ m.Grants r := by
  have hregistry : m'.registry = m.registry := (Prod.mk.inj h.settings).1
  have hcheck : m'.checkTraits r.traits = m.checkTraits r.traits := by
    unfold checkTraits
    rw [hregistry]
  have hgroup : (m'.outline.group (m'.outline.reduce r.group)).isSome
      = (m.outline.group (m.outline.reduce r.group)).isSome := by
    rw [h.widens.reduce, h.widens.live]
  exact ⟨fun ⟨ht, hg⟩ => ⟨hcheck ▸ ht, hgroup ▸ hg⟩, fun ⟨ht, hg⟩ => ⟨hcheck ▸ ht, hgroup ▸ hg⟩⟩

omit [Operator Op] [Quantity Q] in
theorem gets_concat {e : ExprId} {p : Price Q} : m.Gets (as ++ [a]) e p ↔
    m.Gets as e p ∨ (m.outline.entry e).isSome ∧ ∃ e₀, .price e₀ p = a ∧ m.reduceExpr e₀ = e := by
  simp only [Gets, List.mem_append, List.mem_singleton, or_and_right, exists_or, and_or_left]

omit [Operator Op] [Quantity Q] in
theorem opens_concat : m.Opens (as ++ [a]) r ↔ m.Opens as r ∨
    ∃ r' require, .request r' require = a ∧ m.Grants r' ∧ m.outline.Akin r' r := by
  simp only [Opens, List.mem_append, List.mem_singleton, or_and_right, exists_or, or_assoc]

/-- Before anything arrives, there are no prices, and so no winners. -/
theorem received_nil (h : Attempted m) (hnone : ∀ e, m.priceOf e = none) : m.Received [] m := by
  have hprice : ∀ e, m.standings.price e = none := fun e => by
    cases hp : m.standings.price e with
    | none => rfl
    | some p =>
      have hlive := (sound_of_tidy h.tidy []).price e (by rw [show m.work.standings.price e = _ from hp]; rfl)
      have hself : m.reduceExpr e = e := h.tidy.sound.names.reduceExpr_of_live hlive
      have hno := hnone e
      unfold priceOf at hno
      rw [hself] at hno
      cases hp.symm.trans hno
  refine ⟨h, rfl, .refl _, fun e p => ?_, fun r => ?_, fun s => ?_⟩
  · rw [hprice]
    constructor
    · rintro ⟨⟩
    · rintro ⟨-, _, hmem, -⟩
      cases hmem
  · refine (or_iff_left ?_).symm
    rintro ⟨_, _, hmem, -⟩
    cases hmem
  · cases hv : m.standings.wins s with
    | none =>
      rw [show m.work.standings.wins s = _ from hv]
      rintro e p ⟨⟨x, r, -, -, hp, -⟩, -⟩
      cases (hprice e).symm.trans hp
    | some v =>
      obtain ⟨e, p, hp⟩ := h.paid s v hv
      cases (hprice e).symm.trans hp

/-- The winner of what a reference asks for is in the lead among those who contend for it, if it was opened at all. -/
theorem Received.winner (h : m.Received as m') (r : SubGroupRef) : ∃ v, m'.winner r = .ok v ∧
    (m.Opens as r → Leads m.tieBreak (m.Contends as r) (m.Contends as r) v) ∧ (¬ m.Opens as r → v = none) := by
  have ht := h.attempted.tidy
  have htie : m'.tieBreak = m.tieBreak := (Prod.mk.inj h.settings).2
  have hregistry : m'.registry = m.registry := (Prod.mk.inj h.settings).1
  refine ⟨_, winner_eq ht r, fun hopens => ?_, fun hclosed => ?_⟩
  · obtain ⟨s, hs⟩ := (h.serves r).2 hopens
    have hsub := ht.subOf_iff.2 hs
    have helig : ∀ x, m'.outline.eligible m'.registry x (m'.outline.reduceRef r)
        = m.outline.eligible m.registry x (m.outline.reduceRef r) := fun x => by
      rw [hregistry, show m'.outline.reduceRef r = m.outline.reduceRef r by
        rw [Outline.reduceRef, Outline.reduceRef, h.widens.reduce]]
      exact eligible_congr m.registry x fun g => by rw [h.widens.reduce]
    have hcontends : m'.work.Candidate s = m.Contends as r := by
      funext e p
      rw [eq_iff_iff, candidate_iff ht hsub]
      simp only [Contends, ← h.price, h.widens.entry, h.widens.reduce, helig]
    rw [hsub, ← hcontends, ← htie]
    exact h.led.leads rfl s
  · cases hsub : m'.outline.subOf r with
    | none => rfl
    | some s => exact absurd ((h.serves r).1 ⟨s, ht.subOf_iff.1 hsub⟩) hclosed

/-! ## One arrival after the other -/

variable [LinearOrder Q] [Quantity.Exact Q]

/-- A price that comes in first for its expression. -/
theorem Received.receive_price (h : m.Received as m') {e : ExprId} {p : Price Q}
    (hnew : ∀ p', ¬ m.Gets as (m.reduceExpr e) p') : m.Received (as ++ [.price e p]) (m'.receive (.price e p)) := by
  have ht := h.attempted.tidy
  have hname : m'.reduceExpr e = m.reduceExpr e := congrFun h.widens.reduceExpr e
  have hserves : ∀ r, m.Opens (as ++ [.price e p]) r ↔ m.Opens as r := fun r => by
    rw [opens_concat, or_iff_left]
    rintro ⟨_, _, ⟨⟩, -⟩
  have hattempt : Attempted (m'.receive (.price e p)) := .attempt h.attempted (.recordPrice e p)
  cases hr : recordPrice e p m' with
  | error f =>
    have hleave : m'.receive (.price e p) = m' := by
      simp only [receive, Update.leave, Update.step, hr]
    rw [hleave]
    refine ⟨h.attempted, h.settings, h.widens, fun e' p' => ?_, fun r => (h.serves r).trans (hserves r).symm, h.led⟩
    -- prices are recorded for all names that stand for expressions
    rw [h.price, gets_concat, or_iff_left]
    rintro ⟨hlive, _, ⟨⟩, rfl⟩
    rw [← h.widens.entry, ← hname] at hlive
    obtain ⟨⟨x, k⟩, hx⟩ := Option.isSome_iff_exists.1 hlive
    obtain ⟨m₂, c, hok, -⟩ := recordPrice_total (P := .free) p ht hx
    cases hr.symm.trans hok
  | ok m₂ =>
    have hleave : m'.receive (.price e p) = m₂ := by
      simp only [receive, Update.leave, Update.step, hr]
    rw [hleave] at hattempt ⊢
    have hlive : (m.outline.entry (m.reduceExpr e)).isSome := by
      obtain ⟨entry, group, he, -⟩ := recordPrice_eq_ok hr
      rw [← hname, ← h.widens.entry, outline_entry_of he]
      rfl
    have hnone : m'.standings.price (m'.reduceExpr e) = none := by
      rw [hname, Option.eq_none_iff_forall_ne_some]
      exact fun p' hp => hnew p' ((h.price _ _).1 hp)
    obtain ⟨hled, hprice, hsettings⟩ := recordPrice_led ht h.led hnone hr
    have hout := outline_recordPrice hr
    refine ⟨hattempt, hsettings.trans h.settings, hout ▸ h.widens, fun e' p' => ?_, fun r => ?_, hled⟩
    · rw [hprice, gets_concat, ← h.price, hname]
      simp only [Standings.setPrice]
      by_cases heq : e' = m.reduceExpr e
      · rw [if_pos heq, heq, ← hname, hnone, hname]
        constructor
        · rintro ⟨⟩
          exact .inr ⟨hlive, e, rfl, rfl⟩
        · rintro (⟨⟨⟩⟩ | ⟨-, _, ⟨⟩, -⟩)
          rfl
      · rw [if_neg heq, or_iff_left]
        rintro ⟨-, _, ⟨⟩, rfl⟩
        exact heq rfl
    · rw [hout, h.serves, hserves]

/-- A request, which may be granted or not. -/
theorem Received.receive_request (h : m.Received as m') (r : SubGroupRef) (require : Bool) :
    m.Received (as ++ [.request r require]) (m'.receive (.request r require)) := by
  have ht := h.attempted.tidy
  have hgets : ∀ e p, m.Gets (as ++ [.request r require]) e p ↔ m.Gets as e p := fun e p => by
    rw [gets_concat, or_iff_left]
    rintro ⟨-, _, ⟨⟩, -⟩
  have hakin : ∀ r', m'.outline.Akin r r' ↔ m.outline.Akin r r' := fun r' => by
    unfold Akin
    rw [h.widens.reduce]
  have hattempt : Attempted (m'.receive (.request r require)) := .attempt h.attempted (.ensureSubGroup r require)
  cases hr : ensureSubGroup r require m' with
  | error f m₂ =>
    have hleave : m'.receive (.request r require) = m' := by
      simp only [receive, Update.leave, hr]
      exact (ensureSubGroup_error ht hr).1
    rw [hleave]
    refine ⟨h.attempted, h.settings, h.widens, fun e p => (h.price e p).trans (hgets e p).symm, fun r' => ?_, h.led⟩
    rw [h.serves, opens_concat, or_iff_left]
    rintro ⟨_, _, ⟨⟩, hgrants, -⟩
    obtain ⟨s, m₃, hok⟩ := (grants_iff ht).1 (h.grants.2 hgrants)
    cases hr.symm.trans hok
  | ok s m₂ =>
    have hleave : m'.receive (.request r require) = m₂ := by
      simp only [receive, Update.leave, hr]
    rw [hleave] at hattempt ⊢
    have hgrants : m.Grants r := h.grants.1 ((grants_iff ht).2 ⟨s, m₂, hr⟩)
    have hserved := ensureSubGroup_serves ht hr
    obtain ⟨hled, hprice, hsettings⟩ := ensureSubGroup_led ht h.led hr
    have hopens : ∀ r', m.Opens (as ++ [.request r require]) r' ↔ m.Opens as r' ∨ m'.outline.Akin r r' := fun r' => by
      rw [opens_concat, hakin]
      refine or_congr_right ⟨?_, fun hr' => ⟨r, require, rfl, hgrants, hr'⟩⟩
      rintro ⟨_, _, ⟨⟩, -, hr'⟩
      exact hr'
    have hwidens : m.outline.Widens m₂.outline ∧
        ∀ r', (∃ s, m₂.outline.Serves s r') ↔ (∃ s, m'.outline.Serves s r') ∨ m'.outline.Akin r r' := by
      rcases ensureSubGroup_opens ht hr with hout | ⟨c, -, -, hout⟩
      · rw [hout] at hserved ⊢
        exact ⟨h.widens, fun r' => (or_iff_left_of_imp fun hr' => ⟨s, hserved.akin hr'⟩).symm⟩
      · rw [hout]
        refine ⟨h.widens.trans (m'.outline.widens_openSub _ _), fun r' => ?_⟩
        rw [ht.sound.names.serves_openSub]
        unfold Akin
        rw [show m'.outline.reduce (m'.reduceGroup r.group) = _ from ht.sound.names.reduce_reduce r.group]
    refine ⟨hattempt, hsettings.trans h.settings, hwidens.1, fun e p => ?_, fun r' => ?_, hled⟩
    · rw [hprice, h.price, hgets]
    · rw [hwidens.2, hopens, h.serves]

/-- The induction is on the arrivals, from the last one backwards. -/
theorem received (h : Attempted m) (hnone : ∀ e, m.priceOf e = none) (as : List (Arrival Q))
    (hone : ((as.filterMap Arrival.expr?).map m.reduceExpr).Nodup) : m.Received as (m.receiveAll as) := by
  induction as using List.reverseRecOn with
  | nil => exact received_nil h hnone
  | append_singleton as a ih =>
    rw [List.filterMap_append, List.map_append, List.nodup_append] at hone
    obtain ⟨hone, -, hapart⟩ := hone
    have hlast : m.receiveAll (as ++ [a]) = (m.receiveAll as).receive a := List.foldl_concat ..
    rw [hlast]
    cases a with
    | request r require => exact (ih hone).receive_request r require
    | price e p =>
      refine (ih hone).receive_price fun p' hgets => ?_
      obtain ⟨-, e₀, hmem, hname⟩ := hgets
      refine hapart (m.reduceExpr e₀) ?_ (m.reduceExpr e) ?_ hname
      · exact List.mem_map_of_mem (List.mem_filterMap.2 ⟨_, hmem, rfl⟩)
      · exact List.mem_map_of_mem (List.mem_filterMap.2 ⟨_, List.mem_singleton_self _, rfl⟩)

/-- Where no expression has a price, and then prices come in for expressions, one for each at most, while sub groups
are asked for, the winners in the end do not depend on the order. If names decide between equal weights, they are the
same expressions with the same prices, and if the incumbent is kept, they have the same weights. -/
theorem Attempted.winner_of_perm (h : Attempted m) (hnone : ∀ e, m.priceOf e = none)
    (hone : ((as.filterMap Arrival.expr?).map m.reduceExpr).Nodup) (hperm : as.Perm as') (r : SubGroupRef) :
    ∃ v v', (m.receiveAll as).winner r = .ok v ∧ (m.receiveAll as').winner r = .ok v' ∧
      (m.tieBreak ≠ .keepIncumbent → v = v') ∧
      v.map (fun v => v.price.weight) = v'.map fun v => v.price.weight := by
  have hone' : ((as'.filterMap Arrival.expr?).map m.reduceExpr).Nodup :=
    ((hperm.filterMap _).map _).nodup_iff.1 hone
  have hreceived := received h hnone as hone
  obtain ⟨v, hv, hopen, hclosed⟩ := hreceived.winner r
  obtain ⟨v', hv', hopen', hclosed'⟩ := (received h hnone as' hone').winner r
  obtain ⟨hcontends, hopens⟩ := contends_of_perm (m := m) hperm
  rw [← hcontends, ← hopens] at hopen'
  rw [← hopens] at hclosed'
  refine ⟨v, v', hv, hv', ?_⟩
  by_cases ho : m.Opens as r
  · refine ⟨fun htie => Leads.unique htie ?_ (hopen ho) (hopen' ho), (hopen ho).weight_eq (hopen' ho)⟩
    rintro e p p' ⟨x, -, hp, -⟩ ⟨x', -, hp', -⟩
    exact Option.some.inj (((hreceived.price e p).2 hp).symm.trans ((hreceived.price e p').2 hp'))
  · rw [hclosed ho, hclosed' ho]
    exact ⟨fun _ => rfl, rfl⟩

section SmallHost

open SmallHost Relational

/-- Three ways to read one table. -/
def rivals : Memo Kind Nat :=
  (empty orders [] .higherId : Memo Kind Nat)
    |>.after (add (bare .scan (some (.i64 1)) []))
    |>.after (addTo (table .physicalScan 2) ⟨1⟩)
    |>.after (addTo (table .physicalScan 5) ⟨1⟩)

theorem rivals_reached : Reached rivals :=
  (((Reached.empty _ _ _).after fun _ _ => .add).after fun _ _ => .addTo).after fun _ _ => .addTo

set_option maxRecDepth 100000 in
theorem rivals_unpriced : (rivals.exprs.toList.all fun q => q.2.price.isNone) = true ∧
    rivals.tieBreak = .higherId ∧ [rivals.reduceExpr ⟨2⟩, rivals.reduceExpr ⟨3⟩] = [⟨2⟩, ⟨3⟩] := by
  cbv

/-- Two of them are priced at the same weight, and the table is asked for in between. -/
def early : List (Arrival Nat) :=
  [.price ⟨2⟩ ⟨⟨[4]⟩, 4⟩, .request ⟨⟨1⟩, orders.any⟩ true, .price ⟨3⟩ ⟨⟨[1, 3]⟩, 4⟩]

/-- The other one is priced first, and the table is asked for in the end. -/
def late : List (Arrival Nat) :=
  [.price ⟨3⟩ ⟨⟨[1, 3]⟩, 4⟩, .price ⟨2⟩ ⟨⟨[4]⟩, 4⟩, .request ⟨⟨1⟩, orders.any⟩ true]

theorem early_perm_late : early.Perm late :=
  .trans (.cons _ (.swap ..)) (.swap ..)

set_option maxRecDepth 100000 in
theorem winner_early :
    (rivals.receiveAll early).winner ⟨⟨1⟩, orders.any⟩ = .ok (some ⟨⟨3⟩, ⟨⟨[1, 3]⟩, 4⟩⟩) := by
  cbv

/-- The one with the higher name wins, whichever is priced first. -/
theorem winner_late : Attempted rivals ∧ (∀ e, rivals.priceOf e = none) ∧ rivals.tieBreak ≠ .keepIncumbent ∧
    early.Perm late ∧ (rivals.receiveAll late).winner ⟨⟨1⟩, orders.any⟩ = .ok (some ⟨⟨3⟩, ⟨⟨[1, 3]⟩, 4⟩⟩) := by
  obtain ⟨hall, htie, hnames⟩ := rivals_unpriced
  have hnone : ∀ e, rivals.priceOf e = none := fun e => by
    cases he : rivals.exprs[rivals.reduceExpr e]? with
    | none => rw [priceOf, he, Option.bind_none]
    | some entry =>
      have hmem := Std.TreeMap.mem_toList_iff_getElem?_eq_some.2 he
      rw [priceOf, he, Option.bind_some]
      exact Option.isNone_iff_eq_none.1 (List.all_eq_true.1 hall _ hmem)
  have hone : ((early.filterMap Arrival.expr?).map rivals.reduceExpr).Nodup := by
    rw [show (early.filterMap Arrival.expr?).map rivals.reduceExpr = [⟨2⟩, ⟨3⟩] from hnames]
    decide
  have hkeep : rivals.tieBreak ≠ .keepIncumbent := by
    rw [htie]
    decide
  obtain ⟨v, v', hv, hv', hsame, -⟩ := Attempted.winner_of_perm rivals_reached.attempted hnone hone early_perm_late
    ⟨⟨1⟩, orders.any⟩
  rw [winner_early] at hv
  cases hv
  rw [← hsame hkeep] at hv'
  exact ⟨rivals_reached.attempted, hnone, hkeep, early_perm_late, hv'⟩

end SmallHost

end Memo

end PlanSearch
