import Mathlib.Algebra.Group.Submonoid.Pointwise
import Mathlib.Data.DFinsupp.WellFounded
import Mathlib.Data.Prod.Lex
import PlanSearch.Proofs.Memo.Lowering
import PlanSearch.Proofs.Memo.Stock

/-!
# Winners cannot change forever

A winner is replaced by one that weighs less, or that weighs the same and is preferred by its name. Where all weights
are sums of finitely many amounts that are not negative, there is no infinite descent of weights, and there is none of
names. A memo has finitely many sub groups, and so its winners, all taken together, can be replaced only finitely often
as long as it has no new expressions. A price that is recorded replaces winners, or leaves no note.

    s.Finite → (∀ a ∈ s, 0 ≤ a) → (AddSubmonoid.closure s).IsWF                                        (isWF_closure)
    beats k.tie v old → … → k.rank (some v) < k.rank old                                              (Scale.rank_lt)
    recordPrice e p m = .ok m' → m.Measured fee k → p.weight ∈ k.amounts → m.Repriced k m'     (recordPrice_repriced)
-/

namespace PlanSearch

open Outline

/-- Among sums of finitely many amounts that are not negative, there is no infinite descent. -/
theorem isWF_closure {Q : Type} [AddCommMonoid Q] [LinearOrder Q] [IsOrderedAddMonoid Q] {s : Set Q}
    (hs : s.Finite) (h : ∀ a ∈ s, 0 ≤ a) : (AddSubmonoid.closure s : Set Q).IsWF := by
  rw [AddSubmonoid.closure_eq_image_sum]
  refine Set.IsPWO.isWF <|
    (hs.isPWO.partiallyWellOrderedOn_sublistForall₂ (· ≤ ·)).image_of_monotone_on ?_
  exact fun as _ bs hbs hle => hle.sum_le_sum fun b hb => h b (hbs b hb)

/-- Where a winner of this name stands among those of its weight; the names are below `bound`. -/
def TieBreak.rank (bound : ℕ) : TieBreak → ExprId → ℕ
  | keepIncumbent, _ => 0
  | lowerId, e => e.val
  | higherId, e => bound - e.val

theorem TieBreak.rank_lt {tie : TieBreak} {bound : ℕ} {e e' : ExprId} (h : tie.prefers e e' = true)
    (hb : e'.val < bound) : tie.rank bound e < tie.rank bound e' := by
  cases tie with
  | keepIncumbent => cases h
  | lowerId => exact of_decide_eq_true h
  | higherId =>
    have hlt : e'.val < e.val := of_decide_eq_true h
    simp only [rank]
    omega

/-- What winners are measured on: amounts that they weigh, with no infinite descent, finitely many sub groups that may
have winners, and a bound for the names of expressions. -/
structure Scale (Q : Type) [AddCommMonoid Q] [LinearOrder Q] where
  amounts : AddSubmonoid Q
  isWF : (amounts : Set Q).IsWF
  subs : Set SubGroupId
  finite_subs : subs.Finite
  tie : TieBreak
  bound : ℕ

namespace Scale

variable {Q : Type} [AddCommMonoid Q] [LinearOrder Q] {k : Scale Q}

/-- Where a winner stands: by its weight, and then by its name. Having no winner comes last. -/
abbrev Rank (k : Scale Q) : Type := WithTop (k.amounts ×ₗ ℕ)

open Classical in
/-- Where the winner of a sub group stands, if it has one. -/
noncomputable def rank (k : Scale Q) : Option (Winner Q) → k.Rank
  | none => ⊤
  | some v =>
    if h : v.price.weight ∈ k.amounts then
      ((toLex (⟨v.price.weight, h⟩, k.tie.rank k.bound v.expr) : k.amounts ×ₗ ℕ) : k.Rank)
    else ⊤

/-- Where the winners stand, sub group by sub group. -/
noncomputable def ranks (k : Scale Q) (st : Standings Q) : k.subs → k.Rank := fun s => k.rank (st.wins s)

/-- Ranks do not sink forever. -/
theorem wellFoundedLT (k : Scale Q) : WellFoundedLT (k.subs → k.Rank) := by
  have := k.finite_subs.to_subtype
  have : WellFoundedLT k.amounts := ⟨k.isWF⟩
  infer_instance

/-- Whatever is quoted is on the scale. -/
structure Covers (k : Scale Q) (st : Standings Q) : Prop where
  wins : ∀ s v, st.wins s = some v → v.price.weight ∈ k.amounts ∧ v.expr.val < k.bound
  price : ∀ e p, st.price e = some p → p.weight ∈ k.amounts ∧ e.val < k.bound

variable [Quantity Q]

/-- What takes the place of a winner ranks lower. -/
theorem rank_lt [Quantity.Exact Q] {v : Winner Q} {old : Option (Winner Q)} (h : Memo.beats k.tie v old = true)
    (hv : v.price.weight ∈ k.amounts)
    (hold : ∀ v', old = some v' → v'.price.weight ∈ k.amounts ∧ v'.expr.val < k.bound) :
    k.rank (some v) < k.rank old := by
  cases old with
  | none =>
    simp only [rank, dif_pos hv]
    exact WithTop.coe_lt_top _
  | some v' =>
    obtain ⟨hweight, hname⟩ := hold v' rfl
    simp only [rank, dif_pos hv, dif_pos hweight]
    refine WithTop.coe_lt_coe.2 (Prod.Lex.toLex_lt_toLex.2 ?_)
    simp only [Memo.beats, Bool.or_eq_true, Bool.and_eq_true] at h
    rcases h with hless | ⟨hsame, hprefers⟩
    · exact .inl (Subtype.mk_lt_mk.2 ((Quantity.Exact.less_iff _ _).1 hless))
    · exact .inr ⟨Subtype.ext ((Quantity.Exact.same_iff _ _).1 hsame), TieBreak.rank_lt hprefers hname⟩

omit [Quantity Q] in
theorem ranks_crown {st : Standings Q} {s : SubGroupId} {v : Winner Q} (hs : s ∈ k.subs)
    (h : k.rank (some v) < k.rank (st.wins s)) : k.ranks (st.crown s v) < k.ranks st := by
  have hself : k.ranks (st.crown s v) ⟨s, hs⟩ < k.ranks st ⟨s, hs⟩ := by
    simp only [ranks, Standings.crown, if_true]
    exact h
  refine Pi.lt_def.2 ⟨fun t => ?_, ⟨s, hs⟩, hself⟩
  by_cases ht : t = ⟨s, hs⟩
  · rw [ht]
    exact hself.le
  · simp only [ranks, Standings.crown, if_neg fun h => ht (Subtype.ext h)]
    exact le_refl _

/-- Winners have come down in rank, or none was noted as improved. -/
structure Descends (k : Scale Q) (st st' : Standings Q) : Prop where
  covers : k.Covers st'
  le : k.ranks st' ≤ k.ranks st
  lt : st'.improved = st.improved ∨ k.ranks st' < k.ranks st

omit [Quantity Q] in
theorem Descends.refl {st : Standings Q} (h : k.Covers st) : k.Descends st st := ⟨h, le_refl _, .inl rfl⟩

omit [Quantity Q] in
theorem Descends.trans {st st' st'' : Standings Q} (h₁ : k.Descends st st') (h₂ : k.Descends st' st'') :
    k.Descends st st'' where
  covers := h₂.covers
  le := h₂.le.trans h₁.le
  lt := by
    rcases h₂.lt with hsame | hlt
    · rcases h₁.lt with hsame' | hlt
      · exact .inl (hsame.trans hsame')
      · exact .inr (h₂.le.trans_lt hlt)
    · exact .inr (hlt.trans_le h₁.le)

omit [Quantity Q] in
/-- A price on the scale changes no rank. -/
theorem Covers.setPrice {st : Standings Q} (h : k.Covers st) {e : ExprId} {p : Price Q}
    (hp : p.weight ∈ k.amounts) (he : e.val < k.bound) : k.Descends st (st.setPrice e p) where
  covers := by
    refine ⟨h.wins, fun e' p' hp' => ?_⟩
    simp only [Standings.setPrice] at hp'
    split at hp'
    · next heq =>
      cases hp'
      exact ⟨hp, heq ▸ he⟩
    · exact h.price e' p' hp'
  le := le_refl _
  lt := .inl rfl

/-- An offer that is taken brings the winner down in rank. -/
theorem Covers.offer [Quantity.Exact Q] {Op : Type} {st : Standings Q} (h : k.Covers st) {o : Outline Op}
    (hsubs : ∀ s, (o.sub s).isSome → s ∈ k.subs) (registry : Registry Op) (s : SubGroupId) (e : ExprId) :
    k.Descends st (st.offer registry k.tie o s e) := by
  rcases st.offer_cases registry k.tie o s e with hst | ⟨x, g, r, p, -, hr, hp, -, hbeats, hst⟩
  · rw [hst]
    exact .refl h
  · rw [hst]
    obtain ⟨hweight, hname⟩ := h.price e p hp
    have hlt := ranks_crown (k := k) (hsubs s (by rw [hr]; rfl)) (rank_lt hbeats hweight fun v' => h.wins s v')
    refine ⟨⟨fun t v hv => ?_, h.price⟩, hlt.le, .inr hlt⟩
    simp only [Standings.crown] at hv
    split at hv
    · cases hv
      exact ⟨hweight, hname⟩
    · exact h.wins t v hv

end Scale

/-! ## Prices -/

namespace Memo

variable {Op Q : Type} [AddCommMonoid Q] [LinearOrder Q] {m m' m'' : Memo Op Q} {k : Scale Q}

/-- All but prices and winners is as it was, and winners have come down in rank or nothing was noted. -/
structure Repriced (k : Scale Q) (m m' : Memo Op Q) : Prop where
  outline : m'.outline = m.outline
  tieBreak : m'.tieBreak = m.tieBreak
  required : m'.changes.required = m.changes.required
  descends : k.Descends m.standings m'.standings

theorem Repriced.refl (h : k.Covers m.standings) : m.Repriced k m := ⟨rfl, rfl, rfl, .refl h⟩

theorem Repriced.trans (h₁ : m.Repriced k m') (h₂ : m'.Repriced k m'') : m.Repriced k m'' where
  outline := h₂.outline.trans h₁.outline
  tieBreak := h₂.tieBreak.trans h₁.tieBreak
  required := h₂.required.trans h₁.required
  descends := h₁.descends.trans h₂.descends

/-- Where there were no notes, there are none if no winner was noted as improved. -/
theorem Repriced.isEmpty (h : m.Repriced k m') (hm : m.changes = .none)
    (hi : m'.standings.improved = m.standings.improved) : m'.changes.isEmpty = true := by
  have hnews : m'.changes.newExprs = m.changes.newExprs := congrArg Outline.news h.outline
  have hmerged : m'.changes.merged = m.changes.merged := congrArg Outline.merged h.outline
  have himproved : m'.changes.improved = m.changes.improved := hi
  rw [Changes.isEmpty, hnews, himproved, h.required, hmerged, hm]
  rfl

/-- All quotes, all amounts that operations cost, and all names are on the scale. -/
structure Measured (fee : Expr Op → Q) (k : Scale Q) (m : Memo Op Q) : Prop where
  covers : k.Covers m.standings
  tie : m.tieBreak = k.tie
  subs : ∀ s, (m.outline.sub s).isSome → s ∈ k.subs
  fees : ∀ e x g, m.outline.entry e = some (x, g) → fee x ∈ k.amounts ∧ e.val < k.bound

theorem Measured.repriced {fee : Expr Op → Q} (h : m.Measured fee k) (hr : m.Repriced k m') : m'.Measured fee k where
  covers := hr.descends.covers
  tie := hr.tieBreak.trans h.tie
  subs := hr.outline ▸ h.subs
  fees := hr.outline ▸ h.fees

variable [Quantity Q]

omit [AddCommMonoid Q] [LinearOrder Q] in
theorem required_offer {s : SubGroupId} {e : ExprId} (h : offer s e m = .ok m') :
    m'.changes.required = m.changes.required := by
  obtain rfl | ⟨entry, price, sub, -, -, -, rfl⟩ := offer_eq_ok h <;> rfl

theorem offer_repriced [Quantity.Exact Q] {fee : Expr Op → Q} {s : SubGroupId} {e : ExprId} (hk : m.Measured fee k)
    (h : offer s e m = .ok m') : m.Repriced k m' where
  outline := outline_offer h
  tieBreak := congrArg Prod.snd (piecewise_settings.offer h)
  required := required_offer h
  descends := by
    rw [standings_offer h, hk.tie]
    exact hk.covers.offer hk.subs m.registry s e

/-- A price on the scale leaves all but prices and winners as it was. -/
theorem recordPrice_repriced [Quantity.Exact Q] {fee : Expr Op → Q} {e : ExprId} {p : Price Q}
    (hk : m.Measured fee k) (hp : p.weight ∈ k.amounts) (h : recordPrice e p m = .ok m') : m.Repriced k m' := by
  obtain ⟨entry, group, hentry, -, h⟩ := recordPrice_eq_ok h
  have hname := (hk.fees _ _ _ (outline_entry_of hentry)).2
  refine foldlM_invariant (fun _ m' => m.Repriced k m') (fun s _ m₁ m₂ h₁ h₂ => ?_) _ _ _ ?_ h
  · exact h₁.trans (offer_repriced (hk.repriced h₁) h₂)
  · refine ⟨outline_setPrice hentry, rfl, rfl, ?_⟩
    rw [standings_setPrice p m]
    exact hk.covers.setPrice hp hname

omit [Quantity Q] in
/-- A memo whose quotes are not negative can be put on a scale, with all amounts that its operations cost. -/
theorem exists_scale [IsOrderedAddMonoid Q] {fee : Expr Op → Q} (hfee : ∀ x, 0 ≤ fee x)
    (hq : m.work.Quoted fun _ _ p => 0 ≤ p.weight) (hs : m.work.Sound) :
    ∃ k : Scale Q, m.Measured fee k := by
  -- the winners, the prices and the expressions of the memo, all of them finitely many
  have hwinners : {v | ∃ s, m.standings.wins s = some v}.Finite :=
    finite_values (m.finite_subs.subset fun s hs' => hs.wins s hs')
  have hpriced := m.finite_entries.subset fun e (he : (m.standings.price e).isSome) => hs.price e he
  have hprices : {p | ∃ e, m.standings.price e = some p}.Finite := finite_values hpriced
  have hentries : {q | ∃ e, m.outline.entry e = some q}.Finite := finite_values m.finite_entries
  let amounts : Set Q := (fun v => v.price.weight) '' {v | ∃ s, m.standings.wins s = some v} ∪
    Price.weight '' {p | ∃ e, m.standings.price e = some p} ∪
    (fun q => fee q.1) '' {q | ∃ e, m.outline.entry e = some q}
  have hamounts : amounts.Finite := ((hwinners.image _).union (hprices.image _)).union (hentries.image _)
  have hpos : ∀ a ∈ amounts, 0 ≤ a := by
    rintro _ ((⟨v, ⟨s, hv⟩, rfl⟩ | ⟨p, ⟨e, hp⟩, rfl⟩) | ⟨q, -, rfl⟩)
    · exact hq.wins s v hv
    · exact hq.price e p hp
    · exact hfee q.1
  obtain ⟨n, hn⟩ := ((hwinners.image fun v => v.expr.val).union (m.finite_entries.image Ident.val)).bddAbove
  have hmem : ∀ {a}, a ∈ amounts → a ∈ AddSubmonoid.closure amounts := fun ha => AddSubmonoid.subset_closure ha
  have hnamed : ∀ e, (m.outline.entry e).isSome → e.val < n + 1 := fun e he =>
    Nat.lt_succ_of_le (hn (.inr ⟨e, he, rfl⟩))
  refine ⟨⟨AddSubmonoid.closure amounts, isWF_closure hamounts hpos, {s | (m.outline.sub s).isSome}, m.finite_subs,
    m.tieBreak, n + 1⟩, ⟨fun s v hv => ⟨?_, ?_⟩, fun e p hp => ⟨?_, ?_⟩⟩, rfl, fun s hs => hs,
    fun e x g he => ⟨?_, ?_⟩⟩
  · exact hmem (.inl (.inl ⟨v, ⟨s, hv⟩, rfl⟩))
  · exact Nat.lt_succ_of_le (hn (.inl ⟨v, ⟨s, hv⟩, rfl⟩))
  · exact hmem (.inl (.inr ⟨p, ⟨e, hp⟩, rfl⟩))
  · exact hnamed e (hs.price e (Option.isSome_iff_exists.2 ⟨p, hp⟩))
  · exact hmem (.inr ⟨(x, g), ⟨e, he⟩, rfl⟩)
  · exact hnamed e (by rw [he]; rfl)

end Memo

end PlanSearch
