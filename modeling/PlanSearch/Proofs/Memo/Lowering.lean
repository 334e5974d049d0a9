import Mathlib.Order.Lattice
import PlanSearch.Proofs.Memo.Quotes

/-!
# Winners only get cheaper

Where offers go by what prices are worth, no edit makes a winner worth more. An offer is taken only if it is
worth no more than the winner so far, of two sub groups that become one the cheaper winner stays, and an
expression that is dropped leaves its victories to its twin at the price they were won at. Sub groups change
their names on the way, so what is compared is the winner of a sub group with that of what the name stands
for later.

    Edit P w w' → w.Sound → w.Lowers worth w'                                              (Edit.lowers)
    Edits P m.work m'.work → the winner of s weighs no more in m'                      (Memo.winnerOf_le)
-/

namespace PlanSearch

open Outline

/-- Quantities compare as a linear order does. -/
class Quantity.Exact (Q : Type) [Quantity Q] [LinearOrder Q] : Prop where
  less_iff : ∀ a b : Q, Quantity.less a b = true ↔ a < b
  same_iff : ∀ a b : Q, Quantity.same a b = true ↔ a = b

/-- Where prices are known, whoever takes the place of a winner is worth no more, and whoever does not is
worth no less. -/
structure Memo.Ranks {Q W : Type} [Quantity Q] [Preorder W] (known : Price Q → Prop) (worth : Price Q → W) :
    Prop where
  taken : ∀ {tie : TieBreak} {v v' : Winner Q}, known v.price → known v'.price →
    Memo.beats tie v (some v') = true → worth v.price ≤ worth v'.price
  kept : ∀ {tie : TieBreak} {v v' : Winner Q}, known v.price → known v'.price →
    ¬ Memo.beats tie v (some v') = true → worth v'.price ≤ worth v.price

theorem Memo.Ranks.mono {Q W : Type} [Quantity Q] [Preorder W] {known known' : Price Q → Prop} {worth : Price Q → W}
    (h : Memo.Ranks known worth) (hk : ∀ p, known' p → known p) : Memo.Ranks known' worth :=
  ⟨fun hv hv' => h.taken (hk _ hv) (hk _ hv'), fun hv hv' => h.kept (hk _ hv) (hk _ hv')⟩

/-- Exact weights are what offers go by. -/
theorem Memo.ranks_weight {Q : Type} [LinearOrder Q] [Quantity Q] [Quantity.Exact Q] :
    Memo.Ranks (fun _ : Price Q => True) Price.weight where
  taken _ _ h := by
    simp only [beats, Bool.or_eq_true, Bool.and_eq_true] at h
    rcases h with h | ⟨h, -⟩
    · exact ((Quantity.Exact.less_iff _ _).1 h).le
    · exact ((Quantity.Exact.same_iff _ _).1 h).le
  kept _ _ h := by
    simp only [beats, Bool.or_eq_true, not_or] at h
    exact not_lt.1 (mt (Quantity.Exact.less_iff _ _).2 h.1)

section Lowers

variable {Op Q W : Type} [Preorder W] {worth : Price Q → W}

/-- Every sub group with a winner has one that is worth no more in what its name stands for later. -/
def Work.Lowers (worth : Price Q → W) (w w' : Work Op Q) : Prop :=
  ∀ s v, w.standings.wins s = some v →
    ∃ v', w'.standings.wins (w'.outline.reduceSub s) = some v' ∧ worth v'.price ≤ worth v.price

variable {w w' : Work Op Q}

/-- Where sub groups keep their names. -/
theorem Work.Sound.lowers (hw' : w'.Sound) (h : ∀ s v, w.standings.wins s = some v →
    ∃ v', w'.standings.wins s = some v' ∧ worth v'.price ≤ worth v.price) : w.Lowers worth w' := by
  intro s v hv
  obtain ⟨v', hv', hle⟩ := h s v hv
  have hlive : (w'.outline.sub s).isSome := hw'.wins s (by rw [hv']; rfl)
  rw [hw'.outline.names.reduceSub_of_live hlive]
  exact ⟨v', hv', hle⟩

variable [Quantity Q] {known : Price Q → Prop} {P : Terms Op Q}

/-- Of two sub groups that become one, the cheaper winner stays. -/
theorem Standings.wins_fold_le (hr : Memo.Ranks known worth) (tie : TieBreak) (hadReaders : Bool)
    {kept s : SubGroupId} (hne : kept ≠ s) {st : Standings Q}
    (hk : ∀ t v, st.wins t = some v → known v.price) {t : SubGroupId} {v : Winner Q}
    (ht : t = kept ∨ t = s) (hv : st.wins t = some v) :
    ∃ v', (st.fold tie hadReaders kept s).wins kept = some v' ∧ worth v'.price ≤ worth v.price := by
  rw [wins_fold tie hadReaders hne, if_neg hne, if_pos rfl]
  cases hs : st.wins s with
  | none =>
    rcases ht with rfl | rfl
    · exact ⟨v, hv, le_refl _⟩
    · rw [hs] at hv
      cases hv
  | some u =>
    by_cases hb : Memo.beats tie u (st.wins kept) = true
    · rw [Option.filter_some, if_pos hb]
      refine ⟨u, rfl, ?_⟩
      rcases ht with rfl | rfl
      · rw [hv] at hb
        exact hr.taken (hk _ u hs) (hk _ v hv) hb
      · rw [hs] at hv
        cases hv
        exact le_refl _
    · rw [Option.filter_some, if_neg hb]
      cases hkept : st.wins kept with
      | none =>
        rw [hkept] at hb
        exact absurd rfl hb
      | some u' =>
        refine ⟨u', rfl, ?_⟩
        rcases ht with rfl | rfl
        · rw [hkept] at hv
          cases hv
          exact le_refl _
        · rw [hs] at hv
          cases hv
          rw [hkept] at hb
          exact hr.kept (hk _ _ hs) (hk _ _ hkept) hb

theorem Edit.lowers (hr : Memo.Ranks known worth) (h : Edit P w w') (hw : w.Sound)
    (hq : w.Quoted fun _ _ p => known p) : w.Lowers worth w' := by
  have hw' := h.sound hw
  cases h with
  | skip | forget | openSub | price | attach | found | propose | same | takeIn | hand | convene | pass
  | rewrite | finish => exact hw'.lowers fun s v hv => ⟨v, hv, le_refl _⟩
  | @fold keep absorbed hadReaders s strays t c q calm stage stray live listed same =>
    obtain ⟨hne, -⟩ := (hw.gathering stage).listed live listed
    intro u v hv
    have hlive : (w.outline.sub u).isSome := hw.wins u (by rw [hv]; rfl)
    have hnames := hw.outline.names
    have hred : (w.outline.foldSub q.2 s).reduceSub u = if u = s then q.2 else u := by
      rw [hnames.reduceSub_foldSub (by rw [stray]; rfl), hnames.reduceSub_of_live hlive]
    show ∃ v', (w.standings.fold w.tie hadReaders q.2 s).wins
      ((w.outline.foldSub q.2 s).reduceSub u) = some v' ∧ _
    rw [hred]
    by_cases hus : u = s
    · rw [if_pos hus]
      exact Standings.wins_fold_le hr _ _ hne hq.wins (.inr hus) hv
    · rw [if_neg hus]
      by_cases huk : u = q.2
      · rw [huk] at hv ⊢
        exact Standings.wins_fold_le hr _ _ hne hq.wins (.inl rfl) hv
      · rw [Standings.wins_fold _ _ hne, if_neg hus, if_neg huk]
        exact ⟨v, hv, le_refl _⟩
  | @offer s e owed next =>
    refine hw'.lowers fun t v hv => ?_
    rcases w.standings.offer_cases w.registry w.tie w.outline s e with
      hst | ⟨x, k, r, p, -, -, hp, -, hbeats, hst⟩
    · exact ⟨v, by simp only [hst]; exact hv, le_refl _⟩
    · simp only [hst, Standings.crown]
      by_cases hts : t = s
      · rw [if_pos hts]
        rw [hts] at hv
        rw [hv] at hbeats
        exact ⟨_, rfl, hr.taken (hq.price e p hp) (hq.wins s v hv) hbeats⟩
      · rw [if_neg hts]
        exact ⟨v, hv, le_refl _⟩
  | @drop keep absorbed e twin todo x y k k' c calm stage known ne other congruent home =>
    refine hw'.lowers fun t v hv => ?_
    simp only [Standings.drop, Standings.rename]
    rw [hv]
    split
    · refine ⟨_, rfl, ?_⟩
      unfold Standings.retitle
      split <;> exact le_refl _
    · exact ⟨v, rfl, le_refl _⟩

omit [Quantity Q] [Preorder W] in
/-- Nothing need be known of a quote. -/
theorem Work.quoted_true (w : Work Op Q) : w.Quoted fun _ _ _ => True :=
  ⟨fun _ _ _ => trivial, fun _ _ _ => trivial⟩

/-- Where enough is known of all that is recorded, winners only come to be worth less. -/
theorem Edits.lowers {knowledge : Knowledge Op Q} (hr : Memo.Ranks known worth) (hl : Lasting P knowledge)
    (hs : Sure P knowledge) (hknown : ∀ w e p, knowledge w e p → known p) (h : Edits P w w') (hw : w.Sound)
    (hq : w.Quoted knowledge) : w.Lowers worth w' := by
  induction h with
  | refl => exact hw.lowers fun _ v hv => ⟨v, hv, le_refl _⟩
  | @tail w₁ _ hedits hedit ih =>
    have hw₁ := Edits.sound hedits hw
    have hq₁ := Edits.quoted hedits hw hl hs hq
    have hknown₁ : w₁.Quoted fun _ _ p => known p :=
      ⟨fun s v hv => hknown _ _ _ (hq₁.wins s v hv), fun e p hp => hknown _ _ _ (hq₁.price e p hp)⟩
    intro s v hv
    obtain ⟨v', hv', hle'⟩ := ih s v hv
    obtain ⟨v'', hv'', hle''⟩ := hedit.lowers hr hw₁ hknown₁ _ v' hv'
    rw [(hedit.lineage hw₁).name] at hv''
    exact ⟨v'', hv'', hle''.trans hle'⟩

/-- The winner of what the name of a sub group stands for weighs no more later. -/
theorem Memo.winnerOf_le [LinearOrder Q] [Quantity.Exact Q] {m m' : Memo Op Q} {ps : List (GroupId × GroupId)}
    (ht : m.outline.Tidy) (h : Edits P m.work (m'.workAt .rest [] ps)) {s : SubGroupId} {v : Winner Q}
    (hv : m.winnerOf s = some v) :
    ∃ v', m'.winnerOf s = some v' ∧ v'.price.weight ≤ v.price.weight := by
  have hw := sound_of_tidy ht []
  obtain ⟨v', hv', hle⟩ := Edits.lowers ranks_weight (fun _ _ _ _ _ _ _ _ _ => trivial)
    (fun _ _ _ _ _ _ _ => trivial) (fun _ _ _ _ => trivial) h hw m.work.quoted_true _ v hv
  have hname : m'.outline.reduceSub (m.outline.reduceSub s) = m'.outline.reduceSub s :=
    (Edits.lineage h hw).name s
  rw [winnerOf_eq, ← hname]
  exact ⟨v', hv', hle⟩

end Lowers

end PlanSearch
