import Mathlib.Order.Bounds.Basic
import PlanSearch.Proofs.Memo.Derivations
import PlanSearch.Proofs.Memo.Offers
import PlanSearch.Proofs.Memo.Upkeep

/-!
# Current prices

The prices of a memo are current if every expression whose inputs have winners has the price that is right over
them, except where that is still to be seen to: the expression is new, or something that it reads was improved.
This is so from the beginning on, as whatever may put a price out of date is noted. When there is nothing left to
be done, no derivation costs less than the winner is worth: it was priced and offered, from its leaves upwards.

    w.Current right todo due → Edits .strict w w' → … → w'.Current right todo due        (Current.edits)
    m.Settled model tariff worth → m.outline.sub s = some r →
      ∀ v, m.standings.wins s = some v → IsLeast {c | m.Derives tariff r c} (worth v.price)  (Settled.isLeast)
-/

namespace PlanSearch

open Outline

section Current

variable {Op Q : Type} [Operator Op]

/-- Every live physical expression whose inputs have winners has the price that is right over them. This is still
to be seen to for those in `todo` and for new ones, and for those that read a sub group that is `due` or noted as
improved. -/
def Work.Current (right : Gauge Op Q) (w : Work Op Q) (todo : ExprId → Prop) (due : SubGroupId → Prop) :
    Prop :=
  ∀ e x g vs, w.outline.entry e = some (x, g) → Operator.isLogical x.op = false → w.Feeds x vs →
    (∃ p, w.standings.price e = some p ∧ right x (vs.map Winner.price) p) ∨
    todo e ∨ e ∈ w.outline.news ∨
    ∃ i ∈ x.inputs, ∃ t, w.outline.subOf i = some (w.outline.reduceSub t) ∧
      (due t ∨ t ∈ w.standings.improved)

/-- Which price is right does not depend on which sub groups an expression reads. -/
def Gauge.Blind (right : Gauge Op Q) : Prop := ∀ x y ps p, x.Restates y → right x ps p → right y ps p

omit [Operator Op] in
theorem Tariff.blind_gauge {W : Type} [AddCommMonoid W] (tariff : Tariff Op W) (worth : Price Q → W) :
    (tariff.gauge worth).Blind := by
  intro x y ps p h hp
  show worth p = tariff.fee y + (ps.map worth).sum
  unfold Tariff.fee
  rw [← h.op, ← h.data, ← h.traits, ← h.arity]
  exact hp

variable {right : Gauge Op Q} {w w' : Work Op Q} {todo todo' : ExprId → Prop} {due due' : SubGroupId → Prop}

/-- What is still to be seen to matters for the live expressions that are fed, and up to the names of sub
groups. -/
theorem Work.Current.imp (h : w.Current right todo due) (ht : ∀ e x g vs, w.outline.entry e = some (x, g) →
      Operator.isLogical x.op = false → w.Feeds x vs → todo e → todo' e)
    (hd : ∀ s, due s → ∃ s', w.outline.reduceSub s' = w.outline.reduceSub s ∧ due' s') :
    w.Current right todo' due' := by
  intro e x g vs hx hphysical hfeeds
  rcases h e x g vs hx hphysical hfeeds with hprice | htodo | hnew | ⟨i, hi, t, hs, hdue⟩
  · exact .inl hprice
  · exact .inr (.inl (ht e x g vs hx hphysical hfeeds htodo))
  · exact .inr (.inr (.inl hnew))
  · rcases hdue with hdue | himproved
    · obtain ⟨t', hred, hdue'⟩ := hd t hdue
      exact .inr (.inr (.inr ⟨i, hi, t', hred ▸ hs, .inl hdue'⟩))
    · exact .inr (.inr (.inr ⟨i, hi, t, hs, .inr himproved⟩))

/-! ## Edits -/

omit [Operator Op] in
/-- What an expression reads it still reads, by the name of today, after edits. -/
theorem Outline.Tidy.subOf_later {o o' : Outline Op} (ht : o.Tidy) (ht' : o'.Tidy) (hl : o.Lineage o')
    {i i' : SubGroupRef} (hi : o'.Akin i i') {s : SubGroupId} (hs : o.subOf i = some s) :
    o'.subOf i' = some (o'.reduceSub s) :=
  ht'.subOf_iff.2 ((hl.serves (ht.subOf_iff.1 hs)).akin hi)

omit [Operator Op] in
/-- Where nothing that an expression reads was noted, it was fed by winners at the same prices. -/
theorem Work.Feeds.earlier (hup : w.Upkeep w') (ht : w.outline.Tidy) (ht' : w'.outline.Tidy)
    (hl : w.outline.Lineage w'.outline) {e : ExprId} {x x' : Expr Op} {g : GroupId}
    (hx : w.outline.entry e = some (x, g)) (hlive : (w'.outline.entry e).isSome)
    (hakin : List.Forall₂ w'.outline.Akin x.inputs x'.inputs)
    (hno : ∀ i ∈ x.inputs, ∀ s, w.outline.subOf i = some s →
      ¬ ∃ t ∈ w'.standings.improved, w'.outline.reduceSub t = w'.outline.reduceSub s)
    {vs' : List (Winner Q)} (h : w'.Feeds x' vs') :
    ∃ vs, w.Feeds x vs ∧ vs.map Winner.price = vs'.map Winner.price := by
  obtain ⟨vs, hfeeds, hsame⟩ : ∃ vs, w.Feeds x vs ∧
      List.Forall₂ (fun v v' : Winner Q => v.price = v'.price) vs vs' := by
    have hpairs := (List.forall₂_and_left x.inputs vs').2 ⟨fun i hi => hi, forall₂_comp.1 ⟨_, hakin, h⟩⟩
    refine forall₂_comp.2 (hpairs.imp fun i v' hiv => ?_)
    obtain ⟨hi, i', hii', s', hs', hv'⟩ := hiv
    obtain ⟨s, hs⟩ := ht.exists_subOf hx hi
    rw [ht.subOf_later ht' hl hii' hs] at hs'
    cases hs'
    rcases (hup.consults e s (ht.consults_iff.2 ⟨x, g, hx, i, hi, hs⟩) hlive).2 with hnoted | hprice
    · exact absurd hnoted (hno i hi s hs)
    · rw [hv'] at hprice
      obtain ⟨v, hv, hprice⟩ := Option.map_eq_some_iff.1 hprice.symm
      exact ⟨v, ⟨s, hs, hv⟩, hprice⟩
  refine ⟨vs, hfeeds, ?_⟩
  rw [← List.forall₂_eq_eq_eq, List.forall₂_map_left_iff, List.forall₂_map_right_iff]
  exact hsame

/-- Where no prices are set and no notes are taken away, prices stay current. -/
theorem Work.Current.edits [Quantity Q] (hb : right.Blind) (h : w.Current right todo due) (hw : w.Sound)
    (rest : w.stage = .rest) (hedits : Edits Terms.strict w w') (rest' : w'.stage = .rest) :
    w'.Current right todo due := by
  have hup := hedits.upkeep hw
  have hl := Edits.lineage hedits hw
  have ht := hw.tidy rest
  have ht' := (Edits.sound hedits hw).tidy rest'
  intro e x' g' vs' hx' hphysical hfeeds
  have hlive : (w'.outline.entry e).isSome := by rw [hx']; rfl
  rcases hup.live e hlive with hold | ⟨-, hnew⟩
  · obtain ⟨⟨x, g⟩, hx⟩ := Option.isSome_iff_exists.1 hold
    obtain ⟨x₁, g₁, hx₁, halike, -⟩ := (Edits.evolves hedits hw).entry e x g hx
    rw [ht'.sound.names.reduceExpr_of_live hlive, hx'] at hx₁
    cases hx₁
    have hakin := halike.akin
    by_cases hnoted : ∃ i ∈ x.inputs, ∃ s, w.outline.subOf i = some s ∧
        ∃ t ∈ w'.standings.improved, w'.outline.reduceSub t = w'.outline.reduceSub s
    · obtain ⟨i, hi, s, hs, t, himproved, hts⟩ := hnoted
      obtain ⟨i', hi', hii'⟩ := (exists_of_forall₂ hakin).1 i hi
      refine .inr (.inr (.inr ⟨i', hi', t, ?_, .inr himproved⟩))
      rw [ht.subOf_later ht' hl hii' hs, hts]
    · have hno : ∀ i ∈ x.inputs, ∀ s, w.outline.subOf i = some s →
          ¬ ∃ t ∈ w'.standings.improved, w'.outline.reduceSub t = w'.outline.reduceSub s :=
        fun i hi s hs hn => hnoted ⟨i, hi, s, hs, hn⟩
      obtain ⟨vs, hfeeds₀, hprices⟩ := Work.Feeds.earlier hup ht ht' hl hx hlive hakin hno hfeeds
      rcases h e x g vs hx (halike.op_eq ▸ hphysical) hfeeds₀ with
        ⟨p, hp, hright⟩ | htodo | hnew | ⟨i, hi, t, hs, hdue⟩
      · refine .inl ⟨p, hup.price e p hp hlive, ?_⟩
        rw [← hprices]
        exact hb x x' _ p (hup.restated e x g x' g' hx hx') hright
      · exact .inr (.inl htodo)
      · exact .inr (.inr (.inl (hup.news e hnew hlive)))
      · obtain ⟨i', hi', hii'⟩ := (exists_of_forall₂ hakin).1 i hi
        refine .inr (.inr (.inr ⟨i', hi', t, ?_, hdue.imp id (hup.improved t)⟩))
        rw [ht.subOf_later ht' hl hii' hs, hl.name]
  · exact .inr (.inr (.inl hnew))

/-- When the notes are taken, what they say is still to be seen to. -/
theorem Work.Current.forget (h : w.Current right todo due) :
    Work.Current right { w with outline := w.outline.forget, standings := w.standings.forget }
      (fun e => todo e ∨ e ∈ w.outline.news) fun s => due s ∨ s ∈ w.standings.improved := by
  intro e x g vs hx hphysical hfeeds
  rcases h e x g vs hx hphysical hfeeds with hprice | htodo | hnew | ⟨i, hi, t, hs, hdue⟩
  · exact .inl hprice
  · exact .inr (.inl (.inl htodo))
  · exact .inr (.inl (.inr hnew))
  · exact .inr (.inr (.inr ⟨i, hi, t, hs, .inl hdue⟩))

/-- An expression that got a fair price has been seen to. -/
theorem Work.Current.price [Quantity Q] {model : CostModel Op Q} {e : ExprId} {p : Price Q}
    {owed : List (SubGroupId × ExprId)} (hg : model.Gauges right)
    (h : w.Current right (fun e' => todo e' ∨ e' = e) due)
    (hq : ∀ s v, w.standings.wins s = some v → v.price.weight = model.weight v.price.cost)
    (hf : model.Fair w.outline w.standings e p) :
    Work.Current right { w with standings := w.standings.setPrice e p, owed := owed } todo due := by
  intro e' x g vs hx hphysical hfeeds
  by_cases he : e' = e
  · obtain ⟨x₀, g₀, vs₀, hx₀, -, hfeeds₀, hright⟩ := hf.right hg hq
    change w.outline.entry e' = some (x, g) at hx
    rw [he, hx₀] at hx
    cases hx
    obtain rfl : vs = vs₀ := Work.Feeds.unique (w := w) hfeeds hfeeds₀
    exact .inl ⟨p, if_pos he, hright⟩
  · rcases h e' x g vs hx hphysical hfeeds with ⟨p', hp', hright⟩ | (htodo | heq) | hnoted
    · exact .inl ⟨p', (if_neg he).trans hp', hright⟩
    · exact .inr (.inl htodo)
    · exact absurd heq he
    · exact .inr (.inr hnoted)

/-- Readers of a sub group that is due are still to be seen to, and it need not be due any more. -/
theorem Work.Current.readers {s : SubGroupId} (h : w.Current right todo fun s' => due s' ∨ s' = s)
    (ht : w.outline.Tidy) :
    w.Current right (fun e => todo e ∨ w.outline.Consults e (w.outline.reduceSub s)) due := by
  intro e x g vs hx hphysical hfeeds
  rcases h e x g vs hx hphysical hfeeds with hprice | htodo | hnew | ⟨i, hi, t, hs, (hdue | rfl) | himproved⟩
  · exact .inl hprice
  · exact .inr (.inl (.inl htodo))
  · exact .inr (.inr (.inl hnew))
  · exact .inr (.inr (.inr ⟨i, hi, t, hs, .inl hdue⟩))
  · exact .inr (.inl (.inr (ht.consults_iff.2 ⟨x, g, hx, i, hi, hs⟩)))
  · exact .inr (.inr (.inr ⟨i, hi, t, hs, .inr himproved⟩))

end Current

/-! ## Settled memos -/

namespace Memo

section Quiet

variable {Op Q : Type} [Operator Op] {right : Gauge Op Q} {m : Memo Op Q}

/-- All prices are current, and nothing is left to be done about it. -/
structure Quiet (right : Gauge Op Q) (m : Memo Op Q) : Prop where
  current : m.work.Current right (fun _ => False) fun _ => False
  news : m.outline.news = []
  improved : m.standings.improved = []

/-- Where nothing is left to be done, an expression whose inputs have winners has the price that is right. -/
theorem Quiet.price (h : m.Quiet right) {e : ExprId} {x : Expr Op} {g : GroupId} {vs : List (Winner Q)}
    (hx : m.outline.entry e = some (x, g)) (hphysical : Operator.isLogical x.op = false)
    (hfeeds : m.work.Feeds x vs) : ∃ p, m.standings.price e = some p ∧ right x (vs.map Winner.price) p := by
  rcases h.current e x g vs hx hphysical hfeeds with hprice | hno | hnew | ⟨_, _, t, _, hno | himproved⟩
  · exact hprice
  · exact hno.elim
  · rw [show m.work.outline.news = [] from h.news] at hnew
    cases hnew
  · exact hno.elim
  · rw [show m.work.standings.improved = [] from h.improved] at himproved
    cases himproved

end Quiet

variable {Op Q W : Type} [Operator Op] [AddCommMonoid W] [PartialOrder W] [Quantity Q]

/-- What edits with fair prices keep: all quotes are achieved by derivations, and all members are offered. -/
structure Vouched (model : CostModel Op Q) (tariff : Tariff Op W) (worth : Price Q → W) (m : Memo Op Q) :
    Prop where
  tidy : m.outline.Tidy
  throned : m.work.Throned
  achieved : m.work.Quoted (Achieved model tariff worth)
  offered : m.work.Offered worth

/-- Besides, all prices are current. -/
structure Settled (model : CostModel Op Q) (tariff : Tariff Op W) (worth : Price Q → W) (m : Memo Op Q) : Prop
    extends m.Vouched model tariff worth where
  quiet : m.Quiet (tariff.gauge worth)

variable {model : CostModel Op Q} {tariff : Tariff Op W} {worth : Price Q → W} {m m' : Memo Op Q}

theorem Vouched.edits [IsOrderedAddMonoid W] (hr : Memo.Ranks (fun _ => True) worth)
    (hg : model.Gauges (tariff.gauge worth)) (h : m.Vouched model tariff worth)
    (he : Edits model.terms m.work m'.work) : m'.Vouched model tariff worth where
  tidy := tidy_of_edits h.tidy he
  throned := Edits.throned he (sound_of_tidy h.tidy []) h.throned
  achieved := Edits.achieved hg he (sound_of_tidy h.tidy []) h.throned h.achieved
  offered := Edits.offered hr he (sound_of_tidy h.tidy []) h.offered

/-- A memo without expressions has no quotes to vouch for. -/
theorem vouched_empty (registry : Registry Op) (factRules : List (FactRule Op)) (tieBreak : TieBreak) :
    (empty registry factRules tieBreak : Memo Op Q).Vouched model tariff worth where
  tidy := (orderly_empty _ _ _).ordered.tidy
  throned s v hv := by simp [work, workAt, standings, empty] at hv
  achieved := quoted_empty _ _ _ _
  offered := by
    rintro s e p ⟨x, r, hx, -⟩
    simp [work, workAt, outline, empty] at hx

/-- An expression with a price is physical, and costs no more than that with some derivations of what it reads. -/
theorem Vouched.priced (h : m.Vouched model tariff worth) {e : ExprId} {x : Expr Op} {g : GroupId} {p : Price Q}
    (hx : m.outline.entry e = some (x, g)) (hp : m.standings.price e = some p) :
    Operator.isLogical x.op = false ∧ ∃ costs, List.Forall₂ (m.Derives tariff) x.inputs costs ∧
      tariff.fee x + costs.sum ≤ worth p := by
  obtain ⟨-, y, k, costs, hy, hphysical, hinputs, hle⟩ := h.achieved.price e p hp
  change m.outline.entry (m.outline.reduceExpr e) = some (y, k) at hy
  rw [h.tidy.sound.names.reduceExpr_of_live (by rw [hx]; rfl), hx] at hy
  cases hy
  exact ⟨hphysical, costs, hinputs.imp fun i c hd => m.derives_work h.tidy.sound hd, hle⟩

omit [Operator Op] [AddCommMonoid W] [Quantity Q] in
/-- Where all that an expression reads has winners that are worth no more than some costs, these feed it. -/
theorem exists_feeds_le (ht : m.outline.Tidy) {e : ExprId} {x : Expr Op} {g : GroupId} {costs : List W}
    (hx : m.outline.entry e = some (x, g)) (h : List.Forall₂ (fun i c => ∀ s r, m.outline.sub s = some r →
      m.outline.reduce i.group = r.group → i.traits.Same r.traits →
      ∃ v, m.standings.wins s = some v ∧ worth v.price ≤ c) x.inputs costs) :
    ∃ vs, m.work.Feeds x vs ∧ List.Forall₂ (fun (v : Winner Q) c => worth v.price ≤ c) vs costs := by
  have hpairs := (List.forall₂_and_left x.inputs costs).2 ⟨fun i hi => hi, h⟩
  refine forall₂_comp.2 (hpairs.imp fun i c hic => ?_)
  obtain ⟨hi, hbelow⟩ := hic
  obtain ⟨t, hsub⟩ := ht.exists_subOf hx hi
  obtain ⟨ref, href, htraits, hgroup⟩ := ht.subOf_iff.1 hsub
  obtain ⟨cell, hcell, -⟩ := (ht.indexed.filed t ref href).resolve_left id
  rw [ht.sound.names.reduce_of_live (by rw [hcell]; rfl)] at hgroup
  obtain ⟨v, hv, hle⟩ := hbelow t ref href hgroup.symm htraits.symm
  exact ⟨v, ⟨t, hsub, hv⟩, hle⟩

variable [IsOrderedAddMonoid W] [CanonicallyOrderedAdd W]

/-- A sub group has a winner that is worth no more than any derivation of what it asks for, or of more. -/
theorem Settled.le_derived (h : m.Settled model tariff worth) {i : SubGroupRef} {c : W}
    (hd : m.Derives tariff i c) {s : SubGroupId} {r : SubGroupRef} (hs : m.outline.sub s = some r)
    (hg : m.outline.reduce i.group = r.group)
    (ht : ∀ t, m.registry.satisfies t i.traits = true → m.registry.satisfies t r.traits = true) :
    ∃ v, m.standings.wins s = some v ∧ worth v.price ≤ c := by
  unfold Memo.Derives at hd
  induction hd generalizing s r with
  | @root i e x g costs known member physical meets arity inputs ih =>
    obtain rfl : r.group = g := hg.symm.trans member
    have hzip : List.Forall₂ (fun i c => (i, c) ∈ x.inputs.zip costs) x.inputs costs :=
      List.forall₂_iff_zip.2 ⟨arity, fun hmem => hmem⟩
    -- what the expression reads has winners worth no more than the derivations below it
    obtain ⟨vs, hfeeds, hle⟩ := exists_feeds_le h.tidy known (hzip.imp fun i c hmem s r hs hg ht =>
      ih i c hmem hs hg fun t => by
        rw [m.registry.satisfies_congr (TraitSet.same_refl t) ht]
        exact id)
    have hsum : tariff.fee x + (vs.map fun v => worth v.price).sum ≤ tariff.fee x + costs.sum :=
      add_le_add_right (List.forall₂_map_left_iff.2 hle).sum_le_sum _
    by_cases helig : m.outline.eligible m.registry x r = true
    · obtain ⟨p, hp, hright⟩ := h.quiet.price known physical hfeeds
      have hmet := (h.offered s e p ⟨x, r, known, hs, hp, helig⟩).resolve_left
        (Work.not_due ⟨rfl, rfl⟩ rfl)
      obtain ⟨v, hv, hweight⟩ := hmet
      refine ⟨v, hv, hweight.trans ?_⟩
      rw [show worth p = _ from hright, List.map_map]
      exact hsum
    · -- it may not win because it reads what it would win, and so there is a derivation below it
      have hany : (x.inputs.any fun i =>
          m.outline.reduce i.group = r.group && m.registry.satisfies i.traits r.traits) = true := by
        unfold Outline.eligible at helig
        rw [ht _ meets, Bool.true_and, Bool.not_eq_true', Bool.not_eq_false] at helig
        exact helig
      obtain ⟨j, hj, hreads⟩ := List.any_eq_true.1 hany
      simp only [Bool.and_eq_true, decide_eq_true_eq] at hreads
      obtain ⟨c, hc, hmem⟩ := (exists_of_forall₂ hzip).1 j hj
      obtain ⟨v, hv, hweight⟩ := ih j c hmem hs hreads.1 fun t ht => m.registry.satisfies_trans ht hreads.2
      refine ⟨v, hv, ?_⟩
      calc worth v.price ≤ c := hweight
        _ ≤ costs.sum := List.le_sum_of_mem hc
        _ ≤ tariff.fee x + costs.sum := le_add_self

/-- An expression over derivations is fed by winners that are worth no more than these. -/
theorem Settled.exists_feeds (h : m.Settled model tariff worth) {e : ExprId} {x : Expr Op} {g : GroupId}
    {costs : List W} (hx : m.outline.entry e = some (x, g))
    (hd : List.Forall₂ (m.Derives tariff) x.inputs costs) :
    ∃ vs, m.work.Feeds x vs ∧ List.Forall₂ (fun (v : Winner Q) c => worth v.price ≤ c) vs costs :=
  exists_feeds_le h.tidy hx (hd.imp fun i c hd s r hs hg ht => h.le_derived hd hs hg fun t => by
    rw [m.registry.satisfies_congr (TraitSet.same_refl t) ht]
    exact id)

/-- A winner is the root of a derivation that costs the least. -/
theorem Settled.isLeast (h : m.Settled model tariff worth) {s : SubGroupId} {r : SubGroupRef}
    (hs : m.outline.sub s = some r) {v : Winner Q} (hv : m.standings.wins s = some v) :
    IsLeast {c | m.Derives tariff r c} (worth v.price) := by
  obtain ⟨cell, hcell, -⟩ := (h.tidy.indexed.filed s r hs).resolve_left id
  have hg : m.outline.reduce r.group = r.group := h.tidy.sound.names.reduce_of_live (by rw [hcell]; rfl)
  have hlower : ∀ c, m.Derives tariff r c → worth v.price ≤ c := by
    intro c hc
    obtain ⟨v', hv', hle⟩ := h.le_derived hc hs hg fun _ => id
    rw [hv] at hv'
    cases hv'
    exact hle
  obtain ⟨c, hc, hle⟩ := (h.achieved.wins s v hv).derives h.throned hv
    ⟨r, hs, TraitSet.same_refl _, rfl⟩
  have hderives := m.derives_work h.tidy.sound hc
  obtain rfl : c = worth v.price := le_antisymm hle (hlower c hderives)
  exact ⟨hderives, fun c => hlower c⟩

/-- Where there is a derivation, there is a winner. -/
theorem Settled.isSome_iff (h : m.Settled model tariff worth) {s : SubGroupId} {r : SubGroupRef}
    (hs : m.outline.sub s = some r) : (m.standings.wins s).isSome ↔ ∃ c, m.Derives tariff r c := by
  constructor
  · intro hsome
    obtain ⟨v, hv⟩ := Option.isSome_iff_exists.1 hsome
    exact ⟨_, (h.isLeast hs hv).1⟩
  · rintro ⟨c, hc⟩
    obtain ⟨cell, hcell, -⟩ := (h.tidy.indexed.filed s r hs).resolve_left id
    obtain ⟨v, hv, -⟩ := h.le_derived hc hs (h.tidy.sound.names.reduce_of_live (by rw [hcell]; rfl)) fun _ => id
    rw [hv]
    rfl

/-- A winner is worth what its operation costs, and what the winners that it reads are worth. -/
theorem Settled.worth_eq (h : m.Settled model tariff worth) {s : SubGroupId} {v : Winner Q}
    (hv : m.standings.wins s = some v) : ∃ x g vs,
      m.outline.entry (m.outline.reduceExpr v.expr) = some (x, g) ∧ m.work.Feeds x vs ∧
      worth v.price = tariff.fee x + (vs.map fun v => worth v.price).sum := by
  obtain ⟨-, x, g, costs, hx, hphysical, hinputs, hle⟩ := h.achieved.wins s v hv
  obtain ⟨x', g', r, hx', hr, hlinked, hmeets⟩ := h.throned s v hv
  change m.outline.entry _ = _ at hx hx'
  rw [hx] at hx'
  cases hx'
  obtain ⟨vs, hfeeds, hbelow⟩ := h.exists_feeds hx (hinputs.imp fun i c hd => m.derives_work h.tidy.sound hd)
  refine ⟨x, g, vs, hx, hfeeds, le_antisymm ((h.isLeast hr hv).2 ?_) ?_⟩
  · -- the winners below it have derivations that cost what they are worth
    have hderives : List.Forall₂ (m.Derives tariff) x.inputs (vs.map fun v => worth v.price) := by
      refine List.forall₂_map_right_iff.2 (List.Forall₂.imp (fun i v hiv => ?_) hfeeds)
      obtain ⟨t, ht, hwins⟩ := hiv
      obtain ⟨ref, href, htraits, hgroup⟩ := h.tidy.subOf_iff.1 ht
      exact (h.isLeast href hwins).1.congr htraits hgroup
    obtain ⟨hlength, hzip⟩ := List.forall₂_iff_zip.1 hderives
    refine .root hx ?_ hphysical hmeets hlength fun i c hc => hzip hc
    have hg : m.outline.reduce g = m.outline.reduce r.group := h.tidy.sound.names.linked_nil_iff.1 hlinked
    rw [← hg]
    exact h.tidy.sound.reduce_home hx
  · calc tariff.fee x + (vs.map fun v => worth v.price).sum
        ≤ tariff.fee x + costs.sum := add_le_add_right (List.forall₂_map_left_iff.2 hbelow).sum_le_sum _
      _ ≤ worth v.price := hle

end Memo

end PlanSearch
