import PlanSearch.Proofs.Conversions
import PlanSearch.Proofs.Memo.CallEdits
import PlanSearch.Proofs.Optimizer.Coverage
import PlanSearch.Proofs.Optimizer.Rounds

/-!
# Attempts at conversion

Whatever a memo is asked to do, names go on standing for what they stood for, what is new and what becomes required is
noted, and traits go on fitting. An attempt to convert within a group is made once for every two trait sets. After it
the group harbors every leg of the conversion, and goes on harboring it whatever happens to the group.

    Change just m m' → m.Orderly → m.Precedes m'                                                   (Change.precedes)
    m.Converted t → m.Precedes m' → m'.Converted t                                               (Converted.precedes)
    convertWithin g a r o = .ok () o' → o.memo.Orderly → …                                       (convertWithin_spec)
-/

namespace PlanSearch

open Outline

/-- The expression that a leg comes to over a group. -/
def Leg.expr {Op : Type} (g : GroupId) (l : Leg Op) : Expr Op := ⟨l.op, [⟨g, l.source⟩], l.data, l.target⟩

/-! ## What a group harbors -/

namespace Outline

variable {Op : Type} {o o' : Outline Op} {g k : GroupId} {y z : Expr Op}

/-- The group that a name stands for has a live member that is alike. -/
def Harbors (o : Outline Op) (g : GroupId) (y : Expr Op) : Prop :=
  ∃ e x, o.entry e = some (x, o.reduce g) ∧ o.Alike y x

theorem Harbors.later (h : o.Harbors g y) (he : o.Evolves [] o' []) (hs : o'.Sound) : o'.Harbors g y := by
  obtain ⟨e, x, hx, halike⟩ := h
  obtain ⟨x', hx', halike'⟩ := he.entry_settled hs hx
  rw [he.group] at hx'
  exact ⟨_, x', hx', (halike.later he.group).trans halike'⟩

theorem Harbors.congr (h : o.Harbors g y) (hg : o.reduce g = o.reduce k) (hy : o.Alike z y) : o.Harbors k z := by
  obtain ⟨e, x, hx, halike⟩ := h
  exact ⟨e, x, hg ▸ hx, hy.trans halike⟩

/-- A leg with its values in canonical form is alike over any name of a group. -/
theorem alike_expr {l l' : Leg Op} (hl : l.canon = l'.canon) (hg : o.reduce g = o.reduce k) :
    o.Alike (l.expr g) (l'.expr k) := by
  obtain ⟨hop, hdata, hsource, htarget⟩ := Leg.mk.inj hl
  simp only [Alike, settled, Expr.Congruent, Expr.canon, Leg.expr, List.map_cons, List.map_nil, reduceRef,
    SubGroupRef.canon, hop, hdata, hsource, htarget, hg]

/-- An enforcer that joins a group is harbored by it. -/
theorem Joins.harbors {l : Leg Op} {rowType : RowType} (h : o.Joins g (l.node k rowType).toPlan o') (ho : o.Tidy) :
    o'.Harbors g (l.expr k) := by
  have hrefs : ∀ {o₁ : Outline Op} {refs : List SubGroupRef}, o₁.Names → o₁.StandAll [.group ⟨k, l.source⟩] refs →
      o₁.Alike (l.expr k) ⟨l.op, refs, l.data, l.target⟩ := by
    intro o₁ refs hn hstand
    cases hstand with
    | cons first rest =>
      cases rest
      cases first
      refine .of_settled_eq ?_
      simp only [settled, Leg.expr, List.map_cons, List.map_nil, reduceRef, hn.reduce_reduce]
  cases h with
  | @merge _ _ refs o₁ _ e y k' grown below known congruent merges =>
    have htidy := grown.tidy ho
    have hevolves := merges.evolves htidy
    have hsound := (merges.tidy htidy).sound
    obtain ⟨x, hx, halike⟩ := hevolves.entry_settled hsound known
    have hg : o'.reduce k' = o'.reduce g := by
      rw [← hsound.names.linked_nil_iff.1 (hevolves.pairs _ (List.mem_singleton_self _)), hevolves.group]
    rw [hg] at hx
    have hbefore : o₁.Alike (l.expr k) y := (hrefs htidy.sound.names below).trans (Alike.of_congruent congruent).symm
    exact ⟨_, x, hx, (hbefore.later hevolves.group).trans halike⟩
  | @attach _ _ refs o₁ grown below live ready apart =>
    have halike := hrefs (grown.tidy ho).sound.names below
    exact ⟨⟨o₁.next⟩, _, if_pos rfl, halike⟩

end Outline

/-! ## Memos in succession -/

namespace Memo

variable {Op Q : Type} {m m' m'' : Memo Op Q}

/-- What can be said of a memo after any calls but the taking of changes. -/
structure Precedes (m m' : Memo Op Q) : Prop where
  orderly : m'.Orderly
  tracks : m.outline.Tracks m'.outline
  lineage : m.outline.Lineage m'.outline
  evolves : m.outline.Evolves [] m'.outline []
  heeds : m.Heeds m'

theorem Precedes.refl (hm : m.Orderly) : m.Precedes m :=
  ⟨hm, hm.ordered.tidy.sound.tracks_refl, .refl hm.ordered.tidy.sound.names, .refl hm.ordered.tidy.sound.names, .refl m⟩

theorem Precedes.trans (h₁ : m.Precedes m') (h₂ : m'.Precedes m'') : m.Precedes m'' :=
  ⟨h₂.orderly, h₁.tracks.trans h₂.tracks, h₁.lineage.trans h₂.lineage, h₁.evolves.trans h₂.evolves,
    h₁.heeds.trans h₂.heeds⟩

/-- The group harbors every leg of the route from the one trait set to the other. -/
def Converted (m : Memo Op Q) (g : GroupId) (actual required : TraitSet) : Prop :=
  ∀ legs, Registry.route required m.registry.kinds 0 actual = .ok (some legs) →
    ∀ l ∈ legs, m.outline.Harbors g (l.expr g)

theorem Converted.precedes {g : GroupId} {actual required : TraitSet} (h : m.Converted g actual required)
    (hp : m.Precedes m') : m'.Converted g actual required := by
  intro legs hlegs l hl
  rw [hp.heeds.registry] at hlegs
  exact (h legs hlegs l hl).later hp.evolves hp.orderly.ordered.tidy.sound

/-- Between trait sets that are the same, there are routes with the same legs. -/
theorem Converted.congr {g k : GroupId} {a a' r r' : TraitSet} (h : m.Converted g a r)
    (hg : m.outline.reduce g = m.outline.reduce k) (ha : a.Same a') (hr : r.Same r') : m.Converted k a' r' := by
  intro legs hlegs l hl
  obtain ⟨legs', hlegs', hcanon⟩ := Registry.route_congr hr.symm ha.symm hlegs
  have hmem : l.canon ∈ legs'.map Leg.canon := hcanon ▸ List.mem_map_of_mem hl
  obtain ⟨l', hl', hsame⟩ := List.mem_map.1 hmem
  exact (h legs' hlegs' l' hl').congr hg (alike_expr hsame.symm hg.symm)

end Memo

namespace Optimizer

variable {Op Q : Type} [Operator Op] [Quantity Q] {just : Just Op Q} {o o' : Optimizer Op Q}

theorem Change.heeds {m m' : Memo Op Q} (h : Change just m m') : m.Heeds m' := by
  cases h with
  | add ok => exact Memo.heeds_add ok
  | request ok => exact Memo.heeds_ensureSubGroup ok
  | price ok => exact Memo.piecewise_heeds.recordPrice ok
  | join _ ok => exact Memo.heeds_addTo ok
  | enforce _ ok => exact Memo.heeds_addNodeTo ok

theorem Change.precedes {m m' : Memo Op Q} (h : Change just m m') (hm : m.Orderly) : m.Precedes m' := by
  have ht := hm.ordered.tidy
  obtain ⟨ps, hedits⟩ := h.call.attempt.edits ht
  exact ⟨h.call.orderly hm, h.tracks hm, Edits.lineage hedits (Memo.sound_of_tidy ht []), h.call.evolves hm, h.heeds⟩

/-! ## Actions without attempts -/

/-- Where the action succeeds, the memo precedes that afterwards, and nothing was attempted. -/
def Proceeds {α : Type} (x : Action Op Q α) : Prop :=
  ∀ o a o', o.memo.Orderly → x o = .ok a o' → o.memo.Precedes o'.memo ∧ o'.attempted = o.attempted

section Proceeds

variable {α : Type}

omit [Operator Op] [Quantity Q] in
theorem composes_precedes : Action.Composes (fun o : Optimizer Op Q => o.memo.Orderly)
    fun o o' => o.memo.Precedes o'.memo ∧ o'.attempted = o.attempted where
  refl ho := ⟨.refl ho, rfl⟩
  keeps _ h := h.1.orderly
  trans h₁ h₂ := ⟨h₁.1.trans h₂.1, h₂.2.trans h₁.2⟩

omit [Operator Op] [Quantity Q] in
theorem Still.proceeds {x : Action Op Q α} (h : Still x) : Proceeds x := by
  intro o a o' ho ok
  have hu := h o a o' ok
  rw [hu.memo]
  exact ⟨.refl ho, hu.attempted⟩

end Proceeds

theorem proceeds_priceExpr (e : ExprId) : Proceeds (priceExpr e : Action Op Q Unit) := by
  intro o _ o' ho ok
  cases priceExpr_eq_ok ok with
  | skipped => exact ⟨.refl ho, rfl⟩
  | recorded _ _ _ _ price => exact ⟨(Change.price price : Change Freely _ _).precedes ho, rfl⟩

theorem proceeds_winnerImproved (s : SubGroupId) : Proceeds (winnerImproved s : Action Op Q Unit) :=
  composes_precedes.winnerImproved (fun e => (still_record e).proceeds) proceeds_priceExpr s

/-- A chain leaves every leg of the route harbored. -/
theorem addChain_spec (g : GroupId) (rowType : RowType) : ∀ {ls : List (Leg Op)} {o o' : Optimizer Op Q}
    {es : List ExprId}, o.memo.Orderly → addChain g (ls.map (Leg.node g rowType)) o = .ok es o' →
    o.memo.Precedes o'.memo ∧ o'.attempted = o.attempted ∧ ∀ l ∈ ls, o'.memo.outline.Harbors g (l.expr g)
  | [], o, o', es, ho, h => by
    obtain ⟨-, rfl⟩ := run_pure_eq_ok h
    exact ⟨.refl ho, rfl, fun l hl => by cases hl⟩
  | l :: ls, o, o', es, ho, h => by
    obtain ⟨e, m, es', hm, h₂, -⟩ := addChain_cons_eq_ok h
    have hfirst : o.memo.Precedes m := (Change.enforce trivial hm : Change Freely _ _).precedes ho
    obtain ⟨hrest, hattempted, hharbors⟩ := addChain_spec g rowType hfirst.orderly h₂
    refine ⟨hfirst.trans hrest, hattempted, fun l' hl' => ?_⟩
    rcases List.mem_cons.1 hl' with rfl | hl'
    · have hjoined := (Memo.addNodeTo_joins ho.ordered hm).1.harbors ho.ordered.tidy
      have hnow : m.outline.Harbors g (l'.expr g) := hjoined.congr (hfirst.evolves.group g) (.refl _ _)
      exact hnow.later hrest.evolves hrest.orderly.ordered.tidy.sound
    · exact hharbors l' hl'

/-! ## Attempts -/

/-- Nothing is to be converted, or it has been attempted, or it is attempted now. -/
theorem convertWithin_spec {g : GroupId} {actual required : TraitSet} (ho : o.memo.Orderly)
    (ok : convertWithin g actual required o = .ok () o') : o.memo.Precedes o'.memo ∧
      (o'.attempted = o.attempted ∧ (o.memo.registry.satisfies actual required = true ∨
        ∃ a r, (o.memo.outline.reduce g, a, r) ∈ o.attempted ∧ a.Same actual ∧ r.Same required) ∨
      o'.attempted = o.attempted ++ [(o.memo.outline.reduce g, actual, required)] ∧
        o'.memo.Converted (o.memo.outline.reduce g) actual required) := by
  cases convertWithin_eq_ok ok with
  | idle reason => exact ⟨.refl ho, .inl ⟨rfl, reason⟩⟩
  | @vain group _ _ none =>
    refine ⟨.refl ho, .inr ⟨rfl, fun legs hlegs l hl => ?_⟩⟩
    -- where there is no chain, a route can only be one without legs
    have hchain : o.memo.registry.convert ⟨o.memo.reduceGroup g, actual⟩ group.rowType actual required =
        .ok (some (legs.map (Leg.node (o.memo.reduceGroup g) group.rowType))) :=
      Registry.convert_eq_some.2 ⟨legs, hlegs, List.ne_nil_of_mem hl, rfl⟩
    rw [none] at hchain
    cases hchain
  | @chained group _ _ _ es o₁ _ _ chain asked added =>
    obtain ⟨legs, hlegs, -, rfl⟩ := Registry.convert_eq_some.1 chain
    have hasked : o.memo.Precedes _ := (Change.request asked : Change Freely _ _).precedes ho
    obtain ⟨hchained, hattempted, hharbors⟩ := addChain_spec _ _ hasked.orderly added
    have hnoted := untouched_enforced o₁ (o.memo.reduceGroup g) actual required es
    rw [hnoted.memo]
    refine ⟨hasked.trans hchained, .inr ⟨hnoted.attempted.trans hattempted, ?_⟩⟩
    intro legs' hlegs' l hl
    rw [(hasked.trans hchained).heeds.registry, hlegs] at hlegs'
    cases hlegs'
    exact hharbors l hl

end Optimizer

end PlanSearch
