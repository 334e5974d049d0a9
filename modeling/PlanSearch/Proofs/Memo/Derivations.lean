import PlanSearch.Proofs.Memo.Backing
import PlanSearch.Proofs.Requirements

/-!
# Derivations

A derivation of what a reference asks for is a finite tree: at its root is a live physical member of the
group that delivers the traits, and below it are derivations of all that the member reads. It costs what its
operations cost. Where winners are members of their groups that deliver what is asked for, every quote is
achieved: a derivation with the expression at its root costs no more than the quote is worth.

    Edit P w w' → w.Sound → w.Throned → w'.Throned                                        (Edit.throned)
    Edits model.terms w w' → w.Sound → w.Throned → w.Quoted (Achieved model tariff worth)
      → w'.Quoted (Achieved model tariff worth)                                          (Edits.achieved)
-/

namespace PlanSearch

open Outline

/-! ## Winners on their thrones -/

section Throned

variable {Op Q : Type}

/-- Every winner stands for a live expression that delivers what the sub group asks for and is at home in
its group, up to merges that are still pending. -/
def Work.Throned (w : Work Op Q) : Prop :=
  ∀ s v, w.standings.wins s = some v → ∃ x g r, w.outline.entry (w.outline.reduceExpr v.expr) = some (x, g) ∧
    w.outline.sub s = some r ∧ w.outline.Linked w.pending g r.group ∧
    w.registry.satisfies x.traits r.traits = true

variable [Quantity Q] {P : Terms Op Q} {w w' : Work Op Q}

theorem Edit.registry_eq (h : Edit P w w') : w'.registry = w.registry := by
  cases h <;> rfl

theorem Edit.throned (h : Edit P w w') (hw : w.Sound) (ht : w.Throned) : w'.Throned := by
  intro s' v' hv'
  have hevolves := h.evolves hw
  rcases h.wins_descend hw hv' with ⟨s, v, hv, hs, he, -⟩ | ⟨hout, x, r, hx, hr, helig, -⟩
  · obtain ⟨x, g, r, hx, hr, hlinked, hmeets⟩ := ht s v hv
    obtain ⟨x', g', hx', halike, hg⟩ := hevolves.entry _ x g hx
    obtain ⟨r', hr', htraits, hgroup⟩ := (h.lineage hw).sub s r hr
    rw [hevolves.expr, he] at hx'
    rw [hs] at hr'
    refine ⟨x', g', r', hx', hr', ?_, ?_⟩
    · exact hg.symm.trans ((hevolves.linked hlinked).trans (.of_reduce_eq hgroup.symm))
    · have hsame : x.traits.Same x'.traits := congrArg Expr.traits halike
      rw [h.registry_eq, ← w.registry.satisfies_congr hsame htraits.symm]
      exact hmeets
  · simp only [eligible, Bool.and_eq_true] at helig
    rw [← hout] at hx hr
    refine ⟨x, r.group, r, ?_, hr, .refl _ _ _, ?_⟩
    · rw [(h.sound hw).outline.names.reduceExpr_of_live (by rw [hx]; rfl)]
      exact hx
    · rw [h.registry_eq]
      exact helig.1

theorem Edits.throned (h : Edits P w w') (hw : w.Sound) (ht : w.Throned) : w'.Throned := by
  induction h with
  | refl => exact ht
  | tail hr hedit ih => exact hedit.throned (Edits.sound hr hw) ih

end Throned

/-! ## Costs of derivations -/

/-- What an operation costs, by its operator, the canonical form of its data and of the traits that it
delivers, and the number of its inputs. -/
abbrev Tariff (Op W : Type) := Op → Option Value → TraitSet → Nat → W

/-- What the operation of an expression costs. -/
def Tariff.fee {Op W : Type} (tariff : Tariff Op W) (x : Expr Op) : W :=
  tariff x.op (x.data.map Value.canon) x.traits.canon x.inputs.length

/-- Alike expressions cost the same. -/
theorem Outline.Alike.fee_eq {Op W : Type} {o : Outline Op} {x y : Expr Op} (h : o.Alike x y)
    (tariff : Tariff Op W) : tariff.fee x = tariff.fee y := by
  have hdata : x.data.map Value.canon = y.data.map Value.canon := (congrArg Expr.data h :)
  have htraits : x.traits.canon = y.traits.canon := (congrArg Expr.traits h :)
  unfold Tariff.fee
  rw [h.op_eq, hdata, htraits, h.akin.length_eq]

section Derives

variable {Op Q W : Type} [Operator Op] [AddCommMonoid W]

/-- What a reference asks for is derived at some cost. Whether a member of one group counts as a member of
another is told by `home`. -/
inductive Outline.Derives (registry : Registry Op) (tariff : Tariff Op W) (o : Outline Op)
    (home : GroupId → GroupId → Prop) : SubGroupRef → W → Prop
  | root {r : SubGroupRef} {e : ExprId} {x : Expr Op} {g : GroupId} {costs : List W}
      (known : o.entry e = some (x, g)) (member : home g r.group)
      (physical : Operator.isLogical x.op = false) (meets : registry.satisfies x.traits r.traits = true)
      (arity : x.inputs.length = costs.length)
      (inputs : ∀ i c, (i, c) ∈ x.inputs.zip costs → Outline.Derives registry tariff o home i c) :
      Outline.Derives registry tariff o home r (tariff.fee x + costs.sum)

/-- What a reference asks for is derived in a memo. -/
def Memo.Derives (m : Memo Op Q) (tariff : Tariff Op W) : SubGroupRef → W → Prop :=
  m.outline.Derives m.registry tariff fun g k => m.outline.reduce k = g

/-- What a reference asks for is derived on a work sheet, up to pending merges. -/
def Work.Derives (w : Work Op Q) (tariff : Tariff Op W) : SubGroupRef → W → Prop :=
  w.outline.Derives w.registry tariff (w.outline.Linked w.pending)

variable {tariff : Tariff Op W}

/-- It matters only where live expressions are at home. -/
theorem Outline.Derives.imp {registry : Registry Op} {o : Outline Op} {home home' : GroupId → GroupId → Prop}
    (hh : ∀ e x g k, o.entry e = some (x, g) → home g k → home' g k) {r : SubGroupRef} {c : W}
    (h : o.Derives registry tariff home r c) : o.Derives registry tariff home' r c := by
  induction h with
  | root known member physical meets arity _ ih =>
    exact .root known (hh _ _ _ _ known member) physical meets arity ih

/-- Between calls, what is derived on the work sheet is derived in the memo. -/
theorem Memo.derives_work (m : Memo Op Q) (hn : m.outline.Sound) {r : SubGroupRef} {c : W}
    (h : m.work.Derives tariff r c) : m.Derives tariff r c := by
  refine Outline.Derives.imp (fun e x g k he hlinked => ?_) h
  have hg : m.outline.reduce g = m.outline.reduce k := hn.names.linked_nil_iff.1 hlinked
  rw [← hg]
  exact hn.reduce_home he

/-- What is derived in a memo is derived for all references that ask for the same. -/
theorem Memo.Derives.congr {m : Memo Op Q} {r r' : SubGroupRef} {c : W} (h : m.Derives tariff r c)
    (ht : r.traits.Same r'.traits) (hg : m.outline.reduce r.group = m.outline.reduce r'.group) :
    m.Derives tariff r' c := by
  cases h with
  | @root _ e x _ _ known member physical meets arity inputs =>
    refine .root known (hg.symm.trans member) physical ?_ arity inputs
    rw [← m.registry.satisfies_congr (TraitSet.same_refl x.traits) ht]
    exact meets

omit [Operator Op] [AddCommMonoid W] in
/-- What is paired with a counterpart is paired with the element itself. -/
theorem exists_mem_zip_of_forall₂ {α β γ : Type} {R : α → β → Prop} {as : List α} {bs : List β}
    (h : List.Forall₂ R as bs) {cs : List γ} {b : β} {c : γ} (hb : (b, c) ∈ bs.zip cs) :
    ∃ a, R a b ∧ (a, c) ∈ as.zip cs := by
  induction h generalizing cs with
  | nil => cases hb
  | @cons a b' as bs hab _ ih =>
    cases cs with
    | nil => cases hb
    | cons c' cs =>
      rw [List.zip_cons_cons] at hb
      rcases List.mem_cons.1 hb with heq | hb
      · cases heq
        exact ⟨a, hab, List.mem_cons_self⟩
      · obtain ⟨a', hr, hmem⟩ := ih hb
        exact ⟨a', hr, List.mem_cons_of_mem _ hmem⟩

/-- Derivations stay, for all references that ask for the same. -/
theorem Outline.Evolves.derives {registry : Registry Op} {o o' : Outline Op} {ps ps' : List (GroupId × GroupId)}
    (he : o.Evolves ps o' ps') {r : SubGroupRef} {c : W}
    (h : o.Derives registry tariff (o.Linked ps) r c) {r' : SubGroupRef} (ht : r.traits.Same r'.traits)
    (hg : o'.Linked ps' r.group r'.group) : o'.Derives registry tariff (o'.Linked ps') r' c := by
  induction h generalizing r' with
  | @root r e x g costs known member physical meets arity inputs ih =>
    obtain ⟨x', g', hx', halike, hlinked⟩ := he.entry e x g known
    have htraits : x.traits.Same x'.traits := congrArg Expr.traits halike
    rw [halike.fee_eq tariff]
    refine .root hx' ?_ ?_ ?_ ?_ fun i' c hc => ?_
    · exact hlinked.symm.trans ((he.linked member).trans hg)
    · rw [← halike.op_eq]
      exact physical
    · rw [← registry.satisfies_congr htraits ht]
      exact meets
    · rw [← halike.akin.length_eq]
      exact arity
    · obtain ⟨i, hakin, hmem⟩ := exists_mem_zip_of_forall₂ halike.akin hc
      exact ih i c hmem hakin.1 (.of_reduce_eq hakin.2)

/-! ## What prices come to -/

section Weighed

variable [Quantity Q] {model : CostModel Op Q} {P : Terms Op Q} {w w' : Work Op Q}

/-- The quote has the weight of its cost. -/
def Weighed (model : CostModel Op Q) : Knowledge Op Q := fun _ _ p => p.weight = model.weight p.cost

omit [Operator Op] [AddCommMonoid W] in
theorem weighed_lasting : Lasting P (Weighed model) := fun _ _ _ _ _ _ _ hweight _ => hweight

omit [AddCommMonoid W] in
theorem weighed_sure : Sure model.terms (Weighed model) := by
  rintro w e p - - - ⟨-, -, -, -, -, -, -, -, -, hweight⟩
  exact hweight

omit [Operator Op] [AddCommMonoid W] [Quantity Q] in
/-- Where no prices are set, nothing has to be known of them. -/
theorem sure_strict (known : Knowledge Op Q) : Sure Terms.strict known := fun _ _ _ _ _ _ hprice => hprice.elim

/-- The winners of the sub groups that an expression reads, in the order of its inputs. -/
def Work.Feeds (w : Work Op Q) (x : Expr Op) (vs : List (Winner Q)) : Prop :=
  List.Forall₂ (fun i v => ∃ s, w.outline.subOf i = some s ∧ w.standings.wins s = some v) x.inputs vs

omit [Operator Op] [AddCommMonoid W] [Quantity Q] in
theorem Work.Feeds.unique {x : Expr Op} {vs vs' : List (Winner Q)} (h : w.Feeds x vs) (h' : w.Feeds x vs') :
    vs = vs' := by
  refine List.right_unique_forall₂' ?_ h h'
  rintro i v v' ⟨s, hs, hv⟩ ⟨s', hs', hv'⟩
  rw [hs] at hs'
  cases hs'
  rw [hv] at hv'
  cases hv'
  rfl

/-- What the price of an expression should be, over winners at some prices. -/
abbrev Gauge (Op Q : Type) := Expr Op → List (Price Q) → Price Q → Prop

omit [Operator Op] [AddCommMonoid W] in
/-- A price is right if it is that of an operation that the model may charge, summed up with its inputs. -/
def CostModel.Gauges (model : CostModel Op Q) (right : Gauge Op Q) : Prop :=
  ∀ x ps p operation, (∀ q ∈ ps, q.weight = model.weight q.cost) →
    model.Charges x (ps.map Price.cost) operation → p.cost = model.sum operation (ps.map Price.cost) →
    p.weight = model.weight p.cost → right x ps p

omit [AddCommMonoid W] in
/-- A fair price is right, over the winners that the expression reads. -/
theorem CostModel.Fair.right {right : Gauge Op Q} (hg : model.Gauges right)
    (hq : ∀ s v, w.standings.wins s = some v → v.price.weight = model.weight v.price.cost) {e : ExprId}
    {p : Price Q} (hf : model.Fair w.outline w.standings e p) : ∃ x g vs, w.outline.entry e = some (x, g) ∧
      Operator.isLogical x.op = false ∧ w.Feeds x vs ∧ right x (vs.map Winner.price) p := by
  obtain ⟨x, g, vs, operation, hx, hphysical, hfeeds, hcharges, hcost, hp⟩ := hf
  have hmap : (vs.map Winner.price).map Price.cost = vs.map fun v => v.price.cost := List.map_map
  refine ⟨x, g, vs, hx, hphysical, hfeeds, hg x _ p operation (fun q hmem => ?_) ?_ ?_ hp⟩
  · obtain ⟨v, hv, rfl⟩ := List.mem_map.1 hmem
    obtain ⟨r, -, s, -, hwins⟩ := (exists_of_forall₂ hfeeds).2 v hv
    exact hq s v hwins
  · rw [hmap]
    exact hcharges
  · rw [hmap]
    exact hcost

/-- A price is worth what the operation costs, and what the prices below it are worth. -/
def Tariff.gauge (tariff : Tariff Op W) (worth : Price Q → W) : Gauge Op Q :=
  fun x ps p => worth p = tariff.fee x + (ps.map worth).sum

end Weighed

/-! ## Quotes that are achieved -/

variable [PartialOrder W] [IsOrderedAddMonoid W] [Quantity Q]

/-- The quote has the weight of its cost, and with some derivations of what it reads, the expression costs no
more than the quote is worth. -/
def Achieved (model : CostModel Op Q) (tariff : Tariff Op W) (worth : Price Q → W) : Knowledge Op Q :=
  fun w e p => Weighed model w e p ∧ ∃ x g costs, w.outline.entry (w.outline.reduceExpr e) = some (x, g) ∧
    Operator.isLogical x.op = false ∧ List.Forall₂ (w.Derives tariff) x.inputs costs ∧
    tariff.fee x + costs.sum ≤ worth p

variable {model : CostModel Op Q} {worth : Price Q → W} {P : Terms Op Q} {w w' : Work Op Q}

omit [IsOrderedAddMonoid W] in
theorem achieved_lasting : Lasting P (Achieved model tariff worth) := by
  intro w w' e e' p hedit hw hknown he
  obtain ⟨hweight, x, g, costs, hx, hphysical, hinputs, hle⟩ := hknown
  have hevolves := hedit.evolves hw
  obtain ⟨x', g', hx', halike, -⟩ := hevolves.entry _ x g hx
  rw [hevolves.expr, he] at hx'
  refine ⟨hweight, x', g', costs, hx', ?_, ?_, ?_⟩
  · rw [← halike.op_eq]
    exact hphysical
  · refine (forall₂_comp.1 ⟨_, halike.akin.flip, hinputs⟩).imp fun i' c hc => ?_
    obtain ⟨i, hakin, hderives⟩ := hc
    unfold Work.Derives
    rw [hedit.registry_eq]
    exact hevolves.derives hderives hakin.1 (.of_reduce_eq hakin.2)
  · rw [← halike.fee_eq tariff]
    exact hle

omit [IsOrderedAddMonoid W] in
/-- A winner that is achieved is at the root of a derivation that costs no more. -/
theorem Achieved.derives (ht : w.Throned) {s : SubGroupId} {v : Winner Q} (hv : w.standings.wins s = some v)
    (hk : Achieved model tariff worth w v.expr v.price) {r : SubGroupRef} (hs : w.outline.Serves s r) :
    ∃ c, w.Derives tariff r c ∧ c ≤ worth v.price := by
  obtain ⟨-, x, g, costs, hx, hphysical, hinputs, hle⟩ := hk
  obtain ⟨x', g', ref, hx', href, hlinked, hmeets⟩ := ht s v hv
  obtain ⟨ref', href', htraits, hgroup⟩ := hs
  rw [hx] at hx'
  cases hx'
  rw [href] at href'
  cases href'
  obtain ⟨hlength, hinputs⟩ := List.forall₂_iff_zip.1 hinputs
  refine ⟨_, .root hx ?_ hphysical ?_ hlength fun i c => hinputs, hle⟩
  · exact hlinked.trans (.of_reduce_eq hgroup)
  · rw [← w.registry.satisfies_congr (TraitSet.same_refl x.traits) htraits]
    exact hmeets

/-- A price is achieved if the winners that it is computed from are. -/
theorem achieved_of_fair (hg : model.Gauges (tariff.gauge worth)) (hw : w.Sound) (hi : w.Idle)
    (ht : w.Throned) (hq : w.Quoted (Achieved model tariff worth)) {e : ExprId} {p : Price Q}
    (hf : model.Fair w.outline w.standings e p) : Achieved model tariff worth w e p := by
  have htidy := hw.tidy hi.stage
  obtain ⟨x, g, vs, hx, hphysical, hfeeds, hworth⟩ := hf.right hg fun s v hv => (hq.wins s v hv).1
  -- every winner that the price is computed from is achieved
  obtain ⟨costs, hcosts, hle⟩ : ∃ costs, List.Forall₂ (w.Derives tariff) x.inputs costs ∧
      List.Forall₂ (fun c v => c ≤ worth v.price) costs vs := by
    refine forall₂_comp.2 (List.Forall₂.imp (fun i v hv => ?_) hfeeds)
    obtain ⟨s, hs, hwins⟩ := hv
    exact (hq.wins s v hwins).derives ht hwins (htidy.subOf_iff.1 hs)
  refine ⟨?_, x, g, costs, ?_, hphysical, hcosts, ?_⟩
  · obtain ⟨-, -, -, -, -, -, -, -, -, hp⟩ := hf
    exact hp
  · rw [htidy.sound.names.reduceExpr_of_live (by rw [hx]; rfl)]
    exact hx
  · rw [hworth, List.map_map]
    exact add_le_add_right (List.forall₂_map_right_iff.2 hle).sum_le_sum _

theorem Edits.achieved (hg : model.Gauges (tariff.gauge worth)) (h : Edits model.terms w w')
    (hw : w.Sound) (ht : w.Throned) (hq : w.Quoted (Achieved model tariff worth)) :
    w'.Quoted (Achieved model tariff worth) := by
  induction h with
  | refl => exact hq
  | tail hr hedit ih =>
    have hw₁ := Edits.sound hr hw
    exact hedit.quoted hw₁ achieved_lasting
      (fun idle _ _ hfair => achieved_of_fair hg hw₁ idle (Edits.throned hr hw ht) ih hfair) ih

end Derives

end PlanSearch
