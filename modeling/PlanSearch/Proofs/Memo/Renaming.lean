import Mathlib.Data.Set.Function
import PlanSearch.Proofs.Memo.Contents
import PlanSearch.Proofs.Memo.Derivations

/-!
# Memos that differ in names only

A memo is mirrored in whatever becomes of it. In a memo that was reached from nothing the mirrors of live groups are
not a matter of choice. So if each of two memos is mirrored in the other, going there and back is staying: the groups
and expressions of the one are those of the other by other names, and the same is derived in both.

    m.Reached → b.Mirrors rows m v → b.Mirrors rows m w → (m.outline.group g).isSome → w g = v g     (Mirrors.unique)
    m.Reached → b.Mirrors rows m v → m.Mirrors rows b u → (m.outline.group g).isSome → (v g).bind u = some g
                                                                                                       (Mirrors.back)
    b.Mirrors rows a v → a.Mirrors rows b u → ∃ τ, a.Renames b rows (fun g => (v g).getD g) τ        (Mirrors.renames)
    b.Mirrors rows m v → m.Derives tariff r c → v r.group = some k → b.Derives tariff ⟨k, r.traits⟩ c
                                                                                                     (Mirrors.derives)
-/

namespace PlanSearch

open Outline

universe u

namespace Memo

/-! ## No choice -/

section Rigid

variable {Op Q : Type} [Operator Op] [Quantity Q] {V : Type u} {L : Labelling Op V} {m m' : Memo Op Q}

theorem Call.rigid (h : m.Call m') (hm : m.Orderly) (hr : m.outline.Rigid L) : m'.outline.Rigid L := by
  have ht := hm.ordered.tidy
  cases h with
  | add ok => exact (add_stands hm.ordered ok).1.rigid ht hr
  | addTo ok => exact (addTo_joins hm.ordered ok).1.rigid ht hr
  | addEnforcer ok => exact (addNodeTo_joins hm.ordered ok).1.rigid ht hr
  | ensureSubGroup ok => exact (ensureSubGroup_grown hm.ordered ok).1.rigid ht hr
  | recordPrice ok => exact outline_recordPrice ok ▸ hr
  | merge ok => exact (merge_merges hm.ordered ok).1.rigid ht hr
  | forgetChanges =>
    exact hr.later ht.evolves_forget (Call.orderly .forgetChanges hm).ordered.tidy.sound.names fun _ => id

/-- In a memo that was reached from nothing, labels that are right are the same for all live groups. -/
theorem Reached.rigid (h : m.Reached) : m.outline.Rigid L := by
  induction h with
  | empty registry factRules tieBreak => exact fun _ _ _ _ g hg => by simp [outline, Memo.empty] at hg
  | call before call ih => exact call.rigid before.orderly ih

theorem Mirrors.unique {b : Memo Op Q} {rows : RowType → RowType → Prop} {v w : GroupId → Option GroupId}
    (hm : m.Reached) (hv : b.Mirrors rows m v) (hw : b.Mirrors rows m w) {g : GroupId}
    (hg : (m.outline.group g).isSome) : w g = v g := hm.rigid v w hv.exprs hw.exprs g hg

end Rigid

/-! ## There and back -/

section Mirrors

variable {Op Q : Type} [DecidableEq Op] {m m' a b c : Memo Op Q} {rows : RowType → RowType → Prop}
variable {v u : GroupId → Option GroupId}

/-- A memo is mirrored in what becomes of it. -/
theorem Onward.mirrors [Quantity Q] (h : m.Onward m') (ht : m.outline.Tidy) (hrows : ∀ t, rows t t) :
    m'.Mirrors rows m fun g => some (m'.outline.reduce g) where
  exprs := by
    have he := h.evolves ht
    refine ⟨fun g => congrArg some (he.group g), fun e x g hx => ?_⟩
    obtain ⟨y, hy, hc⟩ := he.congruent (h.tidy ht) hx rfl
    let v : GroupId → Option GroupId := fun g => some (m'.outline.reduce g)
    have hrefs : List.Forall₂ (fun r r' : SubGroupRef => v r.group = some r'.group ∧ r'.traits = r.traits)
        x.inputs (x.inputs.map m'.outline.reduceRef) :=
      List.forall₂_map_right_iff.2 (List.forall₂_same.2 fun r _ => ⟨rfl, rfl⟩)
    exact seat_of_entry (h.tidy ht).sound.places hrefs hy hc
  groups g rowType hrow := by
    have hnamed := named_of_rowType? ht.sound.names ((m.rowType?_eq g).trans hrow)
    rw [← rowType?_of_edits ht h.edits g hnamed] at hrow
    obtain ⟨c, hc, rfl⟩ := Option.map_eq_some_iff.1 hrow
    exact ⟨_, c, rfl, hc, hrows _⟩
  required s r hs hr := by
    have hserves : m.Requires r := ⟨s, ⟨r, hs, TraitSet.same_refl _, rfl⟩, hr⟩
    exact ⟨_, rfl, hserves.later h ht⟩

/-- What is mirrored in a memo is mirrored where that is. -/
theorem Mirrors.comp (hb : b.outline.Places) (ht : m.outline.Tidy) (h : b.Mirrors rows m v)
    (h' : c.Mirrors rows b u) : m.outline.Labelled c.seating fun g => (v g).bind u where
  names g := congrArg (Option.bind · u) (h.exprs.names g)
  exprs e x g hx := by
    obtain ⟨k, hk⟩ := Option.isSome_iff_exists.1 (h.isSome ht.sound.names (ht.sound.places.home e x g hx))
    obtain ⟨hsome, e', y, hy, hc⟩ := (seat_eq_some hb).1 ((h.exprs.exprs e x g hx).trans hk)
    have hread : c.seat u (x.moved fun g => (v g).getD g) = c.seat (fun g => (v g).bind u) x := by
      refine c.seating.reads (fun g => (v g).bind u) u (fun g => (v g).getD g) x fun r hr => ?_
      obtain ⟨l, hl⟩ := Option.isSome_iff_exists.1 (hsome r hr)
      rw [hl]
      rfl
    calc c.seat (fun g => (v g).bind u) x = c.seat u (x.moved fun g => (v g).getD g) := hread.symm
      _ = c.seat u y := (c.seating.congruent u _ _ hc).symm
      _ = u k := h'.exprs.exprs e' y k hy
      _ = (v g).bind u := by rw [hk]; rfl

/-- In memos that were reached from nothing, going to the mirror and back is staying. -/
theorem Mirrors.back [Operator Op] [Quantity Q] (hm : m.Reached) (hb : b.outline.Places) (hrows : ∀ t, rows t t)
    (h : b.Mirrors rows m v) (h' : m.Mirrors rows b u) {g : GroupId} (hg : (m.outline.group g).isSome) :
    (v g).bind u = some g := by
  have ht := hm.orderly.ordered.tidy
  have hstay : m.Mirrors rows m fun g => some (m.outline.reduce g) := (Onward.refl m).mirrors ht hrows
  have hsame := hm.rigid _ _ hstay.exprs (Mirrors.comp hb ht h h') g hg
  rw [hsame, ht.sound.names.reduce_of_live hg]

/-! ## Renaming -/

/-- Every live expression of `a` is in `b` by another name, over the groups that `σ` leads to. -/
def Moves (a b : Memo Op Q) (σ : GroupId → GroupId) (τ : ExprId → ExprId) : Prop :=
  ∀ e x g, a.outline.entry e = some (x, g) → ∃ y, b.outline.entry (τ e) = some (y, σ g) ∧ y.Congruent (x.moved σ)

/-- The memo `b` is the memo `a` with its live groups and expressions under other names, as far as row types are told
apart by `rows` and values by their canonical forms. -/
structure Renames (a b : Memo Op Q) (rows : RowType → RowType → Prop) (σ : GroupId → GroupId) (τ : ExprId → ExprId) :
    Prop where
  groups : Set.BijOn σ {g | (a.outline.group g).isSome} {g | (b.outline.group g).isSome}
  exprs : Set.BijOn τ {e | (a.outline.entry e).isSome} {e | (b.outline.entry e).isSome}
  moves : a.Moves b σ τ
  row : ∀ g c c', a.outline.group g = some c → b.outline.group (σ g) = some c' → rows c.rowType c'.rowType

omit [DecidableEq Op] in
/-- What is moved there and back is the same expression. -/
theorem Moves.leftInvOn {σ ρ : GroupId → GroupId} {τ τ' : ExprId → ExprId} (ha : a.outline.Tidy)
    (h : a.Moves b σ τ) (h' : b.Moves a ρ τ') (hback : ∀ g, (a.outline.group g).isSome → ρ (σ g) = g) :
    Set.LeftInvOn τ' τ {e | (a.outline.entry e).isSome} := by
  intro e he
  obtain ⟨⟨x, g⟩, hx⟩ := Option.isSome_iff_exists.1 he
  obtain ⟨y, hy, hxy⟩ := h e x g hx
  obtain ⟨z, hz, hyz⟩ := h' _ y _ hy
  have hinputs : x.inputs.map (fun r => (⟨ρ (σ r.group), r.traits⟩ : SubGroupRef)) = x.inputs := by
    refine (List.map_congr_left fun r hr => ?_).trans (List.map_id x.inputs)
    have hlive := ha.sound.places.inputs e x g hx r hr
    rw [ha.reduce_input hx hr] at hlive
    rw [hback _ hlive]
    rfl
  have hself : (x.moved σ).moved ρ = x := by
    simp only [Expr.moved, List.map_map, Function.comp_def, hinputs]
  exact ha.sound.places.apart _ _ _ _ _ _ hz hx (hself ▸ hyz.trans (hxy.moved ρ))

/-- What is mirrored is there by other names. -/
theorem Mirrors.moves (hb : b.outline.Places) (ha : a.outline.Tidy) (h : b.Mirrors rows a v) :
    ∃ τ, a.Moves b (fun g => (v g).getD g) τ := by
  have hall : ∀ e : ExprId, ∃ e', ∀ x g, a.outline.entry e = some (x, g) → ∃ y,
      b.outline.entry e' = some (y, (v g).getD g) ∧ y.Congruent (x.moved fun g => (v g).getD g) := fun e => by
    cases hentry : a.outline.entry e with
    | none => exact ⟨e, fun x g hx => by cases hx⟩
    | some p =>
      obtain ⟨x, g⟩ := p
      obtain ⟨k, hk⟩ := Option.isSome_iff_exists.1 (h.isSome ha.sound.names (ha.sound.places.home e x g hentry))
      obtain ⟨-, e', y, hy, hc⟩ := (seat_eq_some hb).1 ((h.exprs.exprs e x g hentry).trans hk)
      refine ⟨e', fun x' g' hx => ?_⟩
      cases hx
      rw [hk]
      exact ⟨y, hy, hc⟩
  choose τ hτ using hall
  exact ⟨τ, hτ⟩

/-- Where going there and back is staying, live groups go to live groups. -/
theorem Mirrors.live (ha : a.outline.Tidy) (h : b.Mirrors rows a v)
    (hback : ∀ g, (a.outline.group g).isSome → (v g).bind u = some g) {g : GroupId}
    (hg : (a.outline.group g).isSome) :
    (b.outline.group ((v g).getD g)).isSome ∧ (u ((v g).getD g)).getD ((v g).getD g) = g := by
  obtain ⟨rowType, hrow⟩ := Option.isSome_iff_exists.1 (isSome_rowType? hg ha.sound.names)
  obtain ⟨k, c, hk, hc, -⟩ := h.groups g rowType hrow
  have hu := hback g hg
  rw [hk, Option.bind_some] at hu
  rw [hk, Option.getD_some, hc, hu]
  exact ⟨rfl, rfl⟩

/-- Where going there and back is staying, the memos differ in names only. -/
theorem Mirrors.renames (ha : a.outline.Tidy) (hb : b.outline.Tidy) (h : b.Mirrors rows a v) (h' : a.Mirrors rows b u)
    (hback : ∀ g, (a.outline.group g).isSome → (v g).bind u = some g)
    (hforth : ∀ g, (b.outline.group g).isSome → (u g).bind v = some g) :
    ∃ τ, a.Renames b rows (fun g => (v g).getD g) τ := by
  obtain ⟨τ, hτ⟩ := h.moves hb.sound.places ha
  obtain ⟨τ', hτ'⟩ := h'.moves ha.sound.places hb
  have hlive := fun g (hg : (a.outline.group g).isSome) => h.live ha hback hg
  have hlive' := fun g (hg : (b.outline.group g).isSome) => h'.live hb hforth hg
  have hknown : ∀ {a b : Memo Op Q} {σ : GroupId → GroupId} {τ : ExprId → ExprId}, a.Moves b σ τ →
      Set.MapsTo τ {e | (a.outline.entry e).isSome} {e | (b.outline.entry e).isSome} := fun h e he => by
    obtain ⟨⟨x, g⟩, hx⟩ := Option.isSome_iff_exists.1 he
    obtain ⟨y, hy, -⟩ := h e x g hx
    exact Option.isSome_iff_exists.2 ⟨_, hy⟩
  have hthere : Set.LeftInvOn τ' τ {e | (a.outline.entry e).isSome} := hτ.leftInvOn ha hτ' fun g hg => (hlive g hg).2
  have hhere : Set.LeftInvOn τ τ' {e | (b.outline.entry e).isSome} := hτ'.leftInvOn hb hτ fun g hg => (hlive' g hg).2
  have hgroups : Set.InvOn (fun g => (u g).getD g) (fun g => (v g).getD g) {g | (a.outline.group g).isSome}
      {g | (b.outline.group g).isSome} := ⟨fun g hg => (hlive g hg).2, fun g hg => (hlive' g hg).2⟩
  refine ⟨τ, hgroups.bijOn (fun g hg => (hlive g hg).1) fun g hg => (hlive' g hg).1,
    Set.InvOn.bijOn ⟨hthere, hhere⟩ (hknown hτ) (hknown hτ'), hτ, fun g c c' hc hc' => ?_⟩
  have hrow : a.outline.rowType? g = some c.rowType := by
    unfold Outline.rowType?
    rw [ha.sound.names.reduce_of_live (by rw [hc]; rfl), hc]
    rfl
  obtain ⟨k, c'', hk, hc'', hrows⟩ := h.groups g _ hrow
  rw [hk, Option.getD_some, hc''] at hc'
  cases hc'
  exact hrows

end Mirrors

/-! ## Derivations -/

section Derives

variable {Op Q W : Type} [Operator Op] [AddCommMonoid W] {m b : Memo Op Q} {rows : RowType → RowType → Prop}
variable {v : GroupId → Option GroupId} {tariff : Tariff Op W}

omit [Operator Op] [AddCommMonoid W] in
/-- What says the same costs the same. -/
theorem Images.fee_eq {leads : GroupId → GroupId → Prop} {x y : Expr Op} (h : m.Images b leads x y) :
    tariff.fee y = tariff.fee x := by
  have hdata : y.data.map Value.canon = x.data.map Value.canon := h.data
  have htraits : y.traits.canon = x.traits.canon := h.traits
  unfold Tariff.fee
  rw [h.op, hdata, htraits, h.inputs.length_eq]

/-- What is derived in a memo is derived where it is mirrored, at the same cost. -/
theorem Mirrors.derives (hb : b.outline.Tidy) (h : b.Mirrors rows m v) (ht : m.outline.Tidy)
    (hregistry : m.registry = b.registry) {r : SubGroupRef} {c : W} (hd : m.Derives tariff r c) :
    ∀ {k : GroupId}, v r.group = some k → b.Derives tariff ⟨k, r.traits⟩ c := by
  obtain ⟨τ, hτ⟩ := h.translates hb ht
  unfold Memo.Derives at hd
  induction hd with
  | @root r e x g costs known member physical meets arity inputs ih =>
    intro k hk
    obtain ⟨y, k', hy, ⟨hk', hself⟩, himages⟩ := hτ.expr e x g known
    rw [← h.exprs.names r.group, member, hk'] at hk
    cases hk
    rw [← himages.fee_eq]
    refine .root hy hself (himages.op ▸ physical) ?_ (himages.inputs.length_eq ▸ arity) fun i' c hc => ?_
    · rw [← hregistry, m.registry.satisfies_congr himages.traits (TraitSet.same_refl r.traits)]
      exact meets
    · obtain ⟨i, ⟨⟨hleads, -⟩, hsame⟩, hmem⟩ := exists_mem_zip_of_forall₂ himages.inputs hc
      rw [h.exprs.names] at hleads
      exact (ih i c hmem hleads).congr hsame.symm (hb.sound.names.reduce_reduce _)

end Derives

end Memo

end PlanSearch
