import PlanSearch.Proofs.Memo.Marks
import PlanSearch.Proofs.Outline.Labelling

/-!
# One memo in the mirror of another

A memo mirrors another one if every group of that one has a group in it, with a row type that is as good, every
expression has one that is congruent over these groups, and all that is required is required in it. The groups are
labels: an expression is labelled with the group of what mirrors it. So where all that a memo is asked to take up has
its place in the mirror, it goes on being mirrored, whatever merges there are on the way.

    b.Mirrors rows m v → (b hosts the plan at the group `g`) → addTo p g m = .ok e m' →
      ∃ w, b.Mirrors rows m' w ∧ m.outline.Agree v w                                            (Mirrors.addTo)
-/

namespace PlanSearch

open Outline

/-- The expression over other groups. -/
def Expr.moved {Op : Type} (σ : GroupId → GroupId) (x : Expr Op) : Expr Op :=
  { x with inputs := x.inputs.map fun r => ⟨σ r.group, r.traits⟩ }

theorem Expr.canon_moved {Op : Type} (σ : GroupId → GroupId) (x : Expr Op) : (x.moved σ).canon = x.canon.moved σ := by
  simp [Expr.moved, Expr.canon, SubGroupRef.canon, Function.comp_def]

theorem Expr.Congruent.moved {Op : Type} (σ : GroupId → GroupId) {x y : Expr Op} (h : x.Congruent y) :
    (x.moved σ).Congruent (y.moved σ) := by
  unfold Expr.Congruent
  rw [Expr.canon_moved, Expr.canon_moved, show x.canon = y.canon from h]

/-- Congruent expressions read the same groups, one by one. -/
theorem Expr.Congruent.groups_eq {Op : Type} {x y : Expr Op} (h : x.Congruent y) :
    x.inputs.map SubGroupRef.group = y.inputs.map SubGroupRef.group := by
  have hc : x.inputs.map SubGroupRef.canon = y.inputs.map SubGroupRef.canon := congrArg Expr.inputs h
  have hg := congrArg (List.map SubGroupRef.group) hc
  simpa [Function.comp_def, SubGroupRef.canon] using hg

namespace Memo

section Seating

variable {Op Q : Type} [DecidableEq Op] (b : Memo Op Q)

/-- The group of the expression that mirrors `x`, where `v` has the groups that mirror those of `x`. -/
def seat (v : GroupId → Option GroupId) (x : Expr Op) : Option GroupId :=
  if x.inputs.all fun r => (v r.group).isSome then
    (b.findExpr? (x.moved fun g => (v g).getD g)).map fun p => p.2.group
  else none

variable {b}

theorem findExpr?_congr {x y : Expr Op} (h : x.Congruent y) : b.findExpr? x = b.findExpr? y := by
  unfold findExpr?
  congr 1
  funext p
  exact decide_eq_decide.2 ⟨fun hc => hc.trans h, fun hc => hc.trans h.symm⟩

theorem findExpr?_of_entry (hb : b.outline.Places) {x y : Expr Op} {e : ExprId} {g : GroupId}
    (hy : b.outline.entry e = some (y, g)) (hc : y.Congruent x) :
    (b.findExpr? x).map (fun p => p.2.group) = some g := by
  cases hf : b.findExpr? x with
  | none => exact absurd hc (findExpr?_eq_none hf e y g hy)
  | some p =>
    obtain ⟨e', entry⟩ := p
    obtain ⟨he', hc'⟩ := findExpr?_eq_some hf
    have hy' := outline_entry_of he'
    obtain rfl := hb.apart _ _ _ _ _ _ hy' hy (hc'.trans hc.symm)
    cases hy'.symm.trans hy
    rfl

/-- What mirrors an expression is congruent to it over the groups of the mirror. -/
theorem seat_eq_some (hb : b.outline.Places) {v : GroupId → Option GroupId} {x : Expr Op} {g : GroupId} :
    b.seat v x = some g ↔ (∀ r ∈ x.inputs, (v r.group).isSome) ∧
      ∃ e y, b.outline.entry e = some (y, g) ∧ y.Congruent (x.moved fun g => (v g).getD g) := by
  unfold seat
  constructor
  · intro h
    split at h
    · next hall =>
      obtain ⟨⟨e, entry⟩, hf, rfl⟩ := Option.map_eq_some_iff.1 h
      obtain ⟨he, hc⟩ := findExpr?_eq_some hf
      exact ⟨List.all_eq_true.1 hall, e, _, outline_entry_of he, hc⟩
    · cases h
  · rintro ⟨hall, e, y, hy, hc⟩
    rw [if_pos (List.all_eq_true.2 hall)]
    exact findExpr?_of_entry hb hy hc

/-- An expression over groups with mirrors has one if there is an expression over these. -/
theorem seat_of_entry (hb : b.outline.Places) {v : GroupId → Option GroupId} {x y : Expr Op} {refs : List SubGroupRef}
    {e : ExprId} {g : GroupId}
    (hrefs : List.Forall₂ (fun r r' : SubGroupRef => v r.group = some r'.group ∧ r'.traits = r.traits) x.inputs refs)
    (hy : b.outline.entry e = some (y, g)) (hc : y.Congruent { x with inputs := refs }) : b.seat v x = some g := by
  have hmoved : x.inputs.map (fun r => (⟨(v r.group).getD r.group, r.traits⟩ : SubGroupRef)) = refs := by
    refine (List.forall₂_eq_eq_eq ▸ List.forall₂_map_left_iff.2 (hrefs.imp fun r r' hr => ?_) :)
    obtain ⟨hgroup, htraits⟩ := hr
    rw [hgroup, ← htraits]
    rfl
  refine (seat_eq_some hb).2 ⟨fun r hr => ?_, e, y, hy, ?_⟩
  · obtain ⟨r', -, hr', -⟩ := (exists_of_forall₂ hrefs).1 r hr
    rw [hr']
    rfl
  · unfold Expr.moved
    rw [hmoved]
    exact hc

/-- Mirrors are labels. -/
def seating (b : Memo Op Q) : Labelling Op (Option GroupId) where
  label := b.seat
  congruent v x y h := by
    have hall : (x.inputs.all fun r => (v r.group).isSome) = y.inputs.all fun r => (v r.group).isSome := by
      have hmap : ∀ z : Expr Op, (z.inputs.all fun r => (v r.group).isSome) =
          (z.inputs.map SubGroupRef.group).all fun g => (v g).isSome := fun z => by rw [List.all_map]; rfl
      rw [hmap, hmap, h.groups_eq]
    unfold seat
    rw [hall, findExpr?_congr (h.moved _)]
  reads v w f x h := by
    have hall : ((x.inputs.map fun r => (⟨f r.group, r.traits⟩ : SubGroupRef)).all fun r => (w r.group).isSome) =
        x.inputs.all fun r => (v r.group).isSome := by
      rw [List.all_map, Bool.eq_iff_iff, List.all_eq_true, List.all_eq_true]
      refine forall₂_congr fun r hr => ?_
      rw [Function.comp_apply, h r hr]
    unfold seat
    dsimp only
    rw [hall]
    split
    · next hsome =>
      rw [List.all_eq_true] at hsome
      congr 2
      unfold Expr.moved
      dsimp only
      rw [List.map_map]
      congr 1
      refine List.map_congr_left fun r hr => ?_
      obtain ⟨k, hk⟩ := Option.isSome_iff_exists.1 (hsome r hr)
      rw [Function.comp_apply, h r hr, hk]
      rfl
    · rfl

end Seating

/-! ## Plans in the mirror -/

section Hosts

variable {Op Q : Type}

mutual

/-- The reference is what the plan comes to in the mirror: every operation is there over what its inputs come to, in a
group of a row type that will do, and all that is read is required. -/
inductive Hosts (b : Memo Op Q) (rows : RowType → RowType → Prop) (v : GroupId → Option GroupId) :
    Plan Op → SubGroupRef → Prop
  | ref (r : SubGroupRef) (g : GroupId) (leads : v r.group = some g) : Hosts b rows v (.group r) ⟨g, r.traits⟩
  | node {head : Operation Op} {inputs : List (Plan Op)} {refs : List SubGroupRef} {e : ExprId} {y : Expr Op}
      {g : GroupId} {c : Cell} (below : HostsAll b rows v inputs refs) (known : b.outline.entry e = some (y, g))
      (congruent : y.Congruent ⟨head.op, refs, head.data, head.traits⟩) (home : b.outline.group g = some c)
      (typed : rows head.rowType c.rowType) : Hosts b rows v (.node head inputs) ⟨g, head.traits⟩

/-- The same for several plans that are read. -/
inductive HostsAll (b : Memo Op Q) (rows : RowType → RowType → Prop) (v : GroupId → Option GroupId) :
    List (Plan Op) → List SubGroupRef → Prop
  | nil : HostsAll b rows v [] []
  | cons {p : Plan Op} {r : SubGroupRef} {ps : List (Plan Op)} {rs : List SubGroupRef} (first : Hosts b rows v p r)
      (required : b.Requires r) (rest : HostsAll b rows v ps rs) : HostsAll b rows v (p :: ps) (r :: rs)

end

variable {b : Memo Op Q} {rows : RowType → RowType → Prop} {v : GroupId → Option GroupId}

theorem HostsAll.exists_hosts {ps : List (Plan Op)} {rs : List SubGroupRef} (h : b.HostsAll rows v ps rs)
    {p : Plan Op} (hp : p ∈ ps) : ∃ r, b.Hosts rows v p r ∧ b.Requires r := by
  induction ps generalizing rs with
  | nil => cases hp
  | cons q ps ih =>
    cases h with
    | cons first required rest =>
      rcases List.mem_cons.1 hp with rfl | hp
      · exact ⟨_, first, required⟩
      · exact ih rest hp

/-- A plan comes with all that is in it. -/
theorem Hosts.part {p : Plan Op} {r : SubGroupRef} (h : b.Hosts rows v p r) {head : Operation Op}
    {inputs : List (Plan Op)} (hp : p.Has head inputs) : ∃ r', b.Hosts rows v (.node head inputs) r' := by
  induction hp generalizing r with
  | root head inputs => exact ⟨r, h⟩
  | inside mem part ih =>
    cases h with
    | node below known congruent home typed =>
      obtain ⟨r', hr', -⟩ := below.exists_hosts mem
      exact ih hr'

/-- All that is read in plans that are read is required. -/
theorem HostsAll.reads {require : Bool} {ps : List (Plan Op)} {rs : List SubGroupRef} (h : b.HostsAll rows v ps rs)
    {p : Plan Op} (hp : Plan.Reads require ps p) : ∃ r, b.Hosts rows v p r ∧ b.Requires r := by
  cases hp with
  | top _ mem => exact h.exists_hosts mem
  | below mem part input =>
    obtain ⟨r, hr, -⟩ := h.exists_hosts mem
    obtain ⟨r', hr'⟩ := hr.part part
    cases hr' with
    | node below known congruent home typed => exact below.exists_hosts input

variable [DecidableEq Op]

mutual

/-- What stands for a plan in the one memo is mirrored by what it comes to in the other. -/
theorem Hosts.stands (hb : b.outline.Places) {o : Outline Op} (hv : o.Labelled b.seating v) {p : Plan Op}
    {r r' : SubGroupRef} : b.Hosts rows v p r' → o.Stands p r → v r.group = some r'.group ∧ r'.traits = r.traits
  | .ref r g leads, .ref _ => ⟨(hv.names r.group).trans leads, rfl⟩
  | .node below known congruent home typed, .node below' known' congruent' => by
    refine ⟨?_, rfl⟩
    rw [← hv.exprs _ _ _ known', b.seating.congruent v _ _ congruent']
    exact seat_of_entry hb (below.standAll hb hv below') known congruent

theorem HostsAll.standAll (hb : b.outline.Places) {o : Outline Op} (hv : o.Labelled b.seating v) {ps : List (Plan Op)}
    {rs rs' : List SubGroupRef} : b.HostsAll rows v ps rs' → o.StandAll ps rs →
      List.Forall₂ (fun r r' : SubGroupRef => v r.group = some r'.group ∧ r'.traits = r.traits) rs rs'
  | .nil, .nil => .nil
  | .cons first _ rest, .cons first' rest' => .cons (first.stands hb hv first') (rest.standAll hb hv rest')

end

end Hosts

/-! ## Mirrors -/

section Mirrors

variable {Op Q : Type} [DecidableEq Op]

/-- Every expression of the memo `m` is mirrored in `b`, every group by a live one of a row type that will do, and
every sub group that is required by one that is required. -/
structure Mirrors (b : Memo Op Q) (rows : RowType → RowType → Prop) (m : Memo Op Q) (v : GroupId → Option GroupId) :
    Prop where
  exprs : m.outline.Labelled b.seating v
  groups : ∀ g rowType, m.outline.rowType? g = some rowType →
    ∃ k c, v g = some k ∧ b.outline.group k = some c ∧ rows rowType c.rowType
  required : ∀ s r, m.outline.sub s = some r → m.IsRequired s →
    ∃ k, v r.group = some k ∧ b.Requires ⟨k, r.traits⟩

variable [Quantity Q] {b m m' : Memo Op Q} {rows : RowType → RowType → Prop} {v w : GroupId → Option GroupId}
variable {part : Operation Op → List (Plan Op) → Prop} {reads : Plan Op → Prop}

omit [DecidableEq Op] [Quantity Q] in
theorem isSome_rowType? {g : GroupId} (hg : (m.outline.group g).isSome) (hn : m.outline.Names) :
    (m.outline.rowType? g).isSome := by
  unfold Outline.rowType?
  rw [hn.reduce_of_live hg, Option.isSome_map]
  exact hg

omit [Quantity Q] in
theorem Mirrors.isSome (h : b.Mirrors rows m v) (hn : m.outline.Names) {g : GroupId} (hg : (m.outline.group g).isSome) :
    (v g).isSome := by
  obtain ⟨rowType, hrow⟩ := Option.isSome_iff_exists.1 (isSome_rowType? hg hn)
  obtain ⟨k, -, hk, -⟩ := h.groups g rowType hrow
  rw [hk]
  rfl

/-- What is mirrored now was mirrored before. -/
theorem Mirrors.earlier (h : b.Mirrors rows m' v) (hon : m.Onward m') (ht : m.outline.Tidy) : b.Mirrors rows m v where
  exprs := h.exprs.earlier (hon.evolves ht) (hon.tidy ht).sound.names
  groups g rowType hrow := by
    refine h.groups g rowType ?_
    have hnamed := named_of_rowType? ht.sound.names ((m.rowType?_eq g).trans hrow)
    rw [rowType?_of_edits ht hon.edits g hnamed, hrow]
  required s r hs hr := by
    obtain ⟨r', hr', htraits, hgroup⟩ := (hon.lineage ht).sub s r hs
    have hself := (anchored_of_tidy ht).reduceSubGroup_of_required hr
    obtain ⟨-, hup⟩ := hon.upholds (anchored_of_tidy ht)
    obtain ⟨k, hk, hrequires⟩ := h.required _ r' hr' (hup s (by rwa [hself]))
    refine ⟨k, ?_, hrequires.akin ⟨htraits, rfl⟩⟩
    rw [← h.exprs.names r.group, ← hgroup, h.exprs.names, hk]

omit [Quantity Q] in
/-- The mirrors of names that were never given out do not matter. -/
theorem Mirrors.congr (h : b.Mirrors rows m v) (ht : m.outline.Tidy) (hw : m.outline.Agree v w) :
    b.Mirrors rows m w where
  exprs := h.exprs.congr ht hw
  groups g rowType hrow := by
    rw [hw g (named_of_rowType? ht.sound.names ((m.rowType?_eq g).trans hrow))]
    exact h.groups g rowType hrow
  required s r hs hr := by
    obtain ⟨c, hc, -⟩ := (ht.indexed.filed s r hs).resolve_left id
    rw [hw _ (ht.sound.names.named_of_live (by rw [hc]; rfl))]
    exact h.required s r hs hr

/-- What is required is mirrored if it was required before, or is read as a plan that is hosted. -/
theorem Mirrors.asked (hb : b.outline.Places) (h : b.Mirrors rows m v) (hv : m'.outline.Labelled b.seating v)
    (hon : m.Onward m') (ht : m.outline.Tidy) (hasks : m.Asks m' reads)
    (hreads : ∀ p, reads p → ∃ r, b.Hosts rows v p r ∧ b.Requires r) :
    ∀ s r, m'.outline.sub s = some r → m'.IsRequired s → ∃ k, v r.group = some k ∧ b.Requires ⟨k, r.traits⟩ := by
  intro s r hs hr
  rcases hasks s hr with ⟨t, htr, rfl⟩ | ⟨p, r', hp, hstands, r'', hr'', htraits, hgroup⟩
  · obtain ⟨sub, hsub, -⟩ := id htr
    have hlive : m.outline.sub t = some sub.ref := by
      rw [outline_sub, hsub]
      rfl
    obtain ⟨r', hr', htraits, hgroup⟩ := (hon.lineage ht).sub t _ hlive
    cases hr'.symm.trans hs
    obtain ⟨k, hk, hrequires⟩ := h.required t _ hlive htr
    refine ⟨k, ?_, hrequires.akin ⟨htraits.symm, rfl⟩⟩
    rw [← hv.names, hgroup, hv.names, hk]
  · cases hr''.symm.trans hs
    obtain ⟨q, hhosts, hrequires⟩ := hreads p hp
    obtain ⟨hq, hsame⟩ := hhosts.stands hb hv hstands
    refine ⟨q.group, ?_, hrequires.akin ⟨hsame ▸ htraits.symm, rfl⟩⟩
    rw [← hv.names, hgroup, hv.names, hq]

/-- Where there are no new groups, it is enough that all expressions have their mirrors. -/
theorem Mirrors.later (hb : b.outline.Places) (h : b.Mirrors rows m v) (hv : m'.outline.Labelled b.seating v)
    (hon : m.Onward m') (ht : m.outline.Tidy) (hl : ∀ g, (m'.outline.group g).isSome → (m.outline.group g).isSome)
    (hasks : m.Asks m' fun _ => False) : b.Mirrors rows m' v where
  exprs := hv
  groups g rowType hrow := by
    have hn := (hon.tidy ht).sound.names
    have hlive : (m'.outline.group (m'.outline.reduce g)).isSome := by
      obtain ⟨c, hc, -⟩ := Option.map_eq_some_iff.1 hrow
      rw [hc]
      rfl
    have hold := hl _ hlive
    have hbefore := rowType?_of_edits ht hon.edits _ (ht.sound.names.named_of_live hold)
    have hsame : m'.outline.rowType? (m'.outline.reduce g) = m'.outline.rowType? g := by
      unfold Outline.rowType?
      rw [hn.reduce_reduce]
    rw [hsame, hrow] at hbefore
    rw [← hv.names g]
    exact h.groups _ rowType hbefore.symm
  required := h.asked hb hv hon ht hasks fun _ hp => hp.elim

/-- Where the memo grows, new groups are founded by operations that are hosted. -/
theorem Mirrors.grow (hb : b.outline.Places) (h : b.Mirrors rows m v) (hm : m.Orderly) (hm' : m'.Ordered [])
    (hgrown : m.outline.Grown m'.outline) (hon : m.Onward m') (hfounds : m.outline.Founds m'.outline part)
    (hasks : m.Asks m' reads)
    (hpart : ∀ w, b.Mirrors rows m w → ∀ head inputs, part head inputs → ∃ r, b.Hosts rows w (.node head inputs) r)
    (hreads : ∀ w, b.Mirrors rows m w → ∀ p, reads p → ∃ r, b.Hosts rows w p r ∧ b.Requires r) :
    ∃ w, b.Mirrors rows m' w ∧ m.outline.Agree v w := by
  have ht := hm.ordered.tidy
  have hn := hm'.tidy.sound.names
  obtain ⟨w, hw, hagree⟩ := hgrown.labelled ht h.exprs
  have hbefore := h.congr ht hagree
  refine ⟨w, ⟨hw, fun g rowType hrow => ?_, hbefore.asked hb hw hon ht hasks (hreads w hbefore)⟩, hagree⟩
  obtain ⟨c, hc, hcell⟩ := Option.map_eq_some_iff.1 hrow
  have hsame : m'.outline.rowType? (m'.outline.reduce g) = some rowType := by
    unfold Outline.rowType?
    rw [hn.reduce_reduce, hc, Option.map_some, hcell]
  rw [← hw.names g]
  by_cases hlive : (m.outline.group (m'.outline.reduce g)).isSome
  · have hold := rowType?_of_edits ht hon.edits _ (ht.sound.names.named_of_live hlive)
    rw [hsame] at hold
    exact hbefore.groups _ rowType hold.symm
  · -- the group is new, and so is its member
    obtain ⟨e, he⟩ := List.exists_mem_of_ne_nil _ (hgrown.filled ht hm.filled _ c hc)
    obtain ⟨y, hy⟩ := (hm'.tidy.sound.places.members _ c hc e).1 he
    have hnew : m.outline.entry e = none := by
      cases hentry : m.outline.entry e with
      | none => rfl
      | some p =>
        obtain ⟨y', k⟩ := p
        cases ((hgrown.keeps ht).entry e _ hentry).symm.trans hy
        exact absurd (ht.sound.places.home e _ _ hentry) hlive
    obtain ⟨head, inputs, hp, ⟨refs, y', hbelow, hy', hcongruent⟩, hhead⟩ := hfounds e y _ hy hnew
    obtain ⟨r, hhosts⟩ := hpart w hbefore head inputs hp
    obtain ⟨hleads, -⟩ := hhosts.stands hb hw (.node hbelow hy' hcongruent)
    cases hsame.symm.trans hhead
    cases hhosts with
    | node _ _ _ home typed => exact ⟨_, _, hleads, home, typed⟩

/-- Merging groups of one mirror leaves the mirrors as they are. -/
theorem Mirrors.merges {ps : List (GroupId × GroupId)} (hb : b.outline.Places) (h : b.Mirrors rows m v)
    (ht : m.outline.Tidy) (hmerges : m.outline.Merges ps m'.outline) (hon : m.Onward m')
    (hasks : m.Asks m' fun _ => False) (hps : ∀ p ∈ ps, v p.1 = v p.2) : b.Mirrors rows m' v :=
  h.later hb (hmerges.appraised (b.seating.discreet v) h.exprs hps) hon ht (fun _ => hmerges.live_of_live) hasks

end Mirrors

/-! ## Calls -/

section Calls

variable {Op Q : Type} [Operator Op] [Quantity Q] {b m m' : Memo Op Q} {rows : RowType → RowType → Prop}
variable {v : GroupId → Option GroupId}

theorem Call.onward (h : m.Call m') (ht : m.outline.Tidy) : m.Onward m' := ⟨h.edits ht, h.registry_eq, h.upholds⟩

/-- A price changes no mirrors. -/
theorem Mirrors.recordPrice {e : ExprId} {price : Price Q} (hb : b.outline.Places) (h : b.Mirrors rows m v)
    (hm : m.Orderly) (ok : Memo.recordPrice e price m = .ok m') : b.Mirrors rows m' v := by
  have ht := hm.ordered.tidy
  have hout := outline_recordPrice ok
  refine h.later hb (hout ▸ h.exprs) (Call.onward (.recordPrice ok) ht) ht (fun g => hout ▸ id) ?_
  exact (piecewise_traces.recordPrice ok).asks ht

omit [Quantity Q] in
theorem Mirrors.forgetChanges (h : b.Mirrors rows m v) : b.Mirrors rows m.forgetChanges v :=
  ⟨⟨h.exprs.names, h.exprs.exprs⟩, h.groups, h.required⟩

/-- A sub group that is asked for, but not in earnest, needs no mirror. -/
theorem Mirrors.request {r : SubGroupRef} {s : SubGroupId} (hb : b.outline.Places) (h : b.Mirrors rows m v)
    (hm : m.Orderly) (ok : ensureSubGroup r false m = .ok s m') :
    ∃ w, b.Mirrors rows m' w ∧ m.outline.Agree v w := by
  obtain ⟨hgrown, -, hm'⟩ := ensureSubGroup_grown hm.ordered ok
  have hasks : m.Asks m' fun _ => False := ensureSubGroup_asks hm.ordered ok fun hrequire => by cases hrequire
  have hfounds : m.outline.Founds m'.outline fun _ _ => False :=
    .of_entry_eq (entry_ensureSubGroup hm.ordered.tidy ok)
  exact h.grow hb hm hm' hgrown (Call.onward (.ensureSubGroup ok) hm.ordered.tidy) hfounds hasks
    (fun _ _ _ _ hp => hp.elim) fun _ _ _ hp => hp.elim

/-- Two groups of one mirror may be merged. -/
theorem Mirrors.identify {r : SubGroupRef} {g : GroupId} {e : Option ExprId} (hb : b.outline.Places)
    (h : b.Mirrors rows m v) (hm : m.Orderly) (ok : addTo (.group r) g m = .ok e m') (hg : v r.group = v g) :
    b.Mirrors rows m' v := by
  have ht := hm.ordered.tidy
  have hon := Call.onward (.addTo ok) ht
  obtain ⟨h₁, -⟩ := addTo_group_eq_ok ok
  refine h.merges hb ht (merge_merges hm.ordered h₁).1 hon ((traces_mergeAll h₁).asks ht) fun p hp => ?_
  rw [List.mem_singleton.1 hp]
  show v (m.outline.reduce g) = v (m.outline.reduce r.group)
  rw [h.exprs.names, h.exprs.names, hg]

/-- An operation may join a group if its mirror is in the mirror of the group, and all below it has one. -/
theorem Mirrors.addNode {n : PlanNode Op} {g : GroupId} {require : Bool} {e : Option ExprId} (hb : b.outline.Places)
    (h : b.Mirrors rows m v) (hm : m.Orderly) (ok : addNodeTo n g require m = .ok e m')
    (hpart : ∀ w, b.Mirrors rows m w → ∀ head inputs, (∃ p ∈ n.inputs, p.Has head inputs) →
      ∃ r, b.Hosts rows w (.node head inputs) r)
    (hreads : ∀ w, b.Mirrors rows m w → ∀ p, Plan.Reads require n.inputs p → ∃ r, b.Hosts rows w p r ∧ b.Requires r)
    (hroot : ∀ w, b.Mirrors rows m w → ∀ o : Outline Op, o.Labelled b.seating w → ∀ refs, o.StandAll n.inputs refs →
      b.seat w ⟨n.head.op, refs, n.head.data, n.head.traits⟩ = w g) :
    ∃ w, b.Mirrors rows m' w ∧ m.outline.Agree v w := by
  have hm' := (addNodeTo_joins hm.ordered ok).2
  obtain ⟨hcheck, refs, m₁, g', e', ok₁, hins, ok₂, -⟩ := addNodeTo_stages hm.ordered ok
  have ht := hm.ordered.tidy
  have hon := insertInputs_onward ht ok₁
  have ht₁ := hins.ordered.tidy
  obtain ⟨w, hw, hagree⟩ := h.grow hb hm hins.ordered hins.grown hon
    (insertInputs_founds n.head.op require n.inputs hm.ordered ok₁)
    (insertInputs_asks n.head.op require n.inputs hm.ordered ok₁) hpart hreads
  refine ⟨w, ?_, hagree⟩
  have hseat := hroot w (hw.earlier hon ht) _ hw.exprs refs hins.stand
  have hgg := ht₁.sound.names.reduce_reduce g
  have hfits : m₁.registry.check n.head.traits = .ok () := hon.registry ▸ hcheck
  have hon' : m₁.Onward m' := register_onward ht₁ hins.served (fun t h => by cases h; exact hgg) hfits ok₂
  have hasks : m₁.Asks m' fun _ => False := register_asks ht₁ hm'.tidy ok₂
  obtain ⟨-, ⟨y, k, hy, hc, hmerges⟩ | ⟨hlive, hapart, hout⟩⟩ := register_joins hins.ordered hins.served hgg ok₂
  · refine hw.merges hb ht₁ hmerges hon' hasks fun p hp => ?_
    rw [List.mem_singleton.1 hp]
    dsimp only
    rw [hw.exprs.names, ← hseat, ← hw.exprs.exprs _ _ _ hy]
    exact (b.seating.congruent w _ _ hc).symm
  · refine hw.later hb ?_ hon' ht₁ (fun k hk => ?_) hasks
    · rw [hout]
      refine ⟨hw.exprs.names, fun e x k hx => ?_⟩
      simp only [Outline.attach, enter] at hx
      split at hx
      · cases hx
        exact hseat.trans (hw.exprs.names g).symm
      · exact hw.exprs.exprs e x k hx
    · rw [hout, isSome_group_attach] at hk
      exact hk

/-- A plan may join a group if it is hosted in the mirror of the group. -/
theorem Mirrors.addTo {p : Plan Op} {g : GroupId} {e : Option ExprId} (hb : b.outline.Places)
    (h : b.Mirrors rows m v) (hm : m.Orderly) (ok : Memo.addTo p g m = .ok e m')
    (hp : ∀ w, b.Mirrors rows m w → ∃ r, b.Hosts rows w p r ∧ w g = some r.group) :
    ∃ w, b.Mirrors rows m' w ∧ m.outline.Agree v w := by
  cases p with
  | group r =>
    obtain ⟨r', hhosts, hg⟩ := hp v h
    cases hhosts with
    | ref _ k leads => exact ⟨v, h.identify hb hm ok (leads.trans hg.symm), fun _ _ => rfl⟩
  | node head inputs =>
    refine h.addNode hb hm ok (fun w hw head' inputs' hpart => ?_) (fun w hw p hreads => ?_)
      fun w hw o ho refs hstand => ?_
    · obtain ⟨r, hhosts, -⟩ := hp w hw
      obtain ⟨p, hmem, hhas⟩ := hpart
      exact hhosts.part (.inside hmem hhas)
    · obtain ⟨r, hhosts, -⟩ := hp w hw
      cases hhosts with
      | node below known congruent home typed => exact below.reads hreads
    · obtain ⟨r, hhosts, hg⟩ := hp w hw
      rw [hg]
      cases hhosts with
      | node below known congruent home typed => exact seat_of_entry hb (below.standAll hb ho hstand) known congruent

end Calls

end Memo

end PlanSearch
