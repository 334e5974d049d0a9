import PlanSearch.Proofs.Memo.Integrity
import PlanSearch.Proofs.Memo.MergeEdits
import PlanSearch.Proofs.Outline.Appraisal

/-!
# Merging is congruence closure

Merging two groups forces others to be merged: those of expressions that differ in their inputs only, as
soon as their inputs are on groups that are merged. What is merged in the end is exactly what is forced.
That nothing else is merged shows in an appraisal that labels every group with what it is forced to be
merged with. That nothing is left out is because congruent expressions are one expression in the end, and
every expression stays alike. A merge is refused only where it would unite groups of different row types.

    merge a b m = .ok () m' → (m'.reduceGroup g = m'.reduceGroup h ↔ m.Forced [(a, b)] g h)
                                                                            (Memo.Reached.merge_closure)
-/

namespace PlanSearch

universe u

open Outline

/-! ## Expressions up to the groups that they read -/

namespace Expr

variable {Op : Type} {V : Type u}

/-- The expressions agree, where the groups that they read are told apart by `R` only. -/
structure Matches (R : GroupId → GroupId → Prop) (x y : Expr Op) : Prop where
  op : x.op = y.op
  data : Value.SameOption x.data y.data
  traits : x.traits.Same y.traits
  count : x.inputs.length = y.inputs.length
  required : ∀ i (_ : i < x.inputs.length) (_ : i < y.inputs.length),
    (x.inputs[i]).traits.Same (y.inputs[i]).traits
  groups : ∀ i (_ : i < x.inputs.length) (_ : i < y.inputs.length),
    R (x.inputs[i]).group (y.inputs[i]).group

/-- What is left of an expression where groups are told apart by their labels only. -/
def shape (v : GroupId → V) (x : Expr Op) : Op × Option Value × TraitSet × List (TraitSet × V) :=
  (x.op, x.data.map Value.canon, x.traits.canon, x.inputs.map fun r => (r.traits.canon, v r.group))

theorem shape_eq_iff {v : GroupId → V} {x y : Expr Op} :
    x.shape v = y.shape v ↔ x.Matches (fun g h => v g = v h) y := by
  unfold shape
  rw [Prod.mk.injEq, Prod.mk.injEq, Prod.mk.injEq]
  constructor
  · rintro ⟨hop, hdata, htraits, hin⟩
    have hlen := congrArg List.length hin
    rw [List.length_map, List.length_map] at hlen
    have hget : ∀ i (h : i < x.inputs.length) (h' : i < y.inputs.length),
        ((x.inputs[i]).traits.canon, v (x.inputs[i]).group)
          = ((y.inputs[i]).traits.canon, v (y.inputs[i]).group) := by
      intro i h h'
      have hi := congrArg (fun l => l[i]?) hin
      simpa [List.getElem?_map, h, h'] using hi
    exact ⟨hop, hdata, htraits, hlen, fun i h h' => congrArg Prod.fst (hget i h h'),
      fun i h h' => congrArg Prod.snd (hget i h h')⟩
  · rintro ⟨hop, hdata, htraits, hlen, hreq, hgroups⟩
    refine ⟨hop, hdata, htraits, List.ext_getElem (by simpa using hlen) fun i h h' => ?_⟩
    rw [List.getElem_map, List.getElem_map]
    rw [List.length_map] at h h'
    exact Prod.ext (hreq i h h') (hgroups i h h')

theorem shape_congruent (v : GroupId → V) {x y : Expr Op} (h : x.Congruent y) :
    x.shape v = y.shape v := by
  have hc : x.canon = y.canon := h
  have hop : x.op = y.op := (congrArg Expr.op hc :)
  have hdata : x.data.map Value.canon = y.data.map Value.canon := (congrArg Expr.data hc :)
  have htraits : x.traits.canon = y.traits.canon := (congrArg Expr.traits hc :)
  have hin : x.inputs.map SubGroupRef.canon = y.inputs.map SubGroupRef.canon :=
    (congrArg Expr.inputs hc :)
  have hl : ∀ z : Expr Op, z.inputs.map (fun r => (r.traits.canon, v r.group))
      = (z.inputs.map SubGroupRef.canon).map fun r => (r.traits, v r.group) := by
    intro z
    rw [List.map_map]
    rfl
  unfold shape
  rw [hop, hdata, htraits, hl x, hl y, hin]

/-- Two expressions are alike if they have one shape over the live groups. -/
theorem shape_reduce_iff {o : Outline Op} {x y : Expr Op} :
    x.shape o.reduce = y.shape o.reduce ↔ o.Alike x y := by
  constructor
  · intro h
    simp only [shape, Prod.mk.injEq] at h
    obtain ⟨hop, hdata, htraits, hin⟩ := h
    have hc : ∀ z : Expr Op, (z.inputs.map o.reduceRef).map SubGroupRef.canon
        = (z.inputs.map fun r => (r.traits.canon, o.reduce r.group)).map
            fun p => (⟨p.2, p.1⟩ : SubGroupRef) := by
      intro z
      rw [List.map_map, List.map_map]
      rfl
    show (o.settled x).canon = (o.settled y).canon
    simp only [canon, settled, hc, hin, hop, hdata, htraits]
  · intro h
    have hs : ∀ z : Expr Op, (o.settled z).shape (fun g => g) = z.shape o.reduce := by
      intro z
      simp only [shape, settled, List.map_map, Function.comp_def, reduceRef]
    rw [← hs x, ← hs y]
    exact shape_congruent _ h

end Expr

/-- Where everything is tidy, expressions that are alike are one. -/
theorem Outline.Tidy.eq_of_alike {Op : Type} {o : Outline Op} (h : o.Tidy) {e e' : ExprId}
    {x y : Expr Op} {g k : GroupId} (hx : o.entry e = some (x, g)) (hy : o.entry e' = some (y, k))
    (ha : o.Alike x y) : e = e' := by
  have hsettled : ∀ {e₀ : ExprId} {z : Expr Op} {k₀ : GroupId}, o.entry e₀ = some (z, k₀) →
      o.settled z = z := by
    intro e₀ z k₀ hz
    have hin : z.inputs.map o.reduceRef = z.inputs := by
      refine (List.map_congr_left fun r hr => ?_).trans (List.map_id _)
      show (⟨o.reduce r.group, r.traits⟩ : SubGroupRef) = r
      rw [h.reduce_input hz hr]
    rw [settled, hin]
  unfold Alike at ha
  rw [hsettled hx, hsettled hy] at ha
  exact h.sound.places.apart _ _ _ _ _ _ hx hy ha

namespace Memo

variable {Op Q : Type}

/-! ## What a merge forces -/

/-- The groups `g` and `h` are forced to be merged by merging the pairs `ps`: the least equivalence of the
live groups that relates the two groups of every pair, and the groups of any two expressions that agree up
to related groups of their inputs. -/
inductive Forced (m : Memo Op Q) (ps : List (GroupId × GroupId)) : GroupId → GroupId → Prop
  | pair {a b : GroupId} (given : (a, b) ∈ ps) : Forced m ps (m.reduceGroup a) (m.reduceGroup b)
  | congruent {e e' : ExprId} {x y : Entry Op Q} (known : m.exprs[e]? = some x)
      (other : m.exprs[e']? = some y) (op : x.expr.op = y.expr.op)
      (data : Value.SameOption x.expr.data y.expr.data) (traits : x.expr.traits.Same y.expr.traits)
      (count : x.expr.inputs.length = y.expr.inputs.length)
      (required : ∀ i (_ : i < x.expr.inputs.length) (_ : i < y.expr.inputs.length),
        (x.expr.inputs[i]).traits.Same (y.expr.inputs[i]).traits)
      (groups : ∀ i (_ : i < x.expr.inputs.length) (_ : i < y.expr.inputs.length),
        Forced m ps (x.expr.inputs[i]).group (y.expr.inputs[i]).group) :
      Forced m ps x.group y.group
  | refl {g : GroupId} (live : g ∈ m.groups) : Forced m ps g g
  | symm {g h : GroupId} (forced : Forced m ps g h) : Forced m ps h g
  | trans {g h k : GroupId} (first : Forced m ps g h) (second : Forced m ps h k) : Forced m ps g k

section Forced

variable {m : Memo Op Q} {ps qs : List (GroupId × GroupId)} {g h : GroupId}

/-- Neither the order of the pairs matters nor which group of a pair comes first. -/
theorem Forced.mono (hf : m.Forced ps g h) (hs : ∀ p ∈ ps, p ∈ qs ∨ p.swap ∈ qs) :
    m.Forced qs g h := by
  induction hf with
  | @pair a b given =>
    rcases hs (a, b) given with hp | hp
    · exact .pair hp
    · exact .symm (.pair hp)
  | congruent known other op data traits count required _ ih =>
    exact .congruent known other op data traits count required ih
  | refl live => exact .refl live
  | symm _ ih => exact .symm ih
  | trans _ _ ih₁ ih₂ => exact .trans ih₁ ih₂

/-- Only live groups are forced to be merged. -/
theorem Forced.live (hf : m.Forced ps g h) (ht : m.outline.Tidy)
    (hps : ∀ p ∈ ps, m.reduceGroup p.1 ∈ m.groups ∧ m.reduceGroup p.2 ∈ m.groups) :
    g ∈ m.groups ∧ h ∈ m.groups := by
  have hhome : ∀ {e : ExprId} {x : Entry Op Q}, m.exprs[e]? = some x → x.group ∈ m.groups := fun hx =>
    (outline_group_isSome m _).1 (ht.sound.places.home _ _ _ (outline_entry_of hx))
  induction hf with
  | @pair a b given => exact hps (a, b) given
  | congruent known other => exact ⟨hhome known, hhome other⟩
  | refl live => exact ⟨live, live⟩
  | symm _ ih => exact ih.symm
  | trans _ _ ih₁ ih₂ => exact ⟨ih₁.1, ih₂.2⟩

/-- All groups that a group is forced to be merged with. -/
def forcedWith (m : Memo Op Q) (ps : List (GroupId × GroupId)) (g : GroupId) : GroupId → Prop :=
  m.Forced ps (m.reduceGroup g)

/-- All groups that a group with an expression of this shape is forced to be merged with. -/
def forcedBy (m : Memo Op Q) (ps : List (GroupId × GroupId)) (x : Expr Op) (h : GroupId) : Prop :=
  ∃ (e : ExprId) (y : Entry Op Q), m.exprs[e]? = some y ∧
    y.expr.shape (m.forcedWith ps) = x.shape (m.forcedWith ps) ∧ m.Forced ps y.group h

theorem forcedWith_eq_iff (hg : g ∈ m.groups) (hh : h ∈ m.groups) (hn : m.outline.Names) :
    m.forcedWith ps g = m.forcedWith ps h ↔ m.Forced ps g h := by
  have hred : ∀ k ∈ m.groups, m.reduceGroup k = k := fun k hk =>
    hn.reduce_of_live ((outline_group_isSome m k).2 hk)
  unfold forcedWith
  rw [hred g hg, hred h hh]
  constructor
  · intro he
    rw [he]
    exact .refl hh
  · intro hf
    funext k
    exact propext ⟨fun hk => hf.symm.trans hk, fun hk => hf.trans hk⟩

/-- Labelling groups with what they are forced to be merged with is an appraisal. -/
theorem appraised_forcedWith (ht : m.outline.Tidy) :
    Discreet (m.forcedBy ps) (m.forcedWith ps) ∧
      m.outline.Appraised (m.forcedBy ps) (m.forcedWith ps) := by
  have hdef : ∀ x y : Expr Op, x.shape (m.forcedWith ps) = y.shape (m.forcedWith ps) →
      m.forcedBy ps x = m.forcedBy ps y := by
    intro x y h
    funext k
    unfold forcedBy
    rw [h]
  refine ⟨⟨fun x y h => hdef x y (x.shape_congruent _ h), fun f hf x => hdef _ x ?_⟩, ?_, ?_⟩
  · simp only [Expr.shape, List.map_map, Function.comp_def, hf]
  · intro k
    show m.Forced ps (m.outline.reduce (m.outline.reduce k)) = m.Forced ps (m.outline.reduce k)
    rw [ht.sound.names.reduce_reduce]
  · intro e x k hx
    obtain ⟨entry, he, rfl, rfl⟩ := exists_entry hx
    have hlive := ht.sound.places.home e _ _ hx
    have hred : m.reduceGroup entry.group = entry.group := ht.sound.names.reduce_of_live hlive
    funext h
    unfold forcedWith
    rw [hred]
    refine propext ⟨?_, fun hf => ⟨e, entry, he, rfl, hf⟩⟩
    rintro ⟨e', y, hy, hshape, hf⟩
    have hy' := outline_entry_of hy
    have hm := Expr.shape_eq_iff.1 hshape
    refine .trans (.symm ?_) hf
    refine .congruent hy he hm.op hm.data hm.traits hm.count hm.required fun i hi hi' => ?_
    have hlive : ∀ {e₀ : ExprId} {z : Expr Op} {k₀ : GroupId} {r : SubGroupRef},
        m.outline.entry e₀ = some (z, k₀) → r ∈ z.inputs → r.group ∈ m.groups := fun hz hr =>
      (outline_group_isSome m _).1 (ht.ready _ _ _ hz _ hr).isSome
    exact (forcedWith_eq_iff (hlive hy' (List.getElem_mem hi)) (hlive hx (List.getElem_mem hi'))
      ht.sound.names).1 (hm.groups i hi hi')

/-- What is forced is merged wherever the pairs are, and no two expressions are alike. -/
theorem Forced.reduce_eq {o' : Outline Op} (hf : m.Forced ps g h)
    (he : m.outline.Evolves ps o' []) (ho' : o'.Tidy) : o'.reduce g = o'.reduce h := by
  have hn := ho'.sound.names
  induction hf with
  | @pair a b given =>
    show o'.reduce (m.outline.reduce a) = o'.reduce (m.outline.reduce b)
    rw [he.group, he.group]
    exact hn.linked_nil_iff.1 (he.pairs (a, b) given)
  | @congruent e e' x y known other op data traits count required groups ih =>
    obtain ⟨x', hx', hax⟩ := he.entry_settled ho'.sound (outline_entry_of known)
    obtain ⟨y', hy', hay⟩ := he.entry_settled ho'.sound (outline_entry_of other)
    have hxy : o'.Alike x.expr y.expr :=
      Expr.shape_reduce_iff.1 (Expr.shape_eq_iff.2 ⟨op, data, traits, count, required, ih⟩)
    have hee := ho'.eq_of_alike hx' hy' ((hax.symm.trans hxy).trans hay)
    rw [hee, hy'] at hx'
    exact (congrArg Prod.snd (Option.some.inj hx')).symm
  | refl => rfl
  | symm _ ih => exact ih.symm
  | trans _ _ ih₁ ih₂ => exact ih₁.trans ih₂

end Forced

end Memo

/-! ## Row types -/

namespace Outline

variable {Op : Type}

/-- The row type of the group that a name stands for. -/
def rowType? (o : Outline Op) (g : GroupId) : Option RowType :=
  (o.group (o.reduce g)).map Cell.rowType

/-- A name that was given out stands for a live group. -/
theorem Names.live_reduce {o : Outline Op} (h : o.Names) {g : GroupId} (hg : (o.groupRep g).isSome) :
    (o.group (o.reduce g)).isSome := by
  obtain ⟨r, hr⟩ := Option.isSome_iff_exists.1 hg
  rw [reduce, hr, Option.getD_some]
  exact (h.groups.live_iff r).2 (h.groups.rep_rep g r hr)

theorem Absorbs.groupRep {o o' : Outline Op} {keep absorbed : GroupId}
    {more : List (GroupId × GroupId)} (h : o.Absorbs keep absorbed o' more) (g : GroupId) :
    o'.groupRep g = if o.groupRep g = some absorbed then some keep else o.groupRep g := by
  cases h with
  | intro tidy ne live known shifts tidy' => exact congrFun shifts.frame.1 g

/-- The groups that are to be merged next have names. -/
theorem Absorbs.named {o o' : Outline Op} {keep absorbed : GroupId}
    {more : List (GroupId × GroupId)} (h : o.Absorbs keep absorbed o' more) :
    ∀ p ∈ more, (o'.groupRep p.1).isSome ∧ (o'.groupRep p.2).isSome := by
  have step : ∀ {a b : Outline Op × List (GroupId × GroupId)}, Shift keep absorbed a b →
      (∀ p ∈ a.2, (a.1.groupRep p.1).isSome ∧ (a.1.groupRep p.2).isSome) →
      ∀ p ∈ b.2, (b.1.groupRep p.1).isSome ∧ (b.1.groupRep p.2).isSome := by
    intro a b hs ha
    cases hs with
    | fold | hand | rewrite => exact ha
    | @drop o ps e twin x y k k' sound gone known ne other congruent =>
      have hhome : ∀ {e₀ z k₀}, o.entry e₀ = some (z, k₀) → (o.groupRep k₀).isSome := fun hz => by
        rw [sound.names.groupRep_of_live (sound.places.home _ _ _ hz)]; rfl
      intro p hp
      dsimp only at hp
      split at hp
      · exact ha p hp
      · rcases List.mem_append.1 hp with hp | hp
        · exact ha p hp
        · rw [List.mem_singleton.1 hp]
          exact ⟨hhome other, hhome known⟩
  cases h with
  | @intro gone o₁ _ tidy ne live known shifts tidy' =>
    have hall : ∀ {b : Outline Op × List (GroupId × GroupId)},
        Shifts keep absorbed (o.takeIn keep absorbed gone, []) b →
        ∀ p ∈ b.2, (b.1.groupRep p.1).isSome ∧ (b.1.groupRep p.2).isSome := by
      intro b hb
      induction hb with
      | refl => exact fun p hp => by cases hp
      | tail _ hs ih => exact step hs ih
    exact hall shifts

/-- Merging gives out no names. -/
theorem Merges.named_of_named {o o' : Outline Op} {ps : List (GroupId × GroupId)}
    (h : o.Merges ps o') {g : GroupId} (hg : (o'.groupRep g).isSome) : (o.groupRep g).isSome := by
  induction h with
  | done => exact hg
  | skip _ _ ih => exact ih hg
  | absorb _ first _ ih =>
    have hi := ih hg
    rw [first.groupRep] at hi
    split at hi
    · next hr => rw [hr]; rfl
    · exact hi

end Outline

section RowTypes

variable {Op Q : Type} [Quantity Q] {terms : Terms Op Q} {w w' : Work Op Q} {g : GroupId}

/-- Names once given out stay so. -/
theorem Edit.named (h : Edit terms w w') (hg : (w.outline.groupRep g).isSome) :
    (w'.outline.groupRep g).isSome := by
  cases h with
  | found =>
    simp only [Outline.found, enter]
    split
    · rfl
    · exact hg
  | takeIn =>
    simp only [Outline.takeIn]
    split
    · rfl
    · exact hg
  | _ => exact hg

/-- No edit changes the row type that a name of a group stands for. -/
theorem Edit.rowType?_eq (h : Edit terms w w') (hw : w.Sound) (hg : (w.outline.groupRep g).isSome) :
    w'.outline.rowType? g = w.outline.rowType? g := by
  have hn := hw.outline.names
  cases h with
  | openSub =>
    simp only [Outline.rowType?, Outline.reduce, Outline.openSub]
    split
    · rw [Option.map_map]; rfl
    · rfl
  | attach =>
    simp only [Outline.rowType?, Outline.reduce, Outline.attach, enter]
    split
    · rw [Option.map_map, Option.map_map]; rfl
    · rw [Option.map_map]; rfl
  | @found x rowType facts idle ready apart =>
    have hne : w.outline.reduce g ≠ ⟨w.outline.next + 1⟩ := by
      intro he
      have hlive := hn.live_reduce hg
      rw [he, hn.fresh_group (Nat.le_succ _)] at hlive
      cases hlive
    unfold Outline.rowType?
    rw [hn.reduce_found]
    simp only [Outline.found, enter]
    rw [if_neg hne, Option.map_map]
    rfl
  | @takeIn p ps keep absorbed kept gone hadReaders idle next pair ne live known rowType readers =>
    unfold Outline.rowType?
    rw [hn.reduce_takeIn (by rw [known]; rfl)]
    by_cases hr : w.outline.reduce g = absorbed
    · rw [if_pos hr, hr, known]
      simp only [Outline.takeIn]
      rw [if_neg ne, if_pos trivial, live]
      exact congrArg some rowType
    · rw [if_neg hr]
      simp only [Outline.takeIn]
      rw [if_neg hr]
      split
      · rw [Option.map_map]; rfl
      · rfl
  | hand =>
    simp only [Outline.rowType?, Outline.reduce, Outline.handSub]
    split
    · rw [Option.map_map]; rfl
    · rfl
  | drop =>
    simp only [Outline.rowType?, Outline.reduce, Outline.drop]
    rw [Option.map_map]
    rfl
  | _ => rfl

theorem Edits.rowType?_eq (h : Edits terms w w') (hw : w.Sound)
    (hg : (w.outline.groupRep g).isSome) :
    (w'.outline.groupRep g).isSome ∧ w'.outline.rowType? g = w.outline.rowType? g := by
  induction h with
  | refl => exact ⟨hg, rfl⟩
  | tail hr hs ih => exact ⟨hs.named ih.1, (hs.rowType?_eq (Edits.sound hr hw) ih.1).trans ih.2⟩

end RowTypes

/-! ## Merging what is forced -/

namespace Memo

variable {Op Q : Type} {V : Type u} {m m' : Memo Op Q} {ps : List (GroupId × GroupId)}

/-- Where groups of one label have one row type, and all pairs have one label, nothing is refused. -/
structure Mergeable (m : Memo Op Q) (φ : Expr Op → V) (v : GroupId → V)
    (ps : List (GroupId × GroupId)) : Prop where
  discreet : Discreet φ v
  balanced : Balanced φ v (m.outline, ps)
  rowTypes : ∀ g h, (m.outline.groupRep g).isSome → (m.outline.groupRep h).isSome → v g = v h →
    m.outline.rowType? g = m.outline.rowType? h
  named : ∀ p ∈ ps, (m.outline.groupRep p.1).isSome ∧ (m.outline.groupRep p.2).isSome

/-- What can be merged can be merged later, with what else is pending then. -/
theorem Mergeable.later {φ : Expr Op → V} {v : GroupId → V} {qs : List (GroupId × GroupId)}
    (hv : m.Mergeable φ v ps) (hb : Balanced φ v (m'.outline, qs))
    (hback : ∀ g, (m'.outline.groupRep g).isSome → (m.outline.groupRep g).isSome)
    (hrow : ∀ g, (m.outline.groupRep g).isSome →
      (m'.outline.groupRep g).isSome ∧ m'.outline.rowType? g = m.outline.rowType? g)
    (hq : ∀ q ∈ qs, q ∈ ps ∨ (m'.outline.groupRep q.1).isSome ∧ (m'.outline.groupRep q.2).isSome) :
    m'.Mergeable φ v qs where
  discreet := hv.discreet
  balanced := hb
  rowTypes g h hg hh hgh := by
    rw [(hrow g (hback g hg)).2, (hrow h (hback h hh)).2]
    exact hv.rowTypes g h (hback g hg) (hback h hh) hgh
  named q hmem := by
    rcases hq q hmem with hp | hn
    · exact ⟨(hrow _ (hv.named q hp).1).1, (hrow _ (hv.named q hp).2).1⟩
    · exact hn

section Merging

variable [Quantity Q] [DecidableEq Op]

/-- The next two groups are live and of one row type, so they can be merged. -/
theorem Mergeable.mergePair {φ : Expr Op → V} {v : GroupId → V} {p : GroupId × GroupId} (hv : m.Mergeable φ v (p :: ps))
    (hm : m.Ordered (p :: ps)) (hne : m.reduceGroup p.1 ≠ m.reduceGroup p.2) :
    ∃ m' more, Memo.mergePair (m.reduceGroup p.1) (m.reduceGroup p.2) m = .ok (m', more) := by
  have hnames := hm.tidy.sound.names
  obtain ⟨hp₁, hp₂⟩ := hv.named p List.mem_cons_self
  obtain ⟨ca, hca⟩ := Option.isSome_iff_exists.1 (hnames.live_reduce hp₁)
  obtain ⟨cb, hcb⟩ := Option.isSome_iff_exists.1 (hnames.live_reduce hp₂)
  obtain ⟨ga, -, hga, hcella⟩ := exists_liveGroup hca
  obtain ⟨gb, -, hgb, hcellb⟩ := exists_liveGroup hcb
  have hrow : ga.rowType = gb.rowType := by
    have hr := hv.rowTypes p.1 p.2 hp₁ hp₂ (hv.balanced.2 p List.mem_cons_self)
    unfold Outline.rowType? at hr
    rw [hca, hcb, ← hcella, ← hcellb] at hr
    exact Option.some.inj hr
  obtain ⟨m₁, more, hpair, -⟩ := mergePair_edits (P := .free) (sound_of_tidy hm.tidy (p :: ps)) hga hgb hne hrow
  exact ⟨m₁, more, hpair⟩

/-- Whatever is merged first, the rest can be merged still. -/
theorem mergeAll_total {φ : Expr Op → V} {v : GroupId → V} (hm : m.Ordered ps)
    (hv : m.Mergeable φ v ps) : ∃ m', mergeAll m ps = .ok () m' := by
  have hrun := mergeAll_run m ps
  generalize mergeAll m ps = r at hrun ⊢
  induction hrun with
  | done m => exact ⟨m, rfl⟩
  | skip same _ ih =>
    exact ih (hm.skip same) ⟨hv.discreet, ⟨hv.balanced.1, fun q hq => hv.balanced.2 q (List.mem_cons_of_mem _ hq)⟩,
      hv.rowTypes, fun q hq => hv.named q (List.mem_cons_of_mem _ hq)⟩
  | refuse ps ne no =>
    obtain ⟨m₁, more, hpair⟩ := hv.mergePair hm ne
    rw [hpair] at no
    cases no
  | @merge m m₁ p ps more _ ne ok _ ih =>
    have hsound := sound_of_tidy hm.tidy (p :: ps)
    have hedits := edits_of_mergePair (P := .free) hsound ne ok
    obtain ⟨keep, absorbed, hkeep, habs, hm₁⟩ := mergePair_absorbs hm ne ok
    refine ih hm₁ (hv.later (habs.balanced_append hv.discreet hv.balanced hkeep) (fun g hg => ?_)
      (fun g hg => hedits.rowType?_eq hsound hg) fun q hq => ?_)
    · rw [habs.groupRep] at hg
      split at hg
      · next hr => rw [hr]; rfl
      · exact hg
    · exact (List.mem_append.1 hq).imp (List.mem_cons_of_mem _) (habs.named q)

end Merging

/-! ### Several merges -/

section Calls

variable [Quantity Q] [Operator Op]

/-- Merges several pairs of groups, one call after the other. -/
def mergeEach (ps : List (GroupId × GroupId)) : Update Op Q Unit := ps.forM fun p => merge p.1 p.2

theorem mergeEach_singleton (a b : GroupId) :
    (mergeEach [(a, b)] : Update Op Q Unit) = merge a b := by
  funext m
  show EStateM.bind (merge a b) (fun _ => pure ()) m = merge a b m
  unfold EStateM.bind
  cases merge a b m <;> rfl

/-- What calls for merges come to: old names stand for what they stood for, all pairs are merged, every
appraisal that is fair to them is kept, and so are the row types. -/
structure Merged (m m' : Memo Op Q) (ps : List (GroupId × GroupId)) : Prop where
  orderly : m'.Orderly
  evolves : m.outline.Evolves ps m'.outline []
  rowTypes : ∀ g, (m.outline.groupRep g).isSome →
    (m'.outline.groupRep g).isSome ∧ m'.outline.rowType? g = m.outline.rowType? g

theorem merged_of_merge {a b : GroupId} (hm : m.Orderly) (h : merge a b m = .ok () m') :
    m.Merged m' [(a, b)] ∧ m.outline.Merges [(a, b)] m'.outline := by
  obtain ⟨hmerges, hord⟩ := merge_merges hm.ordered h
  have ht := hm.ordered.tidy
  refine ⟨⟨⟨hord, hmerges.filled ht hm.filled⟩, hmerges.evolves ht, fun g hg => ?_⟩, hmerges⟩
  have hedits := mergeAll_edits (P := .free) (sound_of_tidy ht [(a, b)])
  rw [show mergeAll m [(a, b)] = .ok () m' from h] at hedits
  exact Edits.rowType?_eq hedits (sound_of_tidy ht _) hg

/-- Merging pairs one after the other. The induction is on the pairs. -/
theorem mergeEach_merged (hm : m.Orderly) (h : mergeEach ps m = .ok () m') :
    m.Merged m' ps ∧ ∀ {V : Type u} {φ : Expr Op → V} {v : GroupId → V}, Discreet φ v →
      Balanced φ v (m.outline, ps) → m'.outline.Appraised φ v := by
  induction ps generalizing m with
  | nil =>
    obtain ⟨-, rfl⟩ := run_pure_eq_ok (h : (pure () : Update Op Q Unit) m = .ok () m')
    exact ⟨⟨hm, .refl hm.ordered.tidy.sound.names, fun g hg => ⟨hg, rfl⟩⟩, fun _ hb => hb.1⟩
  | cons p ps ih =>
    obtain ⟨_, m₁, h₁, h₂⟩ := run_bind_eq_ok
      (h : (merge p.1 p.2 >>= fun _ => mergeEach ps : Update Op Q Unit) m = .ok () m')
    obtain ⟨hfirst, hmerges⟩ := merged_of_merge hm h₁
    obtain ⟨hrest, happraised⟩ := ih hfirst.orderly h₂
    refine ⟨⟨hrest.orderly, ?_, fun g hg => ?_⟩, fun hd hb => ?_⟩
    · have he := (hfirst.evolves.append ps).trans (by rw [List.append_nil]; exact hrest.evolves)
      exact ⟨he.group, he.expr, he.entry, fun q hq => he.pairs q (by
        rcases List.mem_cons.1 hq with rfl | hq
        · exact List.mem_append_right _ (by simp)
        · exact List.mem_append_left _ hq)⟩
    · obtain ⟨hg₁, hr₁⟩ := hfirst.rowTypes g hg
      obtain ⟨hg₂, hr₂⟩ := hrest.rowTypes g hg₁
      exact ⟨hg₂, hr₂.trans hr₁⟩
    · refine happraised hd ⟨hmerges.appraised hd hb.1 fun q hq => ?_,
        fun q hq => hb.2 q (List.mem_cons_of_mem _ hq)⟩
      rw [List.mem_singleton.1 hq]
      exact hb.2 p List.mem_cons_self

/-- Calls for merges of groups of one label are not refused. -/
theorem mergeEach_total {φ : Expr Op → V} {v : GroupId → V} (hm : m.Orderly)
    (hv : m.Mergeable φ v ps) : ∃ m', mergeEach ps m = .ok () m' := by
  induction ps generalizing m with
  | nil => exact ⟨m, rfl⟩
  | cons p ps ih =>
    have hp : m.Ordered [p] := ⟨hm.ordered.tidy, fun s g e hs => by
      obtain ⟨x, k, hx, hl⟩ := hm.ordered.crowned s g e hs
      exact ⟨x, k, hx, hl.mono fun _ hq => by cases hq⟩, hm.ordered.counted⟩
    obtain ⟨m₁, h₁⟩ := mergeAll_total hp ⟨hv.discreet, ⟨hv.balanced.1, fun q hq =>
      hv.balanced.2 q (List.mem_singleton.1 hq ▸ List.mem_cons_self)⟩, hv.rowTypes, fun q hq =>
      hv.named q (List.mem_singleton.1 hq ▸ List.mem_cons_self)⟩
    obtain ⟨hfirst, hmerges⟩ := merged_of_merge (a := p.1) (b := p.2) hm h₁
    have hnext : m₁.Mergeable φ v ps := by
      refine hv.later ⟨hmerges.appraised hv.discreet hv.balanced.1 fun q hq => ?_, fun q hq => ?_⟩
        (fun g hg => hmerges.named_of_named hg) hfirst.rowTypes
        fun q hq => .inl (List.mem_cons_of_mem _ hq)
      · exact hv.balanced.2 q (List.mem_singleton.1 hq ▸ List.mem_cons_self)
      · exact hv.balanced.2 q (List.mem_cons_of_mem _ hq)
    obtain ⟨m', h'⟩ := ih hfirst.orderly hnext
    refine ⟨m', ?_⟩
    show EStateM.bind (merge p.1 p.2) (fun _ => mergeEach ps) m = _
    unfold EStateM.bind
    rw [show merge p.1 p.2 m = .ok () m₁ from h₁]
    exact h'

/-! ### The closure -/

/-- All groups that are forced to be merged have one row type. -/
def Uniform (m : Memo Op Q) (ps : List (GroupId × GroupId)) : Prop :=
  ∀ g h, m.Forced ps g h → (m.groups[g]?).map Group.rowType = (m.groups[h]?).map Group.rowType

omit [Quantity Q] [Operator Op] in
theorem rowType?_of_live (hn : m.outline.Names) {g : GroupId} (hg : g ∈ m.groups) :
    m.outline.rowType? g = (m.groups[g]?).map Group.rowType := by
  unfold Outline.rowType?
  rw [hn.reduce_of_live ((outline_group_isSome m g).2 hg), outline_group, Option.map_map]
  rfl

/-- Calls for merges unite what they force, unless that has different row types. -/
theorem Orderly.mergeEach_iff (hm : m.Orderly)
    (hps : ∀ p ∈ ps, m.reduceGroup p.1 ∈ m.groups ∧ m.reduceGroup p.2 ∈ m.groups) :
    ((∃ m', mergeEach ps m = .ok () m') ↔ m.Uniform ps) ∧
      ∀ m', mergeEach ps m = .ok () m' → ∀ g ∈ m.groups, ∀ h ∈ m.groups,
        (m'.reduceGroup g = m'.reduceGroup h ↔ m.Forced ps g h) := by
  have ht := hm.ordered.tidy
  have hn := ht.sound.names
  have hlive : ∀ {g}, g ∈ m.groups → (m.outline.groupRep g).isSome := fun hg => by
    rw [hn.groupRep_of_live ((outline_group_isSome m _).2 hg)]; rfl
  obtain ⟨hd, ha⟩ : Discreet (m.forcedBy ps) (m.forcedWith ps) ∧
      m.outline.Appraised (m.forcedBy ps) (m.forcedWith ps) := appraised_forcedWith ht
  have hb : Balanced (m.forcedBy ps) (m.forcedWith ps) (m.outline, ps) := by
    refine ⟨ha, fun p hp => ?_⟩
    have hpair := (forcedWith_eq_iff (hps p hp).1 (hps p hp).2 hn).2 (.pair hp)
    rw [← ha.names p.1, ← ha.names p.2]
    exact hpair
  refine ⟨⟨fun ⟨m', h⟩ g k hf => ?_, fun hu => ?_⟩, fun m' h g hg k hk => ?_⟩
  · obtain ⟨hmerged, -⟩ := mergeEach_merged.{0} hm h
    obtain ⟨hg, hk⟩ := hf.live ht hps
    have hred := hf.reduce_eq hmerged.evolves hmerged.orderly.ordered.tidy
    rw [← rowType?_of_live hn hg, ← rowType?_of_live hn hk, ← (hmerged.rowTypes g (hlive hg)).2,
      ← (hmerged.rowTypes k (hlive hk)).2]
    unfold Outline.rowType?
    rw [hred]
  · refine mergeEach_total hm ⟨hd, hb, fun g k hg hk hgk => ?_, fun p hp => ?_⟩
    · have hmem : ∀ {g}, (m.outline.groupRep g).isSome → m.reduceGroup g ∈ m.groups := fun hg =>
        (outline_group_isSome m _).1 (hn.live_reduce hg)
      have hrow : ∀ {g}, (m.outline.groupRep g).isSome → m.outline.rowType? g
          = (m.groups[m.reduceGroup g]?).map Group.rowType := fun {g} hg => by
        rw [← rowType?_of_live hn (hmem hg)]
        show m.outline.rowType? g = m.outline.rowType? (m.outline.reduce g)
        unfold Outline.rowType?
        rw [hn.reduce_reduce]
      rw [hrow hg, hrow hk]
      refine hu _ _ ((forcedWith_eq_iff (hmem hg) (hmem hk) hn).1 ?_)
      exact (ha.names g).trans (hgk.trans (ha.names k).symm)
    · have hnamed : ∀ {g}, m.reduceGroup g ∈ m.groups → (m.outline.groupRep g).isSome := by
        intro g hg
        cases hr : m.outline.groupRep g with
        | some r => rfl
        | none =>
          have hgg : m.reduceGroup g = g := congrArg (Option.getD · g) hr
          rw [hgg] at hg
          rw [← hr]
          exact hlive hg
      exact ⟨hnamed (hps p hp).1, hnamed (hps p hp).2⟩
  · obtain ⟨hmerged, happ⟩ := mergeEach_merged hm h
    refine ⟨fun he => ?_, fun hf => hf.reduce_eq hmerged.evolves hmerged.orderly.ordered.tidy⟩
    have hv := happ hd hb
    refine (forcedWith_eq_iff hg hk hn).1 ?_
    rw [← hv.names g, ← hv.names k]
    exact congrArg _ he

/-- Merging two live groups succeeds exactly if all groups that it forces to be merged have one row type
each, and merges exactly those; no two live expressions agree up to the groups of their inputs then. So
several pairs of groups can be merged in any order and either way round. -/
theorem Reached.merge_closure (hm : m.Reached) :
    (∀ a b, m.reduceGroup a ∈ m.groups → m.reduceGroup b ∈ m.groups →
      ((∃ m', merge a b m = .ok () m') ↔ m.Uniform [(a, b)]) ∧
      ∀ m', merge a b m = .ok () m' →
        (∀ g ∈ m.groups, ∀ h ∈ m.groups,
          (m'.reduceGroup g = m'.reduceGroup h ↔ m.Forced [(a, b)] g h)) ∧
        ∀ (e e' : ExprId) (x y : Entry Op Q), m'.exprs[e]? = some x → m'.exprs[e']? = some y →
          x.expr.Matches (fun g h => m'.reduceGroup g = m'.reduceGroup h) y.expr → e = e') ∧
    ∀ ps qs : List (GroupId × GroupId),
      (∀ p ∈ ps, m.reduceGroup p.1 ∈ m.groups ∧ m.reduceGroup p.2 ∈ m.groups) →
      (∀ p, p ∈ ps ∨ p.swap ∈ ps ↔ p ∈ qs ∨ p.swap ∈ qs) →
      ∀ m₁, mergeEach ps m = .ok () m₁ → ∃ m₂, mergeEach qs m = .ok () m₂ ∧
        ∀ g ∈ m.groups, ∀ h ∈ m.groups,
          (m₁.reduceGroup g = m₁.reduceGroup h ↔ m₂.reduceGroup g = m₂.reduceGroup h) := by
  have hord := hm.orderly
  refine ⟨fun a b ha hb => ?_, fun ps qs hps hpq m₁ h₁ => ?_⟩
  · have hab : ∀ p ∈ [(a, b)], m.reduceGroup p.1 ∈ m.groups ∧ m.reduceGroup p.2 ∈ m.groups :=
      fun p hp => by rw [List.mem_singleton.1 hp]; exact ⟨ha, hb⟩
    obtain ⟨hok, hred⟩ := hord.mergeEach_iff hab
    rw [mergeEach_singleton] at hok hred
    refine ⟨hok, fun m' h => ⟨hred m' h, fun e e' x y hx hy hxy => ?_⟩⟩
    have ht' := (merged_of_merge hord h).1.orderly.ordered.tidy
    exact ht'.eq_of_alike (outline_entry_of hx) (outline_entry_of hy)
      (Expr.shape_reduce_iff.1 (Expr.shape_eq_iff.2 hxy))
  · have hqs : ∀ q ∈ qs, m.reduceGroup q.1 ∈ m.groups ∧ m.reduceGroup q.2 ∈ m.groups := by
      intro q hq
      rcases (hpq q).2 (.inl hq) with hp | hp
      · exact hps q hp
      · exact (hps q.swap hp).symm
    have hiff : ∀ g h, m.Forced ps g h ↔ m.Forced qs g h := fun g h =>
      ⟨fun hf => hf.mono fun p hp => (hpq p).1 (.inl hp), fun hf => hf.mono fun q hq =>
        (hpq q).2 (.inl hq)⟩
    obtain ⟨hok, hred⟩ := hord.mergeEach_iff hps
    obtain ⟨hok', hred'⟩ := hord.mergeEach_iff hqs
    have hu : m.Uniform qs := fun g h hf => hok.1 ⟨m₁, h₁⟩ g h ((hiff g h).2 hf)
    obtain ⟨m₂, h₂⟩ := hok'.2 hu
    refine ⟨m₂, h₂, fun g hg h hh => ?_⟩
    rw [hred m₁ h₁ g hg h hh, hred' m₂ h₂ g hg h hh]
    exact hiff g h

end Calls

section SmallHost

open SmallHost Relational

/-- What some group names stand for. -/
def leads (m : Memo Kind Nat) (gs : List GroupId) : List GroupId := gs.map m.reduceGroup

set_option maxRecDepth 100000 in
theorem groups_stacked : (stacked.groupIds, leads stacked [⟨1⟩, ⟨3⟩])
    = ([⟨1⟩, ⟨3⟩, ⟨6⟩, ⟨8⟩, ⟨11⟩, ⟨15⟩, ⟨18⟩, ⟨21⟩], [⟨1⟩, ⟨3⟩]) := by
  cbv

set_option maxRecDepth 100000 in
theorem merged_stacked : (mergeRounds 6 stacked [(⟨1⟩, ⟨3⟩)]).map
    (fun m => leads m [⟨1⟩, ⟨3⟩, ⟨15⟩, ⟨21⟩]) = some [⟨1⟩, ⟨1⟩, ⟨21⟩, ⟨21⟩] := by
  cbv

/-- That two tables turn out to be one forces the groups over them to be merged, up to those of the physical
filters, but not a filter with what it filters. -/
theorem stacked_closure : ∃ m' : Memo Kind Nat, merge ⟨1⟩ ⟨3⟩ stacked = .ok () m' ∧
    stacked.Uniform [(⟨1⟩, ⟨3⟩)] ∧ stacked.Forced [(⟨1⟩, ⟨3⟩)] ⟨15⟩ ⟨21⟩ ∧
    ¬ stacked.Forced [(⟨1⟩, ⟨3⟩)] ⟨1⟩ ⟨15⟩ := by
  obtain ⟨m', hrounds, hleads⟩ := Option.map_eq_some_iff.1 merged_stacked
  have hmerge : merge ⟨1⟩ ⟨3⟩ stacked = .ok () m' := mergeAll_of_mergeRounds hrounds
  obtain ⟨hids, hfirst⟩ := Prod.mk.inj groups_stacked
  simp only [leads, List.map_cons, List.map_nil, List.cons.injEq, and_true] at hleads hfirst
  have hlive : ∀ g ∈ stacked.groupIds, g ∈ stacked.groups := fun g hg => Std.TreeMap.mem_keys.1 hg
  rw [hids] at hlive
  obtain ⟨hclosure, -⟩ := Reached.merge_closure stacked_reached
  obtain ⟨hiff, hends⟩ := hclosure ⟨1⟩ ⟨3⟩ (by rw [hfirst.1]; exact hlive _ (by decide))
    (by rw [hfirst.2]; exact hlive _ (by decide))
  obtain ⟨hforced, -⟩ := hends m' hmerge
  refine ⟨m', hmerge, hiff.1 ⟨m', hmerge⟩, ?_, fun hf => ?_⟩
  · refine (hforced ⟨15⟩ (hlive _ (by decide)) ⟨21⟩ (hlive _ (by decide))).1 ?_
    rw [hleads.2.2.1, hleads.2.2.2]
  · have hred := (hforced ⟨1⟩ (hlive _ (by decide)) ⟨15⟩ (hlive _ (by decide))).2 hf
    rw [hleads.1, hleads.2.2.1] at hred
    cases hred

end SmallHost

end Memo

end PlanSearch
