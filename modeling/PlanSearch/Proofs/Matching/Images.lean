import PlanSearch.Proofs.Matching.Recast
import PlanSearch.Proofs.Memo.Mirror

/-!
# Bindings in another memo

Where every expression of a memo has an image in another memo, over groups that the groups read lead to, every binding
has an image that binds the same operands, and its plan is recast from the plan of the binding. A memo has its images
in what becomes of it, and in what it is mirrored in. And a plan is hosted where one is that it is recast from.

    m.Translates b rows leads τ → m.outline.Binds p e es → b.outline.Binds p (τ e) (es.map τ)      (Translates.binds)
    m.Translates b rows leads τ → p.planOfBinding m es = .ok n →
      ∃ n', p.planOfBinding b (es.map fun e => τ (m.reduceExpr e)) = .ok n' ∧ Recast rows leads n n'
                                                                                           (Translates.planOfBinding)
-/

namespace PlanSearch

open Outline

/-- Over the same inputs, the same operation gives congruent expressions. -/
theorem Operation.Alike.congruent {Op : Type} {rows : RowType → RowType → Prop} {h k : Operation Op}
    (hk : h.Alike rows k) {rs rs' : List SubGroupRef} (hrs : rs.map SubGroupRef.canon = rs'.map SubGroupRef.canon) :
    Expr.Congruent ⟨h.op, rs, h.data, h.traits⟩ ⟨k.op, rs', k.data, k.traits⟩ := by
  simp only [Expr.Congruent, Expr.canon, Expr.mk.injEq]
  exact ⟨hk.op.symm, hrs, Eq.symm hk.data, hk.traits.symm⟩

namespace Memo

variable {Op Q : Type} {m m' b : Memo Op Q} {rows : RowType → RowType → Prop} {leads : GroupId → GroupId → Prop}
variable {τ : ExprId → ExprId}

/-! ## Images -/

/-- The references of `b` are to groups that those of `m` lead to, one by one. -/
def Reads (m b : Memo Op Q) (leads : GroupId → GroupId → Prop) (rs rs' : List SubGroupRef) : Prop :=
  List.Forall₂ (fun r r' : SubGroupRef => leads (m.outline.reduce r.group) (b.outline.reduce r'.group) ∧
    r'.traits.Same r.traits) rs rs'

/-- The expression `y` of `b` says what `x` says in `m`, over groups that those of `x` lead to. -/
structure Images (m b : Memo Op Q) (leads : GroupId → GroupId → Prop) (x y : Expr Op) : Prop where
  op : y.op = x.op
  data : Value.SameOption y.data x.data
  traits : y.traits.Same x.traits
  inputs : m.Reads b leads x.inputs y.inputs

/-- Every live expression of `m` has an image in `b`, in a group that its own one leads to. -/
structure Translates (m b : Memo Op Q) (rows : RowType → RowType → Prop) (leads : GroupId → GroupId → Prop)
    (τ : ExprId → ExprId) : Prop where
  unique : ∀ a k l, leads a k → leads a l → k = l
  expr : ∀ e x g, m.outline.entry e = some (x, g) →
    ∃ y k, b.outline.entry (τ e) = some (y, k) ∧ leads g k ∧ m.Images b leads x y
  row : ∀ g k t t', leads g k → m.outline.rowType? g = some t → b.outline.rowType? k = some t' → rows t t'

/-- What is alike says the same. -/
theorem Images.of_alike {x y z : Expr Op} (hy : b.outline.Alike z y) (hop : z.op = x.op) (hdata : z.data = x.data)
    (htraits : z.traits = x.traits) (hin : List.Forall₂ (fun r r' : SubGroupRef =>
      leads (m.outline.reduce r.group) (b.outline.reduce r'.group) ∧ r'.traits = r.traits) x.inputs z.inputs) :
    m.Images b leads x y where
  op := hy.op_eq.symm.trans hop
  data := by
    have hsame : Value.SameOption z.data y.data := (congrArg Expr.data hy :)
    rw [← hdata]
    exact Eq.symm hsame
  traits := by
    have hsame : z.traits.Same y.traits := (congrArg Expr.traits hy :)
    rw [← htraits]
    exact hsame.symm
  inputs := by
    refine (forall₂_comp.1 ⟨_, hin, hy.akin⟩).imp fun r r' hr => ?_
    obtain ⟨r'', ⟨hleads, htraits⟩, hsame, hgroup⟩ := hr
    exact ⟨hgroup ▸ hleads, htraits ▸ hsame.symm⟩

end Memo

/-! ## Bindings -/

namespace Outline

variable {Op Q : Type} [Operator Op] {m b : Memo Op Q} {rows : RowType → RowType → Prop}
variable {leads : GroupId → GroupId → Prop} {τ : ExprId → ExprId}

mutual

/-- The image of a binding is a binding. -/
theorem Binds.image (h : m.Translates b rows leads τ) {p : Pattern Op} {e : ExprId} {es : List ExprId} :
    m.outline.Binds p e es → b.outline.Binds p (τ e) (es.map τ)
  | .node known accepts fits below => by
    obtain ⟨y, k, hy, -, himages⟩ := h.expr _ _ _ known
    exact .node hy (himages.op ▸ accepts) (himages.inputs.length_eq ▸ fits) (below.image h himages.inputs)
  | .leaf wild known empty => by
    obtain ⟨y, k, hy, -, himages⟩ := h.expr _ _ _ known
    have hlength := himages.inputs.length_eq
    rw [empty] at hlength
    exact .leaf wild hy (List.length_eq_zero_iff.1 hlength.symm)

theorem BindsAll.image (h : m.Translates b rows leads τ) {ps : List (Pattern Op)} {rs rs' : List SubGroupRef}
    {es : List ExprId} : m.outline.BindsAll ps rs es → m.Reads b leads rs rs' → b.outline.BindsAll ps rs' (es.map τ)
  | .nil, _ => .nil
  | .any rest, hr => .any (rest.image h (List.forall₂_drop 1 hr))
  | .many, _ => .many
  | .node member first rest, .cons hr hrs => by
    obtain ⟨y, k, hy, hk, -⟩ := h.expr _ _ _ member
    rw [h.unique _ _ _ hk hr.1] at hy
    rw [List.map_append]
    exact .node hy (first.image h) (rest.image h hrs)

end

end Outline

/-! ## Plans of bindings -/

namespace Pattern

variable {Op Q : Type} [Operator Op] {m b : Memo Op Q} {rows : RowType → RowType → Prop}
variable {leads : GroupId → GroupId → Prop} {τ : ExprId → ExprId} {all all' : List ExprId}

/-- What a plan of a binding is made of. -/
theorem planOf_eq_ok {p : Pattern Op} {es rest : List ExprId} {n : PlanNode Op}
    (ok : planOf m all p es = .ok (n, rest)) : ∃ e more entry group, es = e :: more ∧ m.getEntry e = .ok entry ∧
      m.getGroup (m.reduceGroup entry.group) = .ok group ∧
      planInputs m all p.inputs entry.expr.inputs more = .ok (n.inputs, rest) ∧
      n.head = ⟨entry.expr.op, entry.expr.data, group.rowType, entry.expr.traits⟩ := by
  match es with
  | [] => rw [planOf] at ok; cases ok
  | e :: more =>
    obtain ⟨entry, group, hentry, hgroup⟩ : ∃ entry group, m.getEntry e = .ok entry ∧
        m.getGroup (m.reduceGroup entry.group) = .ok group := by
      cases p <;>
      · rw [planOf] at ok
        obtain ⟨entry, hentry, ok⟩ := bind_eq_ok ok
        obtain ⟨group, hgroup, -⟩ := bind_eq_ok ok
        exact ⟨entry, group, hentry, hgroup⟩
    rw [planOf_cons p e more hentry hgroup] at ok
    cases hinputs : planInputs m all p.inputs entry.expr.inputs more with
    | error f => rw [hinputs] at ok; cases ok
    | ok found =>
      rw [hinputs] at ok
      cases ok
      exact ⟨e, more, entry, group, rfl, hentry, hgroup, hinputs, rfl⟩

omit [Operator Op] in
theorem references_recast {rs rs' : List SubGroupRef} (h : m.Reads b leads rs rs') :
    Plan.RecastAll rows leads (rs.map fun r => .group (m.reduceRef r) : List (Plan Op))
      (rs'.map fun r => .group (b.reduceRef r)) := by
  induction h with
  | nil => exact .nil
  | cons hr _ ih => exact .cons (.group hr.1 hr.2) ih

/-- Past the operands, the inputs are recast as references. -/
theorem planInputs_nil_image {rs rs' : List SubGroupRef} {es rest : List ExprId} {inputs : List (Plan Op)}
    (names : ExprId → ExprId) (hrs : m.Reads b leads rs rs') (ok : planInputs m all [] rs es = .ok (inputs, rest)) :
    ∃ inputs', planInputs b all' [] rs' (es.map names) = .ok (inputs', rest.map names) ∧
      Plan.RecastAll rows leads inputs inputs' := by
  rw [planInputs_nil] at ok
  cases ok
  exact ⟨_, planInputs_nil all' rs' (es.map names), references_recast hrs⟩

mutual

/-- The induction follows the pattern. -/
theorem planOf_image (h : m.Translates b rows leads τ) (hm : m.outline.Sound) (hb : b.outline.Sound) (p : Pattern Op)
    {es rest : List ExprId} {n : PlanNode Op} (ok : planOf m all p es = .ok (n, rest)) : ∃ n',
      planOf b all' p (es.map fun e => τ (m.reduceExpr e)) = .ok (n', rest.map fun e => τ (m.reduceExpr e)) ∧
      n.toPlan.Recast rows leads n'.toPlan := by
  obtain ⟨e, more, entry, group, rfl, hentry, hgroup, hinputs, hhead⟩ := planOf_eq_ok ok
  have he := Memo.outline_entry_of (Memo.getEntry_eq_ok hentry)
  obtain ⟨y, k, hy, hk, himages⟩ := h.expr _ _ _ he
  have hrow : m.outline.rowType? entry.group = some group.rowType := by
    obtain ⟨entry', group', hentry', hgroup', -, hrow⟩ := exists_entry_group hm he
    cases hentry.symm.trans hentry'
    cases hgroup.symm.trans hgroup'
    exact hrow
  have hlive : b.outline.reduceExpr (τ (m.reduceExpr e)) = τ (m.reduceExpr e) :=
    hb.names.reduceExpr_of_live (by rw [hy]; rfl)
  obtain ⟨entry', group', hentry', hgroup', rfl, hrow'⟩ := exists_entry_group hb (hlive.symm ▸ hy)
  obtain ⟨inputs', hinputs', hbelow⟩ : ∃ inputs', planInputs b all' p.inputs entry'.expr.inputs
      (more.map fun e => τ (m.reduceExpr e)) = .ok (inputs', rest.map fun e => τ (m.reduceExpr e)) ∧
      Plan.RecastAll rows leads n.inputs inputs' := by
    match p with
    | .node test ps => exact planInputs_image h hm hb ps himages.inputs hinputs
    | .any | .anyMany => exact planInputs_nil_image _ himages.inputs hinputs
  refine ⟨⟨⟨entry'.expr.op, entry'.expr.data, group'.rowType, entry'.expr.traits⟩, inputs'⟩, ?_, ?_⟩
  · rw [List.map_cons, planOf_cons p _ _ hentry' hgroup', hinputs']
    rfl
  · refine .node ?_ hbelow
    rw [hhead]
    exact ⟨himages.op, himages.data, himages.traits, h.row _ _ _ _ hk hrow hrow'⟩

theorem planInputs_image (h : m.Translates b rows leads τ) (hm : m.outline.Sound) (hb : b.outline.Sound)
    (ps : List (Pattern Op)) {rs rs' : List SubGroupRef} {es rest : List ExprId} {inputs : List (Plan Op)}
    (hrs : m.Reads b leads rs rs') (ok : planInputs m all ps rs es = .ok (inputs, rest)) : ∃ inputs',
      planInputs b all' ps rs' (es.map fun e => τ (m.reduceExpr e)) = .ok (inputs', rest.map fun e => τ (m.reduceExpr e)) ∧
      Plan.RecastAll rows leads inputs inputs' := by
  match ps, rs, rs', hrs with
  | ps, [], [], .nil =>
    rw [planInputs] at ok
    cases ok
    exact ⟨[], by rw [planInputs], .nil⟩
  | [], _, _, hrs => exact planInputs_nil_image _ hrs ok
  | .node test qs :: ps, r :: rs, r' :: rs', .cons hr hrs =>
    rw [planInputs] at ok
    obtain ⟨⟨n, es₁⟩, h₁, ok⟩ := bind_eq_ok ok
    obtain ⟨⟨ns, es₂⟩, h₂, ok⟩ := bind_eq_ok ok
    cases ok
    obtain ⟨n', hn', hfirst⟩ := planOf_image h hm hb (.node test qs) h₁
    obtain ⟨ns', hns', hrest⟩ := planInputs_image h hm hb ps hrs h₂
    refine ⟨n'.toPlan :: ns', ?_, .cons hfirst hrest⟩
    rw [planInputs, hn']
    show (planInputs b all' ps rs' _ >>= _) = _
    rw [hns']
    rfl
  | .any :: ps, r :: rs, r' :: rs', .cons hr hrs =>
    rw [planInputs] at ok
    obtain ⟨⟨ns, es₂⟩, h₂, ok⟩ := bind_eq_ok ok
    cases ok
    obtain ⟨ns', hns', hrest⟩ := planInputs_image h hm hb ps hrs h₂
    refine ⟨.group (b.reduceRef r') :: ns', ?_, .cons (.group hr.1 hr.2) hrest⟩
    rw [planInputs, hns']
    rfl
  | .anyMany :: ps, r :: rs, r' :: rs', .cons hr hrs =>
    rw [planInputs] at ok
    obtain ⟨⟨ns, es₂⟩, h₂, ok⟩ := bind_eq_ok ok
    cases ok
    obtain ⟨ns', hns', hrest⟩ := planInputs_image h hm hb ps hrs h₂
    refine ⟨.group (b.reduceRef r') :: ns', ?_, .cons (.group hr.1 hr.2) hrest⟩
    rw [planInputs, hns']
    rfl

end

/-- The plan of a binding goes over into one that is recast from it. -/
theorem planOfBinding_image (h : m.Translates b rows leads τ) (hm : m.outline.Sound) (hb : b.outline.Sound)
    {p : Pattern Op} {es : List ExprId} {n : PlanNode Op} (ok : p.planOfBinding m es = .ok n) : ∃ n',
      p.planOfBinding b (es.map fun e => τ (m.reduceExpr e)) = .ok n' ∧ n.toPlan.Recast rows leads n'.toPlan := by
  simp only [planOfBinding] at ok ⊢
  obtain ⟨⟨n₀, rest⟩, h₀, ok⟩ := bind_eq_ok ok
  cases rest with
  | nil =>
    cases ok
    obtain ⟨n', hn', hrecast⟩ := planOf_image h hm hb p h₀
    rw [hn']
    exact ⟨n', rfl, hrecast⟩
  | cons e rest => cases ok

end Pattern

/-! ## Where there are images -/

namespace Memo

section Onward

variable {Op Q : Type} [Quantity Q] {m m' : Memo Op Q} {rows : RowType → RowType → Prop}

/-- What becomes of a memo has images of all that was in it. -/
theorem Onward.translates (h : m.Onward m') (ht : m.outline.Tidy) (hrows : ∀ t, rows t t) :
    m.Translates m' rows (fun a k => m'.outline.reduce a = k) m'.reduceExpr where
  unique a k l hk hl := hk.symm.trans hl
  expr e x g hx := by
    have he := h.evolves ht
    obtain ⟨y, hy, halike⟩ := he.entry_settled (h.tidy ht).sound hx
    exact ⟨y, _, hy, rfl, .of_alike halike rfl rfl rfl (List.forall₂_same.2 fun r _ => ⟨he.group r.group, rfl⟩)⟩
  row g k t t' hk ht' ht'' := by
    subst hk
    have hsame : m'.outline.rowType? (m'.outline.reduce g) = m'.outline.rowType? g := by
      unfold Outline.rowType?
      rw [(h.tidy ht).sound.names.reduce_reduce]
    have hnamed := named_of_rowType? ht.sound.names ((m.rowType?_eq g).trans ht')
    rw [hsame, rowType?_of_edits ht h.edits g hnamed, ht'] at ht''
    cases ht''
    exact hrows _

end Onward

section Mirrors

variable {Op Q : Type} [DecidableEq Op] {m b : Memo Op Q} {rows : RowType → RowType → Prop}
variable {v : GroupId → Option GroupId}

/-- A memo has its images where it is mirrored. -/
theorem Mirrors.translates (h : b.Mirrors rows m v) (hb : b.outline.Tidy) (ht : m.outline.Tidy) :
    ∃ τ, m.Translates b rows (fun a k => v a = some k ∧ b.outline.reduce k = k) τ := by
  have hleads : ∀ a, (m.outline.group a).isSome → ∃ k, v a = some k ∧ b.outline.reduce k = k := fun a ha => by
    obtain ⟨rowType, hrow⟩ := Option.isSome_iff_exists.1 (isSome_rowType? ha ht.sound.names)
    obtain ⟨k, c, hk, hc, -⟩ := h.groups a rowType hrow
    exact ⟨k, hk, hb.sound.names.reduce_of_live (by rw [hc]; rfl)⟩
  have himage : ∀ e : ExprId, ∃ e', ∀ x g, m.outline.entry e = some (x, g) → ∃ y k, b.outline.entry e' = some (y, k) ∧
      (v g = some k ∧ b.outline.reduce k = k) ∧
        m.Images b (fun a k => v a = some k ∧ b.outline.reduce k = k) x y := fun e => by
    cases hentry : m.outline.entry e with
    | none => exact ⟨e, fun x g hx => by cases hx⟩
    | some p =>
      obtain ⟨x, g⟩ := p
      obtain ⟨k, hk, hself⟩ := hleads g (ht.sound.places.home e x g hentry)
      obtain ⟨hsome, e', y, hy, hc⟩ := (seat_eq_some hb.sound.places).1 ((h.exprs.exprs e x g hentry).trans hk)
      refine ⟨e', fun x' g' hx' => ?_⟩
      cases hx'
      refine ⟨y, k, hy, ⟨hk, hself⟩, .of_alike (.of_congruent hc.symm) rfl rfl rfl ?_⟩
      refine List.forall₂_map_right_iff.2 (List.forall₂_same.2 fun r hr => ⟨?_, rfl⟩)
      obtain ⟨l, hl, hself'⟩ := hleads _ (ht.sound.places.inputs e x g hentry r hr)
      rw [h.exprs.names] at hl
      have hread : (v r.group).getD r.group = l := by rw [hl, Option.getD_some]
      show v (m.outline.reduce r.group) = some (b.outline.reduce ((v r.group).getD r.group)) ∧
        b.outline.reduce (b.outline.reduce ((v r.group).getD r.group)) = b.outline.reduce ((v r.group).getD r.group)
      rw [h.exprs.names, hread, hself', hself']
      exact ⟨hl, rfl⟩
  choose τ hτ using himage
  refine ⟨τ, fun a k l hk hl => Option.some.inj (hk.1.symm.trans hl.1), hτ, fun g k t t' hk hrow hrow' => ?_⟩
  obtain ⟨k', c, hk', hc, hrows⟩ := h.groups g t hrow
  cases hk.1.symm.trans hk'
  unfold Outline.rowType? at hrow'
  rw [hk.2, hc] at hrow'
  cases hrow'
  exact hrows

end Mirrors

/-! ## Plans that are recast -/

section Hosts

variable {Op Q : Type} {b : Memo Op Q} {rows : RowType → RowType → Prop} {leads : GroupId → GroupId → Prop}
variable {typed : RowType → RowType → Prop} {u v : GroupId → Option GroupId}

mutual

/-- A plan is hosted where one is that it is recast from. -/
theorem Hosts.recast (htyped : ∀ s t w, rows s t → typed s w → typed t w) (hlead : ∀ a k, leads a k → v k = u a)
    {p p' : Plan Op} {r : SubGroupRef} : b.Hosts typed u p r → p.Recast rows leads p' →
      ∃ r', b.Hosts typed v p' r' ∧ r.Same r'
  | .ref r g hg, .group named traits => by
    refine ⟨_, .ref _ g ((hlead _ _ named).trans hg), ?_⟩
    exact congrArg (SubGroupRef.mk g) traits.symm
  | .node below known congruent home row, .node alike below' => by
    obtain ⟨refs', hbelow', hsame⟩ := below.recast htyped hlead below'
    exact ⟨_, .node hbelow' known (congruent.trans (alike.congruent hsame)) home
      (htyped _ _ _ alike.row row), congrArg (SubGroupRef.mk _) alike.traits.symm⟩

theorem HostsAll.recast (htyped : ∀ s t w, rows s t → typed s w → typed t w)
    (hlead : ∀ a k, leads a k → v k = u a) {ps ps' : List (Plan Op)} {rs : List SubGroupRef} :
    b.HostsAll typed u ps rs → Plan.RecastAll rows leads ps ps' →
      ∃ rs', b.HostsAll typed v ps' rs' ∧ rs.map SubGroupRef.canon = rs'.map SubGroupRef.canon
  | .nil, .nil => ⟨[], .nil, rfl⟩
  | .cons first required rest, .cons first' rest' => by
    obtain ⟨r', hr', hsame⟩ := first.recast htyped hlead first'
    obtain ⟨rs', hrs', hsames⟩ := rest.recast htyped hlead rest'
    refine ⟨r' :: rs', .cons hr' (required.akin ⟨?_, ?_⟩) hrs', List.cons_eq_cons.2 ⟨hsame, hsames⟩⟩
    · exact (congrArg SubGroupRef.traits hsame :)
    · exact congrArg b.outline.reduce (congrArg SubGroupRef.group hsame :)

end

end Hosts

end Memo

end PlanSearch
