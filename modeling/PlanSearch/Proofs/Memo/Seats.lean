import PlanSearch.Proofs.Memo.Handles

/-!
# Plans added again

A plan that was added to a memo has its seat there: every operation of it is an expression, everything that it reads
is a sub group that is required, and all traits in it fit the registry. It keeps its seat whatever calls succeed after
that, with expressions dropped for others and groups merged. And adding a plan that has its seat finds everything
there, down to the leaves: it answers the names of what stands for the plan by then, and changes nothing.

    m.Ordered [] → add n m = .ok (g, e) m' → m'.Seated n e g                                    (add_seated)
    m.Onward m' → m.Seated n e g → m'.Seated n (m'.reduceExpr e) (m'.reduceGroup g)             (Seated.later)
    m.Seated n e g → add n m = .ok (g, e) m                                                     (Seated.add)
-/

namespace PlanSearch

open Outline

namespace Memo

variable {Op Q : Type} [Quantity Q] {m m' m'' : Memo Op Q}

/-! ## Changes that last -/

/-- The memo `m'` came about from `m` by edits that leave the registry and uphold what is required. -/
structure Onward (m m' : Memo Op Q) : Prop where
  edits : Edits .free m.work m'.work
  registry : m'.registry = m.registry
  upholds : m.Upholds m'

theorem Onward.refl (m : Memo Op Q) : m.Onward m := ⟨.refl, rfl, .refl m⟩

theorem Onward.trans (h₁ : m.Onward m') (h₂ : m'.Onward m'') : m.Onward m'' :=
  ⟨h₁.edits.trans h₂.edits, h₂.registry.trans h₁.registry, h₁.upholds.trans h₂.upholds⟩

theorem Onward.of_heeds (hedits : Edits .free m.work m'.work) (h : m.Heeds m') : m.Onward m' :=
  ⟨hedits, h.registry, h.upholds⟩

theorem Onward.tidy (h : m.Onward m') (ht : m.outline.Tidy) : m'.outline.Tidy := tidy_of_edits ht h.edits

theorem Onward.evolves (h : m.Onward m') (ht : m.outline.Tidy) : m.outline.Evolves [] m'.outline [] :=
  Edits.evolves h.edits (sound_of_tidy ht [])

theorem Onward.lineage (h : m.Onward m') (ht : m.outline.Tidy) : m.outline.Lineage m'.outline :=
  Edits.lineage h.edits (sound_of_tidy ht [])

theorem Calls.onward [Operator Op] (h : Calls m m') (ht : m.outline.Tidy) : m.Onward m' :=
  ⟨h.edits ht, h.registry_eq, h.upholds⟩

/-! ## What is required -/

/-- The sub group that the reference asks for is there, and required. -/
def Requires (m : Memo Op Q) (r : SubGroupRef) : Prop := ∃ s, m.outline.Serves s r ∧ m.IsRequired s

omit [Quantity Q] in
theorem Requires.akin {r r' : SubGroupRef} (h : m.Requires r) (hr : m.outline.Akin r r') : m.Requires r' := by
  obtain ⟨s, hs, hrequired⟩ := h
  exact ⟨s, hs.akin hr, hrequired⟩

theorem Requires.later (h : m.Onward m') (ht : m.outline.Tidy) {r : SubGroupRef} (hr : m.Requires r) :
    m'.Requires (m'.outline.reduceRef r) := by
  obtain ⟨s, hs, hrequired⟩ := hr
  have hself : m.reduceSubGroup s = s := by
    obtain ⟨sub, hsub, -⟩ := hrequired
    exact (anchored_of_tidy ht).reduceSubGroup hsub
  obtain ⟨-, hup⟩ := h.upholds (anchored_of_tidy ht)
  have hserves := (h.lineage ht).serves hs
  have hlater : m'.Requires r := ⟨m'.reduceSubGroup s, hserves, hup s (by rwa [hself])⟩
  exact hlater.akin ⟨rfl, ((h.tidy ht).sound.names.reduce_reduce r.group).symm⟩

omit [Quantity Q] in
/-- What is required is on record with its live group. -/
theorem Requires.listed (ht : m.outline.Tidy) {r : SubGroupRef} (h : m.Requires r) : ∃ group s,
    m.groups[m.reduceGroup r.group]? = some group ∧ group.sub? r.traits = some s ∧ m.IsRequired s := by
  obtain ⟨s, hs, hrequired⟩ := h
  have hfind := ht.subOf_iff.2 hs
  rw [subOf_eq] at hfind
  obtain ⟨group, hgroup, hsub⟩ := Option.bind_eq_some_iff.1 hfind
  exact ⟨group, s, hgroup, hsub, hrequired⟩

theorem ensureSubGroup_requires {r : SubGroupRef} {s : SubGroupId} (ht : m.outline.Tidy)
    (h : ensureSubGroup r true m = .ok s m') : m'.Requires r := by
  refine ⟨s, ensureSubGroup_serves ht h, ?_⟩
  obtain ⟨-, group, -, ⟨-, hmark⟩ | ⟨-, -, m₁, hmark, hoffer⟩⟩ := ensureSubGroup_eq_ok h
  · exact isRequired_markIf hmark
  · have hopened := (upholds_openSubGroup m (m.reduceGroup r.group) r.traits).trans (heeds_markIf hmark).upholds
    obtain ⟨hanchored, -⟩ := hopened (anchored_of_tidy ht)
    obtain ⟨hanchored', hup⟩ := (piecewise_heeds.offerAll hoffer).upholds hanchored
    obtain ⟨sub, hsub, hrequired⟩ := isRequired_markIf hmark
    have hself : m₁.reduceSubGroup s = s := hanchored.reduceSubGroup hsub
    have hsame : m'.reduceSubGroup s = m₁.reduceSubGroup s :=
      congrArg (fun o => o.reduceSub s) (outline_offerAll hoffer)
    rw [← hself, ← hsame]
    exact hup s (by rw [hself]; exact ⟨sub, hsub, hrequired⟩)

omit [Quantity Q] in
theorem checkTraits_of_check {traits : TraitSet} (h : m.registry.check traits = .ok ()) :
    m.checkTraits traits = .ok () := by
  unfold checkTraits
  rw [h]

/-- Asking for what is required changes nothing. -/
theorem Requires.ensureSubGroup (ht : m.outline.Tidy) {r : SubGroupRef} (h : m.Requires r)
    (hfits : m.registry.check r.traits = .ok ()) : ∃ s, Memo.ensureSubGroup r true m = .ok s m := by
  obtain ⟨group, s, hgroup, hsub, sub, hlive, hrequired⟩ := h.listed ht
  have hget : m.getGroup r.group = .ok group := by
    unfold getGroup group?
    rw [hgroup]
  have hmark : markIf true s m = .ok m := by
    unfold markIf markRequired liveSubGroup
    rw [if_pos rfl, hlive]
    show (if sub.required = true then _ else _) = _
    rw [if_pos hrequired]
    rfl
  refine ⟨s, ?_⟩
  unfold Memo.ensureSubGroup
  rw [run_bind_of_ok (Update.read_of_ok (checkTraits_of_check hfits)), run_bind_of_ok (Update.read_of_ok hget)]
  simp only [hsub]
  rw [run_bind_of_ok (Update.step_of_ok hmark)]
  rfl

/-! ## Seats -/

mutual

/-- The reference stands for the plan, in which all traits fit the registry and everything read is required. -/
inductive Seats (m : Memo Op Q) : Plan Op → SubGroupRef → Prop
  | ref (r : SubGroupRef) (fits : m.registry.check r.traits = .ok ()) : Seats m (.group r) (m.outline.reduceRef r)
  | node {head : Operation Op} {inputs : List (Plan Op)} {refs : List SubGroupRef} {e : ExprId} {y : Expr Op}
      {g : GroupId} (fits : m.registry.check head.traits = .ok ()) (below : SeatsAll m inputs refs)
      (known : m.outline.entry e = some (y, g)) (congruent : y.Congruent ⟨head.op, refs, head.data, head.traits⟩) :
      Seats m (.node head inputs) ⟨g, head.traits⟩

/-- The same for several plans that are read. -/
inductive SeatsAll (m : Memo Op Q) : List (Plan Op) → List SubGroupRef → Prop
  | nil : SeatsAll m [] []
  | cons {p : Plan Op} {r : SubGroupRef} {ps : List (Plan Op)} {rs : List SubGroupRef} (first : Seats m p r)
      (required : m.Requires r) (rest : SeatsAll m ps rs) : SeatsAll m (p :: ps) (r :: rs)

end

/-- The plan has its seat, with the expression `e` of the group `g` for its root. -/
def Seated (m : Memo Op Q) (n : PlanNode Op) (e : ExprId) (g : GroupId) : Prop :=
  m.registry.check n.head.traits = .ok () ∧ ∃ refs y, m.SeatsAll n.inputs refs ∧ m.outline.entry e = some (y, g) ∧
    y.Congruent ⟨n.head.op, refs, n.head.data, n.head.traits⟩

/-! ### Seats last -/

mutual

/-- A plan keeps its seat, by whatever name. -/
theorem Seats.later (h : m.Onward m') (ht : m.outline.Tidy) {p : Plan Op} {r : SubGroupRef} :
    m.Seats p r → m'.Seats p (m'.outline.reduceRef r)
  | .ref r fits => by
    have hr : m'.outline.reduceRef (m.outline.reduceRef r) = m'.outline.reduceRef r :=
      congrArg (SubGroupRef.mk · r.traits) ((h.evolves ht).group r.group)
    rw [hr]
    exact .ref r (h.registry ▸ fits)
  | .node fits below known congruent => by
    obtain ⟨y', hy', hc⟩ := (h.evolves ht).congruent (h.tidy ht) known congruent
    exact .node (h.registry ▸ fits) (below.later h ht) hy' hc

theorem SeatsAll.later (h : m.Onward m') (ht : m.outline.Tidy) {ps : List (Plan Op)} {rs : List SubGroupRef} :
    m.SeatsAll ps rs → m'.SeatsAll ps (rs.map m'.outline.reduceRef)
  | .nil => .nil
  | .cons first required rest => .cons (first.later h ht) (required.later h ht) (rest.later h ht)

end

theorem Seated.later (h : m.Onward m') (ht : m.outline.Tidy) {n : PlanNode Op} {e : ExprId} {g : GroupId}
    (hn : m.Seated n e g) : m'.Seated n (m'.reduceExpr e) (m'.reduceGroup g) := by
  obtain ⟨hfits, refs, y, hbelow, hy, hc⟩ := hn
  obtain ⟨y', hy', hc'⟩ := (h.evolves ht).congruent (h.tidy ht) hy hc
  exact ⟨h.registry ▸ hfits, refs.map m'.outline.reduceRef, y', hbelow.later h ht, hy', hc'⟩

omit [Quantity Q] in
theorem reduceRef_of_served (hn : m.outline.Names) {r : SubGroupRef} (hr : m.outline.Served r) :
    m.outline.reduceRef r = r := by
  obtain ⟨c, hc, -⟩ := hr
  have hself : m.outline.reduce r.group = r.group := hn.reduce_of_live (by rw [hc]; rfl)
  exact congrArg (SubGroupRef.mk · r.traits) hself

/-- Where the memo only grows, the names of seats stay. -/
theorem Seats.grown (h : m.Onward m') (ht : m.outline.Tidy) (hk : m.outline.Keeps m'.outline) {p : Plan Op}
    {r : SubGroupRef} (hself : m.outline.reduceRef r = r) (hr : m.Seats p r) : m'.Seats p r := by
  have hlater := hr.later h ht
  rwa [hk.reduceRef, hself] at hlater

theorem SeatsAll.grown (h : m.Onward m') (ht : m.outline.Tidy) (hk : m.outline.Keeps m'.outline) {ps : List (Plan Op)}
    {rs : List SubGroupRef} (hself : ∀ r ∈ rs, m.outline.reduceRef r = r) (hrs : m.SeatsAll ps rs) :
    m'.SeatsAll ps rs := by
  have hsame : rs.map m'.outline.reduceRef = rs := by
    refine (List.map_congr_left fun r hr => ?_).trans (List.map_id rs)
    rw [hk.reduceRef, hself r hr]
    rfl
  have hlater := hrs.later h ht
  rwa [hsame] at hlater

variable [Operator Op]

/-! ### Plans get their seats -/

theorem insertInputs_onward {op : Op} {require : Bool} {ps : List (Plan Op)} {refs : List SubGroupRef}
    (ht : m.outline.Tidy) (h : insertInputs op require ps m = .ok refs m') : m.Onward m' :=
  .of_heeds ((insertInputs_edited op require ps ht).of_ok h).1 (heeds_insertInputs op require ps h)

omit [Operator Op] in
theorem ensureSubGroup_onward {r : SubGroupRef} {require : Bool} {s : SubGroupId} (ht : m.outline.Tidy)
    (h : ensureSubGroup r require m = .ok s m') : m.Onward m' :=
  .of_heeds ((ensureSubGroup_edited ht r require).of_ok h).1 (heeds_ensureSubGroup h)

theorem register_onward {head : Operation Op} {refs : List SubGroupRef} {target : Option GroupId}
    {answer : GroupId × ExprId} (ht : m.outline.Tidy) (hx : m.outline.Ready ⟨head.op, refs, head.data, head.traits⟩)
    (hg : ∀ t ∈ target, m.outline.reduce t = t) (hfits : m.registry.check head.traits = .ok ())
    (h : register head refs target m = .ok answer m') : m.Onward m' :=
  .of_heeds ((register_edited head target ht hx hg).of_ok h).1 (heeds_register hfits h)

theorem insertOver_seated {head : Operation Op} {ps : List (Plan Op)} {inputs : Update Op Q (List SubGroupRef)}
    {g : GroupId} {e : ExprId}
    (hi : ∀ refs m₁, inputs m = .ok refs m₁ → Inserted m ps refs m₁ ∧ m₁.SeatsAll ps refs ∧ m.Onward m₁)
    (h : insertOver head inputs none m = .ok (g, e) m') : m'.Seated ⟨head, ps⟩ e g := by
  obtain ⟨hcheck, refs, m₁, h₁, h⟩ := insertOver_eq_ok h
  obtain ⟨hins, hseats, honward⟩ := hi refs m₁ h₁
  have ht := hins.ordered.tidy
  have hfits : m₁.registry.check head.traits = .ok () := honward.registry ▸ hcheck
  obtain ⟨hgrown, -, y, hy, hc⟩ := register_grown hins.ordered hins.served h
  have hon : m₁.Onward m' := register_onward ht hins.served (fun t h => by cases h) hfits h
  have hself : ∀ r ∈ refs, m₁.outline.reduceRef r = r := fun r hr =>
    reduceRef_of_served ht.sound.names (hins.served r hr)
  exact ⟨hon.registry ▸ hfits, refs, y, hseats.grown hon ht (hgrown.keeps ht) hself, hy, hc⟩

/-- One more plan before the others. -/
theorem SeatsAll.add_first {op : Op} {p : Plan Op} {r : SubGroupRef} {rest : List (Plan Op)} {refs : List SubGroupRef}
    (hm : m.Ordered []) (first : m.Seats p r) (required : m.Requires r) (hself : m.outline.reduceRef r = r)
    (h : insertInputs op true rest m = .ok refs m') (hrest : m'.SeatsAll rest refs) :
    m'.SeatsAll (p :: rest) (r :: refs) := by
  have hon := insertInputs_onward hm.tidy h
  have hk := (insertInputs_inserted op true rest hm h).grown.keeps hm.tidy
  have hrequired := required.later hon hm.tidy
  rw [hk.reduceRef, hself] at hrequired
  exact .cons (first.grown hon hm.tidy hk hself) hrequired hrest

/-- The induction follows the plans from left to right, and each of them down to its leaves. -/
theorem insertInputs_seats (op : Op) : ∀ (ps : List (Plan Op)) {m m' : Memo Op Q} {refs : List SubGroupRef},
    m.Ordered [] → insertInputs op true ps m = .ok refs m' → m'.SeatsAll ps refs
  | [], m, m', refs, hm, h => by
    obtain ⟨rfl, rfl⟩ := insertInputs_nil_eq_ok h
    exact .nil
  | .group ref :: rest, m, m', refs, hm, h => by
    obtain ⟨hcheck, s, m₁, refs', h₁, h₂, rfl⟩ := insertInputs_group_eq_ok h
    obtain ⟨hg₁, -, hm₁⟩ := ensureSubGroup_grown hm h₁
    have hk := hg₁.keeps hm.tidy
    have hfits : m₁.registry.check ref.traits = .ok () := (heeds_ensureSubGroup h₁).registry ▸ hcheck
    have hfirst : m₁.Seats (.group ref) (m.reduceRef ref) := by
      rw [reduceRef_eq, ← hk.reduceRef]
      exact .ref ref hfits
    have hself : m₁.outline.reduceRef (m.reduceRef ref) = m.reduceRef ref := by
      rw [hk.reduceRef, reduceRef_eq, hm.tidy.sound.names.reduceRef_reduceRef]
    exact .add_first hm₁ hfirst (ensureSubGroup_requires hm.tidy h₁) hself h₂ (insertInputs_seats op rest hm₁ h₂)
  | .node head inputs :: rest, m, m', refs, hm, h => by
    obtain ⟨g, e, m₁, s, m₂, refs', h₁, h₂, h₃, rfl⟩ := insertInputs_node_eq_ok h
    obtain ⟨-, hm₁, -⟩ := insertOver_grown (fun _ _ => insertInputs_inserted head.op true inputs hm) h₁
    obtain ⟨hfits, below, y, hbelow, hy, hc⟩ := insertOver_seated (fun refs m₁ h =>
      ⟨insertInputs_inserted head.op true inputs hm h, insertInputs_seats head.op inputs hm h,
        insertInputs_onward hm.tidy h⟩) h₁
    obtain ⟨hg₂, -, hm₂⟩ := ensureSubGroup_grown hm₁ h₂
    have hk := hg₂.keeps hm₁.tidy
    have hgr : m₁.reduceGroup g = g := hm₁.tidy.sound.reduce_home hy
    have hself : m₁.outline.reduceRef ⟨g, head.traits⟩ = ⟨g, head.traits⟩ := congrArg (SubGroupRef.mk · _) hgr
    simp only [hgr] at h₂ ⊢
    have hfirst : m₁.Seats (.node head inputs) ⟨g, head.traits⟩ := .node hfits hbelow hy hc
    exact .add_first hm₂ (hfirst.grown (ensureSubGroup_onward hm₁.tidy h₂) hm₁.tidy hk hself)
      (ensureSubGroup_requires hm₁.tidy h₂) (by rw [hk.reduceRef, hself]) h₃ (insertInputs_seats op rest hm₂ h₃)

/-- A plan that is added gets its seat. -/
theorem add_seated {n : PlanNode Op} {g : GroupId} {e : ExprId} (hm : m.Ordered []) (h : add n m = .ok (g, e) m') :
    m'.Seated n e g := by
  obtain ⟨g', h₁, rfl⟩ := add_eq_ok h
  have hseated : m'.Seated n e g' := insertOver_seated (fun _ _ h =>
    ⟨insertInputs_inserted n.head.op true n.inputs hm h, insertInputs_seats n.head.op n.inputs hm h,
      insertInputs_onward hm.tidy h⟩) h₁
  obtain ⟨-, -, y, -, hy, -⟩ := id hseated
  obtain ⟨-, hm', -⟩ := insertOver_grown (fun _ _ => insertInputs_inserted n.head.op true n.inputs hm) h₁
  have hgr : m'.reduceGroup g' = g' := hm'.tidy.sound.reduce_home hy
  rwa [hgr]

/-- So does one that is added to a group, under the live names. -/
theorem addNodeTo_seated {n : PlanNode Op} {g : GroupId} {e : ExprId} (hm : m.Ordered [])
    (h : addNodeTo n g true m = .ok (some e) m') : m'.Seated n (m'.reduceExpr e) (m'.reduceGroup g) := by
  obtain ⟨hcheck, refs, m₁, g', e', h₁, hins, h₂, he⟩ := addNodeTo_stages hm h
  cases he
  have hm₁ := hins.ordered
  have hfits : m₁.registry.check n.head.traits = .ok () := (insertInputs_onward hm.tidy h₁).registry ▸ hcheck
  have hgg := hm₁.tidy.sound.names.reduce_reduce g
  obtain ⟨-, hev, -, y, hy, hc⟩ := register_target hm₁ hins.served hgg h₂
  have hon : m₁.Onward m' := register_onward hm₁.tidy hins.served (fun t h => by cases h; exact hgg) hfits h₂
  rw [hev.group g] at hy
  exact ⟨hon.registry ▸ hfits, refs.map m'.outline.reduceRef, y,
    (insertInputs_seats n.head.op n.inputs hm h₁).later hon hm₁.tidy, hy, hc⟩

/-! ### What has its seat is found -/

theorem register_seated {head : Operation Op} {refs : List SubGroupRef} {e : ExprId} {y : Expr Op} {g : GroupId}
    (ht : m.outline.Tidy) (hy : m.outline.entry e = some (y, g))
    (hc : y.Congruent ⟨head.op, refs, head.data, head.traits⟩) : register head refs none m = .ok (g, e) m := by
  have hfind : ∃ entry, m.findExpr? ⟨head.op, refs, head.data, head.traits⟩ = some (e, entry) ∧ entry.group = g := by
    cases hf : m.findExpr? ⟨head.op, refs, head.data, head.traits⟩ with
    | none => exact absurd hc (findExpr?_eq_none hf e y g hy)
    | some p =>
      obtain ⟨e', entry⟩ := p
      obtain ⟨he', hc'⟩ := findExpr?_eq_some hf
      have hy' := outline_entry_of he'
      obtain rfl := ht.sound.places.apart _ _ _ _ _ _ hy' hy (hc'.trans hc.symm)
      cases hy'.symm.trans hy
      exact ⟨entry, rfl, rfl⟩
  obtain ⟨entry, hf, rfl⟩ := hfind
  unfold register
  rw [run_get_bind]
  simp only [hf]
  rfl

theorem insertOver_known {head : Operation Op} {inputs : Update Op Q (List SubGroupRef)} {refs : List SubGroupRef}
    {e : ExprId} {y : Expr Op} {g : GroupId} (ht : m.outline.Tidy) (hfits : m.registry.check head.traits = .ok ())
    (hi : inputs m = .ok refs m) (hy : m.outline.entry e = some (y, g))
    (hc : y.Congruent ⟨head.op, refs, head.data, head.traits⟩) : insertOver head inputs none m = .ok (g, e) m := by
  unfold insertOver
  rw [run_bind_of_ok (Update.read_of_ok (checkTraits_of_check hfits)), run_bind_of_ok hi, register_seated ht hy hc]

theorem insertInputs_ref (ht : m.outline.Tidy) {op : Op} {ref : SubGroupRef} {ps : List (Plan Op)}
    {refs : List SubGroupRef} (fits : m.registry.check ref.traits = .ok ()) (required : m.Requires (m.reduceRef ref))
    (more : insertInputs op true ps m = .ok refs m) :
    insertInputs op true (.group ref :: ps) m = .ok (m.reduceRef ref :: refs) m := by
  obtain ⟨s, hs⟩ : ∃ s, ensureSubGroup (m.reduceRef ref) true m = .ok s m := required.ensureSubGroup ht fits
  obtain ⟨group, -, hgroup, -⟩ := required.listed ht
  have hlive : m.requireLive op ref = .ok () := by
    have hfound : m.group? ref.group = some group := by
      rwa [show m.reduceGroup (m.reduceRef ref).group = m.reduceGroup ref.group from
        ht.sound.names.reduce_reduce ref.group] at hgroup
    unfold requireLive
    rw [hfound]
  simp only [insertInputs]
  rw [run_bind_of_ok (Update.read_of_ok (checkTraits_of_check fits)), run_bind_of_ok (Update.read_of_ok hlive),
    run_get_bind, run_bind_of_ok hs, run_bind_of_ok more]
  rfl

theorem insertInputs_node (ht : m.outline.Tidy) {op : Op} {head : Operation Op} {inputs ps : List (Plan Op)}
    {refs : List SubGroupRef} {g : GroupId} {e : ExprId} {y : Expr Op} (fits : m.registry.check head.traits = .ok ())
    (hy : m.outline.entry e = some (y, g)) (required : m.Requires ⟨g, head.traits⟩)
    (hroot : insertOver head (insertInputs head.op true inputs) none m = .ok (g, e) m)
    (more : insertInputs op true ps m = .ok refs m) :
    insertInputs op true (.node head inputs :: ps) m = .ok (⟨g, head.traits⟩ :: refs) m := by
  have hgr : m.reduceGroup g = g := ht.sound.reduce_home hy
  obtain ⟨s, hs⟩ := required.ensureSubGroup ht fits
  simp only [insertInputs]
  rw [run_bind_of_ok hroot, run_get_bind]
  simp only [hgr]
  rw [run_bind_of_ok hs, run_bind_of_ok more]
  rfl

mutual

/-- An input that has its seat is found before others that are. -/
theorem Seats.insertInputs (ht : m.outline.Tidy) {op : Op} {p : Plan Op} {r : SubGroupRef} {ps : List (Plan Op)}
    {refs : List SubGroupRef} (required : m.Requires r) (more : Memo.insertInputs op true ps m = .ok refs m) :
    m.Seats p r → Memo.insertInputs op true (p :: ps) m = .ok (r :: refs) m
  | .ref _ fits => insertInputs_ref ht fits required more
  | .node fits below known congruent =>
    insertInputs_node ht fits known required (insertOver_known ht fits (below.insertInputs ht _) known congruent) more

/-- Inputs that have their seats are found, and nothing changes. -/
theorem SeatsAll.insertInputs (ht : m.outline.Tidy) (op : Op) {ps : List (Plan Op)} {refs : List SubGroupRef} :
    m.SeatsAll ps refs → Memo.insertInputs op true ps m = .ok refs m
  | .nil => congrFun (Memo.insertInputs.eq_1 op true) m
  | .cons first required rest => first.insertInputs ht required (rest.insertInputs ht op)

end

/-- A plan that has its seat is found, and nothing changes. -/
theorem Seated.add (ht : m.outline.Tidy) {n : PlanNode Op} {e : ExprId} {g : GroupId} (h : m.Seated n e g) :
    Memo.add n m = .ok (g, e) m := by
  obtain ⟨hfits, refs, y, hbelow, hy, hc⟩ := h
  have hgr : m.reduceGroup g = g := ht.sound.reduce_home hy
  unfold Memo.add insertNode
  rw [run_bind_of_ok (insertOver_known ht hfits (hbelow.insertInputs ht n.head.op) hy hc)]
  show ((get >>= fun m => pure (m.reduceGroup g, e)) : Update Op Q (GroupId × ExprId)) m = _
  rw [run_get_bind, hgr]
  rfl

omit [Quantity Q] [Operator Op] in
theorem Seated.groupOf (ht : m.outline.Tidy) {n : PlanNode Op} {e : ExprId} {g : GroupId}
    (h : m.Seated n (m.reduceExpr e) g) : m.groupOf e = .ok g := by
  obtain ⟨-, refs, y, -, hy, -⟩ := h
  exact (groupOf_of_entry ht hy).2.1

/-! ## Adding again -/

/-- Whatever calls succeed after a plan was added, by itself or to a group, adding it by itself answers what became of
the group and of the expression, and leaves the memo as it is. -/
theorem Reached.adding_again (h : Reached m) :
    (∀ n g e m', add n m = .ok (g, e) m' → m'.groupOf e = .ok (m'.reduceGroup g) ∧
      ∀ m'', Calls m' m'' → add n m'' = .ok (m''.reduceGroup g, m''.reduceExpr e) m'') ∧
    ∀ p g e m', addTo p g m = .ok (some e) m' → m'.groupOf e = .ok (m'.reduceGroup g) ∧
      ∃ n : PlanNode Op, p = n.toPlan ∧
        ∀ m'', Calls m' m'' → add n m'' = .ok (m''.reduceGroup g, m''.reduceExpr e) m'' := by
  have hm := h.orderly.ordered
  constructor
  · intro n g e m' ok
    have ht' := tidy_of_edits hm.tidy ((Call.add ok).edits hm.tidy)
    have hseated := add_seated hm ok
    refine ⟨(hseated.later (.refl m') ht').groupOf ht', fun m'' hcalls => ?_⟩
    exact (hseated.later (hcalls.onward ht') ht').add (hcalls.tidy ht')
  · intro p g e m' ok
    have ht' := tidy_of_edits hm.tidy ((Call.addTo ok).edits hm.tidy)
    cases p with
    | group ref => cases (addTo_group_eq_ok ok).2
    | node head inputs =>
      have hseated : m'.Seated ⟨head, inputs⟩ (m'.reduceExpr e) (m'.reduceGroup g) := addNodeTo_seated hm ok
      refine ⟨hseated.groupOf ht', ⟨head, inputs⟩, rfl, fun m'' hcalls => ?_⟩
      have hlater := hseated.later (hcalls.onward ht') ht'
      have hev := hcalls.evolves ht'
      rw [show m''.reduceExpr (m'.reduceExpr e) = m''.reduceExpr e from hev.expr e,
        show m''.reduceGroup (m'.reduceGroup g) = m''.reduceGroup g from hev.group g] at hlater
      exact hlater.add (hcalls.tidy ht')

section SmallHost

open SmallHost Relational

/-- A physical filter over a logical one over the second table. -/
def filteredTwice : PlanNode Kind :=
  ⟨(reading .physicalFilter none ⟨11⟩).head, [(reading .filter (some (.i64 1)) ⟨3⟩).toPlan]⟩

set_option maxRecDepth 100000 in
theorem add_filteredTwice : add filteredTwice stacked = .ok (⟨15⟩, ⟨14⟩) stacked := by
  cbv

/-- When the tables turn out to be one, both filters are dropped for others, and the group of the second table is
absorbed. The plan over it is found all the same. -/
theorem filteredTwice_again : Reached stacked ∧ add filteredTwice stacked = .ok (⟨15⟩, ⟨14⟩) stacked ∧
    Calls stacked drifted ∧ add filteredTwice drifted = .ok (⟨21⟩, ⟨20⟩) drifted := by
  obtain ⟨hadd, -⟩ := Reached.adding_again stacked_reached
  obtain ⟨-, hagain⟩ := hadd _ _ _ _ add_filteredTwice
  have h := hagain drifted drifted_calls
  obtain ⟨hexpr, hgroup⟩ := Prod.mk.inj drifted_names
  rw [hexpr, hgroup] at h
  exact ⟨stacked_reached, add_filteredTwice, drifted_calls, h⟩

end SmallHost

end Memo

end PlanSearch
