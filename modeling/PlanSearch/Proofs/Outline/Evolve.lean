import PlanSearch.Proofs.Outline.Merging

/-!
# Outlines over time

Where an outline evolves into another, old names still stand for what they stood for: the names of a
group for one group, the names of an expression for a live expression that is alike. That expression
may be at home in another group than before, but only as long as a merge of the two is still pending.

    o.Evolves ps o' ps' → o'.Evolves ps' o'' ps'' → o.Evolves ps o'' ps''        (Evolves.trans)
    o.Linked [] g h ↔ o.reduce g = o.reduce h                                     (linked_nil_iff)
-/

namespace PlanSearch

namespace Outline

variable {Op : Type}

/-! ## Linked groups -/

section Linked

variable {o : Outline Op} {ps qs : List (GroupId × GroupId)} {g h k : GroupId}

theorem Linked.refl (o : Outline Op) (ps : List (GroupId × GroupId)) (g : GroupId) :
    o.Linked ps g g := fun _ _ _ => rfl

theorem Linked.symm (hl : o.Linked ps g h) : o.Linked ps h g :=
  fun label hr hp => (hl label hr hp).symm

theorem Linked.trans (h₁ : o.Linked ps g h) (h₂ : o.Linked ps h k) : o.Linked ps g k :=
  fun label hr hp => (h₁ label hr hp).trans (h₂ label hr hp)

theorem Linked.of_reduce_eq (hg : o.reduce g = o.reduce h) : o.Linked ps g h := by
  intro label hr _
  rw [← hr g, hg, hr h]

theorem Linked.of_mem (hp : (g, h) ∈ ps) : o.Linked ps g h := fun _ _ hps => hps (g, h) hp

theorem Linked.mono (hl : o.Linked ps g h) (hs : ∀ p ∈ ps, p ∈ qs) : o.Linked qs g h :=
  fun label hr hq => hl label hr fun p hp => hq p (hs p hp)

theorem Names.linked_nil_iff (hn : o.Names) : o.Linked [] g h ↔ o.reduce g = o.reduce h :=
  ⟨fun hl => hl o.reduce hn.reduce_reduce (by simp), Linked.of_reduce_eq⟩

end Linked

/-! ## Expressions that are alike -/

section Alike

variable {o o' : Outline Op} {x y z : Expr Op}

theorem canon_settled (o : Outline Op) (x : Expr Op) : (o.settled x).canon = o.settled x.canon := by
  simp [settled, Expr.canon, reduceRef, SubGroupRef.canon, Function.comp_def]

theorem settled_settled (hr : ∀ g, o'.reduce (o.reduce g) = o'.reduce g) (x : Expr Op) :
    o'.settled (o.settled x) = o'.settled x := by
  simp [settled, reduceRef, Function.comp_def, hr]

theorem Alike.refl (o : Outline Op) (x : Expr Op) : o.Alike x x := rfl

theorem Alike.symm (h : o.Alike x y) : o.Alike y x := Eq.symm h

theorem Alike.trans (h₁ : o.Alike x y) (h₂ : o.Alike y z) : o.Alike x z := Eq.trans h₁ h₂

theorem Alike.of_congruent (h : x.Congruent y) : o.Alike x y := by
  unfold Alike Expr.Congruent
  rw [canon_settled, canon_settled, h]

theorem Alike.of_settled_eq (h : o.settled x = o.settled y) : o.Alike x y := by
  unfold Alike Expr.Congruent
  rw [h]

theorem Alike.later (h : o.Alike x y) (hr : ∀ g, o'.reduce (o.reduce g) = o'.reduce g) :
    o'.Alike x y := by
  have hc : o'.settled (o.settled x).canon = o'.settled (o.settled y).canon := by
    rw [show (o.settled x).canon = (o.settled y).canon from h]
  unfold Alike Expr.Congruent
  rw [← settled_settled hr x, ← settled_settled hr y, canon_settled o', canon_settled o', hc]

/-- Alike expressions have their inputs on the same groups. -/
theorem Alike.groups_eq (h : o.Alike x y) :
    x.inputs.map (fun r => o.reduce r.group) = y.inputs.map fun r => o.reduce r.group := by
  have hc : (o.settled x).inputs.map SubGroupRef.canon = (o.settled y).inputs.map SubGroupRef.canon :=
    congrArg Expr.inputs h
  have hg := congrArg (List.map SubGroupRef.group) hc
  simpa [settled, Function.comp_def, SubGroupRef.canon, reduceRef] using hg

theorem Alike.op_eq (h : o.Alike x y) : x.op = y.op := (congrArg Expr.op h :)

end Alike

/-! ## Evolution -/

/-- The outline `o` with the merges `ps` pending evolves into `o'` with the merges `ps'` pending. -/
structure Evolves (o : Outline Op) (ps : List (GroupId × GroupId)) (o' : Outline Op)
    (ps' : List (GroupId × GroupId)) : Prop where
  group : ∀ g, o'.reduce (o.reduce g) = o'.reduce g
  expr : ∀ e, o'.reduceExpr (o.reduceExpr e) = o'.reduceExpr e
  entry : ∀ e x g, o.entry e = some (x, g) →
    ∃ x' g', o'.entry (o'.reduceExpr e) = some (x', g') ∧ o'.Alike x x' ∧ o'.Linked ps' g g'
  pairs : ∀ p ∈ ps, o'.Linked ps' p.1 p.2

section Evolves

variable {o o' o'' : Outline Op} {ps ps' ps'' : List (GroupId × GroupId)}

theorem Evolves.linked (h : o.Evolves ps o' ps') {g k : GroupId} (hl : o.Linked ps g k) :
    o'.Linked ps' g k := by
  intro label hr hp
  refine hl label (fun a => ?_) fun p hps => h.pairs p hps label hr hp
  rw [← hr (o.reduce a), h.group, hr]

theorem Evolves.trans (h₁ : o.Evolves ps o' ps') (h₂ : o'.Evolves ps' o'' ps'') :
    o.Evolves ps o'' ps'' where
  group g := by rw [← h₂.group (o.reduce g), h₁.group, h₂.group]
  expr e := by rw [← h₂.expr (o.reduceExpr e), h₁.expr, h₂.expr]
  entry e x g he := by
    obtain ⟨x', g', he', ha, hl⟩ := h₁.entry e x g he
    obtain ⟨x'', g'', he'', ha', hl'⟩ := h₂.entry _ x' g' he'
    rw [h₂.expr] at he''
    exact ⟨x'', g'', he'', (ha.later h₂.group).trans ha', (h₂.linked hl).trans hl'⟩
  pairs p hp := h₂.linked (h₁.pairs p hp)

/-- Names stay as they are, and so do all expressions that were there. -/
theorem Evolves.of_kept (hn : o.Names) (hn' : o'.Names) (hg : ∀ g, o'.reduce g = o.reduce g)
    (hx : ∀ e, o'.reduceExpr e = o.reduceExpr e)
    (he : ∀ e p, o.entry e = some p → o'.entry e = some p) : o.Evolves ps o' ps where
  group g := by rw [hg, hg, hn.reduce_reduce]
  expr e := by rw [hx, hx, hn.reduceExpr_reduceExpr]
  entry e x g h := by
    have h' := he e _ h
    exact ⟨x, g, by rw [hn'.reduceExpr_of_live (by rw [h']; rfl), h'], .refl _ _, .refl _ _ _⟩
  pairs p hp := .of_mem hp

theorem Evolves.refl (hn : o.Names) : o.Evolves ps o ps :=
  .of_kept hn hn (fun _ => rfl) (fun _ => rfl) fun _ _ => id

/-- A pair whose groups are linked anyway need not be pending. -/
theorem Evolves.cons (h : o.Evolves ps o' ps') {p : GroupId × GroupId}
    (hp : o'.Linked ps' p.1 p.2) : o.Evolves (p :: ps) o' ps' where
  group := h.group
  expr := h.expr
  entry := h.entry
  pairs q hq := by
    rcases List.mem_cons.1 hq with rfl | hq
    · exact hp
    · exact h.pairs q hq

/-! ## Growth -/

theorem Sound.evolves_openSub (h : o.Sound) (g : GroupId) (traits : TraitSet) :
    o.Evolves ps (o.openSub g traits) ps :=
  .of_kept h.names (h.openSub g traits).names (fun _ => rfl) (fun _ => rfl) fun _ _ => id

/-- A new expression leaves the names of the others as they are. -/
theorem Names.reduceExpr_enter (h : o.Names) {o' : Outline Op}
    (ho : o'.exprRep = fun e => if e = ⟨o.next⟩ then some ⟨o.next⟩ else o.exprRep e) (e : ExprId) :
    o'.reduceExpr e = o.reduceExpr e := by
  simp only [reduceExpr, ho]
  split
  · next he => rw [he, h.exprs.rep_eq_none (Nat.le_refl _)]; rfl
  · rfl

theorem Names.entry_enter (h : o.Names) {o' : Outline Op} {q : Expr Op × GroupId}
    (ho : o'.entry = fun e => if e = ⟨o.next⟩ then some q else o.entry e) (e : ExprId)
    (p : Expr Op × GroupId) (he : o.entry e = some p) : o'.entry e = some p := by
  simp only [ho]
  split
  · next hee => rw [hee, h.fresh_entry (Nat.le_refl _)] at he; cases he
  · exact he

theorem Sound.evolves_attach (h : o.Sound) {x : Expr Op} {g : GroupId} (hg : (o.group g).isSome)
    (hx : o.Reading x) (ha : o.Apart x) : o.Evolves ps (o.attach x g) ps :=
  .of_kept h.names (h.attach hg hx ha).names (fun _ => rfl) (h.names.reduceExpr_enter rfl)
    (h.names.entry_enter rfl)

theorem Sound.evolves_found (h : o.Sound) {x : Expr Op} (rowType : RowType) (facts : List Fact)
    (hx : o.Reading x) (ha : o.Apart x) : o.Evolves ps (o.found x rowType facts) ps :=
  .of_kept h.names (h.found rowType facts hx ha).names
    (fun _ => by rw [h.names.reduce_found]) (h.names.reduceExpr_enter rfl) (h.names.entry_enter rfl)

/-! ## Merging -/

theorem Sound.evolves_takeIn (h : o.Sound) {keep absorbed : GroupId} {gone : Cell}
    (hne : keep ≠ absorbed) (hk : (o.group keep).isSome) (ha : o.group absorbed = some gone) :
    o.Evolves ps (o.takeIn keep absorbed gone) ps where
  group g := by
    have hlive : (o.group absorbed).isSome := by rw [ha]; rfl
    simp only [h.names.reduce_takeIn hlive, h.names.reduce_reduce]
  expr e := h.names.reduceExpr_reduceExpr e
  entry e x g he := by
    have hs := h.takeIn hne hk ha
    have hlive : (o.group absorbed).isSome := by rw [ha]; rfl
    have he' : (o.takeIn keep absorbed gone).entry e = some (x, if g = absorbed then keep else g) :=
      entry_takeIn.2 ⟨g, he, rfl⟩
    refine ⟨x, _, by rw [hs.names.reduceExpr_of_live (by rw [he']; rfl), he'], .refl _ _, ?_⟩
    refine .of_reduce_eq ?_
    simp only [h.names.reduce_takeIn hlive, h.reduce_home he]
    split
    · rw [h.names.reduce_of_live hk, if_neg hne]
    · next hg => rw [h.reduce_home he, if_neg hg]
  pairs p hp := .of_mem hp

theorem Sound.evolves_foldSub (h : o.Sound) {kept s : SubGroupId} (hne : kept ≠ s)
    (hk : (o.sub kept).isSome) : o.Evolves ps (o.foldSub kept s) ps :=
  .of_kept h.names (h.foldSub hne hk).names (fun _ => rfl) (fun _ => rfl) fun _ _ => id

theorem Sound.evolves_handSub (h : o.Sound) (keep : GroupId) (traits : TraitSet) {s : SubGroupId}
    (hs : (o.sub s).isSome) : o.Evolves ps (o.handSub keep traits s) ps :=
  .of_kept h.names (h.handSub keep traits hs).names (fun _ => rfl) (fun _ => rfl) fun _ _ => id

theorem Sound.evolves_noteMerge (h : o.Sound) (keep absorbed : GroupId) :
    o.Evolves ps (o.noteMerge keep absorbed) ps :=
  .of_kept h.names (h.noteMerge keep absorbed).names (fun _ => rfl) (fun _ => rfl) fun _ _ => id

theorem ReadsAlike.of_settled_eq {x y : Expr Op} (h : o.settled x = o.settled y) :
    o.ReadsAlike x y := by
  intro g
  have hm : ∀ z : Expr Op, (∃ r ∈ z.inputs, o.reduce r.group = g) ↔
      ∃ r ∈ (o.settled z).inputs, r.group = g := fun z =>
    ⟨fun ⟨r, hr, hg⟩ => ⟨o.reduceRef r, List.mem_map_of_mem hr, hg⟩, fun ⟨_, hr, hg⟩ => by
      obtain ⟨r, hr', rfl⟩ := List.mem_map.1 hr
      exact ⟨r, hr', hg⟩⟩
  rw [hm, hm, h]

theorem Sound.evolves_rewrite (h : o.Sound) {e : ExprId} {x y : Expr Op} {k : GroupId}
    (he : o.entry e = some (x, k)) (hr : o.settled x = o.settled y) (ha : o.Apart y) :
    o.Evolves ps (o.rewrite e y k) ps where
  group := h.names.reduce_reduce
  expr := h.names.reduceExpr_reduceExpr
  entry e' z g he' := by
    have hs := h.rewrite he (.of_settled_eq hr) ha
    have hl : (o.rewrite e y k).reduceExpr e' = e' := by
      refine hs.names.reduceExpr_of_live ?_
      simp only [Outline.rewrite]
      split
      · rfl
      · rw [he']; rfl
    rw [hl]
    by_cases hee : e' = e
    · subst hee
      rw [he] at he'
      cases he'
      exact ⟨y, k, if_pos rfl, .of_settled_eq hr, .refl _ _ _⟩
    · exact ⟨z, g, by simp only [Outline.rewrite]; rw [if_neg hee, he'], .refl _ _, .refl _ _ _⟩
  pairs p hp := .of_mem hp

theorem Names.reduceExpr_drop (h : o.Names) {e twin : ExprId} (x : Expr Op) (k : GroupId)
    (he : (o.entry e).isSome) (e' : ExprId) : (o.drop e twin x k).reduceExpr e'
      = if o.reduceExpr e' = e then twin else o.reduceExpr e' := by
  have hrep := h.exprRep_of_live he
  unfold reduceExpr drop
  cases hr : o.exprRep e' with
  | none =>
    have hne : e' ≠ e := fun hee => by rw [hee, hrep] at hr; cases hr
    simp [hr, hne]
  | some r => by_cases hre : r = e <;> simp [hr, hre]

/-- The dropped expression `y` lives on in its twin. -/
theorem Sound.evolves_drop (h : o.Sound) {e twin : ExprId} {x y z : Expr Op} {k k' : GroupId}
    (he : o.entry e = some (y, k)) (hne : twin ≠ e) (ht : o.entry twin = some (z, k'))
    (hr : o.settled y = o.settled x) (hc : z.Congruent x) (hps : ∀ p ∈ ps, p ∈ ps')
    (hl : k' = k ∨ (k', k) ∈ ps') : o.Evolves ps (o.drop e twin x k) ps' where
  group := h.names.reduce_reduce
  expr e' := by
    have hlive : (o.entry e).isSome := by rw [he]; rfl
    simp only [h.names.reduceExpr_drop x k hlive, h.names.reduceExpr_reduceExpr]
  entry e' w g he' := by
    have hlive : (o.entry e).isSome := by rw [he]; rfl
    rw [h.names.reduceExpr_drop x k hlive, h.names.reduceExpr_of_live (by rw [he']; rfl)]
    by_cases hee : e' = e
    · rw [if_pos hee]
      rw [hee, he] at he'
      cases he'
      refine ⟨z, k', entry_drop.2 ⟨hne, ht⟩, ?_, ?_⟩
      · exact (Alike.of_settled_eq (o := o) hr).trans (Alike.of_congruent hc).symm
      · rcases hl with rfl | hl
        · exact .refl _ _ _
        · exact (Linked.of_mem hl).symm
    · rw [if_neg hee]
      exact ⟨w, g, entry_drop.2 ⟨hee, he'⟩, .refl _ _, .refl _ _ _⟩
  pairs p hp := .of_mem (hps p hp)

end Evolves

end Outline

end PlanSearch
