import PlanSearch.Proofs.Optimizer.Attempts

/-!
# Errands

What a member of a group delivers and what a sub group of it requires are attended to: the one meets the other, or it
has been attempted to convert it, or the memo has a note that leads to the attempt. In the course of a round the notes
become a list of errands, first of groups and then of pairs of trait sets, and the list is worked off.

    o.Attending (.ofChanges c) → settleRound c o = .ok () o' → o'.Attending .none               (Attending.settleRound)
    o.Attending .none → settle fuel o = .ok () o' → o'.Attending .none                               (Attending.settle)
-/

namespace PlanSearch

open Outline

/-- The first of those that are taken for each other stays in a list. -/
theorem exists_mem_eraseDupsBy {α : Type} {r : α → α → Bool} (hr : ∀ a, r a a = true) {as : List α} {a : α}
    (ha : a ∈ as) : ∃ b ∈ as.eraseDupsBy r, r a b = true := by
  have hloop : ∀ (as bs : List α), a ∈ as ∨ (∃ b ∈ bs, r a b = true) →
      ∃ b ∈ List.eraseDupsBy.loop r as bs, r a b = true := by
    intro as
    induction as with
    | nil =>
      rintro bs (hnone | ⟨b, hb, hab⟩)
      · cases hnone
      · exact ⟨b, List.mem_reverse.2 hb, hab⟩
    | cons a' as ih =>
      intro bs h
      rw [List.eraseDupsBy.loop]
      cases hany : bs.any (r a') with
      | true =>
        refine ih bs ?_
        rcases h with hmem | hbs
        · rcases List.mem_cons.1 hmem with rfl | hmem
          · exact .inr (List.any_eq_true.1 hany)
          · exact .inl hmem
        · exact .inr hbs
      | false =>
        refine ih (a' :: bs) ?_
        rcases h with hmem | ⟨b, hb, hab⟩
        · rcases List.mem_cons.1 hmem with rfl | hmem
          · exact .inr ⟨a, List.mem_cons_self, hr a⟩
          · exact .inl hmem
        · exact .inr ⟨b, List.mem_cons_of_mem _ hb, hab⟩
  exact hloop as [] (.inl ha)

/-! ## What there is to do -/

/-- What enforcers are to be looked for: for all that has to do with a new expression, a sub group that is required
now, or a group, and for single pairs of trait sets within a group. -/
structure Errands where
  news : List ExprId
  required : List SubGroupId
  groups : List GroupId
  pairs : List (GroupId × TraitSet × TraitSet)

namespace Errands

variable {Op : Type}

/-- Nothing is to be done. -/
def none : Errands := ⟨[], [], [], []⟩

/-- The errands that changes lead to. -/
def ofChanges (c : Changes) : Errands := ⟨c.newExprs, c.required, c.merged.map Prod.fst, []⟩

/-- One of the errands is about what the member `e` of the group `g` delivers and the sub group `s` of it requires. -/
inductive Cover (t : Errands) (o : Outline Op) (e : ExprId) (s : SubGroupId) (g : GroupId) (p q : TraitSet) : Prop
  | new (listed : e ∈ t.news)
  | required (listed : s ∈ t.required)
  | group {k : GroupId} (listed : k ∈ t.groups) (same : o.reduce k = g)
  | pair {k : GroupId} {a r : TraitSet} (listed : (k, a, r) ∈ t.pairs) (same : o.reduce k = g) (delivers : a.Same p)
      (requires : r.Same q)

/-- Errands go on being about the same, under other names for groups too. -/
theorem Cover.later {t t' : Errands} {o o' : Outline Op} {e : ExprId} {s : SubGroupId} {g g' : GroupId}
    {p p' q q' : TraitSet} (h : t.Cover o e s g p q) (hr : ∀ k, o'.reduce (o.reduce k) = o'.reduce k)
    (hg : o'.reduce g = g') (hp : p.Same p') (hq : q.Same q') (news : e ∈ t.news → e ∈ t'.news)
    (required : s ∈ t.required → s ∈ t'.required) (groups : ∀ k ∈ t.groups, k ∈ t'.groups)
    (pairs : ∀ x ∈ t.pairs, x ∈ t'.pairs) : t'.Cover o' e s g' p' q' := by
  cases h with
  | new listed => exact .new (news listed)
  | required listed => exact .required (required listed)
  | group listed same => exact .group (groups _ listed) (by rw [← hg, ← same, hr])
  | pair listed same delivers requires =>
    exact .pair (pairs _ listed) (by rw [← hg, ← same, hr]) (delivers.trans hp) (requires.trans hq)

theorem not_cover_none {o : Outline Op} {e : ExprId} {s : SubGroupId} {g : GroupId} {p q : TraitSet} :
    ¬ none.Cover o e s g p q := by
  rintro (h | h | ⟨h, -⟩ | ⟨h, -, -, -⟩) <;> cases h

end Errands

namespace Optimizer

variable {Op Q : Type} [Operator Op] {o o' : Optimizer Op Q} {t : Errands}

/-- What the member `e` of the group `g` delivers and the sub group `s` of it requires is attended to. -/
inductive Attends (o : Optimizer Op Q) (t : Errands) (e : ExprId) (s : SubGroupId) (g : GroupId) (p q : TraitSet) :
    Prop
  | meets (meets : o.memo.registry.satisfies p q = true)
  | tried {k : GroupId} {a r : TraitSet} (listed : (k, a, r) ∈ o.attempted) (same : o.memo.outline.reduce k = g)
      (delivers : a.Same p) (requires : r.Same q)
  | noted (noted : (Errands.ofChanges o.memo.changes).Cover o.memo.outline e s g p q)
  | owed (owed : t.Cover o.memo.outline e s g p q)

/-- The memo is in order, all that is delivered and required in its groups is attended to, and all attempts at
conversion have left what they were to leave. -/
structure Attending (o : Optimizer Op Q) (t : Errands) : Prop where
  orderly : o.memo.Orderly
  fitting : o.memo.Fitting
  attends : ∀ e x s r, o.memo.outline.entry e = some (x, r.group) → Operator.isLogical x.op = false →
    o.memo.outline.sub s = some r → o.memo.IsRequired s → o.Attends t e s r.group x.traits r.traits
  converted : ∀ k a r, (k, a, r) ∈ o.attempted → o.memo.Converted k a r

/-- Other errands will do that are about as much. -/
theorem Attending.imp {t' : Errands} (h : o.Attending t) (ht : ∀ e x s r,
      o.memo.outline.entry e = some (x, r.group) → Operator.isLogical x.op = false →
      o.memo.outline.sub s = some r → o.memo.IsRequired s → t.Cover o.memo.outline e s r.group x.traits r.traits →
      o.Attends t' e s r.group x.traits r.traits) : o.Attending t' where
  orderly := h.orderly
  fitting := h.fitting
  converted := h.converted
  attends e x s r hx hphysical hs hrequired := by
    cases h.attends e x s r hx hphysical hs hrequired with
    | meets meets => exact .meets meets
    | tried listed same delivers requires => exact .tried listed same delivers requires
    | noted noted => exact .noted noted
    | owed owed => exact ht e x s r hx hphysical hs hrequired owed

theorem Attending.unmoved (h : o.Attending t) (hu : o.Unmoved o') : o'.Attending t := by
  refine ⟨hu.memo ▸ h.orderly, hu.memo ▸ h.fitting, fun e x s r hx hphysical hs hr => ?_, ?_⟩
  · rw [hu.memo] at hx hs hr
    cases h.attends e x s r hx hphysical hs hr with
    | meets meets => exact .meets (hu.memo ▸ meets)
    | tried listed same delivers requires =>
      exact .tried (hu.attempted ▸ listed) (hu.memo ▸ same) delivers requires
    | noted noted => exact .noted (hu.memo ▸ noted)
    | owed owed => exact .owed (hu.memo ▸ owed)
  · rw [hu.memo, hu.attempted]
    exact h.converted

variable [Quantity Q]

omit [Quantity Q] in
/-- What is attended to goes on being so, and all that comes up is noted. -/
theorem Attending.precedes (h : o.Attending t) (hp : o.memo.Precedes o'.memo)
    (ha : ∀ x ∈ o.attempted, x ∈ o'.attempted)
    (hc : ∀ k a r, (k, a, r) ∈ o'.attempted → (k, a, r) ∈ o.attempted ∨ o'.memo.Converted k a r) :
    o'.Attending t where
  orderly := hp.orderly
  fitting := hp.heeds.fitting h.fitting
  converted k a r hmem := (hc k a r hmem).elim (fun hmem => (h.converted k a r hmem).precedes hp) id
  attends e x' s r' hx' hphysical hs' hrequired' := by
    have hsound := hp.orderly.ordered.tidy.sound
    have htidy := h.orderly.ordered.tidy
    rcases hp.tracks.entry e x' r'.group hx' with hnew | ⟨x, g, hx, halike, hg⟩
    · exact .noted (.new hnew)
    rcases hp.heeds.required s hrequired' with hnoted | hrequired
    · exact .noted (.required hnoted)
    -- both were there before, in groups that are one now
    obtain ⟨sub, hsub, -⟩ := id hrequired
    have hs : o.memo.outline.sub s = some sub.ref := by
      rw [Memo.outline_sub, hsub]
      rfl
    obtain ⟨r'', hr'', htraits, hgroup⟩ := hp.lineage.sub s sub.ref hs
    rw [hsound.names.reduceSub_of_live (by rw [hs']; rfl), hs'] at hr''
    cases hr''
    have hhome : o'.memo.outline.reduce r'.group = r'.group := hsound.reduce_home hx'
    have hone : o'.memo.outline.reduce g = o'.memo.outline.reduce sub.ref.group := by rw [hg, ← hgroup, hhome]
    rcases hp.tracks.joined g sub.ref.group hone with hsame | ⟨q, hq, hqg⟩
    · obtain ⟨c, hcell, -⟩ := (htidy.indexed.filed s _ hs).resolve_left id
      rw [htidy.sound.reduce_home hx, htidy.sound.names.reduce_of_live (by rw [hcell]; rfl)] at hsame
      subst hsame
      have hdelivered : x.traits.Same x'.traits := congrArg Expr.traits halike
      have hasked : sub.ref.traits.Same r'.traits := htraits.symm
      have hlive : (o'.memo.outline.entry e).isSome := by rw [hx']; rfl
      cases h.attends e x s sub.ref hx (halike.op_eq ▸ hphysical) hs hrequired with
      | meets meets =>
        refine .meets ?_
        rw [hp.heeds.registry, ← o.memo.registry.satisfies_congr hdelivered hasked]
        exact meets
      | tried listed same delivers requires =>
        refine .tried (ha _ listed) ?_ (delivers.trans hdelivered) (requires.trans hasked)
        rw [← hp.tracks.group, same, hg]
      | noted noted =>
        refine .noted (noted.later hp.tracks.group hg hdelivered hasked (fun hnew => hp.tracks.news e hnew hlive)
          (hp.heeds.notes s) (fun k hk => ?_) fun _ hmem => by cases hmem)
        obtain ⟨q, hq, rfl⟩ := List.mem_map.1 hk
        exact List.mem_map_of_mem (hp.tracks.merged q hq)
      | owed owed => exact .owed (owed.later hp.tracks.group hg hdelivered hasked id id (fun _ => id) fun _ => id)
    · exact .noted (.group (List.mem_map_of_mem hq) (hqg.trans hg))

omit [Quantity Q] in
theorem Attending.proceeds {α : Type} {x : Action Op Q α} {a : α} (h : o.Attending t) (hx : Proceeds x)
    (ok : x o = .ok a o') : o'.Attending t := by
  obtain ⟨hp, ha⟩ := hx o a o' h.orderly ok
  exact h.precedes hp (fun _ hmem => ha ▸ hmem) fun _ _ _ hmem => .inl (ha ▸ hmem)

/-! ## Attempts -/

omit [Quantity Q] in
/-- An errand is done where there is nothing to convert, or where that has been attempted. -/
theorem Attending.done {g : GroupId} {actual required : TraitSet} {pairs : List (GroupId × TraitSet × TraitSet)}
    (h : o.Attending { t with pairs := (g, actual, required) :: pairs })
    (hd : o.memo.registry.satisfies actual required = true ∨ ∃ k a r, (k, a, r) ∈ o.attempted ∧
      o.memo.outline.reduce k = o.memo.outline.reduce g ∧ a.Same actual ∧ r.Same required) :
    o.Attending { t with pairs := pairs } := by
  refine h.imp fun e x s r hx _ _ _ hcover => ?_
  cases hcover with
  | new listed => exact .owed (.new listed)
  | required listed => exact .owed (.required listed)
  | group listed same => exact .owed (.group listed same)
  | pair listed same delivers requires =>
    rcases List.mem_cons.1 listed with heq | listed
    · cases heq
      rcases hd with hmeets | ⟨k, a, c, hmem, hk, ha, hc⟩
      · refine .meets ?_
        rw [← o.memo.registry.satisfies_congr delivers requires]
        exact hmeets
      · exact .tried hmem (hk.trans same) (ha.trans delivers) (hc.trans requires)
    · exact .owed (.pair listed same delivers requires)

/-- An attempt does one errand. -/
theorem Attending.convertWithin {g : GroupId} {actual required : TraitSet}
    {pairs : List (GroupId × TraitSet × TraitSet)}
    (h : o.Attending { t with pairs := (g, actual, required) :: pairs })
    (ok : convertWithin g actual required o = .ok () o') : o'.Attending { t with pairs := pairs } := by
  obtain ⟨hp, ⟨hsame, hdone⟩ | ⟨hadded, hconverted⟩⟩ := convertWithin_spec h.orderly ok
  · have hbefore : o.Attending { t with pairs := pairs } := by
      refine h.done (hdone.imp id fun ⟨a, r, hmem, ha, hr⟩ => ⟨_, a, r, hmem, ?_, ha, hr⟩)
      exact h.orderly.ordered.tidy.sound.names.reduce_reduce g
    exact hbefore.precedes hp (fun _ hmem => hsame ▸ hmem) fun _ _ _ hmem => .inl (hsame ▸ hmem)
  · have hafter : o'.Attending { t with pairs := (g, actual, required) :: pairs } := by
      refine h.precedes hp (fun _ hmem => hadded ▸ List.mem_append_left _ hmem) fun k a c hmem => ?_
      rw [hadded] at hmem
      rcases List.mem_append.1 hmem with hmem | hmem
      · exact .inl hmem
      · cases List.mem_singleton.1 hmem
        exact .inr hconverted
    refine hafter.done (.inr ⟨_, actual, required, ?_, hp.evolves.group g, TraitSet.same_refl _, TraitSet.same_refl _⟩)
    rw [hadded]
    exact List.mem_append_right _ (List.mem_singleton_self _)

omit [Operator Op] [Quantity Q] in
/-- What a required sub group of a group asks for is listed. -/
theorem requiredOf_spec {m : Memo Op Q} (ht : m.outline.Tidy) {g : GroupId} {required : List TraitSet}
    (h : requiredOf m g = .ok required) {s : SubGroupId} {r : SubGroupRef} (hs : m.outline.sub s = some r)
    (hg : m.outline.reduce g = r.group) (hr : m.IsRequired s) : r.traits ∈ required := by
  obtain ⟨subs, hsubs, h⟩ := bind_eq_ok h
  cases h
  obtain ⟨sub, hsub, hmarked⟩ := hr
  rw [Memo.outline_sub, hsub] at hs
  cases hs
  have hlive : m.outline.sub s = some sub.ref := by
    rw [Memo.outline_sub, hsub]
    rfl
  obtain ⟨c, hc, hmem⟩ := (ht.indexed.filed s _ hlive).resolve_left id
  obtain ⟨group, hgroup, hcell⟩ := Option.map_eq_some_iff.1 hc
  have hlisted : s ∈ m.subGroupsOf g := by
    unfold Memo.subGroupsOf Memo.group?
    rw [show m.groups[m.reduceGroup g]? = some group from (congrArg (fun k => m.groups[k]?) hg).trans hgroup]
    subst hcell
    exact List.mem_map_of_mem (f := Prod.snd) hmem
  have hget : m.getSubGroup s = .ok sub := by
    have hreduce : m.reduceSubGroup s = s := ht.sound.names.reduceSub_of_live (by rw [hlive]; rfl)
    unfold Memo.getSubGroup Memo.liveSubGroup
    rw [hreduce, hsub]
  exact List.mem_map_of_mem (List.mem_filter.2 ⟨(mem_of_mapM_eq_ok hsubs).2 ⟨s, hlisted, hget⟩, hmarked⟩)

omit [Quantity Q] in
/-- What a physical member of a group delivers is listed, or traits that are the same. -/
theorem deliveredBy_spec {m : Memo Op Q} (hs : m.outline.Sound) {g : GroupId} {delivered : List TraitSet}
    (h : deliveredBy m g = .ok delivered) {e : ExprId} {x : Expr Op}
    (hx : m.outline.entry e = some (x, m.outline.reduce g)) (hphysical : Operator.isLogical x.op = false) :
    ∃ a ∈ delivered, a.Same x.traits := by
  obtain ⟨exprs, hexprs, h⟩ := bind_eq_ok h
  cases h
  have hmember : e ∈ m.members g := (Memo.mem_members hs).2 ⟨x, hx⟩
  have hlisted : x ∈ exprs := (mem_of_mapM_eq_ok hexprs).2 ⟨e, hmember, Memo.getExpr_of_entry hs.names hx⟩
  have hmem : x.traits ∈ (exprs.filter fun x => !Operator.isLogical x.op).map Expr.traits :=
    List.mem_map_of_mem (List.mem_filter.2 ⟨hlisted, by rw [hphysical]; rfl⟩)
  obtain ⟨a, ha, hsame⟩ := exists_mem_eraseDupsBy (r := fun a b : TraitSet => decide (a.Same b))
    (fun a => decide_eq_true (TraitSet.same_refl a)) hmem
  exact ⟨a, ha, (of_decide_eq_true hsame).symm⟩

/-- A group is attended to by attempts for all that is delivered and all that is required. -/
theorem Attending.addEnforcers {g : GroupId} {groups : List GroupId}
    (h : o.Attending ⟨[], [], g :: groups, []⟩) (ok : addEnforcers g o = .ok () o') :
    o'.Attending ⟨[], [], groups, []⟩ := by
  have ht := h.orderly.ordered.tidy
  have ok := run_get_bind_eq_ok ok
  obtain ⟨required, hrequired, ok⟩ := Action.read_bind_eq_ok ok
  obtain ⟨delivered, hdelivered, ok⟩ := Action.read_bind_eq_ok ok
  have hreduce : o.memo.outline.reduce (o.memo.reduceGroup g) = o.memo.outline.reduce g :=
    ht.sound.names.reduce_reduce g
  let pairs : List TraitSet → List (GroupId × TraitSet × TraitSet) := fun as =>
    as.flatMap fun a => required.map fun r => (o.memo.reduceGroup g, a, r)
  have hpairs : o.Attending ⟨[], [], groups, pairs delivered⟩ := by
    refine h.imp fun e x s r hx hphysical hs hr hcover => ?_
    cases hcover with
    | new listed => cases listed
    | required listed => cases listed
    | pair listed => cases listed
    | @group k listed same =>
      rcases List.mem_cons.1 listed with rfl | listed
      · obtain ⟨a, ha, hsame⟩ := deliveredBy_spec ht.sound hdelivered (by rw [hreduce, same, hx]) hphysical
        have hasked := requiredOf_spec ht hrequired hs (hreduce.trans same) hr
        have hmem : (o.memo.reduceGroup k, a, r.traits) ∈ pairs delivered :=
          List.mem_flatMap.2 ⟨a, ha, List.mem_map_of_mem hasked⟩
        exact .owed (.pair hmem (hreduce.trans same) hsame (TraitSet.same_refl _))
      · exact .owed (.group listed same)
  -- one delivered trait set after the other, and for each one requirement after the other
  refine run_forM_invariant (fun as o => o.Attending ⟨[], [], groups, pairs as⟩) (fun a as o₁ o₂ h₁ ok₁ => ?_) ok hpairs
  refine run_forM_invariant (fun rs o₃ => o₃.Attending ⟨[], [], groups,
    rs.map (fun r => (o.memo.reduceGroup g, a, r)) ++ pairs as⟩) (fun r rs o₁ o₂ h₁ ok₁ => ?_) ok₁ h₁
  exact Attending.convertWithin (t := ⟨[], [], groups, []⟩) h₁ ok₁

/-! ## Rounds -/

omit [Operator Op] [Quantity Q] in
/-- Groups that have to do with changes are affected by them. -/
theorem affectedGroups_spec {m : Memo Op Q} (ht : m.outline.Tidy) {c : Changes} {affected : List GroupId}
    (h : affectedGroups m c = .ok affected) {e : ExprId} {x : Expr Op} {s : SubGroupId} {r : SubGroupRef}
    (hx : m.outline.entry e = some (x, r.group)) (hs : m.outline.sub s = some r) {p q : TraitSet}
    (hcover : (Errands.ofChanges c).Cover m.outline e s r.group p q) :
    ∃ k ∈ affected, m.outline.reduce k = r.group := by
  have hhome : m.outline.reduce r.group = r.group := ht.sound.reduce_home hx
  obtain ⟨news, hnews, h⟩ := bind_eq_ok h
  obtain ⟨required, hrequired, h⟩ := bind_eq_ok h
  cases h
  simp only [Std.TreeSet.mem_toList, Std.TreeSet.mem_ofList, List.contains_iff_mem, List.mem_append]
  cases hcover with
  | new listed =>
    refine ⟨r.group, .inl (.inr ((mem_of_mapM_eq_ok hnews).2 ⟨e, listed, ?_⟩)), hhome⟩
    obtain ⟨entry, hentry, hplace⟩ := Option.map_eq_some_iff.1 hx
    have hreduce : m.reduceExpr e = e := ht.sound.names.reduceExpr_of_live (by rw [hx]; rfl)
    unfold Memo.groupOf Memo.getEntry
    rw [hreduce, hentry]
    exact congrArg Except.ok ((congrArg m.reduceGroup (congrArg Prod.snd hplace)).trans hhome)
  | required listed =>
    obtain ⟨sub, hsub, href⟩ := Option.map_eq_some_iff.1 hs
    have hreduce : m.reduceSubGroup s = s := ht.sound.names.reduceSub_of_live (by rw [hs]; rfl)
    have hget : m.getSubGroup s = .ok sub := by
      unfold Memo.getSubGroup Memo.liveSubGroup
      rw [hreduce, hsub]
    refine ⟨r.group, .inr ?_, hhome⟩
    rw [← href]
    exact List.mem_map_of_mem (f := SubGroup.group) ((mem_of_mapM_eq_ok hrequired).2 ⟨s, listed, hget⟩)
  | group listed same => exact ⟨_, .inl (.inl listed), same⟩
  | pair listed => cases listed

/-- In a round, the notes that it starts from are attended to, and what comes up is noted. -/
theorem Attending.settleRound {c : Changes} (h : o.Attending (.ofChanges c)) (ok : settleRound c o = .ok () o') :
    o'.Attending .none := by
  obtain ⟨o₁, o₂, o₃, o₄, affected, hstart, hnew, himproved, haffected, henforce, hfind⟩ := settleRound_spec ok
  have h₂ := (h.unmoved hstart.1).proceeds (composes_precedes.forM proceeds_priceExpr) hnew
  have h₃ := h₂.proceeds (composes_precedes.forM proceeds_winnerImproved) himproved
  have hgroups : o₃.Attending ⟨[], [], affected, []⟩ := h₃.imp fun e x s r hx _ hs _ hcover => by
    obtain ⟨k, hk, hsame⟩ := affectedGroups_spec h₃.orderly.ordered.tidy haffected hx hs hcover
    exact .owed (.group hk hsame)
  have h₄ := run_forM_invariant (fun gs o => o.Attending ⟨[], [], gs, []⟩)
    (fun g gs o₁ o₂ h ok => Attending.addEnforcers h ok) henforce hgroups
  exact h₄.unmoved hfind.toUnmoved

/-- When changes are taken, they become errands. -/
theorem Attending.taken (h : o.Attending .none) :
    ({ o with memo := o.memo.forgetChanges } : Optimizer Op Q).Attending (.ofChanges o.memo.changes) where
  orderly := Memo.Call.orderly .forgetChanges h.orderly
  fitting := ⟨h.fitting.delivered, h.fitting.asked⟩
  converted := h.converted
  attends e x s r hx hphysical hs hr := by
    cases h.attends e x s r hx hphysical hs hr with
    | meets meets => exact .meets meets
    | tried listed same delivers requires => exact .tried listed same delivers requires
    | noted noted =>
      have hs := h.orderly.ordered.tidy.sound
      have hhome : o.memo.outline.reduce r.group = r.group := hs.reduce_home hx
      exact .owed (noted.later hs.names.reduce_reduce hhome (TraitSet.same_refl _) (TraitSet.same_refl _) id id
        (fun _ => id) fun _ => id)
    | owed owed => exact absurd owed Errands.not_cover_none

/-- Settling ends without notes, and then everything is attended to. -/
theorem Attending.settle {fuel : Nat} (h : o.Attending .none) (ok : settle fuel o = .ok () o') :
    o'.Attending .none ∧ o'.memo.changes = .none := by
  obtain ⟨o₁, h₁, hempty, rfl⟩ :=
    settle_induct (fun o o' h ok => Attending.settleRound (Attending.taken h) ok) h ok
  refine ⟨h₁.taken.imp fun e x s r _ _ _ _ hcover => ?_, rfl⟩
  simp only [Changes.isEmpty, Bool.and_eq_true, List.isEmpty_iff] at hempty
  obtain ⟨⟨⟨hnews, -⟩, hrequired⟩, hmerged⟩ := hempty
  have hnone : Errands.ofChanges o₁.memo.changes = .none := by
    rw [Errands.ofChanges, hnews, hrequired, hmerged]
    rfl
  rw [hnone] at hcover
  exact absurd hcover Errands.not_cover_none

theorem Entering.change {m m' : Memo Op Q} (h : Entering m m') : Change Freely m m' := by
  cases h with
  | add ok => exact .add ok
  | request ok => exact .request ok
  | join ok => exact .join trivial ok
  | enforce ok => exact .enforce trivial ok

/-- Strides leave notes of all that they bring up. -/
theorem Attending.strides (h : o.Attending .none) (hs : o.Strides o') : o'.Attending .none := by
  induction hs with
  | refl => exact h
  | tail _ hstride ih =>
    cases hstride with
    | rest untouched => exact ih.unmoved untouched.toUnmoved
    | enter entering =>
      exact ih.precedes (entering.change.precedes ih.orderly) (fun _ hmem => hmem) fun _ _ _ hmem => .inl hmem

end Optimizer

end PlanSearch
