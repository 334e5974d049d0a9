import Mathlib.Logic.Relation
import PlanSearch.Proofs.Outline.Tidy

/-!
# In the middle of a merge

Once a group has been taken in, the rest of the merge is a series of shifts: sub groups are folded or
handed over one at a time, then readers are rewritten or dropped one at a time. What is still to be
done is told by the strays, and after that by the readers not yet visited.

    Moving o keep absorbed (s :: rest) → … → Moving (o.foldSub kept s) keep absorbed rest
    Redirecting o keep absorbed (e :: todo) → … → Redirecting (o.rewrite …) keep absorbed todo
-/

namespace PlanSearch

/-! ## Redirected expressions -/

namespace Expr

variable {Op : Type}

theorem mem_inputs_redirect {x : Expr Op} {source target : GroupId} {r : SubGroupRef} :
    r ∈ (x.redirect source target).inputs ↔
      ∃ r₀ ∈ x.inputs, r = if r₀.group = source then ⟨target, r₀.traits⟩ else r₀ := by
  simp only [redirect, List.mem_map, eq_comm]

/-- A redirected expression does not read the group that it was redirected from. -/
theorem reads_redirect {x : Expr Op} {source target : GroupId} (h : target ≠ source) :
    (x.redirect source target).reads source = false := by
  rw [← Bool.not_eq_true, reads_iff]
  rintro ⟨r, hr, hg⟩
  obtain ⟨r₀, -, rfl⟩ := mem_inputs_redirect.1 hr
  split at hg
  · exact h hg
  · next hne => exact hne hg

/-- Congruent expressions read the same groups. -/
theorem Congruent.reads {x y : Expr Op} (h : x.Congruent y) (g : GroupId) : x.reads g = y.reads g := by
  have hi : x.inputs.map SubGroupRef.canon = y.inputs.map SubGroupRef.canon := congrArg inputs h
  have hr : ∀ z : Expr Op, z.reads g = (z.inputs.map SubGroupRef.canon).any fun r => r.group = g :=
    fun z => by rw [List.any_map]; rfl
  rw [hr, hr, hi]

end Expr

namespace Outline

variable {Op : Type}

theorem settled_redirect {o : Outline Op} {keep absorbed : GroupId} (hk : o.reduce keep = keep)
    (ha : o.reduce absorbed = keep) (x : Expr Op) :
    o.settled x = o.settled (x.redirect absorbed keep) := by
  simp only [settled, Expr.redirect, List.map_map]
  congr 1
  refine List.map_congr_left fun r _ => ?_
  simp only [Function.comp_apply, reduceRef]
  split
  · next hr => rw [hr, hk, ha]
  · rfl

/-- Where all inputs are live or on the absorbed group, a redirected expression reads live groups. -/
theorem reads_redirect_iff {o : Outline Op} {keep absorbed : GroupId} {x : Expr Op}
    (ha : o.reduce absorbed = keep)
    (hx : ∀ r ∈ x.inputs, o.reduce r.group = r.group ∨ r.group = absorbed) (g : GroupId) :
    (x.redirect absorbed keep).reads g = true ↔ ∃ r ∈ x.inputs, o.reduce r.group = g := by
  rw [Expr.reads_iff]
  constructor
  · rintro ⟨r, hr, rfl⟩
    obtain ⟨r₀, hr₀, rfl⟩ := Expr.mem_inputs_redirect.1 hr
    refine ⟨r₀, hr₀, ?_⟩
    split
    · next hg => rw [hg, ha]
    · next hg => exact (hx r₀ hr₀).resolve_right hg
  · rintro ⟨r₀, hr₀, rfl⟩
    refine ⟨_, Expr.mem_inputs_redirect.2 ⟨r₀, hr₀, rfl⟩, ?_⟩
    split
    · next hg => rw [hg, ha]
    · next hg => exact ((hx r₀ hr₀).resolve_right hg).symm

/-! ## Shifts -/

/-- One change in the middle of a merge, with the pairs of groups that are to be merged because of
the changes so far. -/
inductive Shift (keep absorbed : GroupId) :
    Outline Op × List (GroupId × GroupId) → Outline Op × List (GroupId × GroupId) → Prop
  | fold {o : Outline Op} {ps : List (GroupId × GroupId)} {kept s : SubGroupId} (sound : o.Sound)
      (ne : kept ≠ s) (live : (o.sub kept).isSome) : Shift keep absorbed (o, ps) (o.foldSub kept s, ps)
  | hand {o : Outline Op} {ps : List (GroupId × GroupId)} {traits : TraitSet} {s : SubGroupId}
      (sound : o.Sound) (live : (o.sub s).isSome) :
      Shift keep absorbed (o, ps) (o.handSub keep traits s, ps)
  | rewrite {o : Outline Op} {ps : List (GroupId × GroupId)} {e : ExprId} {x : Expr Op} {k : GroupId}
      (sound : o.Sound) (gone : o.reduce absorbed = keep) (known : o.entry e = some (x, k))
      (apart : o.Apart (x.redirect absorbed keep)) :
      Shift keep absorbed (o, ps) (o.rewrite e (x.redirect absorbed keep) k, ps)
  | drop {o : Outline Op} {ps : List (GroupId × GroupId)} {e twin : ExprId} {x y : Expr Op}
      {k k' : GroupId} (sound : o.Sound) (gone : o.reduce absorbed = keep)
      (known : o.entry e = some (x, k)) (ne : twin ≠ e) (other : o.entry twin = some (y, k'))
      (congruent : y.Congruent (x.redirect absorbed keep)) :
      Shift keep absorbed (o, ps)
        (o.drop e twin (x.redirect absorbed keep) k, if k' = k then ps else ps ++ [(k', k)])

/-- A series of shifts. -/
abbrev Shifts (keep absorbed : GroupId) :
    Outline Op × List (GroupId × GroupId) → Outline Op × List (GroupId × GroupId) → Prop :=
  Relation.ReflTransGen (Shift keep absorbed)

section Shift

variable {keep absorbed : GroupId} {a b : Outline Op × List (GroupId × GroupId)}

theorem reduce_kept {o : Outline Op} (h : o.Sound) (ha : o.reduce absorbed = keep) :
    o.reduce keep = keep := by
  rw [← ha, h.names.reduce_reduce]

theorem Shift.evolves (h : Shift keep absorbed a b) : a.1.Evolves a.2 b.1 b.2 := by
  cases h with
  | fold sound ne live => exact sound.evolves_foldSub ne live
  | hand sound live => exact sound.evolves_handSub keep _ live
  | rewrite sound gone known apart =>
    exact sound.evolves_rewrite known (settled_redirect (reduce_kept sound gone) gone _) apart
  | @drop _ _ _ _ _ _ k k' sound gone known ne other congruent =>
    refine sound.evolves_drop known ne other (settled_redirect (reduce_kept sound gone) gone _)
      congruent (fun p hp => ?_) ?_
    · dsimp only
      split
      · exact hp
      · exact List.mem_append_left _ hp
    · by_cases hk : k' = k
      · exact .inl hk
      · right
        dsimp only
        rw [if_neg hk]
        simp

/-- Shifts leave the groups as they are, up to what they list. -/
theorem Shift.frame (h : Shift keep absorbed a b) :
    b.1.groupRep = a.1.groupRep ∧ b.1.merged = a.1.merged ∧ b.1.next = a.1.next ∧
      ∀ g, (b.1.group g).isSome = (a.1.group g).isSome := by
  cases h with
  | fold | rewrite => exact ⟨rfl, rfl, rfl, fun _ => rfl⟩
  | hand => exact ⟨rfl, rfl, rfl, fun _ => isSome_group_handSub ..⟩
  | drop => exact ⟨rfl, rfl, rfl, fun _ => isSome_group_drop ..⟩

theorem Shifts.frame (h : Shifts keep absorbed a b) :
    b.1.groupRep = a.1.groupRep ∧ b.1.merged = a.1.merged ∧ b.1.next = a.1.next ∧
      ∀ g, (b.1.group g).isSome = (a.1.group g).isSome := by
  induction h with
  | refl => exact ⟨rfl, rfl, rfl, fun _ => rfl⟩
  | tail _ hs ih =>
    obtain ⟨h₁, h₂, h₃, h₄⟩ := hs.frame
    exact ⟨h₁.trans ih.1, h₂.trans ih.2.1, h₃.trans ih.2.2.1, fun g => (h₄ g).trans (ih.2.2.2 g)⟩

theorem Shifts.evolves (h : Shifts keep absorbed a b) (hn : a.1.Names) :
    a.1.Evolves a.2 b.1 b.2 := by
  induction h with
  | refl => exact .refl hn
  | tail _ hs ih => exact ih.trans hs.evolves

end Shift

/-! ## Sub groups on the move -/

/-- The sub groups `rest` of the absorbed group are still to be moved. -/
structure Moving (o : Outline Op) (keep absorbed : GroupId) (rest : List SubGroupId) : Prop where
  sound : o.Sound
  live : (o.group keep).isSome
  dead : o.group absorbed = none
  gone : o.reduce absorbed = keep
  indexed : o.Indexed (· ∈ rest)
  strays : ∀ s ∈ rest, ∃ t, o.sub s = some ⟨absorbed, t⟩
  nodup : rest.Nodup
  served : ∀ e x g, o.entry e = some (x, g) → ∀ r ∈ x.inputs, o.Served (o.reduceRef r) ∨
    o.reduce r.group = keep ∧ ∃ s ∈ rest, ∃ t, o.sub s = some ⟨absorbed, t⟩ ∧ t.Same r.traits
  settled : ∀ e x g, o.entry e = some (x, g) → ∀ r ∈ x.inputs,
    o.reduce r.group = r.group ∨ r.group = absorbed

theorem Tidy.takeIn {o : Outline Op} (h : o.Tidy) {keep absorbed : GroupId} {gone : Cell}
    (hne : keep ≠ absorbed) (hk : (o.group keep).isSome) (ha : o.group absorbed = some gone) :
    Moving (o.takeIn keep absorbed gone) keep absorbed (gone.subs.map Prod.snd) := by
  have hlive : (o.group absorbed).isSome := by rw [ha]; rfl
  have hreduce : ∀ g, (o.takeIn keep absorbed gone).reduce g
      = if o.reduce g = absorbed then keep else o.reduce g := h.sound.names.reduce_takeIn hlive
  have hback : ∀ g c, g ≠ absorbed → o.group g = some c →
      ∃ c', (o.takeIn keep absorbed gone).group g = some c' ∧ c'.subs = c.subs := by
    intro g c hg hc
    obtain ⟨c', hc'⟩ := Option.isSome_iff_exists.1
      (show ((o.takeIn keep absorbed gone).group g).isSome by
        rw [isSome_group_takeIn, hc]; simp [hg])
    obtain ⟨-, c₀, hc₀, hs, -⟩ := group_takeIn hc'
    rw [hc] at hc₀
    cases hc₀
    exact ⟨c', hc', hs⟩
  refine ⟨h.sound.takeIn hne hk ha, ?_, ?_, ?_, ⟨fun g c hc p hp => ?_, fun g c hc => ?_,
    fun s r hs => ?_⟩, fun s hs => ?_, h.indexed.nodup_subs ha, fun e x g he r hr => ?_,
    fun e x g he r hr => ?_⟩
  · rw [isSome_group_takeIn, hk]; simp [hne]
  · simp [Outline.takeIn]
  · rw [hreduce, h.sound.names.reduce_of_live hlive, if_pos rfl]
  · obtain ⟨-, c₀, hc₀, hs, -⟩ := group_takeIn hc
    exact h.indexed.listed g c₀ hc₀ p (hs ▸ hp)
  · obtain ⟨-, c₀, hc₀, hs, -⟩ := group_takeIn hc
    rw [hs]
    exact h.indexed.apart g c₀ hc₀
  · obtain ⟨c, hc, hm⟩ := (h.indexed.filed s r hs).resolve_left id
    by_cases hg : r.group = absorbed
    · rw [hg, ha] at hc
      cases hc
      exact .inl (List.mem_map.2 ⟨_, hm, rfl⟩)
    · obtain ⟨c', hc', hs'⟩ := hback _ c hg hc
      exact .inr ⟨c', hc', hs' ▸ hm⟩
  · obtain ⟨p, hp, rfl⟩ := List.mem_map.1 hs
    exact ⟨p.1, h.indexed.listed absorbed gone ha p hp⟩
  · obtain ⟨g₀, he₀, -⟩ := entry_takeIn.1 he
    obtain ⟨c, hc, p, hp, ht⟩ := h.ready e x g₀ he₀ r hr
    have hrr := h.reduce_input he₀ hr
    by_cases hg : r.group = absorbed
    · right
      rw [hg, ha] at hc
      cases hc
      refine ⟨by rw [hreduce, hrr, if_pos hg], p.2, List.mem_map.2 ⟨p, hp, rfl⟩, p.1, ?_, ht⟩
      exact h.indexed.listed absorbed gone ha p hp
    · left
      obtain ⟨c', hc', hs'⟩ := hback _ c hg hc
      refine ⟨c', ?_, p, hs' ▸ hp, ht⟩
      show (o.takeIn keep absorbed gone).group ((o.takeIn keep absorbed gone).reduce r.group) = _
      rw [hreduce, hrr, if_neg hg, hc']
  · obtain ⟨g₀, he₀, -⟩ := entry_takeIn.1 he
    by_cases hg : r.group = absorbed
    · exact .inr hg
    · left
      rw [hreduce, h.reduce_input he₀ hr, if_neg hg]

section Moving

variable {o : Outline Op} {keep absorbed : GroupId} {s : SubGroupId} {rest : List SubGroupId}
  {t : TraitSet} {c : Cell}

/-- A listed sub group is no stray. -/
theorem Moving.ne_stray (h : Moving o keep absorbed rest) (hs : s ∈ rest) {g : GroupId} {c : Cell}
    (hc : o.group g = some c) {p : TraitSet × SubGroupId} (hp : p ∈ c.subs) : p.2 ≠ s := by
  intro he
  obtain ⟨t, ht⟩ := h.strays s hs
  rw [← he, h.indexed.listed g c hc p hp] at ht
  have hg : g = absorbed := by simpa using congrArg (Option.map SubGroupRef.group) ht
  rw [hg, h.dead] at hc
  cases hc

/-- A sub group of the absorbed group is folded into one of the group that stays. -/
theorem Moving.foldSub (h : Moving o keep absorbed (s :: rest)) (hs : o.sub s = some ⟨absorbed, t⟩)
    (hc : o.group keep = some c) {p : TraitSet × SubGroupId} (hp : p ∈ c.subs) (ht : p.1.Same t) :
    Moving (o.foldSub p.2 s) keep absorbed rest := by
  have hmem : s ∈ s :: rest := List.mem_cons_self
  have hne : p.2 ≠ s := h.ne_stray hmem hc hp
  have hkept := h.indexed.listed keep c hc p hp
  have hrest : ∀ s' ∈ rest, s' ≠ s := fun s' hs' e => (List.nodup_cons.1 h.nodup).1 (e ▸ hs')
  have hsub : ∀ s', s' ≠ s → (o.foldSub p.2 s).sub s' = o.sub s' := fun s' hs' => if_neg hs'
  refine ⟨h.sound.foldSub hne (by rw [hkept]; rfl), h.live, h.dead, h.gone,
    ⟨fun g c' hc' q hq => ?_, h.indexed.apart, fun s' r hs' => ?_⟩, fun s' hs' => ?_,
    (List.nodup_cons.1 h.nodup).2, fun e x g he r hr => ?_, h.settled⟩
  · rw [hsub _ (h.ne_stray hmem hc' hq)]
    exact h.indexed.listed g c' hc' q hq
  · have hne' : s' ≠ s := fun e => by
      simp only [Outline.foldSub] at hs'
      rw [if_pos e] at hs'
      cases hs'
    rw [hsub s' hne'] at hs'
    refine (h.indexed.filed s' r hs').imp (fun hm => ?_) id
    exact (List.mem_cons.1 hm).resolve_left hne'
  · obtain ⟨t', ht'⟩ := h.strays s' (List.mem_cons_of_mem _ hs')
    exact ⟨t', by rw [hsub s' (hrest s' hs'), ht']⟩
  · rcases h.served e x g he r hr with hsv | ⟨hg, s', hs', t', ht', hsame⟩
    · exact .inl hsv
    · rcases List.mem_cons.1 hs' with rfl | hs'
      · rw [hs] at ht'
        cases ht'
        refine .inl ⟨c, ?_, p, hp, ht.trans hsame⟩
        show o.group (o.reduce r.group) = _
        rw [hg, hc]
      · exact .inr ⟨hg, s', hs', t', by rw [hsub s' (hrest s' hs'), ht'], hsame⟩

theorem subs_handSub (keep : GroupId) (s : SubGroupId) (t : TraitSet) {g : GroupId} {c₀ : Cell}
    (hc : o.group g = some c₀) :
    ∃ c', (o.handSub keep t s).group g = some c' ∧
      c'.subs = if g = keep then c₀.subs ++ [(t, s)] else c₀.subs := by
  obtain ⟨c', hc'⟩ := isSome_back (isSome_group_handSub o keep g t s) hc
  obtain ⟨c₁, hc₁, -, -, hs⟩ := group_handSub hc'
  rw [hc] at hc₁
  cases hc₁
  exact ⟨c', hc', hs⟩

theorem mem_subs_handSub (keep : GroupId) (s : SubGroupId) (t : TraitSet) {g : GroupId} {c₀ : Cell}
    (hc : o.group g = some c₀) :
    ∃ c', (o.handSub keep t s).group g = some c' ∧ ∀ p ∈ c₀.subs, p ∈ c'.subs := by
  obtain ⟨c', hc', hs'⟩ := subs_handSub keep s t hc
  refine ⟨c', hc', fun p hp => ?_⟩
  rw [hs']
  split
  · exact List.mem_append_left _ hp
  · exact hp

theorem Moving.indexed_handSub (h : Moving o keep absorbed (s :: rest)) (hc : o.group keep = some c)
    (hno : ∀ p ∈ c.subs, ¬ p.1.Same t) : (o.handSub keep t s).Indexed (· ∈ rest) where
  listed g c₁ hc₁ q hq := by
    have hsub : ∀ s', s' ≠ s → (o.handSub keep t s).sub s' = o.sub s' := fun s' hs' => if_neg hs'
    have hself : (o.handSub keep t s).sub s = some ⟨keep, t⟩ := if_pos rfl
    obtain ⟨c₀, hc₀, -, -, hs₀⟩ := group_handSub hc₁
    have hold : ∀ q ∈ c₀.subs, (o.handSub keep t s).sub q.2 = some ⟨g, q.1⟩ := by
      intro q hq
      rw [hsub _ (h.ne_stray List.mem_cons_self hc₀ hq)]
      exact h.indexed.listed g c₀ hc₀ q hq
    rw [hs₀] at hq
    split at hq
    · next hg =>
      rcases List.mem_append.1 hq with hq | hq
      · exact hold q hq
      · rw [List.mem_singleton.1 hq, hself, hg]
    · exact hold q hq
  apart g c₁ hc₁ := by
    obtain ⟨c₀, hc₀, -, -, hs₀⟩ := group_handSub hc₁
    rw [hs₀]
    split
    · next hg =>
      rw [hg, hc] at hc₀
      cases hc₀
      refine List.pairwise_append.2 ⟨h.indexed.apart keep c hc, by simp, fun p hp q hq => ?_⟩
      rw [List.mem_singleton.1 hq]
      exact hno p hp
    · exact h.indexed.apart g c₀ hc₀
  filed s' r hs' := by
    by_cases hne : s' = s
    · subst hne
      have hself : (o.handSub keep t s').sub s' = some ⟨keep, t⟩ := if_pos rfl
      rw [hself] at hs'
      cases hs'
      obtain ⟨c', hc', hkept⟩ := subs_handSub keep s' t hc
      exact .inr ⟨c', hc', by rw [hkept, if_pos rfl]; simp⟩
    · have hsub : (o.handSub keep t s).sub s' = o.sub s' := if_neg hne
      rw [hsub] at hs'
      rcases h.indexed.filed s' r hs' with hm | ⟨c₀, hc₀, hm⟩
      · exact .inl ((List.mem_cons.1 hm).resolve_left hne)
      · obtain ⟨c₁, hc₁, hs₁⟩ := mem_subs_handSub keep s t hc₀
        exact .inr ⟨c₁, hc₁, hs₁ _ hm⟩

/-- A sub group of the absorbed group is handed over to the group that stays. -/
theorem Moving.handSub (h : Moving o keep absorbed (s :: rest)) (hs : o.sub s = some ⟨absorbed, t⟩)
    (hc : o.group keep = some c) (hno : ∀ p ∈ c.subs, ¬ p.1.Same t) :
    Moving (o.handSub keep t s) keep absorbed rest := by
  have hrest : ∀ s' ∈ rest, s' ≠ s := fun s' hs' e => (List.nodup_cons.1 h.nodup).1 (e ▸ hs')
  have hsub : ∀ s', s' ≠ s → (o.handSub keep t s).sub s' = o.sub s' := fun s' hs' => if_neg hs'
  obtain ⟨c', hc', hkept⟩ := subs_handSub keep s t hc
  rw [if_pos rfl] at hkept
  refine ⟨h.sound.handSub keep t (by rw [hs]; rfl), ?_, ?_, h.gone, h.indexed_handSub hc hno,
    fun s' hs' => ?_, (List.nodup_cons.1 h.nodup).2, fun e x g he r hr => ?_, h.settled⟩
  · rw [isSome_group_handSub]
    exact h.live
  · have hd := isSome_group_handSub o keep absorbed t s
    rw [h.dead] at hd
    simpa using hd
  · obtain ⟨t', ht'⟩ := h.strays s' (List.mem_cons_of_mem _ hs')
    exact ⟨t', by rw [hsub s' (hrest s' hs'), ht']⟩
  · rcases h.served e x g he r hr with hsv | ⟨hg, s', hs', t', ht', hsame⟩
    · exact .inl (hsv.later fun g c₀ hc₀ => mem_subs_handSub keep s t hc₀)
    · rcases List.mem_cons.1 hs' with rfl | hs'
      · rw [hs] at ht'
        cases ht'
        refine .inl ⟨c', ?_, (t, s'), by rw [hkept]; simp, hsame⟩
        show (o.handSub keep t s').group (o.reduce r.group) = _
        rw [hg, hc']
      · exact .inr ⟨hg, s', hs', t', by rw [hsub s' (hrest s' hs'), ht'], hsame⟩

end Moving

/-! ## Readers on the move -/

/-- The readers `todo` of the absorbed group are still to be redirected. -/
structure Redirecting (o : Outline Op) (keep absorbed : GroupId) (todo : List ExprId) : Prop where
  sound : o.Sound
  ne : keep ≠ absorbed
  gone : o.reduce absorbed = keep
  indexed : o.Indexed fun _ => False
  served : ∀ e x g, o.entry e = some (x, g) → ∀ r ∈ x.inputs, o.Served (o.reduceRef r)
  settled : ∀ e x g, o.entry e = some (x, g) → ∀ r ∈ x.inputs,
    o.reduce r.group = r.group ∨ r.group = absorbed ∧ e ∈ todo

/-- Once all sub groups are moved, the readers of the group that stays are still to be visited. -/
theorem Moving.redirecting {o : Outline Op} {keep absorbed : GroupId}
    (h : Moving o keep absorbed []) (hne : keep ≠ absorbed) {c : Cell}
    (hc : o.group keep = some c) (todo : List ExprId) (ht : ∀ e, c.parents e → e ∈ todo) :
    Redirecting o keep absorbed todo where
  sound := h.sound
  ne := hne
  gone := h.gone
  indexed := ⟨h.indexed.listed, h.indexed.apart, fun s r hs =>
    (h.indexed.filed s r hs).imp (fun hm => by cases hm) id⟩
  served e x g he r hr := (h.served e x g he r hr).resolve_right fun ⟨_, s, hs, _⟩ => by cases hs
  settled e x g he r hr := by
    refine (h.settled e x g he r hr).imp id fun hg => ⟨hg, ht e ?_⟩
    exact (h.sound.places.parents keep c hc e).2 ⟨x, g, he, r, hr, by rw [hg, h.gone]⟩

section Redirecting

variable {o : Outline Op} {keep absorbed : GroupId} {e : ExprId} {todo : List ExprId}

/-- When all readers have been visited, the outline is tidy again. -/
theorem Redirecting.tidy (h : Redirecting o keep absorbed []) : o.Tidy where
  sound := h.sound
  indexed := h.indexed
  ready e x g he r hr := by
    have hg := (h.settled e x g he r hr).resolve_right fun hm => by cases hm.2
    have hs := h.served e x g he r hr
    rwa [show o.reduceRef r = r by rw [reduceRef, hg]] at hs

/-- A name without an expression on the absorbed group is passed over. -/
theorem Redirecting.pass (h : Redirecting o keep absorbed (e :: todo))
    (he : ∀ x g, o.entry e = some (x, g) → x.reads absorbed = false) :
    Redirecting o keep absorbed todo where
  sound := h.sound
  ne := h.ne
  gone := h.gone
  indexed := h.indexed
  served := h.served
  settled e' x g he' r hr := by
    refine (h.settled e' x g he' r hr).imp id fun ⟨hg, hm⟩ => ⟨hg, ?_⟩
    rcases List.mem_cons.1 hm with rfl | hm
    · have := he x g he'
      rw [← Bool.not_eq_true, Expr.reads_iff] at this
      exact absurd ⟨r, hr, hg⟩ this
    · exact hm

theorem Redirecting.rewrite (h : Redirecting o keep absorbed (e :: todo)) {x : Expr Op} {k : GroupId}
    (he : o.entry e = some (x, k)) (ha : o.Apart (x.redirect absorbed keep)) :
    Redirecting (o.rewrite e (x.redirect absorbed keep) k) keep absorbed todo := by
  have hk := reduce_kept h.sound h.gone
  have hrs := settled_redirect hk h.gone x
  refine ⟨h.sound.rewrite he (.of_settled_eq hrs) ha, h.ne, h.gone,
    h.indexed.of_same_subs rfl (fun g c hc => .inr ⟨c, hc, rfl⟩) (fun g c hc => ⟨c, hc, rfl⟩),
    fun e' y g he' r hr => ?_, fun e' y g he' r hr => ?_⟩
  · simp only [Outline.rewrite] at he'
    split at he'
    · cases he'
      obtain ⟨r₀, hr₀, rfl⟩ := Expr.mem_inputs_redirect.1 hr
      have hs := h.served e x k he r₀ hr₀
      split
      · next hg =>
        rw [show o.reduceRef r₀ = ⟨keep, r₀.traits⟩ by rw [reduceRef, hg, h.gone]] at hs
        show o.Served ⟨o.reduce keep, r₀.traits⟩
        rw [hk]
        exact hs
      · exact hs
    · exact h.served e' y g he' r hr
  · simp only [Outline.rewrite] at he'
    split at he'
    · cases he'
      left
      obtain ⟨r₀, hr₀, rfl⟩ := Expr.mem_inputs_redirect.1 hr
      split
      · exact hk
      · next hg => exact (h.settled e x k he r₀ hr₀).resolve_right fun hm => hg hm.1
    · next hne =>
      refine (h.settled e' y g he' r hr).imp id fun hlater => ⟨hlater.1, ?_⟩
      exact (List.mem_cons.1 hlater.2).resolve_left hne

theorem Redirecting.drop (h : Redirecting o keep absorbed (e :: todo)) {twin : ExprId}
    {x y : Expr Op} {k k' : GroupId} (he : o.entry e = some (x, k)) (hne : twin ≠ e)
    (ht : o.entry twin = some (y, k')) :
    Redirecting (o.drop e twin (x.redirect absorbed keep) k) keep absorbed todo := by
  have hreads := reads_redirect_iff h.gone fun r hr => (h.settled e x k he r hr).imp id And.left
  have hback : ∀ g c, o.group g = some c →
      ∃ c', (o.drop e twin (x.redirect absorbed keep) k).group g = some c' ∧ c'.subs = c.subs := by
    intro g c hc
    simp only [Outline.drop, hc, Option.map_some]
    exact ⟨_, rfl, rfl⟩
  refine ⟨h.sound.drop he hne (by rw [ht]; rfl) hreads, h.ne, h.gone,
    h.indexed.of_same_subs rfl (fun g c hc => ?_) hback, fun e' z g he' r hr => ?_,
    fun e' z g he' r hr => ?_⟩
  · obtain ⟨c₀, hc₀, hs, -⟩ := group_drop hc
    exact .inr ⟨c₀, hc₀, hs⟩
  · refine (h.served e' z g (entry_drop.1 he').2 r hr).later fun g' c hc => ?_
    obtain ⟨c', hc', hs⟩ := hback g' c hc
    exact ⟨c', hc', fun p hp => hs ▸ hp⟩
  · obtain ⟨hne', he'⟩ := entry_drop.1 he'
    refine (h.settled e' z g he' r hr).imp id fun hlater => ⟨hlater.1, ?_⟩
    exact (List.mem_cons.1 hlater.2).resolve_left hne'

theorem Tidy.noteMerge (h : o.Tidy) (keep absorbed : GroupId) : (o.noteMerge keep absorbed).Tidy where
  sound := h.sound.noteMerge keep absorbed
  indexed := ⟨h.indexed.listed, h.indexed.apart, h.indexed.filed⟩
  ready := h.ready

end Redirecting

end Outline

end PlanSearch
