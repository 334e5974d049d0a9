import PlanSearch.Proofs.Outline.Sound

/-!
# Sound outlines under merging

Every change that a merge consists of keeps names and places in order: taking a group in, folding or
handing over a sub group, rewriting a reader, and dropping a reader for its twin. In between, some
readers are still on the absorbed group, which by then stands for the other.

    o.Sound → keep ≠ absorbed → … → (o.takeIn keep absorbed gone).Sound        (Sound.takeIn)
    o.Sound → twin ≠ e → … → (o.drop e twin x h).Sound                          (Sound.drop)
-/

namespace PlanSearch

namespace Outline

variable {Op : Type}

/-! ## Taking a group in -/

section TakeIn

variable {o : Outline Op} {keep absorbed : GroupId} {gone : Cell}

theorem Names.reduce_takeIn (h : o.Names) (ha : (o.group absorbed).isSome) (g : GroupId) :
    (o.takeIn keep absorbed gone).reduce g
      = if o.reduce g = absorbed then keep else o.reduce g := by
  have hrep := h.groupRep_of_live ha
  unfold reduce takeIn
  cases hg : o.groupRep g with
  | none =>
    have hne : g ≠ absorbed := fun e => by rw [e, hrep] at hg; cases hg
    simp [hg, hne]
  | some r =>
    by_cases hr : r = absorbed <;> simp [hg, hr]

theorem group_takeIn {g : GroupId} {c : Cell}
    (hc : (o.takeIn keep absorbed gone).group g = some c) :
    g ≠ absorbed ∧ ∃ c₀, o.group g = some c₀ ∧ c.subs = c₀.subs ∧
      c.members = (if g = keep then c₀.members ++ gone.members else c₀.members) ∧
      ∀ e, c.parents e ↔ c₀.parents e ∨ g = keep ∧ gone.parents e := by
  simp only [takeIn] at hc
  split at hc
  · cases hc
  · next hg =>
    refine ⟨hg, ?_⟩
    split at hc
    · next hk =>
      obtain ⟨c₀, hc₀, rfl⟩ := Option.map_eq_some_iff.1 hc
      exact ⟨c₀, hc₀, rfl, (if_pos hk).symm, by simp [hk]⟩
    · next hk => exact ⟨c, hc, rfl, (if_neg hk).symm, by simp [hk]⟩

theorem isSome_group_takeIn (g : GroupId) :
    ((o.takeIn keep absorbed gone).group g).isSome
      = (decide (g ≠ absorbed) && (o.group g).isSome) := by
  simp only [takeIn]
  split
  · next hg => simp [hg]
  · next hg => split <;> simp [hg]

theorem entry_takeIn {e : ExprId} {x : Expr Op} {g : GroupId} :
    (o.takeIn keep absorbed gone).entry e = some (x, g) ↔
      ∃ g₀, o.entry e = some (x, g₀) ∧ g = if g₀ = absorbed then keep else g₀ := by
  simp only [takeIn]
  constructor
  · intro he
    obtain ⟨⟨x₀, g₀⟩, he₀, hp⟩ := Option.map_eq_some_iff.1 he
    cases hp
    exact ⟨g₀, he₀, rfl⟩
  · rintro ⟨g₀, he₀, rfl⟩
    rw [he₀]
    rfl

theorem Places.members_takeIn (h : o.Places)
    (ha : o.group absorbed = some gone) {g : GroupId} {c : Cell}
    (hc : (o.takeIn keep absorbed gone).group g = some c) (e : ExprId) :
    e ∈ c.members ↔ ∃ x, (o.takeIn keep absorbed gone).entry e = some (x, g) := by
  obtain ⟨hg, c₀, hc₀, -, hm, -⟩ := group_takeIn hc
  have hm₀ := h.members g c₀ hc₀ e
  have hm₁ := h.members absorbed gone ha e
  simp only [entry_takeIn]
  rw [hm]
  by_cases hk : g = keep
  · rw [if_pos hk, List.mem_append, hm₀, hm₁]
    constructor
    · rintro (⟨x, hx⟩ | ⟨x, hx⟩)
      · exact ⟨x, g, hx, (if_neg hg).symm⟩
      · exact ⟨x, absorbed, hx, by rw [if_pos rfl, hk]⟩
    · rintro ⟨x, g₀, hx, hg₀⟩
      by_cases hab : g₀ = absorbed
      · exact .inr ⟨x, hab ▸ hx⟩
      · rw [if_neg hab] at hg₀
        exact .inl ⟨x, hg₀ ▸ hx⟩
  · rw [if_neg hk, hm₀]
    constructor
    · rintro ⟨x, hx⟩
      exact ⟨x, g, hx, (if_neg hg).symm⟩
    · rintro ⟨x, g₀, hx, hg₀⟩
      by_cases hab : g₀ = absorbed
      · rw [if_pos hab] at hg₀
        exact absurd hg₀ hk
      · rw [if_neg hab] at hg₀
        exact ⟨x, hg₀ ▸ hx⟩

theorem Places.nodup_takeIn (h : o.Places)
    (ha : o.group absorbed = some gone) {g : GroupId} {c : Cell}
    (hc : (o.takeIn keep absorbed gone).group g = some c) : c.members.Nodup := by
  obtain ⟨hg, c₀, hc₀, -, hm, -⟩ := group_takeIn hc
  rw [hm]
  split
  · refine List.nodup_append.2 ⟨h.nodup g c₀ hc₀, h.nodup absorbed gone ha, ?_⟩
    rintro e he _ he' rfl
    obtain ⟨x, hx⟩ := (h.members g c₀ hc₀ e).1 he
    obtain ⟨x', hx'⟩ := (h.members absorbed gone ha e).1 he'
    rw [hx] at hx'
    cases hx'
    exact hg rfl
  · exact h.nodup g c₀ hc₀

/-- The readers of the two groups are the readers of the group that stays. -/
theorem Sound.parents_takeIn (h : o.Sound) (ha : o.group absorbed = some gone) {g : GroupId}
    {c : Cell} (hc : (o.takeIn keep absorbed gone).group g = some c) (e : ExprId) :
    c.parents e ↔ ∃ x k, (o.takeIn keep absorbed gone).entry e = some (x, k) ∧
      ∃ r ∈ x.inputs, (o.takeIn keep absorbed gone).reduce r.group = g := by
  obtain ⟨hg, c₀, hc₀, -, -, hp⟩ := group_takeIn hc
  have hlive : (o.group absorbed).isSome := by rw [ha]; rfl
  simp only [entry_takeIn, h.names.reduce_takeIn hlive]
  rw [hp, h.places.parents g c₀ hc₀ e, h.places.parents absorbed gone ha e]
  constructor
  · rintro (⟨x, k, he, r, hr, hrg⟩ | ⟨hk, x, k, he, r, hr, hrg⟩)
    · exact ⟨x, _, ⟨k, he, rfl⟩, r, hr, by rw [hrg, if_neg hg]⟩
    · exact ⟨x, _, ⟨k, he, rfl⟩, r, hr, by rw [if_pos hrg, hk]⟩
  · rintro ⟨x, _, ⟨k, he, rfl⟩, r, hr, hrg⟩
    by_cases hab : o.reduce r.group = absorbed
    · rw [if_pos hab] at hrg
      exact .inr ⟨hrg.symm, x, k, he, r, hr, hab⟩
    · rw [if_neg hab] at hrg
      exact .inl ⟨x, k, he, r, hr, hrg⟩

theorem Sound.takeIn (h : o.Sound) (hne : keep ≠ absorbed) (hk : (o.group keep).isSome)
    (ha : o.group absorbed = some gone) : (o.takeIn keep absorbed gone).Sound where
  names := by
    have hlive : (o.group absorbed).isSome := by rw [ha]; rfl
    refine ⟨?_, h.names.subs, ?_⟩
    · refine h.names.groups.unite hne (h.names.groupRep_of_live hk) fun g => ?_
      rw [isSome_group_takeIn]
      simp [and_comm]
    · have he : (fun e => ((o.takeIn keep absorbed gone).entry e).isSome = true)
          = fun e => (o.entry e).isSome = true := by
        funext e; simp [Outline.takeIn]
      rw [he]
      exact h.names.exprs
  places := by
    have hlive : (o.group absorbed).isSome := by rw [ha]; rfl
    have hkept : ((o.takeIn keep absorbed gone).group keep).isSome := by
      rw [isSome_group_takeIn, hk]; simp [hne]
    have hother : ∀ g, (o.group g).isSome →
        ((o.takeIn keep absorbed gone).group (if g = absorbed then keep else g)).isSome := by
      intro g hg
      split
      · exact hkept
      · next hab => rw [isSome_group_takeIn, hg]; simp [hab]
    refine ⟨fun g c hc e => h.places.members_takeIn ha hc e,
      fun g c hc => h.places.nodup_takeIn ha hc, fun e x g he => ?_,
      fun g c hc e => h.parents_takeIn ha hc e, fun e x g he r hr => ?_,
      fun e₁ x₁ g₁ e₂ x₂ g₂ h₁ h₂ hc => ?_⟩
    · obtain ⟨g₀, he₀, rfl⟩ := entry_takeIn.1 he
      exact hother g₀ (h.places.home e x g₀ he₀)
    · obtain ⟨g₀, he₀, rfl⟩ := entry_takeIn.1 he
      rw [h.names.reduce_takeIn hlive]
      exact hother _ (h.places.inputs e x g₀ he₀ r hr)
    · obtain ⟨k₁, he₁, -⟩ := entry_takeIn.1 h₁
      obtain ⟨k₂, he₂, -⟩ := entry_takeIn.1 h₂
      exact h.places.apart e₁ x₁ k₁ e₂ x₂ k₂ he₁ he₂ hc

end TakeIn

/-! ## Sub groups -/

theorem Sound.foldSub {o : Outline Op} (h : o.Sound) {kept s : SubGroupId} (hne : kept ≠ s)
    (hk : (o.sub kept).isSome) : (o.foldSub kept s).Sound where
  names := by
    refine ⟨h.names.groups, ?_, h.names.exprs⟩
    refine h.names.subs.unite hne (h.names.subRep_of_live hk) fun s' => ?_
    simp only [Outline.foldSub]
    split
    · next hs => simp [hs]
    · next hs => simp [hs]
  places := ⟨h.places.members, h.places.nodup, h.places.home, h.places.parents, h.places.inputs,
    h.places.apart⟩

theorem group_handSub {o : Outline Op} {keep g : GroupId} {traits : TraitSet} {s : SubGroupId}
    {c : Cell} (hc : (o.handSub keep traits s).group g = some c) :
    ∃ c₀, o.group g = some c₀ ∧ c.members = c₀.members ∧ c.parents = c₀.parents ∧
      c.subs = if g = keep then c₀.subs ++ [(traits, s)] else c₀.subs := by
  simp only [handSub] at hc
  split at hc
  · next hg =>
    obtain ⟨c₀, hc₀, rfl⟩ := Option.map_eq_some_iff.1 hc
    exact ⟨c₀, hc₀, rfl, rfl, (if_pos hg).symm⟩
  · next hg => exact ⟨c, hc, rfl, rfl, (if_neg hg).symm⟩

theorem isSome_group_handSub (o : Outline Op) (keep g : GroupId) (traits : TraitSet)
    (s : SubGroupId) : ((o.handSub keep traits s).group g).isSome = (o.group g).isSome := by
  simp only [handSub]
  split <;> simp

theorem Sound.handSub {o : Outline Op} (h : o.Sound) (keep : GroupId) (traits : TraitSet)
    {s : SubGroupId} (hs : (o.sub s).isSome) : (o.handSub keep traits s).Sound where
  names := by
    have hg : (fun g => ((o.handSub keep traits s).group g).isSome = true)
        = fun g => (o.group g).isSome = true := by
      funext g; rw [isSome_group_handSub]
    have hl : (fun s' => ((o.handSub keep traits s).sub s').isSome = true)
        = fun s' => (o.sub s').isSome = true := by
      funext s'
      simp only [Outline.handSub]
      split
      · next he => simp [he, hs]
      · rfl
    refine ⟨?_, ?_, h.names.exprs⟩
    · rw [hg]; exact h.names.groups
    · rw [hl]; exact h.names.subs
  places := by
    refine ⟨fun g c hc => ?_, fun g c hc => ?_, fun e x g he => ?_, fun g c hc => ?_,
      fun e x g he r hr => ?_, h.places.apart⟩
    · obtain ⟨c₀, hc₀, hm, -, -⟩ := group_handSub hc
      rw [hm]
      exact h.places.members g c₀ hc₀
    · obtain ⟨c₀, hc₀, hm, -, -⟩ := group_handSub hc
      rw [hm]
      exact h.places.nodup g c₀ hc₀
    · rw [isSome_group_handSub]
      exact h.places.home e x g he
    · obtain ⟨c₀, hc₀, -, hp, -⟩ := group_handSub hc
      rw [hp]
      exact h.places.parents g c₀ hc₀
    · rw [isSome_group_handSub]
      exact h.places.inputs e x g he r hr

/-! ## Readers -/

/-- Both expressions read the same live groups. -/
def ReadsAlike (o : Outline Op) (x y : Expr Op) : Prop :=
  ∀ g, (∃ r ∈ x.inputs, o.reduce r.group = g) ↔ ∃ r ∈ y.inputs, o.reduce r.group = g

theorem Sound.rewrite {o : Outline Op} (h : o.Sound) {e : ExprId} {x y : Expr Op} {k : GroupId}
    (he : o.entry e = some (x, k)) (hr : o.ReadsAlike x y) (ha : o.Apart y) :
    (o.rewrite e y k).Sound where
  names := by
    have hl : (fun e' => ((o.rewrite e y k).entry e').isSome = true)
        = fun e' => (o.entry e').isSome = true := by
      funext e'
      simp only [Outline.rewrite]
      split
      · next hee => simp [hee, he]
      · rfl
    refine ⟨h.names.groups, h.names.subs, ?_⟩
    rw [hl]
    exact h.names.exprs
  places := by
    refine ⟨fun g c hc e' => ?_, h.places.nodup, fun e' z g he' => ?_, fun g c hc e' => ?_,
      fun e' z g he' r hr' => ?_, fun e₁ x₁ g₁ e₂ x₂ g₂ h₁ h₂ hc => ?_⟩
    · rw [h.places.members g c hc e']
      simp only [Outline.rewrite]
      split
      · next hee => simp [hee, he]
      · rfl
    · simp only [Outline.rewrite] at he'
      split at he'
      · cases he'; exact h.places.home e x k he
      · exact h.places.home e' z g he'
    · rw [h.places.parents g c hc e']
      simp only [Outline.rewrite]
      by_cases hee : e' = e
      · have hrg := hr g
        simp only [hee, he, if_true, Option.some.injEq, Prod.mk.injEq]
        constructor
        · rintro ⟨_, _, ⟨rfl, rfl⟩, hx⟩; exact ⟨y, k, ⟨rfl, rfl⟩, hrg.1 hx⟩
        · rintro ⟨_, _, ⟨rfl, rfl⟩, hx⟩; exact ⟨x, k, ⟨rfl, rfl⟩, hrg.2 hx⟩
      · simp only [hee, if_false]
        rfl
    · simp only [Outline.rewrite] at he'
      split at he'
      · cases he'
        obtain ⟨r₀, hr₀, hg⟩ := (hr _).2 ⟨r, hr', rfl⟩
        have hin := h.places.inputs e x k he r₀ hr₀
        rw [hg] at hin
        exact hin
      · exact h.places.inputs e' z g he' r hr'
    · simp only [Outline.rewrite] at h₁ h₂
      split at h₁
      · next hee₁ =>
        cases h₁
        split at h₂
        · next hee₂ => rw [hee₁, hee₂]
        · exact absurd hc.symm (ha e₂ x₂ g₂ h₂)
      · split at h₂
        · cases h₂
          exact absurd hc (ha e₁ x₁ g₁ h₁)
        · exact h.places.apart e₁ x₁ g₁ e₂ x₂ g₂ h₁ h₂ hc

theorem group_drop {o : Outline Op} {e twin : ExprId} {x : Expr Op} {k g : GroupId} {c : Cell}
    (hc : (o.drop e twin x k).group g = some c) :
    ∃ c₀, o.group g = some c₀ ∧ c.subs = c₀.subs ∧
      c.members = (if g = k then c₀.members.filter (· ≠ e) else c₀.members) ∧
      ∀ e', c.parents e' ↔ c₀.parents e' ∧ ¬ (e' = e ∧ x.reads g = true) := by
  simp only [drop] at hc
  obtain ⟨c₀, hc₀, rfl⟩ := Option.map_eq_some_iff.1 hc
  exact ⟨c₀, hc₀, rfl, rfl, fun _ => Iff.rfl⟩

theorem isSome_group_drop (o : Outline Op) (e twin : ExprId) (x : Expr Op) (k g : GroupId) :
    ((o.drop e twin x k).group g).isSome = (o.group g).isSome := by
  simp [drop]

theorem entry_drop {o : Outline Op} {e twin e' : ExprId} {x y : Expr Op} {k g : GroupId} :
    (o.drop e twin x k).entry e' = some (y, g) ↔ e' ≠ e ∧ o.entry e' = some (y, g) := by
  simp only [drop]
  split
  · next he => simp [he]
  · next he => simp [he]

/-- `x` reads as the dropped expression `y` does once it is redirected. -/
theorem Sound.drop {o : Outline Op} (h : o.Sound) {e twin : ExprId} {x y : Expr Op} {k : GroupId}
    (he : o.entry e = some (y, k)) (hne : twin ≠ e) (ht : (o.entry twin).isSome)
    (hr : ∀ g, x.reads g = true ↔ ∃ r ∈ y.inputs, o.reduce r.group = g) :
    (o.drop e twin x k).Sound where
  names := by
    have hl : (fun g => ((o.drop e twin x k).group g).isSome = true)
        = fun g => (o.group g).isSome = true := by
      funext g; rw [isSome_group_drop]
    refine ⟨?_, h.names.subs, ?_⟩
    · rw [hl]; exact h.names.groups
    · refine h.names.exprs.unite hne (h.names.exprRep_of_live ht) fun e' => ?_
      simp only [Outline.drop]
      split
      · next hee => simp [hee]
      · next hee => simp [hee]
  places := by
    refine ⟨fun g c hc e' => ?_, fun g c hc => ?_, fun e' z g he' => ?_, fun g c hc e' => ?_,
      fun e' z g he' r hr' => ?_, fun e₁ x₁ g₁ e₂ x₂ g₂ h₁ h₂ hc => ?_⟩
    · obtain ⟨c₀, hc₀, -, hm, -⟩ := group_drop hc
      simp only [entry_drop]
      rw [hm]
      have hm₀ := h.places.members g c₀ hc₀ e'
      split
      · next hg =>
        rw [List.mem_filter, hm₀]
        simp [and_comm]
      · next hg =>
        rw [hm₀]
        constructor
        · rintro ⟨z, hz⟩
          refine ⟨z, fun hee => ?_, hz⟩
          rw [hee, he] at hz
          cases hz
          exact hg rfl
        · rintro ⟨z, -, hz⟩
          exact ⟨z, hz⟩
    · obtain ⟨c₀, hc₀, -, hm, -⟩ := group_drop hc
      rw [hm]
      split
      · exact (h.places.nodup g c₀ hc₀).filter _
      · exact h.places.nodup g c₀ hc₀
    · rw [isSome_group_drop]
      exact h.places.home e' z g (entry_drop.1 he').2
    · obtain ⟨c₀, hc₀, -, -, hp⟩ := group_drop hc
      rw [hp, h.places.parents g c₀ hc₀ e', hr g]
      simp only [entry_drop]
      constructor
      · rintro ⟨⟨z, k', hz, hrd⟩, hno⟩
        refine ⟨z, k', ⟨fun hee => hno ⟨hee, ?_⟩, hz⟩, hrd⟩
        rw [hee, he] at hz
        cases hz
        exact hrd
      · rintro ⟨z, k', ⟨hee, hz⟩, hrd⟩
        exact ⟨⟨z, k', hz, hrd⟩, fun hno => hee hno.1⟩
    · rw [isSome_group_drop]
      exact h.places.inputs e' z g (entry_drop.1 he').2 r hr'
    · exact h.places.apart e₁ x₁ g₁ e₂ x₂ g₂ (entry_drop.1 h₁).2 (entry_drop.1 h₂).2 hc

theorem Sound.noteMerge {o : Outline Op} (h : o.Sound) (keep absorbed : GroupId) :
    (o.noteMerge keep absorbed).Sound where
  names := ⟨h.names.groups, h.names.subs, h.names.exprs⟩
  places := ⟨h.places.members, h.places.nodup, h.places.home, h.places.parents, h.places.inputs,
    h.places.apart⟩

end Outline

end PlanSearch
