import PlanSearch.Proofs.Outline.Shift

/-!
# What becomes of sub groups

Sub groups change hands and are folded into others. Whatever happens, the name of a sub group goes on
standing for a live sub group under the same traits, in what became of its group.

    o.Lineage o' → o'.Lineage o'' → o.Lineage o''        (Lineage.trans)
-/

namespace PlanSearch

namespace Outline

variable {Op : Type}

/-- Every name of a sub group in the outline `o` stands for the same in the outline `o'`. -/
structure Lineage (o o' : Outline Op) : Prop where
  group : ∀ g, o'.reduce (o.reduce g) = o'.reduce g
  name : ∀ s, o'.reduceSub (o.reduceSub s) = o'.reduceSub s
  sub : ∀ s r, o.sub s = some r → ∃ r', o'.sub (o'.reduceSub s) = some r' ∧
    r'.traits.Same r.traits ∧ o'.reduce r'.group = o'.reduce r.group

section Lineage

variable {o o' o'' : Outline Op}

theorem Lineage.trans (h₁ : o.Lineage o') (h₂ : o'.Lineage o'') : o.Lineage o'' where
  group g := by rw [← h₂.group (o.reduce g), h₁.group, h₂.group]
  name s := by rw [← h₂.name (o.reduceSub s), h₁.name, h₂.name]
  sub s r hs := by
    obtain ⟨r', hr', ht, hg⟩ := h₁.sub s r hs
    obtain ⟨r'', hr'', ht', hg'⟩ := h₂.sub _ r' hr'
    rw [h₂.name] at hr''
    refine ⟨r'', hr'', ht'.trans ht, ?_⟩
    rw [hg', ← h₂.group r'.group, hg, h₂.group]

/-- Sub groups stay as they are. -/
theorem Lineage.of_kept (hn : o.Names) (hn' : o'.Names) (hg : ∀ g, o'.reduce (o.reduce g) = o'.reduce g)
    (hr : ∀ s, o'.reduceSub s = o.reduceSub s) (hs : ∀ s r, o.sub s = some r → o'.sub s = some r) :
    o.Lineage o' where
  group := hg
  name s := by rw [hr, hr, hn.reduceSub_reduceSub]
  sub s r h := by
    have h' := hs s r h
    rw [hn'.reduceSub_of_live (by rw [h']; rfl)]
    exact ⟨r, h', TraitSet.same_refl _, rfl⟩

theorem Lineage.refl (hn : o.Names) : o.Lineage o :=
  .of_kept hn hn hn.reduce_reduce (fun _ => rfl) fun _ _ h => h

theorem Sound.lineage_openSub (h : o.Sound) (g : GroupId) (traits : TraitSet) :
    o.Lineage (o.openSub g traits) := by
  have hfresh : o.subRep ⟨o.next⟩ = none := h.names.subs.rep_eq_none (Nat.le_refl _)
  have hnone : o.sub ⟨o.next⟩ = none := h.names.fresh_sub (Nat.le_refl _)
  refine .of_kept h.names (h.openSub g traits).names h.names.reduce_reduce (fun s => ?_)
    fun s r hs => ?_
  · unfold reduceSub
    simp only [Outline.openSub]
    split
    · next hs => rw [hs, hfresh]; rfl
    · rfl
  · have hne : s ≠ ⟨o.next⟩ := fun e => by rw [e, hnone] at hs; cases hs
    simp only [Outline.openSub]
    rw [if_neg hne, hs]

theorem Names.reduceSub_foldSub (h : o.Names) {kept s : SubGroupId} (hs : (o.sub s).isSome)
    (t : SubGroupId) :
    (o.foldSub kept s).reduceSub t = if o.reduceSub t = s then kept else o.reduceSub t := by
  have hrep : o.subRep s = some s := h.subRep_of_live hs
  unfold reduceSub
  simp only [Outline.foldSub]
  cases hr : o.subRep t with
  | none =>
    have hne : t ≠ s := fun e => by rw [e, hrep] at hr; cases hr
    simp [hne]
  | some r =>
    by_cases hrs : r = s
    · simp [hrs]
    · simp [hrs]

/-- A sub group that is folded into another goes on as that one. -/
theorem Sound.lineage_foldSub (h : o.Sound) {kept s : SubGroupId} {r rk : SubGroupRef}
    (hne : kept ≠ s) (hs : o.sub s = some r) (hk : o.sub kept = some rk)
    (ht : rk.traits.Same r.traits) (hg : o.reduce rk.group = o.reduce r.group) :
    o.Lineage (o.foldSub kept s) := by
  have hslive : (o.sub s).isSome := by rw [hs]; rfl
  have hklive : (o.sub kept).isSome := by rw [hk]; rfl
  have hred : ∀ t, (o.foldSub kept s).reduceSub t
      = if o.reduceSub t = s then kept else o.reduceSub t :=
    fun t => h.names.reduceSub_foldSub hslive t
  have hkk : o.reduceSub kept = kept := h.names.reduceSub_of_live hklive
  refine ⟨h.names.reduce_reduce, fun t => ?_, fun t rt hrt => ?_⟩
  · simp only [hred, h.names.reduceSub_reduceSub]
  · rw [hred, h.names.reduceSub_of_live (by rw [hrt]; rfl)]
    by_cases hts : t = s
    · subst hts
      rw [hs] at hrt
      cases hrt
      refine ⟨rk, ?_, ht, hg⟩
      simp only [Outline.foldSub, if_true]
      rw [if_neg hne, hk]
    · refine ⟨rt, ?_, TraitSet.same_refl _, rfl⟩
      simp only [Outline.foldSub]
      rw [if_neg hts, if_neg hts, hrt]

/-- A sub group that is handed over keeps its traits. -/
theorem Sound.lineage_handSub (h : o.Sound) {keep : GroupId} {s : SubGroupId} {r : SubGroupRef}
    (hs : o.sub s = some r) (hg : o.reduce keep = o.reduce r.group) :
    o.Lineage (o.handSub keep r.traits s) := by
  have hn' := (h.handSub keep r.traits (s := s) (by rw [hs]; rfl)).names
  refine ⟨h.names.reduce_reduce, h.names.reduceSub_reduceSub, fun t rt hrt => ?_⟩
  have hlive : ((o.handSub keep r.traits s).sub t).isSome := by
    simp only [Outline.handSub]
    split
    · rfl
    · rw [hrt]; rfl
  rw [hn'.reduceSub_of_live hlive]
  simp only [Outline.handSub]
  split
  · next hts =>
    rw [hts, hs] at hrt
    cases hrt
    exact ⟨_, rfl, TraitSet.same_refl _, hg⟩
  · exact ⟨rt, hrt, TraitSet.same_refl _, rfl⟩

end Lineage

end Outline

end PlanSearch
