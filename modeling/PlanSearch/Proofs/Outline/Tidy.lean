import PlanSearch.Proofs.Outline.Evolve

/-!
# Tidy outlines

What holds of the outline between merges: it is sound, every sub group is listed in its own group and
under its own traits only, and every input is on a live group that has the sub group read. In the
middle of a merge, the sub groups of the absorbed group are strays for a while.

    o.Tidy → o.Ready x → o.Apart x → (o.found x rowType facts).Tidy        (Tidy.found)
-/

namespace PlanSearch

namespace Outline

variable {Op : Type}

/-- The reference leads to a live group with a sub group under its traits. -/
def Served (o : Outline Op) (r : SubGroupRef) : Prop :=
  ∃ c, o.group r.group = some c ∧ ∃ p ∈ c.subs, p.1.Same r.traits

/-- Every input of `x` leads to a sub group. -/
def Ready (o : Outline Op) (x : Expr Op) : Prop := ∀ r ∈ x.inputs, o.Served r

/-- Groups list their own sub groups, each under its traits, and list all but the strays. -/
structure Indexed (o : Outline Op) (stray : SubGroupId → Prop) : Prop where
  listed : ∀ g c, o.group g = some c → ∀ p ∈ c.subs, o.sub p.2 = some ⟨g, p.1⟩
  apart : ∀ g c, o.group g = some c → c.subs.Pairwise fun p q => ¬ p.1.Same q.1
  filed : ∀ s r, o.sub s = some r →
    stray s ∨ ∃ c, o.group r.group = some c ∧ (r.traits, s) ∈ c.subs

/-- The outline is sound, all sub groups are listed, and all inputs lead to sub groups. -/
structure Tidy (o : Outline Op) : Prop where
  sound : o.Sound
  indexed : o.Indexed fun _ => False
  ready : ∀ e x g, o.entry e = some (x, g) → o.Ready x

section Frame

variable {o o' : Outline Op} {stray : SubGroupId → Prop}

theorem Served.isSome {r : SubGroupRef} (h : o.Served r) : (o.group r.group).isSome := by
  obtain ⟨c, hc, -⟩ := h
  rw [hc]; rfl

theorem Ready.reading {x : Expr Op} (h : o.Ready x) : o.Reading x := fun r hr => (h r hr).isSome

/-- Groups that keep their sub groups keep serving. -/
theorem Served.later {r : SubGroupRef} (h : o.Served r)
    (hb : ∀ g c, o.group g = some c → ∃ c', o'.group g = some c' ∧ ∀ p ∈ c.subs, p ∈ c'.subs) :
    o'.Served r := by
  obtain ⟨c, hc, p, hp, ht⟩ := h
  obtain ⟨c', hc', hs⟩ := hb r.group c hc
  exact ⟨c', hc', p, hs p hp, ht⟩

/-- Where sub groups are neither opened nor moved, the index stays good. -/
theorem Indexed.of_same_subs (h : o.Indexed stray) (hs : o'.sub = o.sub)
    (hf : ∀ g c', o'.group g = some c' →
      c'.subs = [] ∨ ∃ c, o.group g = some c ∧ c'.subs = c.subs)
    (hb : ∀ g c, o.group g = some c → ∃ c', o'.group g = some c' ∧ c'.subs = c.subs) :
    o'.Indexed stray where
  listed g c' hc' p hp := by
    rcases hf g c' hc' with hnil | ⟨c, hc, hcs⟩
    · rw [hnil] at hp; cases hp
    · rw [hs]
      exact h.listed g c hc p (hcs ▸ hp)
  apart g c' hc' := by
    rcases hf g c' hc' with hnil | ⟨c, hc, hcs⟩
    · rw [hnil]; exact List.Pairwise.nil
    · rw [hcs]; exact h.apart g c hc
  filed s r hsr := by
    rw [hs] at hsr
    refine (h.filed s r hsr).imp id fun ⟨c, hc, hm⟩ => ?_
    obtain ⟨c', hc', hcs⟩ := hb r.group c hc
    exact ⟨c', hc', hcs ▸ hm⟩

theorem Tidy.reduce_input (h : o.Tidy) {e : ExprId} {x : Expr Op} {g : GroupId}
    (he : o.entry e = some (x, g)) {r : SubGroupRef} (hr : r ∈ x.inputs) :
    o.reduce r.group = r.group :=
  h.sound.names.reduce_of_live (h.ready e x g he r hr).isSome

/-- No sub group is listed twice in a group. -/
theorem Indexed.nodup_subs (h : o.Indexed stray) {g : GroupId} {c : Cell} (hc : o.group g = some c) :
    (c.subs.map Prod.snd).Nodup := by
  rw [List.Nodup, List.pairwise_map]
  refine (h.apart g c hc).imp_of_mem fun {p q} hp hq hpq hs => hpq ?_
  have hp' := h.listed g c hc p hp
  rw [hs, h.listed g c hc q hq] at hp'
  have ht : q.1 = p.1 := by simpa using hp'
  rw [ht]
  exact TraitSet.same_refl _

end Frame

/-! ## Growth -/

variable {o : Outline Op}

theorem isSome_back {o o' : Outline Op} {g : GroupId}
    (h : (o'.group g).isSome = (o.group g).isSome) {c : Cell} (hc : o.group g = some c) :
    ∃ c', o'.group g = some c' :=
  Option.isSome_iff_exists.1 (by rw [h, hc]; rfl)

theorem subs_openSub (g : GroupId) (traits : TraitSet) {k : GroupId} {c : Cell}
    (hc : o.group k = some c) :
    ∃ c', (o.openSub g traits).group k = some c' ∧
      c'.subs = if k = g then c.subs ++ [(traits, ⟨o.next⟩)] else c.subs := by
  obtain ⟨c', hc'⟩ := isSome_back (isSome_group_openSub o g k traits) hc
  obtain ⟨c₀, hc₀, -, -, hs⟩ := group_openSub hc'
  rw [hc] at hc₀
  cases hc₀
  exact ⟨c', hc', hs⟩

theorem Tidy.openSub (h : o.Tidy) {g : GroupId} {traits : TraitSet} {c₀ : Cell}
    (hg : o.group g = some c₀) (hno : ∀ p ∈ c₀.subs, ¬ p.1.Same traits) :
    (o.openSub g traits).Tidy where
  sound := h.sound.openSub g traits
  indexed := by
    have hfresh : o.sub ⟨o.next⟩ = none := h.sound.names.fresh_sub (Nat.le_refl _)
    have hkeep : ∀ s r, o.sub s = some r → (o.openSub g traits).sub s = some r := by
      intro s r hs
      have hne : s ≠ ⟨o.next⟩ := fun e => by rw [e, hfresh] at hs; cases hs
      simp only [Outline.openSub]
      rw [if_neg hne, hs]
    refine ⟨fun k c hc p hp => ?_, fun k c hc => ?_, fun s r hs => ?_⟩
    · obtain ⟨c₁, hc₁, -, -, hsub⟩ := group_openSub hc
      rw [hsub] at hp
      split at hp
      · next hk =>
        rcases List.mem_append.1 hp with hp | hp
        · exact hkeep _ _ (h.indexed.listed k c₁ hc₁ p hp)
        · rw [List.mem_singleton.1 hp, hk]
          exact if_pos rfl
      · exact hkeep _ _ (h.indexed.listed k c₁ hc₁ p hp)
    · obtain ⟨c₁, hc₁, -, -, hsub⟩ := group_openSub hc
      rw [hsub]
      split
      · next hk =>
        rw [hk, hg] at hc₁
        cases hc₁
        refine List.pairwise_append.2 ⟨h.indexed.apart g c₀ hg, by simp, fun p hp q hq => ?_⟩
        rw [List.mem_singleton.1 hq]
        exact hno p hp
      · exact h.indexed.apart k c₁ hc₁
    · simp only [Outline.openSub] at hs
      split at hs
      · next hsn =>
        cases hs
        obtain ⟨c', hc', hsub⟩ := subs_openSub g traits hg
        exact .inr ⟨c', hc', by rw [hsub, if_pos rfl, hsn]; simp⟩
      · refine (h.indexed.filed s r hs).imp id fun hfiled => ?_
        obtain ⟨c₁, hc₁, hm⟩ := hfiled
        obtain ⟨c', hc', hsub⟩ := subs_openSub g traits hc₁
        refine ⟨c', hc', ?_⟩
        rw [hsub]
        split
        · exact List.mem_append_left _ hm
        · exact hm
  ready e x k he r hr := by
    refine (h.ready e x k he r hr).later fun k c hc => ?_
    obtain ⟨c', hc', hsub⟩ := subs_openSub g traits hc
    refine ⟨c', hc', fun p hp => ?_⟩
    rw [hsub]
    split
    · exact List.mem_append_left _ hp
    · exact hp

theorem Grows.subs {e : ExprId} {x : Expr Op} {g k : GroupId} {c : Cell} (h : o.Grows e x g k c) :
    c.subs = [] ∨ ∃ c₀, o.group k = some c₀ ∧ c.subs = c₀.subs := by
  cases h with
  | old c₀ known _ subs _ => exact .inr ⟨c₀, known, subs⟩
  | new _ _ _ subs _ => exact .inl subs

/-- A group that was there keeps its sub groups. -/
theorem Grows.subs_eq {e : ExprId} {x : Expr Op} {g k : GroupId} {c c' : Cell}
    (h : o.Grows e x g k c') (hc : o.group k = some c) : c'.subs = c.subs := by
  cases h with
  | old c₀ known _ subs _ =>
    rw [hc] at known
    cases known
    exact subs
  | new unknown _ _ _ _ => rw [hc] at unknown; cases unknown

/-- Expressions come in without a change of the sub groups. -/
theorem Tidy.enter {o' : Outline Op} (h : o.Tidy) (hs : o'.Sound) {e : ExprId} {x : Expr Op}
    {g : GroupId} (hx : o.Ready x) (hsub : o'.sub = o.sub)
    (hlive : ∀ k, (o.group k).isSome → (o'.group k).isSome)
    (hcell : ∀ k c, o'.group k = some c → o.Grows e x g k c)
    (hentry : ∀ e', o'.entry e' = if e' = e then some (x, g) else o.entry e') : o'.Tidy := by
  have hb : ∀ k c, o.group k = some c → ∃ c', o'.group k = some c' ∧ c'.subs = c.subs := by
    intro k c hc
    obtain ⟨c', hc'⟩ := Option.isSome_iff_exists.1 (hlive k (by rw [hc]; rfl))
    exact ⟨c', hc', (hcell k c' hc').subs_eq hc⟩
  have hserve : ∀ r, o.Served r → o'.Served r := fun r hr =>
    hr.later fun k c hc => by
      obtain ⟨c', hc', hcs⟩ := hb k c hc
      exact ⟨c', hc', fun p hp => hcs ▸ hp⟩
  refine ⟨hs, h.indexed.of_same_subs hsub (fun k c hc => (hcell k c hc).subs) hb,
    fun e' y k he' r hr => hserve r ?_⟩
  rw [hentry] at he'
  split at he'
  · cases he'; exact hx r hr
  · exact h.ready e' y k he' r hr

theorem Tidy.attach (h : o.Tidy) {x : Expr Op} {g : GroupId} (hg : (o.group g).isSome)
    (hx : o.Ready x) (ha : o.Apart x) : (o.attach x g).Tidy :=
  h.enter (h.sound.attach hg hx.reading ha) hx rfl
    (fun k hk => by rw [isSome_group_attach]; exact hk) (fun _ _ => grows_attach) fun _ => rfl

theorem Tidy.found (h : o.Tidy) {x : Expr Op} (rowType : RowType) (facts : List Fact)
    (hx : o.Ready x) (ha : o.Apart x) : (o.found x rowType facts).Tidy :=
  h.enter (h.sound.found rowType facts hx.reading ha) hx rfl
    (fun k hk => by rw [isSome_group_found, hk, Bool.or_true])
    (fun _ _ => grows_found h.sound.names) fun _ => rfl

/-! ## Beginnings -/

/-- An outline of nothing. -/
theorem Tidy.of_none (hg : ∀ g, o.group g = none) (hs : ∀ s, o.sub s = none)
    (he : ∀ e, o.entry e = none) (hgr : ∀ g, o.groupRep g = none) (hsr : ∀ s, o.subRep s = none)
    (her : ∀ e, o.exprRep e = none) : o.Tidy where
  sound := by
    refine ⟨⟨.of_none hgr fun g => by simp [hg g], .of_none hsr fun s => by simp [hs s],
      .of_none her fun e => by simp [he e]⟩, ?_⟩
    exact ⟨fun g c h => by simp [hg] at h, fun g c h => by simp [hg] at h,
      fun e x g h => by simp [he] at h, fun g c h => by simp [hg] at h,
      fun e x g h => by simp [he] at h, fun e x g _ _ _ h => by simp [he] at h⟩
  indexed := ⟨fun g c h => by simp [hg] at h, fun g c h => by simp [hg] at h,
    fun s r h => by simp [hs] at h⟩
  ready e x g h := by simp [he] at h

theorem Tidy.forget (h : o.Tidy) : o.forget.Tidy where
  sound := ⟨⟨h.sound.names.groups, h.sound.names.subs, h.sound.names.exprs⟩,
    ⟨h.sound.places.members, h.sound.places.nodup, h.sound.places.home, h.sound.places.parents,
      h.sound.places.inputs, h.sound.places.apart⟩⟩
  indexed := ⟨h.indexed.listed, h.indexed.apart, h.indexed.filed⟩
  ready := h.ready

theorem Tidy.evolves_forget (h : o.Tidy) : o.Evolves [] o.forget [] :=
  .of_kept h.sound.names h.forget.sound.names (fun _ => rfl) (fun _ => rfl) fun _ _ => id

end Outline

end PlanSearch
