import PlanSearch.Proofs.Outline.Growth

/-!
# The record of changes

What has changed can be told from the record of changes: an expression that is not on record as new
was there before, alike and in the same group, and where two groups have become one, the record says
so. So whatever is new about the outline has to do with an expression that is new or that is a member
of a group which has grown.

    o.Tracks o' → o'.Tracks o'' → o.Tracks o''             (Tracks.trans)
    o.Touched news merged e → o'.Touched news merged e     (Tracks.touched)
-/

namespace PlanSearch

namespace Outline

variable {Op : Type}

/-- The expression is among the new ones, or is a member of a group that has absorbed another. -/
def Touched (o : Outline Op) (news : List ExprId) (merged : List (GroupId × GroupId)) (e : ExprId) :
    Prop :=
  e ∈ news ∨ ∃ x g, o.entry e = some (x, g) ∧ ∃ p ∈ merged, o.reduce p.1 = g

/-- The record of `o'` tells all that is new since `o`. -/
structure Tracks (o o' : Outline Op) : Prop where
  group : ∀ g, o'.reduce (o.reduce g) = o'.reduce g
  entry : ∀ e x' g', o'.entry e = some (x', g') → e ∈ o'.news ∨
    ∃ x g, o.entry e = some (x, g) ∧ o'.Alike x x' ∧ o'.reduce g = g'
  news : ∀ e ∈ o.news, (o'.entry e).isSome → e ∈ o'.news
  merged : ∀ p ∈ o.merged, p ∈ o'.merged
  joined : ∀ g h, o'.reduce g = o'.reduce h →
    o.reduce g = o.reduce h ∨ ∃ p ∈ o'.merged, o'.reduce p.1 = o'.reduce g

section Tracks

variable {o o' o'' : Outline Op}

theorem Tracks.trans (h₁ : o.Tracks o') (h₂ : o'.Tracks o'') : o.Tracks o'' where
  group g := by rw [← h₂.group (o.reduce g), h₁.group, h₂.group]
  entry e x'' g'' he := by
    rcases h₂.entry e x'' g'' he with hnew | ⟨x', g', he', ha', hg'⟩
    · exact .inl hnew
    · rcases h₁.entry e x' g' he' with hnew | ⟨x, g, he₀, ha, hg⟩
      · exact .inl (h₂.news e hnew (by rw [he]; rfl))
      · refine .inr ⟨x, g, he₀, (ha.later h₂.group).trans ha', ?_⟩
        rw [← h₂.group, hg, hg']
  news e hnew hlive := by
    obtain ⟨⟨x, g⟩, he⟩ := Option.isSome_iff_exists.1 hlive
    rcases h₂.entry e x g he with hnew' | ⟨x', g', he', -, -⟩
    · exact hnew'
    · exact h₂.news e (h₁.news e hnew (by rw [he']; rfl)) hlive
  merged p hp := h₂.merged p (h₁.merged p hp)
  joined g h hgh := by
    rcases h₂.joined g h hgh with hgh' | hp
    · rcases h₁.joined g h hgh' with hgh'' | ⟨p, hp, hpg⟩
      · exact .inl hgh''
      · refine .inr ⟨p, h₂.merged p hp, ?_⟩
        rw [← h₂.group, hpg, h₂.group]
    · exact .inr hp

/-- Groups keep their names, and expressions stay in their places or are new. -/
theorem Tracks.of_same_names (hn : o.Names) (hr : ∀ g, o'.reduce g = o.reduce g)
    (he : ∀ e x' g', o'.entry e = some (x', g') → e ∈ o'.news ∨
      ∃ x, o.entry e = some (x, g') ∧ o'.Alike x x' ∧ (o.group g').isSome)
    (hnews : ∀ e ∈ o.news, (o'.entry e).isSome → e ∈ o'.news)
    (hm : ∀ p ∈ o.merged, p ∈ o'.merged) : o.Tracks o' where
  group g := by rw [hr, hr, hn.reduce_reduce]
  entry e x' g' h := (he e x' g' h).imp id fun ⟨x, hx, ha, hg⟩ =>
    ⟨x, g', hx, ha, by rw [hr, hn.reduce_of_live hg]⟩
  news := hnews
  merged := hm
  joined g h hgh := .inl (by rw [← hr g, ← hr h, hgh])

/-- What was touched stays touched. -/
theorem Tracks.touched (h : o.Tracks o') {news : List ExprId} {merged : List (GroupId × GroupId)}
    {e : ExprId} {x' : Expr Op} {g' : GroupId} (he : o'.entry e = some (x', g'))
    (ht : o.Touched news merged e) : e ∈ o'.news ∨ o'.Touched news merged e := by
  rcases ht with hnew | ⟨x, g, hx, p, hp, hpg⟩
  · exact .inr (.inl hnew)
  · rcases h.entry e x' g' he with hnew | ⟨x₀, g₀, hx₀, -, hg₀⟩
    · exact .inl hnew
    · rw [hx] at hx₀
      cases hx₀
      exact .inr (.inr ⟨x', g', he, p, hp, by rw [← hg₀, ← hpg, h.group]⟩)

theorem Sound.tracks_refl (h : o.Sound) : o.Tracks o :=
  .of_same_names h.names (fun _ => rfl)
    (fun e x' g' he => .inr ⟨x', he, .refl _ _, h.places.home e x' g' he⟩) (fun _ hn _ => hn)
    fun _ => id

/-! ## Growth -/

theorem Sound.tracks_openSub (h : o.Sound) (g : GroupId) (traits : TraitSet) :
    o.Tracks (o.openSub g traits) :=
  .of_same_names h.names (fun _ => rfl)
    (fun e x' g' he => .inr ⟨x', he, .refl _ _, h.places.home e x' g' he⟩) (fun _ hn _ => hn)
    fun _ => id

/-- A new expression is on record. -/
theorem Sound.tracks_enter (h : o.Sound) {e : ExprId} {q : Expr Op × GroupId}
    (he : o'.entry = fun e' => if e' = e then some q else o.entry e')
    (hr : ∀ g, o'.reduce g = o.reduce g) (hn : o'.news = o.news ++ [e])
    (hm : o'.merged = o.merged) : o.Tracks o' := by
  refine .of_same_names h.names hr (fun e' x' g' he' => ?_) (fun e' hnew _ => ?_)
    fun p hp => hm ▸ hp
  · rw [he] at he'
    dsimp only at he'
    split at he'
    · next hee =>
      rw [hn, hee]
      exact .inl (List.mem_append_right _ (List.mem_singleton_self e))
    · exact .inr ⟨x', he', .refl _ _, h.places.home e' x' g' he'⟩
  · rw [hn]
    exact List.mem_append_left _ hnew

theorem Sound.tracks_attach (h : o.Sound) (x : Expr Op) (g : GroupId) : o.Tracks (o.attach x g) :=
  h.tracks_enter rfl (fun _ => rfl) rfl rfl

theorem Sound.tracks_found (h : o.Sound) (x : Expr Op) (rowType : RowType) (facts : List Fact) :
    o.Tracks (o.found x rowType facts) :=
  h.tracks_enter rfl (fun _ => by rw [h.names.reduce_found]) rfl rfl

theorem Grown.tracks (h : o.Grown o') (ho : o.Tidy) : o.Tracks o' := by
  induction h with
  | refl => exact ho.sound.tracks_refl
  | tail hg hs ih =>
    refine ih.trans ?_
    have hsound := (Grown.tidy hg ho).sound
    cases hs with
    | openSub => exact hsound.tracks_openSub _ _
    | found => exact hsound.tracks_found _ _ _

/-! ## Merging -/

/-- The group that takes another in is on record. -/
theorem Sound.tracks_takeIn (h : o.Sound) {keep absorbed : GroupId} {gone : Cell}
    (hne : keep ≠ absorbed) (hk : (o.group keep).isSome) (ha : (o.group absorbed).isSome) :
    o.Tracks ((o.takeIn keep absorbed gone).noteMerge keep absorbed) := by
  have hr : ∀ g, ((o.takeIn keep absorbed gone).noteMerge keep absorbed).reduce g
      = if o.reduce g = absorbed then keep else o.reduce g := fun g => by
    show (o.takeIn keep absorbed gone).reduce g = _
    rw [h.names.reduce_takeIn ha]
  refine ⟨fun g => ?_, fun e x' g' he => ?_, fun e hn _ => hn,
    fun p hp => List.mem_append_left _ hp, fun g k hgk => ?_⟩
  · rw [hr, hr, h.names.reduce_reduce]
  · have he : (o.takeIn keep absorbed gone).entry e = some (x', g') := he
    obtain ⟨g₀, hx, hg⟩ := entry_takeIn.1 he
    refine .inr ⟨x', g₀, hx, .refl _ _, ?_⟩
    rw [hr, h.reduce_home hx, hg]
  · have hrec : ∀ k, o.reduce k = absorbed ∨ o.reduce k = keep →
        ∃ p ∈ o.merged ++ [(keep, absorbed)],
          ((o.takeIn keep absorbed gone).noteMerge keep absorbed).reduce p.1
            = ((o.takeIn keep absorbed gone).noteMerge keep absorbed).reduce k := by
      intro k hk'
      refine ⟨(keep, absorbed), List.mem_append_right _ (List.mem_singleton_self _), ?_⟩
      rw [hr, hr, h.names.reduce_of_live hk, if_neg hne]
      rcases hk' with hk' | hk'
      · rw [if_pos hk']
      · rw [hk', if_neg hne]
    rw [hr, hr] at hgk
    by_cases hg : o.reduce g = absorbed
    · exact .inr (hrec g (.inl hg))
    · rw [if_neg hg] at hgk
      split at hgk
      · exact .inr (hrec g (.inr hgk))
      · exact .inl hgk

theorem Shift.tracks {keep absorbed : GroupId} {a b : Outline Op × List (GroupId × GroupId)}
    (h : Shift keep absorbed a b) : a.1.Tracks b.1 := by
  cases h with
  | fold sound =>
    exact .of_same_names sound.names (fun _ => rfl)
      (fun e x' g' he => .inr ⟨x', he, .refl _ _, sound.places.home e x' g' he⟩)
      (fun _ hn _ => hn) fun _ => id
  | hand sound =>
    exact .of_same_names sound.names (fun _ => rfl)
      (fun e x' g' he => .inr ⟨x', he, .refl _ _, sound.places.home e x' g' he⟩)
      (fun _ hn _ => hn) fun _ => id
  | @rewrite o _ e x k sound gone known apart =>
    refine .of_same_names sound.names (fun _ => rfl) (fun e' x' g' he' => ?_) (fun _ hn _ => hn)
      fun _ => id
    simp only [Outline.rewrite] at he'
    split at he'
    · next hee =>
      cases he'
      subst hee
      have hs : o.settled x = o.settled (x.redirect absorbed keep) :=
        settled_redirect (reduce_kept sound gone) gone x
      exact .inr ⟨x, known, Alike.of_settled_eq (o := o) hs, sound.places.home _ _ _ known⟩
    · exact .inr ⟨x', he', .refl _ _, sound.places.home e' x' g' he'⟩
  | drop sound gone known ne other congruent =>
    refine .of_same_names sound.names (fun _ => rfl) (fun e' x' g' he' => ?_) (fun e' hn hlive => ?_)
      fun _ => id
    · have he := (entry_drop.1 he').2
      exact .inr ⟨x', he, .refl _ _, sound.places.home e' x' g' he⟩
    · obtain ⟨⟨x', g'⟩, he'⟩ := Option.isSome_iff_exists.1 hlive
      have hne := (entry_drop.1 he').1
      exact List.mem_filter.2 ⟨hn, by simpa using hne⟩

/-- It does not matter whether a merge is noted before or after. -/
theorem Tracks.noteMerge (h : o.Tracks o') (keep absorbed : GroupId) :
    (o.noteMerge keep absorbed).Tracks (o'.noteMerge keep absorbed) where
  group := h.group
  entry := h.entry
  news := h.news
  merged p hp := by
    rcases List.mem_append.1 hp with hp | hp
    · exact List.mem_append_left _ (h.merged p hp)
    · exact List.mem_append_right _ hp
  joined g k hgk := (h.joined g k hgk).imp id fun ⟨p, hp, hpg⟩ =>
    ⟨p, List.mem_append_left _ hp, hpg⟩

theorem Shifts.tracks {keep absorbed : GroupId} {a b : Outline Op × List (GroupId × GroupId)}
    (h : Shifts keep absorbed a b) (hs : a.1.Sound) : a.1.Tracks b.1 := by
  induction h with
  | refl => exact hs.tracks_refl
  | tail _ hs ih => exact ih.trans hs.tracks

theorem Absorbs.tracks {keep absorbed : GroupId} {more : List (GroupId × GroupId)}
    (h : o.Absorbs keep absorbed o' more) : o.Tracks o' := by
  cases h with
  | @intro gone o₁ _ tidy ne live known shifts tidy' =>
    have hstart : o.Tracks ((o.takeIn keep absorbed gone).noteMerge keep absorbed) :=
      tidy.sound.tracks_takeIn ne live (by rw [known]; rfl)
    have hrest := shifts.tracks (tidy.sound.takeIn ne live known)
    exact hstart.trans (hrest.noteMerge keep absorbed)

theorem Merges.tracks {ps : List (GroupId × GroupId)} (h : o.Merges ps o') (ho : o.Tidy) :
    o.Tracks o' := by
  induction h with
  | done => exact ho.sound.tracks_refl
  | skip _ _ ih => exact ih ho
  | absorb _ first _ ih => exact first.tracks.trans (ih first.tidy)

theorem Joins.tracks {g : GroupId} {p : Plan Op} (h : o.Joins g p o') (ho : o.Tidy) :
    o.Tracks o' := by
  cases h with
  | merge grown _ _ _ merges => exact (grown.tracks ho).trans (merges.tracks (grown.tidy ho))
  | attach grown _ _ _ _ =>
    exact (grown.tracks ho).trans ((grown.tidy ho).sound.tracks_attach _ _)
  | identify merges => exact merges.tracks ho

end Tracks

end Outline

end PlanSearch
