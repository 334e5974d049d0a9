import PlanSearch.Proofs.Outline.Merges

/-!
# Appraisals

An appraisal labels groups and expressions, every live expression like its group. The label of an
expression may depend on what it consists of and on the labels of the groups that it reads, but not on
the names of those groups. Merging groups of one label keeps an appraisal: what it merges beyond that
are groups of one label as well.

    o.Merges ps o' → o.Appraised φ v → (∀ p ∈ ps, v p.1 = v p.2) → o'.Appraised φ v
                                                                            (Merges.appraised)
-/

namespace PlanSearch

universe u

namespace Outline

variable {Op : Type} {V : Type u}

/-- Labels of expressions see groups through their labels only. -/
structure Discreet (φ : Expr Op → V) (v : GroupId → V) : Prop where
  congruent : ∀ x y : Expr Op, x.Congruent y → φ x = φ y
  moved : ∀ (f : GroupId → GroupId), (∀ g, v (f g) = v g) → ∀ x : Expr Op,
    φ { x with inputs := x.inputs.map fun r => ⟨f r.group, r.traits⟩ } = φ x

/-- Every live expression has the label of its group, and every name of a group the same label. -/
structure Appraised (o : Outline Op) (φ : Expr Op → V) (v : GroupId → V) : Prop where
  names : ∀ g, v (o.reduce g) = v g
  exprs : ∀ e x g, o.entry e = some (x, g) → φ x = v g

section Appraised

variable {o o' : Outline Op} {φ : Expr Op → V} {v : GroupId → V}

/-- Moving inputs to live groups changes no label. -/
theorem Discreet.settled (hd : Discreet φ v) (hv : ∀ g, v (o.reduce g) = v g) (x : Expr Op) :
    φ (o.settled x) = φ x :=
  hd.moved o.reduce hv x

theorem Discreet.alike (hd : Discreet φ v) (hv : ∀ g, v (o.reduce g) = v g) {x y : Expr Op}
    (h : o.Alike x y) : φ x = φ y := by
  rw [← hd.settled hv x, ← hd.settled hv y]
  exact hd.congruent _ _ h

theorem Appraised.earlier (h : o'.Appraised φ v) (hd : Discreet φ v) (he : o.Evolves [] o' [])
    (hn : o'.Names) : o.Appraised φ v where
  names g := by rw [← h.names (o.reduce g), he.group, h.names]
  exprs e x g hx := by
    obtain ⟨x', g', hx', ha, hl⟩ := he.entry e x g hx
    rw [hd.alike h.names ha, h.exprs _ x' g' hx', ← h.names g', ← hn.linked_nil_iff.1 hl, h.names]

/-! ## Merging -/

/-- An appraisal that gives both groups of every pending merge one label. -/
def Balanced (φ : Expr Op → V) (v : GroupId → V) (st : Outline Op × List (GroupId × GroupId)) : Prop :=
  st.1.Appraised φ v ∧ ∀ p ∈ st.2, v p.1 = v p.2

theorem Shift.balanced {keep absorbed : GroupId} {a b : Outline Op × List (GroupId × GroupId)}
    (h : Shift keep absorbed a b) (hd : Discreet φ v) (hv : Balanced φ v a) : Balanced φ v b := by
  obtain ⟨hc, hp⟩ := hv
  have hred : ∀ {o : Outline Op} {e : ExprId} {x : Expr Op} {k : GroupId}, o.Appraised φ v →
      o.Sound → o.reduce absorbed = keep → o.entry e = some (x, k) →
      φ (x.redirect absorbed keep) = v k := by
    intro o e x k hc hs hg hx
    rw [← hc.exprs e x k hx, ← hd.settled hc.names x,
      settled_redirect (reduce_kept hs hg) hg x, hd.settled hc.names]
  cases h with
  | fold => exact ⟨⟨hc.names, hc.exprs⟩, hp⟩
  | hand => exact ⟨⟨hc.names, hc.exprs⟩, hp⟩
  | rewrite sound gone known apart =>
    refine ⟨⟨hc.names, fun e x g hx => ?_⟩, hp⟩
    simp only [Outline.rewrite] at hx
    split at hx
    · cases hx
      exact hred hc sound gone known
    · exact hc.exprs e x g hx
  | drop sound gone known ne other congruent =>
    refine ⟨⟨hc.names, fun e x g hx => hc.exprs e x g (entry_drop.1 hx).2⟩, fun p hmem => ?_⟩
    dsimp only at hmem
    split at hmem
    · exact hp p hmem
    · rcases List.mem_append.1 hmem with hmem | hmem
      · exact hp p hmem
      · rw [List.mem_singleton.1 hmem]
        dsimp only
        rw [← hc.exprs _ _ _ other, hd.congruent _ _ congruent, hred hc sound gone known]

theorem Shifts.balanced {keep absorbed : GroupId} {a b : Outline Op × List (GroupId × GroupId)}
    (h : Shifts keep absorbed a b) (hd : Discreet φ v) (hv : Balanced φ v a) : Balanced φ v b := by
  induction h with
  | refl => exact hv
  | tail _ hs ih => exact hs.balanced hd ih

theorem Absorbs.balanced {keep absorbed : GroupId} {more : List (GroupId × GroupId)}
    (h : o.Absorbs keep absorbed o' more) (hd : Discreet φ v) (hc : o.Appraised φ v)
    (hk : v keep = v absorbed) : Balanced φ v (o', more) := by
  cases h with
  | @intro gone o₁ _ tidy ne live known shifts tidy' =>
    have hlive : (o.group absorbed).isSome := by rw [known]; rfl
    have hstart : Balanced φ v (o.takeIn keep absorbed gone, []) := by
      refine ⟨⟨fun g => ?_, fun e x g hx => ?_⟩, fun p hp => by cases hp⟩
      · rw [tidy.sound.names.reduce_takeIn hlive]
        split
        · next hg => rw [hk, ← hg, hc.names]
        · exact hc.names g
      · obtain ⟨g₀, hx₀, rfl⟩ := entry_takeIn.1 hx
        rw [hc.exprs e x g₀ hx₀]
        split
        · next hg => rw [hg, hk]
        · rfl
    have hend := shifts.balanced hd hstart
    exact ⟨⟨hend.1.names, hend.1.exprs⟩, hend.2⟩

/-- The two groups of a pair that is merged have one label, whichever stays. -/
theorem Appraised.pair (h : o.Appraised φ v) {p : GroupId × GroupId} (hp : v p.1 = v p.2)
    {keep absorbed : GroupId} (pair : (keep, absorbed) = (o.reduce p.1, o.reduce p.2) ∨
      (absorbed, keep) = (o.reduce p.1, o.reduce p.2)) : v keep = v absorbed := by
  rw [← h.names p.1, ← h.names p.2] at hp
  rcases pair with h | h <;> obtain ⟨h₁, h₂⟩ := Prod.mk.inj h
  · rw [h₁, h₂, hp]
  · rw [h₁, h₂, hp]

/-- One merge leaves an appraisal that is balanced over all that is pending then. -/
theorem Absorbs.balanced_append {keep absorbed : GroupId} {p : GroupId × GroupId}
    {ps more : List (GroupId × GroupId)} (h : o.Absorbs keep absorbed o' more) (hd : Discreet φ v)
    (hv : Balanced φ v (o, p :: ps)) (pair : (keep, absorbed) = (o.reduce p.1, o.reduce p.2) ∨
      (absorbed, keep) = (o.reduce p.1, o.reduce p.2)) : Balanced φ v (o', ps ++ more) := by
  obtain ⟨hc, hmore⟩ := h.balanced hd hv.1 (hv.1.pair (hv.2 p List.mem_cons_self) pair)
  refine ⟨hc, fun q hq => ?_⟩
  rcases List.mem_append.1 hq with hq | hq
  · exact hv.2 q (List.mem_cons_of_mem _ hq)
  · exact hmore q hq

/-- Merging groups of one label keeps an appraisal. -/
theorem Merges.appraised {ps : List (GroupId × GroupId)} (h : o.Merges ps o') (hd : Discreet φ v)
    (hv : o.Appraised φ v) (hp : ∀ p ∈ ps, v p.1 = v p.2) : o'.Appraised φ v := by
  have hf : Balanced φ v (o, ps) := ⟨hv, hp⟩
  clear hv hp
  induction h with
  | done => exact hf.1
  | skip _ _ ih => exact ih ⟨hf.1, fun p hp => hf.2 p (List.mem_cons_of_mem _ hp)⟩
  | absorb pair first _ ih => exact ih (first.balanced_append hd hf pair)

end Appraised

end Outline

end PlanSearch
