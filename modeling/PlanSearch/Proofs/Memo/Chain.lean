import PlanSearch.Proofs.Memo.Counted

/-!
# Chains of merges on a memo

The merge of two groups, with all merges that follow from it, is a chain of merges of the outline. A
memo that is in order up to the merges that are pending is in order at the end of the chain.

    m.Ordered ps → mergeAll m ps = .ok () m' → m.outline.Merges ps m'.outline ∧ m'.Ordered []
                                                                            (Memo.mergeAll_merges)
-/

namespace PlanSearch

namespace Memo

variable {Op Q : Type}

/-- The memo is in order, up to the merges `ps` that are pending. -/
structure Ordered (ps : List (GroupId × GroupId)) (m : Memo Op Q) : Prop where
  tidy : m.outline.Tidy
  crowned : m.Crowned ps
  counted : m.Counted

/-- What leaves outline, winners and the names of groups alone keeps the order. -/
theorem Ordered.of_same {ps : List (GroupId × GroupId)} {m m' : Memo Op Q} (h : m.Ordered ps)
    (ho : m'.outline = m.outline) (hc : m'.Crowned ps) (ha : m'.groupAlias = m.groupAlias)
    (hs : m'.groupCount = m.groupCount) : m'.Ordered ps :=
  ⟨ho ▸ h.tidy, hc, h.counted.of_same ha hs⟩

variable {m m' : Memo Op Q}

/-- Groups that are one already need no merge. -/
theorem Ordered.skip {p : GroupId × GroupId} {ps : List (GroupId × GroupId)} (h : m.Ordered (p :: ps))
    (same : m.reduceGroup p.1 = m.reduceGroup p.2) : m.Ordered ps where
  tidy := h.tidy
  crowned := h.crowned.of_same ((Outline.Evolves.refl h.tidy.sound.names).cons (.of_reduce_eq same)) rfl
  counted := h.counted

variable [Quantity Q] [DecidableEq Op]

theorem mergePair_absorbs {p : GroupId × GroupId} {rest more : List (GroupId × GroupId)}
    (hm : m.Ordered (p :: rest)) (hne : m.outline.reduce p.1 ≠ m.outline.reduce p.2)
    (h : mergePair (m.outline.reduce p.1) (m.outline.reduce p.2) m = .ok (m', more)) :
    ∃ keep absorbed, ((keep, absorbed) = (m.outline.reduce p.1, m.outline.reduce p.2) ∨
      (absorbed, keep) = (m.outline.reduce p.1, m.outline.reduce p.2)) ∧
      m.outline.Absorbs keep absorbed m'.outline more ∧ m'.Ordered (rest ++ more) := by
  obtain ⟨keep, absorbed, kept, gone, hp, hdiffer, hk, ha, -, h⟩ := mergePair_eq_ok h
  have hlive : (m.outline.group keep).isSome := by rw [outline_group_of hk]; rfl
  obtain ⟨habs, hc⟩ := absorb_absorbs hm.tidy hm.crowned (hdiffer hne) hlive ha hp h
  exact ⟨keep, absorbed, hp, habs, habs.tidy, hc, hm.counted.absorb hm.tidy.sound.names (hdiffer hne) hlive ha h⟩

/-- A merge with all that follows from it is a chain of merges of the outline. -/
theorem mergeAll_merges {ps : List (GroupId × GroupId)} (hm : m.Ordered ps)
    (h : mergeAll m ps = .ok () m') : m.outline.Merges ps m'.outline ∧ m'.Ordered [] := by
  replace h : MergeRun m ps (.ok () m') := h ▸ mergeAll_run m ps
  generalize hr : EStateM.Result.ok () m' = r at h
  induction h with
  | done m =>
    cases hr
    exact ⟨.done _, hm⟩
  | skip same _ ih =>
    obtain ⟨hmerges, hm'⟩ := ih (hm.skip same) hr
    exact ⟨.skip same hmerges, hm'⟩
  | refuse _ _ _ => cases hr
  | merge ne ok _ ih =>
    obtain ⟨keep, absorbed, hkeep, habs, hm₁⟩ := mergePair_absorbs hm ne ok
    obtain ⟨hmerges, hm'⟩ := ih hm₁ hr
    exact ⟨.absorb hkeep habs hmerges, hm'⟩

end Memo

end PlanSearch
