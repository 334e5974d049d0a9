import PlanSearch.Proofs.Memo.CallEdits
import PlanSearch.Proofs.Memo.Congruence

/-!
# Calls that fail

A call that fails keeps what it did until then. What was added below the root of a plan does no harm: the tables
agree, no group is empty, and every winner is a member of its group. Nor does a merge that is refused before anything
was merged. But where one merge calls for another and that one is refused, the first is not taken back. Then the pair
stays unmerged, and a group that has lost its last member to the other one is left without any.

    m.Valid ↔ m.verify = .ok ()                                                    (Orderly.valid_iff)
    m.Valid → m.Fails f m' → m'.Valid ∧ m.outline.Evolves [] m'.outline [] ∨ m.CutShort f m'
                                                                                   (Fails.outcome)
-/

namespace PlanSearch

open Outline

namespace Update

variable {Op Q α β : Type} {m m' : Memo Op Q}

theorem leave_of_ok {u : Update Op Q α} {a : α} (h : u m = .ok a m') : u.leave m = m' := by
  unfold leave
  rw [h]

theorem leave_of_error {u : Update Op Q α} {f : Failure} (h : u m = .error f m') : u.leave m = m' := by
  unfold leave
  rw [h]

/-- What holds wherever the first part of a sequence ends holds wherever the sequence ends, if the rest keeps it. -/
theorem leave_bind {holds : Memo Op Q → Prop} {u : Update Op Q α} {k : α → Update Op Q β} (hu : holds (u.leave m))
    (hk : ∀ a m₁, u m = .ok a m₁ → holds m₁ → holds ((k a).leave m₁)) : holds ((u >>= k).leave m) := by
  cases h : u m with
  | ok a m₁ =>
    rw [leave_of_ok h] at hu
    have hrest := hk a m₁ h hu
    unfold leave at hrest ⊢
    rwa [run_bind_of_ok h]
  | error f m₁ =>
    rw [leave_of_error h] at hu
    rwa [leave_of_error (run_bind_of_error h)]

theorem leave_read_bind {holds : Memo Op Q → Prop} {f : Memo Op Q → Except Failure α} {k : α → Update Op Q β}
    (hm : holds m) (hk : ∀ a, f m = .ok a → holds ((k a).leave m)) : holds ((Update.read f >>= k).leave m) := by
  cases h : f m with
  | ok a =>
    have hrest := hk a h
    unfold leave at hrest ⊢
    rwa [run_bind_of_ok (read_of_ok h)]
  | error e => rwa [leave_of_error (run_bind_of_error (read_of_error h))]

theorem leave_get_bind (k : Memo Op Q → Update Op Q β) (m : Memo Op Q) : (get >>= k).leave m = (k m).leave m := rfl

end Update

namespace Outline

variable {Op : Type} {o o' : Outline Op} {keep absorbed : GroupId} {more : List (GroupId × GroupId)}

theorem Absorbs.merged_eq (h : o.Absorbs keep absorbed o' more) : o'.merged = o.merged ++ [(keep, absorbed)] := by
  cases h with
  | intro tidy ne live known shifts tidy' => exact congrArg (· ++ [(keep, absorbed)]) shifts.frame.2.1

/-- More merges may be pending afterwards. -/
theorem Evolves.weaken {ps ps' qs : List (GroupId × GroupId)} (h : o.Evolves ps o' ps') (hs : ∀ p ∈ ps', p ∈ qs) :
    o.Evolves ps o' qs where
  group := h.group
  expr := h.expr
  entry e x g he := by
    obtain ⟨x', g', he', halike, hlinked⟩ := h.entry e x g he
    exact ⟨x', g', he', halike, hlinked.mono hs⟩
  pairs p hp := (h.pairs p hp).mono hs

/-- A merge takes no name away. -/
theorem Absorbs.isSome_groupRep (h : o.Absorbs keep absorbed o' more) {g : GroupId} (hg : (o.groupRep g).isSome) :
    (o'.groupRep g).isSome := by
  rw [h.groupRep]
  split
  · rfl
  · exact hg

end Outline

namespace Memo

variable {Op Q : Type} {m m' : Memo Op Q}

/-! ## Memos that pass the check -/

/-- The memo is in order, and its winners are live expressions. -/
structure Valid (m : Memo Op Q) : Prop where
  orderly : m.Orderly
  reigning : ∀ s g e, m.crowns s = some (g, some e) → (m.outline.entry e).isSome

/-- The memo `m'` came from `m` without damage: it is valid, and names go on standing for what they stood for. -/
structure Lasts (m m' : Memo Op Q) : Prop where
  valid : m'.Valid
  evolves : m.outline.Evolves [] m'.outline []

theorem Valid.lasts (h : m.Valid) : m.Lasts m := ⟨h, .refl h.orderly.ordered.tidy.sound.names⟩

theorem Lasts.trans {m₁ : Memo Op Q} (h₁ : m.Lasts m₁) (h₂ : m₁.Lasts m') : m.Lasts m' :=
  ⟨h₂.valid, h₁.evolves.trans h₂.evolves⟩

/-- Growth does no damage where a winner is one of before or a live expression anyway. -/
theorem Valid.grown (h : m.Valid) (hg : m.outline.Grown m'.outline) (hm' : m'.Ordered [])
    (hc : ∀ s g e, m'.crowns s = some (g, some e) →
      m.crowns s = some (g, some e) ∨ (m'.outline.entry e).isSome) : m.Lasts m' := by
  have ht := h.orderly.ordered.tidy
  refine ⟨⟨⟨hm', hg.filled ht h.orderly.filled⟩, fun s g e hs => (hc s g e hs).elim (fun hold => ?_) id⟩, hg.evolves ht⟩
  obtain ⟨p, hp⟩ := Option.isSome_iff_exists.1 (h.reigning s g e hold)
  rw [(hg.keeps ht).entry e p hp]
  rfl

section Growing

variable [Quantity Q]

/-- A number that was given out does no harm. -/
theorem Valid.skip (h : m.Valid) : m.Lasts m.skip := by
  have hm := h.orderly.ordered
  have ht := tidy_of_edits hm.tidy (skip_edits (P := .free) m)
  have hev : m.outline.Evolves [] m.skip.outline [] :=
    .of_kept hm.tidy.sound.names ht.sound.names (fun _ => rfl) (fun _ => rfl) fun _ _ => id
  exact ⟨⟨⟨⟨ht, hm.crowned.of_same hev rfl, hm.counted⟩, h.orderly.filled⟩, h.reigning⟩, hev⟩

/-! ## Sub groups -/

theorem offerAll_total {s : SubGroupId} {r : SubGroupRef} (hs : m.outline.sub s = some r) (es : List ExprId) :
    ∃ m', offerAll s es m = .ok m' := by
  obtain ⟨m', h, -⟩ := foldlM_total (f := fun m e => offer s e m) (fun _ m' => m'.outline = m.outline) (fun e es m₁ hm₁ => by
    obtain ⟨m₂, h₂⟩ := offer_total (m := m₁) (by rw [hm₁]; exact hs) e
    exact ⟨m₂, h₂, (outline_offer h₂).trans hm₁⟩) es m rfl
  exact ⟨m', h⟩

/-- A sub group that is offered live expressions has a live winner. -/
theorem reigning_offerAll {s : SubGroupId} {es : List ExprId} (h : offerAll s es m = .ok m') {s' : SubGroupId}
    {g : GroupId} {e : ExprId} (hs : m'.crowns s' = some (g, some e)) :
    m.crowns s' = some (g, some e) ∨ (m'.outline.entry e).isSome := by
  rw [outline_offerAll h]
  refine foldlM_invariant (f := fun m e => offer s e m) (fun _ m' => m'.outline = m.outline ∧ ∀ s' g e,
    m'.crowns s' = some (g, some e) → m.crowns s' = some (g, some e) ∨ (m.outline.entry e).isSome) ?_ es m m'
    ⟨rfl, fun _ _ _ => .inl⟩ h |>.2 s' g e hs
  rintro e' es m₁ m₂ ⟨hout, hall⟩ h₂
  refine ⟨(outline_offer h₂).trans hout, fun s' g e hs => ?_⟩
  rcases crowns_offer h₂ with hsame | ⟨g', w, -, hlive, hnew⟩
  · exact hall s' g e (by rw [← hsame, hs])
  · rw [hnew] at hs
    dsimp only at hs
    split at hs
    · cases hs
      exact .inr (hout ▸ hlive)
    · exact hall s' g e hs

/-- Asking for a sub group fails only if the traits do not fit, or there is no such group. -/
theorem ensureSubGroup_error {r : SubGroupRef} {require : Bool} {f : Failure} (ht : m.outline.Tidy)
    (h : ensureSubGroup r require m = .error f m') :
    m' = m ∧ (m.checkTraits r.traits = .error f ∨ m.getGroup r.group = .error f) := by
  unfold ensureSubGroup at h
  obtain ⟨hm', hcheck⟩ | ⟨_, -, h⟩ := Update.read_bind_eq_error h
  · exact ⟨hm', .inl hcheck⟩
  obtain ⟨hm', hget⟩ | ⟨group, hgroup, h⟩ := Update.read_bind_eq_error h
  · exact ⟨hm', .inr hget⟩
  -- what is marked and offered something exists, so neither can fail
  have hg := outline_group_of (getGroup_eq_ok hgroup)
  cases hs : group.sub? r.traits with
  | some s =>
    obtain ⟨p, hp, -, rfl⟩ := Group.sub?_eq_some hs
    obtain ⟨m₁, hmark⟩ := markIf_total (ht.indexed.listed _ _ hg p hp)
    simp only [hs] at h
    rw [run_bind_of_ok (Update.step_of_ok hmark)] at h
    cases h
  | none =>
    have hsub : (m.openSubGroup (m.reduceGroup r.group) r.traits).1.outline.sub ⟨m.next⟩
        = some ⟨m.reduceGroup r.group, r.traits⟩ := by
      rw [outline_openSubGroup (ht.sound.names.subs.rep_eq_none (Nat.le_refl m.next))]
      exact if_pos rfl
    obtain ⟨m₁, hmark⟩ := markIf_total hsub
    rw [← outline_markIf hmark] at hsub
    obtain ⟨m₂, hoffer⟩ := offerAll_total hsub group.members
    simp only [hs] at h
    obtain h | ⟨s, m₀, h₀, h⟩ := run_bind_eq_error h
    · cases h
    cases h₀
    rw [show (m.openSubGroup (m.reduceGroup r.group) r.traits).2 = ⟨m.next⟩ from rfl,
      run_bind_of_ok (Update.step_of_ok hmark), run_bind_of_ok (Update.step_of_ok hoffer)] at h
    cases h

theorem ensureSubGroup_lasts (h : m.Valid) (r : SubGroupRef) (require : Bool) :
    m.Lasts ((ensureSubGroup r require).leave m) := by
  cases hu : ensureSubGroup r require m with
  | ok s m' =>
    rw [Update.leave_of_ok hu]
    obtain ⟨hgrown, -, hm'⟩ := ensureSubGroup_grown h.orderly.ordered hu
    refine h.grown hgrown hm' fun s' g e hs => ?_
    obtain ⟨-, group, hgroup, ⟨-, hmark⟩ | ⟨-, rfl, m₁, hmark, hoffer⟩⟩ := ensureSubGroup_eq_ok hu
    · exact .inl (by rw [← crowns_markIf hmark, hs])
    · refine (reigning_offerAll hoffer hs).imp_left fun hs => ?_
      rw [crowns_markIf hmark, crowns_openSubGroup] at hs
      dsimp only at hs
      split at hs
      · cases hs
      · exact hs
  | error f m' =>
    rw [Update.leave_of_error hu, (ensureSubGroup_error h.orderly.ordered.tidy hu).1]
    exact h.lasts

/-! ## New expressions -/

variable [Operator Op]

omit [Quantity Q] in
/-- Founding a group can only fail before anything is entered. -/
theorem create_error {x : Expr Op} {rowType : RowType} {f : Failure} (h : create x rowType m = .error f m') :
    m' = m.skip.skip ∧ (m.skip.skip.deriveFacts x = .error f ∨ m.skip.skip.requireInputs x = .error f) := by
  unfold create at h
  rw [run_bind_of_ok (show (fresh : Update Op Q ExprId) m = .ok ⟨m.next⟩ m.skip from rfl),
    run_bind_of_ok (show (fresh : Update Op Q GroupId) m.skip = .ok ⟨m.skip.next⟩ m.skip.skip from rfl)] at h
  obtain ⟨hm, hfacts⟩ | ⟨_, -, h⟩ := Update.read_bind_eq_error h
  · exact ⟨hm, .inl hfacts⟩
  obtain ⟨hm, hinputs⟩ | ⟨_, -, h⟩ := Update.read_bind_eq_error h
  · exact ⟨hm, .inr hinputs⟩
  cases h

omit [Quantity Q] in
/-- So can adding a member. -/
theorem extend_error {x : Expr Op} {rowType : RowType} {g : GroupId} {f : Failure}
    (h : extend x rowType g m = .error f m') :
    m' = m.skip ∧ (m.skip.checkRowType g rowType = .error f ∨ m.skip.requireInputs x = .error f) := by
  unfold extend at h
  rw [run_bind_of_ok (show (fresh : Update Op Q ExprId) m = .ok ⟨m.next⟩ m.skip from rfl)] at h
  obtain ⟨hm, hrow⟩ | ⟨_, -, h⟩ := Update.read_bind_eq_error h
  · exact ⟨hm, .inl hrow⟩
  obtain ⟨hm, hinputs⟩ | ⟨_, -, h⟩ := Update.read_bind_eq_error h
  · exact ⟨hm, .inr hinputs⟩
  cases h

/-- An operation that is found, or founds a group, does no damage, also if it cannot. -/
theorem register_lasts {head : Operation Op} {refs : List SubGroupRef} (h : m.Valid)
    (hx : m.outline.Ready ⟨head.op, refs, head.data, head.traits⟩) :
    m.Lasts ((register head refs none).leave m) := by
  cases hu : register head refs none m with
  | ok ge m' =>
    rw [Update.leave_of_ok hu]
    obtain ⟨g, e⟩ := ge
    obtain ⟨hgrown, hm', -⟩ := register_grown h.orderly.ordered hx hu
    refine h.grown hgrown hm' fun s g e hs => .inl ?_
    cases register_eq_ok hu with
    | found known => exact hs
    | created new ok =>
      obtain ⟨-, -, facts, -, rfl⟩ := create_eq_ok ok
      exact hs
  | error f m' =>
    rw [Update.leave_of_error hu]
    simp only [register, run_get_bind] at hu
    cases hf : m.findExpr? ⟨head.op, refs, head.data, head.traits⟩ with
    | some p =>
      simp only [hf] at hu
      cases hu
    | none =>
      simp only [hf] at hu
      rw [(create_error hu).1]
      exact h.skip.trans h.skip.valid.skip

/-! ## Plans -/

theorem insertOver_lasts {head : Operation Op} {ps : List (Plan Op)} {inputs : Update Op Q (List SubGroupRef)}
    (h : m.Valid) (hv : m.Lasts (inputs.leave m)) (hi : ∀ refs m₁, inputs m = .ok refs m₁ → Inserted m ps refs m₁) :
    m.Lasts ((insertOver head inputs none).leave m) := by
  unfold insertOver
  refine Update.leave_read_bind h.lasts fun _ _ => ?_
  exact Update.leave_bind hv fun refs m₁ h₁ hm₁ => hm₁.trans (register_lasts hm₁.valid (hi refs m₁ h₁).served)

/-- The inputs of an operation do no damage, as far as they are added. The induction is that of
`insertInputs_inserted`. -/
theorem insertInputs_lasts (op : Op) (require : Bool) : ∀ (ps : List (Plan Op)) {m : Memo Op Q}, m.Valid →
    m.Lasts ((insertInputs op require ps).leave m)
  | [], m, h => by
    simp only [insertInputs]
    exact h.lasts
  | .group ref :: rest, m, h => by
    simp only [insertInputs]
    refine Update.leave_read_bind h.lasts fun _ _ => Update.leave_read_bind h.lasts fun _ _ => ?_
    rw [Update.leave_get_bind]
    refine Update.leave_bind (ensureSubGroup_lasts h _ require) fun s m₁ _ hm₁ => ?_
    have hrest := hm₁.trans (insertInputs_lasts op require rest hm₁.valid)
    exact Update.leave_bind hrest fun _ _ _ hm₂ => hm₂
  | .node head inputs :: rest, m, h => by
    simp only [insertInputs]
    refine Update.leave_bind (insertOver_lasts h (insertInputs_lasts head.op true inputs h) fun refs m₁ =>
      insertInputs_inserted head.op true inputs h.orderly.ordered) fun ge m₁ _ hm₁ => ?_
    rw [Update.leave_get_bind]
    refine Update.leave_bind (hm₁.trans (ensureSubGroup_lasts hm₁.valid _ require)) fun s m₂ _ hm₂ => ?_
    have hrest := hm₂.trans (insertInputs_lasts op require rest hm₂.valid)
    exact Update.leave_bind hrest fun _ _ _ hm₃ => hm₃

theorem add_lasts (h : m.Valid) (n : PlanNode Op) : m.Lasts ((add n).leave m) :=
  Update.leave_bind (insertOver_lasts h (insertInputs_lasts n.head.op true n.inputs h) fun _ _ =>
    insertInputs_inserted n.head.op true n.inputs h.orderly.ordered) fun _ _ _ hm₁ => hm₁

end Growing

/-! ## Merges -/

section Merging

variable [Quantity Q] [DecidableEq Op]

/-- What is left where a chain of merges ends that was cut short: at least one merge was done, and the next one was
refused. The memo is in order up to the merges that are left. -/
structure CutShort (m : Memo Op Q) (f : Failure) (m' : Memo Op Q) : Prop where
  refused : ∃ g expected actual, f = .error (.rowTypeMismatch g expected actual)
  merged : ∃ p ps, m'.changes.merged = m.changes.merged ++ p :: ps
  ordered : ∃ ps, m'.Ordered ps ∧ m.outline.Evolves [] m'.outline ps

/-- Two groups can be merged, unless one of the names leads nowhere, or the row types differ. -/
theorem mergePair_error {p : GroupId × GroupId} {f : Failure} (ht : m.outline.Tidy)
    (hne : m.reduceGroup p.1 ≠ m.reduceGroup p.2)
    (h : mergePair (m.reduceGroup p.1) (m.reduceGroup p.2) m = .error f) :
    (∃ g ∈ [m.reduceGroup p.1, m.reduceGroup p.2], g ∉ m.groups ∧ f = .error (.danglingReference g .lookup)) ∨
      ∃ g expected actual, f = .error (.rowTypeMismatch g expected actual) := by
  have habsent : ∀ {g : GroupId}, m.groups[g]? = none → g ∉ m.groups := fun hg hmem => by
    rw [Std.TreeMap.mem_iff_isSome_getElem?, hg] at hmem
    cases hmem
  cases hga : m.groups[m.reduceGroup p.1]? with
  | none =>
    simp only [mergePair, hga] at h
    cases h
    exact .inl ⟨_, List.mem_cons_self, habsent hga, rfl⟩
  | some ga =>
    cases hgb : m.groups[m.reduceGroup p.2]? with
    | none =>
      simp only [mergePair, hga, hgb] at h
      cases h
      exact .inl ⟨_, List.mem_cons_of_mem _ List.mem_cons_self, habsent hgb, rfl⟩
    | some gb =>
      by_cases hrow : ga.rowType = gb.rowType
      · obtain ⟨m₁, more, hpair, -⟩ := mergePair_edits (P := .free) (sound_of_tidy ht [p]) hga hgb hne hrow
        rw [show mergePair (m.reduceGroup p.1) (m.reduceGroup p.2) m = .ok (m₁, more) from hpair] at h
        cases h
      · simp only [mergePair, hga, hgb] at h
        cases hfirst : staysFirst (m.reduceGroup p.1) (m.reduceGroup p.2) ga gb with
        | true =>
          simp only [hfirst, if_true, ne_eq, hrow, not_false_eq_true] at h
          cases h
          exact .inr ⟨_, _, _, rfl⟩
        | false =>
          simp only [hfirst, Bool.false_eq_true, if_false, ne_eq, Ne.symm hrow, not_false_eq_true, if_true] at h
          cases h
          exact .inr ⟨_, _, _, rfl⟩

/-- Where merges are pending between groups that have names, the only thing that can go wrong is that two row types
differ, and what was merged until then is in order. -/
theorem mergeAll_error {ps : List (GroupId × GroupId)} {f : Failure} (hm : m.Ordered ps)
    (hn : ∀ p ∈ ps, (m.outline.groupRep p.1).isSome ∧ (m.outline.groupRep p.2).isSome)
    (h : mergeAll m ps = .error f m') : (∃ g expected actual, f = .error (.rowTypeMismatch g expected actual)) ∧
      (∃ qs, m'.changes.merged = m.changes.merged ++ qs) ∧
      ∃ ps', m'.Ordered ps' ∧ m.outline.Evolves ps m'.outline ps' := by
  replace h : MergeRun m ps (.error f m') := h ▸ mergeAll_run m ps
  generalize hr : EStateM.Result.error f m' = r at h
  induction h with
  | done m => cases hr
  | @skip m p ps _ same _ ih =>
    obtain ⟨hf, hmerged, ps', hm', hev'⟩ := ih (hm.skip same) (fun q hq => hn q (List.mem_cons_of_mem _ hq)) hr
    have hev : m.outline.Evolves (p :: ps) m.outline ps :=
      (Outline.Evolves.refl hm.tidy.sound.names).cons (.of_reduce_eq same)
    exact ⟨hf, hmerged, ps', hm', hev.trans hev'⟩
  | @refuse _ p ps _ ne no =>
    cases hr
    refine ⟨?_, ⟨[], (List.append_nil _).symm⟩, p :: ps, hm, .refl hm.tidy.sound.names⟩
    obtain ⟨g, hg, hgone, -⟩ | hrow := mergePair_error hm.tidy ne no
    · -- both names are those of live groups
      have hlive : ∀ k, (m'.outline.groupRep k).isSome → m'.reduceGroup k ∈ m'.groups := fun k hk =>
        (outline_group_isSome m' _).1 (hm.tidy.sound.names.live_reduce hk)
      obtain ⟨h₁, h₂⟩ := hn p List.mem_cons_self
      rcases List.mem_cons.1 hg with rfl | hg
      · exact absurd (hlive _ h₁) hgone
      · exact absurd (List.mem_singleton.1 hg ▸ hlive _ h₂) hgone
    · exact hrow
  | @merge m m₁ p ps more _ ne ok _ ih =>
    obtain ⟨keep, absorbed, hkeep, habs, hm₁⟩ := mergePair_absorbs hm ne ok
    have hnamed : ∀ q ∈ ps ++ more, (m₁.outline.groupRep q.1).isSome ∧ (m₁.outline.groupRep q.2).isSome := by
      intro q hq
      rcases List.mem_append.1 hq with hq | hq
      · have hold := hn q (List.mem_cons_of_mem _ hq)
        exact ⟨habs.isSome_groupRep hold.1, habs.isSome_groupRep hold.2⟩
      · exact habs.named q hq
    obtain ⟨hf, ⟨qs, hqs⟩, ps', hm', hev'⟩ := ih hm₁ hnamed hr
    refine ⟨hf, ⟨(keep, absorbed) :: qs, ?_⟩, ps', hm', (habs.evolves_cons hkeep ps).trans hev'⟩
    rw [hqs, show m₁.changes.merged = m.changes.merged ++ [(keep, absorbed)] from habs.merged_eq,
      List.append_assoc, List.singleton_append]

/-- A merge that fails has done nothing, or was cut short. -/
theorem merge_error {a b : GroupId} {f : Failure} (hv : m.Valid) (h : merge a b m = .error f m') :
    m.Lasts m' ∨ m.CutShort f m' := by
  have hm := hv.orderly.ordered
  have hlinked : m.outline.Evolves [] m.outline [(a, b)] :=
    (Outline.Evolves.refl hm.tidy.sound.names).weaken fun _ hp => by cases hp
  have hm₀ : m.Ordered [(a, b)] := ⟨hm.tidy, hm.crowned.of_same hlinked rfl, hm.counted⟩
  unfold merge at h
  by_cases hp : m.reduceGroup a = m.reduceGroup b
  · rw [mergeAll_cons_of_eq hp, mergeAll] at h
    cases h
  rw [mergeAll_cons_of_ne hp] at h
  cases hpair : mergePair (m.reduceGroup a) (m.reduceGroup b) m with
  | error f' =>
    rw [hpair] at h
    cases h
    exact .inl hv.lasts
  | ok r =>
    obtain ⟨m₁, more⟩ := r
    rw [hpair] at h
    obtain ⟨keep, absorbed, hkeep, habs, hm₁⟩ := mergePair_absorbs hm₀ hp hpair
    obtain ⟨hf, ⟨qs, hqs⟩, ps', hm', hev'⟩ := mergeAll_error hm₁ habs.named h
    refine .inr ⟨hf, ⟨(keep, absorbed), qs, ?_⟩, ps', hm', hlinked.trans ((habs.evolves_cons hkeep []).trans hev')⟩
    rw [hqs, show m₁.changes.merged = m.changes.merged ++ [(keep, absorbed)] from habs.merged_eq, List.append_assoc,
      List.singleton_append]

end Merging

/-! ## Calls -/

variable [Quantity Q] [Operator Op]

/-- A call on a memo that fails. -/
inductive Fails (m : Memo Op Q) : Failure → Memo Op Q → Prop
  | add {n : PlanNode Op} {f : Failure} {m' : Memo Op Q} (failed : add n m = .error f m') : Fails m f m'
  | addTo {p : Plan Op} {g : GroupId} {f : Failure} {m' : Memo Op Q} (failed : addTo p g m = .error f m') :
      Fails m f m'
  | addEnforcer {n : PlanNode Op} {g : GroupId} {f : Failure} {m' : Memo Op Q}
      (failed : addEnforcer n g m = .error f m') : Fails m f m'
  | ensureSubGroup {r : SubGroupRef} {require : Bool} {f : Failure} {m' : Memo Op Q}
      (failed : ensureSubGroup r require m = .error f m') : Fails m f m'
  | merge {a b : GroupId} {f : Failure} {m' : Memo Op Q} (failed : merge a b m = .error f m') : Fails m f m'

section Fails

variable {f : Failure}

omit [Quantity Q] [Operator Op] in
/-- What was added before a merge that was cut short stays. -/
theorem CutShort.after {m₁ : Memo Op Q} (h : m₁.CutShort f m') (hk : m.outline.Keeps m₁.outline)
    (he : m.outline.Evolves [] m₁.outline []) : m.CutShort f m' := by
  obtain ⟨ps, hm', hev⟩ := h.ordered
  refine ⟨h.refused, ?_, ps, hm', he.trans hev⟩
  rw [← show m₁.changes.merged = m.changes.merged from hk.merged]
  exact h.merged

/-- An operation that is to join a group is refused before anything is done to the memo, or by a merge. -/
theorem register_error {head : Operation Op} {refs : List SubGroupRef} {t : GroupId} (h : m.Valid)
    (hu : register head refs (some t) m = .error f m') : m.Lasts m' ∨ m.CutShort f m' := by
  simp only [register, run_get_bind] at hu
  cases hf : m.findExpr? ⟨head.op, refs, head.data, head.traits⟩ with
  | some p =>
    simp only [hf, run_get_bind] at hu
    obtain ⟨rfl, -⟩ | ⟨_, -, hu⟩ := Update.read_bind_eq_error hu
    · exact .inl h.lasts
    obtain hu | ⟨_, m₁, -, hu⟩ := run_bind_eq_error hu
    · exact merge_error h hu
    · cases hu
  | none =>
    simp only [hf] at hu
    rw [(extend_error hu).1]
    exact .inl h.skip

theorem addNodeTo_error {n : PlanNode Op} {g : GroupId} {require : Bool} (h : m.Valid)
    (hu : addNodeTo n g require m = .error f m') : m.Lasts m' ∨ m.CutShort f m' := by
  simp only [addNodeTo, insertNode, insertOver, run_get_bind] at hu
  obtain hu | ⟨_, m₁, -, hu⟩ := run_bind_eq_error hu
  · obtain ⟨rfl, -⟩ | ⟨_, -, hu⟩ := Update.read_bind_eq_error hu
    · exact .inl h.lasts
    have hinputs := insertInputs_lasts n.head.op require n.inputs h
    obtain hu | ⟨refs, m₁, h₁, hu⟩ := run_bind_eq_error hu
    · rw [Update.leave_of_error hu] at hinputs
      exact .inl hinputs
    · rw [Update.leave_of_ok h₁] at hinputs
      have hk := (insertInputs_inserted n.head.op require n.inputs h.orderly.ordered h₁).grown.keeps
        h.orderly.ordered.tidy
      exact (register_error hinputs.valid hu).imp hinputs.trans fun hcut => hcut.after hk hinputs.evolves
  · cases hu

/-- A call that fails on a valid memo leaves it valid, unless it cuts a chain of merges short. -/
theorem Fails.outcome (hu : m.Fails f m') (h : m.Valid) : m.Lasts m' ∨ m.CutShort f m' := by
  cases hu with
  | add failed => exact .inl (Update.leave_of_error failed ▸ add_lasts h _)
  | addEnforcer failed => exact addNodeTo_error h failed
  | ensureSubGroup failed => exact .inl (Update.leave_of_error failed ▸ ensureSubGroup_lasts h _ _)
  | merge failed => exact merge_error h failed
  | @addTo p g _ _ failed =>
    cases p with
    | node head inputs => exact addNodeTo_error h failed
    | group ref =>
      simp only [Memo.addTo, run_get_bind] at failed
      obtain hu | ⟨_, m₁, -, hu⟩ := run_bind_eq_error failed
      · exact merge_error h hu
      · cases hu

section SmallHost

open SmallHost Relational

/-- A column. -/
def column : RowType := ⟨[⟨"a", .int64, true⟩]⟩

end SmallHost

end Fails

end Memo

end PlanSearch
