import PlanSearch.Proofs.Memo.Backing

/-!
# Upkeep

What an edit may put out of date is noted: new expressions are, and so is every sub group that an expression
reads and that got another winner, by a better offer or because it is now a part of another sub group. A sub
group that nothing reads may get another winner unnoticed.

    Edits .strict w w' → w.Sound → w.Upkeep w'                                           (Edits.upkeep)
-/

namespace PlanSearch

open Outline

/-! ## Reading sub groups -/

/-- The live expression `e` reads the sub group `s`. While a merge is under way, an input may still be on the
group that was absorbed. -/
def Outline.Consults {Op : Type} (o : Outline Op) (e : ExprId) (s : SubGroupId) : Prop :=
  ∃ x g i r, o.entry e = some (x, g) ∧ i ∈ x.inputs ∧ o.sub s = some r ∧ r.traits.Same i.traits ∧
    (i.group = r.group ∨ o.reduce i.group = r.group)

/-- Between merges, an expression reads the sub groups that its inputs lead to. -/
theorem Outline.Tidy.consults_iff {Op : Type} {o : Outline Op} (h : o.Tidy) {e : ExprId} {s : SubGroupId} :
    o.Consults e s ↔ ∃ x g, o.entry e = some (x, g) ∧ ∃ i ∈ x.inputs, o.subOf i = some s := by
  have hlive : ∀ r, o.sub s = some r → o.reduce r.group = r.group := by
    intro r hr
    obtain ⟨c, hc, -⟩ := (h.indexed.filed s r hr).resolve_left id
    exact h.sound.names.reduce_of_live (by rw [hc]; rfl)
  constructor
  · rintro ⟨x, g, i, r, hx, hi, hr, ht, hg⟩
    rw [h.reduce_input hx hi, or_self] at hg
    exact ⟨x, g, hx, i, hi, h.subOf_iff.2 ⟨r, hr, ht, by rw [hg]⟩⟩
  · rintro ⟨x, g, hx, i, hi, hs⟩
    obtain ⟨r, hr, ht, hg⟩ := h.subOf_iff.1 hs
    exact ⟨x, g, i, r, hx, hi, hr, ht, .inr (hg.symm.trans (hlive r hr))⟩

section Upkeep

variable {Op Q : Type}

/-- The sub group is noted as improved, or it has a winner at the same price as before. -/
def Work.Told (w w' : Work Op Q) (s : SubGroupId) : Prop :=
  (∃ t ∈ w'.standings.improved, w'.outline.reduceSub t = w'.outline.reduceSub s) ∨
    (w'.standings.wins (w'.outline.reduceSub s)).map Winner.price = (w.standings.wins s).map Winner.price

/-- The expressions agree in all but which sub groups they read. -/
structure Expr.Restates {Op : Type} (x y : Expr Op) : Prop where
  op : x.op = y.op
  data : x.data = y.data
  traits : x.traits = y.traits
  arity : x.inputs.length = y.inputs.length

theorem Expr.Restates.refl {Op : Type} (x : Expr Op) : x.Restates x := ⟨rfl, rfl, rfl, rfl⟩

theorem Expr.Restates.trans {Op : Type} {x y z : Expr Op} (h₁ : x.Restates y) (h₂ : y.Restates z) :
    x.Restates z :=
  ⟨h₁.op.trans h₂.op, h₁.data.trans h₂.data, h₁.traits.trans h₂.traits, h₁.arity.trans h₂.arity⟩

theorem Expr.restates_redirect {Op : Type} (x : Expr Op) (source target : GroupId) :
    x.Restates (x.redirect source target) :=
  ⟨rfl, rfl, rfl, by simp [Expr.redirect]⟩

/-- Expressions are old or noted as new, and stay the same but for what they read. Notes and prices stay, and
where an expression reads a sub group, it still does, and is told of a change of the winner. -/
structure Work.Upkeep (w w' : Work Op Q) : Prop where
  next : w.outline.next ≤ w'.outline.next
  live : ∀ e, (w'.outline.entry e).isSome →
    (w.outline.entry e).isSome ∨ w.outline.next ≤ e.val ∧ e ∈ w'.outline.news
  restated : ∀ e x g x' g', w.outline.entry e = some (x, g) → w'.outline.entry e = some (x', g') →
    x.Restates x'
  news : ∀ e ∈ w.outline.news, (w'.outline.entry e).isSome → e ∈ w'.outline.news
  improved : ∀ t ∈ w.standings.improved, t ∈ w'.standings.improved
  price : ∀ e p, w.standings.price e = some p → (w'.outline.entry e).isSome →
    w'.standings.price e = some p
  consults : ∀ e s, w.outline.Consults e s → (w'.outline.entry e).isSome →
    w'.outline.Consults e (w'.outline.reduceSub s) ∧ w.Told w' s

variable {w w' w'' : Work Op Q}

theorem Outline.Consults.isSome {o : Outline Op} {e : ExprId} {s : SubGroupId} (h : o.Consults e s) :
    (o.entry e).isSome := by
  obtain ⟨x, g, -, -, hx, -⟩ := h
  rw [hx]
  rfl

/-- Whatever an expression reads has a live name. -/
theorem Outline.Names.reduceSub_consulted {o : Outline Op} (hn : o.Names) {e : ExprId} {s : SubGroupId}
    (h : o.Consults e s) : o.reduceSub s = s := by
  obtain ⟨-, -, -, r, -, -, hs, -⟩ := h
  exact hn.reduceSub_of_live (by rw [hs]; rfl)

/-- An expression that was live and is live again was live all the time. -/
theorem Work.Upkeep.isSome (h₁ : w.Upkeep w') (h₂ : w'.Upkeep w'') (hn : w.outline.Names) {e : ExprId}
    (he : (w.outline.entry e).isSome) (he'' : (w''.outline.entry e).isSome) :
    (w'.outline.entry e).isSome := by
  rcases h₂.live e he'' with he' | ⟨hnew, -⟩
  · exact he'
  · have hlt := hn.exprs.lt_next e e (hn.exprRep_of_live he)
    have hle := h₁.next
    omega

theorem Work.Upkeep.refl (hw : w.Sound) : w.Upkeep w where
  next := Nat.le_refl _
  live _ := .inl
  restated e x g x' g' hx hx' := by
    rw [hx] at hx'
    cases hx'
    exact .refl x
  news _ he _ := he
  improved _ := id
  price _ _ hp _ := hp
  consults e s hc _ := by
    rw [Work.Told, hw.outline.names.reduceSub_consulted hc]
    exact ⟨hc, .inr rfl⟩

theorem Work.Upkeep.trans (h₁ : w.Upkeep w') (h₂ : w'.Upkeep w'') (hw : w.Sound)
    (hl : w'.outline.Lineage w''.outline) : w.Upkeep w'' where
  next := Nat.le_trans h₁.next h₂.next
  live e he := by
    rcases h₂.live e he with he' | ⟨hnext, hnew⟩
    · rcases h₁.live e he' with he₀ | ⟨hnext, hnew⟩
      · exact .inl he₀
      · exact .inr ⟨hnext, h₂.news e hnew he⟩
    · exact .inr ⟨Nat.le_trans h₁.next hnext, hnew⟩
  restated e x g x'' g'' hx hx'' := by
    have hlive' := h₁.isSome h₂ hw.outline.names (by rw [hx]; rfl : (w.outline.entry e).isSome) (by rw [hx'']; rfl)
    obtain ⟨⟨x', g'⟩, hx'⟩ := Option.isSome_iff_exists.1 hlive'
    exact (h₁.restated e x g x' g' hx hx').trans (h₂.restated e x' g' x'' g'' hx' hx'')
  news e hnew he := by
    rcases h₂.live e he with he' | ⟨-, hnew'⟩
    · exact h₂.news e (h₁.news e hnew he') he
    · exact hnew'
  improved t ht := h₂.improved t (h₁.improved t ht)
  price e p hp he := by
    have he' := h₁.isSome h₂ hw.outline.names (hw.price e (by rw [hp]; rfl)) he
    exact h₂.price e p (h₁.price e p hp he') he
  consults e s hc he := by
    have he' := h₁.isSome h₂ hw.outline.names hc.isSome he
    obtain ⟨hc', htold⟩ := h₁.consults e s hc he'
    obtain ⟨hc'', htold'⟩ := h₂.consults e _ hc' he
    rw [hl.name] at hc''
    refine ⟨hc'', ?_⟩
    rcases htold with ⟨t, ht, hts⟩ | hsame
    · refine .inl ⟨t, h₂.improved t ht, ?_⟩
      rw [← hl.name t, hts, hl.name]
    · rcases htold' with ⟨t, ht, hts⟩ | hsame'
      · refine .inl ⟨t, ht, ?_⟩
        rw [hts, hl.name]
      · rw [hl.name] at hsame'
        exact .inr (hsame'.trans hsame)

/-- Where the standings stay and sub groups keep their names. -/
theorem Work.Sound.upkeep (hw' : w'.Sound) (next : w.outline.next ≤ w'.outline.next)
    (live : ∀ e, (w'.outline.entry e).isSome →
      (w.outline.entry e).isSome ∨ w.outline.next ≤ e.val ∧ e ∈ w'.outline.news)
    (entry : ∀ e x g, w.outline.entry e = some (x, g) → ∀ x' g', w'.outline.entry e = some (x', g') →
      x.Restates x')
    (news : ∀ e ∈ w.outline.news, e ∈ w'.outline.news) (standings : w'.standings = w.standings)
    (consults : ∀ e s, w.outline.Consults e s → w'.outline.Consults e s) : w.Upkeep w' where
  next := next
  live := live
  restated e x g x' g' hx hx' := entry e x g hx x' g' hx'
  news e he _ := news e he
  improved t ht := by rw [standings]; exact ht
  price e p hp _ := by rw [standings]; exact hp
  consults e s hc _ := by
    have hc' := consults e s hc
    rw [Work.Told, hw'.outline.names.reduceSub_consulted hc', standings]
    exact ⟨hc', .inr rfl⟩

/-! ## One edit -/

section Consults

variable {o : Outline Op} {e : ExprId} {s : SubGroupId}

/-- New expressions and sub groups make no difference to what the others read. -/
theorem Outline.Consults.later {o' : Outline Op} (h : o.Consults e s)
    (entry : ∀ e q, o.entry e = some q → o'.entry e = some q)
    (sub : ∀ s r, o.sub s = some r → o'.sub s = some r) (reduce : ∀ g, o'.reduce g = o.reduce g) :
    o'.Consults e s := by
  obtain ⟨x, g, i, r, hx, hi, hs, ht, hg⟩ := h
  refine ⟨x, g, i, r, entry e _ hx, hi, sub s r hs, ht, ?_⟩
  rw [reduce]
  exact hg

/-- What is read in a group that is taken in is read there until its sub groups are moved. -/
theorem Outline.Consults.takeIn (h : o.Consults e s) (ht : o.Tidy) (keep absorbed : GroupId) (gone : Cell) :
    (o.takeIn keep absorbed gone).Consults e s := by
  obtain ⟨x, g, i, r, hx, hi, hs, htraits, hg⟩ := h
  rw [ht.reduce_input hx hi, or_self] at hg
  exact ⟨x, _, i, r, entry_takeIn.2 ⟨g, hx, rfl⟩, hi, hs, htraits, .inl hg⟩

/-- A group that was absorbed stands for the one that stays. -/
theorem Outline.Names.reduce_ne_gone (hn : o.Names) {keep absorbed : GroupId} (gone : o.reduce absorbed = keep)
    (ne : keep ≠ absorbed) (g : GroupId) : o.reduce g ≠ absorbed := by
  intro hg
  have hred := hn.reduce_reduce g
  rw [hg, gone] at hred
  exact ne hred

variable {keep absorbed : GroupId} {hadReaders : Bool} {s₀ : SubGroupId} {strays : List SubGroupId} {t : TraitSet}

/-- Whoever reads a stray is a reader of the absorbed group. -/
theorem Outline.Gathering.reads_stray (h : o.Gathering keep absorbed hadReaders (s₀ :: strays))
    (stray : o.sub s₀ = some ⟨absorbed, t⟩) {i : SubGroupRef} {r : SubGroupRef} (hr : o.sub s₀ = some r)
    (hg : i.group = r.group ∨ o.reduce i.group = r.group) : i.group = absorbed := by
  rw [stray] at hr
  cases hr
  exact hg.resolve_right (h.moving.sound.names.reduce_ne_gone h.moving.gone h.ne _)

theorem Outline.Consults.handSub (hc : o.Consults e s)
    (h : o.Gathering keep absorbed hadReaders (s₀ :: strays)) (stray : o.sub s₀ = some ⟨absorbed, t⟩) :
    (o.handSub keep t s₀).Consults e s := by
  obtain ⟨x, g, i, r, hx, hi, hs, ht, hg⟩ := hc
  by_cases hss : s = s₀
  · subst hss
    have habsorbed := h.reads_stray stray hs hg
    rw [stray] at hs
    cases hs
    refine ⟨x, g, i, ⟨keep, t⟩, hx, hi, if_pos rfl, ht, .inr ?_⟩
    show o.reduce i.group = keep
    rw [habsorbed, h.moving.gone]
  · exact ⟨x, g, i, r, hx, hi, (if_neg hss).trans hs, ht, hg⟩

/-- What read a stray reads the sub group that it is folded into. -/
theorem Outline.Consults.foldSub (hc : o.Consults e s)
    (h : o.Gathering keep absorbed hadReaders (s₀ :: strays)) (stray : o.sub s₀ = some ⟨absorbed, t⟩)
    {kept : SubGroupId} {t' : TraitSet} (hk : o.sub kept = some ⟨keep, t'⟩) (same : t'.Same t)
    (ne : kept ≠ s₀) : (o.foldSub kept s₀).Consults e (if s = s₀ then kept else s) := by
  obtain ⟨x, g, i, r, hx, hi, hs, ht, hg⟩ := hc
  by_cases hss : s = s₀
  · subst hss
    have habsorbed := h.reads_stray stray hs hg
    rw [stray] at hs
    cases hs
    rw [if_pos rfl]
    refine ⟨x, g, i, ⟨keep, t'⟩, hx, hi, (if_neg ne).trans hk, same.trans ht, .inr ?_⟩
    show o.reduce i.group = keep
    rw [habsorbed, h.moving.gone]
  · rw [if_neg hss]
    exact ⟨x, g, i, r, hx, hi, (if_neg hss).trans hs, ht, hg⟩

/-- A redirected reader reads what it read. -/
theorem Outline.Consults.rewrite (hc : o.Consults e s) {e₀ : ExprId} {todo : List ExprId}
    (h : o.Redirecting keep absorbed (e₀ :: todo)) {x₀ : Expr Op} {k : GroupId}
    (known : o.entry e₀ = some (x₀, k)) : (o.rewrite e₀ (x₀.redirect absorbed keep) k).Consults e s := by
  obtain ⟨x, g, i, r, hx, hi, hs, ht, hg⟩ := hc
  by_cases he : e = e₀
  · rw [he, known] at hx
    cases hx
    refine ⟨_, k, _, r, if_pos he, Expr.mem_inputs_redirect.2 ⟨i, hi, rfl⟩, hs, ?_, ?_⟩
    · split
      · exact ht
      · exact ht
    · split
      · next habsorbed =>
        -- the sub group is in the group that stays, since no sub group is astray
        obtain ⟨c, hc, -⟩ := (h.indexed.filed s r hs).resolve_left id
        have hlive : o.reduce r.group = r.group := h.sound.names.reduce_of_live (by rw [hc]; rfl)
        left
        rcases hg with hg | hg
        · rw [← hg, habsorbed] at hlive
          exact absurd hlive (h.sound.names.reduce_ne_gone h.gone h.ne absorbed)
        · rw [habsorbed, h.gone] at hg
          exact hg
      · exact hg
  · exact ⟨x, g, i, r, (if_neg he).trans hx, hi, hs, ht, hg⟩

end Consults

variable [Quantity Q]

/-- Where folding a sub group into another is not noted, the other keeps its winner, and if it is read for the
first time, neither had one. -/
theorem Standings.noted_fold (tie : TieBreak) (hadReaders : Bool) {kept s : SubGroupId} (hne : kept ≠ s)
    (st : Standings Q) : kept ∈ (st.fold tie hadReaders kept s).improved ∨
      (st.fold tie hadReaders kept s).wins kept = st.wins kept ∧
        (hadReaders = true → st.wins s = none ∧ st.wins kept = none) := by
  rw [wins_fold tie hadReaders hne, if_neg hne, if_pos rfl]
  unfold fold
  cases hbetter : (st.wins s).filter fun v => Memo.beats tie v (st.wins kept) with
  | some v => exact .inl (List.mem_append_right _ List.mem_cons_self)
  | none =>
    cases hk : st.wins kept with
    | some v =>
      cases hadReaders with
      | true => exact .inl (List.mem_append_right _ List.mem_cons_self)
      | false => exact .inr ⟨rfl, fun h => by cases h⟩
    | none =>
      refine .inr ⟨rfl, fun _ => ⟨?_, rfl⟩⟩
      cases hs : st.wins s with
      | none => rfl
      | some v =>
        -- any winner is better than none
        have hbeats : Memo.beats tie v none = true := rfl
        rw [hs, hk, Option.filter_some, if_pos hbeats] at hbetter
        cases hbetter

theorem Standings.improved_fold (tie : TieBreak) (hadReaders : Bool) (kept s : SubGroupId) (st : Standings Q) :
    ∀ t ∈ st.improved, t ∈ (st.fold tie hadReaders kept s).improved := by
  intro t ht
  unfold fold
  split
  · exact List.mem_append_left _ ht
  · split
    · exact List.mem_append_left _ ht
    · exact ht

/-- An expression that keeps its entry is the same. -/
theorem Outline.restated_of_kept {o o' : Outline Op} (h : ∀ e q, o.entry e = some q → o'.entry e = some q) :
    ∀ e x g, o.entry e = some (x, g) → ∀ x' g', o'.entry e = some (x', g') → x.Restates x' := by
  intro e x g hx x' g' hx'
  rw [h e _ hx] at hx'
  cases hx'
  exact .refl x

/-- What is live where an expression is entered was live before, or is new and noted. -/
theorem Outline.live_enter {o o' : Outline Op} {q : Expr Op × GroupId}
    (entry : o'.entry = fun e => if e = ⟨o.next⟩ then some q else o.entry e) (news : o'.news = o.news ++ [⟨o.next⟩])
    (e : ExprId) (he : (o'.entry e).isSome) : (o.entry e).isSome ∨ o.next ≤ e.val ∧ e ∈ o'.news := by
  by_cases hnew : e = ⟨o.next⟩
  · rw [hnew, news]
    exact .inr ⟨Nat.le_refl _, List.mem_append_right _ List.mem_cons_self⟩
  · simp only [entry, if_neg hnew] at he
    exact .inl he

section Cases

variable (hw : w.Sound)

include hw

/-- Where a stray is folded into a sub group and that is not noted, whoever reads either knows of no other winner. -/
theorem Work.Sound.upkeep_fold {keep absorbed : GroupId} {hadReaders : Bool} {s₀ : SubGroupId}
    {strays : List SubGroupId} {t : TraitSet} {c : Cell} {q : TraitSet × SubGroupId}
    (stage : w.stage = .moving keep absorbed hadReaders (s₀ :: strays))
    (stray : w.outline.sub s₀ = some ⟨absorbed, t⟩) (live : w.outline.group keep = some c) (listed : q ∈ c.subs)
    (same : q.1.Same t) :
    w.Upkeep { w with
      outline := w.outline.foldSub q.2 s₀
      standings := w.standings.fold w.tie hadReaders q.2 s₀
      stage := .moving keep absorbed hadReaders strays } := by
  have hnames := hw.outline.names
  have hg := hw.gathering stage
  obtain ⟨hne, hkept⟩ := hg.listed live listed
  have hred : ∀ s, (w.outline.sub s).isSome →
      (w.outline.foldSub q.2 s₀).reduceSub s = if s = s₀ then q.2 else s := by
    intro s hs
    rw [hnames.reduceSub_foldSub (by rw [stray]; rfl), hnames.reduceSub_of_live hs]
  refine ⟨Nat.le_refl _, fun _ => .inl, fun e x g x' g' hx => restated_of_kept (fun _ _ => id) e x g hx x' g',
    fun _ he _ => he, w.standings.improved_fold _ _ _ _,
    fun e p hp _ => (congrFun (w.standings.price_fold _ _ _ _) e).trans hp, fun e s hc _ => ?_⟩
  have hlive : (w.outline.sub s).isSome := by
    obtain ⟨-, -, -, r, -, -, hs, -⟩ := hc
    rw [hs]
    rfl
  refine ⟨?_, ?_⟩
  · show (w.outline.foldSub q.2 s₀).Consults e ((w.outline.foldSub q.2 s₀).reduceSub s)
    rw [hred s hlive]
    exact hc.foldSub hg stray hkept same hne
  · by_cases hs : s = s₀ ∨ s = q.2
    · have hs' : (if s = s₀ then q.2 else s) = q.2 := by
        rcases hs with rfl | rfl
        · exact if_pos rfl
        · exact if_neg hne
      rcases w.standings.noted_fold w.tie hadReaders hne with hnoted | ⟨hwins, hnone⟩
      · refine .inl ⟨q.2, hnoted, ?_⟩
        show (w.outline.foldSub q.2 s₀).reduceSub q.2 = (w.outline.foldSub q.2 s₀).reduceSub s
        rw [hred s hlive, hred q.2 (by rw [hkept]; rfl), hs', if_neg hne]
      · right
        show ((w.standings.fold w.tie hadReaders q.2 s₀).wins ((w.outline.foldSub q.2 s₀).reduceSub s)).map _ = _
        rw [hred s hlive, hs', hwins]
        rcases hs with rfl | rfl
        · -- whoever reads the stray reads the absorbed group
          obtain ⟨x, g, i, r, hx, hi, hr, -, hgroup⟩ := hc
          have hread : x.reads absorbed = true := Expr.reads_iff.2 ⟨i, hi, hg.reads_stray stray hr hgroup⟩
          obtain ⟨hnone₁, hnone₂⟩ := hnone (hg.readers e x g hx hread)
          rw [hnone₁, hnone₂]
        · rfl
    · rw [not_or] at hs
      right
      show ((w.standings.fold w.tie hadReaders q.2 s₀).wins ((w.outline.foldSub q.2 s₀).reduceSub s)).map _ = _
      rw [hred s hlive, if_neg hs.1, Standings.wins_fold _ _ hne, if_neg hs.1, if_neg hs.2]

omit [Quantity Q] in
/-- A better winner is noted. -/
theorem Work.Sound.upkeep_crown {s₀ : SubGroupId} (v : Winner Q) (owed : List (SubGroupId × ExprId)) :
    w.Upkeep { w with standings := w.standings.crown s₀ v, owed := owed } := by
  refine ⟨Nat.le_refl _, fun _ => .inl, fun e x g x' g' hx => restated_of_kept (fun _ _ => id) e x g hx x' g',
    fun _ he _ => he, fun t ht => List.mem_append_left _ ht, fun e p' hp _ => hp, fun e s hc _ => ?_⟩
  have hred := hw.outline.names.reduceSub_consulted hc
  refine ⟨?_, ?_⟩
  · show w.outline.Consults e (w.outline.reduceSub s)
    rw [hred]
    exact hc
  · by_cases hs : s = s₀
    · exact .inl ⟨s₀, List.mem_append_right _ List.mem_cons_self, by rw [hs]⟩
    · right
      show ((w.standings.crown s₀ v).wins (w.outline.reduceSub s)).map _ = _
      rw [hred]
      exact congrArg _ (if_neg hs)

/-- A redirected reader reads on. -/
theorem Work.Sound.upkeep_rewrite {keep absorbed : GroupId} {e₀ : ExprId} {todo : List ExprId} {x : Expr Op}
    {k : GroupId} (calm : w.owed = []) (stage : w.stage = .redirecting keep absorbed (e₀ :: todo))
    (known : w.outline.entry e₀ = some (x, k)) (apart : w.outline.Apart (x.redirect absorbed keep)) :
    w.Upkeep { w with
      outline := w.outline.rewrite e₀ (x.redirect absorbed keep) k, stage := .redirecting keep absorbed todo } := by
  have hw' := (Edit.rewrite calm stage known apart : Edit Terms.strict w _).sound hw
  refine hw'.upkeep (Nat.le_refl _) (fun e he => ?_) (fun e y g hy y' g' hy' => ?_) (fun _ => id) rfl
    fun e s hc => hc.rewrite (hw.redirecting stage) known
  · by_cases hee : e = e₀
    · rw [hee, known]
      exact .inl rfl
    · change (if e = e₀ then some _ else w.outline.entry e).isSome at he
      rw [if_neg hee] at he
      exact .inl he
  · change (if e = e₀ then some (x.redirect absorbed keep, k) else w.outline.entry e) = some (y', g') at hy'
    split at hy'
    · next hee =>
      rw [hee, known] at hy
      cases hy
      cases hy'
      exact Expr.restates_redirect _ absorbed keep
    · rw [hy] at hy'
      cases hy'
      exact .refl y

omit [Quantity Q] in
/-- Where an expression is dropped, the others keep their prices, and winners change their names at most. -/
theorem Work.Sound.upkeep_drop {keep absorbed : GroupId} {e₀ twin : ExprId} {todo : List ExprId} {x : Expr Op}
    {k : GroupId} (subs : List SubGroupId) (pending : List (GroupId × GroupId)) :
    w.Upkeep { w with
      outline := w.outline.drop e₀ twin (x.redirect absorbed keep) k
      standings := w.standings.drop e₀ twin subs
      stage := .redirecting keep absorbed todo
      pending := pending } := by
  have hentry : ∀ e, ((w.outline.drop e₀ twin (x.redirect absorbed keep) k).entry e).isSome →
      e ≠ e₀ ∧ (w.outline.entry e).isSome := by
    intro e he
    obtain ⟨⟨y, g⟩, hy⟩ := Option.isSome_iff_exists.1 he
    obtain ⟨hne, hy⟩ := entry_drop.1 hy
    exact ⟨hne, by rw [hy]; rfl⟩
  refine ⟨Nat.le_refl _, fun e he => .inl (hentry e he).2, fun e z g z' g' hz hz' => ?_,
    fun e hnew he => List.mem_filter.2 ⟨hnew, by simpa using (hentry e he).1⟩, fun _ => id, fun e p hp he => ?_,
    fun e s hc he => ?_⟩
  · have hkept := (entry_drop.1 hz').2
    rw [hz] at hkept
    cases hkept
    exact .refl z
  · simp only [Standings.drop]
    split
    · next htwin => rw [← htwin, hp]; rfl
    · rw [if_neg (hentry e he).1]
      exact hp
  · have hred := hw.outline.names.reduceSub_consulted hc
    obtain ⟨z, g, i, r, hz, hi, hs, ht, hg⟩ := hc
    refine ⟨?_, .inr ?_⟩
    · show (w.outline.drop e₀ twin (x.redirect absorbed keep) k).Consults e (w.outline.reduceSub s)
      rw [hred]
      exact ⟨z, g, i, r, entry_drop.2 ⟨(hentry e he).1, hz⟩, hi, hs, ht, hg⟩
    · show ((w.standings.drop e₀ twin subs).wins (w.outline.reduceSub s)).map _ = _
      rw [hred]
      simp only [Standings.drop, Standings.rename]
      split
      · rw [Option.map_map]
        congr 1
        funext v
        exact Standings.retitle_price e₀ twin v
      · rfl

end Cases

/-- Everything that an edit may put out of date is noted. -/
theorem Edit.upkeep (h : Edit Terms.strict w w') (hw : w.Sound) : w.Upkeep w' := by
  have hw' := h.sound hw
  have hnames := hw.outline.names
  cases h with
  | forget _ allowed => exact allowed.elim
  | price _ _ _ fair => exact fair.elim
  | skip idle =>
    exact hw'.upkeep (Nat.le_succ _) (fun _ => .inl) (restated_of_kept fun _ _ => id) (fun _ => id) rfl fun _ _ => id
  | propose | same | convene | pass | finish =>
    exact hw'.upkeep (Nat.le_refl _) (fun _ => .inl) (restated_of_kept fun _ _ => id) (fun _ => id) rfl fun _ _ => id
  | openSub idle live new =>
    refine hw'.upkeep (Nat.le_succ _) (fun _ => .inl) (restated_of_kept fun _ _ => id) (fun _ => id) rfl
      fun e s hc => ?_
    refine hc.later (fun _ _ => id) (fun s r hs => ?_) fun _ => rfl
    have hne : s ≠ ⟨w.outline.next⟩ := fun hs' => by
      rw [hs', hnames.fresh_sub (Nat.le_refl _)] at hs
      cases hs
    exact (if_neg hne).trans hs
  | attach idle live ready apart =>
    exact hw'.upkeep (Nat.le_succ _) (live_enter rfl rfl) (restated_of_kept (hnames.entry_enter rfl))
      (fun _ => List.mem_append_left _) rfl fun e s hc => hc.later (hnames.entry_enter rfl) (fun _ _ => id) fun _ => rfl
  | @found x rowType facts idle ready apart =>
    exact hw'.upkeep (Nat.le_add_right _ 2) (live_enter rfl rfl) (restated_of_kept (hnames.entry_enter rfl))
      (fun _ => List.mem_append_left _) rfl fun e s hc =>
        hc.later (hnames.entry_enter rfl) (fun _ _ => id) (congrFun (hnames.reduce_found x rowType facts))
  | @takeIn p ps keep absorbed kept gone hadReaders idle next pair ne live known rowType readers =>
    refine hw'.upkeep (Nat.le_refl _) (fun e he => ?_) (fun e x g hx x' g' hx' => ?_) (fun _ => id) rfl
      fun e s hc => hc.takeIn (hw.tidy idle.stage) keep absorbed gone
    · simp only [Outline.takeIn, Option.isSome_map] at he
      exact .inl he
    · obtain ⟨g₀, hx₀, -⟩ := entry_takeIn.1 hx'
      rw [hx] at hx₀
      cases hx₀
      exact .refl x
  | hand calm stage stray live new =>
    exact hw'.upkeep (Nat.le_refl _) (fun _ => .inl) (restated_of_kept fun _ _ => id) (fun _ => id) rfl
      fun e s hc => hc.handSub (hw.gathering stage) stray
  | rewrite calm stage known apart => exact hw.upkeep_rewrite calm stage known apart
  | fold calm stage stray live listed same => exact hw.upkeep_fold stage stray live listed same
  | @offer s₀ e₀ owed next =>
    rcases w.standings.offer_cases w.registry w.tie w.outline s₀ e₀ with
      hst | ⟨x, k, r, p, -, -, -, -, -, hst⟩
    · exact hw'.upkeep (Nat.le_refl _) (fun _ => .inl) (restated_of_kept fun _ _ => id) (fun _ => id) hst
        fun _ _ => id
    · rw [hst]
      exact hw.upkeep_crown _ owed
  | drop => exact hw.upkeep_drop _ _

theorem Edits.upkeep (h : Edits Terms.strict w w') (hw : w.Sound) : w.Upkeep w' := by
  induction h with
  | refl => exact .refl hw
  | tail hr hedit ih =>
    have hw₁ := Edits.sound hr hw
    exact ih.trans (hedit.upkeep hw₁) hw (hedit.lineage hw₁)

end Upkeep

end PlanSearch
