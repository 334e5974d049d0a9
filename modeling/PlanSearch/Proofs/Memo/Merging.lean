import PlanSearch.Proofs.Memo.Crowns
import PlanSearch.Proofs.Steps

/-!
# One merge

The merge of two live groups is a merge of the outline: the sub groups are moved one by one, then the
readers are redirected one by one, and after each of these steps every winner still stands for a
member of its group, up to the merges that are pending.

    m.outline.Tidy → m.Crowned (p :: rest) → … → absorb keep absorbed gone m = .ok (m', more) →
      m.outline.Absorbs keep absorbed m'.outline more ∧ m'.Crowned (rest ++ more)
                                                                            (Memo.absorb_absorbs)
-/

namespace PlanSearch

open Outline

/-! ## Finding sub groups and expressions -/

theorem Group.sub?_eq_some {g : Group} {traits : TraitSet} {s : SubGroupId}
    (h : g.sub? traits = some s) : ∃ p ∈ g.cell.subs, p.1.Same traits ∧ p.2 = s := by
  obtain ⟨p, hp, rfl⟩ := Option.map_eq_some_iff.1 h
  exact ⟨p, List.mem_of_find?_eq_some hp, by simpa using List.find?_some hp, rfl⟩

theorem Group.sub?_eq_none {g : Group} {traits : TraitSet} (h : g.sub? traits = none) :
    ∀ p ∈ g.cell.subs, ¬ p.1.Same traits := by
  have hn := Option.map_eq_none_iff.1 h
  intro p hp
  simpa using List.find?_eq_none.1 hn p hp

namespace Memo

variable {Op Q : Type}

theorem findExpr?_eq_some [DecidableEq Op] {m : Memo Op Q} {x : Expr Op} {e : ExprId}
    {entry : Entry Op Q} (h : m.findExpr? x = some (e, entry)) :
    m.exprs[e]? = some entry ∧ entry.expr.Congruent x := by
  unfold findExpr? at h
  exact ⟨Std.TreeMap.mem_toList_iff_getElem?_eq_some.1 (List.mem_of_find?_eq_some h),
    by simpa using List.find?_some h⟩

theorem findExpr?_eq_none [DecidableEq Op] {m : Memo Op Q} {x : Expr Op}
    (h : m.findExpr? x = none) : m.outline.Apart x := by
  intro e y g he
  obtain ⟨entry, hentry, hp⟩ := Option.map_eq_some_iff.1 he
  have hno := List.find?_eq_none.1 h (e, entry)
    (Std.TreeMap.mem_toList_iff_getElem?_eq_some.2 hentry)
  have hy : entry.expr = y := congrArg Prod.fst hp
  rw [← hy]
  simpa using hno

theorem outline_entry_of {m : Memo Op Q} {e : ExprId} {entry : Entry Op Q}
    (h : m.exprs[e]? = some entry) : m.outline.entry e = some (entry.expr, entry.group) := by
  rw [outline_entry, h]; rfl

theorem outline_group_of {m : Memo Op Q} {g : GroupId} {group : Group}
    (h : m.groups[g]? = some group) : m.outline.group g = some group.cell := by
  rw [outline_group, h]; rfl

/-! ## Moving sub groups -/

section Moving

variable [Quantity Q] {keep absorbed : GroupId} {s : SubGroupId} {rest : List SubGroupId}
  {hadReaders : Bool} {ps : List (GroupId × GroupId)} {m m' : Memo Op Q}

/-- After a sub group was folded into `kept`, that may have its winner; all other winners are old. -/
theorem crowns_foldInto {kept : SubGroupId} {sub : SubGroup Q} (hs : m.subGroups[s]? = some sub)
    (h : foldInto kept s sub hadReaders m = .ok m') {s' : SubGroupId} {g : GroupId} {e : ExprId}
    (hc : m'.crowns s' = some (g, some e)) : m.crowns s' = some (g, some e) ∨
      (∃ w, m.crowns kept = some (g, w)) ∧ m.crowns s = some (sub.group, some e) := by
  obtain ⟨m₁, keptSub, h₁, hkept, rfl⟩ := foldInto_eq_ok h
  have hm₁ : ∀ s', m₁.crowns s' = if s' = s then none else m.crowns s' := by
    intro s'
    rw [crowns_markIf h₁]
    simp only [crowns, retire, Tables.getElem?_erase_eq]
    split <;> rfl
  have hold : ∀ s' g e, m₁.crowns s' = some (g, some e) → m.crowns s' = some (g, some e) := by
    intro s' g e hs'
    rw [hm₁] at hs'
    split at hs'
    · cases hs'
    · exact hs'
  split at hc
  · next w hw =>
    change ((m₁.setSubGroup kept { keptSub with winner := some w }).crowns s') = _ at hc
    rw [crowns_setSubGroup] at hc
    dsimp only at hc
    split at hc
    · cases hc
      have hk : m₁.crowns kept = some keptSub.crown := by
        rw [crowns, hkept]; rfl
      refine .inr ⟨⟨keptSub.winner.map Winner.expr, ?_⟩, ?_⟩
      · rw [hm₁] at hk
        split at hk
        · cases hk
        · exact hk
      · have hw' : sub.winner = some w := (Option.filter_eq_some_iff.1 hw).1
        rw [crowns, hs, Option.map_some, SubGroup.crown, hw']
        rfl
    · exact .inl (hold s' g e hc)
  · refine .inl (hold s' g e ?_)
    split at hc <;> exact hc

/-- A sub group of the absorbed group is folded into one of the group that stays. -/
theorem foldInto_shifts (hm : m.outline.Moving keep absorbed (s :: rest)) (hc : m.Crowned ps)
    {sub : SubGroup Q} (hs : m.subGroups[s]? = some sub) (hsg : sub.group = absorbed) {c : Cell}
    (hkeep : m.outline.group keep = some c) {p : TraitSet × SubGroupId} (hp : p ∈ c.subs)
    (hsame : p.1.Same sub.traits) (h : foldInto p.2 s sub hadReaders m = .ok m') :
    Shift keep absorbed (m.outline, []) (m'.outline, []) ∧ m'.outline.Moving keep absorbed rest ∧
      m'.Crowned ps := by
  have ht : m.outline.sub s = some ⟨absorbed, sub.traits⟩ := by rw [outline_sub, hs, ← hsg]; rfl
  have hkept := hm.indexed.listed keep c hkeep p hp
  have hne : p.2 ≠ s := hm.ne_stray List.mem_cons_self hkeep hp
  have hklive : (m.outline.sub p.2).isSome := by rw [hkept]; rfl
  have hout := outline_foldInto (hm.sound.names.subRep_of_live hklive)
    (hm.sound.names.subRep_of_live (by rw [ht]; rfl)) h
  have hshift : Shift keep absorbed (m.outline, []) (m'.outline, []) := by
    rw [hout]; exact .fold hm.sound hne hklive
  have hmoving := hm.foldSub ht hkeep hp hsame
  rw [← hout] at hmoving
  refine ⟨hshift, hmoving, ?_⟩
  have hev := hshift.evolves.append ps
  rw [List.append_nil] at hev
  refine hc.later hev fun s' g e hs' => ?_
  rcases crowns_foldInto hs h hs' with hold | ⟨⟨w, hw⟩, hnew⟩
  · exact ⟨s', g, e, hold, rfl, .refl _ _ _⟩
  · -- the winner came along, and its group is one with the group that stays
    refine ⟨s, sub.group, e, hnew, rfl, ?_⟩
    obtain ⟨ksub, hksub, hcr⟩ := Option.map_eq_some_iff.1 hw
    have hg : g = keep := by
      rw [outline_sub, hksub] at hkept
      rw [← show ksub.group = g from congrArg Prod.fst hcr]
      exact congrArg SubGroupRef.group (Option.some.inj hkept)
    rw [hsg, hg]
    exact .of_reduce_eq (hmoving.gone.trans (reduce_kept hmoving.sound hmoving.gone).symm)

omit [Quantity Q] in
/-- A sub group of the absorbed group is handed over to the group that stays. -/
theorem handSub_shifts (hm : m.outline.Moving keep absorbed (s :: rest)) (hc : m.Crowned ps)
    {sub : SubGroup Q} (hs : m.subGroups[s]? = some sub) (hsg : sub.group = absorbed) {c : Cell}
    (hkeep : m.outline.group keep = some c) (hno : ∀ p ∈ c.subs, ¬ p.1.Same sub.traits)
    (hout : m'.outline = m.outline.handSub keep sub.traits s)
    (hcrowns : ∀ s', m'.crowns s' = if s' = s then some (keep, sub.winner.map Winner.expr)
      else m.crowns s') :
    Shift keep absorbed (m.outline, []) (m'.outline, []) ∧ m'.outline.Moving keep absorbed rest ∧
      m'.Crowned ps := by
  have ht : m.outline.sub s = some ⟨absorbed, sub.traits⟩ := by rw [outline_sub, hs, ← hsg]; rfl
  have hshift : Shift keep absorbed (m.outline, []) (m.outline.handSub keep sub.traits s, []) :=
    .hand hm.sound (by rw [ht]; rfl)
  have hmoving := hm.handSub ht hkeep hno
  rw [← hout] at hshift hmoving
  refine ⟨hshift, hmoving, ?_⟩
  have hev := hshift.evolves.append ps
  rw [List.append_nil] at hev
  refine hc.later hev fun s' g e hs' => ?_
  rw [hcrowns] at hs'
  split at hs'
  · simp only [Option.some.injEq, Prod.mk.injEq] at hs'
    refine ⟨s, sub.group, e, by rw [crowns, hs, Option.map_some, SubGroup.crown, hs'.2], rfl, ?_⟩
    rw [hsg, ← hs'.1]
    exact .of_reduce_eq (hmoving.gone.trans (reduce_kept hmoving.sound hmoving.gone).symm)
  · exact ⟨s', g, e, hs', rfl, .refl _ _ _⟩

theorem moveSubGroup_shifts (hm : m.outline.Moving keep absorbed (s :: rest)) (hc : m.Crowned ps)
    (h : moveSubGroup keep hadReaders s m = .ok m') :
    Shift keep absorbed (m.outline, []) (m'.outline, []) ∧ m'.outline.Moving keep absorbed rest ∧
      m'.Crowned ps := by
  obtain ⟨sub, group, hs, hgroup, hmoved⟩ := moveSubGroup_eq_ok h
  have hkeep := outline_group_of hgroup
  have hsg : sub.group = absorbed := by
    obtain ⟨t, ht⟩ := hm.strays s List.mem_cons_self
    rw [outline_sub, hs] at ht
    exact congrArg SubGroupRef.group (Option.some.inj ht)
  obtain ⟨kept, hk, hfold⟩ | ⟨hk, rfl⟩ := hmoved
  · obtain ⟨p, hp, hsame, rfl⟩ := Group.sub?_eq_some hk
    exact foldInto_shifts hm hc hs hsg hkeep hp hsame hfold
  · refine handSub_shifts hm hc hs hsg hkeep (Group.sub?_eq_none hk) (outline_handOver m keep s sub) fun s' => ?_
    simp only [crowns, handOver, Tables.getElem?_insert_eq]
    split <;> rfl

/-- All sub groups of the absorbed group are moved. -/
theorem moveSubGroups_shifts {ss : List SubGroupId} (hm : m.outline.Moving keep absorbed ss)
    (hc : m.Crowned ps) (h : ss.foldlM (fun m s => moveSubGroup keep hadReaders s m) m = .ok m') :
    Shifts keep absorbed (m.outline, []) (m'.outline, []) ∧ m'.outline.Moving keep absorbed [] ∧
      m'.Crowned ps := by
  refine foldlM_invariant (fun rest m' => Shifts keep absorbed (m.outline, []) (m'.outline, []) ∧
    m'.outline.Moving keep absorbed rest ∧ m'.Crowned ps) ?_ ss m m' ⟨.refl, hm, hc⟩ h
  rintro s rest m₁ m₂ ⟨hs₁, hm₁, hc₁⟩ h₂
  obtain ⟨hs₂, hm₂, hc₂⟩ := moveSubGroup_shifts hm₁ hc₁ h₂
  exact ⟨hs₁.tail hs₂, hm₂, hc₂⟩

theorem offerMembers_crowned {stray : SubGroupId → Prop} (hs : m.outline.Sound)
    (hi : m.outline.Indexed stray) (hc : m.Crowned ps) {g : GroupId}
    (h : offerMembers g m = .ok m') : m'.Crowned ps := by
  simp only [offerMembers] at h
  obtain ⟨group, hgroup, h⟩ := bind_eq_ok h
  have hg := outline_group_of (liveGroup_eq_ok hgroup)
  refine hc.offerEach hs.names (g := g) (fun s hm r hr => ?_) (fun e he x k hx => ?_) h
  · obtain ⟨p, hp, rfl⟩ := List.mem_map.1 hm
    rw [hi.listed g _ hg p hp] at hr
    cases hr
    rfl
  · obtain ⟨y, hy⟩ := (hs.places.members g _ hg e).1 he
    rw [hx] at hy
    cases hy
    exact .refl _ _ _

end Moving

/-! ## Redirecting readers -/

section Redirecting

variable {keep absorbed : GroupId} {e twin : ExprId} {m m' : Memo Op Q}

/-- After an expression was dropped, winners are what they were, or its twin in its place. -/
theorem crowns_dropTwin {entry : Entry Op Q} {x : Expr Op} (h : dropTwin e twin entry x m = .ok m')
    {s : SubGroupId} {g : GroupId} {e' : ExprId} (hs : m'.crowns s = some (g, some e')) :
    ∃ e₀, m.crowns s = some (g, some e₀) ∧ (e' = e₀ ∨ e₀ = e ∧ e' = twin) := by
  obtain ⟨m₁, h₁, rfl⟩ := dropTwin_eq_ok h
  refine foldlM_invariant (fun _ m₁ => ∀ g e', m₁.crowns s = some (g, some e') →
    ∃ e₀, m.crowns s = some (g, some e₀) ∧ (e' = e₀ ∨ e₀ = e ∧ e' = twin)) ?_ _ _ _
    (fun g e' hs' => ⟨e', hs', .inl rfl⟩) h₁ g e' hs
  intro s' ss m₂ m₃ ih h₃ g e' hs'
  obtain ⟨g', w, hw, hcr⟩ := crowns_renameWinner h₃
  rw [hcr] at hs'
  dsimp only at hs'
  split at hs'
  · next he =>
    simp only [Option.some.injEq, Prod.mk.injEq] at hs'
    obtain ⟨rfl, hs'⟩ := hs'
    obtain ⟨e₁, rfl, he₁⟩ := Option.map_eq_some_iff.1 hs'
    obtain ⟨e₀, h₀, hor⟩ := ih g' e₁ (he ▸ hw)
    refine ⟨e₀, h₀, ?_⟩
    split at he₁
    · next hee =>
      rcases hor with rfl | hor
      · exact .inr ⟨hee, he₁.symm⟩
      · exact .inr ⟨hor.1, he₁.symm⟩
    · exact he₁ ▸ hor
  · exact ih g e' hs'

/-- A reader of the absorbed group is dropped for the expression that it is congruent to by now. -/
theorem dropTwin_shifts {todo : List ExprId} {ps rest : List (GroupId × GroupId)}
    (hm : m.outline.Redirecting keep absorbed (e :: todo)) (hc : m.Crowned (rest ++ ps))
    {entry other : Entry Op Q} (hentry : m.exprs[e]? = some entry) (hother : m.exprs[twin]? = some other)
    (hne : twin ≠ e) (hcong : other.expr.Congruent (entry.expr.redirect absorbed keep))
    (h : dropTwin e twin entry (entry.expr.redirect absorbed keep) m = .ok m') :
    let ps' := if other.group = entry.group then ps else ps ++ [(other.group, entry.group)]
    Shift keep absorbed (m.outline, ps) (m'.outline, ps') ∧
      m'.outline.Redirecting keep absorbed todo ∧ m'.Crowned (rest ++ ps') := by
  intro ps'
  have he := outline_entry_of hentry
  have ht := outline_entry_of hother
  have helive : (m.outline.entry e).isSome := by rw [he]; rfl
  have htlive : (m.outline.entry twin).isSome := by rw [ht]; rfl
  have hout := outline_dropTwin (hm.sound.names.exprRep_of_live helive)
    (hm.sound.names.exprRep_of_live htlive) h
  have hshift : Shift keep absorbed (m.outline, ps) (_, ps') :=
    .drop hm.sound hm.gone he hne ht hcong
  have hnext := hm.drop he hne ht
  rw [← hout] at hshift hnext
  refine ⟨hshift, hnext, hc.later (hshift.evolves.append rest) fun s g e' hs => ?_⟩
  obtain ⟨e₀, h₀, hor⟩ := crowns_dropTwin h hs
  refine ⟨s, g, e₀, h₀, ?_, .refl _ _ _⟩
  rcases hor with rfl | ⟨rfl, rfl⟩
  · rfl
  · simp only [hout, hm.sound.names.reduceExpr_drop _ _ helive,
      hm.sound.names.reduceExpr_of_live helive, hm.sound.names.reduceExpr_of_live htlive,
      if_true, if_neg hne]

theorem redirectReader_shifts [DecidableEq Op] {todo : List ExprId}
    {ps ps' rest : List (GroupId × GroupId)} (hm : m.outline.Redirecting keep absorbed (e :: todo))
    (hc : m.Crowned (rest ++ ps)) (h : redirectReader keep absorbed (m, ps) e = .ok (m', ps')) :
    Shifts keep absorbed (m.outline, ps) (m'.outline, ps') ∧
      m'.outline.Redirecting keep absorbed todo ∧ m'.Crowned (rest ++ ps') := by
  simp only [redirectReader] at h
  split at h
  · next hno =>
    cases h
    refine ⟨.refl, hm.pass fun x g he => ?_, hc⟩
    rw [outline_entry, hno] at he
    cases he
  · next entry hentry =>
    have he := outline_entry_of hentry
    split at h
    · next hreads =>
      cases h
      refine ⟨.refl, hm.pass fun x g hx => ?_, hc⟩
      rw [he] at hx
      cases hx
      simpa using hreads
    · next hreads =>
      split at h
      · next hfind =>
        cases h
        have hap := findExpr?_eq_none hfind
        have hout := outline_rewrite m e entry (entry.expr.redirect absorbed keep)
        have hshift : Shift keep absorbed (m.outline, ps) (_, ps) :=
          .rewrite hm.sound hm.gone he hap
        have hnext := hm.rewrite he hap
        rw [← hout] at hshift hnext
        exact ⟨.single hshift, hnext, hc.of_same (hshift.evolves.append rest) rfl⟩
      · next t other hfind =>
        obtain ⟨m₁, h₁, h⟩ := bind_eq_ok h
        cases h
        obtain ⟨hother, hcong⟩ := findExpr?_eq_some hfind
        have hne : t ≠ e := by
          rintro rfl
          rw [hentry] at hother
          cases hother
          have hr := hcong.reads absorbed
          rw [Expr.reads_redirect hm.ne] at hr
          rw [hr] at hreads
          simp at hreads
        obtain ⟨hshift, hnext, hcrowned⟩ := dropTwin_shifts hm hc hentry hother hne hcong h₁
        exact ⟨.single hshift, hnext, hcrowned⟩

/-- All readers of the absorbed group are redirected. -/
theorem redirectReaders_shifts [DecidableEq Op] {es : List ExprId}
    {ps' rest : List (GroupId × GroupId)} (hm : m.outline.Redirecting keep absorbed es)
    (hc : m.Crowned rest) (h : es.foldlM (redirectReader keep absorbed) (m, []) = .ok (m', ps')) :
    Shifts keep absorbed (m.outline, []) (m'.outline, ps') ∧
      m'.outline.Redirecting keep absorbed [] ∧ m'.Crowned (rest ++ ps') := by
  refine foldlM_invariant (fun todo (st : Memo Op Q × List (GroupId × GroupId)) =>
    Shifts keep absorbed (m.outline, []) (st.1.outline, st.2) ∧
      st.1.outline.Redirecting keep absorbed todo ∧ st.1.Crowned (rest ++ st.2)) ?_ es (m, [])
    (m', ps') ⟨.refl, hm, by rw [List.append_nil]; exact hc⟩ h
  rintro e todo ⟨m₁, ps₁⟩ ⟨m₂, ps₂⟩ ⟨hs₁, hm₁, hc₁⟩ h₂
  obtain ⟨hs₂, hm₂, hc₂⟩ := redirectReader_shifts hm₁ hc₁ h₂
  exact ⟨hs₁.trans hs₂, hm₂, hc₂⟩

end Redirecting

/-! ## Merging -/

section Merging

variable [Quantity Q] [DecidableEq Op] {m m' : Memo Op Q}

theorem absorb_absorbs {keep absorbed : GroupId} {gone : Group} {p : GroupId × GroupId}
    {rest more : List (GroupId × GroupId)} (hm : m.outline.Tidy) (hc : m.Crowned (p :: rest))
    (hne : keep ≠ absorbed) (hk : (m.outline.group keep).isSome)
    (ha : m.groups[absorbed]? = some gone)
    (hp : (keep, absorbed) = (m.outline.reduce p.1, m.outline.reduce p.2) ∨
      (absorbed, keep) = (m.outline.reduce p.1, m.outline.reduce p.2))
    (h : absorb keep absorbed gone m = .ok (m', more)) :
    m.outline.Absorbs keep absorbed m'.outline more ∧ m'.Crowned (rest ++ more) := by
  simp only [absorb] at h
  obtain ⟨m₁, h₁, h⟩ := bind_eq_ok h
  obtain ⟨m₂, h₂, h⟩ := bind_eq_ok h
  obtain ⟨group, hgroup, h⟩ := bind_eq_ok h
  obtain ⟨⟨m₃, p₃⟩, h₃, h⟩ := bind_eq_ok h
  cases h
  have hgone := outline_group_of ha
  have hlive : (m.outline.group absorbed).isSome := by rw [hgone]; rfl
  have hmem : ∀ e x, m.exprs[e]? = some x → (e ∈ gone.members ↔ x.group = absorbed) := by
    intro e x hx
    have he := outline_entry_of hx
    rw [show e ∈ gone.members ↔ _ from hm.sound.places.members absorbed _ hgone e, he]
    simp
  have hout := outline_takeIn (hm.sound.names.groupRep_of_live hk)
    (hm.sound.names.groupRep_of_live hlive) hmem
  -- the members and readers are taken in
  have hmoving := hm.takeIn hne hk hgone
  have hred : ∀ g, (m.outline.takeIn keep absorbed gone.cell).reduce g
      = if m.outline.reduce g = absorbed then keep else m.outline.reduce g :=
    hm.sound.names.reduce_takeIn hlive
  have hev : m.outline.Evolves (p :: rest) (takeIn keep absorbed gone m).outline rest := by
    rw [hout]
    refine (hm.sound.evolves_takeIn hne hk hgone).cons (.of_reduce_eq ?_)
    rw [hred, hred]
    rcases hp with hp | hp <;>
      (obtain ⟨hp₁, hp₂⟩ := Prod.mk.inj hp; rw [← hp₁, ← hp₂]; simp)
  have hc₀ : (takeIn keep absorbed gone m).Crowned rest := hc.of_same hev rfl
  -- the sub groups are moved
  rw [← hout] at hmoving
  obtain ⟨hs₁, hm₁, hc₁⟩ := moveSubGroups_shifts hmoving hc₀ h₁
  -- the winners of either side are offered to the other
  have hout₂ := outline_offerMembers h₂
  have hc₂ := offerMembers_crowned hm₁.sound hm₁.indexed hc₁ h₂
  -- the readers are redirected
  have hkeep := outline_group_of (liveGroup_eq_ok hgroup)
  rw [← hout₂] at hm₁
  have hred₂ := hm₁.redirecting hne hkeep group.parents.toList fun e he =>
    Std.TreeSet.mem_toList.2 he
  obtain ⟨hs₃, hm₃, hc₃⟩ := redirectReaders_shifts hred₂ hc₂ h₃
  rw [hout₂] at hs₃
  rw [hout] at hs₁
  refine ⟨.intro hm hne hk hgone (hs₁.trans hs₃) hm₃.tidy, ?_⟩
  exact hc₃.of_same (hm₃.tidy.sound.evolves_noteMerge keep absorbed) rfl

end Merging

end Memo

end PlanSearch
