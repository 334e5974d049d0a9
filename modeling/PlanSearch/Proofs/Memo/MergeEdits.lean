import PlanSearch.Proofs.Memo.Edits
import PlanSearch.Proofs.Memo.Piecewise
import PlanSearch.Proofs.Memo.Reached

/-!
# Merges as edits

On a sound work sheet no step of a merge can fail: every name that it looks up is live. So a merge of two
live groups is refused only if their row types differ, and a chain of merges that is refused in the end
leaves the merges before that done and the others pending.

    (m.workAt .rest [] ps).Sound → mergeAll m ps = .error f m' →
      ∃ ps', Edits P (m.workAt .rest [] ps) (m'.workAt .rest [] ps')                (Memo.mergeAll_edits)
-/

namespace PlanSearch

open Outline

namespace Memo

variable {Op Q : Type}

/-- A memo as a work sheet. -/
def workAt (m : Memo Op Q) (stage : Stage) (owed : List (SubGroupId × ExprId))
    (pending : List (GroupId × GroupId)) : Work Op Q :=
  ⟨m.registry, m.tieBreak, m.outline, m.standings, stage, owed, pending⟩

/-- A memo with nothing left to be done. -/
abbrev work (m : Memo Op Q) : Work Op Q := m.workAt .rest [] []

/-- What a memo was made with. -/
def settings (m : Memo Op Q) : Registry Op × TieBreak := (m.registry, m.tieBreak)

section Work

variable {m m' : Memo Op Q} {stage : Stage} {owed : List (SubGroupId × ExprId)}
  {ps : List (GroupId × GroupId)}

/-- A memo is known as a work sheet by its settings, its outline and its standings. -/
theorem workAt_eq {o : Outline Op} {st : Standings Q} (hs : m'.settings = m.settings)
    (ho : m'.outline = o) (hst : m'.standings = st) (stage : Stage)
    (owed : List (SubGroupId × ExprId)) (ps : List (GroupId × GroupId)) :
    m'.workAt stage owed ps = ⟨m.registry, m.tieBreak, o, st, stage, owed, ps⟩ := by
  obtain ⟨hr, ht⟩ := Prod.mk.inj hs
  unfold workAt
  rw [hr, ht, ho, hst]

theorem exists_liveSubGroup {s : SubGroupId} {r : SubGroupRef} (h : m.outline.sub s = some r) :
    ∃ sub, m.liveSubGroup s = .ok sub ∧ m.subGroups[s]? = some sub ∧ sub.ref = r := by
  obtain ⟨sub, hs, hr⟩ := Option.map_eq_some_iff.1 (m.outline_sub s ▸ h)
  exact ⟨sub, by unfold liveSubGroup; rw [hs], hs, hr⟩

theorem exists_liveGroup {g : GroupId} {c : Cell} (h : m.outline.group g = some c) :
    ∃ group, m.liveGroup g = .ok group ∧ m.groups[g]? = some group ∧ group.cell = c := by
  obtain ⟨group, hg, hc⟩ := Option.map_eq_some_iff.1 (m.outline_group g ▸ h)
  exact ⟨group, by unfold liveGroup; rw [hg], hg, hc⟩

theorem exists_entry {e : ExprId} {x : Expr Op} {g : GroupId} (h : m.outline.entry e = some (x, g)) :
    ∃ entry, m.exprs[e]? = some entry ∧ entry.expr = x ∧ entry.group = g := by
  obtain ⟨entry, he, hp⟩ := Option.map_eq_some_iff.1 (m.outline_entry e ▸ h)
  cases hp
  exact ⟨entry, he, rfl, rfl⟩

/-- A tidy memo is a sound work sheet. -/
theorem sound_of_tidy (h : m.outline.Tidy) (ps : List (GroupId × GroupId)) :
    (m.workAt .rest [] ps).Sound where
  stage := h
  wins s hs := by
    simp only [workAt, standings] at hs
    rw [show (m.workAt _ _ _).outline.sub s = _ from m.outline_sub s, Option.isSome_map]
    exact Option.isSome_of_isSome_bind hs
  price e he := by
    simp only [workAt, standings] at he
    rw [show (m.workAt _ _ _).outline.entry e = _ from m.outline_entry e, Option.isSome_map]
    exact Option.isSome_of_isSome_bind he
  owed p hp := by cases hp

end Work

/-! ## Marks -/

section Marks

variable {m m' : Memo Op Q}

theorem settings_markIf {require : Bool} {s : SubGroupId} (h : markIf require s m = .ok m') :
    m'.settings = m.settings := by
  obtain ⟨rfl, -⟩ | ⟨-, sub, -, -, rfl⟩ := markIf_eq_ok h <;> rfl

/-- No merge changes what a memo was made with. -/
theorem piecewise_settings : Piecewise fun m m' : Memo Op Q => m'.settings = m.settings where
  refl _ := rfl
  trans h₁ h₂ := h₂.trans h₁
  noted _ := rfl
  crowned _ := rfl
  priced _ := rfl
  folded _ hmark _ := (settings_markIf hmark :)
  handed _ := rfl
  rewritten _ := rfl
  struck _ _ _ _ _ := rfl

theorem markIf_total {require : Bool} {s : SubGroupId} {r : SubGroupRef}
    (hs : m.outline.sub s = some r) : ∃ m', markIf require s m = .ok m' := by
  obtain ⟨sub, hsub, -⟩ := exists_liveSubGroup hs
  simp only [markIf, markRequired, hsub]
  cases require with
  | false => exact ⟨m, rfl⟩
  | true =>
    cases hr : sub.required with
    | true => exact ⟨m, by simp [hr, bind, Except.bind, pure, Except.pure]⟩
    | false => exact ⟨_, by simp [hr, bind, Except.bind, pure, Except.pure]; rfl⟩

end Marks

variable [Quantity Q] {P : Terms Op Q}

/-! ## Offers -/

section Offers

variable {m m' : Memo Op Q} {stage : Stage} {owed : List (SubGroupId × ExprId)}
  {ps : List (GroupId × GroupId)}

theorem offer_total {s : SubGroupId} {r : SubGroupRef} (hs : m.outline.sub s = some r) (e : ExprId) :
    ∃ m', offer s e m = .ok m' := by
  obtain ⟨sub, -, hsub, -⟩ := exists_liveSubGroup hs
  unfold offer
  split
  · exact ⟨m, rfl⟩
  · split
    · exact ⟨m, rfl⟩
    · rw [hsub]
      dsimp only
      split
      · exact ⟨_, rfl⟩
      · exact ⟨_, rfl⟩

theorem offer_edits {s : SubGroupId} {e : ExprId} (hw : (m.workAt stage ((s, e) :: owed) ps).Sound) :
    ∃ m', offer s e m = .ok m' ∧
      Edit P (m.workAt stage ((s, e) :: owed) ps) (m'.workAt stage owed ps) := by
  obtain ⟨r, x, hs, -⟩ := hw.owed (s, e) List.mem_cons_self
  obtain ⟨m', hm'⟩ := offer_total hs e
  refine ⟨m', hm', ?_⟩
  rw [workAt_eq (piecewise_settings.offer hm') (outline_offer hm') (standings_offer hm')]
  exact .offer (w := m.workAt stage ((s, e) :: owed) ps) rfl

/-- Some expressions are offered to one sub group after the other, or one expression to some. -/
theorem offers_edits {ι : Type} (target : ι → SubGroupId × ExprId) (is : List ι)
    (hw : (m.workAt stage (is.map target ++ owed) ps).Sound) :
    ∃ m', is.foldlM (fun m i => offer (target i).1 (target i).2 m) m = .ok m' ∧
      Edits P (m.workAt stage (is.map target ++ owed) ps) (m'.workAt stage owed ps) := by
  refine foldlM_total (fun is' (m' : Memo Op Q) =>
    Edits P (m.workAt stage (is.map target ++ owed) ps)
      (m'.workAt stage (is'.map target ++ owed) ps)) ?_ is m .refl
  intro i is' m₁ hm₁
  obtain ⟨m₂, h₂, he₂⟩ := offer_edits (P := P) (Edits.sound hm₁ hw)
  exact ⟨m₂, h₂, hm₁.tail he₂⟩

theorem offerAll_edits {s : SubGroupId} {es : List ExprId}
    (hw : (m.workAt stage (es.map (fun e => (s, e)) ++ owed) ps).Sound) :
    ∃ m', offerAll s es m = .ok m' ∧
      Edits P (m.workAt stage (es.map (fun e => (s, e)) ++ owed) ps) (m'.workAt stage owed ps) :=
  offers_edits (fun e => (s, e)) es hw

theorem offerMembers_edits {g : GroupId} {group : Group} (hg : m.groups[g]? = some group)
    (hw : (m.workAt stage (Work.convened group.cell) ps).Sound) :
    ∃ m', offerMembers g m = .ok m' ∧
      Edits P (m.workAt stage (Work.convened group.cell) ps) (m'.workAt stage [] ps) := by
  simp only [offerMembers, liveGroup, hg]
  refine foldlM_total (fun ss (m' : Memo Op Q) =>
    Edits P (m.workAt stage (Work.convened group.cell) ps)
      (m'.workAt stage (ss.flatMap fun s => group.members.map fun e => (s, e)) ps)) ?_
    (group.subGroups.map Prod.snd) m .refl
  intro s ss m₁ hm₁
  rw [List.flatMap_cons] at hm₁
  obtain ⟨m₂, h₂, he₂⟩ := offerAll_edits (P := P) (Edits.sound hm₁ hw)
  exact ⟨m₂, h₂, hm₁.trans he₂⟩

end Offers

/-! ## Moving sub groups -/

section Moving

variable {m m' : Memo Op Q} {keep absorbed : GroupId} {s : SubGroupId} {strays : List SubGroupId}
  {hadReaders : Bool} {ps : List (GroupId × GroupId)}

theorem foldInto_total {kept s : SubGroupId} {r : SubGroupRef} (hne : kept ≠ s)
    (hk : m.outline.sub kept = some r) (sub : SubGroup Q) :
    ∃ m', foldInto kept s sub hadReaders m = .ok m' := by
  have hk₀ : (m.retire kept s).outline.sub kept = some r := by
    rw [outline_sub, retire, Tables.getElem?_erase_eq, if_neg hne, ← outline_sub, hk]
  obtain ⟨m₁, h₁⟩ : ∃ m₁, markIf sub.required kept _ = .ok m₁ := markIf_total hk₀
  have hk₁ : m₁.outline.sub kept = some r := by rw [outline_markIf h₁, hk₀]
  obtain ⟨keptSub, h₂, -⟩ := exists_liveSubGroup hk₁
  rw [retire] at h₁
  simp only [foldInto, h₁, h₂, bind, Except.bind, pure, Except.pure]
  split
  · exact ⟨_, rfl⟩
  · exact ⟨_, rfl⟩

theorem moveSubGroup_edits
    (hw : (m.workAt (.moving keep absorbed hadReaders (s :: strays)) [] ps).Sound) :
    ∃ m', moveSubGroup keep hadReaders s m = .ok m' ∧
      Edit P (m.workAt (.moving keep absorbed hadReaders (s :: strays)) [] ps)
        (m'.workAt (.moving keep absorbed hadReaders strays) [] ps) := by
  have hgat : m.outline.Gathering keep absorbed hadReaders (s :: strays) := hw.gathering rfl
  obtain ⟨t, ht⟩ := hgat.moving.strays s List.mem_cons_self
  obtain ⟨c, hc⟩ := Option.isSome_iff_exists.1 hgat.moving.live
  obtain ⟨sub, hsub, hs, hr⟩ := exists_liveSubGroup ht
  obtain ⟨group, hgroup, -, hcell⟩ := exists_liveGroup hc
  have htr : sub.traits = t := congrArg SubGroupRef.traits hr
  have hlive : (m.outline.sub s).isSome := by rw [ht]; rfl
  simp only [moveSubGroup, hsub, hgroup, bind, Except.bind]
  cases hk : group.sub? sub.traits with
  | some kept =>
    obtain ⟨q, hq, hsame, rfl⟩ := Group.sub?_eq_some hk
    rw [hcell] at hq
    rw [htr] at hsame
    obtain ⟨hne, hkept⟩ := hgat.listed hc hq
    obtain ⟨m', hm'⟩ : ∃ m', foldInto q.2 s sub hadReaders m = .ok m' := foldInto_total hne hkept sub
    have hnames := hgat.moving.sound.names
    refine ⟨m', hm', ?_⟩
    rw [workAt_eq (piecewise_settings.foldInto hs hm')
      (outline_foldInto (hnames.subRep_of_live (by rw [hkept]; rfl)) (hnames.subRep_of_live hlive) hm')
      (standings_foldInto hne hs hm')]
    exact .fold (w := m.workAt (.moving keep absorbed hadReaders (s :: strays)) [] ps) rfl rfl ht hc hq
      hsame
  | none =>
    have hno := Group.sub?_eq_none hk
    rw [hcell, htr] at hno
    refine ⟨m.handOver keep s sub, rfl, ?_⟩
    rw [workAt_eq rfl (outline_handOver m keep s sub) (standings_handOver hs), htr]
    exact .hand (w := m.workAt (.moving keep absorbed hadReaders (s :: strays)) [] ps) rfl rfl ht hc hno

theorem moveSubGroups_edits {strays : List SubGroupId}
    (hw : (m.workAt (.moving keep absorbed hadReaders strays) [] ps).Sound) :
    ∃ m', strays.foldlM (fun m s => moveSubGroup keep hadReaders s m) m = .ok m' ∧
      Edits P (m.workAt (.moving keep absorbed hadReaders strays) [] ps)
        (m'.workAt (.moving keep absorbed hadReaders []) [] ps) := by
  refine foldlM_total (fun strays' (m' : Memo Op Q) =>
    Edits P (m.workAt (.moving keep absorbed hadReaders strays) [] ps)
      (m'.workAt (.moving keep absorbed hadReaders strays') [] ps)) ?_ strays m .refl
  intro s strays' m₁ hm₁
  obtain ⟨m₂, h₂, he₂⟩ := moveSubGroup_edits (P := P) (Edits.sound hm₁ hw)
  exact ⟨m₂, h₂, hm₁.tail he₂⟩

end Moving

/-! ## Redirecting readers -/

section Redirecting

variable {m m' : Memo Op Q} {keep absorbed : GroupId} {e twin : ExprId} {todo : List ExprId}
  {ps more : List (GroupId × GroupId)}

omit [Quantity Q] in
/-- Winners are renamed in live sub groups. -/
theorem renameWinners_total {ss : List SubGroupId} (hss : ∀ s ∈ ss, (m.outline.sub s).isSome) :
    ∃ m', ss.foldlM (renameWinner e twin) m = .ok m' := by
  have step : ∀ s ss (m : Memo Op Q), (∀ t ∈ s :: ss, (m.outline.sub t).isSome) →
      ∃ m', renameWinner e twin m s = .ok m' ∧ ∀ t ∈ ss, (m'.outline.sub t).isSome := by
    intro s ss m₁ h₁
    obtain ⟨r, hr⟩ := Option.isSome_iff_exists.1 (h₁ s List.mem_cons_self)
    obtain ⟨sub, hsub, -⟩ := exists_liveSubGroup hr
    have hm₂ : renameWinner e twin m₁ s = .ok (m₁.setSubGroup s { sub with
        winner := sub.winner.map fun w => if w.expr = e then { w with expr := twin } else w }) := by
      unfold renameWinner
      rw [hsub]
      rfl
    refine ⟨_, hm₂, fun t ht => ?_⟩
    rw [outline_renameWinner hm₂]
    exact h₁ t (List.mem_cons_of_mem _ ht)
  obtain ⟨m', h, -⟩ := foldlM_total
    (fun ss (m : Memo Op Q) => ∀ s ∈ ss, (m.outline.sub s).isSome) step ss m hss
  exact ⟨m', h⟩

omit [Quantity Q] in
/-- The sub groups of the group of a dropped expression are those that it had before. -/
theorem subGroupsOf_strike {entry : Entry Op Q} {x : Expr Op} {c : Cell} (hs : m.outline.Sound)
    (he : (m.outline.entry e).isSome) (ht : (m.outline.entry twin).isSome)
    (hg : m.outline.group entry.group = some c) :
    (m.strike e twin entry x).subGroupsOf entry.group = c.subs.map Prod.snd := by
  have hout : (m.strike e twin entry x).outline
      = { m.outline.drop e twin x entry.group with news := m.outline.news } :=
    outline_strike (hs.names.exprRep_of_live he) (hs.names.exprRep_of_live ht)
  have hred : (m.strike e twin entry x).reduceGroup entry.group = entry.group :=
    hs.names.reduce_of_live (by rw [hg]; rfl)
  obtain ⟨c', hc'⟩ := Option.isSome_iff_exists.1
    (show ((m.outline.drop e twin x entry.group).group entry.group).isSome by
      rw [isSome_group_drop, hg]; rfl)
  obtain ⟨c₀, hc₀, hsubs, -⟩ := group_drop hc'
  rw [hg] at hc₀
  cases hc₀
  have hc'' : (m.strike e twin entry x).outline.group entry.group = some c' := by rw [hout]; exact hc'
  obtain ⟨group, -, hgroup, hcell⟩ := exists_liveGroup hc''
  simp only [subGroupsOf, group?, hred, hgroup, Option.map_some, Option.getD_some]
  rw [← hsubs, ← hcell]
  rfl

theorem dropTwin_edits {entry other : Entry Op Q}
    (hw : (m.workAt (.redirecting keep absorbed (e :: todo)) [] ps).Sound)
    (hentry : m.exprs[e]? = some entry) (hother : m.exprs[twin]? = some other) (hne : twin ≠ e)
    (hcong : other.expr.Congruent (entry.expr.redirect absorbed keep)) :
    ∃ m', dropTwin e twin entry (entry.expr.redirect absorbed keep) m = .ok m' ∧
      Edit P (m.workAt (.redirecting keep absorbed (e :: todo)) [] ps)
        (m'.workAt (.redirecting keep absorbed todo) []
          (if other.group = entry.group then ps else ps ++ [(other.group, entry.group)])) := by
  have hred : m.outline.Redirecting keep absorbed (e :: todo) := hw.redirecting rfl
  have he := outline_entry_of hentry
  have ht := outline_entry_of hother
  have helive : (m.outline.entry e).isSome := by rw [he]; rfl
  have htlive : (m.outline.entry twin).isSome := by rw [ht]; rfl
  obtain ⟨c, hc⟩ := Option.isSome_iff_exists.1 (hred.sound.places.home e _ _ he)
  have hsubs : (m.strike e twin entry (entry.expr.redirect absorbed keep)).subGroupsOf entry.group
      = c.subs.map Prod.snd := subGroupsOf_strike hred.sound helive htlive hc
  have hrepe := hred.sound.names.exprRep_of_live helive
  have hrept := hred.sound.names.exprRep_of_live htlive
  have hlive : ∀ s ∈ c.subs.map Prod.snd,
      ((m.strike e twin entry (entry.expr.redirect absorbed keep)).outline.sub s).isSome := by
    intro s hs
    obtain ⟨q, hq, rfl⟩ := List.mem_map.1 hs
    rw [outline_strike hrepe hrept]
    show (m.outline.sub q.2).isSome
    rw [hred.indexed.listed _ c hc q hq]
    rfl
  obtain ⟨m₁, h₁⟩ : ∃ m', (c.subs.map Prod.snd).foldlM (renameWinner e twin)
      (m.strike e twin entry (entry.expr.redirect absorbed keep)) = .ok m' := renameWinners_total hlive
  have hdrop : dropTwin e twin entry (entry.expr.redirect absorbed keep) m
      = .ok { m₁ with changes := { m₁.changes with
          newExprs := m₁.changes.newExprs.filter (· ≠ e) } } := by
    rw [← hsubs] at h₁
    unfold dropTwin
    exact congrArg (fun r => r >>= fun m₁ => .ok { m₁ with changes := { m₁.changes with
      newExprs := m₁.changes.newExprs.filter (· ≠ e) } }) h₁
  refine ⟨_, hdrop, ?_⟩
  rw [workAt_eq (piecewise_settings.dropTwin hdrop) (outline_dropTwin hrepe hrept hdrop)
    (standings_dropTwin hne hentry htlive hdrop), hsubs]
  exact .drop (w := m.workAt (.redirecting keep absorbed (e :: todo)) [] ps) rfl rfl he hne ht hcong hc

theorem redirectReader_edits [DecidableEq Op] {rest : List (GroupId × GroupId)}
    (hw : (m.workAt (.redirecting keep absorbed (e :: todo)) [] (rest ++ more)).Sound) :
    ∃ m' more', redirectReader keep absorbed (m, more) e = .ok (m', more') ∧
      Edit P (m.workAt (.redirecting keep absorbed (e :: todo)) [] (rest ++ more))
        (m'.workAt (.redirecting keep absorbed todo) [] (rest ++ more')) := by
  have hred : m.outline.Redirecting keep absorbed (e :: todo) := hw.redirecting rfl
  unfold redirectReader
  dsimp only
  cases hentry : m.exprs[e]? with
  | none =>
    refine ⟨m, more, rfl, .pass rfl rfl fun x g hx => ?_⟩
    rw [show (m.workAt _ _ _).outline.entry e = _ from m.outline_entry e, hentry] at hx
    cases hx
  | some entry =>
    have he := outline_entry_of hentry
    dsimp only
    by_cases hreads : entry.expr.reads absorbed = true
    · rw [if_neg (by simp [hreads])]
      cases hfind : m.findExpr? (entry.expr.redirect absorbed keep) with
      | none =>
        refine ⟨_, more, rfl, ?_⟩
        rw [workAt_eq rfl (outline_rewrite m e entry _) (standings_rewrite hentry)]
        exact .rewrite (w := m.workAt (.redirecting keep absorbed (e :: todo)) [] (rest ++ more)) rfl rfl
          he (findExpr?_eq_none hfind)
      | some found =>
        obtain ⟨twin, other⟩ := found
        obtain ⟨hother, hcong⟩ := findExpr?_eq_some hfind
        have hne : twin ≠ e := by
          rintro rfl
          rw [hentry] at hother
          cases hother
          have hr := hcong.reads absorbed
          rw [Expr.reads_redirect hred.ne, hreads] at hr
          cases hr
        obtain ⟨m', hm', hedit⟩ := dropTwin_edits (P := P) hw hentry hother hne hcong
        refine ⟨m', _, by simp only [hm', bind, Except.bind]; rfl, ?_⟩
        split
        · next hg => rwa [if_pos hg] at hedit
        · next hg => rwa [if_neg hg, List.append_assoc] at hedit
    · refine ⟨m, more, by rw [if_pos (by simpa using hreads)], .pass rfl rfl fun x g hx => ?_⟩
      rw [show (m.workAt _ _ _).outline.entry e = _ from he] at hx
      cases hx
      simpa using hreads

theorem redirectReaders_edits [DecidableEq Op] {rest : List (GroupId × GroupId)}
    (hw : (m.workAt (.redirecting keep absorbed todo) [] rest).Sound) :
    ∃ m' more, todo.foldlM (redirectReader keep absorbed) (m, []) = .ok (m', more) ∧
      Edits P (m.workAt (.redirecting keep absorbed todo) [] rest)
        (m'.workAt (.redirecting keep absorbed []) [] (rest ++ more)) := by
  have step : ∀ e todo' (st : Memo Op Q × List (GroupId × GroupId)),
      Edits P (m.workAt (.redirecting keep absorbed todo) [] rest)
        (st.1.workAt (.redirecting keep absorbed (e :: todo')) [] (rest ++ st.2)) →
      ∃ st', redirectReader keep absorbed st e = .ok st' ∧
        Edits P (m.workAt (.redirecting keep absorbed todo) [] rest)
          (st'.1.workAt (.redirecting keep absorbed todo') [] (rest ++ st'.2)) := by
    intro e todo' st hst
    obtain ⟨m₂, more₂, h₂, he₂⟩ := redirectReader_edits (P := P) (Edits.sound hst hw)
    exact ⟨(m₂, more₂), h₂, hst.tail he₂⟩
  obtain ⟨st', h, hes⟩ := foldlM_total (fun todo' (st : Memo Op Q × List (GroupId × GroupId)) =>
    Edits P (m.workAt (.redirecting keep absorbed todo) [] rest)
      (st.1.workAt (.redirecting keep absorbed todo') [] (rest ++ st.2))) step todo (m, [])
    (by rw [List.append_nil])
  exact ⟨st'.1, st'.2, h, hes⟩

end Redirecting

/-! ## Merging -/

section Merging

variable [DecidableEq Op] {m m' : Memo Op Q} {rest : List (GroupId × GroupId)}

/-- A live group takes in another of its row type, and that does not fail. -/
theorem absorb_edits {keep absorbed : GroupId} {kept gone : Group} {p : GroupId × GroupId}
    (hw : (m.workAt .rest [] (p :: rest)).Sound) (hne : keep ≠ absorbed)
    (hk : m.groups[keep]? = some kept) (ha : m.groups[absorbed]? = some gone)
    (hrow : kept.rowType = gone.rowType)
    (hp : (keep, absorbed) = (m.outline.reduce p.1, m.outline.reduce p.2) ∨
      (absorbed, keep) = (m.outline.reduce p.1, m.outline.reduce p.2)) :
    ∃ m' more, absorb keep absorbed gone m = .ok (m', more) ∧
      Edits P (m.workAt .rest [] (p :: rest)) (m'.workAt .rest [] (rest ++ more)) := by
  have htidy : m.outline.Tidy := hw.tidy rfl
  have hkeep := outline_group_of hk
  have hgone := outline_group_of ha
  have hlive : (m.outline.group absorbed).isSome := by rw [hgone]; rfl
  have hmem : ∀ e x, m.exprs[e]? = some x → (e ∈ gone.members ↔ x.group = absorbed) := by
    intro e x hx
    rw [show e ∈ gone.members ↔ _ from htidy.sound.places.members absorbed _ hgone e,
      outline_entry_of hx]
    simp
  have hout := outline_takeIn (htidy.sound.names.groupRep_of_live (by rw [hkeep]; rfl))
    (htidy.sound.names.groupRep_of_live hlive) hmem
  -- the members and readers are taken in
  have h₀ : Edit P (m.workAt .rest [] (p :: rest)) ((takeIn keep absorbed gone m).workAt
      (.moving keep absorbed (!gone.parents.isEmpty) (gone.subGroups.map Prod.snd)) [] rest) := by
    rw [workAt_eq rfl hout (standings_takeIn keep absorbed gone m)]
    refine .takeIn (w := m.workAt .rest [] (p :: rest)) ⟨rfl, rfl⟩ rfl hp hne hkeep hgone hrow
      fun e he => ?_
    have hc : gone.parents.contains e = true := Std.TreeSet.contains_iff_mem.2 he
    rw [Std.TreeSet.isEmpty_eq_false_of_contains hc]
    rfl
  have hw₀ := h₀.sound hw
  -- the sub groups are moved
  obtain ⟨m₁, h₁, he₁⟩ := moveSubGroups_edits (P := P) hw₀
  have hw₁ := Edits.sound he₁ hw₀
  have hgat : m₁.outline.Gathering keep absorbed (!gone.parents.isEmpty) [] := hw₁.gathering rfl
  obtain ⟨c, hc⟩ := Option.isSome_iff_exists.1 hgat.moving.live
  obtain ⟨group, -, hgroup, hcell⟩ := exists_liveGroup hc
  -- the winners of either side are offered to the other
  have h₂ : Edit P
      (m₁.workAt (.moving keep absorbed (!gone.parents.isEmpty) []) [] rest)
      (m₁.workAt (.redirecting keep absorbed group.parents.toList) (Work.convened group.cell) rest) := by
    rw [hcell]
    exact .convene (w := m₁.workAt (.moving keep absorbed (!gone.parents.isEmpty) []) [] rest) rfl rfl hc
      fun e he => Std.TreeSet.mem_toList.2 (by rw [← hcell] at he; exact he)
  have hw₂ := h₂.sound hw₁
  obtain ⟨m₃, h₃, he₃⟩ := offerMembers_edits (P := P) hgroup hw₂
  have hw₃ := Edits.sound he₃ hw₂
  -- the readers are redirected
  obtain ⟨m₄, more, h₄, he₄⟩ := redirectReaders_edits (P := P) hw₃
  refine ⟨{ m₄ with changes := { m₄.changes with merged := m₄.changes.merged ++ [(keep, absorbed)] } },
    more, ?_, ?_⟩
  · have hgroup₃ : m₃.groups = m₁.groups := by
      simp only [offerMembers, liveGroup, hgroup] at h₃
      exact foldlM_keeps Memo.groups (fun _ _ _ hs => groups_of_offerAll hs) _ _ _ h₃
    simp only [absorb, h₁, h₃, bind, Except.bind, liveGroup, hgroup₃, hgroup, h₄]
    rfl
  · refine (((Relation.ReflTransGen.single h₀).trans he₁).tail h₂).trans (he₃.trans (he₄.tail ?_))
    exact .finish (w := m₄.workAt (.redirecting keep absorbed []) [] (rest ++ more)) rfl rfl

/-- Two different live groups are merged, unless their row types differ. -/
theorem mergePair_edits {p : GroupId × GroupId} {ga gb : Group}
    (hw : (m.workAt .rest [] (p :: rest)).Sound)
    (ha : m.groups[m.outline.reduce p.1]? = some ga) (hb : m.groups[m.outline.reduce p.2]? = some gb)
    (hne : m.outline.reduce p.1 ≠ m.outline.reduce p.2) (hrow : ga.rowType = gb.rowType) :
    ∃ m' more, mergePair (m.outline.reduce p.1) (m.outline.reduce p.2) m = .ok (m', more) ∧
      Edits P (m.workAt .rest [] (p :: rest)) (m'.workAt .rest [] (rest ++ more)) := by
  unfold mergePair
  simp only [ha, hb]
  cases staysFirst (m.outline.reduce p.1) (m.outline.reduce p.2) ga gb with
  | true =>
    simp only [if_true, hrow, ne_eq, not_true_eq_false, if_false]
    exact absorb_edits hw hne ha hb hrow (.inl rfl)
  | false =>
    simp only [Bool.false_eq_true, if_false, hrow, ne_eq, not_true_eq_false]
    exact absorb_edits hw hne.symm hb ha hrow.symm (.inr rfl)

/-- What is merged is merged by edits. -/
theorem edits_of_mergePair {p : GroupId × GroupId} {more : List (GroupId × GroupId)}
    (hw : (m.workAt .rest [] (p :: rest)).Sound) (hne : m.outline.reduce p.1 ≠ m.outline.reduce p.2)
    (h : mergePair (m.outline.reduce p.1) (m.outline.reduce p.2) m = .ok (m', more)) :
    Edits P (m.workAt .rest [] (p :: rest)) (m'.workAt .rest [] (rest ++ more)) := by
  obtain ⟨keep, absorbed, kept, gone, hp, hdiffer, hk, ha, hrow, h⟩ := mergePair_eq_ok h
  obtain ⟨m₁, more₁, h₁, he⟩ := absorb_edits (P := P) hw (hdiffer hne) hk ha hrow hp
  rw [h] at h₁
  cases h₁
  exact he

/-- Merges are edits as far as they go, and where all go through, nothing is left pending. -/
theorem mergeAll_edits {ps : List (GroupId × GroupId)} (hw : (m.workAt .rest [] ps).Sound) :
    match mergeAll m ps with
    | .ok _ m' => Edits P (m.workAt .rest [] ps) m'.work
    | .error _ m' => ∃ ps', Edits P (m.workAt .rest [] ps) (m'.workAt .rest [] ps') := by
  have hrun := mergeAll_run m ps
  generalize mergeAll m ps = r at hrun
  induction hrun with
  | done m => exact .refl
  | @skip m p ps _ same _ ih =>
    have hedit : Edit P (m.workAt .rest [] (p :: ps)) (m.workAt .rest [] ps) :=
      .same (w := m.workAt .rest [] (p :: ps)) ⟨rfl, rfl⟩ rfl same
    have hrest := ih (hedit.sound hw)
    split
    · next => exact .head hedit hrest
    · next => exact hrest.imp fun ps' hedits => .head hedit hedits
  | refuse ps _ _ => exact ⟨_, .refl⟩
  | merge ne ok _ ih =>
    have hfirst := edits_of_mergePair (P := P) hw ne ok
    have hrest := ih (Edits.sound hfirst hw)
    split
    · next => exact hfirst.trans hrest
    · next => exact hrest.imp fun ps' hedits => hfirst.trans hedits

end Merging

end Memo

end PlanSearch
