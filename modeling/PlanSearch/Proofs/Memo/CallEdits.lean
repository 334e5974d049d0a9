import PlanSearch.Proofs.Memo.MergeEdits

/-!
# Calls as edits

Every call on a memo is a series of edits, also where it fails half-way: what was done until then stays,
and a chain of merges that was cut short leaves the rest of it pending. All that is asked of the memo
before the call is that it is tidy, and it is tidy again afterwards. So a memo may be used after failures.

    m.Attempt m' → m.outline.Tidy → ∃ ps, Edits P m.work (m'.workAt .rest [] ps)        (Attempt.edits)
-/

namespace PlanSearch

open Outline

/-- Where a step of a memo ends, whether it succeeds or fails. -/
def Update.leave {Op Q α : Type} (u : Update Op Q α) (m : Memo Op Q) : Memo Op Q :=
  match u m with
  | .ok _ m' => m'
  | .error _ m' => m'

namespace Memo

variable {Op Q : Type} [Quantity Q] {P : Terms Op Q} {m m' : Memo Op Q}

theorem tidy_of_edits {ps : List (GroupId × GroupId)} (ht : m.outline.Tidy)
    (h : Edits P m.work (m'.workAt .rest [] ps)) : m'.outline.Tidy :=
  (Edits.sound h (sound_of_tidy ht [])).tidy rfl

/-! ## Steps that are edits -/

section Edited

variable {α β : Type} {post : α → Memo Op Q → Prop} {post' : β → Memo Op Q → Prop} {w : Work Op Q}

/-- Edits lead from the work sheet `w` to where a step ends that starts from the memo `m`, whether it
succeeds or fails. Where it succeeds, no merge is left pending, and `post` holds of the answer. -/
def Edited (P : Terms Op Q) (w : Work Op Q) (m : Memo Op Q) (post : α → Memo Op Q → Prop)
    (u : Update Op Q α) : Prop :=
  match u m with
  | .ok a m' => Edits P w m'.work ∧ post a m'
  | .error _ m' => ∃ ps, Edits P w (m'.workAt .rest [] ps)

theorem Edited.leave {u : Update Op Q α} (h : Edited P w m post u) :
    ∃ ps, Edits P w ((u.leave m).workAt .rest [] ps) := by
  unfold Edited at h
  unfold Update.leave
  cases hu : u m with
  | ok a m' =>
    rw [hu] at h
    exact ⟨[], h.1⟩
  | error f m' =>
    rw [hu] at h
    exact h

theorem Edited.of_ok {u : Update Op Q α} {a : α} (h : Edited P w m post u) (ok : u m = .ok a m') :
    Edits P w m'.work ∧ post a m' := by
  unfold Edited at h
  rw [ok] at h
  exact h

theorem edited_of_ok {u : Update Op Q α} {a : α} (ok : u m = .ok a m') (h : Edits P w m'.work)
    (hp : post a m') : Edited P w m post u := by
  unfold Edited
  rw [ok]
  exact ⟨h, hp⟩

/-- The edits of a step come after those before it. -/
theorem Edited.after {u : Update Op Q α} (h : Edited P m.work m post u) (hw : Edits P w m.work) :
    Edited P w m post u := by
  unfold Edited at h ⊢
  cases hu : u m with
  | ok a m' =>
    rw [hu] at h
    exact ⟨hw.trans h.1, h.2⟩
  | error f m' =>
    rw [hu] at h
    obtain ⟨ps, h⟩ := h
    exact ⟨ps, hw.trans h⟩

theorem Edited.imp {post₁ : α → Memo Op Q → Prop} {u : Update Op Q α} (h : Edited P w m post u)
    (hp : ∀ a m', post a m' → post₁ a m') : Edited P w m post₁ u := by
  unfold Edited at h ⊢
  cases hu : u m with
  | ok a m' =>
    rw [hu] at h
    exact ⟨h.1, hp a m' h.2⟩
  | error f m' =>
    rw [hu] at h
    exact h

theorem Edited.bind {u : Update Op Q α} {k : α → Update Op Q β} (hu : Edited P w m post u)
    (hk : ∀ a m₁, Edits P w m₁.work → post a m₁ → Edited P w m₁ post' (k a)) :
    Edited P w m post' (u >>= k) := by
  unfold Edited at hu
  have hrun : (u >>= k) m = EStateM.bind u k m := rfl
  unfold Edited
  rw [hrun]
  unfold EStateM.bind
  cases h₁ : u m with
  | error f m₁ =>
    rw [h₁] at hu
    exact hu
  | ok a m₁ =>
    rw [h₁] at hu
    exact hk a m₁ hu.1 hu.2

theorem edited_pure {a : α} (h : Edits P w m.work) (hp : post a m) : Edited P w m post (pure a) :=
  ⟨h, hp⟩

theorem Edited.read_bind {f : Memo Op Q → Except Failure α} {k : α → Update Op Q β}
    (h : Edits P w m.work) (hk : ∀ a, f m = .ok a → Edited P w m post' (k a)) :
    Edited P w m post' (Update.read f >>= k) := by
  have hrun : (Update.read f >>= k) m = EStateM.bind (Update.read f) k m := rfl
  unfold Edited
  rw [hrun]
  unfold EStateM.bind Update.read
  cases hf : f m with
  | error e => exact ⟨[], h⟩
  | ok a => exact hk a hf

theorem Edited.get_bind {k : Memo Op Q → Update Op Q β} (hk : Edited P w m post' (k m)) :
    Edited P w m post' (get >>= k) := hk

theorem Edited.modify_bind {f : Memo Op Q → Memo Op Q} {k : PUnit → Update Op Q β}
    (hk : Edited P w (f m) post' (k ⟨⟩)) : Edited P w m post' (modify f >>= k) := hk

theorem Edited.fresh_bind {n : Named} {k : Ident n → Update Op Q β}
    (hk : Edited P w m.skip post' (k ⟨m.next⟩)) : Edited P w m post' (fresh >>= k) := hk

theorem Edited.step_bind {f : Memo Op Q → Except Failure (Memo Op Q)} {k : Unit → Update Op Q β}
    (h : Edits P w m.work) (hk : ∀ m₁, f m = .ok m₁ → Edited P w m₁ post' (k ())) :
    Edited P w m post' (Update.step f >>= k) := by
  have hrun : (Update.step f >>= k) m = EStateM.bind (Update.step f) k m := rfl
  unfold Edited
  rw [hrun]
  unfold EStateM.bind Update.step
  cases hf : f m with
  | error e => exact ⟨[], h⟩
  | ok m₁ => exact hk m₁ hf

end Edited

/-! ## Sub groups -/

section SubGroups

omit [Quantity Q] in
theorem workAt_markIf {require : Bool} {s : SubGroupId} (h : markIf require s m = .ok m')
    (stage : Stage) (owed : List (SubGroupId × ExprId)) (ps : List (GroupId × GroupId)) :
    m'.workAt stage owed ps = m.workAt stage owed ps :=
  workAt_eq (settings_markIf h) (outline_markIf h) (standings_markIf h) stage owed ps

/-- A sub group that is asked for is there afterwards. -/
theorem ensureSubGroup_edited (ht : m.outline.Tidy) (r : SubGroupRef) (require : Bool) :
    Edited P m.work m
      (fun _ m' => m.outline.Keeps m'.outline ∧ m'.outline.Served (m.outline.reduceRef r))
      (ensureSubGroup r require) := by
  unfold ensureSubGroup
  refine .read_bind .refl fun _ _ => .read_bind .refl fun group hgroup => ?_
  have hg := outline_group_of (getGroup_eq_ok hgroup)
  cases hs : group.sub? r.traits with
  | some s =>
    obtain ⟨p, hp, hsame, rfl⟩ := Group.sub?_eq_some hs
    refine .step_bind .refl fun m₁ hmark => edited_pure ?_ ?_
    · rw [work, work, workAt_markIf hmark]
    · rw [outline_markIf hmark]
      exact ⟨.refl _, _, hg, p, hp, hsame⟩
  | none =>
    have hno := Group.sub?_eq_none hs
    have hfresh := ht.sound.names.fresh_sub (s := ⟨m.next⟩) (Nat.le_refl _)
    have hout : (m.openSubGroup (m.reduceGroup r.group) r.traits).1.outline
        = m.outline.openSub (m.reduceGroup r.group) r.traits :=
      outline_openSubGroup (ht.sound.names.subs.rep_eq_none (Nat.le_refl m.next))
    have hedit : Edit P m.work ((m.openSubGroup (m.reduceGroup r.group) r.traits).1.workAt .rest
        (group.members.map (fun e => (⟨m.next⟩, e)) ++ []) []) := by
      rw [workAt_eq rfl hout (standings_openSubGroup hfresh), List.append_nil]
      exact .openSub (w := m.work) ⟨rfl, rfl⟩ hg hno
    have hnew : (m.openSubGroup (m.reduceGroup r.group) r.traits).1.outline.sub ⟨m.next⟩
        = some ⟨m.reduceGroup r.group, r.traits⟩ := by
      rw [hout]
      exact if_pos rfl
    -- The new sub group is marked and offered all members, and neither can fail.
    obtain ⟨m₂, hmark⟩ : ∃ m₂, markIf require ⟨m.next⟩
        (m.openSubGroup (m.reduceGroup r.group) r.traits).1 = .ok m₂ := markIf_total hnew
    have hsound := hedit.sound (sound_of_tidy ht [])
    rw [← workAt_markIf hmark] at hedit hsound
    obtain ⟨m₃, hoffer, hoffers⟩ := offerAll_edits (P := P) hsound
    refine edited_of_ok (a := ⟨m.next⟩) ?_ (.head hedit hoffers) ?_
    · show EStateM.bind (Update.step (markIf require ⟨m.next⟩)) _
        (m.openSubGroup (m.reduceGroup r.group) r.traits).1 = _
      unfold EStateM.bind Update.step
      rw [hmark]
      show EStateM.bind (Update.step (offerAll ⟨m.next⟩ group.members)) _ m₂ = _
      unfold EStateM.bind Update.step
      rw [hoffer]
      rfl
    · rw [outline_offerAll hoffer, outline_markIf hmark, hout]
      obtain ⟨c', hc', hsubs⟩ := subs_openSub (m.reduceGroup r.group) r.traits hg
      rw [if_pos rfl] at hsubs
      refine ⟨keeps_openSub _ _ _, c', hc', (r.traits, ⟨m.outline.next⟩), ?_, TraitSet.same_refl _⟩
      rw [hsubs]
      simp

end SubGroups

/-! ## New expressions -/

section Expressions

variable {x : Expr Op} {g : GroupId}

/-- A number that is given out. -/
theorem skip_edits (m : Memo Op Q) : Edits P m.work m.skip.work :=
  .single (.skip (w := m.work) ⟨rfl, rfl⟩)

variable [Operator Op]

/-- A new expression in a group of its own. Numbers are given out even if it comes to nothing. -/
theorem create_edited (ht : m.outline.Tidy) (hx : m.outline.Ready x) (ha : m.outline.Apart x)
    (rowType : RowType) :
    Edited P m.work m (fun _ m' => m.outline.Keeps m'.outline) (create x rowType) := by
  have hskip : Edits P m.work m.skip.skip.work := (skip_edits m).trans (skip_edits m.skip)
  have hn := ht.sound.names
  refine .fresh_bind (.fresh_bind (.read_bind hskip fun facts _ => .read_bind hskip fun _ _ =>
    .modify_bind (edited_pure ?_ ?_)))
  all_goals
    have hout : ((m.skip.skip.enterExpr ⟨m.next⟩ x ⟨m.next + 1⟩).openGroup ⟨m.next⟩ ⟨m.next + 1⟩ rowType
        facts).outline = m.outline.found x rowType facts :=
      outline_founded (hn.exprs.rep_eq_none (Nat.le_refl m.next))
        (hn.groups.rep_eq_none (Nat.le_succ m.next))
  · have hst : ((m.skip.skip.enterExpr ⟨m.next⟩ x ⟨m.next + 1⟩).openGroup ⟨m.next⟩ ⟨m.next + 1⟩ rowType
        facts).standings = m.standings :=
      standings_enterExpr (m := m.skip.skip) (hn.fresh_entry (Nat.le_refl m.next))
    show Edits P m.work ((m.skip.skip.enterExpr ⟨m.next⟩ x ⟨m.next + 1⟩).openGroup ⟨m.next⟩
      ⟨m.next + 1⟩ rowType facts).work
    rw [work, work, workAt_eq rfl hout hst]
    exact .single (.found (w := m.work) ⟨rfl, rfl⟩ hx ha)
  · show m.outline.Keeps ((m.skip.skip.enterExpr ⟨m.next⟩ x ⟨m.next + 1⟩).openGroup ⟨m.next⟩
      ⟨m.next + 1⟩ rowType facts).outline
    rw [hout]
    exact hn.keeps_found x rowType facts

/-- A new member of a live group. -/
theorem extend_edited (ht : m.outline.Tidy) (hx : m.outline.Ready x) (ha : m.outline.Apart x)
    (hg : m.outline.reduce g = g) (rowType : RowType) :
    Edited P m.work m (fun _ _ => True) (extend x rowType g) := by
  have hn := ht.sound.names
  refine .fresh_bind (.read_bind (skip_edits m) fun _ hrow => .read_bind (skip_edits m) fun _ _ =>
    .modify_bind (edited_pure ?_ trivial))
  have hlive : (m.outline.group g).isSome := by
    obtain ⟨group, hk, -⟩ := checkRowType_eq_ok hrow
    change m.groups[m.outline.reduce g]? = some group at hk
    rw [hg] at hk
    rw [outline_group_of hk]
    rfl
  have hout : ((m.skip.enterExpr ⟨m.next⟩ x g).addMember ⟨m.next⟩ g).outline = m.outline.attach x g :=
    outline_attached (hn.exprs.rep_eq_none (Nat.le_refl m.next))
  have hst : ((m.skip.enterExpr ⟨m.next⟩ x g).addMember ⟨m.next⟩ g).standings = m.standings :=
    standings_enterExpr (m := m.skip) (hn.fresh_entry (Nat.le_refl m.next))
  show Edits P m.work ((m.skip.enterExpr ⟨m.next⟩ x g).addMember ⟨m.next⟩ g).work
  rw [work, work, workAt_eq rfl hout hst]
  exact .single (.attach (w := m.work) ⟨rfl, rfl⟩ hlive hx ha)

end Expressions

/-! ## Merges -/

theorem merge_edited [DecidableEq Op] (ht : m.outline.Tidy) (a b : GroupId) :
    Edited P m.work m (fun _ _ => True) (merge a b) := by
  have hpropose : Edit P m.work (m.workAt .rest [] [(a, b)]) :=
    .propose (w := m.work) (a, b) ⟨rfl, rfl⟩
  have hall := mergeAll_edits (P := P) (sound_of_tidy ht [(a, b)])
  unfold Edited merge
  cases hm : mergeAll m [(a, b)] with
  | ok _ m' =>
    rw [hm] at hall
    exact ⟨.head hpropose hall, trivial⟩
  | error f m' =>
    rw [hm] at hall
    obtain ⟨ps, hall⟩ := hall
    exact ⟨ps, .head hpropose hall⟩

/-! ## Plans -/

section Plans

variable [Operator Op] {refs : List SubGroupRef}

/-- An operation over what the memo has is found, founds a group, or joins the one given. -/
theorem register_edited (head : Operation Op) (target : Option GroupId) (ht : m.outline.Tidy)
    (hx : m.outline.Ready ⟨head.op, refs, head.data, head.traits⟩)
    (hg : ∀ t ∈ target, m.outline.reduce t = t) :
    Edited P m.work m (fun _ m' => target = none → m.outline.Keeps m'.outline)
      (register head refs target) := by
  unfold register
  refine .get_bind ?_
  cases hf : m.findExpr? ⟨head.op, refs, head.data, head.traits⟩ with
  | some found =>
    obtain ⟨e, entry⟩ := found
    cases target with
    | none => exact edited_pure .refl fun _ => .refl _
    | some t =>
      refine .get_bind (.read_bind .refl fun _ _ => ?_)
      refine (merge_edited ht _ _).bind fun _ m₁ h₁ _ => .get_bind ?_
      exact edited_pure h₁ fun h => by cases h
  | none =>
    have ha := findExpr?_eq_none hf
    cases target with
    | none => exact (create_edited ht hx ha head.rowType).imp fun _ _ hk _ => hk
    | some t =>
      exact (extend_edited ht hx ha (hg t rfl) head.rowType).imp fun _ _ _ h => by cases h

/-- An operation over inputs that are added first. -/
theorem insertOver_edited (head : Operation Op) (target : Option GroupId)
    {inputs : Update Op Q (List SubGroupRef)}
    (hi : Edited P m.work m (fun refs m' => m.outline.Keeps m'.outline ∧
      ∀ r ∈ refs, m'.outline.Served r) inputs) (ht : m.outline.Tidy)
    (hg : ∀ t ∈ target, m.outline.reduce t = t) :
    Edited P m.work m (fun _ m' => target = none → m.outline.Keeps m'.outline)
      (insertOver head inputs target) := by
  unfold insertOver
  refine .read_bind .refl fun _ _ => hi.bind fun refs m₁ h₁ hrefs => ?_
  obtain ⟨hk, hserved⟩ := hrefs
  have hr := register_edited (P := P) head target (tidy_of_edits ht h₁) hserved
    fun t htarget => (hk.reduce t).trans (hg t htarget)
  exact (hr.after h₁).imp fun _ _ hkeep hnone => hk.trans (hkeep hnone)

omit [Operator Op] in
/-- One more input before the others. -/
theorem served_cons {o o' : Outline Op} {r : SubGroupRef} {refs : List SubGroupRef}
    (hk : o.Keeps o') (hr : o.Served r) (hrefs : ∀ r ∈ refs, o'.Served r) :
    ∀ r' ∈ r :: refs, o'.Served r' := by
  intro r' hr'
  rcases List.mem_cons.1 hr' with rfl | hr'
  · exact hk.served hr
  · exact hrefs r' hr'

/-- The induction follows the plans from left to right, and each of them down to its leaves. -/
theorem insertInputs_edited (op : Op) (require : Bool) : ∀ (ps : List (Plan Op)) {m : Memo Op Q},
    m.outline.Tidy → Edited P m.work m (fun refs m' => m.outline.Keeps m'.outline ∧
      ∀ r ∈ refs, m'.outline.Served r) (insertInputs op require ps)
  | [], m, _ => by
    simp only [insertInputs]
    exact edited_pure .refl ⟨.refl _, fun _ h => by cases h⟩
  | .group ref :: rest, m, ht => by
    simp only [insertInputs]
    refine .read_bind .refl fun _ _ => .read_bind .refl fun _ _ => .get_bind ?_
    refine (ensureSubGroup_edited ht _ require).bind fun s m₁ h₁ hpost => ?_
    obtain ⟨hk₁, hs₁⟩ := hpost
    rw [reduceRef_eq, ht.sound.names.reduceRef_reduceRef] at hs₁
    have hrest := (insertInputs_edited op require rest (tidy_of_edits ht h₁)).after h₁
    refine hrest.bind fun refs m₂ h₂ hpost => edited_pure h₂ ?_
    obtain ⟨hk₂, hs₂⟩ := hpost
    exact ⟨hk₁.trans hk₂, served_cons hk₂ hs₁ hs₂⟩
  | .node head inputs :: rest, m, ht => by
    simp only [insertInputs]
    have hover := insertOver_edited (P := P) head none
      (insertInputs_edited head.op true inputs ht) ht fun t h => by cases h
    refine hover.bind fun ge m₁ h₁ hk₁ => .get_bind ?_
    obtain ⟨g, e⟩ := ge
    have ht₁ := tidy_of_edits ht h₁
    refine ((ensureSubGroup_edited ht₁ ⟨m₁.reduceGroup g, head.traits⟩ require).after h₁).bind
      fun s m₂ h₂ hpost => ?_
    obtain ⟨hk₂, hs₂⟩ := hpost
    have href : m₁.outline.reduceRef ⟨m₁.reduceGroup g, head.traits⟩ = ⟨m₁.reduceGroup g, head.traits⟩ :=
      ht₁.sound.names.reduceRef_reduceRef ⟨g, head.traits⟩
    rw [href] at hs₂
    have hrest := (insertInputs_edited op require rest (tidy_of_edits ht h₂)).after h₂
    refine hrest.bind fun refs m₃ h₃ hpost => edited_pure h₃ ?_
    obtain ⟨hk₃, hs₃⟩ := hpost
    exact ⟨((hk₁ rfl).trans hk₂).trans hk₃, served_cons hk₃ hs₂ hs₃⟩

theorem add_edited (ht : m.outline.Tidy) (n : PlanNode Op) :
    Edited P m.work m (fun _ _ => True) (add n) := by
  have hover := insertOver_edited (P := P) n.head none
    (insertInputs_edited n.head.op true n.inputs ht) ht fun t h => by cases h
  refine hover.bind fun ge m₁ h₁ _ => .get_bind ?_
  exact edited_pure h₁ trivial

theorem addNodeTo_edited (ht : m.outline.Tidy) (n : PlanNode Op) (g : GroupId) (require : Bool) :
    Edited P m.work m (fun _ _ => True) (addNodeTo n g require) := by
  have hover := insertOver_edited (P := P) n.head (some (m.reduceGroup g))
    (insertInputs_edited n.head.op require n.inputs ht) ht fun t h => by
      cases h
      exact ht.sound.names.reduce_reduce g
  refine .get_bind (hover.bind fun ge m₁ h₁ _ => edited_pure h₁ trivial)

theorem addTo_edited (ht : m.outline.Tidy) (p : Plan Op) (g : GroupId) :
    Edited P m.work m (fun _ _ => True) (addTo p g) := by
  cases p with
  | node head inputs => exact addNodeTo_edited ht ⟨head, inputs⟩ g true
  | group ref =>
    refine .get_bind ((merge_edited ht _ _).bind fun _ m₁ h₁ _ => edited_pure h₁ trivial)

end Plans

/-! ## Prices -/

/-- An expression that gets a price is offered to all sub groups of its group, and that does not fail. -/
theorem recordPrice_total {e : ExprId} (p : Price Q) {x : Expr Op} {k : GroupId} (ht : m.outline.Tidy)
    (hx : m.outline.entry (m.reduceExpr e) = some (x, k)) :
    ∃ m' c, recordPrice e p m = .ok m' ∧ m.outline.group k = some c ∧
      Edits P { m.work with
        standings := m.standings.setPrice (m.reduceExpr e) p
        owed := c.subs.map fun q => (q.2, m.reduceExpr e) } m'.work := by
  obtain ⟨entry, hentry, rfl, rfl⟩ := exists_entry hx
  have hhome := ht.sound.places.home _ _ _ hx
  obtain ⟨c, hcell⟩ := Option.isSome_iff_exists.1 hhome
  obtain ⟨group, -, hgroup, rfl⟩ := exists_liveGroup hcell
  have hedit : Edit Terms.free m.work
      (({ m with exprs := m.exprs.insert (m.reduceExpr e) { entry with price := some p } } :
        Memo Op Q).workAt .rest (group.subGroups.map (fun q => (q.2, m.reduceExpr e)) ++ []) []) := by
    rw [workAt_eq rfl (outline_setPrice hentry) (standings_setPrice p m), List.append_nil]
    exact .price (w := m.work) ⟨rfl, rfl⟩ hx hcell trivial
  obtain ⟨m₁, h₁, hoffers⟩ := offers_edits (P := P) (fun q : TraitSet × SubGroupId =>
    (q.2, m.reduceExpr e)) group.subGroups (hedit.sound (sound_of_tidy ht []))
  rw [workAt_eq rfl (outline_setPrice hentry) (standings_setPrice p m), List.append_nil] at hoffers
  refine ⟨m₁, group.cell, ?_, hcell, hoffers⟩
  have hself : m.groupAlias.resolve entry.group = entry.group := ht.sound.names.reduce_of_live hhome
  simp only [recordPrice, getEntry, liveGroup, reduceGroup, hentry, hself, hgroup, bind, Except.bind, List.foldlM_map]
  exact h₁

theorem recordPrice_offers {e : ExprId} {p : Price Q} (ht : m.outline.Tidy) (h : recordPrice e p m = .ok m') :
    ∃ x k c, m.outline.entry (m.reduceExpr e) = some (x, k) ∧ m.outline.group k = some c ∧
      Edits P { m.work with
        standings := m.standings.setPrice (m.reduceExpr e) p
        owed := c.subs.map fun q => (q.2, m.reduceExpr e) } m'.work := by
  obtain ⟨entry, -, he, -⟩ := recordPrice_eq_ok h
  have hx := outline_entry_of he
  obtain ⟨m₁, c, h₁, hc, hoffers⟩ := recordPrice_total (P := P) p ht hx
  cases h.symm.trans h₁
  exact ⟨entry.expr, entry.group, c, hx, hc, hoffers⟩

/-- So recording a price is a series of edits, where the price may be recorded. -/
theorem recordPrice_edits {e : ExprId} {p : Price Q} (ht : m.outline.Tidy)
    (hp : P.price m.outline m.standings (m.reduceExpr e) p) (h : recordPrice e p m = .ok m') :
    Edits P m.work m'.work := by
  obtain ⟨x, k, c, hx, hc, hoffers⟩ := recordPrice_offers (P := P) ht h
  exact .head (.price (w := m.work) ⟨rfl, rfl⟩ hx hc hp) hoffers

/-! ## All calls -/

variable [Operator Op]

/-- A call on a memo, which may succeed or fail. -/
inductive Attempt (m : Memo Op Q) : Memo Op Q → Prop
  | add (n : PlanNode Op) : Attempt m ((add n).leave m)
  | addTo (p : Plan Op) (g : GroupId) : Attempt m ((addTo p g).leave m)
  | addEnforcer (n : PlanNode Op) (g : GroupId) : Attempt m ((addEnforcer n g).leave m)
  | ensureSubGroup (r : SubGroupRef) (require : Bool) : Attempt m ((ensureSubGroup r require).leave m)
  | recordPrice (e : ExprId) (p : Price Q) : Attempt m ((Update.step (recordPrice e p)).leave m)
  | merge (a b : GroupId) : Attempt m ((merge a b).leave m)
  | forgetChanges : Attempt m m.forgetChanges

/-- Where anything may be recorded, every call is a series of edits. -/
theorem Attempt.edits (h : m.Attempt m') (ht : m.outline.Tidy) :
    ∃ ps, Edits .free m.work (m'.workAt .rest [] ps) := by
  cases h with
  | add n => exact (add_edited ht n).leave
  | addTo p g => exact (addTo_edited ht p g).leave
  | addEnforcer n g => exact (addNodeTo_edited ht n g false).leave
  | ensureSubGroup r require => exact (ensureSubGroup_edited ht r require).leave
  | merge a b => exact (merge_edited ht a b).leave
  | forgetChanges => exact ⟨[], .single (.forget (w := m.work) ⟨rfl, rfl⟩ trivial)⟩
  | recordPrice e p =>
    unfold Update.leave Update.step
    cases hr : Memo.recordPrice e p m with
    | ok m' => exact ⟨[], recordPrice_edits ht trivial hr⟩
    | error f => exact ⟨[], .refl⟩

/-- A call that succeeds is a series of edits, and nothing is left pending. -/
theorem Call.edits (h : m.Call m') (ht : m.outline.Tidy) : Edits .free m.work m'.work := by
  cases h with
  | add ok => exact ((add_edited ht _).of_ok ok).1
  | addTo ok => exact ((addTo_edited ht _ _).of_ok ok).1
  | addEnforcer ok => exact ((addNodeTo_edited ht _ _ false).of_ok ok).1
  | ensureSubGroup ok => exact ((ensureSubGroup_edited ht _ _).of_ok ok).1
  | recordPrice ok => exact recordPrice_edits ht trivial ok
  | merge ok => exact ((merge_edited ht _ _).of_ok ok).1
  | forgetChanges => exact .single (.forget (w := m.work) ⟨rfl, rfl⟩ trivial)

/-- A memo that any calls lead to from one without expressions, whether they succeed or fail. -/
inductive Attempted : Memo Op Q → Prop
  | empty (registry : Registry Op) (factRules : List (FactRule Op)) (tieBreak : TieBreak) :
      Attempted (.empty registry factRules tieBreak)
  | attempt {m m' : Memo Op Q} (before : Attempted m) (attempt : m.Attempt m') : Attempted m'

theorem Attempted.tidy (h : Attempted m) : m.outline.Tidy := by
  induction h with
  | empty => exact (orderly_empty _ _ _).ordered.tidy
  | attempt _ attempt ih =>
    obtain ⟨ps, hedits⟩ := attempt.edits ih
    exact tidy_of_edits ih hedits

/-- A call that succeeds is one of those that may fail. -/
theorem Call.attempt (h : m.Call m') : m.Attempt m' := by
  have hleave : ∀ {α : Type} {u : Update Op Q α} {a : α}, u m = .ok a m' → u.leave m = m' := by
    intro α u a ok
    unfold Update.leave
    rw [ok]
  cases h with
  | add ok => rw [← hleave ok]; exact .add _
  | addTo ok => rw [← hleave ok]; exact .addTo _ _
  | addEnforcer ok => rw [← hleave ok]; exact .addEnforcer _ _
  | ensureSubGroup ok => rw [← hleave ok]; exact .ensureSubGroup _ _
  | merge ok => rw [← hleave ok]; exact .merge _ _
  | forgetChanges => exact .forgetChanges
  | @recordPrice e p _ ok =>
    have hstep : Update.step (Memo.recordPrice e p) m = .ok () m' := by
      unfold Update.step
      rw [ok]
    rw [← hleave hstep]
    exact .recordPrice e p

theorem Reached.attempted (h : Reached m) : Attempted m := by
  induction h with
  | empty registry factRules tieBreak => exact .empty registry factRules tieBreak
  | call _ call ih => exact .attempt ih call.attempt

end Memo

end PlanSearch
