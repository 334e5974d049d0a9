import PlanSearch.Proofs.Memo.Chain
import PlanSearch.Proofs.Outline.Growth

/-!
# Adding to a memo

What adding a plan does to the outline: the memo grows until it stands for the plan, or, where the plan
is to be a member of a group, the plan joins the group. All steps keep the memo in order.

    m.Ordered [] → add n m = .ok (g, e) m' →
      m.outline.Grown m'.outline ∧ m'.Ordered [] ∧ m'.outline.Stands n.toPlan ⟨g, n.head.traits⟩
                                                                              (Memo.add_stands)
    m.Ordered [] → addTo p g m = .ok e m' → m.outline.Joins g p m'.outline ∧ m'.Ordered []
                                                                              (Memo.addTo_joins)
-/

namespace PlanSearch

open Outline

namespace Memo

variable {Op Q : Type} {m m' : Memo Op Q}

/-! ## Sub groups -/

theorem crowns_openSubGroup (m : Memo Op Q) (g : GroupId) (traits : TraitSet) :
    (m.openSubGroup g traits).1.crowns
      = fun s => if s = ⟨m.next⟩ then some (g, none) else m.crowns s := by
  funext s
  simp only [crowns, openSubGroup, Tables.getElem?_insert_eq]
  split <;> rfl

theorem Ordered.openSubGroup (h : m.Ordered []) {g : GroupId} {traits : TraitSet} {c : Cell}
    (hg : m.outline.group g = some c) (hno : ∀ p ∈ c.subs, ¬ p.1.Same traits) :
    (m.openSubGroup g traits).1.outline = m.outline.openSub g traits ∧
      (m.openSubGroup g traits).1.Ordered [] := by
  have hout : (m.openSubGroup g traits).1.outline = m.outline.openSub g traits :=
    outline_openSubGroup (h.tidy.sound.names.subs.rep_eq_none (Nat.le_refl m.next))
  refine ⟨hout, by rw [hout]; exact h.tidy.openSub hg hno, ?_, ?_⟩
  · refine h.crowned.later (by rw [hout]; exact h.tidy.sound.evolves_openSub g traits) ?_
    intro s k e hs
    rw [crowns_openSubGroup] at hs
    dsimp only at hs
    split at hs
    · cases hs
    · exact ⟨s, k, e, hs, rfl, .refl _ _ _⟩
  · refine h.counted.of_same rfl ?_
    simp only [groupCount, Memo.openSubGroup, Std.TreeMap.size_modify]

variable [Quantity Q]

/-- A sub group that is asked for is there already, or is opened. -/
theorem ensureSubGroup_opens {r : SubGroupRef} {require : Bool} {s : SubGroupId} (ht : m.outline.Tidy)
    (h : ensureSubGroup r require m = .ok s m') : m'.outline = m.outline ∨
      ∃ c, m.outline.group (m.reduceGroup r.group) = some c ∧ (∀ p ∈ c.subs, ¬ p.1.Same r.traits) ∧
        m'.outline = m.outline.openSub (m.reduceGroup r.group) r.traits := by
  obtain ⟨-, group, hgroup, ⟨-, hmark⟩ | ⟨hno, -, m₁, hmark, hoffer⟩⟩ := ensureSubGroup_eq_ok h
  · exact .inl (outline_markIf hmark)
  · refine .inr ⟨_, outline_group_of hgroup, Group.sub?_eq_none hno, ?_⟩
    rw [outline_offerAll hoffer, outline_markIf hmark]
    exact outline_openSubGroup (ht.sound.names.subs.rep_eq_none (Nat.le_refl m.next))

theorem ensureSubGroup_grown {r : SubGroupRef} {require : Bool} {s : SubGroupId} (hm : m.Ordered [])
    (h : ensureSubGroup r require m = .ok s m') : m.outline.Grown m'.outline ∧
      m'.outline.Served (m.outline.reduceRef r) ∧ m'.Ordered [] := by
  obtain ⟨-, group, hgroup, ⟨hs', hmark⟩ | ⟨hs', rfl, m₁, hmark, hoffer⟩⟩ := ensureSubGroup_eq_ok h
  · have hg := outline_group_of hgroup
    have hout := outline_markIf hmark
    obtain ⟨p, hp, hsame, -⟩ := Group.sub?_eq_some hs'
    refine ⟨by rw [hout], by rw [hout]; exact ⟨_, hg, p, hp, hsame⟩, ?_⟩
    exact hm.of_same hout
      (hm.crowned.of_same (by rw [hout]; exact .refl hm.tidy.sound.names) (crowns_markIf hmark))
      (groupAlias_markIf hmark) (congrArg Std.TreeMap.size (groups_of_markIf hmark))
  · have hg := outline_group_of hgroup
    have hno := Group.sub?_eq_none hs'
    obtain ⟨hout₂, hm₂⟩ := hm.openSubGroup hg hno
    have hout₃ := outline_markIf hmark
    have hm₃ := hm₂.of_same hout₃
      (hm₂.crowned.of_same (by rw [hout₃]; exact .refl hm₂.tidy.sound.names) (crowns_markIf hmark))
      (groupAlias_markIf hmark) (congrArg Std.TreeMap.size (groups_of_markIf hmark))
    have hout₄ := outline_offerAll hoffer
    rw [hout₂] at hout₃
    obtain ⟨halias, hcount⟩ := piecewise_counts.offerAll hoffer
    refine ⟨?_, ?_, hm₃.of_same hout₄ ?_ halias hcount⟩
    · rw [hout₄, hout₃]
      exact .single (.openSub hg hno)
    · rw [hout₄, hout₃]
      obtain ⟨c', hc', hsubs⟩ := subs_openSub (m.reduceGroup r.group) r.traits hg
      rw [if_pos rfl] at hsubs
      exact ⟨c', hc', (r.traits, ⟨m.outline.next⟩), by rw [hsubs]; simp, TraitSet.same_refl _⟩
    · refine hm₃.crowned.offerAll hm₃.tidy.sound.names (g := m.reduceGroup r.group) ?_ ?_ hoffer
      · intro ref href
        have hsub : (m.outline.openSub (m.reduceGroup r.group) r.traits).sub ⟨m.next⟩ = some ref := by
          rw [← hout₃]; exact href
        simp only [openSub] at hsub
        rw [if_pos (show (⟨m.next⟩ : SubGroupId) = ⟨m.outline.next⟩ from rfl)] at hsub
        cases hsub
        rfl
      · intro e he x k hx
        obtain ⟨y, hy⟩ := (hm.tidy.sound.places.members _ _ hg e).1 he
        have hx' : m.outline.entry e = some (x, k) := by
          rw [hout₃] at hx; exact hx
        rw [hy] at hx'
        cases hx'
        exact .refl _ _ _

/-! ## New expressions -/

omit [Quantity Q] in
/-- A new expression in a group of its own. -/
theorem create_founds [Operator Op] {x : Expr Op} {rowType : RowType} {g : GroupId} {e : ExprId}
    (hm : m.Ordered []) (hx : m.outline.Ready x) (ha : m.outline.Apart x)
    (h : create x rowType m = .ok (g, e) m') : ∃ facts, m'.outline = m.outline.found x rowType facts ∧
      g = ⟨m.next + 1⟩ ∧ e = ⟨m.next⟩ ∧ m'.Ordered [] := by
  obtain ⟨rfl, rfl, facts, -, hm'⟩ := create_eq_ok h
  have hn := hm.tidy.sound.names
  have hout : m'.outline = m.outline.found x rowType facts := by
    rw [hm']
    exact outline_founded (hn.exprs.rep_eq_none (Nat.le_refl m.next))
      (hn.groups.rep_eq_none (Nat.le_succ m.next))
  refine ⟨facts, hout, rfl, rfl, by rw [hout]; exact hm.tidy.found rowType facts hx ha, ?_, ?_⟩
  · refine hm.crowned.of_same (by rw [hout]; exact hm.tidy.sound.evolves_found _ _ hx.reading ha) ?_
    rw [hm']
    rfl
  · have hsize : m'.groupCount = m.groupCount + 1 := by
      have hout' := outline_enterExpr (m := m.skip.skip) (e := ⟨m.next⟩) (x := x)
        (g := ⟨m.next + 1⟩) (hn.exprs.rep_eq_none (Nat.le_refl m.next))
      have hnone := congrArg (fun o => Outline.group o ⟨m.next + 1⟩) hout'
      simp only [Outline.enter, outline_group, skip] at hnone
      have hfresh := hn.fresh_group (g := ⟨m.next + 1⟩) (Nat.le_succ m.next)
      rw [outline_group] at hfresh
      rw [hfresh, Option.map_none, Option.map_eq_none_iff] at hnone
      have hnot : (⟨m.next + 1⟩ : GroupId) ∉
          (m.skip.skip.enterExpr ⟨m.next⟩ x ⟨m.next + 1⟩).groups := fun hmem => by
        rw [Std.TreeMap.mem_iff_isSome_getElem?, skip, skip, hnone] at hmem
        cases hmem
      rw [hm']
      refine (Tables.size_insert_of_not_mem _ hnot).trans (congrArg (· + 1) ?_)
      exact size_foldl_modify x.inputs _ m.groups
    have halias : m'.groupAlias = m.groupAlias.add ⟨m.next + 1⟩ := by rw [hm']; rfl
    have hfree : (⟨m.next + 1⟩ : GroupId) ∉ m.groupAlias.parent :=
      (Partition.find?_eq_none_iff _ _).1 (hn.groups.rep_eq_none (Nat.le_succ m.next))
    have hcount : m.groupAlias.parts = m.groupCount := hm.counted
    unfold Counted
    rw [hsize, halias, Partition.parts_add, if_neg hfree, hcount]

omit [Quantity Q] in
/-- A new member of a live group. -/
theorem extend_attaches [Operator Op] {x : Expr Op} {rowType : RowType} {t g : GroupId} {e : ExprId}
    (hm : m.Ordered []) (hx : m.outline.Ready x) (ha : m.outline.Apart x)
    (ht : m.outline.reduce t = t) (h : extend x rowType t m = .ok (g, e) m') :
    (m.outline.group t).isSome ∧ m'.outline = m.outline.attach x t ∧ e = ⟨m.next⟩ ∧
      m'.Ordered [] := by
  obtain ⟨-, rfl, hrow, hm'⟩ := extend_eq_ok h
  have hn := hm.tidy.sound.names
  have hlive : (m.outline.group t).isSome := by
    obtain ⟨group, hg, -⟩ := checkRowType_eq_ok hrow
    change m.groups[m.outline.reduce t]? = some group at hg
    rw [ht] at hg
    rw [outline_group_of hg]; rfl
  have hout : m'.outline = m.outline.attach x t := by
    rw [hm']
    exact outline_attached (hn.exprs.rep_eq_none (Nat.le_refl m.next))
  refine ⟨hlive, hout, rfl, by rw [hout]; exact hm.tidy.attach hlive hx ha, ?_, ?_⟩
  · refine hm.crowned.of_same
      (by rw [hout]; exact hm.tidy.sound.evolves_attach hlive hx.reading ha) ?_
    rw [hm']
    rfl
  · refine hm.counted.of_same (by rw [hm']; rfl) ?_
    rw [hm']
    show (Std.TreeMap.modify _ _ _).size = m.groups.size
    rw [Std.TreeMap.size_modify]
    exact size_foldl_modify x.inputs _ m.groups

/-! ## Operations -/

section Operations

variable [Operator Op] {head : Operation Op} {refs : List SubGroupRef} {g t : GroupId} {e : ExprId}

/-- A merge asked for is a chain of merges. -/
theorem merge_merges {a b : GroupId} {u : Unit} (hm : m.Ordered []) (h : merge a b m = .ok u m') :
    m.outline.Merges [(a, b)] m'.outline ∧ m'.Ordered [] := by
  refine mergeAll_merges ⟨hm.tidy, fun s g e hs => ?_, hm.counted⟩ h
  obtain ⟨x, k, hx, hl⟩ := hm.crowned s g e hs
  exact ⟨x, k, hx, hl.mono fun _ hp => by cases hp⟩

/-- An operation is found, or founds a group. -/
theorem register_grown (hm : m.Ordered []) (hx : m.outline.Ready ⟨head.op, refs, head.data, head.traits⟩)
    (h : register head refs none m = .ok (g, e) m') : m.outline.Grown m'.outline ∧ m'.Ordered [] ∧
      ∃ y, m'.outline.entry e = some (y, g) ∧ y.Congruent ⟨head.op, refs, head.data, head.traits⟩ := by
  cases register_eq_ok h with
  | found known =>
    obtain ⟨he, hc⟩ := findExpr?_eq_some known
    exact ⟨.refl, hm, _, outline_entry_of he, hc⟩
  | created new ok =>
    have ha := findExpr?_eq_none new
    obtain ⟨facts, hout, rfl, rfl, hm'⟩ := create_founds hm hx ha ok
    refine ⟨by rw [hout]; exact .single (.found hx ha), hm', _, ?_, rfl⟩
    rw [hout]
    exact if_pos rfl

/-- An operation is found, and the two groups are merged, or it becomes a member. -/
theorem register_joins (hm : m.Ordered []) (hx : m.outline.Ready ⟨head.op, refs, head.data, head.traits⟩)
    (ht : m.outline.reduce t = t) (h : register head refs (some t) m = .ok (g, e) m') :
    m'.Ordered [] ∧ ((∃ y k, m.outline.entry e = some (y, k) ∧
        y.Congruent ⟨head.op, refs, head.data, head.traits⟩ ∧
        m.outline.Merges [(t, k)] m'.outline) ∨
      (m.outline.group t).isSome ∧ m.outline.Apart ⟨head.op, refs, head.data, head.traits⟩ ∧
        m'.outline = m.outline.attach ⟨head.op, refs, head.data, head.traits⟩ t) := by
  cases register_eq_ok h with
  | united known fits merged =>
    obtain ⟨he, hc⟩ := findExpr?_eq_some known
    rw [show m.reduceGroup t = t from ht] at merged
    obtain ⟨hmerges, hm₁⟩ := merge_merges hm merged
    exact ⟨hm₁, .inl ⟨_, _, outline_entry_of he, hc, hmerges⟩⟩
  | extended new ok =>
    have ha := findExpr?_eq_none new
    obtain ⟨hlive, hout, -, hm'⟩ := extend_attaches hm hx ha ht ok
    exact ⟨hm', .inr ⟨hlive, ha, hout⟩⟩

end Operations

/-! ## Plans -/

section Plans

variable [Operator Op]

/-- The references `refs` stand for the plans `ps` in the memo `m'`, which grew out of `m`. -/
structure Inserted (m : Memo Op Q) (ps : List (Plan Op)) (refs : List SubGroupRef) (m' : Memo Op Q) :
    Prop where
  grown : m.outline.Grown m'.outline
  ordered : m'.Ordered []
  stand : m'.outline.StandAll ps refs
  served : ∀ r ∈ refs, m'.outline.Served r

omit [Quantity Q] [Operator Op] in
theorem Inserted.nil (hm : m.Ordered []) : Inserted m [] [] m :=
  ⟨.refl, hm, .nil, fun _ hr => by cases hr⟩

omit [Quantity Q] [Operator Op] in
/-- One more plan before the others. -/
theorem Inserted.cons {m₁ : Memo Op Q} {p : Plan Op} {r : SubGroupRef} {ps : List (Plan Op)}
    {refs : List SubGroupRef} (hg : m.outline.Grown m₁.outline) (hm₁ : m₁.Ordered [])
    (hp : m₁.outline.Stands p r) (hr : m₁.outline.Served r) (h : Inserted m₁ ps refs m') :
    Inserted m (p :: ps) (r :: refs) m' := by
  have hk := h.grown.keeps hm₁.tidy
  refine ⟨hg.trans h.grown, h.ordered, .cons (hp.later hk) h.stand, fun r' hr' => ?_⟩
  rcases List.mem_cons.1 hr' with rfl | hr'
  · exact hk.served hr
  · exact h.served r' hr'

theorem insertOver_grown {head : Operation Op} {inputs : Update Op Q (List SubGroupRef)}
    {ps : List (Plan Op)} {g : GroupId} {e : ExprId}
    (hi : ∀ refs m₁, inputs m = .ok refs m₁ → Inserted m ps refs m₁)
    (h : insertOver head inputs none m = .ok (g, e) m') : m.outline.Grown m'.outline ∧ m'.Ordered [] ∧
      m'.outline.Stands (.node head ps) ⟨g, head.traits⟩ ∧ ∃ y, m'.outline.entry e = some (y, g) := by
  obtain ⟨-, refs, m₁, h₁, h⟩ := insertOver_eq_ok h
  have hins := hi refs m₁ h₁
  obtain ⟨hgrown, hm', y, hy, hc⟩ := register_grown hins.ordered hins.served h
  have hk := hgrown.keeps hins.ordered.tidy
  exact ⟨hins.grown.trans hgrown, hm', .node (hins.stand.later hk) hy hc, y, hy⟩

/-- The induction follows the plans from left to right, and each of them down to its leaves. -/
theorem insertInputs_inserted (op : Op) (require : Bool) : ∀ (ps : List (Plan Op)) {m m' : Memo Op Q}
    {refs : List SubGroupRef}, m.Ordered [] → insertInputs op require ps m = .ok refs m' →
    Inserted m ps refs m'
  | [], m, m', refs, hm, h => by
    obtain ⟨rfl, rfl⟩ := insertInputs_nil_eq_ok h
    exact .nil hm
  | .group ref :: rest, m, m', refs, hm, h => by
    obtain ⟨-, s, m₁, refs', h₁, h₂, rfl⟩ := insertInputs_group_eq_ok h
    obtain ⟨hg₁, hs₁, hm₁⟩ := ensureSubGroup_grown hm h₁
    have hk := hg₁.keeps hm.tidy
    rw [reduceRef_eq, hm.tidy.sound.names.reduceRef_reduceRef] at hs₁
    have hstands : m₁.outline.Stands (.group ref) (m.reduceRef ref) := by
      rw [reduceRef_eq, ← hk.reduceRef]
      exact .ref ref
    exact .cons hg₁ hm₁ hstands hs₁ (insertInputs_inserted op require rest hm₁ h₂)
  | .node head inputs :: rest, m, m', refs, hm, h => by
    obtain ⟨g, e, m₁, s, m₂, refs', h₁, h₂, h₃, rfl⟩ := insertInputs_node_eq_ok h
    obtain ⟨hg₁, hm₁, hstands, y, hy⟩ :=
      insertOver_grown (fun refs m₁ => insertInputs_inserted head.op true inputs hm) h₁
    obtain ⟨hg₂, hs₂, hm₂⟩ := ensureSubGroup_grown hm₁ h₂
    have hgr : m₁.reduceGroup g = g := hm₁.tidy.sound.reduce_home hy
    have hk := hg₂.keeps hm₁.tidy
    simp only [hgr] at h₃ hs₂ ⊢
    have href : m₁.outline.reduceRef ⟨g, head.traits⟩ = ⟨g, head.traits⟩ :=
      congrArg (SubGroupRef.mk · _) hgr
    rw [href] at hs₂
    exact .cons (hg₁.trans hg₂) hm₂ (hstands.later hk) hs₂
      (insertInputs_inserted op require rest hm₂ h₃)

/-- The memo stands for a plan that was added. -/
theorem add_stands {n : PlanNode Op} {g : GroupId} {e : ExprId} (hm : m.Ordered [])
    (h : add n m = .ok (g, e) m') : m.outline.Grown m'.outline ∧ m'.Ordered [] ∧
      m'.outline.Stands n.toPlan ⟨g, n.head.traits⟩ := by
  obtain ⟨g', h₁, rfl⟩ := add_eq_ok h
  obtain ⟨hgrown, hm₁, hstands, y, hy⟩ :=
    insertOver_grown (fun refs m₁ => insertInputs_inserted n.head.op true n.inputs hm) h₁
  have hgr : m'.reduceGroup g' = g' := hm₁.tidy.sound.reduce_home hy
  rw [hgr]
  exact ⟨hgrown, hm₁, hstands⟩

/-- An operation joins a group in two stages: its inputs are inserted, and it is registered with the group under the
live name. -/
theorem addNodeTo_stages {n : PlanNode Op} {g : GroupId} {require : Bool} {answer : Option ExprId}
    (hm : m.Ordered []) (h : addNodeTo n g require m = .ok answer m') : m.registry.check n.head.traits = .ok () ∧
      ∃ refs m₁ g' e, insertInputs n.head.op require n.inputs m = .ok refs m₁ ∧ Inserted m n.inputs refs m₁ ∧
        register n.head refs (some (m₁.outline.reduce g)) m₁ = .ok (g', e) m' ∧ answer = some e := by
  obtain ⟨hfits, refs, m₁, g', e, h₁, h₂, hanswer⟩ := addNodeTo_eq_ok h
  have hins := insertInputs_inserted n.head.op require n.inputs hm h₁
  have hg : m.reduceGroup g = m₁.outline.reduce g := ((hins.grown.keeps hm.tidy).reduce g).symm
  rw [hg] at h₂
  exact ⟨hfits, refs, m₁, g', e, h₁, hins, h₂, hanswer⟩

theorem addNodeTo_joins {n : PlanNode Op} {g : GroupId} {require : Bool} {e : Option ExprId}
    (hm : m.Ordered []) (h : addNodeTo n g require m = .ok e m') :
    m.outline.Joins g n.toPlan m'.outline ∧ m'.Ordered [] := by
  obtain ⟨-, refs, m₁, g', e', -, hins, h₂, rfl⟩ := addNodeTo_stages hm h
  have htt := hins.ordered.tidy.sound.names.reduce_reduce g
  obtain ⟨hm₂, ⟨y, k, hy, hc, hmerges⟩ | ⟨hlive, ha, hout⟩⟩ :=
    register_joins hins.ordered hins.served htt h₂
  · exact ⟨.merge hins.grown hins.stand hy hc hmerges, hm₂⟩
  · rw [hout]
    exact ⟨.attach hins.grown hins.stand hlive hins.served ha, hm₂⟩

theorem addTo_joins {p : Plan Op} {g : GroupId} {e : Option ExprId} (hm : m.Ordered [])
    (h : addTo p g m = .ok e m') : m.outline.Joins g p m'.outline ∧ m'.Ordered [] := by
  cases p with
  | node head inputs => exact addNodeTo_joins hm h
  | group ref =>
    obtain ⟨hmerges, hm₁⟩ := merge_merges hm (addTo_group_eq_ok h).1
    exact ⟨.identify hmerges, hm₁⟩

end Plans

/-! ## Prices -/

theorem recordPrice_ordered {e : ExprId} {price : Price Q} (hm : m.Ordered [])
    (h : recordPrice e price m = .ok m') : m'.Ordered [] := by
  have hout := outline_recordPrice h
  obtain ⟨entry, group, he, hgroup, h⟩ := recordPrice_eq_ok h
  have hentry := outline_entry_of he
  have hs := hm.tidy.sound
  have hgr : m.reduceGroup entry.group = entry.group := hs.reduce_home hentry
  rw [hgr] at hgroup
  have hg := outline_group_of hgroup
  have hpriced := outline_setPrice (p := some price) he
  have hm₁ : ({ m with exprs := m.exprs.insert (m.reduceExpr e) { entry with price := some price } } :
      Memo Op Q).Ordered [] :=
    hm.of_same hpriced (hm.crowned.of_same (by rw [hpriced]; exact .refl hs.names) rfl) rfl rfl
  have hinv := foldlM_invariant (fun ss m₂ => m₂.Ordered [] ∧ m₂.outline = m.outline ∧
    ∀ s ∈ ss, ∀ r, m.outline.sub s = some r → r.group = entry.group) ?_ _ _ _
    ⟨hm₁, hpriced, ?_⟩ h
  · exact hinv.1
  · rintro s ss m₂ m₃ ⟨hm₂, hout₂, hss⟩ h₃
    have hout₃ := outline_offer h₃
    obtain ⟨halias, hcount⟩ := piecewise_counts.offer h₃
    refine ⟨hm₂.of_same hout₃ ?_ halias hcount, hout₃.trans hout₂, fun s' hs' => hss s' (List.mem_cons_of_mem _ hs')⟩
    refine hm₂.crowned.offer hm₂.tidy.sound.names (g := entry.group)
      (hout₂ ▸ hss s List.mem_cons_self) (fun x k hx => ?_) h₃
    rw [hout₂] at hx
    have hlive : (m.outline.entry (m.reduceExpr e)).isSome := by rw [hentry]; rfl
    rw [hentry] at hx
    cases hx
    exact .refl _ _ _
  · intro s hs' r hr
    obtain ⟨p, hp, rfl⟩ := List.mem_map.1 hs'
    rw [hm.tidy.indexed.listed _ _ hg p hp] at hr
    cases hr
    rfl

end Memo

end PlanSearch
