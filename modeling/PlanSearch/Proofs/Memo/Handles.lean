import PlanSearch.Proofs.Memo.Backing
import PlanSearch.Proofs.Memo.Heeds
import PlanSearch.Proofs.Memo.RowTypes

/-!
# Names held outside

Whoever calls a memo holds names of groups, sub groups and expressions, and calls it again with them. Whatever calls
succeed in between, every name goes on standing for something live: a group of the same row type, a sub group of the
same group under the same traits, which is required if it was, and an expression that reads as it did, in the group
that it was in.

    m.Tidy → Calls m m' → Edits .free m.work m'.work         (Memo.Calls.edits)
    m.Tidy → Calls m m' → m.Upholds m'                       (Memo.Calls.upholds)
    Attempted m → Calls m m' → m.Retains m'                  (Memo.Attempted.handles)
-/

namespace PlanSearch

open Outline

namespace Memo

variable {Op Q : Type} [Operator Op] [Quantity Q] {m m' m'' : Memo Op Q}

/-! ## Calls one after the other -/

/-- Any number of calls that succeed. -/
abbrev Calls : Memo Op Q → Memo Op Q → Prop := Relation.ReflTransGen Call

theorem Calls.edits (h : Calls m m') (ht : m.outline.Tidy) : Edits .free m.work m'.work := by
  induction h with
  | refl => exact .refl
  | tail _ call ih => exact ih.trans (call.edits (tidy_of_edits ht ih))

theorem Calls.tidy (h : Calls m m') (ht : m.outline.Tidy) : m'.outline.Tidy := tidy_of_edits ht (h.edits ht)

theorem Calls.evolves (h : Calls m m') (ht : m.outline.Tidy) : m.outline.Evolves [] m'.outline [] :=
  Edits.evolves (h.edits ht) (sound_of_tidy ht [])

theorem Calls.lineage (h : Calls m m') (ht : m.outline.Tidy) : m.outline.Lineage m'.outline :=
  Edits.lineage (h.edits ht) (sound_of_tidy ht [])

theorem Calls.upholds (h : Calls m m') : m.Upholds m' := by
  induction h with
  | refl => exact .refl m
  | tail _ call ih => exact ih.trans call.upholds

theorem Calls.registry_eq (h : Calls m m') : m'.registry = m.registry := by
  induction h with
  | refl => rfl
  | tail _ call ih => exact call.registry_eq.trans ih

omit [Operator Op] [Quantity Q] in
theorem anchored_of_tidy (ht : m.outline.Tidy) : m.Anchored where
  live s hs := ht.sound.names.subRep_of_live (by rwa [outline_sub, Option.isSome_map])
  fresh _ hle := ht.sound.names.subs.rep_eq_none hle

/-! ## Names that are given out -/

/-- The memo has given out the name of a group. -/
def KnowsGroup (m : Memo Op Q) (g : GroupId) : Prop := (m.groupAlias.find? g).isSome

/-- The memo has given out the name of a sub group. -/
def KnowsSub (m : Memo Op Q) (s : SubGroupId) : Prop := (m.subGroupAlias.find? s).isSome

/-- The memo has given out the name of an expression. -/
def KnowsExpr (m : Memo Op Q) (e : ExprId) : Prop := (m.exprAlias.find? e).isSome

section Known

omit [Operator Op] [Quantity Q]

theorem KnowsSub.live (ht : m.outline.Tidy) {s : SubGroupId} (h : m.KnowsSub s) :
    ∃ r, m.outline.sub (m.outline.reduceSub s) = some r := by
  obtain ⟨s', hs'⟩ := Option.isSome_iff_exists.1 h
  have hnames := ht.sound.names.subs
  have hrep : m.outline.reduceSub s = s' := congrArg (Option.getD · s) hs'
  rw [hrep]
  exact Option.isSome_iff_exists.1 ((hnames.live_iff s').2 (hnames.rep_rep s s' hs'))

theorem KnowsExpr.live (ht : m.outline.Tidy) {e : ExprId} (h : m.KnowsExpr e) :
    ∃ x g, m.outline.entry (m.outline.reduceExpr e) = some (x, g) := by
  obtain ⟨e', he'⟩ := Option.isSome_iff_exists.1 h
  have hnames := ht.sound.names.exprs
  have hrep : m.outline.reduceExpr e = e' := congrArg (Option.getD · e) he'
  rw [hrep]
  obtain ⟨⟨x, g⟩, hx⟩ := Option.isSome_iff_exists.1 ((hnames.live_iff e').2 (hnames.rep_rep e e' he'))
  exact ⟨x, g, hx⟩

/-- A name whose live name is found was given out. -/
theorem knowsExpr_of_live (ht : m.outline.Tidy) {e : ExprId} {x : Expr Op} {g : GroupId}
    (h : m.outline.entry (m.outline.reduceExpr e) = some (x, g)) : m.KnowsExpr e := by
  unfold KnowsExpr
  cases hrep : m.exprAlias.find? e with
  | some r => rfl
  | none =>
    have hself : m.outline.reduceExpr e = e := congrArg (Option.getD · e) hrep
    rw [hself] at h
    have hlive := ht.sound.names.exprRep_of_live (e := e) (by rw [h]; rfl)
    rw [show m.outline.exprRep e = none from hrep] at hlive
    cases hlive

theorem knowsGroup_of_live (ht : m.outline.Tidy) {g : GroupId} (h : (m.outline.group g).isSome) :
    m.KnowsGroup g := by
  show (m.outline.groupRep g).isSome
  rw [ht.sound.names.groupRep_of_live h]
  rfl

end Known

/-! ## What they stand for later -/

/-- Whatever a name stands for in the memo `m`, it stands for in the memo `m'`. -/
structure Retains (m m' : Memo Op Q) : Prop where
  /-- A group name stands for a live group with the same row type. -/
  group : ∀ g, m.KnowsGroup g → ∃ rowType, m.rowType? g = some rowType ∧
    m'.reduceGroup g ∈ m'.groups ∧ m'.rowType? g = some rowType
  /-- A sub group name stands for the one sub group of what became of its group under its traits, which is required if
  it was. -/
  sub : ∀ s, m.KnowsSub s → ∃ sub sub', m.getSubGroup s = .ok sub ∧ m'.getSubGroup s = .ok sub' ∧
    sub'.traits.Same sub.traits ∧ sub'.group = m'.reduceGroup sub.group ∧
    m'.findSubGroup? ⟨sub.group, sub.traits⟩ = some (m'.reduceSubGroup s) ∧ (sub.required = true → sub'.required = true)
  /-- An expression name stands for a live expression that reads as it did, up to what became of the groups it reads,
  and in what became of its group. -/
  expr : ∀ e, m.KnowsExpr e → ∃ x x' g, m.getExpr e = .ok x ∧ m.groupOf e = .ok g ∧
    m'.reduceExpr e ∈ m'.exprs ∧ m'.getExpr e = .ok x' ∧
    x'.Congruent { x with inputs := x.inputs.map m'.reduceRef } ∧ m'.groupOf e = .ok (m'.reduceGroup g)

section Retains

omit [Operator Op] [Quantity Q]

theorem groupOf_of_entry (ht : m.outline.Tidy) {e : ExprId} {x : Expr Op} {g : GroupId}
    (h : m.outline.entry (m.outline.reduceExpr e) = some (x, g)) :
    m.getExpr e = .ok x ∧ m.groupOf e = .ok g ∧ m.reduceExpr e ∈ m.exprs := by
  obtain ⟨entry, hentry, rfl, rfl⟩ := exists_entry h
  have hget : m.getEntry e = .ok entry := by
    unfold getEntry
    rw [show m.exprs[m.reduceExpr e]? = some entry from hentry]
  refine ⟨?_, ?_, ?_⟩
  · unfold getExpr
    rw [hget]
    rfl
  · have hself : m.reduceGroup entry.group = entry.group := ht.sound.reduce_home h
    unfold groupOf
    rw [hget]
    exact congrArg Except.ok hself
  · rw [Std.TreeMap.mem_iff_isSome_getElem?, show m.exprs[m.reduceExpr e]? = some entry from hentry]
    rfl

theorem getSubGroup_of_sub {s : SubGroupId} {r : SubGroupRef} (h : m.outline.sub (m.outline.reduceSub s) = some r) :
    ∃ sub, m.getSubGroup s = .ok sub ∧ m.subGroups[m.reduceSubGroup s]? = some sub ∧ sub.ref = r :=
  exists_liveSubGroup h

end Retains

theorem Calls.retains_sub (h : Calls m m') (ht : m.outline.Tidy) {s : SubGroupId} (hs : m.KnowsSub s) :
    ∃ sub sub', m.getSubGroup s = .ok sub ∧ m'.getSubGroup s = .ok sub' ∧ sub'.traits.Same sub.traits ∧
      sub'.group = m'.reduceGroup sub.group ∧ m'.findSubGroup? ⟨sub.group, sub.traits⟩ = some (m'.reduceSubGroup s) ∧
      (sub.required = true → sub'.required = true) := by
  have ht' := h.tidy ht
  have hlineage := h.lineage ht
  obtain ⟨r, hr⟩ := hs.live ht
  obtain ⟨sub, hsub, hlive, rfl⟩ := getSubGroup_of_sub hr
  obtain ⟨r', hr', htraits, hgroup⟩ := hlineage.sub _ _ hr
  rw [hlineage.name] at hr'
  obtain ⟨sub', hsub', hlive', rfl⟩ := getSubGroup_of_sub hr'
  have hhome : m'.outline.reduce sub'.group = sub'.group := by
    obtain ⟨c, hc, -⟩ := (ht'.indexed.filed _ _ hr').resolve_left id
    exact ht'.sound.names.reduce_of_live (by rw [show sub'.group = sub'.ref.group from rfl, hc]; rfl)
  refine ⟨sub, sub', hsub, hsub', htraits, hhome.symm.trans hgroup, ?_, fun hrequired => ?_⟩
  · rw [← subOf_eq]
    exact ht'.subOf_iff.2 ⟨sub'.ref, hr', htraits, hgroup⟩
  · obtain ⟨-, hup⟩ := h.upholds (anchored_of_tidy ht)
    obtain ⟨sub₁, hsub₁, hrequired₁⟩ := hup s ⟨sub, hlive, hrequired⟩
    rw [hlive'] at hsub₁
    cases hsub₁
    exact hrequired₁

theorem Calls.retains_expr (h : Calls m m') (ht : m.outline.Tidy) {e : ExprId} (he : m.KnowsExpr e) :
    ∃ x x' g, m.getExpr e = .ok x ∧ m.groupOf e = .ok g ∧ m'.reduceExpr e ∈ m'.exprs ∧ m'.getExpr e = .ok x' ∧
      x'.Congruent { x with inputs := x.inputs.map m'.reduceRef } ∧ m'.groupOf e = .ok (m'.reduceGroup g) := by
  have hevolves := h.evolves ht
  obtain ⟨x, g, hx⟩ := he.live ht
  obtain ⟨x', hx', hc⟩ := hevolves.congruent (h.tidy ht) hx rfl
  rw [hevolves.expr] at hx'
  obtain ⟨hget, hgroup, -⟩ := groupOf_of_entry ht hx
  obtain ⟨hget', hgroup', hlive'⟩ := groupOf_of_entry (h.tidy ht) hx'
  exact ⟨x, x', g, hget, hgroup, hlive', hget', hc, hgroup'⟩

theorem Calls.retains (h : Calls m m') (ht : m.outline.Tidy) : m.Retains m' where
  group g hg := by
    obtain ⟨hg', hrow⟩ := Edits.rowType?_eq (h.edits ht) (sound_of_tidy ht []) hg
    have hlive := ht.sound.names.live_reduce hg
    obtain ⟨c, hc⟩ := Option.isSome_iff_exists.1 hlive
    have hc : m.rowType? g = some c.rowType := by
      rw [rowType?_eq, Outline.rowType?, hc]
      rfl
    refine ⟨c.rowType, hc, (outline_group_isSome m' _).1 ((h.tidy ht).sound.names.live_reduce hg'), ?_⟩
    rw [rowType?_eq] at hc ⊢
    exact hrow.trans hc
  sub _ := h.retains_sub ht
  expr _ := h.retains_expr ht

/-! ## Names that calls answer -/

omit [Quantity Q] in
theorem entry_create {x : Expr Op} {rowType : RowType} {g : GroupId} {e : ExprId}
    (h : create x rowType m = .ok (g, e) m') : m'.outline.entry e = some (x, g) ∧ (m'.outline.group g).isSome := by
  obtain ⟨rfl, rfl, facts, -, rfl⟩ := create_eq_ok h
  refine ⟨@outline_entry_of Op Q _ _ ⟨x, ⟨m.next + 1⟩, none⟩ Std.TreeMap.getElem?_insert_self, ?_⟩
  rw [outline_group, Option.isSome_map]
  exact congrArg Option.isSome Std.TreeMap.getElem?_insert_self

omit [Quantity Q] in
theorem entry_extend {x : Expr Op} {rowType : RowType} {t g : GroupId} {e : ExprId}
    (h : extend x rowType t m = .ok (g, e) m') : m'.outline.entry e = some (x, g) := by
  obtain ⟨rfl, rfl, -, rfl⟩ := extend_eq_ok h
  exact @outline_entry_of Op Q _ _ ⟨x, g, none⟩ Std.TreeMap.getElem?_insert_self

theorem register_known {head : Operation Op} {refs : List SubGroupRef} {target : Option GroupId} {g : GroupId}
    {e : ExprId} (ht : m.outline.Tidy) (ht' : m'.outline.Tidy)
    (h : register head refs target m = .ok (g, e) m') : m'.KnowsExpr e ∧ (target = none → m'.KnowsGroup g) := by
  have hlive : ∀ {x : Expr Op} {k : GroupId}, m'.outline.entry e = some (x, k) → m'.KnowsExpr e := by
    intro x k hx
    refine knowsExpr_of_live ht' (x := x) (g := k) ?_
    rwa [ht'.sound.names.reduceExpr_of_live (by rw [hx]; rfl)]
  cases register_eq_ok h with
  | found known =>
    have hentry := outline_entry_of (findExpr?_eq_some known).1
    exact ⟨hlive hentry, fun _ => knowsGroup_of_live ht (ht.sound.places.home _ _ _ hentry)⟩
  | united known fits merged =>
    -- the expression was live before the merge
    have hentry := outline_entry_of (findExpr?_eq_some known).1
    have hedits := ((merge_edited (P := .free) ht _ _).of_ok merged).1
    obtain ⟨x, k, hx, -⟩ := (Edits.evolves hedits (sound_of_tidy ht [])).entry _ _ _ hentry
    exact ⟨knowsExpr_of_live ht' hx, fun h => by cases h⟩
  | created new ok => exact ⟨hlive (entry_create ok).1, fun _ => knowsGroup_of_live ht' (entry_create ok).2⟩
  | extended new ok => exact ⟨hlive (entry_extend ok), fun h => by cases h⟩

theorem add_known_names {n : PlanNode Op} {g : GroupId} {e : ExprId} (ht : m.outline.Tidy)
    (h : add n m = .ok (g, e) m') : m'.KnowsGroup g ∧ m'.KnowsExpr e := by
  have ht' := (Call.add h).edits ht |> tidy_of_edits ht
  obtain ⟨g', hover, rfl⟩ := add_eq_ok h
  obtain ⟨-, refs, m₁, h₁, h₂⟩ := insertOver_eq_ok hover
  have hedits := ((insertInputs_edited (P := .free) n.head.op true n.inputs ht).of_ok h₁).1
  obtain ⟨he, hg⟩ := register_known (tidy_of_edits ht hedits) ht' h₂
  exact ⟨knowsGroup_of_live ht' (ht'.sound.names.live_reduce (hg rfl)), he⟩

theorem addNodeTo_known {n : PlanNode Op} {g : GroupId} {require : Bool} {e : ExprId} (ht : m.outline.Tidy)
    (h : addNodeTo n g require m = .ok (some e) m') : m'.KnowsExpr e := by
  have ht' := tidy_of_edits ht ((addNodeTo_edited (P := .free) ht n g require).of_ok h).1
  obtain ⟨-, refs, m₁, g', e', h₁, h₂, he⟩ := addNodeTo_eq_ok h
  cases he
  have hedits := ((insertInputs_edited (P := .free) n.head.op require n.inputs ht).of_ok h₁).1
  exact (register_known (tidy_of_edits ht hedits) ht' h₂).1

theorem addTo_known {p : Plan Op} {g : GroupId} {e : ExprId} (ht : m.outline.Tidy)
    (h : addTo p g m = .ok (some e) m') : m'.KnowsExpr e := by
  cases p with
  | node head inputs => exact addNodeTo_known (n := ⟨head, inputs⟩) ht h
  | group ref => cases (addTo_group_eq_ok h).2

omit [Operator Op] in
/-- The sub group that is answered is what the reference asks for. -/
theorem ensureSubGroup_serves {r : SubGroupRef} {require : Bool} {s : SubGroupId} (ht : m.outline.Tidy)
    (h : ensureSubGroup r require m = .ok s m') : m'.outline.Serves s r := by
  obtain ⟨-, group, hgroup, ⟨hs, hmark⟩ | ⟨-, rfl, m₁, hmark, hoffer⟩⟩ := ensureSubGroup_eq_ok h
  · obtain ⟨q, hq, hsame, rfl⟩ := Group.sub?_eq_some hs
    rw [outline_markIf hmark]
    exact ⟨_, ht.indexed.listed _ _ (outline_group_of hgroup) q hq, hsame, ht.sound.names.reduce_reduce r.group⟩
  · rw [outline_offerAll hoffer, outline_markIf hmark,
      outline_openSubGroup (ht.sound.names.subs.rep_eq_none (Nat.le_refl m.next))]
    exact ⟨⟨m.reduceGroup r.group, r.traits⟩, if_pos rfl, rfl, ht.sound.names.reduce_reduce r.group⟩

theorem ensureSubGroup_known {r : SubGroupRef} {require : Bool} {s : SubGroupId} (ht : m.outline.Tidy)
    (h : ensureSubGroup r require m = .ok s m') : m'.KnowsSub s := by
  have ht' := tidy_of_edits ht ((Call.ensureSubGroup h).edits ht)
  obtain ⟨r', hr', -⟩ := ensureSubGroup_serves ht h
  show (m'.outline.subRep s).isSome
  rw [ht'.sound.names.subRep_of_live (by rw [hr']; rfl)]
  rfl

/-! ## Every memo and every continuation -/

/-- Whatever calls have led to a memo, even if some of them failed: the names that a call answers are given out, and
every name that is given out stands for the same after any further calls that succeed. -/
theorem Attempted.handles (h : Attempted m) :
    (∀ n g e m', add n m = .ok (g, e) m' → m'.KnowsGroup g ∧ m'.KnowsExpr e) ∧
    (∀ p g e m', addTo p g m = .ok (some e) m' → m'.KnowsExpr e) ∧
    (∀ n g e m', addEnforcer n g m = .ok (some e) m' → m'.KnowsExpr e) ∧
    (∀ r require s m', ensureSubGroup r require m = .ok s m' → m'.KnowsSub s) ∧
    ∀ m', Calls m m' → m.Retains m' :=
  ⟨fun _ _ _ _ => add_known_names h.tidy, fun _ _ _ _ => addTo_known h.tidy, fun _ _ _ _ => addNodeTo_known h.tidy,
    fun _ _ _ _ => ensureSubGroup_known h.tidy, fun _ hc => hc.retains h.tidy⟩

section SmallHost

open SmallHost Relational

theorem drifted_calls : Calls stacked drifted := by
  unfold drifted
  cases h : mergeRounds 6 stacked [(⟨1⟩, ⟨3⟩)] with
  | none => exact .refl
  | some m => exact .single (.merge (mergeAll_of_mergeRounds h))

set_option maxRecDepth 100000 in
theorem stacked_names : ((stacked.exprAlias.find? ⟨14⟩).isSome, (stacked.subGroupAlias.find? ⟨22⟩).isSome,
    stacked.groupOf ⟨14⟩, (stacked.getSubGroup ⟨22⟩).map fun sub => (sub.group, sub.traits))
      = (true, true, .ok ⟨15⟩, .ok (⟨15⟩, orders.any)) := by
  cbv

set_option maxRecDepth 100000 in
theorem drifted_names : (drifted.reduceExpr ⟨14⟩, drifted.reduceGroup ⟨15⟩) = (⟨20⟩, ⟨21⟩) := by
  cbv

/-- The filter that was dropped twice is still found in what became of its group, and so is the sub group that it
won. -/
theorem stacked_handles : Attempted stacked ∧ Calls stacked drifted ∧ drifted.reduceExpr ⟨14⟩ = ⟨20⟩ ∧
    drifted.groupOf ⟨14⟩ = .ok ⟨21⟩ ∧
    drifted.findSubGroup? ⟨⟨15⟩, orders.any⟩ = some (drifted.reduceSubGroup ⟨22⟩) := by
  obtain ⟨-, -, -, -, hretains⟩ := Attempted.handles stacked_reached.attempted
  have h := hretains drifted drifted_calls
  obtain ⟨hexpr, hsub, hgroup, hasked⟩ : _ ∧ _ ∧ _ ∧ _ := by simpa using stacked_names
  obtain ⟨hreduce, habsorbed⟩ := Prod.mk.inj drifted_names
  obtain ⟨-, -, g, -, hg, -, -, -, hhome⟩ := h.expr ⟨14⟩ hexpr
  obtain ⟨sub, -, hget, -, -, -, hfind, -⟩ := h.sub ⟨22⟩ hsub
  rw [hgroup] at hg
  cases hg
  rw [hget] at hasked
  obtain ⟨hon, hunder⟩ := Prod.mk.inj (Except.ok.inj hasked)
  rw [hon, hunder] at hfind
  exact ⟨stacked_reached.attempted, drifted_calls, hreduce, habsorbed ▸ hhome, hfind⟩

end SmallHost

end Memo

end PlanSearch
