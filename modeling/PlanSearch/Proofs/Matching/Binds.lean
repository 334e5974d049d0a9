import PlanSearch.Binding
import PlanSearch.Proofs.Memo.Insertion
import PlanSearch.Proofs.Outline.Tracks

/-!
# What a binding is

An expression binds an operand if its kind passes the test and, input by input, some member of the
group read binds the operand below. The enumeration of bindings finds these and no others, and it never
fails on a memo in order. As the memo changes, a binding goes on under the live names of its
expressions, and a binding with nothing new in it was there before.

    p.bindings m e = .ok found ∧ ∀ es, es ∈ found ↔ m.outline.Binds p e es       (bindings_spec)
    o.Binds p e es → o'.Binds p (o'.reduceExpr e) (es.map o'.reduceExpr)         (Binds.later)
    o'.Binds p e es → (no expression of es is touched) → o.Binds p e es          (Binds.earlier)
-/

namespace PlanSearch

namespace Outline

variable {Op : Type} [Operator Op]

mutual

/-- The expression `e` binds the operand, with `es` bound to the operands that test a kind. -/
inductive Binds (o : Outline Op) : Pattern Op → ExprId → List ExprId → Prop
  | node {test : KindTest Op} {ps : List (Pattern Op)} {e : ExprId} {x : Expr Op} {g : GroupId}
      {es : List ExprId} (known : o.entry e = some (x, g)) (accepts : test.accepts x.op = true)
      (fits : (Pattern.node test ps).fitsArity x.inputs.length = true)
      (below : BindsAll o ps x.inputs es) : Binds o (.node test ps) e (e :: es)
  | leaf {p : Pattern Op} {e : ExprId} {x : Expr Op} {g : GroupId} (wild : p.isWildcard = true)
      (known : o.entry e = some (x, g)) (empty : x.inputs = []) : Binds o p e [e]

/-- Members of the groups read bind the operands, from the left; all remaining inputs are taken
unopened. -/
inductive BindsAll (o : Outline Op) : List (Pattern Op) → List SubGroupRef → List ExprId → Prop
  | nil {rs : List SubGroupRef} : BindsAll o [] rs []
  | any {ps : List (Pattern Op)} {rs : List SubGroupRef} {es : List ExprId}
      (rest : BindsAll o ps (rs.drop 1) es) : BindsAll o (.any :: ps) rs es
  | many {ps : List (Pattern Op)} {rs : List SubGroupRef} : BindsAll o (.anyMany :: ps) rs []
  | node {test : KindTest Op} {qs ps : List (Pattern Op)} {r : SubGroupRef} {rs : List SubGroupRef}
      {e : ExprId} {y : Expr Op} {es more : List ExprId}
      (member : o.entry e = some (y, o.reduce r.group)) (first : Binds o (.node test qs) e es)
      (rest : BindsAll o ps rs more) : BindsAll o (.node test qs :: ps) (r :: rs) (es ++ more)

end

section Binds

variable {o o' : Outline Op} {p : Pattern Op} {e : ExprId} {es : List ExprId}

theorem Binds.known (h : o.Binds p e es) : ∃ x g, o.entry e = some (x, g) := by
  cases h with
  | node known _ _ _ => exact ⟨_, _, known⟩
  | leaf _ known _ => exact ⟨_, _, known⟩

theorem Binds.head (h : o.Binds p e es) : ∃ more, es = e :: more := by
  cases h with
  | node => exact ⟨_, rfl⟩
  | leaf => exact ⟨[], rfl⟩

mutual

/-- All expressions of a binding are live. -/
theorem Binds.live {p : Pattern Op} {e a : ExprId} {es : List ExprId} (ha : a ∈ es) :
    o.Binds p e es → ∃ x g, o.entry a = some (x, g)
  | .node known _ _ below => by
    rcases List.mem_cons.1 ha with rfl | ha
    · exact ⟨_, _, known⟩
    · exact below.live ha
  | .leaf _ known _ => by
    rw [List.mem_singleton.1 ha]
    exact ⟨_, _, known⟩

theorem BindsAll.live {ps : List (Pattern Op)} {rs : List SubGroupRef} {a : ExprId}
    {es : List ExprId} (ha : a ∈ es) : o.BindsAll ps rs es → ∃ x g, o.entry a = some (x, g)
  | .nil | .many => by cases ha
  | .any rest => rest.live ha
  | .node _ first rest => by
    rcases List.mem_append.1 ha with ha | ha
    · exact first.live ha
    · exact rest.live ha

end

/-- The expressions of a binding stand for themselves. -/
theorem Binds.map_reduceExpr (hn : o.Names) (h : o.Binds p e es) : es.map o.reduceExpr = es := by
  refine (List.map_congr_left fun a ha => ?_).trans (List.map_id es)
  obtain ⟨x, g, hx⟩ := h.live ha
  exact hn.reduceExpr_of_live (by rw [hx]; rfl)

/-! ## Bindings over time -/

mutual

/-- A binding goes on under the live names of its expressions. -/
theorem Binds.later (he : o.Evolves [] o' []) (hs : o'.Sound) {p : Pattern Op} {e : ExprId}
    {es : List ExprId} : o.Binds p e es → o'.Binds p (o'.reduceExpr e) (es.map o'.reduceExpr)
  | .node known accepts fits below => by
    obtain ⟨x', hx', ha⟩ := he.entry_settled hs known
    have hg := ha.groups_eq
    have hl := congrArg List.length hg
    rw [List.length_map, List.length_map] at hl
    exact .node hx' (ha.op_eq ▸ accepts) (hl ▸ fits) (below.later he hs hg)
  | .leaf wild known empty => by
    obtain ⟨x', hx', ha⟩ := he.entry_settled hs known
    have hg := ha.groups_eq
    rw [empty, List.map_nil, eq_comm, List.map_eq_nil_iff] at hg
    exact .leaf wild hx' hg

theorem BindsAll.later (he : o.Evolves [] o' []) (hs : o'.Sound) {ps : List (Pattern Op)}
    {rs rs' : List SubGroupRef} {es : List ExprId} : o.BindsAll ps rs es →
    rs.map (fun r => o'.reduce r.group) = rs'.map (fun r => o'.reduce r.group) →
    o'.BindsAll ps rs' (es.map o'.reduceExpr)
  | .nil, _ => .nil
  | .any rest, hr => .any (rest.later he hs (by rw [List.map_drop, hr, List.map_drop]))
  | .many, _ => .many
  | .node (r := r) member first rest, hr => by
    obtain _ | ⟨r', rs'⟩ := rs'
    · cases hr
    obtain ⟨hg, hr⟩ := List.cons.inj hr
    obtain ⟨y', hy', -⟩ := he.entry_settled hs member
    have hg : o'.reduce r.group = o'.reduce r'.group := hg
    rw [he.group, hg] at hy'
    rw [List.map_append]
    exact .node hy' (first.later he hs) (rest.later he hs hr)

end

mutual

/-- A binding that nothing on record takes part in was one before. -/
theorem Binds.earlier (ht : o.Tracks o') (ho : o.Tidy) {p : Pattern Op} {e : ExprId}
    {es : List ExprId} (hes : ∀ a ∈ es, ¬ o'.Touched o'.news o'.merged a) :
    o'.Binds p e es → o.Binds p e es
  | .node known accepts fits below => by
    rcases ht.entry _ _ _ known with hnew | ⟨x, g, hx, ha, -⟩
    · exact absurd (.inl hnew) (hes _ List.mem_cons_self)
    · have hg := ha.groups_eq
      have hl := congrArg List.length hg
      rw [List.length_map, List.length_map] at hl
      exact .node hx (ha.op_eq ▸ accepts) (hl ▸ fits)
        (below.earlier ht ho (fun a ha' => hes a (List.mem_cons_of_mem _ ha')) hg)
  | .leaf wild known empty => by
    rcases ht.entry _ _ _ known with hnew | ⟨x, g, hx, ha, -⟩
    · exact absurd (.inl hnew) (hes _ List.mem_cons_self)
    · have hg := ha.groups_eq
      rw [empty, List.map_nil, List.map_eq_nil_iff] at hg
      exact .leaf wild hx hg

theorem BindsAll.earlier (ht : o.Tracks o') (ho : o.Tidy) {ps : List (Pattern Op)}
    {rs rs' : List SubGroupRef} {es : List ExprId}
    (hes : ∀ a ∈ es, ¬ o'.Touched o'.news o'.merged a) : o'.BindsAll ps rs' es →
    rs.map (fun r => o'.reduce r.group) = rs'.map (fun r => o'.reduce r.group) →
    o.BindsAll ps rs es
  | .nil, _ => .nil
  | .any rest, hr => .any (rest.earlier ht ho hes (by rw [List.map_drop, hr, List.map_drop]))
  | .many, _ => .many
  | .node (r := r') (e := c) (y := y') member first rest, hr => by
    obtain _ | ⟨r, rs⟩ := rs
    · cases hr
    obtain ⟨hg, hr⟩ := List.cons.inj hr
    obtain ⟨more, rfl⟩ := first.head
    have hc : ¬ o'.Touched o'.news o'.merged c :=
      hes c (List.mem_append_left _ List.mem_cons_self)
    have hg : o'.reduce r.group = o'.reduce r'.group := hg
    rcases ht.entry _ _ _ member with hnew | ⟨y, k, hy, -, hk⟩
    · exact absurd (.inl hnew) hc
    -- the groups of the member and of the input were one before: no merge of them is on record
    have hkr : o.reduce k = o.reduce r.group := by
      rcases ht.joined k r.group (hk.trans hg.symm) with h | ⟨p, hp, hpk⟩
      · exact h
      · exact absurd (.inr ⟨y', _, member, p, hp, hpk.trans hk⟩) hc
    rw [ho.sound.reduce_home hy] at hkr
    rw [hkr] at hy
    exact .node hy (first.earlier ht ho fun a ha => hes a (List.mem_append_left _ ha))
      (rest.earlier ht ho (fun a ha => hes a (List.mem_append_right _ ha)) hr)

end

end Binds

end Outline

/-! ## The enumeration -/

namespace Memo

variable {Op Q : Type} {m : Memo Op Q} {e : ExprId}

theorem mem_members (hs : m.outline.Sound) {g : GroupId} :
    e ∈ m.members g ↔ ∃ x, m.outline.entry e = some (x, m.outline.reduce g) := by
  unfold members
  cases hg : m.group? g with
  | none =>
    refine ⟨fun h => by simp at h, fun ⟨x, hx⟩ => ?_⟩
    have hl := hs.places.home e x _ hx
    rw [outline_group, show m.groups[m.outline.reduce g]? = none from hg] at hl
    cases hl
  | some group => exact hs.places.members _ _ (outline_group_of hg) e

theorem getExpr_of_entry (hn : m.outline.Names) {x : Expr Op} {g : GroupId}
    (he : m.outline.entry e = some (x, g)) : m.getExpr e = .ok x := by
  have hr : m.reduceExpr e = e := hn.reduceExpr_of_live (by rw [he]; rfl)
  rw [outline_entry] at he
  obtain ⟨entry, hentry, hp⟩ := Option.map_eq_some_iff.1 he
  obtain ⟨rfl, -⟩ := Prod.mk.inj hp
  simp only [getExpr, getEntry, hr, hentry]
  rfl

end Memo

namespace Pattern

variable {Op Q : Type} [Operator Op] {m : Memo Op Q}

open Outline

/-- There is an input for every operand that tests a kind. -/
def Roomy (ps : List (Pattern Op)) (n : Nat) : Prop :=
  ps.length ≤ n ∨ ps.getLast? = some anyMany ∧ ps.length ≤ n + 1

omit [Operator Op] in
theorem roomy_of_fitsArity {test : KindTest Op} {ps : List (Pattern Op)} {n : Nat}
    (h : (node test ps).fitsArity n = true) : Roomy ps n := by
  simp only [fitsArity, inputs] at h
  split at h
  · next hl => exact .inr ⟨hl, of_decide_eq_true h⟩
  · exact .inl (Nat.le_of_eq (of_decide_eq_true h).symm)

omit [Operator Op] in
theorem Roomy.tail {p : Pattern Op} {ps : List (Pattern Op)} {n : Nat} (h : Roomy (p :: ps) n) :
    Roomy ps (n - 1) := by
  rcases h with h | ⟨hl, h⟩
  · left
    rw [List.length_cons] at h
    omega
  · cases ps with
    | nil => exact .inl (Nat.zero_le _)
    | cons q qs =>
      right
      rw [List.getLast?_cons_cons] at hl
      rw [List.length_cons] at h
      exact ⟨hl, by simp only [List.length_cons] at h ⊢; omega⟩

omit [Operator Op] in
theorem Roomy.pos {test : KindTest Op} {qs ps : List (Pattern Op)} {n : Nat}
    (h : Roomy (node test qs :: ps) n) : 0 < n := by
  rcases h with h | ⟨hl, h⟩
  · rw [List.length_cons] at h
    omega
  · cases ps with
    | nil => cases hl
    | cons q qs =>
      simp only [List.length_cons] at h
      omega

theorem mem_extendPicks {picks more : List (List ExprId)} {l : List ExprId} :
    l ∈ extendPicks picks more ↔ ∃ pick ∈ picks, ∃ rest ∈ more, l = pick ++ rest := by
  simp only [extendPicks, List.mem_flatMap, List.mem_map, eq_comm]

/-- A wildcard in the place of the root binds expressions without inputs. -/
theorem mem_wild_iff {p : Pattern Op} (hp : p.isWildcard = true) {e : ExprId} {x : Expr Op} {g : GroupId}
    (he : m.outline.entry e = some (x, g)) (es : List ExprId) :
    es ∈ (if x.inputs.isEmpty then [[e]] else [] : List (List ExprId)) ↔ m.outline.Binds p e es := by
  constructor
  · split
    · next hi =>
      intro hes
      rw [List.mem_singleton.1 hes]
      exact .leaf hp he (List.isEmpty_iff.1 hi)
    · intro hes
      cases hes
  · intro hb
    cases hb with
    | node => cases hp
    | leaf _ known empty =>
      rw [he] at known
      cases known
      simp [empty]

/-- Where the bindings of the first operand are at hand, picks extended by them and then by the bindings
of the other operands are picks extended by the bindings of all. -/
theorem extend_node_iff (hs : m.outline.Sound) {test : KindTest Op} {qs : List (Pattern Op)}
    (ps : List (Pattern Op)) {r : SubGroupRef} (rs : List SubGroupRef) (picks : List (List ExprId))
    {alts : List (List ExprId)} (halts : ∀ alt, alt ∈ alts ↔ ∃ e ∈ m.members r.group, m.outline.Binds (.node test qs) e alt)
    (l : List ExprId) :
    (∃ pick ∈ extendPicks picks alts, ∃ es, m.outline.BindsAll ps rs es ∧ l = pick ++ es) ↔
      ∃ pick ∈ picks, ∃ es, m.outline.BindsAll (.node test qs :: ps) (r :: rs) es ∧ l = pick ++ es := by
  constructor
  · rintro ⟨pick, hpick, es, hb, rfl⟩
    obtain ⟨pick₀, hpick₀, alt, halt, rfl⟩ := mem_extendPicks.1 hpick
    obtain ⟨e, he, hbe⟩ := (halts alt).1 halt
    obtain ⟨y, hy⟩ := (Memo.mem_members hs).1 he
    exact ⟨pick₀, hpick₀, alt ++ es, .node hy hbe hb, List.append_assoc ..⟩
  · rintro ⟨pick, hpick, es, hb, rfl⟩
    cases hb with
    | @node _ _ _ _ _ e y es₁ es₂ member first rest =>
      refine ⟨pick ++ es₁, mem_extendPicks.2 ⟨pick, hpick, es₁, ?_, rfl⟩, es₂, rest,
        (List.append_assoc ..).symm⟩
      exact (halts es₁).2 ⟨e, (Memo.mem_members hs).2 ⟨y, member⟩, first⟩

mutual

/-- The enumeration finds all bindings of a live expression. -/
theorem bindings_spec (hs : m.outline.Sound) (p : Pattern Op) {e : ExprId} {x : Expr Op} {g : GroupId}
    (he : m.outline.entry e = some (x, g)) :
    ∃ found, p.bindings m e = .ok found ∧ ∀ es, es ∈ found ↔ m.outline.Binds p e es := by
  have hx := Memo.getExpr_of_entry hs.names he
  match p with
  | .any => exact ⟨_, by rw [bindings, hx]; rfl, mem_wild_iff rfl he⟩
  | .anyMany => exact ⟨_, by rw [bindings, hx]; rfl, mem_wild_iff rfl he⟩
  | .node test ps =>
    by_cases hfit : (test.accepts x.op && (node test ps).fitsArity x.inputs.length) = true
    · obtain ⟨hacc, harity⟩ := Bool.and_eq_true_iff.1 hfit
      obtain ⟨found, hfound, hmem⟩ :=
        bindInputs_spec hs ps x.inputs [[e]] (roomy_of_fitsArity harity)
      refine ⟨found, ?_, fun es => ?_⟩
      · rw [bindings, hx]
        show (if (test.accepts x.op && (node test ps).fitsArity x.inputs.length) = true then _ else _) = _
        rw [if_pos hfit]
        exact hfound
      · rw [hmem]
        constructor
        · rintro ⟨pick, hpick, more, hb, rfl⟩
          rw [List.mem_singleton.1 hpick]
          exact .node he hacc harity hb
        · intro hb
          cases hb with
          | node known _ _ below =>
            rw [he] at known
            cases known
            exact ⟨[e], List.mem_singleton_self _, _, below, rfl⟩
          | leaf wild => cases wild
    · refine ⟨[], ?_, fun es => ⟨fun h => absurd h List.not_mem_nil, fun hb => ?_⟩⟩
      · rw [bindings, hx]
        show (if (test.accepts x.op && (node test ps).fitsArity x.inputs.length) = true then _ else _) = _
        rw [if_neg hfit]
        rfl
      · cases hb with
        | node known accepts fits _ =>
          rw [he] at known
          cases known
          exact absurd (Bool.and_eq_true_iff.2 ⟨accepts, fits⟩) hfit
        | leaf wild => cases wild

theorem bindInputs_spec (hs : m.outline.Sound) (ps : List (Pattern Op)) (rs : List SubGroupRef)
    (picks : List (List ExprId)) (hroom : Roomy ps rs.length) :
    ∃ found, bindInputs m ps rs picks = .ok found ∧
      ∀ l, l ∈ found ↔ ∃ pick ∈ picks, ∃ es, m.outline.BindsAll ps rs es ∧ l = pick ++ es := by
  match ps with
  | [] =>
    refine ⟨picks, by rw [bindInputs], fun l => ⟨fun hl => ⟨l, hl, [], .nil, by simp⟩, ?_⟩⟩
    rintro ⟨pick, hpick, es, hb, rfl⟩
    cases hb
    rwa [List.append_nil]
  | .anyMany :: ps =>
    refine ⟨picks, by rw [bindInputs], fun l => ⟨fun hl => ⟨l, hl, [], .many, by simp⟩, ?_⟩⟩
    rintro ⟨pick, hpick, es, hb, rfl⟩
    cases hb
    rwa [List.append_nil]
  | .any :: ps =>
    obtain ⟨found, hfound, hmem⟩ := bindInputs_spec hs ps (rs.drop 1) picks
      (by rw [List.length_drop]; exact hroom.tail)
    refine ⟨found, by rw [bindInputs, hfound], fun l => ?_⟩
    rw [hmem]
    constructor
    · rintro ⟨pick, hpick, es, hb, rfl⟩
      exact ⟨pick, hpick, es, .any hb, rfl⟩
    · rintro ⟨pick, hpick, es, hb, rfl⟩
      cases hb with
      | any rest => exact ⟨pick, hpick, es, rest, rfl⟩
  | .node test qs :: ps =>
    obtain _ | ⟨r, rs⟩ := rs
    · exact absurd hroom.pos (Nat.lt_irrefl 0)
    obtain ⟨alts, halts, hamem⟩ := mapM_flatten (m.members r.group)
      (f := fun e => bindings m (node test qs) e) (R := m.outline.Binds (node test qs))
      fun e he => by
        obtain ⟨y, hy⟩ := (Memo.mem_members hs).1 he
        exact bindings_spec hs (node test qs) hy
    obtain ⟨found, hfound, hmem⟩ := bindInputs_spec hs ps rs (extendPicks picks alts.flatten)
      (hroom.tail)
    have hall := extend_node_iff hs ps rs picks hamem
    rw [bindInputs]
    by_cases hempty : alts.flatten.isEmpty = true
    · refine ⟨[], ?_, fun l => ?_⟩
      · rw [halts]
        show (if alts.flatten.isEmpty = true then _ else _) = _
        rw [if_pos hempty]
        rfl
      · rw [← hall]
        refine ⟨fun h => absurd h List.not_mem_nil, ?_⟩
        rintro ⟨pick, hpick, -⟩
        obtain ⟨_, -, alt, halt, -⟩ := mem_extendPicks.1 hpick
        rw [List.isEmpty_iff.1 hempty] at halt
        cases halt
    · refine ⟨found, ?_, fun l => by rw [hmem, hall]⟩
      rw [halts]
      show (if alts.flatten.isEmpty = true then _ else _) = _
      rw [if_neg hempty]
      exact hfound

end

end Pattern

end PlanSearch
