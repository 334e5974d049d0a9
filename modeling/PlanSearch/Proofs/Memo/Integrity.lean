import PlanSearch.Memo.Integrity
import PlanSearch.Proofs.Memo.Reached
import PlanSearch.Proofs.SmallHost

/-!
# Integrity of reached memos

The tables of a reached memo agree with each other. The one thing that may be amiss is the name by
which a winner is known: when the winner was dropped for a twin, and the twin was itself dropped before
the groups of the two were merged, the winner keeps the old name. That name still leads to a member of
the group through the table of names, but it is not one itself, and this is all that the check of
integrity can ever complain of.

    Reached m → m.Intact ∧ m.uncrowned.verify = .ok ()                   (Reached.tables_intact)
    Reached m → (m.verify = .ok () ↔ every winner's expression is live)   (Reached.winner_names)
-/

namespace PlanSearch

namespace Memo

variable {Op Q : Type}

/-- `w` is the winner of the live sub group `s`, whose record is `sub`. -/
def Wins (m : Memo Op Q) (s : SubGroupId) (sub : SubGroup Q) (w : Winner Q) : Prop :=
  m.subGroups[s]? = some sub ∧ sub.winner = some w

/-- The tables of the memo agree with each other, winners apart. -/
structure Intact [DecidableEq Op] (m : Memo Op Q) : Prop where
  /-- An expression is found by what it is, and only it. -/
  found : ∀ (e : ExprId) (entry : Entry Op Q), m.exprs[e]? = some entry ↔ m.findExpr? entry.expr = some (e, entry)
  /-- Every input leads to a live group that has the sub group read. -/
  inputs : ∀ (e : ExprId) (entry : Entry Op Q), m.exprs[e]? = some entry → ∀ r ∈ entry.expr.inputs,
    ∃ group : Group, m.groups[r.group]? = some group ∧ ∃ s, group.sub? r.traits = some s
  /-- The readers listed are the live expressions that read the group. -/
  readers : ∀ (g : GroupId) (group : Group), m.groups[g]? = some group → ∀ e, e ∈ group.parents ↔
    ∃ entry : Entry Op Q, m.exprs[e]? = some entry ∧ entry.expr.reads g = true
  /-- The members listed are the live expressions at home in the group, each once. -/
  members : ∀ (g : GroupId) (group : Group), m.groups[g]? = some group → group.members ≠ [] ∧ group.members.Nodup ∧
    ∀ e, e ∈ group.members ↔ ∃ entry : Entry Op Q, m.exprs[e]? = some entry ∧ entry.group = g
  /-- Every live expression is at home in a live group. -/
  homes : ∀ (e : ExprId) (entry : Entry Op Q), m.exprs[e]? = some entry → entry.group ∈ m.groups
  /-- Every sub group is the one under its traits in its own group. -/
  subGroups : ∀ (s : SubGroupId) (sub : SubGroup Q), m.subGroups[s]? = some sub →
    ∃ group : Group, m.groups[sub.group]? = some group ∧ group.sub? sub.traits = some s
  /-- A group lists its own sub groups only. -/
  listed : ∀ (g : GroupId) (group : Group), m.groups[g]? = some group → ∀ p ∈ group.subGroups,
    ∃ sub : SubGroup Q, m.subGroups[p.2]? = some sub ∧ sub.group = g ∧ sub.traits = p.1
  /-- The live groups are the names that represent themselves. -/
  names : ∀ g, g ∈ m.groups ↔ m.groupAlias.find? g = some g
  groupCount : m.groupAlias.parts = m.groups.size
  exprCount : m.memberCount = m.size

/-- The tables of the memo agree with each other, winners apart and except that groups may be empty. -/
structure Agrees [DecidableEq Op] (m : Memo Op Q) : Prop where
  found : ∀ (e : ExprId) (entry : Entry Op Q), m.exprs[e]? = some entry ↔ m.findExpr? entry.expr = some (e, entry)
  inputs : ∀ (e : ExprId) (entry : Entry Op Q), m.exprs[e]? = some entry → ∀ r ∈ entry.expr.inputs,
    ∃ group : Group, m.groups[r.group]? = some group ∧ ∃ s, group.sub? r.traits = some s
  readers : ∀ (g : GroupId) (group : Group), m.groups[g]? = some group → ∀ e, e ∈ group.parents ↔
    ∃ entry : Entry Op Q, m.exprs[e]? = some entry ∧ entry.expr.reads g = true
  members : ∀ (g : GroupId) (group : Group), m.groups[g]? = some group → group.members.Nodup ∧
    ∀ e, e ∈ group.members ↔ ∃ entry : Entry Op Q, m.exprs[e]? = some entry ∧ entry.group = g
  homes : ∀ (e : ExprId) (entry : Entry Op Q), m.exprs[e]? = some entry → entry.group ∈ m.groups
  subGroups : ∀ (s : SubGroupId) (sub : SubGroup Q), m.subGroups[s]? = some sub →
    ∃ group : Group, m.groups[sub.group]? = some group ∧ group.sub? sub.traits = some s
  listed : ∀ (g : GroupId) (group : Group), m.groups[g]? = some group → ∀ p ∈ group.subGroups,
    ∃ sub : SubGroup Q, m.subGroups[p.2]? = some sub ∧ sub.group = g ∧ sub.traits = p.1
  names : ∀ g, g ∈ m.groups ↔ m.groupAlias.find? g = some g
  groupCount : m.groupAlias.parts = m.groups.size
  exprCount : m.memberCount = m.size

theorem Intact.agrees [DecidableEq Op] {m : Memo Op Q} (h : m.Intact) : m.Agrees :=
  ⟨h.found, h.inputs, h.readers, fun g group hg => (h.members g group hg).2, h.homes, h.subGroups, h.listed, h.names,
    h.groupCount, h.exprCount⟩

/-! ## Tidy memos are intact -/

section Orderly

variable {m : Memo Op Q}

theorem outline_group_isSome (m : Memo Op Q) (g : GroupId) :
    (m.outline.group g).isSome ↔ g ∈ m.groups := by
  rw [outline_group, Option.isSome_map, Std.TreeMap.mem_iff_isSome_getElem?]

theorem findExpr?_of_live [DecidableEq Op] (hm : m.outline.Places) {e : ExprId} {entry : Entry Op Q}
    (he : m.exprs[e]? = some entry) : m.findExpr? entry.expr = some (e, entry) := by
  refine find?_eq_some_of_unique (Std.TreeMap.mem_toList_iff_getElem?_eq_some.2 he)
    (decide_eq_true rfl) fun ⟨e', entry'⟩ hmem hc => ?_
  have he' := Std.TreeMap.mem_toList_iff_getElem?_eq_some.1 hmem
  have hee : e' = e := hm.apart e' _ _ e _ _ (outline_entry_of he') (outline_entry_of he)
    (of_decide_eq_true hc)
  subst hee
  rw [he] at he'
  cases he'
  rfl

/-- The sub group listed under some traits is the one found under them. -/
theorem sub?_of_listed {stray : SubGroupId → Prop} (hi : m.outline.Indexed stray) {g : GroupId}
    {group : Group} (hg : m.groups[g]? = some group) {p : TraitSet × SubGroupId}
    (hp : p ∈ group.subGroups) : group.sub? p.1 = some p.2 := by
  have hu : group.subGroups.find? (fun q => decide (q.1.Same p.1)) = some p := by
    refine find?_eq_some_of_unique hp (decide_eq_true (TraitSet.same_refl _)) fun q hq hs => ?_
    have hsame : q.1.Same p.1 := of_decide_eq_true hs
    exact eq_of_pairwise_not (hi.apart g _ (outline_group_of hg)) hq hp hsame hsame.symm
  unfold Group.sub?
  rw [hu]
  rfl

/-- The members of all live groups are the live expressions, each once. -/
theorem members_perm (hs : m.outline.Sound) :
    ((m.groups.toList.map fun p => p.2.members).flatten).Perm m.exprs.keys := by
  have hgroup : ∀ p ∈ m.groups.toList, m.outline.group p.1 = some p.2.cell := fun p hp =>
    outline_group_of (Std.TreeMap.mem_toList_iff_getElem?_eq_some.1 hp)
  have hkeys : m.exprs.keys.Nodup := Std.TreeMap.nodup_keys
  refine (List.perm_ext_iff_of_nodup ?_ hkeys).2 fun e => ?_
  · refine List.pairwise_flatten.2 ⟨fun es hes => ?_, ?_⟩
    · obtain ⟨p, hp, rfl⟩ := List.mem_map.1 hes
      exact hs.places.nodup p.1 _ (hgroup p hp)
    · rw [List.pairwise_map]
      refine Std.TreeMap.distinct_keys_toList.imp_of_mem fun {p q} hp hq hpq => ?_
      rintro e he _ he' rfl
      obtain ⟨x, hx⟩ := (hs.places.members p.1 _ (hgroup p hp) e).1 he
      obtain ⟨y, hy⟩ := (hs.places.members q.1 _ (hgroup q hq) e).1 he'
      rw [hx] at hy
      have hpg : p.1 = q.1 := by simpa using congrArg (Option.map Prod.snd) hy
      exact hpq (by rw [hpg]; exact Std.ReflOrd.compare_self)
  · simp only [List.mem_flatten, List.mem_map, Std.TreeMap.mem_keys]
    constructor
    · rintro ⟨_, ⟨p, hp, rfl⟩, he⟩
      obtain ⟨x, hx⟩ := (hs.places.members p.1 _ (hgroup p hp) e).1 he
      rw [Std.TreeMap.mem_iff_isSome_getElem?, ← Option.isSome_map (f := Entry.place)]
      rw [outline_entry] at hx
      rw [hx]; rfl
    · intro he
      obtain ⟨entry, hentry⟩ := Option.isSome_iff_exists.1 (Std.TreeMap.mem_iff_isSome_getElem?.1 he)
      have hx := outline_entry_of hentry
      obtain ⟨group, hg⟩ := Option.isSome_iff_exists.1 (Std.TreeMap.mem_iff_isSome_getElem?.1
        ((m.outline_group_isSome _).1 (hs.places.home e _ _ hx)))
      refine ⟨group.members, ⟨(entry.group, group), ?_, rfl⟩, ?_⟩
      · exact Std.TreeMap.mem_toList_iff_getElem?_eq_some.2 hg
      · exact (hs.places.members _ _ (outline_group_of hg) e).2 ⟨_, hx⟩

theorem memberCount_eq (m : Memo Op Q) :
    m.memberCount = (m.groups.toList.map fun p => p.2.members).flatten.length := by
  have hfold : ∀ (gs : List Group) (n : Nat),
      gs.foldl (fun n group => n + group.members.length) n
        = n + (gs.map Group.members).flatten.length := by
    intro gs
    induction gs with
    | nil => intro n; rfl
    | cons g gs ih =>
      intro n
      rw [List.foldl_cons, ih, List.map_cons, List.flatten_cons, List.length_append]
      omega
  rw [memberCount, Tables.values_eq_map_toList, hfold, List.map_map, Nat.zero_add]
  rfl

/-- Where merges may be pending, a group can be empty. -/
theorem agrees_of_tidy [DecidableEq Op] (ht : m.outline.Tidy) (hc : m.Counted) : m.Agrees := by
  have hs := ht.sound
  have hi := ht.indexed
  refine ⟨fun e entry => ⟨findExpr?_of_live hs.places, fun hf => (findExpr?_eq_some hf).1⟩,
    fun e entry he r hr => ?_, fun g group hg e => ?_, fun g group hg => ⟨?_, fun e => ?_⟩,
    fun e entry he => ?_, fun s sub hsub => ?_, fun g group hg p hp => ?_, fun g => ?_,
    hc.parts_eq, ?_⟩
  · obtain ⟨c, hc, p, hp, hsame⟩ := ht.ready e _ _ (outline_entry_of he) r hr
    obtain ⟨group, hg, rfl⟩ := Option.map_eq_some_iff.1 hc
    refine ⟨group, hg, ?_⟩
    cases hsub : group.sub? r.traits with
    | none => exact absurd hsame (Group.sub?_eq_none hsub p hp)
    | some s => exact ⟨s, rfl⟩
  · have hp := hs.places.parents g _ (outline_group_of hg) e
    rw [show group.cell.parents e ↔ e ∈ group.parents from Iff.rfl] at hp
    rw [hp]
    constructor
    · rintro ⟨x, k, hx, r, hr, hrg⟩
      obtain ⟨entry, he, hpl⟩ := Option.map_eq_some_iff.1 hx
      cases hpl
      refine ⟨entry, he, Expr.reads_iff.2 ⟨r, hr, ?_⟩⟩
      rw [← hrg, ht.reduce_input hx hr]
    · rintro ⟨entry, he, hrd⟩
      obtain ⟨r, hr, hrg⟩ := Expr.reads_iff.1 hrd
      have hx := outline_entry_of he
      exact ⟨entry.expr, entry.group, hx, r, hr, by rw [ht.reduce_input hx hr, hrg]⟩
  · exact hs.places.nodup g _ (outline_group_of hg)
  · have hmem := hs.places.members g _ (outline_group_of hg) e
    rw [show e ∈ group.cell.members ↔ e ∈ group.members from Iff.rfl] at hmem
    rw [hmem]
    constructor
    · rintro ⟨x, hx⟩
      obtain ⟨entry, he, hpl⟩ := Option.map_eq_some_iff.1 hx
      cases hpl
      exact ⟨entry, he, rfl⟩
    · rintro ⟨entry, he, rfl⟩
      exact ⟨entry.expr, outline_entry_of he⟩
  · exact (m.outline_group_isSome _).1 (hs.places.home e _ _ (outline_entry_of he))
  · obtain ⟨c, hc, hmem⟩ := (hi.filed s sub.ref (by rw [outline_sub, hsub]; rfl)).resolve_left id
    obtain ⟨group, hg, rfl⟩ := Option.map_eq_some_iff.1 hc
    exact ⟨group, hg, sub?_of_listed hi hg hmem⟩
  · have hsub := hi.listed g _ (outline_group_of hg) p hp
    obtain ⟨sub, hsub, href⟩ := Option.map_eq_some_iff.1 hsub
    obtain ⟨hsg, hst⟩ := SubGroupRef.mk.inj href
    exact ⟨sub, hsub, hsg, hst⟩
  · rw [← outline_group_isSome]
    exact hs.names.groups.live_iff g
  · rw [memberCount_eq, (members_perm hs).length_eq, Std.TreeMap.length_keys]
    rfl

theorem Orderly.intact [DecidableEq Op] (h : m.Orderly) : m.Intact := by
  have ha := agrees_of_tidy h.ordered.tidy h.ordered.counted
  exact ⟨ha.found, ha.inputs, ha.readers, fun g group hg => ⟨h.filled g _ (outline_group_of hg), ha.members g group hg⟩,
    ha.homes, ha.subGroups, ha.listed, ha.names, ha.groupCount, ha.exprCount⟩

end Orderly

/-! ## What the check of integrity says -/

section Verify

variable [Operator Op] {m : Memo Op Q}

theorem demand_eq_ok_iff {c : Bool} {e : Error} : demand c e = .ok () ↔ c = true := by
  cases c <;> simp [demand]

/-- In tables that agree every expression passes. -/
theorem Agrees.verifyExpr (h : m.Agrees) {e : ExprId} {entry : Entry Op Q}
    (he : m.exprs[e]? = some entry) : m.verifyExpr e entry = .ok () := by
  refine bind_eq_ok_iff.2 ⟨demand_eq_ok_iff.2 ?_, forM_eq_ok_iff.2 fun r hr => ?_⟩
  · rw [(h.found e entry).1 he]
    simp
  · obtain ⟨group, hg, s, hs⟩ := h.inputs e entry he r hr
    simp only [verifyInput, hg]
    refine bind_eq_ok_iff.2 ⟨demand_eq_ok_iff.2 (by rw [hs]; rfl), demand_eq_ok_iff.2 ?_⟩
    rw [Std.TreeSet.contains_iff_mem, h.readers r.group group hg]
    exact ⟨entry, he, Expr.reads_iff.2 ⟨r, hr, rfl⟩⟩

/-- In tables that agree a sub group passes unless its winner is not among the members. -/
theorem Agrees.verifySubGroup (h : m.Agrees) {g : GroupId} {group : Group}
    (hg : m.groups[g]? = some group) {p : TraitSet × SubGroupId} (hp : p ∈ group.subGroups) :
    ∃ sub, m.subGroups[p.2]? = some sub ∧ sub.group = g ∧
      m.verifySubGroup g group p.2 = match sub.winner with
        | none => .ok ()
        | some w => demand (group.members.contains w.expr) (.internal (.foreignWinner w.expr p.2 g)) := by
  obtain ⟨sub, hsub, hsg, hst⟩ := h.listed g group hg p hp
  refine ⟨sub, hsub, hsg, ?_⟩
  obtain ⟨group', hg', hidx⟩ := h.subGroups p.2 sub hsub
  rw [hsg, hg] at hg'
  cases hg'
  simp only [Memo.verifySubGroup, liveSubGroup, hsub]
  simp only [bind, Except.bind, hsg, hidx, demand]
  simp
  cases sub.winner <;> rfl

/-- In tables that agree a group passes if it is not empty and its sub groups pass. -/
theorem Agrees.verifyGroup (h : m.Agrees) {g : GroupId} {group : Group} (hg : m.groups[g]? = some group) :
    m.verifyGroup g group = (do
      demand (!group.members.isEmpty) (.internal (.emptyGroup g))
      (group.subGroups.map Prod.snd).forM (m.verifySubGroup g group)) := by
  have hmem : g ∈ m.groups := by rw [Std.TreeMap.mem_iff_isSome_getElem?, hg]; rfl
  obtain ⟨-, hm⟩ := h.members g group hg
  have h₁ : demand (m.groupAlias.find? g == some g) (.internal (.redirectedGroup g)) = .ok () :=
    demand_eq_ok_iff.2 (by rw [(h.names g).1 hmem]; simp)
  have h₃ : group.members.forM (fun e =>
      demand ((m.exprs[e]?).map Entry.group == some g) (.internal (.misplacedMember e g))) = .ok () := by
    refine forM_eq_ok_iff.2 fun e he => demand_eq_ok_iff.2 ?_
    obtain ⟨entry, hentry, rfl⟩ := (hm e).1 he
    rw [hentry]
    simp
  have h₄ : group.parents.toList.forM (m.verifyParent g) = .ok () := by
    refine forM_eq_ok_iff.2 fun e he => ?_
    obtain ⟨entry, hentry, hr⟩ := (h.readers g group hg e).1 (Std.TreeSet.mem_toList.1 he)
    simp only [verifyParent, hentry]
    exact demand_eq_ok_iff.2 hr
  rw [Memo.verifyGroup, h₁, h₃, h₄]
  rfl

/-- In tables that agree everything passes but the groups. -/
theorem Agrees.verify_eq (h : m.Agrees) :
    m.verify = m.groups.toList.forM fun p => m.verifyGroup p.1 p.2 := by
  have h₁ : m.exprs.toList.forM (fun p => m.verifyExpr p.1 p.2) = .ok () :=
    forM_eq_ok_iff.2 fun p hp => h.verifyExpr (Std.TreeMap.mem_toList_iff_getElem?_eq_some.1 hp)
  have h₂ : demand (m.groupAlias.parts = m.groups.size)
      (.internal (.groupCount m.groups.size m.groupAlias.parts)) = .ok () :=
    demand_eq_ok_iff.2 (decide_eq_true h.groupCount)
  have h₃ : demand (m.memberCount = m.size) (.internal (.exprCount m.memberCount m.size)) = .ok () :=
    demand_eq_ok_iff.2 (decide_eq_true h.exprCount)
  rw [Memo.verify, h₁, h₂, h₃]
  show (m.groups.toList.forM (fun p => m.verifyGroup p.1 p.2) >>= fun _ => .ok ()) = _
  cases m.groups.toList.forM fun p => m.verifyGroup p.1 p.2 <;> rfl

/-- Tables that agree pass if and only if no group is empty and every winner is among the members of its group. -/
theorem Agrees.verify_eq_ok_iff (h : m.Agrees) : m.verify = .ok () ↔
    (∀ (g : GroupId) (group : Group), m.groups[g]? = some group → group.members ≠ []) ∧
    ∀ s sub w, m.Wins s sub w → ∀ group, m.groups[sub.group]? = some group → w.expr ∈ group.members := by
  rw [h.verify_eq, forM_eq_ok_iff]
  constructor
  · intro hall
    have hpass : ∀ (g : GroupId) (group : Group), m.groups[g]? = some group → group.members ≠ [] ∧
        ∀ s ∈ group.subGroups.map Prod.snd, m.verifySubGroup g group s = .ok () := by
      intro g group hg
      have hv := hall (g, group) (Std.TreeMap.mem_toList_iff_getElem?_eq_some.2 hg)
      rw [h.verifyGroup hg, bind_eq_ok_iff, demand_eq_ok_iff, forM_eq_ok_iff] at hv
      refine ⟨fun hnil => ?_, hv.2⟩
      rw [hnil] at hv
      cases hv.1
    refine ⟨fun g group hg => (hpass g group hg).1, fun s sub w ⟨hs, hw⟩ group hg => ?_⟩
    obtain ⟨group', hg', hidx⟩ := h.subGroups s sub hs
    rw [hg] at hg'
    cases hg'
    obtain ⟨p, hp, -, rfl⟩ := Group.sub?_eq_some hidx
    have hp : p ∈ group.subGroups := hp
    have hvs := (hpass _ group hg).2 p.2 (List.mem_map_of_mem hp)
    obtain ⟨sub', hsub', -, heq⟩ := h.verifySubGroup hg hp
    rw [hs] at hsub'
    cases hsub'
    rw [heq, hw] at hvs
    exact List.contains_iff_mem.1 (demand_eq_ok_iff.1 hvs)
  · rintro ⟨hfilled, hall⟩ p hp
    have hg := Std.TreeMap.mem_toList_iff_getElem?_eq_some.1 hp
    rw [h.verifyGroup hg]
    refine bind_eq_ok_iff.2 ⟨demand_eq_ok_iff.2 ?_, forM_eq_ok_iff.2 fun s hs => ?_⟩
    · have hne := hfilled p.1 p.2 hg
      cases hm : p.2.members with
      | nil => exact absurd hm hne
      | cons e es => rfl
    · obtain ⟨q, hq, rfl⟩ := List.mem_map.1 hs
      obtain ⟨sub, hsub, hsg, hv⟩ := h.verifySubGroup hg hq
      rw [hv]
      split
      · rfl
      · next w hwin =>
        exact demand_eq_ok_iff.2 (List.contains_iff_mem.2 (hall _ _ w ⟨hsub, hwin⟩ _ (hsg ▸ hg)))

/-- All that the check can complain of in tables that agree is an empty group, or a winner that is not among the
members of its group. -/
theorem Agrees.verify_eq_error (h : m.Agrees) {f : Failure} (hf : m.verify = .error f) :
    (∃ g group, m.groups[g]? = some group ∧ group.members = [] ∧ f = .error (.internal (.emptyGroup g))) ∨
    ∃ s sub w group, m.Wins s sub w ∧ m.groups[sub.group]? = some group ∧ w.expr ∉ group.members ∧
      f = .error (.internal (.foreignWinner w.expr s sub.group)) := by
  rw [h.verify_eq] at hf
  obtain ⟨p, hp, hf⟩ := forM_eq_error hf
  have hg := Std.TreeMap.mem_toList_iff_getElem?_eq_some.1 hp
  rw [h.verifyGroup hg] at hf
  obtain hf | ⟨_, -, hf⟩ := bind_eq_error hf
  · refine .inl ⟨p.1, p.2, hg, ?_, ?_⟩
    all_goals
      unfold demand at hf
      split at hf
      · cases hf
    · next hne => simpa using hne
    · cases hf
      rfl
  · obtain ⟨s, hs, hf⟩ := forM_eq_error hf
    obtain ⟨q, hq, rfl⟩ := List.mem_map.1 hs
    obtain ⟨sub, hsub, hsg, hv⟩ := h.verifySubGroup hg hq
    rw [hv] at hf
    split at hf
    · cases hf
    · next w hw =>
      refine .inr ⟨q.2, sub, w, p.2, ⟨hsub, hw⟩, hsg ▸ hg, fun hmem => ?_, ?_⟩
      · rw [demand_eq_ok_iff.2 (List.contains_iff_mem.2 hmem)] at hf
        cases hf
      · unfold demand at hf
        split at hf
        · cases hf
        · cases hf
          rw [hsg]

/-- Intact tables pass if and only if every winner is among the members of its group. -/
theorem Intact.verify_eq_ok_iff (h : m.Intact) : m.verify = .ok () ↔ ∀ s sub w, m.Wins s sub w →
    ∀ group, m.groups[sub.group]? = some group → w.expr ∈ group.members :=
  h.agrees.verify_eq_ok_iff.trans ⟨fun hall => hall.2, fun hall => ⟨fun g group hg => (h.members g group hg).1, hall⟩⟩

/-- All that the check can complain of in intact tables is a winner that is not among the members of
its group. -/
theorem Intact.verify_eq_error (h : m.Intact) {f : Failure} (hf : m.verify = .error f) :
    ∃ s sub w group, m.Wins s sub w ∧ m.groups[sub.group]? = some group ∧ w.expr ∉ group.members ∧
      f = .error (.internal (.foreignWinner w.expr s sub.group)) := by
  rcases h.agrees.verify_eq_error hf with ⟨g, group, hg, hnil, -⟩ | hwinner
  · exact absurd hnil (h.members g group hg).1
  · exact hwinner

end Verify

/-! ### A winner that is left behind

Three groups hold a physical filter each, and the one of the first group has won. When the tables at the
bottom turn out to be one, the groups that the filters read merge as well. The winner is then dropped for
the filter of the second group, and that one for the filter of the third, all before the first two groups
are merged. -/

section SmallHost

open SmallHost Relational

/-- A node with one input. -/
def reading (op : Kind) (data : Option Value) (g : GroupId) : PlanNode Kind :=
  bare op data [.group ⟨g, orders.any⟩]

/-- Two tables, logical filters over them, and a physical filter over each of three groups. -/
def stacked : Memo Kind Nat :=
  (empty orders [] .keepIncumbent : Memo Kind Nat)
    |>.after (add (bare .scan (some (.i64 1)) []))
    |>.after (add (bare .scan (some (.i64 2)) []))
    |>.after (add (reading .filter (some (.i64 2)) ⟨1⟩))
    |>.after (add (reading .filter (some (.i64 1)) ⟨1⟩))
    |>.after (add (reading .filter (some (.i64 1)) ⟨3⟩))
    |>.after (addTo (reading .filter (some (.i64 2)) ⟨3⟩).toPlan ⟨8⟩)
    |>.after (add (reading .physicalFilter none ⟨11⟩))
    |>.after (add (reading .physicalFilter none ⟨8⟩))
    |>.after (add (reading .physicalFilter none ⟨6⟩))
    |>.after (ensureSubGroup ⟨⟨15⟩, orders.any⟩ true)
    |>.after (Update.step (recordPrice ⟨14⟩ ⟨⟨[1]⟩, 1⟩))

/-- The tables turn out to be one. -/
def drifted : Memo Kind Nat := (mergeRounds 6 stacked [(⟨1⟩, ⟨3⟩)]).getD stacked

theorem stacked_reached : Reached stacked := by
  have hempty : Reached (empty orders [] .keepIncumbent : Memo Kind Nat) := .empty _ _ _
  refine Reached.price ?_ _ _
  exact (((((((((hempty.after fun _ _ => .add).after fun _ _ => .add).after fun _ _ => .add).after
    fun _ _ => .add).after fun _ _ => .add).after fun _ _ => .addTo).after fun _ _ => .add).after
    fun _ _ => .add).after fun _ _ => .add).after fun _ _ => .ensureSubGroup

theorem drifted_reached : Reached drifted := stacked_reached.merged 6 ⟨1⟩ ⟨3⟩

set_option maxRecDepth 100000 in
theorem verify_drifted : (drifted.size, drifted.verify)
    = (5, .error (.error (.internal (.foreignWinner ⟨17⟩ ⟨22⟩ ⟨21⟩)))) := by
  cbv

end SmallHost

/-! ## Reached memos -/

section Reached

/-- The memo with every winner forgotten. -/
def uncrowned (m : Memo Op Q) : Memo Op Q :=
  { m with subGroups := m.subGroups.map fun _ sub => { sub with winner := none } }

theorem getElem?_uncrowned (m : Memo Op Q) (s : SubGroupId) : m.uncrowned.subGroups[s]?
    = (m.subGroups[s]?).map fun sub => ({ sub with winner := none } : SubGroup Q) :=
  Std.TreeMap.getElem?_map

theorem Intact.uncrowned [DecidableEq Op] {m : Memo Op Q} (h : m.Intact) : m.uncrowned.Intact := by
  refine ⟨h.found, h.inputs, h.readers, h.members, h.homes, fun s sub hs => ?_,
    fun g group hg p hp => ?_, h.names, h.groupCount, h.exprCount⟩
  · rw [getElem?_uncrowned] at hs
    obtain ⟨sub₀, hs₀, rfl⟩ := Option.map_eq_some_iff.1 hs
    exact h.subGroups s sub₀ hs₀
  · obtain ⟨sub, hs, hsg, hst⟩ := h.listed g group hg p hp
    exact ⟨({ sub with winner := none } : SubGroup Q), by rw [getElem?_uncrowned, hs]; rfl, hsg, hst⟩

/-- The name of a winner leads to a member of the group, and is one itself as long as it is live. -/
theorem Orderly.winner [DecidableEq Op] {m : Memo Op Q} (h : m.Orderly) {s : SubGroupId}
    {sub : SubGroup Q} {w : Winner Q} (hw : m.Wins s sub w) :
    ∃ group, m.groups[sub.group]? = some group ∧ m.reduceExpr w.expr ∈ group.members ∧
      (w.expr ∈ group.members ↔ w.expr ∈ m.exprs) := by
  obtain ⟨hs, hw⟩ := hw
  have hsound := h.ordered.tidy.sound
  obtain ⟨x, k, hx, hl⟩ := h.ordered.crowned s sub.group w.expr (by
    rw [crowns, hs, Option.map_some, SubGroup.crown, hw]; rfl)
  obtain ⟨group, hg, -⟩ := h.intact.subGroups s sub hs
  have hgroup := outline_group_of hg
  have hk : k = sub.group := by
    have hr := hsound.names.linked_nil_iff.1 hl
    rwa [hsound.reduce_home hx, hsound.names.reduce_of_live (by rw [hgroup]; rfl)] at hr
  subst hk
  have hmem : m.reduceExpr w.expr ∈ group.members :=
    (hsound.places.members _ _ hgroup _).2 ⟨x, hx⟩
  refine ⟨group, hg, hmem, fun hw' => ?_, fun hlive => ?_⟩
  · obtain ⟨entry, he, -⟩ := ((h.intact.members _ group hg).2.2 _).1 hw'
    rw [Std.TreeMap.mem_iff_isSome_getElem?, he]; rfl
  · have hr : m.reduceExpr w.expr = w.expr := hsound.names.reduceExpr_of_live (by
      rw [outline_entry, Option.isSome_map]
      exact Std.TreeMap.mem_iff_isSome_getElem?.1 hlive)
    rwa [hr] at hmem

variable [Operator Op] [Quantity Q] {m : Memo Op Q}

/-- In a reached memo the name of every winner leads to a member of its group. The check of integrity
fails exactly if some winner's expression was dropped, and then it names one such. -/
theorem Reached.winner_names (h : Reached m) :
    (∀ s sub w, m.Wins s sub w → ∃ group, m.groups[sub.group]? = some group ∧
      m.reduceExpr w.expr ∈ group.members ∧ (w.expr ∈ group.members ↔ w.expr ∈ m.exprs)) ∧
    (m.verify = .ok () ↔ ∀ s sub w, m.Wins s sub w → w.expr ∈ m.exprs) ∧
    ∀ f, m.verify = .error f → ∃ s sub w, m.Wins s sub w ∧ w.expr ∉ m.exprs ∧
      f = .error (.internal (.foreignWinner w.expr s sub.group)) := by
  have ho := h.orderly
  have hi := ho.intact
  refine ⟨fun s sub w hw => ho.winner hw, ?_, fun f hf => ?_⟩
  · rw [hi.verify_eq_ok_iff]
    refine forall_congr' fun s => forall_congr' fun sub => forall_congr' fun w =>
      forall_congr' fun hw => ?_
    obtain ⟨group, hg, -, hiff⟩ := ho.winner hw
    refine ⟨fun hall => hiff.1 (hall group hg), fun hlive group' hg' => ?_⟩
    rw [hg] at hg'
    cases hg'
    exact hiff.2 hlive
  · obtain ⟨s, sub, w, group, hw, hg, hno, hfe⟩ := hi.verify_eq_error hf
    obtain ⟨group', hg', -, hiff⟩ := ho.winner hw
    rw [hg] at hg'
    cases hg'
    exact ⟨s, sub, w, hw, mt hiff.2 hno, hfe⟩

/-- A winner can be left with the name of an expression that was dropped. Its name leads to the filter that
it was dropped for in the end. -/
theorem drifted_winner : Reached drifted ∧
    drifted.verify = .error (.error (.internal (.foreignWinner ⟨17⟩ ⟨22⟩ ⟨21⟩))) ∧
    ∃ sub w group, drifted.Wins ⟨22⟩ sub w ∧ drifted.groups[sub.group]? = some group ∧
      w.expr ∉ group.members ∧ drifted.reduceExpr w.expr ∈ group.members := by
  obtain ⟨hnames, -, hfails⟩ := Reached.winner_names drifted_reached
  have hverify := (Prod.mk.inj verify_drifted).2
  obtain ⟨s, sub, w, hw, hgone, hfailure⟩ := hfails _ hverify
  obtain ⟨group, hgroup, hmember, hlive⟩ := hnames s sub w hw
  simp only [Failure.error.injEq, Error.internal.injEq, Inconsistency.foreignWinner.injEq] at hfailure
  obtain ⟨-, rfl, -⟩ := hfailure
  exact ⟨drifted_reached, hverify, sub, w, group, hw, hgroup, mt hlive.1 hgone, hmember⟩

end Reached

end Memo

end PlanSearch
