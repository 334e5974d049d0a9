import PlanSearch.Proofs.Matching.Images

/-!
# Plans in groups

A group contains a plan if the plan comes to the group under the live names of the memo: every operation of it has its
expression there, and all that it reads is required. A plan that joins a group is contained in it from then on. So is,
after changes, the plan with its groups under their new names.

    m.Ordered [] → addTo p g m = .ok e m' → m'.Contains p (m'.reduceGroup g)                     (addTo_contains)
    m.Onward m' → m.Contains p g → m'.Contains p (m'.reduceGroup g)                               (Contains.later)
-/

namespace PlanSearch

open Outline

namespace Memo

variable {Op Q : Type} {m m' : Memo Op Q} {rows : RowType → RowType → Prop} {v : GroupId → Option GroupId}

/-- The plan is there in the group, whatever its row types. -/
def Contains (m : Memo Op Q) (p : Plan Op) (g : GroupId) : Prop :=
  ∃ r, m.Hosts (fun _ _ => True) (fun k => some (m.outline.reduce k)) p r ∧ r.group = g

/-- What a group contains, it contains with its groups under other names that they lead to. -/
theorem Contains.recast {leads : GroupId → GroupId → Prop}
    (hlead : ∀ a k, leads a k → m.outline.reduce k = m.outline.reduce a) {p p' : Plan Op} {g : GroupId}
    (h : m.Contains p g) (hp : p.Recast rows leads p') : m.Contains p' g := by
  obtain ⟨r, hhosts, hr⟩ := h
  obtain ⟨r', hhosts', hsame⟩ := hhosts.recast (fun _ _ _ _ _ => trivial)
    (fun a k hk => congrArg some (hlead a k hk)) hp
  have hcanon : r.canon = r'.canon := hsame
  have hgroup : r.canon.group = r'.canon.group := congrArg SubGroupRef.group hcanon
  exact ⟨r', hhosts', hgroup.symm.trans hr⟩

/-! ## Row types -/

mutual

/-- What is hosted under the live names of the memo stands there. -/
theorem Hosts.standing {p : Plan Op} {r : SubGroupRef} :
    m.Hosts rows (fun k => some (m.outline.reduce k)) p r → m.outline.Stands p r
  | .ref r g hg => Option.some.inj hg ▸ .ref r
  | .node below known congruent _ _ => .node below.standing known congruent

theorem HostsAll.standing {ps : List (Plan Op)} {rs : List SubGroupRef} :
    m.HostsAll rows (fun k => some (m.outline.reduce k)) ps rs → m.outline.StandAll ps rs
  | .nil => .nil
  | .cons first _ rest => .cons first.standing rest.standing

end

mutual

/-- Where all operations of a plan have the row types of their groups, it is hosted with its row types. -/
theorem Hosts.typed {p : Plan Op} {r : SubGroupRef}
    (htyped : ∀ head inputs e g c, p.Has head inputs → m.outline.Holds head inputs e g → m.outline.group g = some c →
      rows head.rowType c.rowType) :
    m.Hosts (fun _ _ => True) (fun k => some (m.outline.reduce k)) p r →
      m.Hosts rows (fun k => some (m.outline.reduce k)) p r
  | .ref r g hg => .ref r g hg
  | .node below known congruent home _ =>
    .node (below.typed fun _ hq head inputs e g c hp => htyped head inputs e g c (.inside hq hp)) known congruent home
      (htyped _ _ _ _ _ (.root _ _) ⟨_, _, below.standing, known, congruent⟩ home)

theorem HostsAll.typed {ps : List (Plan Op)} {rs : List SubGroupRef}
    (htyped : ∀ p ∈ ps, ∀ head inputs e g c, p.Has head inputs → m.outline.Holds head inputs e g →
      m.outline.group g = some c → rows head.rowType c.rowType) :
    m.HostsAll (fun _ _ => True) (fun k => some (m.outline.reduce k)) ps rs →
      m.HostsAll rows (fun k => some (m.outline.reduce k)) ps rs
  | .nil => .nil
  | .cons first required rest => .cons (first.typed (htyped _ List.mem_cons_self)) required
      (rest.typed fun p hp => htyped p (List.mem_cons_of_mem _ hp))

end

/-! ## Seats -/

mutual

/-- Plans that have their seats are there. -/
theorem Seats.hosts (ht : m.outline.Tidy) {p : Plan Op} {r : SubGroupRef} :
    m.Seats p r → m.Hosts (fun _ _ => True) (fun k => some (m.outline.reduce k)) p r
  | .ref r _ => .ref r _ rfl
  | .node _ below known congruent => by
    obtain ⟨c, hc⟩ := Option.isSome_iff_exists.1 (ht.sound.places.home _ _ _ known)
    exact .node (below.hosts ht) known congruent hc trivial

theorem SeatsAll.hosts (ht : m.outline.Tidy) {ps : List (Plan Op)} {rs : List SubGroupRef} :
    m.SeatsAll ps rs → m.HostsAll (fun _ _ => True) (fun k => some (m.outline.reduce k)) ps rs
  | .nil => .nil
  | .cons first required rest => .cons (first.hosts ht) required (rest.hosts ht)

end

theorem Seated.contains (ht : m.outline.Tidy) {n : PlanNode Op} {e : ExprId} {g : GroupId} (h : m.Seated n e g) :
    m.Contains n.toPlan g := by
  obtain ⟨hfits, refs, y, hbelow, hy, hc⟩ := h
  exact ⟨⟨g, n.head.traits⟩, Seats.hosts ht (.node hfits hbelow hy hc), rfl⟩

variable [Quantity Q]

/-! ## Over time -/

/-- A group keeps its row type under its new name. -/
theorem Onward.group_eq (h : m.Onward m') (ht : m.outline.Tidy) {g : GroupId} {c : Cell}
    (hc : m.outline.group g = some c) :
    ∃ c', m'.outline.group (m'.outline.reduce g) = some c' ∧ c'.rowType = c.rowType := by
  have hlive : (m.outline.group g).isSome := by
    rw [hc]
    rfl
  have hrow : m.outline.rowType? g = some c.rowType := by
    unfold Outline.rowType?
    rw [ht.sound.names.reduce_of_live hlive, hc]
    rfl
  rw [← rowType?_of_edits ht h.edits g (ht.sound.names.named_of_live hlive)] at hrow
  exact Option.map_eq_some_iff.1 hrow

mutual

/-- What hosts a plan goes on hosting it, by whatever name. -/
theorem Hosts.later (h : m.Onward m') (ht : m.outline.Tidy) {p : Plan Op} {r : SubGroupRef} :
    m.Hosts rows v p r → m'.Hosts rows (fun k => (v k).map m'.outline.reduce) p (m'.outline.reduceRef r)
  | .ref r g hg => .ref r _ (by rw [hg]; rfl)
  | .node below known congruent home typed => by
    obtain ⟨y', hy', hc⟩ := (h.evolves ht).congruent (h.tidy ht) known congruent
    obtain ⟨c', hc', hrow⟩ := h.group_eq ht home
    exact .node (below.later h ht) hy' hc hc' (hrow ▸ typed)

theorem HostsAll.later (h : m.Onward m') (ht : m.outline.Tidy) {ps : List (Plan Op)} {rs : List SubGroupRef} :
    m.HostsAll rows v ps rs →
      m'.HostsAll rows (fun k => (v k).map m'.outline.reduce) ps (rs.map m'.outline.reduceRef)
  | .nil => .nil
  | .cons first required rest => .cons (first.later h ht) (required.later h ht) (rest.later h ht)

end

theorem Contains.later (h : m.Onward m') (ht : m.outline.Tidy) {p : Plan Op} {g : GroupId} (hp : m.Contains p g) :
    m'.Contains p (m'.outline.reduce g) := by
  obtain ⟨r, hhosts, rfl⟩ := hp
  have hlater := hhosts.later h ht
  have hname : (fun k => (some (m.outline.reduce k)).map m'.outline.reduce) = fun k => some (m'.outline.reduce k) :=
    funext fun k => congrArg some ((h.evolves ht).group k)
  rw [hname] at hlater
  exact ⟨_, hlater, rfl⟩

/-! ## Joining -/

variable [Operator Op]

/-- A group contains what joined it. -/
theorem addTo_contains {p : Plan Op} {g : GroupId} {e : Option ExprId} (hm : m.Ordered [])
    (ok : addTo p g m = .ok e m') : m'.Contains p (m'.outline.reduce g) := by
  have ht' := (addTo_joins hm ok).2.tidy
  cases p with
  | group r =>
    obtain ⟨h₁, -⟩ := addTo_group_eq_ok ok
    have hev := (merge_merges hm h₁).1.evolves hm.tidy
    have hsame := ht'.sound.names.linked_nil_iff.1 (hev.pairs _ (List.mem_singleton_self _))
    refine ⟨_, .ref r _ rfl, ?_⟩
    show m'.outline.reduce r.group = m'.outline.reduce g
    rw [← hev.group r.group, ← hev.group g]
    exact hsame.symm
  | node head inputs =>
    have ok' : addNodeTo ⟨head, inputs⟩ g true m = .ok e m' := ok
    cases e with
    | some e => exact (addNodeTo_seated hm ok').contains ht'
    | none =>
      obtain ⟨-, refs, m₁, g', e', -, -, hsome⟩ := addNodeTo_eq_ok ok'
      cases hsome

end Memo

end PlanSearch
