import PlanSearch.Proofs.Optimizer.Errands
import PlanSearch.Proofs.Optimizer.Runs

/-!
# Enforcers

In every state of a run, all that is delivered and required in a group is attended to and no note is open. So where
what a member delivers can be converted into what a sub group requires, the enforcers are members of the group. A
derivation of what the member delivers goes on along them, and so the sub group has a winner. That holds for enforcers
that are physical only: a logical one has no price.

    o.Run → o.Attending .none                                                                        (Run.attending)
    Path s legs t → the legs are harbored and physical → m.Derives tariff ⟨g, s⟩ c → ∃ c, m.Derives tariff ⟨g, t⟩ c
                                                                                              (Memo.derives_path)
    o.Run → … → the chain is held by the group, and the sub group has a winner            (requirements_are_reached)
-/

namespace PlanSearch

open Outline

/-- A live expression that is alike is congruent to a leg over a live group. -/
theorem Outline.Tidy.congruent_of_alike {Op : Type} {o : Outline Op} (ht : o.Tidy) {e : ExprId} {x : Expr Op}
    {g k : GroupId} {l : Leg Op} (hx : o.entry e = some (x, k)) (hg : o.reduce g = g) (h : o.Alike (l.expr g) x) :
    x.Congruent (l.expr g) := by
  have hlive : o.settled x = x := by
    have hinputs : x.inputs.map o.reduceRef = x.inputs := by
      refine (List.map_congr_left fun r hr => ?_).trans (List.map_id _)
      rw [reduceRef, ht.reduce_input hx hr]
      rfl
    rw [settled, hinputs]
  have hleg : o.settled (l.expr g) = l.expr g := by simp [settled, Leg.expr, reduceRef, hg]
  unfold Alike at h
  rw [hlive, hleg] at h
  exact h.symm

/-! ## Derivations along paths -/

namespace Memo

section Derives

variable {Op Q W : Type} [Operator Op] [AddCommMonoid W] {m : Memo Op Q} {tariff : Tariff Op W} {g : GroupId}

/-- What is derived is derived for all that asks for less of the same group. -/
theorem Derives.weaken {s t : TraitSet} {c : W} (h : m.Derives tariff ⟨g, s⟩ c)
    (hm : m.registry.satisfies s t = true) : m.Derives tariff ⟨g, t⟩ c := by
  cases h with
  | root known member physical meets arity inputs =>
    exact .root known member physical (m.registry.satisfies_trans meets hm) arity inputs

/-- A live physical member is at the root of a derivation if all that it reads is derived. -/
theorem derives_member (hf : m.Fitting) {e : ExprId} {x : Expr Op} {costs : List W}
    (hx : m.outline.entry e = some (x, m.outline.reduce g)) (hphysical : Operator.isLogical x.op = false)
    (hinputs : List.Forall₂ (m.Derives tariff) x.inputs costs) :
    m.Derives tariff ⟨g, x.traits⟩ (tariff.fee x + costs.sum) := by
  obtain ⟨entry, hentry, rfl, -⟩ := exists_entry hx
  obtain ⟨hlength, hzip⟩ := List.forall₂_iff_zip.1 hinputs
  exact .root hx rfl hphysical (Registry.satisfies_self (hf.delivered e entry hentry)) hlength fun i c hc => hzip hc

/-- From what is derived, a path of physical legs that the group harbors leads to more that is. -/
theorem derives_path (hf : m.Fitting) {s t : TraitSet} {legs : List (Leg Op)} (hp : Path s legs t)
    (hl : ∀ l ∈ legs, m.outline.Harbors g (l.expr g) ∧ Operator.isLogical l.op = false) :
    ∀ {c : W}, m.Derives tariff ⟨g, s⟩ c → ∃ c, m.Derives tariff ⟨g, t⟩ c := by
  induction hp with
  | nil s => exact fun h => ⟨_, h⟩
  | @cons s t leg legs starts _ ih =>
    intro c h
    obtain ⟨⟨e, x, hx, halike⟩, hphysical⟩ := hl leg List.mem_cons_self
    -- what the leg reads is what is derived already
    have hinputs : List.Forall₂ (m.Derives tariff) x.inputs [c] := by
      refine (forall₂_comp.1 ⟨_, halike.akin.flip, .cons (starts ▸ h) .nil⟩).imp fun i c hic => ?_
      obtain ⟨j, hakin, hderives⟩ := hic
      exact hderives.congr hakin.1 hakin.2
    have hdelivers := derives_member hf hx (halike.op_eq ▸ hphysical) hinputs
    exact ih (fun l hmem => hl l (List.mem_cons_of_mem _ hmem))
      (hdelivers.congr (congrArg Expr.traits halike).symm rfl)

end Derives

/-! ## Winners below winners -/

section Settled

variable {Op Q W : Type} [Operator Op] [Quantity Q] [AddCommMonoid W] [PartialOrder W] [IsOrderedAddMonoid W]
variable [CanonicallyOrderedAdd W] {m : Memo Op Q} {model : CostModel Op Q} {tariff : Tariff Op W} {worth : Price Q → W}

/-- Whatever an expression with a quote reads has a winner. -/
theorem Settled.backed (h : m.Settled model tariff worth) : m.work.Quoted (Backed model fun _ _ => True) := by
  have hall : ∀ e p, Achieved model tariff worth m.work e p → Backed model (fun _ _ => True) m.work e p := by
    rintro e p ⟨hweight, x, g, costs, hx, -, hinputs, -⟩
    refine ⟨hweight, x, g, hx, fun r hr => ?_⟩
    obtain ⟨vs, hfeeds, -⟩ := h.exists_feeds hx (hinputs.imp fun i c hd => m.derives_work h.tidy.sound hd)
    obtain ⟨v, -, s, hs, hv⟩ := (exists_of_forall₂ hfeeds).1 r hr
    exact ⟨s, v, h.tidy.subOf_iff.1 hs, hv, trivial⟩
  exact ⟨fun s v hv => hall _ _ (h.achieved.wins s v hv), fun e p hp => hall e p (h.achieved.price e p hp)⟩

end Settled

/-! ## What is delivered and what is required -/

section Demand

variable {Op Q : Type} [Operator Op]

/-- The sub group is live and required, and the expression is a live physical member of its group. -/
structure Demand (m : Memo Op Q) (s : SubGroupId) (sub : SubGroup Q) (group : Group) (e : ExprId)
    (entry : Entry Op Q) : Prop where
  asked : m.subGroups[s]? = some sub
  required : sub.required = true
  home : m.groups[sub.group]? = some group
  member : e ∈ group.members
  known : m.exprs[e]? = some entry
  physical : Operator.isLogical entry.expr.op = false

/-- What the expression delivers is converted by this chain of enforcers into what the sub group requires. -/
def ConvertsBy (m : Memo Op Q) (sub : SubGroup Q) (group : Group) (entry : Entry Op Q) (ns : List (PlanNode Op)) :
    Prop :=
  m.registry.convert ⟨sub.group, entry.expr.traits⟩ group.rowType entry.expr.traits sub.traits = .ok (some ns)

/-- The group has a member that is the node, up to the canonical form of values, with references for inputs. -/
def Holds (m : Memo Op Q) (group : Group) (n : PlanNode Op) : Prop :=
  ∃ e ∈ group.members, ∃ entry refs, m.exprs[e]? = some entry ∧ n.inputs = refs.map Plan.group ∧
    entry.expr.Congruent ⟨n.head.op, refs, n.head.data, n.head.traits⟩

variable {m : Memo Op Q} {s : SubGroupId} {sub : SubGroup Q} {group : Group} {e : ExprId} {entry : Entry Op Q}

theorem Demand.sub_eq (h : m.Demand s sub group e entry) : m.outline.sub s = some sub.ref := by
  rw [outline_sub, h.asked]
  rfl

theorem Demand.isRequired (h : m.Demand s sub group e entry) : m.IsRequired s := ⟨sub, h.asked, h.required⟩

theorem Demand.reduce_eq (h : m.Demand s sub group e entry) (ht : m.outline.Tidy) :
    m.outline.reduce sub.group = sub.group :=
  ht.sound.names.reduce_of_live (by rw [outline_group_of h.home]; rfl)

theorem Demand.entry_eq (h : m.Demand s sub group e entry) (ht : m.outline.Tidy) :
    m.outline.entry e = some (entry.expr, sub.group) := by
  obtain ⟨x, hx⟩ := (ht.sound.places.members sub.group group.cell (outline_group_of h.home) e).1 h.member
  have hknown := outline_entry_of h.known
  rw [hknown] at hx
  obtain ⟨-, hgroup⟩ := Prod.mk.inj (Option.some.inj hx)
  rw [hknown, hgroup]

/-- An enforcer over a live group is held by it where the group harbors the leg. -/
theorem Demand.holds (h : m.Demand s sub group e entry) (ht : m.outline.Tidy) {l : Leg Op} {rowType : RowType}
    (hl : m.outline.Harbors sub.group (l.expr sub.group)) : m.Holds group (l.node sub.group rowType) := by
  obtain ⟨e', x, hx, halike⟩ := hl
  obtain ⟨entry', hentry, rfl, -⟩ := exists_entry hx
  have hmember : e' ∈ group.members :=
    (ht.sound.places.members _ group.cell (outline_group_of h.home) e').2 ⟨_, h.reduce_eq ht ▸ hx⟩
  exact ⟨e', hmember, entry', _, hentry, rfl, ht.congruent_of_alike hx (h.reduce_eq ht) halike⟩

end Demand

end Memo

namespace Optimizer

variable {Op Q : Type} [Operator Op] [Quantity Q] {o : Optimizer Op Q}

/-! ## Runs -/

/-- In every state of a run everything is attended to, and no notes are open. -/
theorem Run.attending (h : o.Run) : o.Attending .none ∧ o.memo.changes = .none := by
  refine (h.induct (I := fun o => o.Attending .none ∧ o.memo.changes = .none) (fun o blank untried => ?_)
    (fun o o' hI hu => ⟨hI.1.unmoved hu, hu.memo ▸ hI.2⟩) fun o o₁ o₂ fuel _ hI hstrides ok _ =>
      (hI.1.strides hstrides).settle ok).2
  have hnone := blank.entry_eq_none
  obtain ⟨registry, factRules, tieBreak, hm⟩ := blank.memo
  refine ⟨⟨hm ▸ Memo.orderly_empty _ _ _, hm ▸ Memo.fitting_empty _ _ _, fun e x s r hx => ?_,
    fun k a r hmem => ?_⟩, by rw [hm]; rfl⟩
  · rw [hnone] at hx
    cases hx
  · rw [untried] at hmem
    cases hmem

/-- In every state of a run, a group harbors the routes from what its physical members deliver to what its sub groups
require. -/
theorem Run.harbors (h : o.Run) {e : ExprId} {x : Expr Op} {s : SubGroupId} {r : SubGroupRef}
    (hx : o.memo.outline.entry e = some (x, r.group)) (hphysical : Operator.isLogical x.op = false)
    (hs : o.memo.outline.sub s = some r) (hr : o.memo.IsRequired s) {legs : List (Leg Op)}
    (hlegs : Registry.route r.traits o.memo.registry.kinds 0 x.traits = .ok (some legs)) :
    ∀ l ∈ legs, o.memo.outline.Harbors r.group (l.expr r.group) := by
  obtain ⟨hattending, hchanges⟩ := h.attending
  cases hattending.attends e x s r hx hphysical hs hr with
  | meets meets =>
    rw [Registry.route_eq_nil_of_satisfies meets hlegs]
    exact fun l hl => by cases hl
  | @tried k a c listed same delivers requires =>
    have hhome : o.memo.outline.reduce k = o.memo.outline.reduce r.group := by
      rw [← same, hattending.orderly.ordered.tidy.sound.names.reduce_reduce]
    exact (hattending.converted k a c listed).congr hhome delivers requires legs hlegs
  | noted noted =>
    rw [hchanges] at noted
    exact absurd noted Errands.not_cover_none
  | owed owed => exact absurd owed Errands.not_cover_none

/-- In every state of a run, a physical member with a price is at the root of a derivation of what it delivers. -/
theorem Run.derives (h : o.Run) {e : ExprId} {x : Expr Op} {g : GroupId} {p : Price Q}
    (hx : o.memo.outline.entry e = some (x, o.memo.outline.reduce g)) (hp : o.memo.standings.price e = some p) :
    ∃ c, o.memo.Derives (fun _ _ _ _ => PUnit.unit) ⟨g, x.traits⟩ c := by
  obtain ⟨hphysical, costs, hinputs, -⟩ := h.feasible.priced hx hp
  exact ⟨_, Memo.derives_member h.attending.1.fitting hx hphysical hinputs⟩

/-- In every state of a run, the plan for a sub group is not found only where it has no winner. -/
theorem Run.wins_eq_none (h : o.Run) {r : SubGroupRef} {s : SubGroupId} (hs : o.memo.outline.subOf r = some s)
    {k : GroupId} {traits : TraitSet} (hbest : o.memo.bestPlan r = .error (.error (.planNotFound k traits))) :
    o.memo.standings.wins s = none := by
  rcases Memo.bestPlan_cases h.tidy h.feasible.backed r with ⟨n, hn⟩ | ⟨t, g, hcycle, -⟩ | hnone
  · rw [hbest] at hn
    cases hn
  · rw [hbest] at hcycle
    cases hcycle
  · rw [hs] at hnone
    exact hnone

section Demand

variable {s : SubGroupId} {sub : SubGroup Q} {group : Group} {e : ExprId} {entry : Entry Op Q}

/-- In every state of a run, the enforcers of a conversion are held by the group. -/
theorem Run.holds (h : o.Run) (hd : o.memo.Demand s sub group e entry) {ns : List (PlanNode Op)}
    (hns : o.memo.ConvertsBy sub group entry ns) : ∀ n ∈ ns, o.memo.Holds group n := by
  obtain ⟨legs, hlegs, -, rfl⟩ := Registry.convert_eq_some.1 hns
  intro n hn
  obtain ⟨l, hl, rfl⟩ := List.mem_map.1 hn
  exact hd.holds h.tidy (h.harbors (hd.entry_eq h.tidy) hd.physical hd.sub_eq hd.isRequired hlegs l hl)

/-- In every state of a run, a required sub group has a winner if a member with a price meets it, or is converted by
physical enforcers. -/
theorem Run.wins_of_demand (h : o.Run) (hd : o.memo.Demand s sub group e entry) (hp : entry.price.isSome)
    (hc : o.memo.registry.satisfies entry.expr.traits sub.traits = true ∨
      ∃ ns, o.memo.ConvertsBy sub group entry ns ∧ ∀ n ∈ ns, Operator.isLogical n.head.op = false) :
    sub.winner.isSome := by
  have ht := h.tidy
  have hfitting := h.attending.1.fitting
  obtain ⟨p, hp⟩ := Option.isSome_iff_exists.1 hp
  obtain ⟨c, hderives⟩ := h.derives (g := sub.group) ((hd.reduce_eq ht).symm ▸ hd.entry_eq ht)
    ((Memo.standings_price_of hd.known).trans hp)
  rw [← Memo.standings_wins_of hd.asked, h.feasible.isSome_iff hd.sub_eq]
  rcases hc with hmeets | ⟨ns, hns, hphysical⟩
  · exact ⟨c, hderives.weaken hmeets⟩
  · obtain ⟨legs, hlegs, -, rfl⟩ := Registry.convert_eq_some.1 hns
    obtain ⟨final, hpath, hmeets⟩ :=
      Registry.route_path (hfitting.delivered e entry hd.known) (hfitting.asked s sub hd.asked) hlegs
    obtain ⟨c', hfinal⟩ := Memo.derives_path hfitting hpath (fun l hl =>
      ⟨h.harbors (hd.entry_eq ht) hd.physical hd.sub_eq hd.isRequired hlegs l hl,
        hphysical _ (List.mem_map_of_mem hl)⟩) hderives
    exact ⟨c', hfinal.weaken hmeets⟩

/-- In every state of a run, if what a physical member of a group delivers can be converted into what a sub group of
it requires, the group holds every enforcer of the chain. If the member has a price, and meets the requirement or is
converted by physical enforcers, the sub group has a winner. So if the plan for the sub group is not found, no member
with a price meets the requirement, and every chain from one has a logical enforcer. -/
theorem requirements_are_reached (h : o.Run) (hd : o.memo.Demand s sub group e entry) :
    (∀ ns, o.memo.ConvertsBy sub group entry ns → ∀ n ∈ ns, o.memo.Holds group n) ∧
    (entry.price.isSome → (o.memo.registry.satisfies entry.expr.traits sub.traits = true ∨
      ∃ ns, o.memo.ConvertsBy sub group entry ns ∧ ∀ n ∈ ns, Operator.isLogical n.head.op = false) →
      sub.winner.isSome) ∧
    ∀ k traits, o.memo.bestPlan sub.ref = .error (.error (.planNotFound k traits)) → entry.price.isSome →
      o.memo.registry.satisfies entry.expr.traits sub.traits = false ∧
      ∀ ns, o.memo.ConvertsBy sub group entry ns → ∃ n ∈ ns, Operator.isLogical n.head.op = true := by
  refine ⟨fun ns hns => h.holds hd hns, h.wins_of_demand hd, fun k traits hbest hp => ?_⟩
  have hsub : o.memo.outline.subOf sub.ref = some s :=
    h.tidy.subOf_iff.2 ⟨sub.ref, hd.sub_eq, TraitSet.same_refl _, rfl⟩
  have hnone : sub.winner = none := (Memo.standings_wins_of hd.asked).symm.trans (h.wins_eq_none hsub hbest)
  have hno := mt (h.wins_of_demand hd hp) (by rw [hnone]; exact Bool.false_ne_true)
  rw [not_or, not_exists] at hno
  obtain ⟨hmeets, hchains⟩ := hno
  refine ⟨Bool.not_eq_true _ ▸ hmeets, fun ns hns => ?_⟩
  by_contra hphysical
  refine hchains ns ⟨hns, fun n hn => Bool.not_eq_true _ ▸ fun hlogical => hphysical ⟨n, hn, hlogical⟩⟩

end Demand

section SmallHost

open SmallHost Relational

/-- What there is to see of a demand: whether the sub group is required, whether the expression is a member of its
group, whether that is logical and whether it has a price, and for each operator of the chain if it is logical. -/
def glimpse (m : Memo Kind Nat) (s : SubGroupId) (e : ExprId) : Option (Bool × Bool × Bool × Bool × List Bool) := do
  let sub ← m.subGroups[s]?
  let group ← m.groups[sub.group]?
  let entry ← m.exprs[e]?
  let chain := m.registry.convert ⟨sub.group, entry.expr.traits⟩ group.rowType entry.expr.traits sub.traits
  let ns ← chain.toOption.join
  return (sub.required, group.members.contains e, Operator.isLogical entry.expr.op, entry.price.isSome,
    ns.map fun n => Operator.isLogical n.head.op)

theorem demand_of_glimpse {m : Memo Kind Nat} {s : SubGroupId} {e : ExprId} {ops : List Bool}
    (h : glimpse m s e = some (true, true, false, true, ops)) : ∃ sub group entry ns,
      m.Demand s sub group e entry ∧ entry.price.isSome ∧ m.ConvertsBy sub group entry ns ∧
      ns.map (fun n => Operator.isLogical n.head.op) = ops := by
  unfold glimpse at h
  obtain ⟨sub, hs, h⟩ := Option.bind_eq_some_iff.1 h
  obtain ⟨group, hg, h⟩ := Option.bind_eq_some_iff.1 h
  obtain ⟨entry, he, h⟩ := Option.bind_eq_some_iff.1 h
  obtain ⟨ns, hns, h⟩ := Option.bind_eq_some_iff.1 h
  simp only [Option.pure_def, Option.some.injEq, Prod.mk.injEq, List.contains_iff_mem] at h
  obtain ⟨hrequired, hmember, hphysical, hpriced, hops⟩ := h
  refine ⟨sub, group, entry, ns, ⟨hs, hrequired, hg, hmember, he, hphysical⟩, hpriced, ?_, hops⟩
  unfold Memo.ConvertsBy
  cases hchain : m.registry.convert ⟨sub.group, entry.expr.traits⟩ group.rowType entry.expr.traits sub.traits with
  | error f => simp [hchain, Except.toOption] at hns
  | ok chain =>
    simp only [hchain, Except.toOption, Option.join_some] at hns
    rw [hns]

set_option maxRecDepth 100000 in
/-- The sort that the order by the first column calls for is held by the group of the join, and there is a winner. -/
theorem sorter_requirement : ∃ (o : Optimizer Kind Nat) (sub : SubGroup Nat) (group : Group) (entry : Entry Kind Nat)
    (ns : List (PlanNode Kind)), o.Run ∧ o.memo.Demand ⟨8⟩ sub group ⟨12⟩ entry ∧ entry.price.isSome ∧
    o.memo.ConvertsBy sub group entry ns ∧ ns.length = 1 ∧ (∀ n ∈ ns, o.memo.Holds group n) ∧ sub.winner.isSome := by
  have hrun : (answer? (optimizeLogged 20 joined byFirst) sorter).map (fun a => glimpse a.2.1.memo ⟨8⟩ ⟨12⟩) =
      some (some (true, true, false, true, [false])) := by cbv
  obtain ⟨⟨fired, o, outcome⟩, h, hshown⟩ := Option.map_eq_some_iff.1 hrun
  obtain ⟨sub, group, entry, ns, hd, hp, hns, hops⟩ := demand_of_glimpse hshown
  obtain ⟨hr, -⟩ := run_of_optimizeLogged (blank_new _ _ _ _ _) rfl h
  have hphysical : ∀ n ∈ ns, Operator.isLogical n.head.op = false := by
    intro n hn
    have hmem : Operator.isLogical n.head.op ∈ ns.map fun n => Operator.isLogical n.head.op :=
      List.mem_map_of_mem (f := fun n : PlanNode Kind => Operator.isLogical n.head.op) hn
    rw [hops] at hmem
    exact List.mem_singleton.1 hmem
  have hlength : ns.length = 1 := by rw [← List.length_map (fun n => Operator.isLogical n.head.op), hops]; rfl
  obtain ⟨hholds, hwins, -⟩ := requirements_are_reached hr hd
  exact ⟨o, sub, group, entry, ns, hr, hd, hp, hns, hlength, hholds ns hns, hwins hp (.inr ⟨ns, hns, hphysical⟩)⟩

/-- Orders are enforced by a filter, which is logical. -/
def filterer : Optimizer Kind Nat := .new [] prices ⟨[.collation (some .filter)]⟩ [] .default

set_option maxRecDepth 100000 in
/-- A table that has a price is to be put in order. The chain for that is a single filter, which never gets a price,
and so there is no winner. -/
theorem filterer_requirement : ∃ (o : Optimizer Kind Nat) (sub : SubGroup Nat) (group : Group) (entry : Entry Kind Nat)
    (ns : List (PlanNode Kind)), o.Run ∧ o.memo.Demand ⟨2⟩ sub group ⟨0⟩ entry ∧ entry.price.isSome ∧
    o.memo.ConvertsBy sub group entry ns ∧ sub.winner = none := by
  have hrun : (answer? (do let _ ← seed 20 (bare .physicalScan (some (.i64 3)) []) byFirst; get) filterer).map
      (fun o => (glimpse o.memo ⟨2⟩ ⟨0⟩, (o.memo.subGroups[(⟨2⟩ : SubGroupId)]?).map fun sub => sub.winner.isSome)) =
      some (some (true, true, false, true, [true]), some false) := by cbv
  obtain ⟨o, h, hshown⟩ := Option.map_eq_some_iff.1 hrun
  obtain ⟨hdemand, hwinner⟩ := Prod.mk.inj hshown
  obtain ⟨sub, group, entry, ns, hd, hp, hns, -⟩ := demand_of_glimpse hdemand
  obtain ⟨o', h⟩ := answer?_eq_some h
  obtain ⟨g, seeded, hseed, h⟩ := run_bind_eq_ok h
  cases h
  rw [hd.asked] at hwinner
  refine ⟨o, sub, group, entry, ns, .call (.seed _ _ _) (.start (blank_new _ _ _ _ _) rfl) hseed, hd, hp, hns, ?_⟩
  exact Option.isSome_eq_false_iff.1 (Option.some.inj hwinner) |> Option.isNone_iff_eq_none.1

end SmallHost

end Optimizer

end PlanSearch
