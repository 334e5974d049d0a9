import PlanSearch.Proofs.Matching.Depicts

/-!
# Plans under other names

A plan is recast from another if the two are one tree, with equal values in it, and every group that is referred to
goes by a name that the old one leads to. A rule is natural if what it makes of a binding depends on the tree of the
binding alone, up to equal values, and groups that are known by a new name are so in what it makes. It is asked only
of names that lead to one that stays, as those of groups that were merged do. Hence it holds of any new names.

    r.Natural rows → r.apply m n = .ok outs → every group of outs is one of n                    (Rule.Natural.stays)
    r.Natural rows → (leads is a partial function) → Recast rows leads n n' → r.apply m n = .ok outs →
      ∃ outs', r.apply m' n' = .ok outs' ∧ RecastAll rows leads outs outs'                       (Rule.Natural.along)
-/

namespace PlanSearch

variable {Op : Type}

/-- The same operation, up to equal values and row types that are as good. -/
structure Operation.Alike (rows : RowType → RowType → Prop) (h k : Operation Op) : Prop where
  op : k.op = h.op
  data : Value.SameOption k.data h.data
  traits : k.traits.Same h.traits
  row : rows h.rowType k.rowType

section Alike

variable {rows : RowType → RowType → Prop} (hrows : Equivalence rows)

include hrows

theorem Operation.Alike.refl (h : Operation Op) : h.Alike rows h := ⟨rfl, rfl, rfl, hrows.refl _⟩

theorem Operation.Alike.symm {h k : Operation Op} (hk : h.Alike rows k) : k.Alike rows h :=
  ⟨hk.op.symm, Eq.symm hk.data, hk.traits.symm, hrows.symm hk.row⟩

theorem Operation.Alike.trans {h k l : Operation Op} (hk : h.Alike rows k) (kl : k.Alike rows l) : h.Alike rows l :=
  ⟨kl.op.trans hk.op, Eq.trans kl.data hk.data, kl.traits.trans hk.traits, hrows.trans hk.row kl.row⟩

end Alike

namespace Plan

mutual

/-- The groups that the plan refers to. -/
def groups : Plan Op → List GroupId
  | node _ inputs => groupsAll inputs
  | group ref => [ref.group]

/-- The groups that several plans refer to. -/
def groupsAll : List (Plan Op) → List GroupId
  | [] => []
  | p :: ps => p.groups ++ groupsAll ps

end

mutual

/-- The second plan is the first one, with groups under names that theirs lead to. -/
inductive Recast (rows : RowType → RowType → Prop) (leads : GroupId → GroupId → Prop) : Plan Op → Plan Op → Prop
  | node {head head' : Operation Op} {inputs inputs' : List (Plan Op)} (alike : head.Alike rows head')
      (below : RecastAll rows leads inputs inputs') : Recast rows leads (.node head inputs) (.node head' inputs')
  | group {r r' : SubGroupRef} (named : leads r.group r'.group) (traits : r'.traits.Same r.traits) :
      Recast rows leads (.group r) (.group r')

/-- The same, plan by plan. -/
inductive RecastAll (rows : RowType → RowType → Prop) (leads : GroupId → GroupId → Prop) :
    List (Plan Op) → List (Plan Op) → Prop
  | nil : RecastAll rows leads [] []
  | cons {p p' : Plan Op} {ps ps' : List (Plan Op)} (first : Recast rows leads p p')
      (rest : RecastAll rows leads ps ps') : RecastAll rows leads (p :: ps) (p' :: ps')

end

section Recast

variable {rows : RowType → RowType → Prop} {leads first second : GroupId → GroupId → Prop}

mutual

theorem Recast.leads {p p' : Plan Op} : p.Recast rows leads p' → List.Forall₂ leads p.groups p'.groups
  | .node _ below => below.leads
  | .group named _ => .cons named .nil

theorem RecastAll.leads {ps ps' : List (Plan Op)} :
    RecastAll rows leads ps ps' → List.Forall₂ leads (groupsAll ps) (groupsAll ps')
  | .nil => .nil
  | .cons first rest => List.rel_append first.leads rest.leads

end

theorem recastAll_iff {ps ps' : List (Plan Op)} :
    RecastAll rows leads ps ps' ↔ List.Forall₂ (Recast rows leads) ps ps' := by
  constructor
  · intro h
    induction ps generalizing ps' with
    | nil =>
      cases h
      exact .nil
    | cons p ps ih =>
      cases h with
      | cons first rest => exact .cons first (ih rest)
  · intro h
    induction h with
    | nil => exact .nil
    | cons first _ ih => exact .cons first ih

/-- Plans that are recast one by one are so from the last to the first. -/
theorem RecastAll.reverse {ps ps' : List (Plan Op)} (h : RecastAll rows leads ps ps') :
    RecastAll rows leads ps.reverse ps'.reverse :=
  recastAll_iff.2 (List.rel_reverse (recastAll_iff.1 h))

theorem RecastAll.exists_left {ps ps' : List (Plan Op)} {p : Plan Op} (h : RecastAll rows leads ps ps')
    (hp : p ∈ ps) : ∃ p' ∈ ps', p.Recast rows leads p' := by
  induction ps generalizing ps' with
  | nil => cases hp
  | cons q ps ih =>
    cases h with
    | cons first rest =>
      rcases List.mem_cons.1 hp with rfl | hp
      · exact ⟨_, List.mem_cons_self, first⟩
      · obtain ⟨p', hp', hrecast⟩ := ih rest hp
        exact ⟨p', List.mem_cons_of_mem _ hp', hrecast⟩

theorem RecastAll.exists_right {ps ps' : List (Plan Op)} {p' : Plan Op} (h : RecastAll rows leads ps ps')
    (hp : p' ∈ ps') : ∃ p ∈ ps, p.Recast rows leads p' := by
  induction ps' generalizing ps with
  | nil => cases hp
  | cons q ps' ih =>
    cases h with
    | cons first rest =>
      rcases List.mem_cons.1 hp with rfl | hp
      · exact ⟨_, List.mem_cons_self, first⟩
      · obtain ⟨p, hp, hrecast⟩ := ih rest hp
        exact ⟨p, List.mem_cons_of_mem _ hp, hrecast⟩

/-! ### The other way round, and on -/

mutual

/-- A plan is recast from itself if every name in it may stay. -/
theorem recast_self (hrows : Equivalence rows) : ∀ p : Plan Op, (∀ g ∈ p.groups, leads g g) → p.Recast rows leads p
  | .node head inputs, h => .node (.refl hrows head) (recastAll_self hrows inputs h)
  | .group _, h => .group (h _ (List.mem_singleton_self _)) (TraitSet.same_refl _)

theorem recastAll_self (hrows : Equivalence rows) :
    ∀ ps : List (Plan Op), (∀ g ∈ groupsAll ps, leads g g) → RecastAll rows leads ps ps
  | [], _ => .nil
  | p :: ps, h => .cons (recast_self hrows p fun g hg => h g (List.mem_append_left _ hg))
      (recastAll_self hrows ps fun g hg => h g (List.mem_append_right _ hg))

end

mutual

theorem Recast.symm (hrows : Equivalence rows) {p p' : Plan Op} :
    p.Recast rows leads p' → p'.Recast rows (fun a b => leads b a) p
  | .node alike below => .node (alike.symm hrows) (below.symm hrows)
  | .group named traits => .group named traits.symm

theorem RecastAll.symm (hrows : Equivalence rows) {ps ps' : List (Plan Op)} :
    RecastAll rows leads ps ps' → RecastAll rows (fun a b => leads b a) ps' ps
  | .nil => .nil
  | .cons first rest => .cons (first.symm hrows) (rest.symm hrows)

end

mutual

/-- What is recast twice is recast once, where names lead on. -/
theorem Recast.comp (hrows : Equivalence rows) {p p' p'' : Plan Op} : p.Recast rows first p' →
    p'.Recast rows second p'' → (∀ a ∈ p.groups, ∀ b c, first a b → second b c → leads a c) → p.Recast rows leads p''
  | .node alike below, .node alike' below', h => .node (alike.trans hrows alike') (below.comp hrows below' h)
  | .group named traits, .group named' traits', h =>
    .group (h _ (List.mem_singleton_self _) _ _ named named') (traits'.trans traits)

theorem RecastAll.comp (hrows : Equivalence rows) {ps ps' ps'' : List (Plan Op)} : RecastAll rows first ps ps' →
    RecastAll rows second ps' ps'' → (∀ a ∈ groupsAll ps, ∀ b c, first a b → second b c → leads a c) →
    RecastAll rows leads ps ps''
  | .nil, .nil, _ => .nil
  | .cons head tail, .cons head' tail', h =>
    .cons (head.comp hrows head' fun a ha => h a (List.mem_append_left _ ha))
      (tail.comp hrows tail' fun a ha => h a (List.mem_append_right _ ha))

end

mutual

/-- What is recast once is recast in two steps, where there are names in between. -/
theorem Recast.split (hrows : Equivalence rows) {p p'' : Plan Op} : p.Recast rows leads p'' →
    (∀ a ∈ p.groups, ∀ c, leads a c → ∃ b, first a b ∧ second b c) →
    ∃ p', p.Recast rows first p' ∧ p'.Recast rows second p''
  | .node alike below, h => by
    obtain ⟨inputs', hfirst, hsecond⟩ := below.split hrows h
    exact ⟨.node _ inputs', .node (.refl hrows _) hfirst, .node alike hsecond⟩
  | .group (r := r) named traits, h => by
    obtain ⟨b, hfirst, hsecond⟩ := h _ (List.mem_singleton_self _) _ named
    exact ⟨.group ⟨b, r.traits⟩, .group hfirst (TraitSet.same_refl _), .group hsecond traits⟩

theorem RecastAll.split (hrows : Equivalence rows) {ps ps'' : List (Plan Op)} : RecastAll rows leads ps ps'' →
    (∀ a ∈ groupsAll ps, ∀ c, leads a c → ∃ b, first a b ∧ second b c) →
    ∃ ps', RecastAll rows first ps ps' ∧ RecastAll rows second ps' ps''
  | .nil, _ => ⟨[], .nil, .nil⟩
  | .cons head tail, h => by
    obtain ⟨p', hp, hp'⟩ := head.split hrows fun a ha => h a (List.mem_append_left _ ha)
    obtain ⟨ps', hps, hps'⟩ := tail.split hrows fun a ha => h a (List.mem_append_right _ ha)
    exact ⟨p' :: ps', .cons hp hps, .cons hp' hps'⟩

end

end Recast

end Plan

/-! ## Natural rules -/

section Natural

open Plan

variable {Q : Type} {rows : RowType → RowType → Prop} {r : Rule Op Q} {m m' : Memo Op Q} {n n' : PlanNode Op}
variable {outs : List (Plan Op)}

/-- What the rule makes of a binding is made of its tree alone, whatever the memo, and where names of groups are
replaced by those that they lead to, so they are in what the rule makes. -/
def Rule.Natural (rows : RowType → RowType → Prop) (r : Rule Op Q) : Prop :=
  ∀ (σ : GroupId → GroupId) (m m' : Memo Op Q) (n n' : PlanNode Op) (outs : List (Plan Op)),
    (∀ g, σ (σ g) = σ g) → n.toPlan.Recast rows (fun a b => σ a = b) n'.toPlan → r.apply m n = .ok outs →
    ∃ outs', r.apply m' n' = .ok outs' ∧ RecastAll rows (fun a b => σ a = b) outs outs'

/-- A natural rule refers to no groups but those of the binding: no other could go by a new name. -/
theorem Rule.Natural.stays (h : r.Natural rows) (hrows : Equivalence rows) (ok : r.apply m n = .ok outs) {a : GroupId}
    (ha : a ∈ groupsAll outs) : a ∈ n.toPlan.groups := by
  by_contra hnot
  let σ : GroupId → GroupId := fun g => if g = a then ⟨a.val + 1⟩ else g
  have hfixed : ∀ g, g ≠ a → σ g = g := fun g hg => if_neg hg
  have hmoved : σ a = ⟨a.val + 1⟩ := if_pos rfl
  have hne : σ a ≠ a := by
    rw [hmoved]
    intro heq
    have := congrArg Ident.val heq
    dsimp only at this
    omega
  have hidem : ∀ g, σ (σ g) = σ g := fun g => by
    by_cases hg : g = a
    · rw [hg, hfixed _ hne]
    · rw [hfixed g hg, hfixed g hg]
  have hself : n.toPlan.Recast rows (fun a b => σ a = b) n.toPlan :=
    recast_self hrows _ fun g hg => hfixed g fun heq => hnot (heq ▸ hg)
  obtain ⟨outs', ok', hrecast⟩ := h σ m m n n outs hidem hself ok
  cases ok.symm.trans ok'
  have hall : List.Forall₂ (fun g k => σ g = k) (groupsAll outs) (groupsAll outs) := hrecast.leads
  exact hne ((List.forall₂_same.1 hall) a ha)

/-- Any names may be replaced, and by any others: first by names that occur nowhere, and these by the new ones. -/
theorem Rule.Natural.along (h : r.Natural rows) (hrows : Equivalence rows) {leads : GroupId → GroupId → Prop}
    (hleads : ∀ a b c, leads a b → leads a c → b = c) (hn : n.toPlan.Recast rows leads n'.toPlan)
    (ok : r.apply m n = .ok outs) : ∃ outs', r.apply m' n' = .ok outs' ∧ RecastAll rows leads outs outs' := by
  classical
  have hpairs := hn.leads
  -- no name of either plan is above the bound
  obtain ⟨bound, hbound⟩ : ∃ bound, ∀ g ∈ n.toPlan.groups ++ n'.toPlan.groups, g.val ≤ bound :=
    ⟨((n.toPlan.groups ++ n'.toPlan.groups).map Ident.val).sum, fun g hg =>
      List.single_le_sum (fun _ _ => Nat.zero_le _) _ (List.mem_map_of_mem hg)⟩
  have htotal : ∀ a ∈ n.toPlan.groups, ∃ b ∈ n'.toPlan.groups, leads a b := fun a ha =>
    (exists_of_forall₂ hpairs).1 a ha
  choose! new hnew hleadsTo using htotal
  let away : GroupId → GroupId := fun a => if a ∈ n.toPlan.groups then ⟨bound + 1 + a.val⟩ else a
  let back : GroupId → GroupId := fun c =>
    if bound < c.val ∧ ⟨c.val - (bound + 1)⟩ ∈ n.toPlan.groups then new ⟨c.val - (bound + 1)⟩ else c
  have haway : ∀ a ∈ n.toPlan.groups, away a = ⟨bound + 1 + a.val⟩ := fun a ha => if_pos ha
  have hback : ∀ a ∈ n.toPlan.groups, back (away a) = new a := fun a ha => by
    have hsub : (⟨bound + 1 + a.val - (bound + 1)⟩ : GroupId) = a := by rw [Nat.add_sub_cancel_left]
    rw [haway a ha]
    simp only [back, hsub]
    exact if_pos ⟨by omega, ha⟩
  have hlow : ∀ c : GroupId, c.val ≤ bound → back c = c := fun c hc => if_neg fun h => absurd h.1 (by omega)
  have haway₂ : ∀ g, away (away g) = away g := fun g => by
    by_cases hg : g ∈ n.toPlan.groups
    · refine if_neg fun hmem => ?_
      have := hbound _ (List.mem_append_left _ hmem)
      rw [haway g hg] at this
      dsimp only at this
      omega
    · rw [show away g = g from if_neg hg, show away g = g from if_neg hg]
  have hback₂ : ∀ g, back (back g) = back g := fun g => by
    by_cases hg : bound < g.val ∧ ⟨g.val - (bound + 1)⟩ ∈ n.toPlan.groups
    · rw [show back g = new ⟨g.val - (bound + 1)⟩ from if_pos hg]
      exact hlow _ (hbound _ (List.mem_append_right _ (hnew _ hg.2)))
    · rw [show back g = g from if_neg hg, show back g = g from if_neg hg]
  obtain ⟨q, hfirst, hsecond⟩ : ∃ q, n.toPlan.Recast rows (fun a b => away a = b) q ∧
      q.Recast rows (fun b c => back b = c) n'.toPlan :=
    hn.split hrows fun a ha c hac => ⟨away a, rfl, (hback a ha).trans (hleads a _ _ (hleadsTo a ha) hac)⟩
  obtain ⟨head, inputs, rfl⟩ : ∃ head inputs, q = .node head inputs := by
    cases hfirst with
    | node alike below => exact ⟨_, _, rfl⟩
  obtain ⟨outs₁, ok₁, hrecast₁⟩ := h away m m n ⟨head, inputs⟩ outs haway₂ hfirst ok
  obtain ⟨outs₂, ok₂, hrecast₂⟩ := h back m m' ⟨head, inputs⟩ n' outs₁ hback₂ hsecond ok₁
  refine ⟨outs₂, ok₂, hrecast₁.comp hrows hrecast₂ ?_⟩
  rintro a ha _ _ rfl rfl
  rw [hback a (h.stays hrows ok ha)]
  exact hleadsTo a (h.stays hrows ok ha)

end Natural

end PlanSearch
