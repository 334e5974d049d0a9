import PlanSearch.Proofs.Outline.Basic

/-!
# Sound outlines

What holds of an outline at all times, in the middle of a merge too. Names: the live ones are those
that represent themselves, and none is as large as the next number. Places: the members of a group are
the live expressions at home there, the readers of a group are the live expressions with an input on
it, and no two live expressions are congruent. Inputs may still be on a group that was just absorbed,
so what they read is told through `reduce`.
-/

namespace PlanSearch

/-! ## Names -/

/-- Names with their representatives: a live name represents itself, a representative is live, and
every name given out is below `next`. -/
structure Registered {k : Named} (rep : Ident k → Option (Ident k)) (live : Ident k → Prop)
    (next : Nat) : Prop where
  live_iff : ∀ i, live i ↔ rep i = some i
  rep_rep : ∀ i r, rep i = some r → rep r = some r
  lt_next : ∀ i r, rep i = some r → i.val < next

namespace Registered

variable {k : Named} {rep : Ident k → Option (Ident k)} {live live' : Ident k → Prop}
  {next next' : Nat}

/-- No name was given out. -/
theorem of_none (hr : ∀ i, rep i = none) (hl : ∀ i, ¬ live i) : Registered rep live next where
  live_iff i := by simp [hl i, hr i]
  rep_rep i r h := by rw [hr] at h; cases h
  lt_next i r h := by rw [hr] at h; cases h

/-- A name that was not given out yet has no representative. -/
theorem rep_eq_none (h : Registered rep live next) {i : Ident k} (hi : next ≤ i.val) :
    rep i = none := by
  cases hr : rep i with
  | none => rfl
  | some r =>
    have := h.lt_next i r hr
    omega

theorem mono (h : Registered rep live next) (hn : next ≤ next') : Registered rep live next' :=
  ⟨h.live_iff, h.rep_rep, fun i r hr => Nat.lt_of_lt_of_le (h.lt_next i r hr) hn⟩

/-- A new name is given out. -/
theorem add (h : Registered rep live next) {i : Ident k} (hi : next ≤ i.val) (hn : i.val < next')
    (hl : ∀ j, live' j ↔ j = i ∨ live j) :
    Registered (fun j => if j = i then some i else rep j) live' next' := by
  have hnone := h.rep_eq_none hi
  refine ⟨fun j => ?_, fun j r hr => ?_, fun j r hr => ?_⟩
  · rw [hl]
    by_cases hj : j = i
    · simp [hj]
    · simp [hj, h.live_iff]
  · by_cases hj : j = i
    · simp_all
    · simp only [hj, if_false] at hr
      have hr' := h.rep_rep j r hr
      have hne : r ≠ i := fun e => by rw [e, hnone] at hr'; cases hr'
      simp [hne, hr']
  · by_cases hj : j = i
    · rw [hj]; exact hn
    · simp only [hj, if_false] at hr
      have := h.lt_next j r hr
      omega

/-- The name `j` is redirected to the live name `i`. -/
theorem unite (h : Registered rep live next) {i j : Ident k} (hij : i ≠ j) (hi : rep i = some i)
    (hl : ∀ y, live' y ↔ live y ∧ y ≠ j) :
    Registered (fun y => if rep y = some j then some i else rep y) live' next := by
  have hi' : (if rep i = some j then some i else rep i) = some i := by simp [hi]
  refine ⟨fun y => ?_, fun y r hr => ?_, fun y r hr => ?_⟩
  · rw [hl, h.live_iff]
    by_cases hy : rep y = some j
    · by_cases hyi : y = i
      · simp_all
      · simp only [hy, if_true, Option.some.injEq]
        exact ⟨fun e => absurd e.1.symm e.2, fun e => absurd e.symm hyi⟩
    · simp only [hy, if_false]
      exact ⟨fun e => e.1, fun e => ⟨e, fun hyj => hy (hyj ▸ e)⟩⟩
  · by_cases hy : rep y = some j
    · simp only [hy, if_true, Option.some.injEq] at hr
      subst hr
      exact hi'
    · simp only [hy, if_false] at hr
      have hr' := h.rep_rep y r hr
      have hne : rep r ≠ some j := fun e => hy (by rw [hr, ← hr', e])
      rw [if_neg hne, hr']
  · by_cases hy : rep y = some j
    · exact h.lt_next y j hy
    · simp only [hy, if_false] at hr
      exact h.lt_next y r hr

end Registered

namespace Outline

variable {Op : Type}

/-- The names of groups, sub groups and expressions are in order. -/
structure Names (o : Outline Op) : Prop where
  groups : Registered o.groupRep (fun g => (o.group g).isSome) o.next
  subs : Registered o.subRep (fun s => (o.sub s).isSome) o.next
  exprs : Registered o.exprRep (fun e => (o.entry e).isSome) o.next

/-- Members, readers and inputs agree, and congruent expressions are the same. -/
structure Places (o : Outline Op) : Prop where
  members : ∀ g c, o.group g = some c → ∀ e, e ∈ c.members ↔ ∃ x, o.entry e = some (x, g)
  nodup : ∀ g c, o.group g = some c → c.members.Nodup
  home : ∀ e x g, o.entry e = some (x, g) → (o.group g).isSome
  parents : ∀ g c, o.group g = some c →
    ∀ e, c.parents e ↔ ∃ x h, o.entry e = some (x, h) ∧ ∃ r ∈ x.inputs, o.reduce r.group = g
  inputs : ∀ e x g, o.entry e = some (x, g) → ∀ r ∈ x.inputs, (o.group (o.reduce r.group)).isSome
  apart : ∀ e x g e' x' g', o.entry e = some (x, g) → o.entry e' = some (x', g') →
    x.Congruent x' → e = e'

/-- Names and places are in order. -/
structure Sound (o : Outline Op) : Prop where
  names : o.Names
  places : o.Places

/-! ## Live names -/

theorem Names.reduce_of_live {o : Outline Op} (h : o.Names) {g : GroupId} (hg : (o.group g).isSome) :
    o.reduce g = g := by
  rw [reduce, (h.groups.live_iff g).1 hg, Option.getD_some]

/-- An expression lists its group under the live name. -/
theorem Sound.reduce_home {o : Outline Op} (h : o.Sound) {e : ExprId} {x : Expr Op} {g : GroupId}
    (he : o.entry e = some (x, g)) : o.reduce g = g :=
  h.names.reduce_of_live (h.places.home e x g he)

theorem Names.reduce_reduce {o : Outline Op} (h : o.Names) (g : GroupId) :
    o.reduce (o.reduce g) = o.reduce g := by
  unfold reduce
  cases hr : o.groupRep g with
  | none => simp [hr]
  | some r => simp [h.groups.rep_rep g r hr]

theorem Names.reduceRef_reduceRef {o : Outline Op} (h : o.Names) (r : SubGroupRef) :
    o.reduceRef (o.reduceRef r) = o.reduceRef r := by
  simp only [reduceRef, h.reduce_reduce]

theorem Names.reduceExpr_of_live {o : Outline Op} (h : o.Names) {e : ExprId}
    (he : (o.entry e).isSome) : o.reduceExpr e = e := by
  rw [reduceExpr, (h.exprs.live_iff e).1 he, Option.getD_some]

theorem Names.reduceExpr_reduceExpr {o : Outline Op} (h : o.Names) (e : ExprId) :
    o.reduceExpr (o.reduceExpr e) = o.reduceExpr e := by
  unfold reduceExpr
  cases hr : o.exprRep e with
  | none => simp [hr]
  | some r => simp [h.exprs.rep_rep e r hr]

theorem Names.reduceSub_of_live {o : Outline Op} (h : o.Names) {s : SubGroupId}
    (hs : (o.sub s).isSome) : o.reduceSub s = s := by
  rw [reduceSub, (h.subs.live_iff s).1 hs, Option.getD_some]

theorem Names.reduceSub_reduceSub {o : Outline Op} (h : o.Names) (s : SubGroupId) :
    o.reduceSub (o.reduceSub s) = o.reduceSub s := by
  unfold reduceSub
  cases hr : o.subRep s with
  | none => simp [hr]
  | some r => simp [h.subs.rep_rep s r hr]

theorem Names.groupRep_of_live {o : Outline Op} (h : o.Names) {g : GroupId}
    (hg : (o.group g).isSome) : o.groupRep g = some g := (h.groups.live_iff g).1 hg

theorem Names.exprRep_of_live {o : Outline Op} (h : o.Names) {e : ExprId}
    (he : (o.entry e).isSome) : o.exprRep e = some e := (h.exprs.live_iff e).1 he

theorem Names.subRep_of_live {o : Outline Op} (h : o.Names) {s : SubGroupId}
    (hs : (o.sub s).isSome) : o.subRep s = some s := (h.subs.live_iff s).1 hs

theorem Names.fresh_group {o : Outline Op} (h : o.Names) {g : GroupId} (hg : o.next ≤ g.val) :
    o.group g = none := by
  have := mt (h.groups.live_iff g).1 (by rw [h.groups.rep_eq_none hg]; exact fun e => by cases e)
  simpa using this

theorem Names.fresh_entry {o : Outline Op} (h : o.Names) {e : ExprId} (he : o.next ≤ e.val) :
    o.entry e = none := by
  have := mt (h.exprs.live_iff e).1 (by rw [h.exprs.rep_eq_none he]; exact fun e => by cases e)
  simpa using this

theorem Names.fresh_sub {o : Outline Op} (h : o.Names) {s : SubGroupId} (hs : o.next ≤ s.val) :
    o.sub s = none := by
  have := mt (h.subs.live_iff s).1 (by rw [h.subs.rep_eq_none hs]; exact fun e => by cases e)
  simpa using this

/-! ## New sub groups -/

/-- A group after a sub group was opened is the same group up to its sub groups. -/
theorem group_openSub {o : Outline Op} {g h : GroupId} {traits : TraitSet} {c : Cell}
    (hc : (o.openSub g traits).group h = some c) :
    ∃ c₀, o.group h = some c₀ ∧ c.members = c₀.members ∧ c.parents = c₀.parents ∧
      c.subs = if h = g then c₀.subs ++ [(traits, ⟨o.next⟩)] else c₀.subs := by
  simp only [openSub] at hc
  split at hc
  · next hg =>
    obtain ⟨c₀, hc₀, rfl⟩ := Option.map_eq_some_iff.1 hc
    exact ⟨c₀, hc₀, rfl, rfl, by simp [hg]⟩
  · next hg => exact ⟨c, hc, rfl, rfl, by simp [hg]⟩

theorem isSome_group_openSub (o : Outline Op) (g h : GroupId) (traits : TraitSet) :
    ((o.openSub g traits).group h).isSome = (o.group h).isSome := by
  simp only [openSub]
  split <;> simp

theorem Sound.openSub {o : Outline Op} (h : o.Sound) (g : GroupId) (traits : TraitSet) :
    (o.openSub g traits).Sound where
  names := by
    refine ⟨?_, ?_, h.names.exprs.mono (Nat.le_succ _)⟩
    · have hl : (fun h => ((o.openSub g traits).group h).isSome = true)
          = fun h => (o.group h).isSome = true := by
        funext h; rw [isSome_group_openSub]
      rw [hl]
      exact h.names.groups.mono (Nat.le_succ _)
    · refine h.names.subs.add (Nat.le_refl _) (Nat.lt_succ_self _) fun s => ?_
      simp only [Outline.openSub]
      split
      · next hs => simp [hs]
      · next hs => simp [hs]
  places := by
    refine ⟨fun g' c hc => ?_, fun g' c hc => ?_, fun e x g' he => ?_, fun g' c hc => ?_,
      fun e x g' he r hr => ?_, h.places.apart⟩
    · obtain ⟨c₀, hc₀, hm, -, -⟩ := group_openSub hc
      rw [hm]
      exact h.places.members g' c₀ hc₀
    · obtain ⟨c₀, hc₀, hm, -, -⟩ := group_openSub hc
      rw [hm]
      exact h.places.nodup g' c₀ hc₀
    · rw [isSome_group_openSub]
      exact h.places.home e x g' he
    · obtain ⟨c₀, hc₀, -, hp, -⟩ := group_openSub hc
      rw [hp]
      exact h.places.parents g' c₀ hc₀
    · rw [isSome_group_openSub]
      exact h.places.inputs e x g' he r hr

/-! ## New expressions -/

/-- No live expression is congruent to `x`. -/
def Apart (o : Outline Op) (x : Expr Op) : Prop :=
  ∀ e y h, o.entry e = some (y, h) → ¬ y.Congruent x

/-- Every input of `x` is on a live group. -/
def Reading (o : Outline Op) (x : Expr Op) : Prop := ∀ r ∈ x.inputs, (o.group r.group).isSome

/-- What becomes of a group when the expression `e` is entered in the group `g`: it is an old group,
which `e` may be a member or a reader of, or it is a new one around `e`. -/
inductive Grows (o : Outline Op) (e : ExprId) (x : Expr Op) (g h : GroupId) (c : Cell) : Prop
  | old (c₀ : Cell) (known : o.group h = some c₀)
      (members : c.members = if h = g then c₀.members ++ [e] else c₀.members)
      (subs : c.subs = c₀.subs)
      (parents : ∀ e', c.parents e' ↔ c₀.parents e' ∨ e' = e ∧ x.reads h = true)
  | new (unknown : o.group h = none) (here : h = g) (members : c.members = [e]) (subs : c.subs = [])
      (parents : ∀ e', ¬ c.parents e')

/-- The expression `x`, which is apart from all others, is entered in the group `g` under the new name
`e`. -/
structure Enters (o o' : Outline Op) (e : ExprId) (x : Expr Op) (g : GroupId) : Prop where
  fresh : o.entry e = none
  reading : o.Reading x
  apart : o.Apart x
  settled : ∀ r ∈ x.inputs, o.reduce r.group = r.group
  entry : ∀ e', o'.entry e' = if e' = e then some (x, g) else o.entry e'
  reduce : ∀ k, (o.group (o.reduce k)).isSome → o'.reduce k = o.reduce k
  live : ∀ k, (o.group k).isSome → (o'.group k).isSome
  home : (o'.group g).isSome
  grows : ∀ k c, o'.group k = some c → o.Grows e x g k c

section Enters

variable {o o' : Outline Op} {e : ExprId} {x : Expr Op} {g : GroupId}

theorem Enters.ne (hn : o.Enters o' e x g) {e' : ExprId} {y : Expr Op} {k : GroupId}
    (he' : o.entry e' = some (y, k)) : e' ≠ e := by
  intro hee
  rw [hee, hn.fresh] at he'
  cases he'

theorem Enters.reduce_input (hn : o.Enters o' e x g) {r : SubGroupRef} (hr : r ∈ x.inputs) :
    o'.reduce r.group = r.group := by
  rw [hn.reduce _ (by rw [hn.settled r hr]; exact hn.reading r hr), hn.settled r hr]

theorem Enters.reduce_old_input (hn : o.Enters o' e x g) (h : o.Places) {e' : ExprId} {y : Expr Op}
    {k : GroupId} (he' : o.entry e' = some (y, k)) {r : SubGroupRef} (hr : r ∈ y.inputs) :
    o'.reduce r.group = o.reduce r.group :=
  hn.reduce _ (h.inputs e' y k he' r hr)

theorem Enters.not_mem (hn : o.Enters o' e x g) (h : o.Places) {k : GroupId} {c : Cell}
    (hc : o.group k = some c) : e ∉ c.members := by
  intro hmem
  obtain ⟨y, hy⟩ := (h.members k c hc e).1 hmem
  exact hn.ne hy rfl

theorem Enters.members (hn : o.Enters o' e x g) (h : o.Places) {k : GroupId} {c : Cell}
    (hc : o'.group k = some c) (e' : ExprId) : e' ∈ c.members ↔ ∃ y, o'.entry e' = some (y, k) := by
  rw [hn.entry]
  cases hn.grows k c hc with
  | old c₀ known members subs parents =>
    by_cases he : e' = e
    · subst he
      have hno := hn.not_mem h known
      rw [members, if_pos rfl]
      split
      · next hk => simp [hk]
      · next hk => simp [hno, Ne.symm hk]
    · rw [if_neg he, ← h.members k c₀ known, members]
      split <;> simp [he]
  | new unknown here members subs parents =>
    subst here
    rw [members]
    by_cases he : e' = e
    · simp [he]
    · rw [if_neg he]
      constructor
      · intro hmem
        exact absurd (List.mem_singleton.1 hmem) he
      · rintro ⟨y, hy⟩
        have hh := h.home e' y k hy
        rw [unknown] at hh
        cases hh

theorem Enters.nodup (hn : o.Enters o' e x g) (h : o.Places) {k : GroupId} {c : Cell}
    (hc : o'.group k = some c) : c.members.Nodup := by
  cases hn.grows k c hc with
  | old c₀ known members subs parents =>
    rw [members]
    split
    · refine List.nodup_append.2 ⟨h.nodup k c₀ known, by simp, ?_⟩
      intro a ha b hb hab
      rw [List.mem_singleton] at hb
      exact hn.not_mem h known (hb ▸ hab ▸ ha)
    · exact h.nodup k c₀ known
  | new unknown here members subs parents =>
    rw [members]
    simp

theorem Enters.parents (hn : o.Enters o' e x g) (h : o.Places) {k : GroupId} {c : Cell}
    (hc : o'.group k = some c) (e' : ExprId) : c.parents e' ↔
      ∃ y k', o'.entry e' = some (y, k') ∧ ∃ r ∈ y.inputs, o'.reduce r.group = k := by
  simp only [hn.entry]
  cases hn.grows k c hc with
  | old c₀ known members subs parents =>
    rw [parents, h.parents k c₀ known]
    constructor
    · rintro (⟨y, k', he', r, hr, rfl⟩ | ⟨rfl, hreads⟩)
      · refine ⟨y, k', ?_, r, hr, hn.reduce_old_input h he' hr⟩
        rw [if_neg (hn.ne he'), he']
      · obtain ⟨r, hr, rfl⟩ := Expr.reads_iff.1 hreads
        exact ⟨x, g, if_pos rfl, r, hr, hn.reduce_input hr⟩
    · rintro ⟨y, k', he', r, hr, hk⟩
      split at he'
      · next hee =>
        cases he'
        exact .inr ⟨hee, Expr.reads_iff.2 ⟨r, hr, by rw [← hn.reduce_input hr, hk]⟩⟩
      · exact .inl ⟨y, k', he', r, hr, by rw [← hn.reduce_old_input h he' hr, hk]⟩
  | new unknown here members subs parents =>
    constructor
    · intro hp
      exact absurd hp (parents e')
    · rintro ⟨y, k', he', r, hr, hk⟩
      split at he'
      · cases he'
        have hl := hn.reading r hr
        rw [← hn.reduce_input hr, hk, unknown] at hl
        cases hl
      · have hl := h.inputs e' y k' he' r hr
        rw [← hn.reduce_old_input h he' hr, hk, unknown] at hl
        cases hl

/-- Entering an expression that is apart from all others keeps places in order. -/
theorem Places.enter (h : o.Places) (hn : o.Enters o' e x g) : o'.Places where
  members _ _ hc := hn.members h hc
  nodup _ _ hc := hn.nodup h hc
  parents _ _ hc := hn.parents h hc
  home e' y k he' := by
    rw [hn.entry] at he'
    split at he'
    · cases he'
      exact hn.home
    · exact hn.live k (h.home e' y k he')
  inputs e' y k he' r hr := by
    rw [hn.entry] at he'
    split at he'
    · cases he'
      rw [hn.reduce_input hr]
      exact hn.live _ (hn.reading r hr)
    · rw [hn.reduce_old_input h he' hr]
      exact hn.live _ (h.inputs e' y k he' r hr)
  apart e₁ x₁ g₁ e₂ x₂ g₂ h₁ h₂ hc := by
    rw [hn.entry] at h₁ h₂
    split at h₁
    · next he₁ =>
      cases h₁
      split at h₂
      · next he₂ => rw [he₁, he₂]
      · exact absurd hc.symm (hn.apart e₂ x₂ g₂ h₂)
    · split at h₂
      · cases h₂
        exact absurd hc (hn.apart e₁ x₁ g₁ h₁)
      · exact h.apart e₁ x₁ g₁ e₂ x₂ g₂ h₁ h₂ hc

end Enters

theorem grows_attach {o : Outline Op} {x : Expr Op} {g h : GroupId} {c : Cell}
    (hc : (o.attach x g).group h = some c) : o.Grows ⟨o.next⟩ x g h c := by
  simp only [attach, enter] at hc
  split at hc
  · next hg =>
    obtain ⟨c₁, hc₁, rfl⟩ := Option.map_eq_some_iff.1 hc
    obtain ⟨c₀, hc₀, rfl⟩ := Option.map_eq_some_iff.1 hc₁
    exact .old c₀ hc₀ (if_pos hg).symm rfl fun _ => Iff.rfl
  · next hg =>
    obtain ⟨c₀, hc₀, rfl⟩ := Option.map_eq_some_iff.1 hc
    exact .old c₀ hc₀ (if_neg hg).symm rfl fun _ => Iff.rfl

theorem isSome_group_attach (o : Outline Op) (x : Expr Op) (g h : GroupId) :
    ((o.attach x g).group h).isSome = (o.group h).isSome := by
  simp only [attach, enter]
  split <;> simp

theorem Sound.attach {o : Outline Op} (h : o.Sound) {x : Expr Op} {g : GroupId}
    (hg : (o.group g).isSome) (hx : o.Reading x) (ha : o.Apart x) : (o.attach x g).Sound where
  names := by
    refine ⟨?_, h.names.subs.mono (Nat.le_succ _), ?_⟩
    · have hl : (fun h => ((o.attach x g).group h).isSome = true)
          = fun h => (o.group h).isSome = true := by
        funext h; rw [isSome_group_attach]
      rw [hl]
      exact h.names.groups.mono (Nat.le_succ _)
    · refine h.names.exprs.add (Nat.le_refl _) (Nat.lt_succ_self _) fun e => ?_
      simp only [Outline.attach, enter]
      split
      · next he => simp [he]
      · next he => simp [he]
  places := h.places.enter {
    fresh := h.names.fresh_entry (Nat.le_refl _)
    reading := hx
    apart := ha
    settled r hr := h.names.reduce_of_live (hx r hr)
    entry _ := rfl
    reduce _ _ := rfl
    live k hk := by rw [isSome_group_attach]; exact hk
    home := by rw [isSome_group_attach]; exact hg
    grows _ _ := grows_attach }

theorem grows_found {o : Outline Op} (h : o.Names) {x : Expr Op} {rowType : RowType}
    {facts : List Fact} {k : GroupId} {c : Cell} (hc : (o.found x rowType facts).group k = some c) :
    o.Grows ⟨o.next⟩ x ⟨o.next + 1⟩ k c := by
  simp only [found, enter] at hc
  split at hc
  · next hk =>
    cases hc
    subst hk
    exact .new (h.fresh_group (Nat.le_succ _)) rfl rfl rfl fun _ => id
  · next hk =>
    obtain ⟨c₀, hc₀, rfl⟩ := Option.map_eq_some_iff.1 hc
    exact .old c₀ hc₀ (if_neg hk).symm rfl fun _ => Iff.rfl

theorem isSome_group_found (o : Outline Op) (x : Expr Op) (rowType : RowType) (facts : List Fact)
    (h : GroupId) : ((o.found x rowType facts).group h).isSome
      = (decide (h = ⟨o.next + 1⟩) || (o.group h).isSome) := by
  simp only [found, enter]
  split
  · next hk => simp [hk]
  · next hk => simp [hk]

/-- A group of its own changes no other name. -/
theorem Names.reduce_found {o : Outline Op} (h : o.Names) (x : Expr Op) (rowType : RowType)
    (facts : List Fact) : (o.found x rowType facts).reduce = o.reduce := by
  funext k
  simp only [reduce, found, enter]
  split
  · next hk => rw [hk, h.groups.rep_eq_none (Nat.le_succ _)]; rfl
  · rfl

theorem Sound.found {o : Outline Op} (h : o.Sound) {x : Expr Op} (rowType : RowType)
    (facts : List Fact) (hx : o.Reading x) (ha : o.Apart x) : (o.found x rowType facts).Sound where
  names := by
    refine ⟨?_, h.names.subs.mono (Nat.le_add_right _ 2), ?_⟩
    · refine h.names.groups.add (Nat.le_succ _) (Nat.lt_succ_self _) fun k => ?_
      rw [isSome_group_found]
      simp
    · refine h.names.exprs.add (Nat.le_refl _) (Nat.lt_add_of_pos_right (by decide)) fun e => ?_
      simp only [Outline.found, enter]
      split
      · next he => simp [he]
      · next he => simp [he]
  places := h.places.enter {
    fresh := h.names.fresh_entry (Nat.le_refl _)
    reading := hx
    apart := ha
    settled r hr := h.names.reduce_of_live (hx r hr)
    entry _ := rfl
    reduce k _ := by rw [h.names.reduce_found]
    live k hk := by rw [isSome_group_found, hk, Bool.or_true]
    home := by rw [isSome_group_found, decide_eq_true rfl, Bool.true_or]
    grows _ _ := grows_found h.names }

end Outline

end PlanSearch
