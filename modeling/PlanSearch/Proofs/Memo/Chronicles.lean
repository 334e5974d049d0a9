import Mathlib.Data.List.Basic
import PlanSearch.Proofs.Matching.Binds
import PlanSearch.Proofs.Memo.Edits
import PlanSearch.Proofs.Memo.RowCounts

/-!
# Chronicles of row counts

As long as no groups merge, a memo grows: names stand for what they stood for, and groups get new members behind those
that they have. Row counts are kept all the while, so a count that is known was the answer when it was first asked for,
and the memo may have grown since. A chronicle has the memo and the known counts at every moment since these were
dropped, latest first.

    Edits .strict w w' → nothing merged → w.outline.Extends w'.outline          (Edits.extends)
    a chronicle → a count is the answer at a moment when it was not known       (Chronicle.answered)
    a chronicle → a count is fresh while all that it is made from stays         (Chronicle.fresh)
-/

namespace PlanSearch

/-! ## Growth without merges -/

namespace Outline

variable {Op : Type} {o o' o'' : Outline Op}

/-- Names of groups and expressions keep what they stand for, and members are only added, at the end. -/
structure Extends (o o' : Outline Op) : Prop where
  reduce : ∀ g, o'.reduce g = o.reduce g
  entry : ∀ e p, o.entry e = some p → o'.entry e = some p
  members : ∀ g c, o.group g = some c → ∃ c', o'.group g = some c' ∧ c.members <+: c'.members

theorem Extends.refl (o : Outline Op) : o.Extends o :=
  ⟨fun _ => rfl, fun _ _ => id, fun _ c hc => ⟨c, hc, List.prefix_rfl⟩⟩

theorem Extends.trans (h₁ : o.Extends o') (h₂ : o'.Extends o'') : o.Extends o'' where
  reduce g := (h₂.reduce g).trans (h₁.reduce g)
  entry e p he := h₂.entry e p (h₁.entry e p he)
  members g c hc := by
    obtain ⟨c', hc', hp'⟩ := h₁.members g c hc
    obtain ⟨c'', hc'', hp''⟩ := h₂.members g c' hc'
    exact ⟨c'', hc'', hp'.trans hp''⟩

theorem extends_openSub (o : Outline Op) (g : GroupId) (traits : TraitSet) : o.Extends (o.openSub g traits) where
  reduce _ := rfl
  entry _ _ := id
  members k c hc := by
    obtain ⟨c', hc'⟩ := Option.isSome_iff_exists.1
      (show ((o.openSub g traits).group k).isSome by rw [isSome_group_openSub, hc]; rfl)
    obtain ⟨c₀, hc₀, hm, -⟩ := group_openSub hc'
    rw [hc] at hc₀
    cases hc₀
    exact ⟨c', hc', hm ▸ List.prefix_rfl⟩

/-- A new expression changes no old one, and is the last member of its group. -/
theorem Extends.of_grows {e : ExprId} {x : Expr Op} {g : GroupId} (reduce : ∀ k, o'.reduce k = o.reduce k)
    (entry : ∀ e' p, o.entry e' = some p → o'.entry e' = some p)
    (live : ∀ k, (o.group k).isSome → (o'.group k).isSome) (grows : ∀ k c, o'.group k = some c → o.Grows e x g k c) :
    o.Extends o' where
  reduce := reduce
  entry := entry
  members k c hc := by
    obtain ⟨c', hc'⟩ := Option.isSome_iff_exists.1 (live k (by rw [hc]; rfl))
    refine ⟨c', hc', ?_⟩
    cases grows k c' hc' with
    | old c₀ known members _ _ =>
      rw [hc] at known
      cases known
      rw [members]
      split
      · exact List.prefix_append _ _
      · exact List.prefix_rfl
    | new unknown _ _ _ _ =>
      rw [hc] at unknown
      cases unknown

theorem Names.extends_attach (h : o.Names) (x : Expr Op) (g : GroupId) : o.Extends (o.attach x g) :=
  .of_grows (fun _ => rfl) (h.entry_enter rfl) (fun k hk => by rw [isSome_group_attach]; exact hk)
    fun _ _ => grows_attach

theorem Names.extends_found (h : o.Names) (x : Expr Op) (rowType : RowType) (facts : List Fact) :
    o.Extends (o.found x rowType facts) :=
  .of_grows (fun k => by rw [h.reduce_found]) (h.entry_enter rfl)
    (fun k hk => by rw [isSome_group_found, hk, Bool.or_true]) fun _ _ => grows_found h

end Outline

section Edits

variable {Op Q : Type} [Quantity Q] {w w' : Work Op Q}

/-- Merges that were noted stay noted. -/
theorem Edit.merged (h : Edit Terms.strict w w') (hno : w'.outline.merged = []) : w.outline.merged = [] := by
  cases h with
  | forget _ allowed => exact allowed.elim
  | finish => simp [Outline.noteMerge] at hno
  | skip | openSub | price | attach | found | propose | same | takeIn | fold | hand | convene | offer | pass | rewrite
  | drop => exact hno

/-- Where no merge was noted and none is under way, there was none under way before, and the outline was extended. -/
theorem Edit.extends (h : Edit Terms.strict w w') (hw : w.Sound) (hno : w'.outline.merged = [])
    (hs : w'.stage = .rest) : w.stage = .rest ∧ w.outline.Extends w'.outline := by
  have hnames := hw.outline.names
  cases h with
  | skip idle => exact ⟨idle.stage, fun _ => rfl, fun _ _ => id, fun _ c hc => ⟨c, hc, List.prefix_rfl⟩⟩
  | forget _ allowed => exact allowed.elim
  | openSub idle => exact ⟨idle.stage, Outline.extends_openSub _ _ _⟩
  | attach idle => exact ⟨idle.stage, hnames.extends_attach _ _⟩
  | found idle => exact ⟨idle.stage, hnames.extends_found _ _ _⟩
  | finish => simp [Outline.noteMerge] at hno
  | price idle | propose _ idle | same idle => exact ⟨idle.stage, .refl _⟩
  | offer => exact ⟨hs, .refl _⟩
  | takeIn | fold | hand | convene | pass | rewrite | drop => cases hs

/-- Edits of a memo that come to no merge extend its outline. -/
theorem Edits.extends (h : Edits Terms.strict w w') (hw : w.Sound) (hno : w'.outline.merged = [])
    (hs : w'.stage = .rest) : w.outline.merged = [] ∧ w.outline.Extends w'.outline := by
  suffices hall : w.outline.merged = [] ∧ w.stage = .rest ∧ w.outline.Extends w'.outline from ⟨hall.1, hall.2.2⟩
  induction h with
  | refl => exact ⟨hno, hs, .refl _⟩
  | tail hr hedit ih =>
    obtain ⟨hs₁, hlast⟩ := hedit.extends (Edits.sound hr hw) hno hs
    obtain ⟨hno₀, hs₀, hfirst⟩ := ih (hedit.merged hno) hs₁
    exact ⟨hno₀, hs₀, hfirst.trans hlast⟩

end Edits

namespace Memo

variable {Op Q : Type} {m m' m'' : Memo Op Q} {g : GroupId}

/-- Names of groups stand for what they stood for, groups only get members behind those that they have, and these stay
the expressions that they are. -/
structure Grows (m m' : Memo Op Q) : Prop where
  reduce : ∀ g, m'.reduceGroup g = m.reduceGroup g
  members : ∀ g, m.members g <+: m'.members g
  exprs : ∀ (g : GroupId), ∀ e ∈ m.members g, (m'.exprs[e]?).map Entry.expr = (m.exprs[e]?).map Entry.expr

theorem Grows.refl (m : Memo Op Q) : m.Grows m := ⟨fun _ => rfl, fun _ => List.prefix_rfl, fun _ _ _ => rfl⟩

theorem Grows.trans (h₁ : m.Grows m') (h₂ : m'.Grows m'') : m.Grows m'' where
  reduce g := (h₂.reduce g).trans (h₁.reduce g)
  members g := (h₁.members g).trans (h₂.members g)
  exprs g e he := (h₂.exprs g e ((h₁.members g).subset he)).trans (h₁.exprs g e he)

theorem grows_of_extends (hs : m.outline.Sound) (h : m.outline.Extends m'.outline) : m.Grows m' where
  reduce := h.reduce
  members g := by
    unfold members group?
    rw [show m'.reduceGroup g = m.reduceGroup g from h.reduce g]
    cases hg : m.groups[m.reduceGroup g]? with
    | none => exact List.nil_prefix
    | some group =>
      obtain ⟨c', hc', hprefix⟩ := h.members _ _ (outline_group_of hg)
      rw [outline_group] at hc'
      obtain ⟨group', hgroup', rfl⟩ := Option.map_eq_some_iff.1 hc'
      rw [hgroup']
      exact hprefix
  exprs g e he := by
    obtain ⟨x, hx⟩ := (mem_members hs).1 he
    have hx' := h.entry e _ hx
    rw [outline_entry] at hx hx'
    obtain ⟨entry, hentry, hplace⟩ := Option.map_eq_some_iff.1 hx
    obtain ⟨entry', hentry', hplace'⟩ := Option.map_eq_some_iff.1 hx'
    rw [hentry, hentry']
    exact congrArg (fun p => some p.1) (hplace'.trans hplace.symm)

variable [Quantity Q] {model : CostModel Op Q}

/-- A group that has kept its members is counted as before. -/
theorem Grows.estimate_eq (h : m.Grows m') (hm : m'.members g = m.members g) :
    m'.estimate model g = m.estimate model g := by
  have hsame : ∀ e ∈ m.members g, (m'.exprs[e]?).map (fun entry => model.estimatedRows entry.expr) =
      (m.exprs[e]?).map fun entry => model.estimatedRows entry.expr := fun e he => by
    have hexpr := congrArg (Option.map model.estimatedRows) (h.exprs g e he)
    rwa [Option.map_map, Option.map_map] at hexpr
  unfold estimate
  rw [hm, List.filterMap_congr hsame]

end Memo

/-! ## Chronicles -/

section Chronicle

open RowCount

variable {Op Q : Type} [Quantity Q] {model : CostModel Op Q} {m m' m₁ : Memo Op Q} {cache cache₁ known : RowCache Q}
  {past : List (Memo Op Q × RowCache Q)} {g : GroupId} {D : GroupId → Prop}

/-- What the memo and the known row counts were at the moments since these were dropped, latest first, up to `m` and
`cache`: the memo grew, or a query was answered, which may have made counts known. -/
inductive Chronicle (model : CostModel Op Q) : Memo Op Q → RowCache Q → List (Memo Op Q × RowCache Q) → Prop
  | dropped (m : Memo Op Q) : Chronicle model m ∅ []
  | grown {m m' : Memo Op Q} {cache : RowCache Q} {past : List (Memo Op Q × RowCache Q)}
      (before : Chronicle model m cache past) (grows : m.Grows m') : Chronicle model m' cache ((m, cache) :: past)
  | asked {m : Memo Op Q} {cache : RowCache Q} {past : List (Memo Op Q × RowCache Q)} {α : Type} (q : RowQuery Q α)
      (before : Chronicle model m cache past) : Chronicle model m (q.eval m model cache).2 ((m, cache) :: past)

/-- The memo has grown into the present one. -/
theorem Chronicle.grows (h : Chronicle model m cache past) (hmem : (m₁, cache₁) ∈ (m, cache) :: past) : m₁.Grows m := by
  induction h with
  | dropped m =>
    cases List.mem_singleton.1 hmem
    exact .refl _
  | grown before grows ih =>
    rcases List.mem_cons.1 hmem with heq | hmem
    · cases heq
      exact .refl _
    · exact (ih hmem).trans grows
  | asked q before ih =>
    rcases List.mem_cons.1 hmem with heq | hmem
    · cases heq
      exact .refl _
    · exact ih hmem

/-! ### Counts are what was answered -/

/-- Groups that have kept their members, and are counted from one another, have the counts that they had. -/
theorem Memo.Grows.counts (h : m.Grows m') (hD : Closed m model D) (hm : ∀ k, D k → m'.members k = m.members k)
    {n : Nat} {rows : Option Q} (hg : D g) (hcount : Counts m model known n g rows) : Counts m' model known n g rows := by
  induction hcount with
  | kept old => exact .kept old
  | @found n g answers new below ih =>
    have hsame : m'.estimate model g = m.estimate model g := h.estimate_eq (hm g hg)
    rw [← hsame]
    refine .found new fun k hk => ?_
    rw [hsame] at hk
    rw [h.reduce]
    exact ih k hk (hD.mayAsk hg (RowQuery.mayAsk_of_mem_asked hk))

theorem Memo.Grows.closed (h : m.Grows m') (hD : Closed m' model D) (hm : ∀ k, D k → m'.members k = m.members k) :
    Closed m model D := by
  rintro k _ hk ⟨asked, hasked, rfl⟩
  rw [← h.estimate_eq (hm k hk)] at hasked
  exact hD k _ hk ⟨asked, hasked, h.reduce asked⟩

/-- What has become known of groups that have kept their members since nothing was known of them are their counts. -/
theorem Chronicle.sound (h : Chronicle model m cache past) (hmem : (m₁, cache₁) ∈ (m, cache) :: past)
    (hnone : ∀ k, D k → cache₁[k]? = none) (hsame : ∀ k, D k → m₁.members k = m.members k) (hD : Closed m model D) :
    Sound m model ∅ D cache := by
  have now : ∀ {m : Memo Op Q}, Sound m model ∅ D cache₁ :=
    ⟨fun k rows _ h => by simp at h, fun k rows hk h => by rw [hnone k hk] at h; cases h⟩
  induction h with
  | dropped m =>
    cases List.mem_singleton.1 hmem
    exact now
  | @grown m m' cache past before grows ih =>
    rcases List.mem_cons.1 hmem with heq | hmem
    · cases heq
      exact now
    · -- the members in between are the same, as groups only grow
      have hbetween : ∀ k, D k → m'.members k = m.members k := fun k hk =>
        ((grows.members k).eq_of_length_le (hsame k hk ▸ ((before.grows hmem).members k).length_le)).symm
      have hD₀ := grows.closed hD hbetween
      have hsound := ih hmem (fun k hk => (hsame k hk).trans (hbetween k hk)) hD₀
      refine ⟨fun k rows _ h => by simp at h, fun k rows hk hrows => ?_⟩
      obtain ⟨n, hcount⟩ := hsound.counts k rows hk hrows
      exact ⟨n, grows.counts hD₀ hbetween hk hcount⟩
  | asked q before ih =>
    rcases List.mem_cons.1 hmem with heq | hmem
    · cases heq
      exact now
    · exact q.sound_eval hD (ih hmem hsame hD)

/-- The count of `g` may be made from that of `h`, over any number of groups. -/
abbrev Memo.MayCount (m : Memo Op Q) (model : CostModel Op Q) : GroupId → GroupId → Prop :=
  Relation.ReflTransGen (m.MayRead model)

/-- A group has the count that it has when nothing is known, if of all groups that its count may be made from nothing
was known at a moment since when they have kept their members. -/
theorem Chronicle.fresh (h : Chronicle model m cache past) (hmem : (m₁, cache₁) ∈ (m, cache) :: past)
    (hkept : ∀ k, m.MayCount model (m.reduceGroup g) k → cache₁[k]? = none ∧ m₁.members k = m.members k) :
    (m.rowCount model g cache).1 = (m.rowCount model g ∅).1 := by
  have hD : Closed m model (m.MayCount model (m.reduceGroup g)) := fun _ _ hk hread => hk.tail hread
  have hsound := h.sound hmem (fun k hk => (hkept k hk).1) (fun k hk => (hkept k hk).2) hD
  exact hsound.rowCount_eq hD (.refl m model ∅ _) .refl

end Chronicle

end PlanSearch
