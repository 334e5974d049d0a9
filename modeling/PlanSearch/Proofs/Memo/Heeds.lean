import PlanSearch.Proofs.Memo.Piecewise
import PlanSearch.Proofs.Memo.Reached

/-!
# What calls heed

No call on a memo changes the registry of trait kinds, and nothing enters the memo whose traits do not fit it. A
sub group that a call marks as required is noted, also where the mark comes from one that is folded into it, and
notes stay until they are taken. So what is required was required before, or is noted. And the other way round,
what a name stands for goes on being required, as the mark of what is folded is handed on.

    m.Call m' → m'.registry = m.registry                    (Call.registry_eq)
    m.Call m' → m.Heeds m' ∨ m' = m.forgetChanges           (Call.heeds)
    m.Heeds m' → m.Fitting → m'.Fitting                     (Heeds.fitting)
    m.Call m' → m.Upholds m'                                (Call.upholds)
-/

namespace PlanSearch

namespace Memo

variable {Op Q : Type}

/-- The live sub group is marked as required. -/
def IsRequired (m : Memo Op Q) (s : SubGroupId) : Prop :=
  ∃ sub, m.subGroups[s]? = some sub ∧ sub.required = true

/-- What expressions deliver and sub groups ask for fits the registry. -/
structure Fitting (m : Memo Op Q) : Prop where
  delivered : ∀ (e : ExprId) (entry : Entry Op Q), m.exprs[e]? = some entry →
    m.registry.check entry.expr.traits = .ok ()
  asked : ∀ (s : SubGroupId) (sub : SubGroup Q), m.subGroups[s]? = some sub → m.registry.check sub.traits = .ok ()

theorem fitting_empty (registry : Registry Op) (factRules : List (FactRule Op)) (tieBreak : TieBreak) :
    (empty registry factRules tieBreak : Memo Op Q).Fitting :=
  ⟨fun e entry he => by simp [empty] at he, fun s sub hs => by simp [empty] at hs⟩

/-- Live sub groups stand for themselves, and numbers still to be given out name none. -/
structure Anchored (m : Memo Op Q) : Prop where
  live : ∀ s, (m.subGroups[s]?).isSome → m.subGroupAlias.find? s = some s
  fresh : ∀ n, m.next ≤ n → m.subGroupAlias.find? ⟨n⟩ = none

/-- What a name of a sub group stands for goes on being required. -/
def Upholds (m m' : Memo Op Q) : Prop := m.Anchored →
  m'.Anchored ∧ ∀ s, m.IsRequired (m.reduceSubGroup s) → m'.IsRequired (m'.reduceSubGroup s)

section Upholds

variable {m m' m'' : Memo Op Q}

theorem Anchored.reduceSubGroup (h : m.Anchored) {s : SubGroupId} {sub : SubGroup Q} (hs : m.subGroups[s]? = some sub) :
    m.reduceSubGroup s = s := by
  show (m.subGroupAlias.find? s).getD s = s
  rw [h.live s (by rw [hs]; rfl)]
  rfl

theorem Upholds.refl (m : Memo Op Q) : m.Upholds m := fun h => ⟨h, fun _ => id⟩

theorem Upholds.trans (h₁ : m.Upholds m') (h₂ : m'.Upholds m'') : m.Upholds m'' := by
  intro h
  obtain ⟨h', hup⟩ := h₁ h
  obtain ⟨h'', hup'⟩ := h₂ h'
  exact ⟨h'', fun s hs => hup' s (hup s hs)⟩

/-- Where names stay as they are, and so do the sub groups with their marks, if they are not marked besides. -/
theorem Upholds.of_same (ha : m'.subGroupAlias = m.subGroupAlias) (hn : m.next ≤ m'.next)
    (hs : ∀ s : SubGroupId, (m'.subGroups[s]?).isSome → (m.subGroups[s]?).isSome)
    (hr : ∀ s, m.IsRequired s → m'.IsRequired s) : m.Upholds m' := by
  refine fun h => ⟨⟨fun s hlive => ha ▸ h.live s (hs s hlive), fun n hle => ha ▸ h.fresh n (Nat.le_trans hn hle)⟩,
    fun s hrequired => ?_⟩
  unfold Memo.reduceSubGroup at hrequired ⊢
  rw [ha]
  exact hr _ hrequired

/-- Where the record of one sub group is replaced, which stays required if it was. -/
theorem Upholds.setSub {s : SubGroupId} {old sub : SubGroup Q} (hold : m.subGroups[s]? = some old)
    (ha : m'.subGroupAlias = m.subGroupAlias) (hn : m'.next = m.next) (hs : m'.subGroups = m.subGroups.insert s sub)
    (hq : old.required = true → sub.required = true) : m.Upholds m' := by
  refine .of_same ha (Nat.le_of_eq hn.symm) (fun t ht => ?_) ?_
  · rw [hs, Tables.getElem?_insert_eq] at ht
    split at ht
    · next heq => rw [heq, hold]; rfl
    · exact ht
  · rintro t ⟨sub', hsub', hrequired⟩
    unfold IsRequired
    simp only [hs, Tables.getElem?_insert_eq]
    split
    · next heq =>
      rw [heq, hold] at hsub'
      cases hsub'
      exact ⟨sub, rfl, hq hrequired⟩
    · exact ⟨sub', hsub', hrequired⟩

end Upholds

/-- The registry and all notes of requirements stay, every other sub group that is required was so before,
traits go on fitting the registry, and what names stand for goes on being required. -/
structure Heeds (m m' : Memo Op Q) : Prop where
  registry : m'.registry = m.registry
  notes : ∀ s ∈ m.changes.required, s ∈ m'.changes.required
  required : ∀ s, m'.IsRequired s → s ∈ m'.changes.required ∨ m.IsRequired s
  fitting : m.Fitting → m'.Fitting
  upholds : m.Upholds m'

section Heeds

variable {m m' m'' : Memo Op Q}

theorem Heeds.refl (m : Memo Op Q) : m.Heeds m := ⟨rfl, fun _ hs => hs, fun _ => .inr, id, .refl m⟩

theorem Heeds.trans (h₁ : m.Heeds m') (h₂ : m'.Heeds m'') : m.Heeds m'' where
  registry := h₂.registry.trans h₁.registry
  notes s hs := h₂.notes s (h₁.notes s hs)
  required s hs := by
    rcases h₂.required s hs with hnoted | hs
    · exact .inl hnoted
    · exact (h₁.required s hs).imp (h₂.notes s) id
  fitting hm := h₂.fitting (h₁.fitting hm)
  upholds := h₁.upholds.trans h₂.upholds

/-- Where sub groups and notes stay as they are, and expressions go on delivering what they do. -/
theorem Heeds.of_same (hr : m'.registry = m.registry) (hn : m'.changes.required = m.changes.required)
    (hs : m'.subGroups = m.subGroups) (ha : m'.subGroupAlias = m.subGroupAlias) (hx : m'.next = m.next)
    (he : ∀ (e : ExprId) (entry' : Entry Op Q), m'.exprs[e]? = some entry' →
      ∃ entry : Entry Op Q, m.exprs[e]? = some entry ∧ entry.expr.traits = entry'.expr.traits) : m.Heeds m' where
  registry := hr
  notes s h := hn ▸ h
  required s h := .inr (by unfold IsRequired at h; rwa [hs] at h)
  fitting hm := by
    refine ⟨fun e entry' hentry' => ?_, fun s sub hsub => ?_⟩
    · obtain ⟨entry, hentry, ht⟩ := he e entry' hentry'
      rw [hr, ← ht]
      exact hm.delivered e entry hentry
    · rw [hr]
      exact hm.asked s sub (hs ▸ hsub)
  upholds := .of_same ha (Nat.le_of_eq hx.symm) (fun s => hs ▸ id) fun s h => by unfold IsRequired; rwa [hs]

/-- Where the record of one sub group is replaced, which is required if and only if it was. -/
theorem Heeds.setSub {s : SubGroupId} {old sub : SubGroup Q} (hold : m.subGroups[s]? = some old)
    (hr : m'.registry = m.registry) (hn : m'.changes.required = m.changes.required)
    (hs : m'.subGroups = m.subGroups.insert s sub) (ha : m'.subGroupAlias = m.subGroupAlias) (hx : m'.next = m.next)
    (he : m'.exprs = m.exprs) (hq : sub.required = old.required) (ht : sub.traits = old.traits) : m.Heeds m' where
  registry := hr
  notes t h := hn ▸ h
  required t := by
    rintro ⟨sub', hsub', hrequired⟩
    rw [hs, Tables.getElem?_insert_eq] at hsub'
    split at hsub'
    · next heq =>
      cases hsub'
      exact .inr ⟨old, heq ▸ hold, hq ▸ hrequired⟩
    · exact .inr ⟨sub', hsub', hrequired⟩
  fitting hm := by
    refine ⟨fun e entry hentry => ?_, fun t sub' hsub' => ?_⟩
    · rw [hr]
      exact hm.delivered e entry (he ▸ hentry)
    · rw [hs, Tables.getElem?_insert_eq] at hsub'
      rw [hr]
      split at hsub'
      · cases hsub'
        rw [ht]
        exact hm.asked s old hold
      · exact hm.asked t sub' hsub'
  upholds := .setSub hold ha hx hs fun h => hq ▸ h

end Heeds

/-! ## Marks -/

section Marks

variable {m m' : Memo Op Q}

/-- A mark is noted, unless it was there. -/
theorem heeds_markIf {require : Bool} {s : SubGroupId} (h : markIf require s m = .ok m') : m.Heeds m' := by
  obtain ⟨rfl, -⟩ | ⟨-, sub, hs, -, rfl⟩ := markIf_eq_ok h
  · exact .refl _
  refine ⟨rfl, fun t ht => List.mem_append_left _ ht, ?_, fun hm => ⟨hm.delivered, ?_⟩,
    .setSub hs rfl rfl rfl fun _ => rfl⟩
  · rintro t ⟨sub', hsub', hrequired⟩
    simp only [mark, setSubGroup, Tables.getElem?_insert_eq] at hsub'
    split at hsub'
    · next ht => exact .inl (List.mem_append_right _ (List.mem_singleton.2 ht))
    · exact .inr ⟨sub', hsub', hrequired⟩
  · intro t sub' hsub'
    simp only [mark, setSubGroup, Tables.getElem?_insert_eq] at hsub'
    split at hsub'
    · cases hsub'
      exact hm.asked s sub hs
    · exact hm.asked t sub' hsub'

theorem isRequired_markIf {s : SubGroupId} (h : markIf true s m = .ok m') : m'.IsRequired s := by
  obtain ⟨rfl, hmarked⟩ | ⟨-, sub, -, -, rfl⟩ := markIf_eq_ok h
  · exact hmarked rfl
  · refine ⟨{ sub with required := true }, ?_, rfl⟩
    simp only [mark, setSubGroup, Tables.getElem?_insert_eq, if_true]

end Marks

/-! ## Merging -/

section Merging

variable {m m' : Memo Op Q}

theorem getElem?_retire (m : Memo Op Q) (kept s t : SubGroupId) :
    (m.retire kept s).subGroups[t]? = if t = s then none else m.subGroups[t]? := by
  rw [retire, Tables.getElem?_erase_eq]

/-- The names of the sub group that goes stand for the one that stays. -/
theorem Anchored.find?_retire (ha : m.Anchored) {kept s : SubGroupId} (hs : (m.subGroups[s]?).isSome)
    (hkept : (m.subGroups[kept]?).isSome) (t : SubGroupId) : (m.retire kept s).subGroupAlias.find? t
      = if m.subGroupAlias.find? t = some s then some kept else m.subGroupAlias.find? t :=
  Partition.find?_unite (ha.live kept hkept) (ha.live s hs) t

theorem Anchored.reduceSubGroup_retire (ha : m.Anchored) {kept s : SubGroupId} (hs : (m.subGroups[s]?).isSome)
    (hkept : (m.subGroups[kept]?).isSome) (t : SubGroupId) :
    (m.retire kept s).reduceSubGroup t = if m.reduceSubGroup t = s then kept else m.reduceSubGroup t := by
  show ((m.retire kept s).subGroupAlias.find? t).getD t = if (m.subGroupAlias.find? t).getD t = s then kept else _
  rw [ha.find?_retire hs hkept]
  cases ht : m.subGroupAlias.find? t with
  | none =>
    have hne : t ≠ s := by
      rintro rfl
      rw [ha.live t hs] at ht
      cases ht
    simp [Memo.reduceSubGroup, Partition.resolve, ht, hne]
  | some r => by_cases hr : r = s <;> simp [Memo.reduceSubGroup, Partition.resolve, ht, hr]

theorem Anchored.retire (ha : m.Anchored) {kept s : SubGroupId} (hs : (m.subGroups[s]?).isSome)
    (hkept : (m.subGroups[kept]?).isSome) : (m.retire kept s).Anchored := by
  refine ⟨fun t ht => ?_, fun n hle => ?_⟩
  · rw [getElem?_retire] at ht
    split at ht
    · cases ht
    · next hne => rw [ha.find?_retire hs hkept, ha.live t ht, if_neg fun h => hne (Option.some.inj h)]
  · rw [ha.find?_retire hs hkept, ha.fresh n hle]
    rfl

/-- The sub group that stays was live before. -/
theorem live_of_retire {require : Bool} {kept s : SubGroupId} {keptSub : SubGroup Q}
    (hmark : markIf require kept (m.retire kept s) = .ok m') (hkept : m'.subGroups[kept]? = some keptSub) :
    (m.subGroups[kept]?).isSome := by
  have hlive : ((m.retire kept s).outline.sub kept).isSome := by
    rw [← outline_markIf hmark, outline_sub, hkept]
    rfl
  rw [outline_sub, Option.isSome_map, getElem?_retire] at hlive
  split at hlive
  · cases hlive
  · exact hlive

/-- What is folded hands its mark on. -/
theorem upholds_fold {kept s : SubGroupId} {sub keptSub : SubGroup Q} (hs : m.subGroups[s]? = some sub)
    (hmark : markIf sub.required kept (m.retire kept s) = .ok m') (hkept : m'.subGroups[kept]? = some keptSub) :
    m.Upholds m' := by
  intro ha
  have hlive : (m.subGroups[s]?).isSome := by rw [hs]; rfl
  have hreduce := ha.reduceSubGroup_retire hlive (live_of_retire hmark hkept)
  obtain ⟨ha', hup⟩ := (heeds_markIf hmark).upholds (ha.retire hlive (live_of_retire hmark hkept))
  refine ⟨ha', fun t ⟨sub', hsub', hmarked⟩ => ?_⟩
  by_cases ht : m.reduceSubGroup t = s
  · rw [ht, hs] at hsub'
    cases hsub'
    rw [hmarked] at hmark
    have hsame : m'.reduceSubGroup t = (m.retire kept s).reduceSubGroup t :=
      congrArg (fun o => o.reduceSub t) (outline_markIf hmark)
    rw [hsame, hreduce, if_pos ht]
    exact isRequired_markIf hmark
  · refine hup t ?_
    rw [hreduce, if_neg ht]
    exact ⟨sub', by rw [getElem?_retire, if_neg ht, hsub'], hmarked⟩

/-- What is folded leaves its mark, and that is noted, unless it was there. -/
theorem heeds_fold {kept s : SubGroupId} {sub keptSub : SubGroup Q} (hs : m.subGroups[s]? = some sub)
    (hmark : markIf sub.required kept (m.retire kept s) = .ok m') (hkept : m'.subGroups[kept]? = some keptSub) :
    m.Heeds m' := by
  have hmarks := heeds_markIf hmark
  refine ⟨hmarks.registry, hmarks.notes, fun t ht => (hmarks.required t ht).imp id ?_, fun hm =>
    hmarks.fitting ⟨hm.delivered, ?_⟩, upholds_fold hs hmark hkept⟩
  · rintro ⟨sub', hsub', hrequired⟩
    rw [getElem?_retire] at hsub'
    split at hsub'
    · cases hsub'
    · exact ⟨sub', hsub', hrequired⟩
  · intro t sub' hsub'
    rw [getElem?_retire] at hsub'
    split at hsub'
    · cases hsub'
    · exact hm.asked t sub' hsub'

/-- Where one expression is entered anew, and goes on delivering what it does. -/
theorem Heeds.setEntry {e : ExprId} {old entry : Entry Op Q} (hold : m.exprs[e]? = some old)
    (ht : old.expr.traits = entry.expr.traits) : m.Heeds { m with exprs := m.exprs.insert e entry } := by
  refine .of_same rfl rfl rfl rfl rfl fun e' entry' hentry' => ?_
  rw [Tables.getElem?_insert_eq] at hentry'
  split at hentry'
  · next he =>
    cases hentry'
    exact ⟨old, he ▸ hold, ht⟩
  · exact ⟨entry', hentry', rfl⟩

theorem heeds_strike (m : Memo Op Q) (e twin : ExprId) (entry : Entry Op Q) (x : Expr Op) :
    m.Heeds (m.strike e twin entry x) := by
  refine .of_same rfl rfl rfl rfl rfl fun e' entry' he' => ?_
  simp only [strike] at he'
  rw [Tables.getElem?_modify_eq, Tables.getElem?_erase_eq] at he'
  split at he'
  · obtain ⟨old, hold, rfl⟩ := Option.map_eq_some_iff.1 he'
    split at hold
    · cases hold
    · exact ⟨old, hold, rfl⟩
  · split at he'
    · cases he'
    · exact ⟨entry', he', rfl⟩

theorem piecewise_heeds : Piecewise (Heeds : Memo Op Q → Memo Op Q → Prop) where
  refl := .refl
  trans := .trans
  noted hnotes := .of_same rfl hnotes rfl rfl rfl fun _ entry he => ⟨entry, he, rfl⟩
  crowned hs := .setSub hs rfl rfl rfl rfl rfl rfl rfl rfl
  priced hentry := .setEntry hentry rfl
  folded := heeds_fold
  handed hs := .setSub hs rfl rfl rfl rfl rfl rfl rfl rfl
  rewritten hentry := .setEntry hentry rfl
  struck := heeds_strike

theorem heeds_takeIn (keep absorbed : GroupId) (gone : Group) (m : Memo Op Q) :
    m.Heeds (takeIn keep absorbed gone m) := by
  refine .of_same rfl rfl rfl rfl rfl fun e entry' he => ?_
  simp only [takeIn] at he
  rw [Tables.getElem?_foldl_modify_key (fun x : Entry Op Q => { x with group := keep })
    (fun _ => rfl)] at he
  split at he
  · obtain ⟨entry, hentry, rfl⟩ := Option.map_eq_some_iff.1 he
    exact ⟨entry, hentry, rfl⟩
  · exact ⟨entry', he, rfl⟩

end Merging

/-! ## Sub groups -/

section SubGroups

variable {m m' : Memo Op Q}

theorem upholds_openSubGroup (m : Memo Op Q) (g : GroupId) (traits : TraitSet) :
    m.Upholds (m.openSubGroup g traits).1 := by
  intro h
  have hnew : ∀ s, (m.openSubGroup g traits).1.subGroupAlias.find? s =
      if s = ⟨m.next⟩ then some ⟨m.next⟩ else m.subGroupAlias.find? s := by
    intro s
    have hunknown := (Partition.find?_eq_none_iff _ _).1 (h.fresh m.next (Nat.le_refl _))
    simp only [openSubGroup, Partition.find?_add, hunknown, not_false_eq_true, and_true]
  refine ⟨⟨fun s hs => ?_, fun n hle => ?_⟩, fun s hrequired => ?_⟩
  · rw [hnew]
    simp only [openSubGroup, Tables.getElem?_insert_eq] at hs
    split
    · next heq => rw [heq]
    · next hne =>
      rw [if_neg hne] at hs
      exact h.live s hs
  · have hlt : m.next < n := hle
    rw [hnew, if_neg fun heq => Nat.ne_of_gt hlt (congrArg Ident.val heq)]
    exact h.fresh n (Nat.le_of_lt hlt)
  · -- the new name stands for itself now, and did before as it was unknown
    have hsame : (m.openSubGroup g traits).1.reduceSubGroup s = m.reduceSubGroup s := by
      show ((m.openSubGroup g traits).1.subGroupAlias.find? s).getD s = (m.subGroupAlias.find? s).getD s
      rw [hnew]
      split
      · next heq => rw [heq, h.fresh m.next (Nat.le_refl _)]; rfl
      · rfl
    rw [hsame]
    obtain ⟨sub, hsub, hmark⟩ := hrequired
    refine ⟨sub, ?_, hmark⟩
    simp only [openSubGroup, Tables.getElem?_insert_eq]
    split
    · next heq =>
      have hfind := h.live (m.reduceSubGroup s) (by rw [hsub]; rfl)
      rw [heq, h.fresh m.next (Nat.le_refl _)] at hfind
      cases hfind
    · exact hsub

/-- A sub group is opened for traits that fit. -/
theorem heeds_openSubGroup {g : GroupId} {traits : TraitSet} (ht : m.registry.check traits = .ok ()) :
    m.Heeds (m.openSubGroup g traits).1 := by
  refine ⟨rfl, fun _ hs => hs, ?_, fun hm => ⟨hm.delivered, ?_⟩, upholds_openSubGroup m g traits⟩
  · rintro t ⟨sub, hsub, hrequired⟩
    simp only [openSubGroup, Tables.getElem?_insert_eq] at hsub
    split at hsub
    · cases hsub
      cases hrequired
    · exact .inr ⟨sub, hsub, hrequired⟩
  · intro t sub hsub
    simp only [openSubGroup, Tables.getElem?_insert_eq] at hsub
    split at hsub
    · cases hsub
      exact ht
    · exact hm.asked t sub hsub

theorem heeds_ensureSubGroup [Quantity Q] {r : SubGroupRef} {require : Bool} {s : SubGroupId}
    (h : ensureSubGroup r require m = .ok s m') : m.Heeds m' := by
  obtain ⟨hfits, group, -, ⟨-, hmark⟩ | ⟨-, -, m₁, hmark, hoffer⟩⟩ := ensureSubGroup_eq_ok h
  · exact heeds_markIf hmark
  · exact (heeds_openSubGroup (checkTraits_eq_ok hfits)).trans
      ((heeds_markIf hmark).trans (piecewise_heeds.offerAll hoffer))

end SubGroups

/-! ## Insertion -/

section Insertion

variable {m m' : Memo Op Q}

/-- An expression is entered with traits that fit. -/
theorem Heeds.of_entered {e : ExprId} {entry : Entry Op Q} (ht : m.registry.check entry.expr.traits = .ok ())
    (hr : m'.registry = m.registry) (hn : m'.changes.required = m.changes.required)
    (hs : m'.subGroups = m.subGroups) (ha : m'.subGroupAlias = m.subGroupAlias) (hx : m.next ≤ m'.next)
    (he : m'.exprs = m.exprs.insert e entry) : m.Heeds m' where
  registry := hr
  notes s h := hn ▸ h
  required s h := .inr (by unfold IsRequired at h; rwa [hs] at h)
  fitting hm := by
    refine ⟨fun e' entry' hentry' => ?_, fun s sub hsub => ?_⟩
    · rw [hr]
      rw [he, Tables.getElem?_insert_eq] at hentry'
      split at hentry'
      · cases hentry'
        exact ht
      · exact hm.delivered e' entry' hentry'
    · rw [hr]
      exact hm.asked s sub (hs ▸ hsub)
  upholds := .of_same ha hx (fun s => hs ▸ id) fun s h => by unfold IsRequired; rwa [hs]

variable [Operator Op] [Quantity Q]

omit [Quantity Q] in
theorem heeds_extend {x : Expr Op} {rowType : RowType} {t g : GroupId} {e : ExprId}
    (ht : m.registry.check x.traits = .ok ()) (h : extend x rowType t m = .ok (g, e) m') : m.Heeds m' := by
  obtain ⟨-, -, -, rfl⟩ := extend_eq_ok h
  exact .of_entered (show m.registry.check x.traits = .ok () from ht) rfl rfl rfl rfl (Nat.le_succ _) rfl

omit [Quantity Q] in
theorem heeds_create {x : Expr Op} {rowType : RowType} {g : GroupId} {e : ExprId}
    (ht : m.registry.check x.traits = .ok ()) (h : create x rowType m = .ok (g, e) m') : m.Heeds m' := by
  obtain ⟨-, -, facts, -, rfl⟩ := create_eq_ok h
  exact .of_entered (show m.registry.check x.traits = .ok () from ht) rfl rfl rfl rfl (Nat.le_add_right _ 2) rfl

theorem heeds_merge {a b : GroupId} (h : merge a b m = .ok () m') : m.Heeds m' :=
  piecewise_heeds.mergeAll heeds_takeIn h

theorem heeds_register {head : Operation Op} {refs : List SubGroupRef} {target : Option GroupId}
    {answer : GroupId × ExprId} (ht : m.registry.check head.traits = .ok ())
    (h : register head refs target m = .ok answer m') : m.Heeds m' := by
  cases register_eq_ok h with
  | found known => exact .refl _
  | united known fits merged => exact heeds_merge merged
  | created new ok => exact heeds_create ht ok
  | extended new ok => exact heeds_extend ht ok

theorem heeds_insertOver {head : Operation Op} {inputs : Update Op Q (List SubGroupRef)}
    {target : Option GroupId} {answer : GroupId × ExprId}
    (hi : ∀ refs m₁, inputs m = .ok refs m₁ → m.Heeds m₁)
    (h : insertOver head inputs target m = .ok answer m') : m.Heeds m' := by
  obtain ⟨hfits, refs, m₁, h₁, h⟩ := insertOver_eq_ok h
  have hinputs := hi refs m₁ h₁
  exact hinputs.trans (heeds_register (hinputs.registry ▸ hfits) h)

theorem heeds_insertInputs (op : Op) (require : Bool) : ∀ (ps : List (Plan Op)) {m m' : Memo Op Q}
    {refs : List SubGroupRef}, insertInputs op require ps m = .ok refs m' → m.Heeds m'
  | [], m, m', refs, h => by
    obtain ⟨-, rfl⟩ := insertInputs_nil_eq_ok h
    exact .refl _
  | .group ref :: rest, m, m', refs, h => by
    obtain ⟨-, s, m₁, refs', h₁, h₂, -⟩ := insertInputs_group_eq_ok h
    exact (heeds_ensureSubGroup h₁).trans (heeds_insertInputs op require rest h₂)
  | .node head inputs :: rest, m, m', refs, h => by
    obtain ⟨g, e, m₁, s, m₂, refs', h₁, h₂, h₃, -⟩ := insertInputs_node_eq_ok h
    have hbelow := heeds_insertOver (fun _ _ => heeds_insertInputs head.op true inputs) h₁
    exact hbelow.trans ((heeds_ensureSubGroup h₂).trans (heeds_insertInputs op require rest h₃))

theorem heeds_addNodeTo {n : PlanNode Op} {g : GroupId} {require : Bool} {e : Option ExprId}
    (h : addNodeTo n g require m = .ok e m') : m.Heeds m' := by
  obtain ⟨hfits, refs, m₁, g', e', h₁, h₂, -⟩ := addNodeTo_eq_ok h
  have hinputs := heeds_insertInputs _ _ n.inputs h₁
  exact hinputs.trans (heeds_register (hinputs.registry ▸ hfits) h₂)

theorem heeds_add {n : PlanNode Op} {answer : GroupId × ExprId} (h : add n m = .ok answer m') :
    m.Heeds m' := by
  obtain ⟨g', h₁, -⟩ := add_eq_ok h
  exact heeds_insertOver (fun _ _ => heeds_insertInputs _ _ n.inputs) h₁

theorem heeds_addTo {p : Plan Op} {g : GroupId} {answer : Option ExprId}
    (h : addTo p g m = .ok answer m') : m.Heeds m' := by
  cases p with
  | node head inputs => exact heeds_addNodeTo h
  | group ref => exact heeds_merge (addTo_group_eq_ok h).1

/-- Every call heeds what is required, unless it takes the notes. -/
theorem Call.heeds (h : m.Call m') : m.Heeds m' ∨ m' = m.forgetChanges := by
  cases h with
  | add ok => exact .inl (heeds_add ok)
  | addTo ok => exact .inl (heeds_addTo ok)
  | addEnforcer ok => exact .inl (heeds_addNodeTo ok)
  | ensureSubGroup ok => exact .inl (heeds_ensureSubGroup ok)
  | recordPrice ok => exact .inl (piecewise_heeds.recordPrice ok)
  | merge ok => exact .inl (heeds_merge ok)
  | forgetChanges => exact .inr rfl

/-- Every call upholds what is required. -/
theorem Call.upholds (h : m.Call m') : m.Upholds m' := by
  rcases h.heeds with hheeds | rfl
  · exact hheeds.upholds
  · exact .of_same rfl (Nat.le_refl _) (fun _ => id) fun _ => id

/-- No call changes the registry. -/
theorem Call.registry_eq (h : m.Call m') : m'.registry = m.registry := by
  rcases h.heeds with hheeds | rfl
  · exact hheeds.registry
  · rfl

end Insertion

end Memo

end PlanSearch
