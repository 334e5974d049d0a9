import PlanSearch.Proofs.Memo.Seats

/-!
# Where marks come from

A sub group is marked as required because an expression reads it or because the host asks for it. Merging makes no new
marks: what is required afterwards is what became of a sub group that was required before. Adding a plan marks the sub
groups of its inputs, at whatever depth, and no others.

    mergeAll m ps = .ok () m' → m.Traces m'                                                     (traces_mergeAll)
    insertInputs op require ps m = .ok refs m' → m.Asks m' (Plan.Reads require ps)             (insertInputs_asks)
    addNodeTo n g require m = .ok e m' → m.Asks m' (Plan.Reads require n.inputs)                   (addNodeTo_asks)
-/

namespace PlanSearch

open Outline

namespace Memo

variable {Op Q : Type} {m m' m'' : Memo Op Q}

/-! ## Marks that were there -/

/-- What is required stays so, and all that is required now is what became of something that was. -/
def Traces (m m' : Memo Op Q) : Prop := m.Upholds m' ∧ (m.Anchored →
  (∀ s, m.IsRequired (m.reduceSubGroup s) → m'.reduceSubGroup (m.reduceSubGroup s) = m'.reduceSubGroup s) ∧
  ∀ s, m'.IsRequired s → ∃ t, m.IsRequired t ∧ m'.reduceSubGroup t = s)

theorem Anchored.reduceSubGroup_of_required (h : m.Anchored) {s : SubGroupId} (hs : m.IsRequired s) :
    m.reduceSubGroup s = s := by
  obtain ⟨sub, hsub, -⟩ := hs
  exact h.reduceSubGroup hsub

/-- Where names stay as they are, and marks if they are there at all. -/
theorem Traces.of_same (hup : m.Upholds m') (ha : m'.subGroupAlias = m.subGroupAlias)
    (hr : ∀ s, m'.IsRequired s → m.IsRequired s) : m.Traces m' := by
  have hsame : ∀ s, m'.reduceSubGroup s = m.reduceSubGroup s := fun s => by
    unfold Memo.reduceSubGroup
    rw [ha]
  refine ⟨hup, fun h => ⟨fun s hs => ?_, fun s hs => ⟨s, hr s hs, ?_⟩⟩⟩
  · rw [hsame, hsame, h.reduceSubGroup_of_required hs]
  · rw [hsame, h.reduceSubGroup_of_required (hr s hs)]

theorem Traces.refl (m : Memo Op Q) : m.Traces m := .of_same (.refl m) rfl fun _ => id

theorem Traces.trans (h₁ : m.Traces m') (h₂ : m'.Traces m'') : m.Traces m'' := by
  refine ⟨h₁.1.trans h₂.1, fun h => ?_⟩
  obtain ⟨h', hup⟩ := h₁.1 h
  obtain ⟨hleads₁, hmarks₁⟩ := h₁.2 h
  obtain ⟨hleads₂, hmarks₂⟩ := h₂.2 h'
  have hleads : ∀ s, m.IsRequired (m.reduceSubGroup s) →
      m''.reduceSubGroup (m.reduceSubGroup s) = m''.reduceSubGroup s := fun s hs => by
    have hlive := h.reduceSubGroup_of_required hs
    have hnext := hleads₂ s (hup s hs)
    have hnext' := hleads₂ (m.reduceSubGroup s) (hup _ (by rwa [hlive]))
    rw [hleads₁ s hs] at hnext'
    rw [← hnext', hnext]
  refine ⟨hleads, fun s hs => ?_⟩
  obtain ⟨t', ht', rfl⟩ := hmarks₂ s hs
  obtain ⟨t, ht, rfl⟩ := hmarks₁ t' ht'
  have hlive := h.reduceSubGroup_of_required ht
  exact ⟨t, ht, (hleads₂ t (hup t (by rwa [hlive]))).symm⟩

/-- Where the record of one sub group is replaced, which is required if and only if it was. -/
theorem Traces.setSub {s : SubGroupId} {old sub : SubGroup Q} (hold : m.subGroups[s]? = some old)
    (ha : m'.subGroupAlias = m.subGroupAlias) (hn : m'.next = m.next) (hs : m'.subGroups = m.subGroups.insert s sub)
    (hq : sub.required = old.required) : m.Traces m' := by
  refine .of_same (.setSub hold ha hn hs fun h => hq ▸ h) ha ?_
  rintro t ⟨sub', hsub', hrequired⟩
  rw [hs, Tables.getElem?_insert_eq] at hsub'
  split at hsub'
  · next heq =>
    cases hsub'
    exact ⟨old, heq ▸ hold, hq ▸ hrequired⟩
  · exact ⟨sub', hsub', hrequired⟩

/-- Where the records of all sub groups stay. -/
theorem Traces.of_subGroups (ha : m'.subGroupAlias = m.subGroupAlias) (hn : m'.next = m.next)
    (hs : m'.subGroups = m.subGroups) : m.Traces m' := by
  have hr : ∀ s, m'.IsRequired s ↔ m.IsRequired s := fun s => by
    unfold IsRequired
    rw [hs]
  exact .of_same (.of_same ha (Nat.le_of_eq hn.symm) (fun s => hs ▸ id) fun s => (hr s).2) ha fun s => (hr s).1

/-- A mark is new for the one sub group only that it is set for. -/
theorem isRequired_of_markIf {require : Bool} {s t : SubGroupId} (h : markIf require s m = .ok m')
    (ht : m'.IsRequired t) : m.IsRequired t ∨ require = true ∧ t = s := by
  obtain ⟨rfl, -⟩ | ⟨hrequire, sub, -, -, rfl⟩ := markIf_eq_ok h
  · exact .inl ht
  · obtain ⟨sub', hsub', hrequired⟩ := ht
    simp only [mark, setSubGroup, Tables.getElem?_insert_eq] at hsub'
    split at hsub'
    · next heq => exact .inr ⟨hrequire, heq⟩
    · exact .inl ⟨sub', hsub', hrequired⟩

/-- What is folded hands its mark on, and makes no other. -/
theorem traces_fold {kept s : SubGroupId} {sub keptSub : SubGroup Q} (hs : m.subGroups[s]? = some sub)
    (hmark : markIf sub.required kept (m.retire kept s) = .ok m') (hkept : m'.subGroups[kept]? = some keptSub) :
    m.Traces m' := by
  refine ⟨upholds_fold hs hmark hkept, fun ha => ?_⟩
  have hname : ∀ t, m'.reduceSubGroup t = if m.reduceSubGroup t = s then kept else m.reduceSubGroup t := fun t => by
    have hsame : m'.reduceSubGroup t = (m.retire kept s).reduceSubGroup t :=
      congrArg (fun o => o.reduceSub t) (outline_markIf hmark)
    rw [hsame, ha.reduceSubGroup_retire (by rw [hs]; rfl) (live_of_retire hmark hkept)]
  refine ⟨fun t ht => ?_, fun t ht => ?_⟩
  · rw [hname, hname, ha.reduceSubGroup_of_required ht]
  · rcases isRequired_of_markIf hmark ht with ⟨sub', hsub', hrequired⟩ | ⟨hrequired, rfl⟩
    · rw [getElem?_retire] at hsub'
      split at hsub'
      · cases hsub'
      · next hts =>
        exact ⟨t, ⟨sub', hsub', hrequired⟩, by rw [hname, ha.reduceSubGroup hsub', if_neg hts]⟩
    · exact ⟨s, ⟨sub, hs, hrequired⟩, by rw [hname, ha.reduceSubGroup hs, if_pos rfl]⟩

theorem piecewise_traces : Piecewise (Traces : Memo Op Q → Memo Op Q → Prop) where
  refl := .refl
  trans := .trans
  noted _ := .of_subGroups rfl rfl rfl
  crowned hs := .setSub hs rfl rfl rfl rfl
  priced _ := .of_subGroups rfl rfl rfl
  folded := traces_fold
  handed hs := .setSub hs rfl rfl rfl rfl
  rewritten _ := .of_subGroups rfl rfl rfl
  struck _ _ _ _ _ := .of_subGroups rfl rfl rfl

/-- Merging makes no marks of its own. -/
theorem traces_mergeAll [DecidableEq Op] [Quantity Q] {ps : List (GroupId × GroupId)}
    (h : mergeAll m ps = .ok () m') : m.Traces m' :=
  piecewise_traces.mergeAll (fun _ _ _ _ => .of_subGroups rfl rfl rfl) h

/-! ## Marks that are new -/

/-- What is required now is what became of something that was, or what one of the plans `part` is read as. -/
def Asks (m m' : Memo Op Q) (part : Plan Op → Prop) : Prop := ∀ s, m'.IsRequired s →
  (∃ t, m.IsRequired t ∧ m'.reduceSubGroup t = s) ∨ ∃ p r, part p ∧ m'.outline.Stands p r ∧ m'.outline.Serves s r

section Asks

variable {part part' : Plan Op → Prop}

theorem Traces.asks (h : m.Traces m') (ht : m.outline.Tidy) : m.Asks m' part :=
  fun s hs => .inl ((h.2 (anchored_of_tidy ht)).2 s hs)

theorem Asks.mono (h : m.Asks m' part) (hp : ∀ p, part p → part' p) : m.Asks m' part' :=
  fun s hs => (h s hs).imp_right fun ⟨p, r, hpart, hrest⟩ => ⟨p, r, hp p hpart, hrest⟩

/-- Where all marks were there. -/
theorem Asks.of_marks (ht : m'.outline.Tidy) (h : ∀ s, m'.IsRequired s → m.IsRequired s) : m.Asks m' part :=
  fun s hs => .inl ⟨s, h s hs, (anchored_of_tidy ht).reduceSubGroup_of_required hs⟩

variable [Quantity Q]

theorem Asks.trans (h₁ : m.Asks m' part) (h₂ : m'.Asks m'' part) (hon : m'.Onward m'') (ht : m'.outline.Tidy) :
    m.Asks m'' part := by
  intro s hs
  have hlineage := hon.lineage ht
  rcases h₂ s hs with ⟨t', ht', rfl⟩ | hnew
  · rcases h₁ t' ht' with ⟨t, htr, rfl⟩ | ⟨p, r, hpart, hstands, hserves⟩
    · exact .inl ⟨t, htr, (hlineage.name t).symm⟩
    · refine .inr ⟨p, m''.outline.reduceRef r, hpart, hstands.evolve (hon.evolves ht) (hon.tidy ht), ?_⟩
      exact (hlineage.serves hserves).akin
        ⟨TraitSet.same_refl _, ((hon.tidy ht).sound.names.reduce_reduce r.group).symm⟩
  · exact .inr hnew

/-- The sub group that is asked for is the only one with a new mark. -/
theorem isRequired_of_ensureSubGroup {r : SubGroupRef} {require : Bool} {s t : SubGroupId}
    (hm : m.outline.Tidy) (h : ensureSubGroup r require m = .ok s m') (ht : m'.IsRequired t) :
    m.IsRequired t ∨ require = true ∧ t = s := by
  obtain ⟨-, group, -, ⟨-, hmark⟩ | ⟨-, -, m₁, hmark, hoffer⟩⟩ := ensureSubGroup_eq_ok h
  · exact isRequired_of_markIf hmark ht
  · have hanchored := ((upholds_openSubGroup m (m.reduceGroup r.group) r.traits).trans (heeds_markIf hmark).upholds
      (anchored_of_tidy hm)).1
    have htraces := piecewise_traces.offerAll hoffer
    obtain ⟨hanchored', -⟩ := htraces.1 hanchored
    obtain ⟨t', ht', hname⟩ := (htraces.2 hanchored).2 t ht
    have hsame : m'.reduceSubGroup t' = m₁.reduceSubGroup t' :=
      congrArg (fun o => o.reduceSub t') (outline_offerAll hoffer)
    rw [hsame, hanchored.reduceSubGroup_of_required ht'] at hname
    subst hname
    rcases isRequired_of_markIf hmark ht' with ⟨sub, hsub, hrequired⟩ | hnew
    · simp only [openSubGroup, Tables.getElem?_insert_eq] at hsub
      split at hsub
      · cases hsub
        cases hrequired
      · exact .inl ⟨sub, hsub, hrequired⟩
    · exact .inr hnew

theorem ensureSubGroup_asks {r : SubGroupRef} {require : Bool} {s : SubGroupId} (hm : m.Ordered [])
    (h : ensureSubGroup r require m = .ok s m')
    (hp : require = true → ∃ p, part p ∧ m'.outline.Stands p (m'.outline.reduceRef r)) : m.Asks m' part := by
  obtain ⟨-, -, hm'⟩ := ensureSubGroup_grown hm h
  intro t ht
  rcases isRequired_of_ensureSubGroup hm.tidy h ht with hold | ⟨hrequire, rfl⟩
  · exact .inl ⟨t, hold, (anchored_of_tidy hm'.tidy).reduceSubGroup_of_required ht⟩
  · obtain ⟨p, hpart, hstands⟩ := hp hrequire
    refine .inr ⟨p, _, hpart, hstands, (ensureSubGroup_serves hm.tidy h).akin ⟨TraitSet.same_refl _, ?_⟩⟩
    exact (hm'.tidy.sound.names.reduce_reduce r.group).symm

end Asks

end Memo

/-- The plan is one of those given, if these are read, or it is an input of an operation in them. -/
inductive Plan.Reads {Op : Type} (require : Bool) (ps : List (Plan Op)) : Plan Op → Prop
  | top {p : Plan Op} (mark : require = true) (mem : p ∈ ps) : Reads require ps p
  | below {p q : Plan Op} {head : Operation Op} {inputs : List (Plan Op)} (mem : q ∈ ps) (part : q.Has head inputs)
      (input : p ∈ inputs) : Reads require ps p

theorem Plan.Reads.tail {Op : Type} {require : Bool} {p q : Plan Op} {ps : List (Plan Op)}
    (h : Plan.Reads require ps p) : Plan.Reads require (q :: ps) p := by
  cases h with
  | top mark mem => exact .top mark (List.mem_cons_of_mem _ mem)
  | below mem part input => exact .below (List.mem_cons_of_mem _ mem) part input

theorem Plan.Reads.inside {Op : Type} {require : Bool} {head : Operation Op} {inputs ps : List (Plan Op)}
    {p : Plan Op} (h : Plan.Reads true inputs p) : Plan.Reads require (.node head inputs :: ps) p := by
  cases h with
  | top _ mem => exact .below List.mem_cons_self (.root head inputs) mem
  | below mem part input => exact .below List.mem_cons_self (.inside mem part) input

namespace Memo

section Insertion

variable {Op Q : Type} [Quantity Q] [Operator Op] {m m' : Memo Op Q}

omit [Quantity Q] in
theorem subGroups_create {x : Expr Op} {rowType : RowType} {answer : GroupId × ExprId}
    (h : create x rowType m = .ok answer m') : m'.subGroups = m.subGroups := by
  obtain ⟨-, -, facts, -, rfl⟩ := create_eq_ok h
  rfl

omit [Quantity Q] in
theorem subGroups_extend {x : Expr Op} {rowType : RowType} {t : GroupId} {answer : GroupId × ExprId}
    (h : extend x rowType t m = .ok answer m') : m'.subGroups = m.subGroups := by
  obtain ⟨-, -, -, rfl⟩ := extend_eq_ok h
  rfl

theorem register_asks {part : Plan Op → Prop} {head : Operation Op} {refs : List SubGroupRef}
    {target : Option GroupId} {answer : GroupId × ExprId} (hm : m.outline.Tidy) (hm' : m'.outline.Tidy)
    (h : register head refs target m = .ok answer m') : m.Asks m' part := by
  have hsame : m'.subGroups = m.subGroups → m.Asks m' part := fun hs => .of_marks hm' fun s hr => by
    unfold IsRequired at hr ⊢
    rwa [hs] at hr
  cases register_eq_ok h with
  | found known => exact hsame rfl
  | united known fits merged => exact (traces_mergeAll merged).asks hm
  | created new ok => exact hsame (subGroups_create ok)
  | extended new ok => exact hsame (subGroups_extend ok)

theorem insertOver_asks {head : Operation Op} {inputs : Update Op Q (List SubGroupRef)} {ps : List (Plan Op)}
    {g : GroupId} {e : ExprId} (hi : ∀ refs m₁, inputs m = .ok refs m₁ → Inserted m ps refs m₁ ∧ m.Onward m₁ ∧
      m.Asks m₁ (Plan.Reads true ps)) (h : insertOver head inputs none m = .ok (g, e) m') :
    m.Asks m' (Plan.Reads true ps) := by
  obtain ⟨hcheck, refs, m₁, h₁, h⟩ := insertOver_eq_ok h
  obtain ⟨hins, honward, hasks⟩ := hi refs m₁ h₁
  have ht := hins.ordered.tidy
  obtain ⟨-, hm', -⟩ := register_grown hins.ordered hins.served h
  have hfits : m₁.registry.check head.traits = .ok () := honward.registry ▸ hcheck
  have hon := register_onward ht hins.served (fun t h => by cases h) hfits h
  exact hasks.trans (register_asks ht hm'.tidy h) hon ht

/-- The induction follows the plans from left to right, and each of them down to its leaves. -/
theorem insertInputs_asks (op : Op) (require : Bool) : ∀ (ps : List (Plan Op)) {m m' : Memo Op Q}
    {refs : List SubGroupRef}, m.Ordered [] → insertInputs op require ps m = .ok refs m' →
    m.Asks m' (Plan.Reads require ps)
  | [], m, m', refs, hm, h => by
    obtain ⟨-, rfl⟩ := insertInputs_nil_eq_ok h
    exact .of_marks hm.tidy fun _ => id
  | .group ref :: rest, m, m', refs, hm, h => by
    obtain ⟨-, s, m₁, refs', h₁, h₂, -⟩ := insertInputs_group_eq_ok h
    obtain ⟨hgrown, -, hm₁⟩ := ensureSubGroup_grown hm h₁
    have hroot : m.Asks m₁ (Plan.Reads require (.group ref :: rest)) := by
      refine ensureSubGroup_asks hm h₁ fun hrequire => ⟨.group ref, .top hrequire List.mem_cons_self, ?_⟩
      rw [(hgrown.keeps hm.tidy).reduceRef, reduceRef_eq, hm.tidy.sound.names.reduceRef_reduceRef,
        ← (hgrown.keeps hm.tidy).reduceRef]
      exact .ref ref
    exact hroot.trans ((insertInputs_asks op require rest hm₁ h₂).mono fun _ => Plan.Reads.tail)
      (insertInputs_onward hm₁.tidy h₂) hm₁.tidy
  | .node head inputs :: rest, m, m', refs, hm, h => by
    obtain ⟨g, e, m₁, s, m₂, refs', h₁, h₂, h₃, -⟩ := insertInputs_node_eq_ok h
    obtain ⟨-, hm₁, hstands, -⟩ := insertOver_grown (fun _ _ => insertInputs_inserted head.op true inputs hm) h₁
    obtain ⟨hgrown, -, hm₂⟩ := ensureSubGroup_grown hm₁ h₂
    have hbelow : m.Asks m₁ (Plan.Reads require (.node head inputs :: rest)) :=
      (insertOver_asks (fun refs m₁ h => ⟨insertInputs_inserted head.op true inputs hm h,
        insertInputs_onward hm.tidy h, insertInputs_asks head.op true inputs hm h⟩) h₁).mono fun _ => Plan.Reads.inside
    have hroot : m₁.Asks m₂ (Plan.Reads require (.node head inputs :: rest)) := by
      refine ensureSubGroup_asks hm₁ h₂ fun hrequire => ⟨.node head inputs, .top hrequire List.mem_cons_self, ?_⟩
      have hev : m₁.outline.Evolves [] m₂.outline [] := hgrown.evolves hm₁.tidy
      have hname : m₂.outline.reduceRef ⟨m₁.reduceGroup g, head.traits⟩ = m₂.outline.reduceRef ⟨g, head.traits⟩ :=
        congrArg (SubGroupRef.mk · head.traits) (hev.group g)
      rw [hname]
      exact hstands.evolve hev hm₂.tidy
    exact (hbelow.trans hroot (ensureSubGroup_onward hm₁.tidy h₂) hm₁.tidy).trans
      ((insertInputs_asks op require rest hm₂ h₃).mono fun _ => Plan.Reads.tail)
      (insertInputs_onward hm₂.tidy h₃) hm₂.tidy

/-- An operation that joins a group marks what it reads, if it does so in earnest, and what is read below. -/
theorem addNodeTo_asks {n : PlanNode Op} {g : GroupId} {require : Bool} {e : Option ExprId} (hm : m.Ordered [])
    (h : addNodeTo n g require m = .ok e m') : m.Asks m' (Plan.Reads require n.inputs) := by
  have hm' := (addNodeTo_joins hm h).2
  obtain ⟨hcheck, refs, m₁, g', e', h₁, hins, h₂, -⟩ := addNodeTo_stages hm h
  have ht := hins.ordered.tidy
  have hfits : m₁.registry.check n.head.traits = .ok () := (insertInputs_onward hm.tidy h₁).registry ▸ hcheck
  have hon := register_onward ht hins.served (fun t h => by cases h; exact ht.sound.names.reduce_reduce g) hfits h₂
  exact (insertInputs_asks n.head.op require n.inputs hm h₁).trans (register_asks ht hm'.tidy h₂) hon ht

end Insertion

end Memo

end PlanSearch
