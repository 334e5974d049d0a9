import PlanSearch.Proofs.Optimizer.Afresh
import PlanSearch.Proofs.Optimizer.Untried

/-!
# Trait sets that fit

Trait sets get into a memo with plans that are seeded, with what rules put out, with enforcers, with references to groups
and with what is asked for at the root. Each of them is checked before it is kept, so whatever a memo holds fits the registry,
also where a call fails half-way: there is one trait for each kind, and it is of that kind. Conversions start from such
sets, and from there on no kind ever lacks a trait or is handed one of another kind. To see that, each of the steps has a
guarded twin that gives an alarm there. The alarm makes no difference.

    Attempted m → m.Has s → m.registry.Fits s                                     (Attempted.fits)
    r.Fits actual → r.Fits required → guarded conversions are conversions           (guardedConvert_eq)
    Handled registry factRules o → addEnforcersGuarded alarm g o = addEnforcers g o (Handled.trait_sets_fit)
-/

namespace PlanSearch

variable {Op Q : Type}

/-! ## Fitting sets -/

theorem TraitKind.accepts_canon (k : TraitKind Op) (t : Trait) : k.accepts t.canon = k.accepts t := by
  cases k <;> cases t <;> rfl

namespace Registry

/-- There is one trait for each kind, and it is of that kind. -/
def Fits (r : Registry Op) (s : TraitSet) : Prop := List.Forall₂ (fun k t => k.accepts t = true) r.kinds s.traits

variable {r : Registry Op} {s s' : TraitSet}

theorem fits_of_check (h : r.check s = .ok ()) : r.Fits s := by
  refine List.forall₂_iff_get.2 ⟨(size_of_check h).symm, fun i hk ht => ?_⟩
  exact accepts_of_check h (List.getElem?_eq_getElem hk) (List.getElem?_eq_getElem ht)

theorem Fits.same (h : r.Fits s) (hs : s.Same s') : r.Fits s' := by
  have hcanon : ∀ s : TraitSet, r.Fits s.canon ↔ r.Fits s := by
    intro s
    unfold Fits TraitSet.canon
    rw [List.forall₂_map_right_iff]
    simp only [TraitKind.accepts_canon]
  rw [← hcanon s', ← show s.canon = s'.canon from hs, hcanon]
  exact h

theorem Fits.get? (h : r.Fits s) {i : Nat} {k : TraitKind Op} (hk : r.kinds[i]? = some k) :
    ∃ t, s.get? i = some t ∧ k.accepts t = true := by
  obtain ⟨hi, rfl⟩ := List.getElem?_eq_some_iff.1 hk
  obtain ⟨hlength, haccepts⟩ := List.forall₂_iff_get.1 h
  exact ⟨s.traits[i], List.getElem?_eq_getElem (hlength ▸ hi), haccepts i hi (hlength ▸ hi)⟩

/-! ## Guards -/

/-- Whether the delivered traits meet the required ones; none if there is not one of each for each kind, or if a kind would
be handed a trait of another kind. -/
def meets? : List (TraitKind Op) → List Trait → List Trait → Option Bool
  | [], [], [] => some true
  | k :: ks, a :: as, t :: ts =>
    if k.accepts a && k.accepts t then (meets? ks as ts).map fun rest => k.satisfies a t && rest else none
  | _, _, _ => none

/-- A chain of enforcers; none if there is no trait in some position, or if a kind would be handed one of another kind. -/
def guardedChain (rowType : RowType) (required : TraitSet) :
    List (TraitKind Op) → Nat → SubGroupRef → TraitSet → Option (Option (List (PlanNode Op)))
  | [], _, _, _ => some (some [])
  | k :: ks, i, input, current =>
    match current.get? i, required.get? i with
    | some a, some t =>
      if k.accepts a && k.accepts t then
        if k.satisfies a t then guardedChain rowType required ks (i + 1) input current
        else
          let output := current.replace i t
          match k.enforce ⟨input, rowType, output, a, t⟩ with
          | none => some none
          | some n => (guardedChain rowType required ks (i + 1) ⟨input.group, output⟩ output).map fun rest => rest.map (n :: ·)
      else none
    | _, _ => none

/-- A conversion by a guarded chain. -/
def guardedConvert (r : Registry Op) (input : SubGroupRef) (rowType : RowType) (actual required : TraitSet) :
    Option (Option (List (PlanNode Op))) :=
  (guardedChain rowType required r.kinds 0 input actual).map fun nodes => nodes.filter fun ns => !ns.isEmpty

theorem meets?_eq {ks : List (TraitKind Op)} {as ts : List Trait}
    (ha : List.Forall₂ (fun k t => k.accepts t = true) ks as)
    (ht : List.Forall₂ (fun k t => k.accepts t = true) ks ts) : meets? ks as ts = some (satisfiesAll ks as ts) := by
  induction ha generalizing ts with
  | nil =>
    cases ht
    rfl
  | cons ha _ ih =>
    cases ht with
    | cons ht hts =>
      rw [meets?, ha, ht, ih hts]
      rfl

/-- Between sets that fit, it is the traits that decide what meets what. -/
theorem Fits.satisfies_eq (ha : r.Fits s) (ht : r.Fits s') :
    r.satisfies s s' = satisfiesAll r.kinds s.traits s'.traits := by
  have hsize : s.size = r.size := ha.length_eq.symm
  have hsize' : s'.size = r.size := ht.length_eq.symm
  simp [satisfies, hsize, hsize']

/-- Where there are traits for the kinds from a position on, the guard makes no difference. -/
theorem guardedChain_eq (rowType : RowType) (required : TraitSet) : ∀ (ks : List (TraitKind Op)) (i : Nat)
    (input : SubGroupRef) (current : TraitSet),
    (∀ j k, ks[j]? = some k → ∃ a t, current.get? (i + j) = some a ∧ required.get? (i + j) = some t ∧
      k.accepts a = true ∧ k.accepts t = true) →
    ∃ nodes, guardedChain rowType required ks i input current = some nodes ∧
      chain rowType required ks i input current = .ok nodes
  | [], _, _, _, _ => ⟨some [], rfl, rfl⟩
  | k :: ks, i, input, current, h => by
    obtain ⟨a, t, ha, ht, haccepts, haccepts'⟩ := h 0 k rfl
    rw [Nat.add_zero] at ha ht
    have hlater : ∀ j k, ks[j]? = some k → ∃ a t, current.get? (i + 1 + j) = some a ∧
        required.get? (i + 1 + j) = some t ∧ k.accepts a = true ∧ k.accepts t = true := by
      intro j k hk
      rw [Nat.add_right_comm]
      exact h (j + 1) k hk
    simp only [guardedChain, chain, ha, ht, haccepts, haccepts', Bool.and_self, if_true]
    split
    · exact guardedChain_eq rowType required ks (i + 1) input current hlater
    · cases k.enforce ⟨input, rowType, current.replace i t, a, t⟩ with
      | none => exact ⟨none, rfl, rfl⟩
      | some n =>
        -- what is replaced is behind
        obtain ⟨nodes, hguarded, hchain⟩ := guardedChain_eq rowType required ks (i + 1)
          ⟨input.group, current.replace i t⟩ (current.replace i t) fun j k hk => by
            rw [current.get?_replace_ne i (i + 1 + j) t (by omega)]
            exact hlater j k hk
        refine ⟨nodes.map (n :: ·), ?_, ?_⟩
        · simp only [hguarded, Option.map_some]
        · simp only [hchain, bind, Except.bind, pure, Except.pure]

theorem guardedConvert_eq (ha : r.Fits s) (ht : r.Fits s') (input : SubGroupRef) (rowType : RowType) :
    ∃ nodes, r.guardedConvert input rowType s s' = some nodes ∧ r.convert input rowType s s' = .ok nodes := by
  obtain ⟨nodes, hguarded, hchain⟩ := guardedChain_eq rowType s' r.kinds 0 input s fun j k hk => by
      obtain ⟨a, ha, haccepts⟩ := ha.get? hk
      obtain ⟨t, ht, haccepts'⟩ := ht.get? hk
      rw [Nat.zero_add]
      exact ⟨a, t, ha, ht, haccepts, haccepts'⟩
  refine ⟨nodes.filter fun ns => !ns.isEmpty, ?_, ?_⟩
  · rw [guardedConvert, hguarded]
    rfl
  · rw [convert, hchain]
    rfl

end Registry

/-! ## What a memo holds -/

namespace Memo

/-- An expression delivers the trait set, or reads an input under it, or a sub group is under it or listed under it. -/
inductive Has (m : Memo Op Q) : TraitSet → Prop
  | delivered {e : ExprId} {entry : Entry Op Q} (live : m.exprs[e]? = some entry) : Has m entry.expr.traits
  | read {e : ExprId} {entry : Entry Op Q} {r : SubGroupRef} (live : m.exprs[e]? = some entry)
      (input : r ∈ entry.expr.inputs) : Has m r.traits
  | asked {s : SubGroupId} {sub : SubGroup Q} (live : m.subGroups[s]? = some sub) : Has m sub.traits
  | listed {g : GroupId} {group : Group} {p : TraitSet × SubGroupId} (live : m.groups[g]? = some group)
      (sub : p ∈ group.subGroups) : Has m p.1

variable [Operator Op] [Quantity Q] {m : Memo Op Q}

theorem Attempted.fitting (h : Attempted m) : m.Fitting := by
  induction h with
  | empty => exact fitting_empty _ _ _
  | attempt _ attempt ih => exact (stepwise_fitting.attempt attempt).2 ih

/-- Whatever calls were made, a memo holds only what fits its registry. -/
theorem Attempted.fits (h : Attempted m) {s : TraitSet} (hs : m.Has s) : m.registry.Fits s := by
  have hasked : ∀ {t : TraitSet} {s : SubGroupId} {g : GroupId}, m.outline.sub s = some ⟨g, t⟩ → m.registry.Fits t := by
    intro t s g hsub
    rw [outline_sub] at hsub
    obtain ⟨sub, hlive, href⟩ := Option.map_eq_some_iff.1 hsub
    cases href
    exact Registry.fits_of_check (h.fitting.asked s sub hlive)
  have ht := h.tidy
  cases hs with
  | delivered live => exact Registry.fits_of_check (h.fitting.delivered _ _ live)
  | asked live => exact Registry.fits_of_check (h.fitting.asked _ _ live)
  | listed live sub => exact hasked (ht.indexed.listed _ _ (by rw [outline_group, live]; rfl) _ sub)
  | read live input =>
    obtain ⟨c, hc, p, hp, hsame⟩ := ht.ready _ _ _ (outline_entry_of live) _ input
    exact (hasked (ht.indexed.listed _ c hc p hp)).same hsame

end Memo

namespace Optimizer

section Held

variable {m : Memo Op Q} {g : GroupId}

theorem holds_of_requiredOf {required : List TraitSet} (h : requiredOf m g = .ok required) {t : TraitSet}
    (ht : t ∈ required) : m.Has t := by
  obtain ⟨subs, hsubs, h⟩ := bind_eq_ok h
  cases h
  obtain ⟨sub, hsub, rfl⟩ := List.mem_map.1 ht
  obtain ⟨s, -, hlive⟩ := (mem_of_mapM_eq_ok hsubs).1 (List.mem_filter.1 hsub).1
  exact .asked (Memo.liveSubGroup_eq_ok hlive)

theorem holds_of_deliveredBy [Operator Op] {delivered : List TraitSet} (h : deliveredBy m g = .ok delivered)
    {a : TraitSet} (ha : a ∈ delivered) : m.Has a := by
  obtain ⟨exprs, hexprs, h⟩ := bind_eq_ok h
  cases h
  obtain ⟨x, hx, rfl⟩ := List.mem_map.1 (mem_of_mem_eraseDupsBy ha)
  obtain ⟨e, -, he⟩ := (mem_of_mapM_eq_ok hexprs).1 (List.mem_filter.1 hx).1
  obtain ⟨entry, hentry, he⟩ := bind_eq_ok he
  cases he
  exact .delivered (Memo.getEntry_eq_ok hentry)

end Held

variable [Operator Op] [Quantity Q]

/-! ## Guarded enforcers -/

/-- `convertWithin` with guards, which gives the alarm where a kind would lack a trait or be handed one of another kind. -/
def convertWithinGuarded (alarm : Stop) (g : GroupId) (actual required : TraitSet) : Action Op Q Unit := do
  let o ← get
  let g := o.memo.reduceGroup g
  let tried := o.attempted.any fun (h, a, r) => h = g && decide (a.Same actual) && decide (r.Same required)
  match Registry.meets? o.memo.registry.kinds actual.traits required.traits with
  | none => throw alarm
  | some met =>
    if !met && !tried then
      set { o with attempted := o.attempted ++ [(g, actual, required)] }
      let input : SubGroupRef := ⟨g, actual⟩
      let group ← Action.read fun o => o.memo.getGroup g
      match o.memo.registry.guardedConvert input group.rowType actual required with
      | none => throw alarm
      | some none => return ()
      | some (some nodes) =>
        let _ ← Action.onMemo (Memo.ensureSubGroup input false)
        let exprs ← addChain g nodes
        count fun s => { s with enforcers := s.enforcers + 1 }
        record (.addEnforcer g actual required exprs)

/-- `addEnforcers` with guards. -/
def addEnforcersGuarded (alarm : Stop) (g : GroupId) : Action Op Q Unit := do
  let g := (← get).memo.reduceGroup g
  let required ← Action.read fun o => requiredOf o.memo g
  let delivered ← Action.read fun o => deliveredBy o.memo g
  delivered.forM fun actual => required.forM fun r => convertWithinGuarded alarm g actual r

variable {o : Optimizer Op Q}

theorem convertWithinGuarded_eq (alarm : Stop) (g : GroupId) {actual required : TraitSet}
    (ha : o.memo.registry.Fits actual) (ht : o.memo.registry.Fits required) :
    convertWithinGuarded alarm g actual required o = convertWithin g actual required o := by
  unfold convertWithinGuarded convertWithin
  rw [run_get_bind, run_get_bind]
  simp only [Registry.meets?_eq ha ht, ha.satisfies_eq ht]
  split
  · refine congrFun (bind_congr_run fun _ => bind_congr_run fun group => ?_) o
    obtain ⟨nodes, hguarded, hconvert⟩ :=
      Registry.guardedConvert_eq ha ht ⟨o.memo.reduceGroup g, actual⟩ group.rowType
    rw [hguarded, hconvert]
    cases nodes <;> rfl
  · rfl

theorem addEnforcersGuarded_eq (alarm : Stop) (g : GroupId) (h : o.memo.Attempted) :
    addEnforcersGuarded alarm g o = addEnforcers g o := by
  unfold addEnforcersGuarded addEnforcers
  rw [run_get_bind, run_get_bind]
  refine Action.read_bind_congr fun required hrequired => Action.read_bind_congr fun delivered hdelivered => ?_
  -- conversions leave the registry, so what is listed goes on fitting it
  have hkeeps : ∀ (a t : TraitSet) (o₁ o₂ : Optimizer Op Q), o₁.memo.registry = o.memo.registry →
      convertWithin (o.memo.reduceGroup g) a t o₁ = .ok () o₂ → o₂.memo.registry = o.memo.registry := by
    intro a t o₁ o₂ hr ok
    have hattempts := (routine_convertWithin (o.memo.reduceGroup g) a t).plain.attempts o₁
    unfold Action.leave at hattempts
    rw [ok] at hattempts
    exact (Memo.stepwise_fitting.attempts hattempts).1.trans hr
  have hsame : ∀ a ∈ delivered, ∀ t ∈ required, ∀ o₁ : Optimizer Op Q, o₁.memo.registry = o.memo.registry →
      convertWithinGuarded alarm (o.memo.reduceGroup g) a t o₁ = convertWithin (o.memo.reduceGroup g) a t o₁ := by
    intro a ha t ht o₁ hr
    have ha := h.fits (holds_of_deliveredBy hdelivered ha)
    have ht := h.fits (holds_of_requiredOf hrequired ht)
    exact convertWithinGuarded_eq alarm _ (hr ▸ ha) (hr ▸ ht)
  refine run_forM_congr (fun o₁ => o₁.memo.registry = o.memo.registry) (fun a ha o₁ hr => ?_) (fun a _ o₁ o₂ hr ok => ?_) rfl
  · exact run_forM_congr (fun o₁ => o₁.memo.registry = o.memo.registry) (hsame a ha) (fun t _ => hkeeps a t) hr
  · exact run_forM_invariant (fun _ o₁ => o₁.memo.registry = o.memo.registry) (fun t _ => hkeeps a t) ok hr

/-- However an optimizer was used, whatever its memo holds fits the registry that it was built with, so that between such
sets it is the traits that decide what meets what, and no conversion that is tried ever lacks a trait for a kind or hands
a kind a trait of another: whatever the alarm, it makes no difference. -/
theorem Handled.trait_sets_fit {registry : Registry Op} {factRules : List (FactRule Op)} (h : Handled registry factRules o) :
    (∀ s, o.memo.Has s → registry.Fits s) ∧
    (∀ s t, o.memo.Has s → o.memo.Has t →
      o.memo.registry.satisfies s t = Registry.satisfiesAll registry.kinds s.traits t.traits) ∧
    ∀ alarm g, addEnforcersGuarded alarm g o = addEnforcers g o := by
  obtain ⟨hattempted, hregistry, -⟩ := h.memo
  have hfits : ∀ s, o.memo.Has s → registry.Fits s := fun s hs => hregistry ▸ hattempted.fits hs
  refine ⟨hfits, fun s t hs ht => ?_, fun alarm g => addEnforcersGuarded_eq alarm g hattempted⟩
  rw [hregistry]
  exact (hfits s hs).satisfies_eq (hfits t ht)

end Optimizer

namespace SmallHost

open Optimizer Relational

/-- A join whose second input has no traits. -/
def lopsided : PlanNode Kind := bare (.join "") none [table .scan 2, .node ⟨.scan, none, ⟨[]⟩, ⟨[]⟩⟩ []]

/-- Its first input was entered before the call failed. -/
def stranded : Optimizer Kind Nat := (seed 20 lopsided byFirst).leave sorter

/-- A call on what was left. -/
def revived : Optimizer Kind Nat := (optimize 100 joined byFirst).leave stranded

theorem stranded_entries : (stranded.memo.exprs[(⟨0⟩ : ExprId)]?).map (fun entry => entry.expr.traits) = some orders.any := by
  cbv

theorem revived_entries : (revived.memo.subGroups[(⟨8⟩ : SubGroupId)]?).map SubGroup.traits = some byFirst := by
  cbv

/-- After the call that failed, and after the next one. -/
theorem stranded_trait_sets : Handled orders [] stranded ∧ Handled orders [] revived ∧
    (∃ s, stranded.memo.Has s ∧ orders.Fits s) ∧ revived.memo.Has byFirst ∧ orders.Fits byFirst ∧
    ∀ alarm g, addEnforcersGuarded alarm g revived = addEnforcers g revived := by
  have hstranded : Handled orders [] stranded :=
    (Handled.new [swap, implement] prices .default).call (.seed 20 lopsided byFirst)
  have hrevived : Handled orders [] revived := hstranded.call (.optimize 100 joined byFirst)
  obtain ⟨entry, hentry, -⟩ := Option.map_eq_some_iff.1 stranded_entries
  obtain ⟨sub, hsub, htraits⟩ := Option.map_eq_some_iff.1 revived_entries
  have hheld : revived.memo.Has byFirst := htraits ▸ .asked hsub
  have hfits := Handled.trait_sets_fit hstranded
  have hfits' := Handled.trait_sets_fit hrevived
  exact ⟨hstranded, hrevived, ⟨_, .delivered hentry, hfits.1 _ (.delivered hentry)⟩, hheld, hfits'.1 _ hheld,
    fun alarm g => hfits'.2.2 alarm g⟩

end SmallHost

end PlanSearch
