import PlanSearch.Proofs.Memo.Contents
import PlanSearch.Proofs.Optimizer.History

/-!
# A search closes the memo

What a rule makes of a binding is contained in the group of the binding's root once the match has fired. If the rule
is natural, this lasts: the binding goes on under other names, and so does what the rule makes of it. So after a search
that fired all matches there are, the memo is closed under the rules.

    rule.Natural rows → m.Onward m' → m.Honors rule es → m'.Honors rule es                           (Honors.later)
    o.History [] → search fuel o = .ok () o' → o'.budgetExhausted = false → o'.Closed               (search_closes)
-/

namespace PlanSearch

open Outline

namespace Memo

variable {Op Q : Type} [Operator Op] {m m' : Memo Op Q} {rows : RowType → RowType → Prop} {rule : Rule Op Q}
variable {es : List ExprId}

/-! ## Bindings that are honored -/

/-- The rule succeeds on the binding, and all that it makes of it is contained in the group of the root. -/
def Honors (m : Memo Op Q) (rule : Rule Op Q) (es : List ExprId) : Prop :=
  ∃ root more y g n outs, es = root :: more ∧ m.outline.entry (m.reduceExpr root) = some (y, g) ∧
    rule.pattern.planOfBinding m (es.map m.reduceExpr) = .ok n ∧ rule.apply m n = .ok outs ∧
    ∀ p ∈ outs, m.Contains p g

variable [Quantity Q]

/-- It is enough that what the rule made before is contained now. -/
theorem honors_of_contains (hon : m.Onward m') (ht : m.outline.Tidy) (hrows : Equivalence rows)
    (hnat : rule.Natural rows) {root : ExprId} {more names : List ExprId} {y : Expr Op} {g : GroupId} {n : PlanNode Op}
    {outs : List (Plan Op)} (hes : es = root :: more) (hroot : m.outline.entry (m.reduceExpr root) = some (y, g))
    (hnames : names.map m.reduceExpr = es.map m.reduceExpr) (hn : rule.pattern.planOfBinding m names = .ok n)
    (houts : rule.apply m n = .ok outs) (hall : ∀ p ∈ outs, m'.Contains p (m'.outline.reduce g)) :
    m'.Honors rule es := by
  have he := hon.evolves ht
  have ht' := hon.tidy ht
  obtain ⟨y', hy', -⟩ := he.entry_settled ht'.sound hroot
  obtain ⟨n', hn', hrecast⟩ := Pattern.planOfBinding_image (hon.translates ht hrows.refl) ht.sound ht'.sound hn
  obtain ⟨outs', houts', hrecasts⟩ := hnat m'.outline.reduce m m' n n' outs ht'.sound.names.reduce_reduce hrecast houts
  have hlater : names.map (fun e => m'.reduceExpr (m.reduceExpr e)) = es.map m'.reduceExpr := by
    have hmap := congrArg (List.map m'.reduceExpr) hnames
    rw [List.map_map, List.map_map] at hmap
    exact hmap.trans (List.map_congr_left fun e _ => he.expr e)
  rw [hlater] at hn'
  refine ⟨root, more, y', m'.outline.reduce g, n', outs', hes,
    (congrArg m'.outline.entry (he.expr root)).symm.trans hy', hn', houts', fun p' hp' => ?_⟩
  obtain ⟨p, hp, hpp'⟩ := hrecasts.exists_right hp'
  refine (hall p hp).recast (fun a k hk => ?_) hpp'
  rw [← hk, ht'.sound.names.reduce_reduce]

theorem Honors.later (hon : m.Onward m') (ht : m.outline.Tidy) (hrows : Equivalence rows) (hnat : rule.Natural rows)
    (h : m.Honors rule es) : m'.Honors rule es := by
  obtain ⟨root, more, y, g, n, outs, hes, hroot, hn, houts, hall⟩ := h
  refine honors_of_contains hon ht hrows hnat hes hroot ?_ hn houts fun p hp => (hall p hp).later hon ht
  rw [List.map_map]
  exact List.map_congr_left fun e _ => ht.sound.names.reduceExpr_reduceExpr e

end Memo

namespace Optimizer

variable {Op Q : Type} [Operator Op] [Quantity Q] {o o' : Optimizer Op Q} {rows : RowType → RowType → Prop}
variable {log fired : List Match}

/-! ## Firing -/

theorem Acts.onward {just : Just Op Q} (h : o.Acts just o') (ho : o.memo.Orderly) : o.memo.Onward o'.memo := by
  induction h with
  | refl => exact .refl _
  | tail hs ha ih =>
    refine ih.trans ?_
    cases ha with
    | find find => rw [find.memo_eq]; exact .refl _
    | change change => exact change.call.onward (Acts.orderly hs ho).ordered.tidy

theorem settle_onward {fuel : Nat} (ho : o.memo.Orderly) (ok : settle fuel o = .ok () o') :
    o.memo.Onward o'.memo := by
  have hall := settle_keeps (P := fun o₁ => o₁.memo.Orderly ∧ o.memo.Onward o₁.memo) enforcing_freely
    (fun _ h => h.1) (fun o₁ h => ⟨Memo.Call.orderly .forgetChanges h.1,
      h.2.trans (Memo.Call.onward .forgetChanges h.1.ordered.tidy)⟩)
    (fun _ _ h ha => ⟨ha.orderly h.1, h.2.trans (ha.onward h.1)⟩) ⟨ho, .refl _⟩ ok
  exact hall.2

theorem settle_frame {fuel : Nat} (ho : o.memo.Orderly) (ok : settle fuel o = .ok () o') : o.Frame o' := by
  have hall := settle_keeps (P := fun o₁ => o₁.memo.Orderly ∧ o.Frame o₁) enforcing_freely (fun _ h => h.1)
    (fun o₁ h => ⟨Memo.Call.orderly .forgetChanges h.1, h.2.trans ⟨rfl, rfl, rfl, rfl, rfl, rfl, rfl⟩⟩)
    (fun _ _ h ha => ⟨ha.orderly h.1, h.2.trans ha.frame⟩) ⟨ho, .refl _⟩ ok
  exact hall.2

theorem produce_contains {rule : Rule Op Q} {binding : PlanNode Op} {g : GroupId} {p : Plan Op} {product : Product}
    (ho : o.memo.Orderly) (ok : produce rule binding g p o = .ok product o') :
    o'.memo.Contains p (o'.memo.outline.reduce g) := by
  obtain ⟨e, m, hm, rfl⟩ := produce_eq_ok ok
  have hcontains := Memo.addTo_contains ho.ordered hm
  have hname : m.outline.reduce (o.memo.reduceGroup g) = m.outline.reduce g :=
    ((Memo.Call.addTo hm).evolves ho).group g
  rwa [hname] at hcontains

/-- All outputs of a rule end up in the group. -/
theorem produceAll_contains {rule : Rule Op Q} {binding : PlanNode Op} {g : GroupId} :
    ∀ {outs : List (Plan Op)} {o o' : Optimizer Op Q} {products : List Product}, o.memo.Orderly →
    outs.mapM (produce rule binding g) o = .ok products o' →
    ∀ p ∈ outs, o'.memo.Contains p (o'.memo.outline.reduce g)
  | [], o, o', products, ho, ok, p, hp => by cases hp
  | q :: outs, o, o', products, ho, ok, p, hp => by
    obtain ⟨product, o₁, products', h₁, h₂, -⟩ := run_mapM_cons_eq_ok ok
    have hfirst : o.Acts Freely o₁ := produce_acts trivial h₁
    have ho₁ : o₁.memo.Orderly := hfirst.orderly ho
    rcases List.mem_cons.1 hp with rfl | hp
    · have hrest : o₁.Acts Freely o' := produceAll_acts ho₁ (fun _ _ _ _ => trivial) h₂
      have hon := hrest.onward ho₁
      rw [← (hon.evolves ho₁.ordered.tidy).group g]
      exact (produce_contains ho h₁).later hon ho₁.ordered.tidy
    · exact produceAll_contains ho₁ h₂ p hp

/-- Once a match has fired, it is honored. -/
theorem fire_honors {fuel : Nat} {x : Match} (ho : o.memo.Orderly) (hrows : Equivalence rows)
    (hnat : ∀ rule ∈ o.rules, rule.Natural rows) (ok : fire fuel x o = .ok () o') :
    ∃ rule, o.rules[x.rule]? = some rule ∧ o.memo.Onward o'.memo ∧ o'.memo.Honors rule x.exprs := by
  obtain ⟨rule, root, more, g, n, outs, products, o₁, hrule, hx, hg, hn, houts, hproduced, hsettle⟩ := fire_eq_ok ok
  have hfiring : (o.firing x.rule).memo.Orderly := ho
  have hacts : (o.firing x.rule).Acts Freely o₁ := produceAll_acts hfiring (fun _ _ _ _ => trivial) hproduced
  have hnoted := (idle_withEvent o₁ (.applyRule x.rule rule.name g x.exprs products)).memo
  have ho₁ := hacts.orderly hfiring
  have hend : o₁.memo.Onward o'.memo := hnoted ▸ settle_onward (hnoted.symm ▸ ho₁) hsettle
  have hon : o.memo.Onward o'.memo := (hacts.onward hfiring).trans hend
  obtain ⟨entry, hentry, hgroup⟩ := bind_eq_ok hg
  cases hgroup
  have hroot := Memo.outline_entry_of (Memo.getEntry_eq_ok hentry)
  refine ⟨rule, hrule, hon, Memo.honors_of_contains hon ho.ordered.tidy hrows (hnat rule (List.mem_of_getElem? hrule))
    hx hroot rfl hn houts fun p hp => ?_⟩
  have hlater := (produceAll_contains hfiring hproduced p hp).later hend ho₁.ordered.tidy
  rw [(hend.evolves ho₁.ordered.tidy).group] at hlater
  rwa [show o'.memo.outline.reduce (o.memo.reduceGroup entry.group) = o'.memo.outline.reduce entry.group from
    (hon.evolves ho.ordered.tidy).group entry.group] at hlater

/-! ## Searching -/

/-- Every match of the log is honored. -/
def Honored (o : Optimizer Op Q) (log : List Match) : Prop :=
  ∀ x ∈ log, ∃ rule, o.rules[x.rule]? = some rule ∧ o.memo.Honors rule x.exprs

theorem Honored.later (h : o.Honored log) (hr : o'.rules = o.rules) (hon : o.memo.Onward o'.memo)
    (ho : o.memo.Orderly) (hrows : Equivalence rows) (hnat : ∀ rule ∈ o.rules, rule.Natural rows) :
    o'.Honored log := by
  intro x hx
  obtain ⟨rule, hrule, hhonors⟩ := h x hx
  exact ⟨rule, hr ▸ hrule, hhonors.later hon ho.ordered.tidy hrows (hnat rule (List.mem_of_getElem? hrule))⟩

/-- A turn keeps the log honored, with the match in it if it fires. -/
theorem Honored.dispatched (h : o.Honored log) (ho : o.memo.Orderly) (hrows : Equivalence rows)
    (hnat : ∀ rule ∈ o.rules, rule.Natural rows) {fuel : Nat} {x : Match} {fires : Bool}
    (hd : Dispatched fuel x o fires o') : o'.Honored (if fires then log ++ [x] else log) ∧ o'.rules = o.rules := by
  cases hd with
  | dropped => exact ⟨h, rfl⟩
  | forgotten => exact ⟨h, rfl⟩
  | full memo agenda frame => exact ⟨h.later frame.rules (memo ▸ .refl _) ho hrows hnat, frame.rules⟩
  | fired active ok =>
    have hrules : o'.rules = o.rules := congrArg Prod.fst ((steady_fire fuel x).rulebook_eq ok)
    obtain ⟨rule, hrule, hon, hhonors⟩ := fire_honors ho hrows hnat ok
    refine ⟨fun z hz => ?_, hrules⟩
    rw [if_pos rfl] at hz
    rcases List.mem_append.1 hz with hz | hz
    · exact h.later hrules hon ho hrows hnat z hz
    · rw [List.mem_singleton.1 hz]
      exact ⟨rule, hrules ▸ hrule, hhonors⟩

theorem Honored.goes {fuel : Nat} {done fired : List Match} (hs : Goes fuel done o fired o')
    (hrows : Equivalence rows) (h : o.Honored done) (hr : o.memo.Reached) (hnat : ∀ rule ∈ o.rules, rule.Natural rows) :
    o'.Honored fired := by
  induction hs with
  | done => exact h
  | stop _ _ ok =>
    obtain ⟨memo, -, -, frame⟩ := exhaust_spec ok
    exact h.later frame.rules (memo ▸ .refl _) hr.orderly hrows hnat
  | @turn done _ o o₁ _ x agenda _ _ _ ok _ ih =>
    have hd := dispatchLogged_spec ok
    have htaken : ({ o with agenda := agenda } : Optimizer Op Q).Honored done := h
    obtain ⟨hturn, hrules⟩ := htaken.dispatched hr.orderly hrows hnat hd
    exact ih hturn (hd.reached hr) (hrules ▸ hnat)

/-- Every binding of an active rule is honored, where the root operand tests a kind. -/
def Closed (o : Optimizer Op Q) : Prop :=
  ∀ n rule root es, o.rules[n]? = some rule → o.isActive n = true → rule.pattern.isWildcard = false →
    o.memo.outline.Binds rule.pattern root es → o.memo.Honors rule es

/-- A search that ends within its budgets leaves nothing more for its rules to make. -/
theorem search_closes (before : o.History []) (hrows : Equivalence rows)
    (hnat : ∀ rule ∈ o.rules, rule.Natural rows) {fuel : Nat} (ok : search fuel o = .ok () o')
    (budget : o'.budgetExhausted = false) : o'.Closed := by
  rw [← searchLogged_eq] at ok
  obtain ⟨fired, o₁, hlogged, hret⟩ := run_bind_eq_ok ok
  rw [(run_pure_eq_ok hret).2] at hlogged
  obtain ⟨hend, hstop⟩ := before.diligent.search hlogged
  have hhonored : o'.Honored fired := Honored.goes (goes_of_searchLogged hlogged) hrows (fun _ hx => by cases hx)
    before.diligent.reached hnat
  intro n rule root es known active wild binds
  have hpending := hstop.resolve_right (by rw [budget]; simp)
  have hremoved : o'.removed.contains n = false := by
    rw [Bool.eq_false_iff, Ne, Std.TreeSet.contains_iff_mem]
    exact (isActive_iff.1 active).2
  have hseen := hend.complete ⟨n, es⟩ ⟨rule, root, known, active, wild, binds⟩
  obtain ⟨rule', known', hhonors⟩ := hhonored _ (hend.ledger.fired hpending budget hseen hremoved)
  cases known.symm.trans known'
  exact hhonors

end Optimizer

end PlanSearch
