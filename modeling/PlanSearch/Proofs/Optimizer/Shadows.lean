import PlanSearch.Proofs.Optimizer.Closure
import PlanSearch.Proofs.Optimizer.Enforcers
import PlanSearch.Proofs.Optimizer.Rooted
import PlanSearch.Proofs.Optimizer.Untried

/-!
# A search in the mirror of another

Let a memo be closed under the rules and equipped with enforcers, as a search leaves it. Then another search, whose
memo is mirrored in it, goes on being mirrored: what a rule makes of a binding is hosted, since it is contained in the
mirror of the binding, and the enforcers that a group gets are harbored by its mirror.

    o.Mirrored b rows → settle fuel o = .ok () o' → o'.Mirrored b rows                               (Mirrored.settle)
    o.Shadows final rows → o.Advances o' → o'.Shadows final rows                                  (Shadows.advances)
-/

namespace PlanSearch

open Outline

/-! ## Enforcers in the mirror -/

namespace Memo

variable {Op Q : Type} [Operator Op] {b m m' : Memo Op Q} {rows : RowType → RowType → Prop}
variable {v : GroupId → Option GroupId}

/-- Every group harbors the routes from what its physical members deliver to what is required of it. -/
def Equipped (b : Memo Op Q) : Prop :=
  ∀ e x s r, b.outline.entry e = some (x, r.group) → Operator.isLogical x.op = false → b.outline.sub s = some r →
    b.IsRequired s → b.Converted r.group x.traits r.traits

/-- What is delivered in a group and required of it is converted in the mirror of the group. -/
theorem Mirrors.converted (hb : b.outline.Tidy) (hequipped : b.Equipped) (h : b.Mirrors rows m v)
    (ht : m.outline.Tidy) {e : ExprId} {x : Expr Op} {s : SubGroupId} {r : SubGroupRef}
    (hx : m.outline.entry e = some (x, r.group)) (hphysical : Operator.isLogical x.op = false)
    (hs : m.outline.sub s = some r) (hr : m.IsRequired s) :
    ∃ k, v r.group = some k ∧ b.outline.reduce k = k ∧ b.Converted k x.traits r.traits := by
  obtain ⟨τ, hτ⟩ := h.translates hb ht
  obtain ⟨y, k, hy, ⟨hk, hself⟩, himages⟩ := hτ.expr e x r.group hx
  obtain ⟨k', hk', s', ⟨r', hr', htraits, hgroup⟩, hrequired⟩ := h.required s r hs hr
  cases hk.symm.trans hk'
  obtain ⟨c, hc, -⟩ := (hb.indexed.filed s' r' hr').resolve_left id
  have hhome : r'.group = k := by
    rw [← hb.sound.names.reduce_of_live (by rw [hc]; rfl : (b.outline.group r'.group).isSome)]
    exact hgroup.trans hself
  have hconverted := hequipped (τ e) y s' r' (hhome ▸ hy) (himages.op ▸ hphysical) hr' hrequired
  exact ⟨k, hk, hself, hconverted.congr (by rw [hhome]) himages.traits htraits⟩

variable [Quantity Q]

/-- An enforcer over a group joins the group if the mirror of the group harbors the leg. -/
theorem Mirrors.addLeg {l : Leg Op} {k g : GroupId} {rowType : RowType} {e : Option ExprId}
    (ht : b.outline.Tidy) (h : b.Mirrors rows m v) (hm : m.Orderly)
    (ok : addEnforcer (l.node k rowType) g m = .ok e m')
    (hl : ∀ w, b.Mirrors rows m w → ∃ h, w k = some h ∧ w g = some h ∧ b.outline.reduce h = h ∧
      b.outline.Harbors h (l.expr h)) :
    ∃ w, b.Mirrors rows m' w ∧ m.outline.Agree v w := by
  have hb := ht.sound.places
  refine h.addNode hb hm ok (fun w hw head' inputs' hpart => ?_) (fun w hw p hreads => ?_)
    fun w hw o ho refs hstand => ?_
  · obtain ⟨p, hmem, hhas⟩ := hpart
    rw [List.mem_singleton.1 hmem] at hhas
    cases hhas
  · cases hreads with
    | top mark => cases mark
    | below mem part =>
      rw [List.mem_singleton.1 mem] at part
      cases part
  · obtain ⟨h, hk, hg, hself, e, x, hx, halike⟩ := hl w hw
    rw [hself] at hx
    rw [hg]
    cases hstand with
    | cons first rest =>
      cases rest
      cases first
      have hrefs : List.Forall₂ (fun r r' : SubGroupRef => w r.group = some r'.group ∧ r'.traits = r.traits)
          [o.reduceRef ⟨k, l.source⟩] [⟨h, l.source⟩] := .cons ⟨(ho.names k).trans hk, rfl⟩ .nil
      exact seat_of_entry hb hrefs hx (ht.congruent_of_alike hx hself halike)

/-! ## What rules make, in the mirror -/

/-- Whatever the rule makes of a binding, a group that holds an operation of it has the row type of the operation. -/
def Types (b : Memo Op Q) (rows : RowType → RowType → Prop) (rule : Rule Op Q) : Prop :=
  ∀ root es n outs, b.outline.Binds rule.pattern root es → rule.pattern.planOfBinding b es = .ok n →
    rule.apply b n = .ok outs → ∀ p ∈ outs, ∀ head inputs e g c, p.Has head inputs →
    b.outline.Holds head inputs e g → b.outline.group g = some c → rows head.rowType c.rowType

omit [Quantity Q] in
/-- What a rule makes of a binding is hosted in the mirror of its group, if the mirror of the binding is honored. -/
theorem Mirrors.hosted (hb : b.outline.Tidy) (h : b.Mirrors rows m v) (ht : m.outline.Tidy)
    (hrows : Equivalence rows) {rule : Rule Op Q} (hnat : rule.Natural rows) (htypes : b.Types rows rule)
    (hhonors : ∀ root es, b.outline.Binds rule.pattern root es → b.Honors rule es) {e root : ExprId}
    {more : List ExprId} {y : Expr Op} {g : GroupId} {n : PlanNode Op} {outs : List (Plan Op)}
    (hbinds : m.outline.Binds rule.pattern e ((root :: more).map m.reduceExpr))
    (hroot : m.outline.entry (m.reduceExpr root) = some (y, g))
    (hn : rule.pattern.planOfBinding m (root :: more) = .ok n) (houts : rule.apply m n = .ok outs) {p : Plan Op}
    (hp : p ∈ outs) : ∃ r, b.Hosts rows v p r ∧ v g = some r.group := by
  obtain ⟨τ, hτ⟩ := h.translates hb ht
  have himage := hbinds.image hτ
  have hlives : (((root :: more).map m.reduceExpr).map τ).map b.reduceExpr = ((root :: more).map m.reduceExpr).map τ :=
    himage.map_reduceExpr hb.sound.names
  obtain ⟨root', more', y', k, n', outs', hes, hroot', hn', houts', hall⟩ := hhonors _ _ himage
  have hnames : ((root :: more).map m.reduceExpr).map τ = (root :: more).map fun e => τ (m.reduceExpr e) := List.map_map
  rw [hlives] at hn'
  obtain ⟨n'', hn'', hrecast⟩ := Pattern.planOfBinding_image hτ ht.sound hb.sound hn
  rw [← hnames] at hn''
  cases hn'.symm.trans hn''
  obtain ⟨outs'', houts'', hrecasts⟩ := hnat.along hrows hτ.unique hrecast houts
  cases houts'.symm.trans houts''
  obtain ⟨p', hp', hpp'⟩ := hrecasts.exists_left hp
  -- the group of the mirror's root is the mirror of the group
  obtain ⟨z, k', hz, ⟨hk, hself⟩, -⟩ := hτ.expr _ _ _ hroot
  have hsame : root' = τ (m.reduceExpr root) := (List.cons.inj hes).1.symm
  have hlive : b.reduceExpr (τ (m.reduceExpr root)) = τ (m.reduceExpr root) :=
    hb.sound.names.reduceExpr_of_live (by rw [hz]; rfl)
  rw [hsame, hlive, hz] at hroot'
  cases hroot'
  obtain ⟨r, hhosts, rfl⟩ := hall p' hp'
  have htyped : ∀ s t w, rows s t → rows s w → rows t w := fun _ _ _ hst hsw => hrows.trans (hrows.symm hst) hsw
  have hlead : ∀ a k, (v k = some a ∧ b.outline.reduce a = a) → v k = some (b.outline.reduce a) := by
    rintro a k ⟨hka, hself⟩
    rw [hka, hself]
  obtain ⟨r', hhosts', hsame⟩ :=
    (hhosts.typed (htypes _ _ n' outs' himage hn' houts' p' hp')).recast htyped hlead (hpp'.symm hrows)
  have hcanon : r.canon = r'.canon := hsame
  have hgroup : r.canon.group = r'.canon.group := congrArg SubGroupRef.group hcanon
  exact ⟨r', hhosts', hk.trans (congrArg some hgroup)⟩

end Memo

namespace Optimizer

variable {Op Q : Type} [Operator Op] [Quantity Q] {o o' : Optimizer Op Q} {b : Memo Op Q}
variable {rows : RowType → RowType → Prop}

/-! ## Settling -/

/-- The memo is in order, has the trait kinds of another one, and is mirrored in it. -/
structure Mirrored (o : Optimizer Op Q) (b : Memo Op Q) (rows : RowType → RowType → Prop) : Prop where
  orderly : o.memo.Orderly
  registry : o.memo.registry = b.registry
  mirrored : ∃ v, b.Mirrors rows o.memo v

omit [Quantity Q] in
theorem Mirrored.of_memo (h : o.Mirrored b rows) (hm : o'.memo = o.memo) : o'.Mirrored b rows :=
  ⟨hm ▸ h.orderly, hm ▸ h.registry, hm ▸ h.mirrored⟩

/-- After a call the memo is still in order and has the same trait kinds. -/
theorem Mirrored.call (h : o.Mirrored b rows) {m : Memo Op Q} (hm : o.memo.Call m)
    (hv : ∃ v, b.Mirrors rows m v) : ({ o with memo := m } : Optimizer Op Q).Mirrored b rows :=
  ⟨hm.orderly h.orderly, hm.registry_eq.trans h.registry, hv⟩

theorem Mirrored.priceExpr (hb : b.outline.Places) (h : o.Mirrored b rows) {e : ExprId}
    (ok : priceExpr e o = .ok () o') : o'.Mirrored b rows := by
  rcases priceExpr_spec ok with ⟨hmemo, -⟩ | ⟨p, -, hrecord⟩
  · exact h.of_memo hmemo
  · obtain ⟨v, hv⟩ := h.mirrored
    exact (h.call (.recordPrice hrecord) ⟨v, hv.recordPrice hb h.orderly hrecord⟩).of_memo rfl

omit [Quantity Q] in
theorem composes_mirrored :
    Action.Composes (fun o : Optimizer Op Q => o.Mirrored b rows) fun _ o' => o'.Mirrored b rows where
  refl := id
  keeps _ := id
  trans _ := id

theorem Mirrored.winnerImproved (hb : b.outline.Places) (h : o.Mirrored b rows) {s : SubGroupId}
    (ok : winnerImproved s o = .ok () o') : o'.Mirrored b rows :=
  composes_mirrored.winnerImproved (fun e _ _ _ h ok => h.of_memo (still_record e _ _ _ ok).memo)
    (fun _ _ _ _ h ok => h.priceExpr hb ok) s o () o' h ok

/-- A chain over a group may join it if the mirror of the group harbors the legs. -/
theorem Mirrored.addChain (hb : b.outline.Tidy) {g : GroupId} {rowType : RowType} : ∀ {ls : List (Leg Op)}
    {o o' : Optimizer Op Q} {es : List ExprId}, o.Mirrored b rows →
    (∀ w, b.Mirrors rows o.memo w → ∃ k, w g = some k ∧ b.outline.reduce k = k ∧
      ∀ l ∈ ls, b.outline.Harbors k (l.expr k)) →
    addChain g (ls.map (Leg.node g rowType)) o = .ok es o' → o'.Mirrored b rows
  | [], o, o', es, h, hl, ok => by
    obtain ⟨-, rfl⟩ := run_pure_eq_ok ok
    exact h
  | l :: ls, o, o', es, h, hl, ok => by
    obtain ⟨e, m, es', hm, h₂, -⟩ := addChain_cons_eq_ok ok
    have ht := h.orderly.ordered.tidy
    obtain ⟨v, hv⟩ := h.mirrored
    obtain ⟨w, hw, -⟩ := hv.addLeg hb h.orderly hm fun w hw => by
      obtain ⟨k, hk, hself, hall⟩ := hl w hw
      exact ⟨k, hk, (hw.exprs.names g).trans hk, hself, hall l List.mem_cons_self⟩
    refine (h.call (.addEnforcer hm) ⟨w, hw⟩).addChain hb (fun u hu => ?_) h₂
    obtain ⟨k, hk, hself, hall⟩ := hl u (hu.earlier (Memo.Call.onward (.addEnforcer hm) ht) ht)
    exact ⟨k, hk, hself, fun l' hl' => hall l' (List.mem_cons_of_mem _ hl')⟩

/-- An attempt at a conversion that was made in the mirror of the group is mirrored. -/
theorem Mirrored.convertWithin (hb : b.outline.Tidy) (h : o.Mirrored b rows) {g : GroupId}
    {actual required : TraitSet} (hpair : ∀ w, b.Mirrors rows o.memo w → ∃ k, w g = some k ∧
      b.outline.reduce k = k ∧ b.Converted k actual required)
    (ok : convertWithin g actual required o = .ok () o') : o'.Mirrored b rows := by
  cases convertWithin_eq_ok ok with
  | idle => exact h
  | vain => exact h.of_memo rfl
  | @chained _ _ _ m es o₁ _ _ chain asked added =>
    obtain ⟨legs, hlegs, -, rfl⟩ := Registry.convert_eq_some.1 chain
    have ht := h.orderly.ordered.tidy
    obtain ⟨v, hv⟩ := h.mirrored
    obtain ⟨w, hw, -⟩ := hv.request hb.sound.places h.orderly asked
    have hasked : Mirrored { o.attempting g actual required with memo := m } b rows :=
      (h.call (.ensureSubGroup asked) ⟨w, hw⟩).of_memo rfl
    refine (hasked.addChain hb (fun u hu => ?_) added).of_memo (untouched_enforced o₁ _ actual required es).memo
    have hu := hu.earlier (Memo.Call.onward (.ensureSubGroup asked) ht) ht
    obtain ⟨k, hk, hself, hconverted⟩ := hpair u hu
    exact ⟨k, (hu.exprs.names g).trans hk, hself, hconverted legs (h.registry ▸ hlegs)⟩

omit [Operator Op] [Quantity Q] in
/-- What is listed as required, a sub group of the group asks for. -/
theorem exists_sub_of_requiredOf {m : Memo Op Q} (ht : m.outline.Tidy) {g : GroupId} {required : List TraitSet}
    (ok : requiredOf m g = .ok required) {r : TraitSet} (hr : r ∈ required) :
    ∃ s, m.outline.sub s = some ⟨m.outline.reduce g, r⟩ ∧ m.IsRequired s := by
  obtain ⟨subs, hsubs, ok⟩ := bind_eq_ok ok
  cases ok
  obtain ⟨sub, hmem, rfl⟩ := List.mem_map.1 hr
  obtain ⟨hmem, hmarked⟩ := List.mem_filter.1 hmem
  obtain ⟨s, hlisted, hsub⟩ := (mem_of_mapM_eq_ok hsubs).1 hmem
  have hlive := Memo.liveSubGroup_eq_ok hsub
  unfold Memo.subGroupsOf at hlisted
  cases hgroup : m.group? g with
  | none =>
    rw [hgroup] at hlisted
    cases hlisted
  | some group =>
    rw [hgroup] at hlisted
    obtain ⟨⟨t, s⟩, hmem, rfl⟩ := List.mem_map.1 hlisted
    have hfiled := ht.indexed.listed _ _ (Memo.outline_group_of hgroup) _ hmem
    have hself : m.reduceSubGroup s = s := ht.sound.names.reduceSub_of_live (by rw [hfiled]; rfl)
    rw [hself] at hlive
    refine ⟨s, ?_, sub, hlive, hmarked⟩
    have hsub' : m.outline.sub s = some sub.ref := by
      rw [Memo.outline_sub, hlive]
      rfl
    have hsame : sub.ref = ⟨m.outline.reduce g, t⟩ := Option.some.inj (hsub'.symm.trans hfiled)
    rw [hsub', hsame, show sub.traits = t from congrArg SubGroupRef.traits hsame]

omit [Quantity Q] in
/-- What is listed as delivered, a physical member of the group delivers. -/
theorem exists_member_of_deliveredBy {m : Memo Op Q} (hs : m.outline.Sound) {g : GroupId} {delivered : List TraitSet}
    (ok : deliveredBy m g = .ok delivered) {a : TraitSet} (ha : a ∈ delivered) :
    ∃ e x, m.outline.entry e = some (x, m.outline.reduce g) ∧ Operator.isLogical x.op = false ∧ x.traits = a := by
  obtain ⟨exprs, hexprs, ok⟩ := bind_eq_ok ok
  cases ok
  obtain ⟨x, hmem, rfl⟩ := List.mem_map.1 (mem_of_mem_eraseDupsBy ha)
  obtain ⟨hmem, hphysical⟩ := List.mem_filter.1 hmem
  obtain ⟨e, hmember, hx⟩ := (mem_of_mapM_eq_ok hexprs).1 hmem
  obtain ⟨y, hy⟩ := (Memo.mem_members hs).1 hmember
  cases (Memo.getExpr_of_entry hs.names hy).symm.trans hx
  exact ⟨e, x, hy, by simpa using hphysical, rfl⟩

/-- The enforcers that a group gets are mirrored. -/
theorem Mirrored.addEnforcers (hb : b.outline.Tidy) (hequipped : b.Equipped) (h : o.Mirrored b rows) {g : GroupId}
    (ok : addEnforcers g o = .ok () o') : o'.Mirrored b rows := by
  have ht := h.orderly.ordered.tidy
  have ok := run_get_bind_eq_ok ok
  obtain ⟨required, hrequired, ok⟩ := Action.read_bind_eq_ok ok
  obtain ⟨delivered, hdelivered, ok⟩ := Action.read_bind_eq_ok ok
  have hpair : ∀ a ∈ delivered, ∀ r ∈ required, ∀ w, b.Mirrors rows o.memo w →
      ∃ k, w (o.memo.reduceGroup g) = some k ∧ b.outline.reduce k = k ∧ b.Converted k a r := by
    intro a ha r hr w hw
    obtain ⟨e, x, hx, hphysical, rfl⟩ := exists_member_of_deliveredBy ht.sound hdelivered ha
    obtain ⟨s, hs, hmarked⟩ := exists_sub_of_requiredOf ht hrequired hr
    obtain ⟨k, hk, hself, hconverted⟩ := hw.converted hb hequipped ht hx hphysical hs hmarked
    exact ⟨k, (hw.exprs.names _).symm.trans hk, hself, hconverted⟩
  -- the list was made of the memo as it was before the first attempt
  refine (run_forM_invariant (fun as o₁ => (∀ a ∈ as, a ∈ delivered) ∧ o₁.Mirrored b rows ∧ o.memo.Onward o₁.memo)
    (fun a as o₁ o₂ h₁ ok₁ => ?_) ok ⟨fun _ => id, h, .refl _⟩).2.1
  obtain ⟨has, h₁, hon₁⟩ := h₁
  obtain ⟨ha, has⟩ := List.forall_mem_cons.1 has
  refine ⟨has, (run_forM_invariant (fun rs o₂ => (∀ r ∈ rs, r ∈ required) ∧ o₂.Mirrored b rows ∧
    o.memo.Onward o₂.memo) (fun r rs o₃ o₄ h₃ ok₃ => ?_) ok₁ ⟨fun _ => id, h₁, hon₁⟩).2⟩
  obtain ⟨hrs, h₃, hon₃⟩ := h₃
  obtain ⟨hr, hrs⟩ := List.forall_mem_cons.1 hrs
  have hacts : o₃.Acts Freely o₄ := leads_convertWithin enforcing_freely _ a r o₃ () o₄ h₃.orderly ok₃
  exact ⟨hrs, h₃.convertWithin hb (fun w hw => hpair a ha r hr w (hw.earlier hon₃ ht)) ok₃,
    hon₃.trans (hacts.onward h₃.orderly)⟩

theorem Mirrored.settleRound (hb : b.outline.Tidy) (hequipped : b.Equipped) (h : o.Mirrored b rows) {c : Changes}
    (ok : settleRound c o = .ok () o') : o'.Mirrored b rows := by
  obtain ⟨o₁, o₂, o₃, o₄, affected, hbefore, h₂, h₃, -, h₄, hafter⟩ := settleRound_spec ok
  have hpriced : o₂.Mirrored b rows := run_forM_invariant (fun _ o => o.Mirrored b rows)
    (fun _ _ _ _ h ok => h.priceExpr hb.sound.places ok) h₂ (h.of_memo hbefore.1.memo)
  have hread : o₃.Mirrored b rows := run_forM_invariant (fun _ o => o.Mirrored b rows)
    (fun _ _ _ _ h ok => h.winnerImproved hb.sound.places ok) h₃ hpriced
  have henforced : o₄.Mirrored b rows := run_forM_invariant (fun _ o => o.Mirrored b rows)
    (fun _ _ _ _ h ok => h.addEnforcers hb hequipped ok) h₄ hread
  exact henforced.of_memo hafter.memo

/-- What is settled goes on being mirrored where there are all enforcers. -/
theorem Mirrored.settle (hb : b.outline.Tidy) (hequipped : b.Equipped) (h : o.Mirrored b rows) {fuel : Nat}
    (ok : settle fuel o = .ok () o') : o'.Mirrored b rows := by
  have hforget : ∀ {o : Optimizer Op Q}, o.Mirrored b rows →
      ({ o with memo := o.memo.forgetChanges } : Optimizer Op Q).Mirrored b rows := fun h => by
    obtain ⟨v, hv⟩ := h.mirrored
    exact h.call .forgetChanges ⟨v, hv.forgetChanges⟩
  have hround : ∀ o o' : Optimizer Op Q, o.Mirrored b rows → Optimizer.settleRound o.memo.changes
      { o with memo := o.memo.forgetChanges } = .ok () o' → o'.Mirrored b rows :=
    fun _ _ h ok => (hforget h).settleRound hb hequipped ok
  obtain ⟨o₁, h₁, -, rfl⟩ := settle_induct hround h ok
  exact hforget h₁

/-! ## Firing -/

/-- What a rule makes of a binding may join a group where it is hosted in the mirror of the group. -/
theorem Mirrored.produceAll (hb : b.outline.Tidy) {rule : Rule Op Q} {binding : PlanNode Op} {g : GroupId} :
    ∀ {outs : List (Plan Op)} {o o' : Optimizer Op Q} {products : List Product}, o.Mirrored b rows →
    (∀ p ∈ outs, ∀ w, b.Mirrors rows o.memo w → ∃ r, b.Hosts rows w p r ∧ w g = some r.group) →
    outs.mapM (produce rule binding g) o = .ok products o' → o'.Mirrored b rows
  | [], o, o', products, h, hp, ok => by
    obtain ⟨-, rfl⟩ := run_pure_eq_ok ok
    exact h
  | p :: outs, o, o', products, h, hp, ok => by
    obtain ⟨product, o₁, products', h₁, h₂, -⟩ := run_mapM_cons_eq_ok ok
    obtain ⟨e, m, hm, rfl⟩ := produce_eq_ok h₁
    have ht := h.orderly.ordered.tidy
    obtain ⟨v, hv⟩ := h.mirrored
    obtain ⟨w, hw, -⟩ := hv.addTo hb.sound.places h.orderly hm fun w hw => by
      obtain ⟨r, hhosts, hr⟩ := hp p List.mem_cons_self w hw
      exact ⟨r, hhosts, (hw.exprs.names g).trans hr⟩
    exact (h.call (.addTo hm) ⟨w, hw⟩).produceAll hb (fun q hq u hu =>
      hp q (List.mem_cons_of_mem _ hq) u (hu.earlier (Memo.Call.onward (.addTo hm) ht) ht)) h₂

/-- Where an active rule makes operations that are there already, they have the row types of their groups. -/
def Typed (o : Optimizer Op Q) (rows : RowType → RowType → Prop) : Prop :=
  ∀ n rule, o.rules[n]? = some rule → o.isActive n = true → rule.pattern.isWildcard = false → o.memo.Types rows rule

/-- What a search leaves if its rules are natural: all bindings are honored, all enforcers are there, and no check of a
row type was missing. -/
structure Saturated (o : Optimizer Op Q) (rows : RowType → RowType → Prop) : Prop where
  tidy : o.memo.outline.Tidy
  equipped : o.memo.Equipped
  natural : ∀ rule ∈ o.rules, rule.Natural rows
  closed : o.Closed
  typed : o.Typed rows

/-- The search has the rules of another one that ended, and its memo is mirrored in what that left. -/
structure Shadows (o final : Optimizer Op Q) (rows : RowType → RowType → Prop) : Prop where
  waiting : o.Waiting
  rooted : o.Rooted
  rules : o.rules = final.rules
  active : ∀ n, o.isActive n = final.isActive n
  mirrored : o.Mirrored final.memo rows

variable {final : Optimizer Op Q}

/-- Whatever fires, the memo goes on being mirrored. -/
theorem Mirrored.fire (hrows : Equivalence rows) (hf : final.Saturated rows) (h : o.Mirrored final.memo rows)
    (hrules : o.rules = final.rules) {x : Match} (hx : o.Bound x) (htests : o.Tests x.rule)
    (active : final.isActive x.rule = true) {fuel : Nat} (ok : fire fuel x o = .ok () o') :
    o'.Mirrored final.memo rows := by
  obtain ⟨rule, root, more, g, n, outs, products, o₁, hrule, hexprs, hg, hn, houts, hproduced, hsettle⟩ := fire_eq_ok ok
  obtain ⟨rule', e, hrule', hbinds⟩ := hx
  cases hrule.symm.trans hrule'
  obtain ⟨rule', hrule', hwild⟩ := htests
  cases hrule.symm.trans hrule'
  rw [hrules] at hrule
  rw [hexprs] at hbinds hn
  obtain ⟨entry, hentry, hgroup⟩ := bind_eq_ok hg
  cases hgroup
  have hroot := Memo.outline_entry_of (Memo.getEntry_eq_ok hentry)
  have hfiring : (o.firing x.rule).Mirrored final.memo rows := h.of_memo rfl
  have h₁ : o₁.Mirrored final.memo rows := by
    refine hfiring.produceAll hf.tidy (fun p hp w hw => ?_) hproduced
    obtain ⟨r, hhosts, hr⟩ := hw.hosted hf.tidy h.orderly.ordered.tidy hrows
      (hf.natural rule (List.mem_of_getElem? hrule)) (hf.typed _ rule hrule active hwild)
      (fun root es => hf.closed _ rule root es hrule active hwild) hbinds hroot hn houts hp
    exact ⟨r, hhosts, (hw.exprs.names _).trans hr⟩
  exact (h₁.of_memo (idle_withEvent o₁ _).memo).settle hf.tidy hf.equipped hsettle

/-! ## Searching -/

omit [Operator Op] [Quantity Q] in
/-- The rules are the same ones, as active as before, and the memo went on. -/
structure Continues (o o' : Optimizer Op Q) : Prop where
  rules : o'.rules = o.rules
  active : ∀ n, o'.isActive n = o.isActive n
  onward : o.memo.Onward o'.memo

omit [Operator Op] in
theorem Continues.trans {o o' o'' : Optimizer Op Q} (h₁ : o.Continues o') (h₂ : o'.Continues o'') : o.Continues o'' :=
  ⟨h₂.rules.trans h₁.rules, fun n => (h₂.active n).trans (h₁.active n), h₁.onward.trans h₂.onward⟩

omit [Operator Op] in
theorem Continues.of_memo (hm : o'.memo = o.memo) (hr : o'.rules = o.rules) (ha : ∀ n, o'.isActive n = o.isActive n) :
    o.Continues o' := ⟨hr, ha, hm ▸ .refl _⟩

theorem settle_continues {fuel : Nat} (ho : o.memo.Orderly) (ok : settle fuel o = .ok () o') : o.Continues o' :=
  ⟨(settle_frame ho ok).rules, (settle_frame ho ok).isActive, settle_onward ho ok⟩

theorem Dispatched.continues {fuel : Nat} {x : Match} {fires : Bool} (ho : o.memo.Orderly)
    (hd : Dispatched fuel x o fires o') : o.Continues o' := by
  cases hd with
  | dropped => exact .of_memo rfl rfl fun _ => rfl
  | forgotten => exact .of_memo rfl rfl fun _ => rfl
  | full memo _ frame => exact .of_memo memo frame.rules frame.isActive
  | fired _ ok =>
    obtain ⟨o₁, hacts, hsettle⟩ := fire_freely ho ok
    exact .trans ⟨hacts.frame.rules, hacts.frame.isActive, hacts.onward ho⟩
      (settle_continues (hacts.orderly ho) hsettle)

theorem Waiting.continues (h : o.Waiting) (ha : o.Advances o') : o.Continues o' ∧ o'.Waiting := by
  induction ha with
  | refl => exact ⟨.of_memo rfl rfl fun _ => rfl, h⟩
  | @tail o₁ o₂ _ hs ih =>
    obtain ⟨hcontinues, h₁⟩ := ih
    refine ⟨hcontinues.trans ?_, h₁.advance hs⟩
    cases hs with
    | stop ok =>
      obtain ⟨memo, -, -, frame⟩ := exhaust_spec ok
      exact .of_memo memo frame.rules frame.isActive
    | turn next ok =>
      obtain ⟨fires, hd⟩ := dispatch_spec ok
      have hturn := hd.continues (h₁.taken next).2.reached.orderly
      exact ⟨hturn.rules, hturn.active, hturn.onward⟩

theorem Shadows.dispatched (hrows : Equivalence rows) (hf : final.Saturated rows) (h : o.Shadows final rows)
    {x : Match} (hx : o.Bound x) (htests : o.Tests x.rule) {fuel : Nat} {fires : Bool}
    (hd : Dispatched fuel x o fires o') : o'.Shadows final rows := by
  have hcontinues := hd.continues h.mirrored.orderly
  refine ⟨h.waiting.dispatched hd, h.rooted.dispatched hd, hcontinues.rules.trans h.rules,
    fun n => (hcontinues.active n).trans (h.active n), ?_⟩
  cases hd with
  | dropped => exact h.mirrored
  | forgotten => exact h.mirrored.of_memo rfl
  | full memo _ _ => exact h.mirrored.of_memo memo
  | fired active ok => exact h.mirrored.fire hrows hf h.rules hx htests (h.active _ ▸ active) ok

/-- A turn of the search leaves it in the shadow of the other one. -/
theorem Shadows.advance (hrows : Equivalence rows) (hf : final.Saturated rows) (h : o.Shadows final rows)
    (ha : o.Advance o') : o'.Shadows final rows := by
  cases ha with
  | stop ok =>
    obtain ⟨memo, -, -, frame⟩ := exhaust_spec ok
    exact ⟨h.waiting.advance (.stop ok), h.rooted.advance (.stop ok), frame.rules.trans h.rules,
      fun n => (frame.isActive n).trans (h.active n), h.mirrored.of_memo memo⟩
  | turn next ok =>
    obtain ⟨fires, hd⟩ := dispatch_spec ok
    obtain ⟨hx, hwaiting⟩ := h.waiting.taken next
    obtain ⟨htests, hrooted⟩ := h.rooted.taken next
    have htaken : ({ o with agenda := _ } : Optimizer Op Q).Shadows final rows :=
      ⟨hwaiting, hrooted, h.rules, h.active, h.mirrored.of_memo rfl⟩
    exact htaken.dispatched hrows hf hx htests hd

theorem Shadows.advances (hrows : Equivalence rows) (hf : final.Saturated rows) (h : o.Shadows final rows)
    (ha : o.Advances o') : o'.Shadows final rows := by
  induction ha with
  | refl => exact h
  | tail _ hs ih => exact ih.advance hrows hf hs

end Optimizer

end PlanSearch
