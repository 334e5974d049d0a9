import PlanSearch.Proofs.Memo.Renaming
import PlanSearch.Proofs.Optimizer.Extraction
import PlanSearch.Proofs.Optimizer.Optimality
import PlanSearch.Proofs.Optimizer.Shadows

/-!
# The order of firing

An optimizer is cleared twice, with the one order of the agenda and with the other, and each time the same plan is
seeded and searched. The two searches begin with the same memo, and each one's memo is mirrored in what the other one
leaves. So if both end within their budgets, the memos that they leave differ in names only, and the best plans weigh
the same.

    Searches … → Searches … → o₂.Typed rows → ∃ v, o₂.memo.Mirrors rows o₁.memo v                 (Searches.mirrored)
    Searches … → Searches … → the memos are the same up to names, and so are the weights at the root
                                                                                                  (order_is_irrelevant)
-/

namespace PlanSearch

open Outline

/-! ## Winners -/

namespace Memo

variable {Op Q W : Type} [Operator Op] [Quantity Q] [AddCommMonoid W] [PartialOrder W] [IsOrderedAddMonoid W]
variable [CanonicallyOrderedAdd W] {m : Memo Op Q} {model : CostModel Op Q} {tariff : Tariff Op W} {worth : Price Q → W}

omit [Operator Op] [Quantity Q] in
/-- What is required is required of a live group. -/
theorem Requires.live (ht : m.outline.Tidy) {r : SubGroupRef} (h : m.Requires r) :
    (m.outline.group (m.outline.reduce r.group)).isSome := by
  obtain ⟨group, s, hgroup, -, -⟩ := h.listed ht
  exact Option.isSome_iff_exists.2 ⟨_, outline_group_of hgroup⟩

/-- The winner for what is required is looked up without failing, and is worth as little as any derivation. -/
theorem Settled.winner (h : m.Settled model tariff worth) {r : SubGroupRef} (hr : m.Requires r) :
    ∃ w, m.winner r = .ok w ∧ (w.isSome ↔ ∃ c, m.Derives tariff r c) ∧
      ∀ v, w = some v → IsLeast {c | m.Derives tariff r c} (worth v.price) := by
  obtain ⟨s, hserves, -⟩ := hr
  have hsub := h.tidy.subOf_iff.2 hserves
  obtain ⟨ref, href, htraits, hgroup⟩ := hserves
  have hsame : ∀ c, m.Derives tariff ref c ↔ m.Derives tariff r c := fun c =>
    ⟨fun hd => hd.congr htraits hgroup, fun hd => hd.congr htraits.symm hgroup.symm⟩
  refine ⟨_, winner_eq h.tidy r, ?_, fun v hv => ?_⟩
  · rw [hsub, Option.bind_some, h.isSome_iff href]
    exact exists_congr hsame
  · rw [hsub, Option.bind_some] at hv
    have hcosts : {c | m.Derives tariff ref c} = {c | m.Derives tariff r c} := Set.ext hsame
    exact hcosts ▸ h.isLeast href hv

omit [AddCommMonoid W] [IsOrderedAddMonoid W] [CanonicallyOrderedAdd W] [Quantity Q] in
/-- Where a winner is there exactly if there are costs at all, and is worth the least of them, its worth is fixed. -/
theorem worth_eq_of_isLeast {costs : Set W} {w w' : Option (Winner Q)} (hw : w.isSome ↔ costs.Nonempty)
    (hw' : w'.isSome ↔ costs.Nonempty) (hleast : ∀ v, w = some v → IsLeast costs (worth v.price))
    (hleast' : ∀ v, w' = some v → IsLeast costs (worth v.price)) :
    (w.map fun v => worth v.price) = w'.map fun v => worth v.price := by
  cases w with
  | none =>
    have hnone : w' = none := Option.not_isSome_iff_eq_none.1 fun hsome => by simpa using hw.2 (hw'.1 hsome)
    rw [hnone]
  | some v =>
    obtain ⟨v', rfl⟩ := Option.isSome_iff_exists.1 (hw'.2 (hw.1 rfl))
    exact congrArg some ((hleast v rfl).unique (hleast' v' rfl))

end Memo

namespace Optimizer

variable {Op Q : Type} [Operator Op] [Quantity Q] {o o' o₁ o₂ : Optimizer Op Q} {rows : RowType → RowType → Prop}
variable {plan : PlanNode Op} {required : TraitSet} {g g₀ g₁ g₂ : GroupId} {m m' : Memo Op Q}

/-! ## What a search begins with -/

omit [Operator Op] [Quantity Q] in
/-- The optimizer, cleared for a search that takes its matches in the given order. -/
def inOrder (o : Optimizer Op Q) (order : AgendaOrder) : Optimizer Op Q :=
  clear { o with options := { o.options with order := order } }

/-- The plan was seeded in the group `g`, and the search for it ended in the state `o'`, within its budgets. -/
inductive Searches (o : Optimizer Op Q) (plan : PlanNode Op) (required : TraitSet) (g : GroupId) :
    Optimizer Op Q → Prop
  | ends {fuel turns : Nat} {seeded o' : Optimizer Op Q} (seeds : seed fuel plan required o = .ok g seeded)
      (ok : search turns seeded = .ok () o') (within : o'.budgetExhausted = false) : Searches o plan required g o'

/-- The plan was added to `m` in the group `g₀`, and what is required of it was asked for, which made `m'` of it. -/
def Seeds (m : Memo Op Q) (plan : PlanNode Op) (required : TraitSet) (g₀ : GroupId) (m' : Memo Op Q) : Prop :=
  ∃ e s m₁, Memo.add plan m = .ok (g₀, e) m₁ ∧ Memo.ensureSubGroup ⟨g₀, required⟩ true m₁ = .ok s m'

/-- There is only one way to seed a plan. -/
theorem Seeds.unique {g₀' : GroupId} {m'' : Memo Op Q} (h : Seeds m plan required g₀ m')
    (h' : Seeds m plan required g₀' m'') : g₀' = g₀ ∧ m'' = m' := by
  obtain ⟨e, s, m₁, hadd, hask⟩ := h
  obtain ⟨e', s', m₁', hadd', hask'⟩ := h'
  cases hadd.symm.trans hadd'
  cases hask.symm.trans hask'
  exact ⟨rfl, rfl⟩

theorem Seeds.reached (h : Seeds m plan required g₀ m') (hm : m.Reached) : m'.Reached := by
  obtain ⟨e, s, m₁, hadd, hask⟩ := h
  exact .call (.call hm (.add hadd)) (.ensureSubGroup hask)

theorem Seeds.requires (h : Seeds m plan required g₀ m') (hm : m.Reached) : m'.Requires ⟨g₀, required⟩ := by
  obtain ⟨e, s, m₁, hadd, hask⟩ := h
  have hreached : m₁.Reached := .call hm (.add hadd)
  exact Memo.ensureSubGroup_requires hreached.orderly.ordered.tidy hask

/-- A seeded optimizer goes on from the seed. -/
theorem seed_continues (hb : o.Blank) {fuel : Nat} (ok : seed fuel plan required o = .ok g o') :
    ∃ g₀ m, Seeds o.memo plan required g₀ m ∧ m.Onward o'.memo ∧ o'.rules = o.rules ∧
      (∀ n, o'.isActive n = o.isActive n) ∧ g = o'.memo.outline.reduce g₀ := by
  obtain ⟨g₀, e, s, m₁, m₂, o₂, hadd, hask, hsettle, rfl, rfl⟩ := seed_spec ok
  have hseeds : Seeds o.memo plan required g₀ m₂ := ⟨e, s, m₁, hadd, hask⟩
  have hcontinues := settle_continues (hseeds.reached hb.reached).orderly hsettle
  exact ⟨g₀, m₂, hseeds, hcontinues.onward, hcontinues.rules, hcontinues.active, rfl⟩

/-- What a search ends with, as seen from its seed. -/
structure Ends (m : Memo Op Q) (root : GroupId) (o : Optimizer Op Q) (g : GroupId) (o' : Optimizer Op Q) : Prop where
  reached : o'.memo.Reached
  onward : m.Onward o'.memo
  rules : o'.rules = o.rules
  active : ∀ n, o'.isActive n = o.isActive n
  root : o'.memo.outline.reduce g = o'.memo.outline.reduce root

theorem Searches.ends_of (hb : o.Blank) (h : o.Searches plan required g o') :
    ∃ g₀ m, Seeds o.memo plan required g₀ m ∧ Ends m g₀ o g o' := by
  obtain ⟨seeds, ok, -⟩ := h
  obtain ⟨g₀, m, hseeds, honward, hrules, hactive, rfl⟩ := seed_continues hb seeds
  obtain ⟨hcontinues, hwaiting⟩ := (Waiting.seed hb seeds).continues (search_advances ok)
  have ht := honward.tidy (hseeds.reached hb.reached).orderly.ordered.tidy
  exact ⟨g₀, m, hseeds, hwaiting.reached, honward.trans hcontinues.onward, hcontinues.rules.trans hrules,
    fun n => (hcontinues.active n).trans (hactive n), (hcontinues.onward.evolves ht).group g₀⟩

/-- What was required at the seed is required at the end. -/
theorem Ends.requires (hm : m.Reached) (h : Ends m g₀ o g o') (hr : m.Requires ⟨g₀, required⟩) :
    o'.memo.Requires ⟨g, required⟩ :=
  (hr.later h.onward hm.orderly.ordered.tidy).akin ⟨TraitSet.same_refl _, by
    rw [h.root]
    exact h.reached.orderly.ordered.tidy.sound.names.reduce_reduce g₀⟩

/-- Where two searches go on from one seed, the root of the one is mirrored by the root of the other. -/
theorem Ends.leads {v : GroupId → Option GroupId} (hm : m.Reached) (hr : m.Requires ⟨g₀, required⟩)
    (h₁ : Ends m g₀ o g₁ o₁) (h₂ : Ends m g₀ o' g₂ o₂) (hrows : ∀ t, rows t t) (hv : o₂.memo.Mirrors rows o₁.memo v) :
    v g₁ = some (o₂.memo.outline.reduce g₂) := by
  have ht := hm.orderly.ordered.tidy
  have hearlier := hv.earlier h₁.onward ht
  have hsame := Memo.Mirrors.unique hm hearlier (h₂.onward.mirrors ht hrows) (hr.live ht)
  calc v g₁ = v (o₁.memo.outline.reduce g₁) := (hv.exprs.names g₁).symm
    _ = v g₀ := by rw [h₁.root, hv.exprs.names]
    _ = v (m.outline.reduce g₀) := (hearlier.exprs.names g₀).symm
    _ = some (o₂.memo.outline.reduce (m.outline.reduce g₀)) := hsame.symm
    _ = some (o₂.memo.outline.reduce g₂) := by rw [(h₂.onward.evolves ht).group, h₂.root]

/-- What is derived at the one root is derived at the other, at the same cost. -/
theorem Ends.derives {W : Type} [AddCommMonoid W] {tariff : Tariff Op W} {c : W} {v : GroupId → Option GroupId}
    (hm : m.Reached) (hr : m.Requires ⟨g₀, required⟩) (h₁ : Ends m g₀ o g₁ o₁) (h₂ : Ends m g₀ o' g₂ o₂)
    (hrows : ∀ t, rows t t) (hv : o₂.memo.Mirrors rows o₁.memo v) (hd : o₁.memo.Derives tariff ⟨g₁, required⟩ c) :
    o₂.memo.Derives tariff ⟨g₂, required⟩ c := by
  have ht₁ := h₁.reached.orderly.ordered.tidy
  have ht₂ := h₂.reached.orderly.ordered.tidy
  have hregistry : o₁.memo.registry = o₂.memo.registry := h₁.onward.registry.trans h₂.onward.registry.symm
  have hderives := hv.derives ht₂ ht₁ hregistry hd (h₁.leads hm hr h₂ hrows hv)
  exact hderives.congr (TraitSet.same_refl _) (ht₂.sound.names.reduce_reduce g₂)

/-! ## What a search ends with -/

theorem Searches.run (hb : o.Blank) (hu : o.attempted = []) (h : o.Searches plan required g o') :
    o'.Run ∧ o'.model = o.model := by
  obtain ⟨seeds, ok, -⟩ := h
  obtain ⟨hfit, hmoves⟩ := hb.moves seeds (search_advances ok)
  exact ⟨.call (.search _) (.call (.seed _ _ _) (.start hb hu) seeds) ok, (hmoves.fit hfit).model⟩

/-- In every state of a run, all groups have the enforcers that they need. -/
theorem Run.equipped (h : o.Run) : o.memo.Equipped :=
  fun _ _ _ _ hx hphysical hs hr _ hlegs => h.harbors hx hphysical hs hr hlegs

section InOrder

variable {order order₁ order₂ : AgendaOrder}

omit [Operator Op] [Quantity Q] in
theorem blank_inOrder (o : Optimizer Op Q) (order : AgendaOrder) : (o.inOrder order).Blank := blank_clear _

/-- A search that ends within its budgets leaves a memo that is saturated, as far as its row types are in order. -/
theorem Searches.saturated (used : o.Used) (hrows : Equivalence rows) (hnat : ∀ rule ∈ o.rules, rule.Natural rows)
    (h : (o.inOrder order).Searches plan required g o') (htyped : o'.Typed rows) : o'.Saturated rows := by
  obtain ⟨hrun, -⟩ := h.run (blank_inOrder o order) rfl
  obtain ⟨g₀, m, -, hends⟩ := h.ends_of (blank_inOrder o order)
  obtain ⟨seeds, ok, within⟩ := h
  have hhistory : (o.inOrder order).History [] := .clear (.host o.memo o.model _ o.stats used)
  obtain ⟨-, -, -, -, hrules, -, -⟩ := seed_continues (blank_inOrder o order) seeds
  refine ⟨hrun.tidy, hrun.equipped, hends.rules ▸ hnat, ?_, htyped⟩
  exact search_closes (.step hhistory (.seed seeds)) hrows (hrules ▸ hnat) ok within

/-- A search is mirrored in what the other one leaves. -/
theorem Searches.mirrored (used : o.Used) (hrows : Equivalence rows) (hnat : ∀ rule ∈ o.rules, rule.Natural rows)
    (h₁ : (o.inOrder order₁).Searches plan required g₁ o₁) (h₂ : (o.inOrder order₂).Searches plan required g₂ o₂)
    (htyped : o₂.Typed rows) : ∃ v, o₂.memo.Mirrors rows o₁.memo v := by
  have hfinal := h₂.saturated used hrows hnat htyped
  obtain ⟨g₀, m, hseeds, hends⟩ := h₂.ends_of (blank_inOrder o order₂)
  obtain ⟨seeds, ok, -⟩ := h₁
  have hblank := blank_inOrder o order₁
  have hwaiting := Waiting.seed hblank seeds
  have htriggered : (o.inOrder order₁).Triggered := Used.triggered (.clear (.host o.memo o.model _ o.stats used))
  have hrooted := Rooted.seed hblank htriggered seeds
  obtain ⟨-, -, -, -, hrules, hactive, -⟩ := seed_continues hblank seeds
  obtain ⟨g₀', e, s, m₁, m', seeded, hadd, hask, hsettle, rfl, -⟩ := seed_spec seeds
  -- both searches begin with the same memo, from which the other one went on
  obtain ⟨rfl, rfl⟩ := hseeds.unique ⟨e, s, m₁, hadd, hask⟩
  have horderly := (hseeds.reached hblank.reached).orderly
  have hseeded : ({ o.inOrder order₁ with
      phase := .seeding, memo := m', root := some ⟨g₀', required⟩, seedPlan := some plan } :
      Optimizer Op Q).Mirrored o₂.memo rows :=
    ⟨horderly, hends.onward.registry.symm, _, hends.onward.mirrors horderly.ordered.tidy hrows.refl⟩
  have hsettled := hseeded.settle hfinal.tidy hfinal.equipped hsettle
  have hshadows : ({ seeded with phase := .searching } : Optimizer Op Q).Shadows o₂ rows :=
    ⟨hwaiting, hrooted, hrules.trans hends.rules.symm, fun n => (hactive n).trans (hends.active n).symm,
      hsettled.of_memo rfl⟩
  exact (hshadows.advances hrows hfinal (search_advances ok)).mirrored.mirrored

/-- Let an optimizer in use be cleared twice, with the one order of the agenda and with the other, and the same plan
be seeded and searched. Let both searches end within their budgets. If the rules are natural, the operations that they
make have the row types of the groups that hold them, and costs are added up from what each operation costs by itself,
then the two memos are the same up to the names of groups and expressions, with the one root for the other, and either
both roots have a winner for what is required, and these weigh the same, or none has. -/
theorem order_is_irrelevant [LinearOrder Q] [Quantity.Exact Q] [AddCommMonoid Q] [IsOrderedAddMonoid Q]
    [CanonicallyOrderedAdd Q] (used : o.Used) (hrows : Equivalence rows) (hnat : ∀ rule ∈ o.rules, rule.Natural rows)
    (ha : o.model.Additive) {tariff : Tariff Op Q} (hk : o.model.Keeps tariff)
    (h₁ : (o.inOrder order₁).Searches plan required g₁ o₁) (h₂ : (o.inOrder order₂).Searches plan required g₂ o₂)
    (htyped₁ : o₁.Typed rows) (htyped₂ : o₂.Typed rows) :
    ∃ σ τ, o₁.memo.Renames o₂.memo rows σ τ ∧ σ (o₁.memo.reduceGroup g₁) = o₂.memo.reduceGroup g₂ ∧
      ∃ w₁ w₂, o₁.memo.winner ⟨g₁, required⟩ = .ok w₁ ∧ o₂.memo.winner ⟨g₂, required⟩ = .ok w₂ ∧
        (w₁.map fun v => v.price.weight) = w₂.map fun v => v.price.weight := by
  obtain ⟨v, hv⟩ := h₁.mirrored used hrows hnat h₂ htyped₂
  obtain ⟨u, hu⟩ := h₂.mirrored used hrows hnat h₁ htyped₁
  obtain ⟨hrun₁, hmodel₁⟩ := h₁.run (blank_inOrder o order₁) rfl
  obtain ⟨hrun₂, hmodel₂⟩ := h₂.run (blank_inOrder o order₂) rfl
  obtain ⟨g₀, m, hseeds, hends₁⟩ := h₁.ends_of (blank_inOrder o order₁)
  obtain ⟨g₀', m', hseeds', hends₂⟩ := h₂.ends_of (blank_inOrder o order₂)
  obtain ⟨rfl, rfl⟩ := hseeds.unique hseeds'
  have hm := hseeds.reached (blank_inOrder o order₁).reached
  have hrequires := hseeds.requires (blank_inOrder o order₁).reached
  have ht₁ := hends₁.reached.orderly.ordered.tidy
  have ht₂ := hends₂.reached.orderly.ordered.tidy
  obtain ⟨τ, hτ⟩ := hv.renames ht₁ ht₂ hu (fun g => hv.back hends₁.reached ht₂.sound.places hrows.refl hu)
    fun g => hu.back hends₂.reached ht₁.sound.places hrows.refl hv
  have hroot : v (o₁.memo.outline.reduce g₁) = some (o₂.memo.outline.reduce g₂) :=
    (hv.exprs.names g₁).trans (hends₁.leads hm hrequires hends₂ hrows.refl hv)
  refine ⟨_, τ, hτ, congrArg (Option.getD · (o₁.memo.outline.reduce g₁)) hroot, ?_⟩
  -- the same is derived at both roots
  have hcosts : {c | o₁.memo.Derives tariff ⟨g₁, required⟩ c} = {c | o₂.memo.Derives tariff ⟨g₂, required⟩ c} :=
    Set.ext fun c => ⟨hends₁.derives hm hrequires hends₂ hrows.refl hv, hends₂.derives hm hrequires hends₁ hrows.refl hu⟩
  have hsettled₁ := hrun₁.settled Memo.ranks_weight (hmodel₁ ▸ hk.gauges ha)
  have hsettled₂ := hrun₂.settled Memo.ranks_weight (hmodel₂ ▸ hk.gauges ha)
  obtain ⟨w₁, hw₁, hsome₁, hleast₁⟩ := hsettled₁.winner (hends₁.requires hm hrequires)
  obtain ⟨w₂, hw₂, hsome₂, hleast₂⟩ := hsettled₂.winner (hends₂.requires hm hrequires)
  rw [← hcosts] at hleast₂
  have hsame : w₂.isSome ↔ {c | o₁.memo.Derives tariff ⟨g₁, required⟩ c}.Nonempty := hcosts ▸ hsome₂
  exact ⟨w₁, w₂, hw₁, hw₂, Memo.worth_eq_of_isLeast hsome₁ hsame hleast₁ hleast₂⟩

end InOrder

section SmallHost

open SmallHost Relational

theorem natural_swap {rows : RowType → RowType → Prop} : swap.Natural rows := by
  rintro σ m m' n n' _ - hrecast ⟨⟩
  cases hrecast with
  | node alike below => exact ⟨_, rfl, .cons (.node alike below.reverse) .nil⟩

/-- Runs a logical operator, and before joins are swapped if the agenda goes by priority. -/
def eager : Rule Kind Nat := { implement with priority := 1 }

theorem natural_eager {rows : RowType → RowType → Prop} : eager.Natural rows := by
  rintro σ m m' n n' _ - hrecast ⟨⟩
  cases hrecast with
  | node alike below =>
    exact ⟨_, rfl, .cons (.node ⟨congrArg run alike.op, alike.data, alike.traits, alike.row⟩ below) .nil⟩

/-- Joins are swapped, run and sorted, and run first by priority. -/
def hurried : Optimizer Kind Nat := .new [swap, eager] prices orders [] .default

theorem searches_of_optimizeLogged {order : AgendaOrder} {o o' : Optimizer Kind Nat} {fuel : Nat}
    {plan : PlanNode Kind} {required : TraitSet} {fired : List Match} {outcome : Outcome Kind Nat}
    (h : answer? (optimizeLogged fuel plan required) (o.inOrder order) = some (fired, o', outcome))
    (within : o'.budgetExhausted = false) : ∃ g, (o.inOrder order).Searches plan required g o' := by
  obtain ⟨g, seeded, final, hseed, hsearch, -⟩ := optimizeLogged_spec h
  exact ⟨g, .ends hseed (search_of_searchLogged hsearch) within⟩

/-- What is looked at: the members of the root's group, and whether a budget ran out. -/
def rootMembers (o : Optimizer Kind Nat) : Option (List ExprId) × Bool :=
  ((o.memo.groups[(⟨7⟩ : GroupId)]?).map Group.members, o.budgetExhausted)

set_option maxRecDepth 100000 in
/-- By priority the expressions of the small host's search get other names, and the root weighs the same. -/
theorem hurried_in_both_orders : ∃ (o₁ o₂ : Optimizer Kind Nat) (g₁ g₂ : GroupId),
    (hurried.inOrder .fifo).Searches joined byFirst g₁ o₁ ∧
    (hurried.inOrder .priority).Searches joined byFirst g₂ o₂ ∧ rootMembers o₁ ≠ rootMembers o₂ ∧
    ∃ σ τ, o₁.memo.Renames o₂.memo (fun _ _ => True) σ τ ∧ σ (o₁.memo.reduceGroup g₁) = o₂.memo.reduceGroup g₂ ∧
      ∃ w₁ w₂, o₁.memo.winner ⟨g₁, byFirst⟩ = .ok w₁ ∧ o₂.memo.winner ⟨g₂, byFirst⟩ = .ok w₂ ∧
        (w₁.map fun v => v.price.weight) = w₂.map fun v => v.price.weight := by
  have hfifo : (answer? (optimizeLogged 20 joined byFirst) (hurried.inOrder .fifo)).map (fun a => rootMembers a.2.1) =
      some (some [⟨6⟩, ⟨11⟩, ⟨12⟩, ⟨14⟩, ⟨15⟩], false) := by cbv
  have hpriority : (answer? (optimizeLogged 20 joined byFirst) (hurried.inOrder .priority)).map
      (fun a => rootMembers a.2.1) = some (some [⟨6⟩, ⟨11⟩, ⟨13⟩, ⟨14⟩, ⟨15⟩], false) := by cbv
  obtain ⟨⟨_, o₁, _⟩, h₁, hshown₁⟩ := Option.map_eq_some_iff.1 hfifo
  obtain ⟨⟨_, o₂, _⟩, h₂, hshown₂⟩ := Option.map_eq_some_iff.1 hpriority
  obtain ⟨g₁, hsearches₁⟩ := searches_of_optimizeLogged h₁ (congrArg Prod.snd hshown₁)
  obtain ⟨g₂, hsearches₂⟩ := searches_of_optimizeLogged h₂ (congrArg Prod.snd hshown₂)
  have hrules : ∀ rule ∈ hurried.rules, rule.Natural fun _ _ => True := by
    intro rule hrule
    rcases List.mem_pair.1 hrule with rfl | rfl
    · exact natural_swap
    · exact natural_eager
  have htyped : ∀ o : Optimizer Kind Nat, o.Typed fun _ _ => True := by
    unfold Typed Memo.Types
    intros
    trivial
  refine ⟨o₁, o₂, g₁, g₂, hsearches₁, hsearches₂, ?_, order_is_irrelevant (.new _ _ _ _ _)
    ⟨fun _ => trivial, fun _ => trivial, fun _ _ => trivial⟩ hrules prices_additive prices_keeps hsearches₁ hsearches₂
    (htyped o₁) (htyped o₂)⟩
  rw [show rootMembers o₁ = _ from hshown₁, show rootMembers o₂ = _ from hshown₂]
  decide

end SmallHost

end Optimizer

end PlanSearch
