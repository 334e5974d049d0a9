import PlanSearch.Proofs.Matching.Triggers
import PlanSearch.Proofs.Optimizer.Acts

/-!
# What discovery finds

Discovery leaves the memo alone and puts bindings of active rules on the agenda. Asked about an
expression, it finds all bindings that the expression takes part in, and asked about a rule, it finds
all bindings of the rule.

    indexExpr e o = .ok () o' → o.Finds o' ∧ …                (indexExpr_finds)
    matchEverywhere id o = .ok () o' → o.Finds o' ∧ …         (matchEverywhere_finds)
-/

namespace PlanSearch

open Outline

theorem Agenda.push_rejected {a a' : Agenda} {x : Match} {priority : Int}
    (h : a.push x priority = (a', false)) : a' = a := by
  unfold push at h
  split at h
  · cases h; rfl
  · cases h

namespace Optimizer

variable {Op Q : Type} [Operator Op] {o o' : Optimizer Op Q}

/-- The operands of every rule that was not removed are found under all operators that they accept. -/
def Synced (o : Optimizer Op Q) : Prop :=
  ∀ id rule, o.rules[id]? = some rule → id ∉ o.removed → ∀ d test q, (d, test, q) ∈ rule.pattern.operands →
    ∀ op, test.accepts op = true → (id, d) ∈ o.triggers.candidates op

theorem Synced.of_frame (h : o.Synced) (hf : o.Frame o') : o'.Synced := by
  unfold Synced
  rw [hf.rules, hf.removed, hf.triggers]
  exact h

/-- Rounds of discovery one after the other; `K` tells the keys that a round is to find. -/
theorem finds_forM {β : Type} {f : β → Action Op Q Unit} {bs : List β} {K : β → List Nat → Prop}
    (hf : ∀ b ∈ bs, ∀ o₁ o₂, o.Finds o₁ → f b o₁ = .ok () o₂ →
      o₁.Finds o₂ ∧ ∀ k, K b k → k ∈ o₂.agenda.seen)
    (h : bs.forM f o = .ok () o') :
    o.Finds o' ∧ ∀ b ∈ bs, ∀ k, K b k → k ∈ o'.agenda.seen := by
  have key : ∀ (bs' : List β) (o₁ : Optimizer Op Q), (∀ b ∈ bs', b ∈ bs) → o.Finds o₁ →
      bs'.forM f o₁ = .ok () o' → o₁.Finds o' ∧ ∀ b ∈ bs', ∀ k, K b k → k ∈ o'.agenda.seen := by
    intro bs'
    induction bs' with
    | nil =>
      intro o₁ _ _ h
      obtain ⟨-, rfl⟩ := run_pure_eq_ok h
      exact ⟨.refl, fun b hb => by cases hb⟩
    | cons b bs' ih =>
      intro o₁ hsub ho₁ h
      obtain ⟨_, o₂, h₁, h₂⟩ := run_bind_eq_ok h
      obtain ⟨hfind, hseen⟩ := hf b (hsub b List.mem_cons_self) o₁ o₂ ho₁ h₁
      obtain ⟨hfinds, hall⟩ := ih o₂ (fun b' hb' => hsub b' (List.mem_cons_of_mem _ hb'))
        (ho₁.trans hfind) h₂
      refine ⟨hfind.trans hfinds, fun b' hb' k hk => ?_⟩
      rcases List.mem_cons.1 hb' with rfl | hb'
      · exact hfinds.seen (hseen k hk)
      · exact hall b' hb' k hk
  exact key bs o (fun _ => id) .refl h

theorem enqueue_finds {id : Nat} {rule : Rule Op Q} {e : ExprId} {es : List ExprId}
    (known : o.rules[id]? = some rule) (active : o.isActive id = true)
    (binds : o.memo.outline.Binds rule.pattern e es) (h : enqueue id rule es o = .ok () o') :
    o.Finds o' ∧ (⟨id, es⟩ : Match).key ∈ o'.agenda.seen := by
  simp only [enqueue] at h
  have h := run_get_bind_eq_ok h
  cases hp : o.agenda.push ⟨id, es⟩ rule.priority with
  | mk agenda accepted =>
    rw [hp] at h
    have hseen := (Agenda.push_seen hp (⟨id, es⟩ : Match).key).2 (.inr rfl)
    cases accepted with
    | false =>
      obtain ⟨-, rfl⟩ := run_pure_eq_ok h
      rw [Agenda.push_rejected hp] at hseen
      exact ⟨.refl, hseen⟩
    | true =>
      have h := run_modify_bind_eq_ok h
      have h := run_modify_bind_eq_ok (g := fun o : Optimizer Op Q =>
        { o with stats := { o.stats with bindings := Stats.bump o.stats.bindings id } }) h
      cases h
      obtain ⟨hmemo, hagenda, hframe⟩ := idle_withEvent
        ({ o with agenda := agenda, stats := { o.stats with
          bindings := Stats.bump o.stats.bindings id } }) (.ruleMatched id rule.name es)
      have hpush : o.Finds { o with agenda := agenda } := .single (.push known active binds hp)
      have hcount : Find { o with agenda := agenda } { o with agenda := agenda, stats :=
          { o.stats with bindings := Stats.bump o.stats.bindings id } } :=
        .idle rfl rfl ⟨rfl, rfl, rfl, rfl, rfl, rfl, rfl⟩
      refine ⟨(hpush.tail hcount).tail (.idle hmemo hagenda hframe), ?_⟩
      exact (congrArg (fun a : Agenda => (⟨id, es⟩ : Match).key ∈ a.seen) hagenda).mpr hseen

theorem enqueueAt_finds (roots : List ExprId) (hs : o.memo.outline.Sound) {id : Nat}
    {rule : Rule Op Q} (known : o.rules[id]? = some rule) (active : o.isActive id = true)
    (live : ∀ root ∈ roots, (o.memo.outline.entry root).isSome)
    (h : enqueueAt id rule roots o = .ok () o') :
    o.Finds o' ∧ ∀ root ∈ roots, ∀ es, o.memo.outline.Binds rule.pattern root es →
      (⟨id, es⟩ : Match).key ∈ o'.agenda.seen := by
  have hroots := finds_forM (K := fun root k => ∃ es, o.memo.outline.Binds rule.pattern root es ∧
    k = (⟨id, es⟩ : Match).key) (fun root hroot o₁ o₂ ho₁ h₁ => ?_) h
  · exact ⟨hroots.1, fun root hroot es hb => hroots.2 root hroot _ ⟨es, hb, rfl⟩⟩
  · obtain ⟨found, hfound, h₁⟩ := Action.read_bind_eq_ok h₁
    obtain ⟨⟨x, g⟩, hx⟩ := Option.isSome_iff_exists.1 (live root hroot)
    obtain ⟨found', hfound', hmem⟩ := Pattern.bindings_spec hs rule.pattern hx
    rw [ho₁.memo_eq, hfound'] at hfound
    cases hfound
    have hes := finds_forM (K := fun es k => k = (⟨id, es⟩ : Match).key)
      (fun es hes o₃ o₄ ho₃ h₃ => ?_) h₁
    · exact ⟨hes.1, fun k ⟨es, hb, hk⟩ => hes.2 es ((hmem es).2 hb) k hk⟩
    · have ho : o.Finds o₃ := ho₁.trans ho₃
      obtain ⟨hfind, hseen⟩ := enqueue_finds (ho.frame.rules ▸ known)
        ((ho.frame.isActive id).trans active) (ho.memo_eq ▸ (hmem es).1 hes) h₃
      exact ⟨hfind, fun k hk => hk ▸ hseen⟩

/-- All bindings that an expression takes part in are found from it. -/
theorem indexExpr_finds (hs : o.memo.outline.Sound) {e : ExprId} (h : indexExpr e o = .ok () o') :
    o.Finds o' ∧ (o.Synced → ∀ id rule root es, o.rules[id]? = some rule → o.isActive id = true →
      rule.pattern.isWildcard = false → o.memo.outline.Binds rule.pattern root es →
      o.memo.reduceExpr e ∈ es → (⟨id, es⟩ : Match).key ∈ o'.agenda.seen) := by
  simp only [indexExpr] at h
  obtain ⟨x, hx, h⟩ := Action.read_bind_eq_ok h
  have h := run_get_bind_eq_ok h
  obtain ⟨entry, hentry, hx⟩ := bind_eq_ok hx
  cases hx
  have he := Memo.outline_entry_of (Memo.getEntry_eq_ok hentry)
  have hc := finds_forM (K := fun (c : Nat × Nat) k => ∃ rule root es, o.rules[c.1]? = some rule ∧
    o.isActive c.1 = true ∧ o.memo.outline.Above c.2 (o.memo.reduceExpr e) root ∧
    o.memo.outline.Binds rule.pattern root es ∧ k = (⟨c.1, es⟩ : Match).key)
    (fun c hc o₁ o₂ ho₁ h₁ => ?_) h
  · refine ⟨hc.1, fun hsync id rule root es known active wild hb hmem => ?_⟩
    obtain ⟨d, test, q, hq, habove, x, g, hx, hpass⟩ := hb.operand wild hmem
    rw [he] at hx
    cases hx
    have hremoved : id ∉ o.removed := fun hr => by
      unfold isActive at active
      rw [Std.TreeSet.contains_iff_mem.2 hr] at active
      simp at active
    refine hc.2 (id, d) ?_ _ ⟨rule, root, es, known, active, habove, hb, rfl⟩
    exact hsync id rule known hremoved d test q hq _ hpass
  · obtain ⟨id, depth⟩ := c
    have h₁ := run_get_bind_eq_ok h₁
    split at h₁
    · next hactive =>
      obtain ⟨rule, hrule, h₁⟩ := Action.read_bind_eq_ok h₁
      obtain ⟨roots, hroots, h₁⟩ := Action.read_bind_eq_ok h₁
      have hmemo := ho₁.memo_eq
      obtain ⟨roots', hroots', hlive, -, hall⟩ := Memo.ancestors_spec (hmemo ▸ hs) (by rw [hmemo, he]; rfl) depth
      cases hroots.symm.trans hroots'
      obtain ⟨hfinds, hseen⟩ := enqueueAt_finds roots (hmemo ▸ hs) (getRule_eq_ok hrule) hactive hlive h₁
      refine ⟨hfinds, ?_⟩
      rintro k ⟨rule', root, es, known, -, habove, hb, rfl⟩
      rw [← ho₁.frame.rules, getRule_eq_ok hrule] at known
      cases known
      refine hseen root ((hall root).2 ?_) es ?_ <;> rwa [hmemo]
    · next hactive =>
      obtain ⟨-, rfl⟩ := run_pure_eq_ok h₁
      refine ⟨.refl, ?_⟩
      rintro k ⟨rule, root, es, -, active, -⟩
      exact absurd ((ho₁.frame.isActive id).trans active) hactive

/-- All bindings of a rule are found, if it is active. -/
theorem matchEverywhere_finds (hs : o.memo.outline.Sound) {id : Nat}
    (h : matchEverywhere id o = .ok () o') :
    o.Finds o' ∧ ∀ rule root es, o.rules[id]? = some rule → o.isActive id = true →
      o.memo.outline.Binds rule.pattern root es → (⟨id, es⟩ : Match).key ∈ o'.agenda.seen := by
  simp only [matchEverywhere] at h
  have h := run_get_bind_eq_ok h
  split at h
  · next hactive =>
    obtain ⟨rule, hrule, h⟩ := Action.read_bind_eq_ok h
    have h := run_get_bind_eq_ok h
    have hg := finds_forM (K := fun g k => ∃ root es, root ∈ o.memo.members g ∧
      o.memo.outline.Binds rule.pattern root es ∧ k = (⟨id, es⟩ : Match).key)
      (fun g _ o₁ o₂ ho₁ h₁ => ?_) h
    · refine ⟨hg.1, fun rule' root es known _ hb => ?_⟩
      rw [getRule_eq_ok hrule] at known
      cases known
      obtain ⟨x, g, hx⟩ := hb.known
      have hlive := hs.places.home root x g hx
      refine hg.2 g ?_ _ ⟨root, es, ?_, hb, rfl⟩
      · rw [Memo.outline_group, Option.isSome_map] at hlive
        exact Std.TreeMap.mem_keys.2 (Std.TreeMap.mem_iff_isSome_getElem?.2 hlive)
      · exact (Memo.mem_members hs).2 ⟨x, by rw [hs.names.reduce_of_live hlive, hx]⟩
    · have hmemo := ho₁.memo_eq
      obtain ⟨hfinds, hseen⟩ := enqueueAt_finds (o.memo.members g) (hmemo ▸ hs)
        (ho₁.frame.rules ▸ getRule_eq_ok hrule) ((ho₁.frame.isActive id).trans hactive)
        (fun root hroot => by
          obtain ⟨x, hx⟩ := (Memo.mem_members hs).1 hroot
          rw [hmemo, hx]; rfl) h₁
      refine ⟨hfinds, ?_⟩
      rintro k ⟨root, es, hroot, hb, rfl⟩
      exact hseen root hroot es (hmemo ▸ hb)
  · next hactive =>
    obtain ⟨-, rfl⟩ := run_pure_eq_ok h
    exact ⟨.refl, fun _ _ _ _ active => absurd active hactive⟩

end Optimizer

end PlanSearch
