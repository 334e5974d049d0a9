import PlanSearch.Proofs.Optimizer.Advance

/-!
# The ledger of matches

Every match that was ever accepted is pending or has fired, once, unless its rule was removed, it was
forgotten, or a budget ran out. So no match fires twice, and once nothing is pending, all that was seen
has fired.

    o.Ledger log → o.agenda.pop? = some (x, a) → Dispatched fuel x … fires o' → o'.Ledger …
                                                                                (Ledger.turn)
-/

namespace PlanSearch

/-- The matches that are still to fire. -/
def Agenda.waiting (a : Agenda) : List Match := a.pending.map Prod.snd

namespace Optimizer

variable {Op Q : Type} {o o' : Optimizer Op Q} {xs ys log : List Match}

/-! ## Booked matches -/

/-- Each of the matches is there once and has been seen, and what was seen is among them, unless its
rule was removed or a budget ran out. -/
structure Booked (o : Optimizer Op Q) (xs : List Match) : Prop where
  nodup : xs.Nodup
  seen : ∀ x ∈ xs, x.key ∈ o.agenda.seen
  known : ∀ k ∈ o.agenda.seen, (∃ x ∈ xs, x.key = k) ∨
    (∃ x : Match, x.key = k ∧ o.removed.contains x.rule = true) ∨ o.budgetExhausted = true

theorem Booked.perm (h : o.Booked xs) (hp : xs.Perm ys) : o.Booked ys where
  nodup := hp.nodup h.nodup
  seen x hx := h.seen x (hp.mem_iff.2 hx)
  known k hk := (h.known k hk).imp (fun ⟨x, hx, hxk⟩ => ⟨x, hp.mem_iff.1 hx, hxk⟩) id

theorem Booked.of_same (h : o.Booked xs) (hs : o'.agenda.seen = o.agenda.seen)
    (hr : ∀ id, o.removed.contains id = true → o'.removed.contains id = true)
    (hb : o.budgetExhausted = true → o'.budgetExhausted = true) : o'.Booked xs where
  nodup := h.nodup
  seen x hx := hs ▸ h.seen x hx
  known k hk := (h.known k (hs ▸ hk)).imp id (Or.imp (fun ⟨x, hx, hr'⟩ => ⟨x, hx, hr x.rule hr'⟩) hb)

/-- A match that was not seen is booked as it is accepted. -/
theorem Booked.push (h : o.Booked xs) {x : Match} {priority : Int} {agenda : Agenda}
    (hp : o.agenda.push x priority = (agenda, true)) :
    ({ o with agenda := agenda } : Optimizer Op Q).Booked (xs ++ [x]) := by
  have hnew := (Agenda.push_accepted hp).2
  have hseen := Agenda.push_seen hp
  refine ⟨?_, fun y hy => (hseen y.key).2 ?_, fun k hk => ?_⟩
  · refine List.nodup_append.2 ⟨h.nodup, List.pairwise_singleton _ x, fun y hy z hz hyz => hnew ?_⟩
    rw [List.mem_singleton.1 hz] at hyz
    exact hyz ▸ h.seen y hy
  · rcases List.mem_append.1 hy with hy | hy
    · exact .inl (h.seen y hy)
    · exact .inr (congrArg Match.key (List.mem_singleton.1 hy))
  · rcases (hseen k).1 hk with hk | rfl
    · exact (h.known k hk).imp (fun ⟨y, hy, hyk⟩ => ⟨y, List.mem_append_left _ hy, hyk⟩) id
    · exact .inl ⟨x, List.mem_append_right _ (List.mem_singleton_self x), rfl⟩

/-- A match of a removed rule need not be booked. -/
theorem Booked.drop {x : Match} (h : o.Booked (x :: xs)) (hr : o.removed.contains x.rule = true) :
    o.Booked xs where
  nodup := (List.nodup_cons.1 h.nodup).2
  seen y hy := h.seen y (List.mem_cons_of_mem _ hy)
  known k hk := by
    rcases h.known k hk with ⟨y, hy, hyk⟩ | hother
    · rcases List.mem_cons.1 hy with rfl | hy
      · exact .inr (.inl ⟨y, hyk, hr⟩)
      · exact .inl ⟨y, hy, hyk⟩
    · exact .inr hother

/-- A match that is forgotten is not seen any more, and it alone. -/
theorem Booked.forget {x : Match} (h : o.Booked (x :: xs)) :
    ({ o with agenda := o.agenda.forget x } : Optimizer Op Q).Booked xs := by
  obtain ⟨hx, hnodup⟩ := List.nodup_cons.1 h.nodup
  have hmem : ∀ k, k ∈ o.agenda.seen.erase x.key ↔ k ≠ x.key ∧ k ∈ o.agenda.seen := fun k => by
    rw [Std.TreeSet.mem_erase, Ne, Std.LawfulEqOrd.compare_eq_iff_eq, eq_comm]
  refine ⟨hnodup, fun y hy => (hmem _).2 ⟨fun hk => hx ?_, h.seen y (List.mem_cons_of_mem _ hy)⟩,
    fun k hk => ?_⟩
  · exact Agenda.key_injective hk ▸ hy
  · obtain ⟨hne, hk⟩ := (hmem k).1 hk
    refine (h.known k hk).imp (fun ⟨y, hy, hyk⟩ => ⟨y, ?_, hyk⟩) id
    rcases List.mem_cons.1 hy with rfl | hy
    · exact absurd hyk.symm hne
    · exact hy

/-- Once a budget has run out, matches may be let go. -/
theorem Booked.spend {x : Match} (h : o.Booked (x :: xs)) (hs : o'.agenda.seen = o.agenda.seen)
    (hb : o'.budgetExhausted = true) : o'.Booked xs where
  nodup := (List.nodup_cons.1 h.nodup).2
  seen y hy := hs ▸ h.seen y (List.mem_cons_of_mem _ hy)
  known _ _ := .inr (.inr hb)

/-! ## The ledger -/

/-- The matches of the log and those waiting are booked. -/
def Ledger (o : Optimizer Op Q) (log : List Match) : Prop := o.Booked (log ++ o.agenda.waiting)

/-- Beside the agenda, what was removed and the budget, nothing matters. -/
theorem Ledger.of_same (h : o.Ledger log) (ha : o'.agenda = o.agenda)
    (hr : ∀ id, o.removed.contains id = true → o'.removed.contains id = true)
    (hb : o.budgetExhausted = true → o'.budgetExhausted = true) : o'.Ledger log := by
  unfold Ledger
  rw [ha]
  exact Booked.of_same h (by rw [ha]) hr hb

theorem Ledger.memo (h : o.Ledger log) (m : Memo Op Q) :
    ({ o with memo := m } : Optimizer Op Q).Ledger log := h.of_same rfl (fun _ => id) id

/-- Where nothing is waiting, all that was seen has fired. -/
theorem Ledger.fired (h : o.Ledger log) (hw : o.agenda.pending = []) (hb : o.budgetExhausted = false)
    {x : Match} (hx : x.key ∈ o.agenda.seen) (hr : o.removed.contains x.rule = false) : x ∈ log := by
  rcases h.known x.key hx with ⟨y, hy, hyx⟩ | ⟨y, hyx, hyr⟩ | hspent
  · rw [Agenda.key_injective hyx] at hy
    simpa [Agenda.waiting, hw] using hy
  · rw [Agenda.key_injective hyx, hr] at hyr
    cases hyr
  · rw [hb] at hspent
    cases hspent

variable [Operator Op]

theorem Ledger.find (h : o.Ledger log) (hf : o.Find o') : o'.Ledger log := by
  cases hf with
  | idle memo agenda frame =>
    exact h.of_same agenda (fun _ => frame.removed ▸ id) fun hb => frame.budgetExhausted.trans hb
  | @push id rule e es agenda known active binds pushed =>
    have hbooked := Booked.push h pushed
    have hpending := (Agenda.push_accepted pushed).1
    have hw : agenda.waiting = o.agenda.waiting ++ [⟨id, es⟩] := by
      rw [Agenda.waiting, hpending, List.map_append]
      rfl
    rw [List.append_assoc, ← hw] at hbooked
    exact hbooked

variable [Quantity Q]

theorem Ledger.acts {just : Just Op Q} (h : o.Ledger log) (ha : o.Acts just o') : o'.Ledger log := by
  induction ha with
  | refl => exact h
  | tail _ hact ih =>
    cases hact with
    | find find => exact ih.find find
    | change change => exact ih.memo _

theorem Ledger.settle (h : o.Ledger log) (ho : o.memo.Orderly) {fuel : Nat}
    (ok : Optimizer.settle fuel o = .ok () o') : o'.Ledger log := by
  have hall := settle_keeps (P := fun o₁ => o₁.memo.Orderly ∧ o₁.Ledger log) enforcing_freely
    (fun _ h₁ => h₁.1) (fun _ h₁ => ⟨Memo.Call.orderly .forgetChanges h₁.1, h₁.2.memo _⟩)
    (fun _ _ h₁ ha => ⟨ha.orderly h₁.1, h₁.2.acts ha⟩) ⟨ho, h⟩ ok
  exact hall.2

/-- A match that has its turn goes from those waiting to the log, if it fires. -/
theorem Ledger.turn (h : o.Ledger log) (ho : o.memo.Orderly) {fuel : Nat} {x : Match}
    {agenda : Agenda} {fires : Bool} (next : o.agenda.pop? = some (x, agenda))
    (hd : Dispatched fuel x { o with agenda := agenda } fires o') :
    o'.Ledger (if fires then log ++ [x] else log) := by
  obtain ⟨priority, hperm, hseen⟩ := Agenda.pop?_eq_some next
  have hhand : ({ o with agenda := agenda } : Optimizer Op Q).Booked
      (x :: (log ++ agenda.waiting)) := by
    have hbooked : ({ o with agenda := agenda } : Optimizer Op Q).Booked (log ++ o.agenda.waiting) :=
      Booked.of_same h hseen (fun _ => id) id
    refine hbooked.perm ?_
    have hwaiting : o.agenda.waiting.Perm (x :: agenda.waiting) := hperm.map Prod.snd
    exact (hwaiting.append_left log).trans List.perm_middle
  cases hd with
  | dropped removed => exact hhand.drop removed
  | forgotten _ _ => exact hhand.forget
  | full memo same frame =>
    show Booked o' (log ++ o'.agenda.waiting)
    rw [same]
    exact hhand.spend (by rw [same]) frame.budgetExhausted
  | fired _ ok =>
    have hlogged : ({ o with agenda := agenda } : Optimizer Op Q).Ledger (log ++ [x]) := by
      refine hhand.perm ?_
      rw [List.append_assoc]
      exact List.perm_middle.symm
    have horder : ({ o with agenda := agenda } : Optimizer Op Q).memo.Orderly := ho
    obtain ⟨o₁, hacts, hsettle⟩ := fire_freely horder ok
    exact (hlogged.acts hacts).settle (hacts.orderly ho) hsettle

end Optimizer

end PlanSearch
