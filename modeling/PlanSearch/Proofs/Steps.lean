import PlanSearch.Optimizer.State

/-!
# Steps that succeed

What it takes for a sequence of steps to succeed: every one of them does, each from where the one
before ended. A loop keeps what one round keeps.

    (x >>= f) s = .ok b s' → ∃ a s₁, x s = .ok a s₁ ∧ f a s₁ = .ok b s'        (run_bind_eq_ok)
-/

namespace PlanSearch

universe u

/-! ## Steps without a state -/

section Except

variable {ε σ α β : Type}

/-- An invariant that speaks of the rounds still to come. -/
theorem foldlM_invariant {f : σ → β → Except ε σ} (inv : List β → σ → Prop)
    (hf : ∀ b bs s s', inv (b :: bs) s → f s b = .ok s' → inv bs s') :
    ∀ (bs : List β) (s s' : σ), inv bs s → bs.foldlM f s = .ok s' → inv [] s'
  | [], s, s', hs, h => by cases h; exact hs
  | b :: bs, s, s', hs, h => by
    rw [List.foldlM_cons] at h
    obtain ⟨s₁, h₁, h₂⟩ := bind_eq_ok h
    exact foldlM_invariant inv hf bs s₁ s' (hf b bs s s₁ hs h₁) h₂

/-- Where every round succeeds under an invariant, the whole loop does. -/
theorem foldlM_total {f : σ → β → Except ε σ} (inv : List β → σ → Prop)
    (hf : ∀ b bs s, inv (b :: bs) s → ∃ s', f s b = .ok s' ∧ inv bs s') :
    ∀ (bs : List β) (s : σ), inv bs s → ∃ s', bs.foldlM f s = .ok s' ∧ inv [] s'
  | [], s, hs => ⟨s, rfl, hs⟩
  | b :: bs, s, hs => by
    obtain ⟨s₁, h₁, hs₁⟩ := hf b bs s hs
    obtain ⟨s', h', hs'⟩ := foldlM_total inv hf bs s₁ hs₁
    exact ⟨s', by rw [List.foldlM_cons, h₁]; exact h', hs'⟩

theorem bind_eq_ok_iff {x y : Except ε Unit} :
    (x >>= fun _ => y) = .ok () ↔ x = .ok () ∧ y = .ok () := by
  cases x with
  | error e => exact ⟨fun h => (by cases h), fun h => (by cases h.1)⟩
  | ok u => exact ⟨fun h => ⟨rfl, h⟩, fun h => h.2⟩

theorem forM_eq_ok_iff {f : β → Except ε Unit} {bs : List β} :
    bs.forM f = .ok () ↔ ∀ b ∈ bs, f b = .ok () := by
  induction bs with
  | nil => exact ⟨fun _ _ hb => (by cases hb), fun _ => rfl⟩
  | cons b bs ih =>
    show (f b >>= fun _ => bs.forM f) = .ok () ↔ _
    rw [bind_eq_ok_iff, ih, List.forall_mem_cons]

/-- A sequence fails where its first part does, or where the rest does. -/
theorem bind_eq_error {x : Except ε α} {f : α → Except ε β} {e : ε} (h : (x >>= f) = .error e) :
    x = .error e ∨ ∃ a, x = .ok a ∧ f a = .error e := by
  cases x with
  | error e' => cases h; exact .inl rfl
  | ok a => exact .inr ⟨a, rfl, h⟩

theorem forM_eq_error {f : β → Except ε Unit} {bs : List β} {e : ε} (h : bs.forM f = .error e) :
    ∃ b ∈ bs, f b = .error e := by
  induction bs with
  | nil => cases h
  | cons b bs ih =>
    obtain hb | ⟨_, -, hb⟩ := bind_eq_error (show (f b >>= fun _ => bs.forM f) = .error e from h)
    · exact ⟨b, List.mem_cons_self, hb⟩
    · obtain ⟨b', hm, he⟩ := ih hb
      exact ⟨b', List.mem_cons_of_mem _ hm, he⟩

/-- The answers to the elements of a list, where all of them are answered. -/
theorem mem_of_mapM_eq_ok {f : α → Except ε β} {as : List α} {bs : List β} (h : as.mapM f = .ok bs)
    {b : β} : b ∈ bs ↔ ∃ a ∈ as, f a = .ok b := by
  induction as generalizing bs with
  | nil => cases h; simp
  | cons a as ih =>
    rw [List.mapM_cons] at h
    obtain ⟨b₁, h₁, h⟩ := bind_eq_ok h
    obtain ⟨bs₁, h₂, h⟩ := bind_eq_ok h
    cases h
    simp only [List.mem_cons, exists_eq_or_imp, ih h₂, h₁, Except.ok.injEq]
    exact or_congr_left eq_comm

theorem ok_of_mapM_eq_ok {f : α → Except ε β} {as : List α} {bs : List β} (h : as.mapM f = .ok bs)
    {a : α} (ha : a ∈ as) : ∃ b, f a = .ok b := by
  induction as generalizing bs with
  | nil => cases ha
  | cons a' as ih =>
    rw [List.mapM_cons] at h
    obtain ⟨b₁, h₁, h⟩ := bind_eq_ok h
    obtain ⟨bs₁, h₂, h⟩ := bind_eq_ok h
    rcases List.mem_cons.1 ha with rfl | ha
    · exact ⟨b₁, h₁⟩
    · exact ih h₂ ha

theorem map_of_mapM_eq_ok {γ : Type u} {f : α → Except ε β} {p : β → γ} {q : α → γ} {as : List α}
    {bs : List β} (h : as.mapM f = .ok bs) (hpq : ∀ a ∈ as, ∀ b, f a = .ok b → p b = q a) :
    bs.map p = as.map q := by
  induction as generalizing bs with
  | nil => cases h; rfl
  | cons a as ih =>
    rw [List.mapM_cons] at h
    obtain ⟨b₁, h₁, h⟩ := bind_eq_ok h
    obtain ⟨bs₁, h₂, h⟩ := bind_eq_ok h
    cases h
    rw [List.map_cons, List.map_cons, hpq a List.mem_cons_self b₁ h₁,
      ih h₂ fun a' ha' => hpq a' (List.mem_cons_of_mem _ ha')]

/-- Lists of answers to the elements of a list, all together. -/
theorem mapM_flatten {f : α → Except ε (List β)} {R : α → β → Prop} (as : List α)
    (h : ∀ a ∈ as, ∃ bs, f a = .ok bs ∧ ∀ b, b ∈ bs ↔ R a b) :
    ∃ bss, as.mapM f = .ok bss ∧ ∀ b, b ∈ bss.flatten ↔ ∃ a ∈ as, R a b := by
  induction as with
  | nil => exact ⟨[], rfl, by simp⟩
  | cons a as ih =>
    obtain ⟨bs, hbs, hb⟩ := h a List.mem_cons_self
    obtain ⟨bss, hbss, hall⟩ := ih fun a' ha' => h a' (List.mem_cons_of_mem _ ha')
    refine ⟨bs :: bss, by rw [List.mapM_cons, hbs, hbss]; rfl, fun b => ?_⟩
    simp only [List.flatten_cons, List.mem_append, hb, hall, List.mem_cons, exists_eq_or_imp]

end Except

/-! ## Steps with a state -/

section State

variable {ε σ α β : Type}

theorem run_bind_eq_ok {x : EStateM ε σ α} {f : α → EStateM ε σ β} {s s' : σ} {b : β}
    (h : (x >>= f) s = .ok b s') : ∃ a s₁, x s = .ok a s₁ ∧ f a s₁ = .ok b s' := by
  change EStateM.bind x f s = .ok b s' at h
  unfold EStateM.bind at h
  cases hx : x s with
  | error e s₁ => rw [hx] at h; cases h
  | ok a s₁ => rw [hx] at h; exact ⟨a, s₁, rfl, h⟩

/-- What is done for a list is done for its first element, and from there for the others. -/
theorem run_mapM_cons_eq_ok {f : α → EStateM ε σ β} {a : α} {as : List α} {s s' : σ} {bs : List β}
    (h : (a :: as).mapM f s = .ok bs s') :
    ∃ b s₁ bs', f a s = .ok b s₁ ∧ as.mapM f s₁ = .ok bs' s' ∧ bs = b :: bs' := by
  rw [List.mapM_cons] at h
  obtain ⟨b, s₁, h₁, h⟩ := run_bind_eq_ok h
  obtain ⟨bs', s₂, h₂, h⟩ := run_bind_eq_ok h
  cases h
  exact ⟨b, s₁, bs', h₁, h₂, rfl⟩

/-- A sequence goes on from where its first part ends. -/
theorem run_bind_of_ok {x : EStateM ε σ α} {f : α → EStateM ε σ β} {s s₁ : σ} {a : α} (h : x s = .ok a s₁) :
    (x >>= f) s = f a s₁ := by
  show EStateM.bind x f s = _
  unfold EStateM.bind
  rw [h]

/-- Sequences do the same where what follows their first part does. -/
theorem bind_congr_run {x : EStateM ε σ α} {f f' : α → EStateM ε σ β} (h : ∀ a, f a = f' a) : x >>= f = x >>= f' :=
  congrArg (EStateM.bind x) (funext h)

/-- Sequences end alike where their first parts do. -/
theorem run_bind_congr {x x' : EStateM ε σ α} {s : σ} (h : x s = x' s) (f : α → EStateM ε σ β) :
    (x >>= f) s = (x' >>= f) s := by
  show EStateM.bind _ _ _ = EStateM.bind _ _ _
  rw [EStateM.bind, EStateM.bind, h]

/-- A sequence ends where its first part fails. -/
theorem run_bind_of_error {x : EStateM ε σ α} {f : α → EStateM ε σ β} {s s₁ : σ} {e : ε}
    (h : x s = .error e s₁) : (x >>= f) s = .error e s₁ := by
  show EStateM.bind x f s = _
  unfold EStateM.bind
  rw [h]

theorem run_pure_eq_ok {a b : α} {s s' : σ}
    (h : (pure a : EStateM ε σ α) s = .ok b s') : a = b ∧ s = s' := by
  cases h; exact ⟨rfl, rfl⟩

theorem run_get_bind (f : σ → EStateM ε σ β) (s : σ) : ((get : EStateM ε σ σ) >>= f) s = f s s := rfl

theorem run_get_bind_eq_ok {f : σ → EStateM ε σ β} {s s' : σ} {b : β}
    (h : ((get : EStateM ε σ σ) >>= f) s = .ok b s') : f s s = .ok b s' := by
  obtain ⟨a, s₁, h₁, h₂⟩ := run_bind_eq_ok h
  cases h₁
  exact h₂

theorem run_modify_bind_eq_ok {g : σ → σ} {f : PUnit → EStateM ε σ β} {s s' : σ} {b : β}
    (h : ((modify g : EStateM ε σ PUnit) >>= f) s = .ok b s') : f ⟨⟩ (g s) = .ok b s' := by
  obtain ⟨a, s₁, h₁, h₂⟩ := run_bind_eq_ok h
  cases h₁
  exact h₂

/-- A sequence fails where its first part does, or where the rest does from there. -/
theorem run_bind_eq_error {x : EStateM ε σ α} {f : α → EStateM ε σ β} {s s' : σ} {e : ε}
    (h : (x >>= f) s = .error e s') : x s = .error e s' ∨ ∃ a s₁, x s = .ok a s₁ ∧ f a s₁ = .error e s' := by
  change EStateM.bind x f s = .error e s' at h
  unfold EStateM.bind at h
  cases hx : x s with
  | error e s₁ => rw [hx] at h; cases h; exact .inl rfl
  | ok a s₁ => rw [hx] at h; exact .inr ⟨a, s₁, rfl, h⟩

theorem run_get_bind_eq_error {f : σ → EStateM ε σ β} {s s' : σ} {e : ε}
    (h : ((get : EStateM ε σ σ) >>= f) s = .error e s') : f s s = .error e s' := by
  rcases run_bind_eq_error h with h₁ | ⟨a, s₁, h₁, h₂⟩ <;> cases h₁
  exact h₂

theorem run_modify_bind_eq_error {g : σ → σ} {f : PUnit → EStateM ε σ β} {s s' : σ} {e : ε}
    (h : ((modify g : EStateM ε σ PUnit) >>= f) s = .error e s') : f ⟨⟩ (g s) = .error e s' := by
  rcases run_bind_eq_error h with h₁ | ⟨a, s₁, h₁, h₂⟩ <;> cases h₁
  exact h₂

/-- A loop keeps an invariant that speaks of the rounds still to come. -/
theorem run_forM_invariant {f : β → EStateM ε σ PUnit} (inv : List β → σ → Prop)
    (hf : ∀ b bs s s', inv (b :: bs) s → f b s = .ok ⟨⟩ s' → inv bs s') :
    ∀ {bs : List β} {s s' : σ}, bs.forM f s = .ok ⟨⟩ s' → inv bs s → inv [] s'
  | [], s, s', h, hs => by
    obtain ⟨-, rfl⟩ := run_pure_eq_ok h
    exact hs
  | b :: bs, s, s', h, hs => by
    obtain ⟨_, s₁, h₁, h₂⟩ := run_bind_eq_ok h
    exact run_forM_invariant inv hf h₂ (hf b bs s s₁ hs h₁)

/-- Loops whose rounds do the same under an invariant that the rounds keep do the same. -/
theorem run_forM_congr {f f' : β → EStateM ε σ PUnit} (inv : σ → Prop) {bs : List β}
    (same : ∀ b ∈ bs, ∀ s, inv s → f' b s = f b s) (keeps : ∀ b ∈ bs, ∀ s s', inv s → f b s = .ok ⟨⟩ s' → inv s')
    {s : σ} (hs : inv s) : bs.forM f' s = bs.forM f s := by
  induction bs generalizing s with
  | nil => rfl
  | cons b bs ih =>
    show (f' b >>= fun _ => bs.forM f') s = (f b >>= fun _ => bs.forM f) s
    have hsame := same b List.mem_cons_self s hs
    cases hb : f b s with
    | error e s' => rw [run_bind_of_error hb, run_bind_of_error (hsame.trans hb)]
    | ok u s' =>
      rw [run_bind_of_ok hb, run_bind_of_ok (hsame.trans hb)]
      exact ih (fun b' hb' => same b' (List.mem_cons_of_mem _ hb')) (fun b' hb' => keeps b' (List.mem_cons_of_mem _ hb'))
        (keeps b List.mem_cons_self s s' hs hb)

end State

namespace Update

variable {Op Q α : Type}

theorem read_bind_eq_ok {β : Type} {f : Memo Op Q → Except Failure α} {k : α → Update Op Q β}
    {m m' : Memo Op Q} {b : β} (h : (Update.read f >>= k) m = .ok b m') :
    ∃ a, f m = .ok a ∧ k a m = .ok b m' := by
  obtain ⟨a, m₁, h₁, h₂⟩ := run_bind_eq_ok h
  unfold Update.read at h₁
  split at h₁
  · next hf => cases h₁; exact ⟨a, hf, h₂⟩
  · cases h₁

theorem step_bind_eq_ok {β : Type} {f : Memo Op Q → Except Failure (Memo Op Q)}
    {k : Unit → Update Op Q β} {m m' : Memo Op Q} {b : β}
    (h : (Update.step f >>= k) m = .ok b m') : ∃ m₁, f m = .ok m₁ ∧ k () m₁ = .ok b m' := by
  obtain ⟨a, m₁, h₁, h₂⟩ := run_bind_eq_ok h
  unfold Update.step at h₁
  split at h₁
  · next hf => cases h₁; exact ⟨m₁, hf, h₂⟩
  · cases h₁

theorem read_of_ok {f : Memo Op Q → Except Failure α} {m : Memo Op Q} {a : α} (h : f m = .ok a) :
    Update.read f m = .ok a m := by
  unfold Update.read
  rw [h]

theorem step_of_ok {f : Memo Op Q → Except Failure (Memo Op Q)} {m m' : Memo Op Q} (h : f m = .ok m') :
    Update.step f m = .ok () m' := by
  unfold Update.step
  rw [h]

theorem read_of_error {f : Memo Op Q → Except Failure α} {m : Memo Op Q} {e : Failure} (h : f m = .error e) :
    Update.read f m = .error e m := by
  unfold Update.read
  rw [h]

theorem read_bind_eq_error {β : Type} {f : Memo Op Q → Except Failure α} {k : α → Update Op Q β}
    {m m' : Memo Op Q} {e : Failure} (h : (Update.read f >>= k) m = .error e m') :
    m' = m ∧ f m = .error e ∨ ∃ a, f m = .ok a ∧ k a m = .error e m' := by
  cases hf : f m with
  | error e' =>
    rw [run_bind_of_error (read_of_error hf)] at h
    cases h
    exact .inl ⟨rfl, rfl⟩
  | ok a =>
    rw [run_bind_of_ok (read_of_ok hf)] at h
    exact .inr ⟨a, rfl, h⟩

end Update

end PlanSearch
