import PlanSearch.Partition

/-!
# Classes of a partition

What each operation does to the representatives. A new node represents itself and changes no other
answer, shortening a path changes none at all, and joining moves exactly the class of the absorbed
representative to the representative that is kept.

    (p.add x).find? y = if y = x ∧ x ∉ p.parent then some x else p.find? y       (find?_add)
    (p.compress x).1.find? y = p.find? y                                         (find?_compress)
    p.find? keep = some k → p.find? absorb = some a →
      (p.unite keep absorb).1.find? y = if p.find? y = some a then some k else p.find? y
                                                                                 (find?_unite)
-/

namespace PlanSearch

namespace Partition

variable {α : Type} [Ord α] [DecidableEq α] [Std.TransOrd α]

/-- What holds of the representatives, and of a node whenever it holds of the node that it points
to, holds of every node. -/
theorem forall_of_step (p : Partition α) {motive : α → Prop}
    (root : ∀ x, p.parent[x]? = some x → motive x)
    (step : ∀ x y, p.parent[x]? = some y → y ≠ x → motive y → motive x) :
    ∀ x, x ∈ p.parent → motive x := by
  obtain ⟨rank, hr⟩ := p.ranked
  have key : ∀ (n : Nat) (x : α), x ∈ p.parent → rank x ≤ n → motive x := by
    intro n
    induction n with
    | zero =>
      intro x hx hn
      obtain ⟨y, hy⟩ := Option.isSome_iff_exists.1 (Std.TreeMap.mem_iff_isSome_getElem?.1 hx)
      by_cases h : y = x
      · exact root x (h ▸ hy)
      · have := (hr x y hy).2.2.2 h; omega
    | succ n ih =>
      intro x hx hn
      obtain ⟨y, hy⟩ := Option.isSome_iff_exists.1 (Std.TreeMap.mem_iff_isSome_getElem?.1 hx)
      by_cases h : y = x
      · exact root x (h ▸ hy)
      · have := (hr x y hy).2.2.2 h
        exact step x y hy h (ih y (hr x y hy).2.1 (by omega))
  exact fun x hx => key (rank x) x hx (Nat.le_refl _)

/-- A node that points to itself represents itself. -/
theorem find?_of_root {p : Partition α} {x : α} (h : p.parent[x]? = some x) :
    p.find? x = some x := by
  unfold find?
  rw [if_pos (mem_of_getElem?_eq h), climb_of_root h]

omit [Std.TransOrd α] in
theorem mem_of_find? {p : Partition α} {x r : α} (h : p.find? x = some r) : x ∈ p.parent := by
  unfold find? at h
  split at h
  · assumption
  · cases h

variable [Std.LawfulEqOrd α]

omit [DecidableEq α] in
theorem getElem?_insert_of_ne {t : Std.TreeMap α α} {x y v : α} (h : y ≠ x) :
    (t.insert x v)[y]? = t[y]? := by
  rw [Std.TreeMap.getElem?_insert,
    if_neg fun hc => h (Std.LawfulEqOrd.eq_of_compare hc).symm]

/-! ## New nodes -/

theorem find?_add (p : Partition α) (x y : α) :
    (p.add x).find? y = if y = x ∧ x ∉ p.parent then some x else p.find? y := by
  by_cases hx : x ∈ p.parent
  · simp [add, hx]
  · have hp : (p.add x).parent = p.parent.insert x x := by simp [add, hx]
    have hself : (p.add x).parent[x]? = some x := by rw [hp]; simp
    by_cases hyx : y = x
    · subst hyx
      rw [find?_of_root hself, if_pos ⟨rfl, hx⟩]
    · rw [if_neg fun h => hyx h.1]
      by_cases hy : y ∈ p.parent
      · refine p.forall_of_step (motive := fun y => (p.add x).find? y = p.find? y)
          (fun z hz => ?_) (fun z w hz hw ih => ?_) y hy
        · have hzx : z ≠ x := fun e => hx (e ▸ mem_of_getElem?_eq hz)
          rw [find?_of_root hz]
          exact find?_of_root (by rw [hp, getElem?_insert_of_ne hzx, hz])
        · have hzx : z ≠ x := fun e => hx (e ▸ mem_of_getElem?_eq hz)
          rw [find?_of_parent hz, ← ih]
          exact find?_of_parent (by rw [hp, getElem?_insert_of_ne hzx, hz])
      · rw [(find?_eq_none_iff p y).2 hy, find?_eq_none_iff, hp, Std.TreeMap.mem_insert]
        rintro (h | h)
        · exact hyx (Std.LawfulEqOrd.eq_of_compare h).symm
        · exact hy h

theorem parts_add (p : Partition α) (x : α) :
    (p.add x).parts = if x ∈ p.parent then p.parts else p.parts + 1 := by
  unfold add
  split <;> rfl

/-! ## Shortened paths -/

/-- Pointing one node straight at its representative changes no answer. -/
theorem find?_of_shortened {p q : Partition α} {x r : α} (hr : p.find? x = some r) (hne : r ≠ x)
    (hq : q.parent = p.parent.insert x r) (y : α) : q.find? y = p.find? y := by
  have hx := mem_of_find? hr
  have hself : q.parent[x]? = some r := by rw [hq]; simp
  by_cases hy : y ∈ q.parent
  · refine q.forall_of_step (motive := fun y => q.find? y = p.find? y)
      (fun z hz => ?_) (fun z w hz hw ih => ?_) y hy
    · have hzx : z ≠ x := by
        rintro rfl
        rw [hself] at hz
        exact hne (Option.some.inj hz)
      rw [find?_of_root hz]
      rw [hq, getElem?_insert_of_ne hzx] at hz
      exact (find?_of_root hz).symm
    · rw [find?_of_parent hz, ih]
      by_cases hzx : z = x
      · subst hzx
        rw [hself] at hz
        cases hz
        rw [hr]
        exact find?_of_root (parent_of_find? hr)
      · rw [hq, getElem?_insert_of_ne hzx] at hz
        exact (find?_of_parent hz).symm
  · have hy' : y ∉ p.parent := fun h => hy (by rw [hq, Std.TreeMap.mem_insert]; exact Or.inr h)
    rw [(find?_eq_none_iff q y).2 hy, (find?_eq_none_iff p y).2 hy']

theorem find?_shortenPath (r : α) : ∀ (n : Nat) (x : α) (p : Partition α), p.find? x = some r →
    ∀ y, (shortenPath r n x p).find? y = p.find? y
  | 0, _, _, _, _ => rfl
  | n + 1, x, p, hr, y => by
    rw [shortenPath]
    split
    · next h =>
      obtain ⟨z, hz⟩ := Option.isSome_iff_exists.1
        (Std.TreeMap.mem_iff_isSome_getElem?.1 h.2.2.1)
      have hstep := fun w => find?_of_shortened
        (q := ⟨p.parent.insert x r, p.parts, p.joins, p.ranked.shorten h.2.1 h.2.2.1 h.1 h.2.2.2⟩)
        hr h.1 rfl w
      rw [find?_shortenPath r n _ _ _ y, hstep]
      rw [hstep, hz, Option.getD_some, ← find?_of_parent hz, hr]
    · rfl

theorem find?_compress (p : Partition α) (x y : α) : (p.compress x).1.find? y = p.find? y := by
  unfold compress
  split
  · rfl
  · next r hr => exact find?_shortenPath r _ _ _ hr y

theorem compress_snd (p : Partition α) (x : α) : (p.compress x).2 = p.find? x := by
  unfold compress
  split
  · next h => rw [h]
  · next r hr => rw [hr]

/-- Shortening a path leaves the number of parts as it is. -/
theorem parts_shortenPath (r : α) (n : Nat) (x : α) (p : Partition α) :
    (shortenPath r n x p).parts = p.parts := by
  induction n generalizing x p with
  | zero => rfl
  | succ n ih =>
    rw [shortenPath]
    split
    · exact ih _ _
    · rfl

theorem parts_compress (p : Partition α) (x : α) : (p.compress x).1.parts = p.parts := by
  unfold compress
  split
  · rfl
  · exact parts_shortenPath _ _ _ _

/-! ## Joins -/

/-- Hanging the representative `a` below the representative `k` moves the class of `a`. -/
theorem find?_of_joined {p q : Partition α} {k a : α} (hk : p.parent[k]? = some k)
    (ha : p.parent[a]? = some a) (hne : k ≠ a) (hq : q.parent = p.parent.insert a k) (y : α) :
    q.find? y = if p.find? y = some a then some k else p.find? y := by
  have hself : q.parent[a]? = some k := by rw [hq]; simp
  have hkq : q.parent[k]? = some k := by rw [hq, getElem?_insert_of_ne hne, hk]
  by_cases hy : y ∈ q.parent
  · refine q.forall_of_step
      (motive := fun y => q.find? y = if p.find? y = some a then some k else p.find? y)
      (fun z hz => ?_) (fun z w hz hw ih => ?_) y hy
    · have hza : z ≠ a := by
        rintro rfl
        rw [hself] at hz
        exact hne (Option.some.inj hz)
      rw [find?_of_root hz]
      rw [hq, getElem?_insert_of_ne hza] at hz
      rw [find?_of_root hz, if_neg fun e => hza (Option.some.inj e)]
    · by_cases hza : z = a
      · subst hza
        rw [find?_of_parent hself, find?_of_root hkq, find?_of_root ha, if_pos rfl]
      · rw [find?_of_parent hz, ih]
        rw [hq, getElem?_insert_of_ne hza] at hz
        rw [find?_of_parent hz]
  · have hy' : y ∉ p.parent := fun h => hy (by rw [hq, Std.TreeMap.mem_insert]; exact Or.inr h)
    rw [(find?_eq_none_iff q y).2 hy, (find?_eq_none_iff p y).2 hy']
    rfl

/-- A join of known nodes shortens the paths, and if their representatives differ, hangs the one of `absorb` below the
one of `keep`, which leaves one part less. -/
theorem unite_of_known {p : Partition α} {keep absorb k a : α} (hk : p.find? keep = some k)
    (ha : p.find? absorb = some a) : (p.unite keep absorb).2 = some (k, a) ∧ ∃ q : Partition α,
      (∀ y, q.find? y = p.find? y) ∧ q.parts = p.parts ∧
      (k = a → (p.unite keep absorb).1 = q) ∧
      (k ≠ a → (p.unite keep absorb).1.parent = q.parent.insert a k ∧
        (p.unite keep absorb).1.parts = q.parts - 1) := by
  rcases h₁ : p.compress keep with ⟨p₁, o₁⟩
  have f₁ : ∀ z, p₁.find? z = p.find? z := fun z => by
    have := find?_compress p keep z; rwa [h₁] at this
  have s₁ : p₁.parts = p.parts := by
    have := parts_compress p keep; rwa [h₁] at this
  have e₁ : o₁ = some k := by
    have := compress_snd p keep; rw [h₁] at this; exact this.trans hk
  rcases h₂ : p₁.compress absorb with ⟨p₂, o₂⟩
  have f₂ : ∀ z, p₂.find? z = p.find? z := fun z => by
    have := find?_compress p₁ absorb z; rw [h₂] at this; exact this.trans (f₁ z)
  have s₂ : p₂.parts = p.parts := by
    have := parts_compress p₁ absorb; rw [h₂] at this; exact this.trans s₁
  have e₂ : o₂ = some a := by
    have := compress_snd p₁ absorb; rw [h₂, f₁] at this; exact this.trans ha
  have rk : p₂.parent[k]? = some k := parent_of_find? ((f₂ keep).trans hk)
  have ra : p₂.parent[a]? = some a := parent_of_find? ((f₂ absorb).trans ha)
  subst e₁ e₂
  simp only [unite, h₁, h₂]
  by_cases hne : k = a
  · rw [dif_neg fun h => h.1 hne]
    exact ⟨rfl, p₂, f₂, s₂, fun _ => rfl, fun h => absurd hne h⟩
  · rw [dif_pos ⟨hne, rk, ra⟩]
    exact ⟨rfl, p₂, f₂, s₂, fun h => absurd h hne, fun _ => ⟨rfl, rfl⟩⟩

theorem find?_unite {p : Partition α} {keep absorb k a : α} (hk : p.find? keep = some k)
    (ha : p.find? absorb = some a) (y : α) :
    (p.unite keep absorb).1.find? y = if p.find? y = some a then some k else p.find? y := by
  obtain ⟨-, q, hq, -, hsame, hjoined⟩ := unite_of_known hk ha
  by_cases hne : k = a
  · rw [hsame hne, hq]
    split
    · next h => rw [h, hne]
    · rfl
  · have rk : q.parent[k]? = some k := parent_of_find? ((hq keep).trans hk)
    have ra : q.parent[a]? = some a := parent_of_find? ((hq absorb).trans ha)
    rw [find?_of_joined rk ra hne (hjoined hne).1 y, hq]

theorem parts_unite {p : Partition α} {keep absorb k a : α} (hk : p.find? keep = some k)
    (ha : p.find? absorb = some a) :
    (p.unite keep absorb).1.parts = if k = a then p.parts else p.parts - 1 := by
  obtain ⟨-, q, -, hparts, hsame, hjoined⟩ := unite_of_known hk ha
  split
  · next h => rw [hsame h, hparts]
  · next h => rw [(hjoined h).2, hparts]

/-- A join with an unknown node changes no answer and no number. -/
theorem unite_of_unknown {p : Partition α} {keep absorb : α}
    (h : p.find? keep = none ∨ p.find? absorb = none) : (p.unite keep absorb).2 = none ∧
      (∀ y, (p.unite keep absorb).1.find? y = p.find? y) ∧ (p.unite keep absorb).1.parts = p.parts := by
  rcases h₁ : p.compress keep with ⟨p₁, o₁⟩
  have f₁ : ∀ z, p₁.find? z = p.find? z := fun z => by
    have := find?_compress p keep z; rwa [h₁] at this
  have s₁ : p₁.parts = p.parts := by
    have := parts_compress p keep; rwa [h₁] at this
  have e₁ : o₁ = p.find? keep := by
    have := compress_snd p keep; rwa [h₁] at this
  rcases h₂ : p₁.compress absorb with ⟨p₂, o₂⟩
  have f₂ : ∀ z, p₂.find? z = p.find? z := fun z => by
    have := find?_compress p₁ absorb z; rw [h₂] at this; exact this.trans (f₁ z)
  have s₂ : p₂.parts = p.parts := by
    have := parts_compress p₁ absorb; rw [h₂] at this; exact this.trans s₁
  have e₂ : o₂ = p.find? absorb := by
    have := compress_snd p₁ absorb; rw [h₂, f₁] at this; exact this
  cases o₁ with
  | none => simp only [unite, h₁]; exact ⟨trivial, f₁, s₁⟩
  | some k =>
    cases o₂ with
    | none => simp only [unite, h₁, h₂]; exact ⟨trivial, f₂, s₂⟩
    | some a => rcases h with h | h <;> simp_all

end Partition

end PlanSearch
