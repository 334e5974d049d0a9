import Std.Data.TreeMap

/-!
# Partitions

A partition of a growing set of nodes, kept as a forest: every node points to a node of its own
part, and the representative of a part points to itself. Joining two parts hangs one representative
below the other, so the representative of the kept part never changes. No path is longer than the
number of joins made so far, which bounds the walk to a representative.

    p.find? x = some r → p.parent[r]? = some r       (parent_of_find?)
    p.find? x = none ↔ x ∉ p.parent                  (find?_eq_none_iff)
-/

namespace PlanSearch

namespace Partition

variable {α : Type} [Ord α]

/-- The node reached from `x` in at most `n` steps, stopping at a node that points to itself. -/
def climb [DecidableEq α] (parent : Std.TreeMap α α) : Nat → α → α
  | 0, x => x
  | n + 1, x =>
    match parent[x]? with
    | none => x
    | some y => if y = x then x else climb parent n y

/-- There are ranks that fall along every link, are zero at the representatives, and never exceed
the number of joins; and no link leads out of the forest. -/
def Ranked (parent : Std.TreeMap α α) (joins : Nat) : Prop :=
  ∃ rank : α → Nat, ∀ x y, parent[x]? = some y →
    rank x ≤ joins ∧ y ∈ parent ∧ (y = x → rank x = 0) ∧ (y ≠ x → rank y < rank x)

end Partition

/-- A forest over the nodes added so far. -/
structure Partition (α : Type) [Ord α] where
  parent : Std.TreeMap α α
  /-- How many parts there are. -/
  parts : Nat
  /-- How many times two different parts were joined. -/
  joins : Nat
  ranked : Partition.Ranked parent joins

namespace Partition

variable {α : Type} [Ord α] [DecidableEq α] [Std.TransOrd α]

/-! ## Walks -/

omit [DecidableEq α] in
theorem mem_of_getElem?_eq {parent : Std.TreeMap α α} {x y : α} (h : parent[x]? = some y) :
    x ∈ parent := by
  rw [Std.TreeMap.mem_iff_isSome_getElem?, h]; rfl

omit [Std.TransOrd α] in
theorem climb_of_root {parent : Std.TreeMap α α} {x : α} (h : parent[x]? = some x) (n : Nat) :
    climb parent n x = x := by
  cases n <;> simp [climb, h]

theorem climb_of_rank_le {parent : Std.TreeMap α α} {rank : α → Nat}
    (hr : ∀ x y, parent[x]? = some y → y ∈ parent ∧ (y ≠ x → rank y < rank x)) :
    ∀ (n : Nat) (x : α), x ∈ parent → rank x ≤ n →
      parent[climb parent n x]? = some (climb parent n x) ∧
        climb parent (n + 1) x = climb parent n x := by
  intro n
  induction n with
  | zero =>
    intro x hx hn
    obtain ⟨y, hy⟩ := Option.isSome_iff_exists.1 (Std.TreeMap.mem_iff_isSome_getElem?.1 hx)
    have hyx : y = x := by
      by_cases h : y = x
      · exact h
      · have := (hr x y hy).2 h; omega
    subst hyx
    exact ⟨by simpa [climb] using hy, by simp [climb, hy]⟩
  | succ n ih =>
    intro x hx hn
    obtain ⟨y, hy⟩ := Option.isSome_iff_exists.1 (Std.TreeMap.mem_iff_isSome_getElem?.1 hx)
    by_cases h : y = x
    · subst h
      rw [climb_of_root hy, climb_of_root hy]
      exact ⟨hy, rfl⟩
    · have hlt := (hr x y hy).2 h
      obtain ⟨h1, h2⟩ := ih y (hr x y hy).1 (by omega)
      have e1 : climb parent (n + 1) x = climb parent n y := by simp [climb, hy, h]
      have e2 : climb parent (n + 1 + 1) x = climb parent (n + 1) y := by
        rw [climb]; simp [hy, h]
      rw [e1, e2, h2]
      exact ⟨h1, rfl⟩

theorem Ranked.climb_root {parent : Std.TreeMap α α} {joins : Nat} (h : Ranked parent joins)
    {x : α} (hx : x ∈ parent) :
    parent[climb parent joins x]? = some (climb parent joins x) := by
  obtain ⟨rank, hr⟩ := h
  obtain ⟨y, hy⟩ := Option.isSome_iff_exists.1 (Std.TreeMap.mem_iff_isSome_getElem?.1 hx)
  exact (climb_of_rank_le (fun a b hab => ⟨(hr a b hab).2.1, (hr a b hab).2.2.2⟩) joins x hx
    (hr x y hy).1).1

/-- A node and the node it points to have the same representative. -/
theorem Ranked.climb_step {parent : Std.TreeMap α α} {joins : Nat} (h : Ranked parent joins)
    {x y : α} (hy : parent[x]? = some y) : climb parent joins x = climb parent joins y := by
  obtain ⟨rank, hr⟩ := h
  by_cases hyx : y = x
  · rw [hyx]
  · have hs : ∀ a b, parent[a]? = some b → b ∈ parent ∧ (b ≠ a → rank b < rank a) :=
      fun a b hab => ⟨(hr a b hab).2.1, (hr a b hab).2.2.2⟩
    have hx := mem_of_getElem?_eq hy
    have h1 := (climb_of_rank_le hs joins x hx (hr x y hy).1).2
    rw [← h1, climb]
    simp [hy, hyx]

/-! ## Links -/

variable [Std.LawfulEqOrd α]

theorem Ranked.add {parent : Std.TreeMap α α} {joins : Nat} (h : Ranked parent joins) {x : α}
    (hx : x ∉ parent) : Ranked (parent.insert x x) joins := by
  obtain ⟨rank, hr⟩ := h
  refine ⟨fun z => if z = x then 0 else rank z, fun a b hab => ?_⟩
  rw [Std.TreeMap.getElem?_insert] at hab
  by_cases hax : x = a
  · subst hax
    simp at hab
    subst hab
    simp
  · have hc : ¬ compare x a = .eq := fun hc => hax (Std.LawfulEqOrd.eq_of_compare hc)
    rw [if_neg hc] at hab
    obtain ⟨h1, h2, h3, h4⟩ := hr a b hab
    have hbx : b ≠ x := fun hb => hx (hb ▸ h2)
    simp [Ne.symm hax, hbx, h1, h2]
    exact ⟨h3, h4⟩

/-- Pointing a node straight at its representative. -/
theorem Ranked.shorten {parent : Std.TreeMap α α} {joins : Nat} (h : Ranked parent joins) {x r : α}
    (hr : parent[r]? = some r) (hx : x ∈ parent) (hne : r ≠ x) (hroot : parent[x]? ≠ some x) :
    Ranked (parent.insert x r) joins := by
  obtain ⟨rank, hk⟩ := h
  refine ⟨rank, fun a b hab => ?_⟩
  rw [Std.TreeMap.getElem?_insert] at hab
  have hmem : ∀ c, c ∈ parent → c ∈ parent.insert x r := fun c hc => by
    rw [Std.TreeMap.mem_insert]; exact Or.inr hc
  by_cases hax : x = a
  · subst hax
    simp at hab
    subst hab
    obtain ⟨y, hy⟩ := Option.isSome_iff_exists.1 (Std.TreeMap.mem_iff_isSome_getElem?.1 hx)
    have hyx : y ≠ x := fun e => hroot (e ▸ hy)
    obtain ⟨h1, h2, h3, h4⟩ := hk x y hy
    have h0 := (hk r r hr).2.2.1 rfl
    exact ⟨h1, hmem r (mem_of_getElem?_eq hr), fun e => absurd e hne, fun _ => by
      have := h4 hyx; omega⟩
  · have hc : ¬ compare x a = .eq := fun hc => hax (Std.LawfulEqOrd.eq_of_compare hc)
    rw [if_neg hc] at hab
    obtain ⟨h1, h2, h3, h4⟩ := hk a b hab
    exact ⟨h1, hmem b h2, h3, h4⟩

/-- Hanging one representative below another. -/
theorem Ranked.join {parent : Std.TreeMap α α} {joins : Nat} (h : Ranked parent joins) {k a : α}
    (hk : parent[k]? = some k) (ha : parent[a]? = some a) (hne : k ≠ a) :
    Ranked (parent.insert a k) (joins + 1) := by
  have hstep := fun {x y : α} (hy : parent[x]? = some y) => h.climb_step hy
  obtain ⟨rank, hr⟩ := h
  refine ⟨fun z => rank z + (if climb parent joins z = a then 1 else 0), fun x y hxy => ?_⟩
  rw [Std.TreeMap.getElem?_insert] at hxy
  have hmem : ∀ c, c ∈ parent → c ∈ parent.insert a k := fun c hc => by
    rw [Std.TreeMap.mem_insert]; exact Or.inr hc
  by_cases hax : a = x
  · subst hax
    simp at hxy
    subst hxy
    have hk0 := (hr k k hk).2.2.1 rfl
    have ha0 := (hr a a ha).2.2.1 rfl
    refine ⟨?_, hmem k (mem_of_getElem?_eq hk), fun e => absurd e hne, fun _ => ?_⟩
    · simp only [ha0]; split <;> omega
    · simp [climb_of_root hk, climb_of_root ha, hk0, ha0, hne]
  · have hc : ¬ compare a x = .eq := fun hc => hax (Std.LawfulEqOrd.eq_of_compare hc)
    rw [if_neg hc] at hxy
    obtain ⟨h1, h2, h3, h4⟩ := hr x y hxy
    refine ⟨?_, hmem y h2, fun e => ?_, fun e => ?_⟩
    · simp only; split <;> omega
    · subst e
      have hx := climb_of_root hxy joins
      simp [hx, h3 rfl, Ne.symm hax]
    · have := h4 e
      simp only [hstep hxy]
      omega

/-! ## Operations -/

/-- The partition of no nodes. -/
def empty : Partition α where
  parent := ∅
  parts := 0
  joins := 0
  ranked := ⟨fun _ => 0, fun x y h => by simp at h⟩

instance : Inhabited (Partition α) := ⟨empty⟩

/-- A new node forms a part of its own; a known node changes nothing. -/
def add (p : Partition α) (x : α) : Partition α :=
  if h : x ∈ p.parent then p
  else { parent := p.parent.insert x x, parts := p.parts + 1, joins := p.joins, ranked := p.ranked.add h }

/-- The representative of the part that `x` is in, if `x` was added. -/
def find? (p : Partition α) (x : α) : Option α :=
  if x ∈ p.parent then some (climb p.parent p.joins x) else none

/-- The representative of the part that `x` is in; a node that was never added stands for itself. -/
def resolve (p : Partition α) (x : α) : α := (p.find? x).getD x

/-- Points every node on the way from `x` to the representative `r` straight at `r`. -/
def shortenPath (r : α) : Nat → α → Partition α → Partition α
  | 0, _, p => p
  | n + 1, x, p =>
    if h : r ≠ x ∧ p.parent[r]? = some r ∧ x ∈ p.parent ∧ p.parent[x]? ≠ some x then
      shortenPath r n ((p.parent[x]?).getD x)
        { parent := p.parent.insert x r, parts := p.parts, joins := p.joins,
          ranked := p.ranked.shorten h.2.1 h.2.2.1 h.1 h.2.2.2 }
    else p

/-- The representative of `x`, and the partition with the path from `x` shortened. -/
def compress (p : Partition α) (x : α) : Partition α × Option α :=
  match p.find? x with
  | none => (p, none)
  | some r => (shortenPath r p.joins x p, some r)

/-- Joins the part of `absorb` into the part of `keep`, whose representative stays. Answers the two
representatives, or nothing when either node is unknown. -/
def unite (p : Partition α) (keep absorb : α) : Partition α × Option (α × α) :=
  match p.compress keep with
  | (p, none) => (p, none)
  | (p, some k) =>
    match p.compress absorb with
    | (p, none) => (p, none)
    | (p, some a) =>
      if h : k ≠ a ∧ p.parent[k]? = some k ∧ p.parent[a]? = some a then
        ({ parent := p.parent.insert a k, parts := p.parts - 1, joins := p.joins + 1,
           ranked := p.ranked.join h.2.1 h.2.2 h.1 }, some (k, a))
      else (p, some (k, a))

/-! ## Lemmas -/

omit [Std.TransOrd α] [Std.LawfulEqOrd α] in
theorem find?_eq_none_iff (p : Partition α) (x : α) : p.find? x = none ↔ x ∉ p.parent := by
  unfold find?; split <;> simp_all

omit [Std.LawfulEqOrd α] in
/-- What `find?` answers is a representative. -/
theorem parent_of_find? {p : Partition α} {x r : α} (h : p.find? x = some r) :
    p.parent[r]? = some r := by
  unfold find? at h
  split at h
  · next hx => rw [← Option.some.inj h]; exact p.ranked.climb_root hx
  · cases h

omit [Std.LawfulEqOrd α] in
theorem find?_of_parent {p : Partition α} {x y : α} (h : p.parent[x]? = some y) :
    p.find? x = p.find? y := by
  have hx := mem_of_getElem?_eq h
  have hy : y ∈ p.parent := p.ranked.elim fun _ hr => (hr x y h).2.1
  unfold find?
  rw [if_pos hx, if_pos hy, p.ranked.climb_step h]

end Partition

end PlanSearch
