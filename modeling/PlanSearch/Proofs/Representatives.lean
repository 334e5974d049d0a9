import Mathlib.Data.Set.Card
import PlanSearch.Partition.Classes

/-!
# Representatives

What a partition is for, whatever calls are made of it in whatever order. The walk to a representative follows links
until a node points to itself, without a bound to stop it, and shortening a path rewrites links while it walks along
them. Both end, as no chain of links leads back to where it came from, and they end where `find?` and `compress` say. A
node has a representative once it was added, and only a join ever changes one: it moves the part of one representative
to the other, which stays. The parts are counted by the way, and there are as many as there are representatives.

    p.find? x = some r ↔ Walk p.parent x r                                             (find?_eq_some_iff_walk)
    p.find? x = some r → (Redirects r p.parent x t ↔ t = (p.compress x).1.parent)      (redirects_iff)
    Represents (run calls) fun x => .add x ∈ calls                                     (run_represents)
-/

namespace PlanSearch

namespace Partition

variable {α : Type} [Ord α]

/-! ## Loops -/

/-- Following the links from a node, one after the other and with none missing, ends at a node that points to itself. -/
inductive Walk (parent : Std.TreeMap α α) : α → α → Prop
  | stop {r : α} (root : parent[r]? = some r) : Walk parent r r
  | step {x y r : α} (link : parent[x]? = some y) (ne : y ≠ x) (rest : Walk parent y r) : Walk parent x r

/-- Pointing a node at `r`, then the one that it pointed to before, and so on until this is `r` itself, ends with these
links. -/
inductive Redirects (r : α) : Std.TreeMap α α → α → Std.TreeMap α α → Prop
  | stop {t : Std.TreeMap α α} : Redirects r t r t
  | step {t t' : Std.TreeMap α α} {x y : α} (ne : x ≠ r) (link : t[x]? = some y)
      (rest : Redirects r (t.insert x r) y t') : Redirects r t x t'

theorem Redirects.unique {r x : α} {t t₁ t₂ : Std.TreeMap α α} (h₁ : Redirects r t x t₁) (h₂ : Redirects r t x t₂) :
    t₁ = t₂ := by
  induction h₁ with
  | stop =>
    cases h₂ with
    | stop => rfl
    | step ne => exact absurd rfl ne
  | step ne link _ ih =>
    cases h₂ with
    | stop => exact absurd rfl ne
    | step _ link' rest =>
      rw [link] at link'
      cases link'
      exact ih rest

/-! ## Calls -/

/-- A call of a partition. -/
inductive Call (α : Type) where
  | add (x : α)
  | find (x : α)
  | compress (x : α)
  | unite (keep absorb : α)

variable [DecidableEq α] [Std.TransOrd α] [Std.LawfulEqOrd α]

/-- The partition after a call. -/
def perform (p : Partition α) : Call α → Partition α
  | .add x => p.add x
  | .find _ => p
  | .compress x => (p.compress x).1
  | .unite keep absorb => (p.unite keep absorb).1

/-- The partition that calls lead to, from one without nodes. -/
def run (calls : List (Call α)) : Partition α := calls.foldl perform empty

/-- The nodes that represent their parts. -/
def representatives (p : Partition α) : Set α := {r | ∃ x, p.find? x = some r}

/-- The partition has the nodes that were added, each with the representative that the walk leads to. A new node
represents itself, shortening a path changes no answer, and a join changes those of one part. The parts are as many as
the representatives. -/
structure Represents (p : Partition α) (added : α → Prop) : Prop where
  known : ∀ x, (p.find? x).isSome ↔ added x
  walk : ∀ x r, p.find? x = some r ↔ Walk p.parent x r
  redirect : ∀ x r, p.find? x = some r → ∀ t, Redirects r p.parent x t ↔ t = (p.compress x).1.parent
  add : ∀ x y, (p.add x).find? y = if y = x ∧ p.find? x = none then some x else p.find? y
  compress : ∀ x, (p.compress x).2 = p.find? x ∧ ∀ y, (p.compress x).1.find? y = p.find? y
  unite : ∀ keep absorb k a, p.find? keep = some k → p.find? absorb = some a →
    (p.unite keep absorb).2 = some (k, a) ∧
      ∀ x, (p.unite keep absorb).1.find? x = if p.find? x = some a then some k else p.find? x
  uniteUnknown : ∀ keep absorb, p.find? keep = none ∨ p.find? absorb = none →
    (p.unite keep absorb).2 = none ∧ ∀ x, (p.unite keep absorb).1.find? x = p.find? x
  count : p.representatives.encard = p.parts

variable {p : Partition α} {x y r k a : α}

/-! ## Walks -/

omit [Std.LawfulEqOrd α] in
/-- The loop that looks for a representative ends at the one that is answered. -/
theorem find?_eq_some_iff_walk : p.find? x = some r ↔ Walk p.parent x r := by
  have hfind : ∀ {x r : α}, Walk p.parent x r → p.find? x = some r := by
    intro x r h
    induction h with
    | stop root => exact find?_of_root root
    | step link _ _ ih => exact (find?_of_parent link).trans ih
  refine ⟨fun h => ?_, hfind⟩
  obtain ⟨s, hs⟩ : ∃ s, Walk p.parent x s := p.forall_of_step (motive := fun x => ∃ s, Walk p.parent x s)
    (fun z hz => ⟨z, .stop hz⟩) (fun z w hz hw ⟨s, hs⟩ => ⟨s, .step hz hw hs⟩) x (mem_of_find? h)
  cases h.symm.trans (hfind hs)
  exact hs

omit [DecidableEq α] [Std.TransOrd α] [Std.LawfulEqOrd α] in
/-- Ranks that fall along every link fall along a walk. -/
theorem Walk.rank_le {parent : Std.TreeMap α α} {rank : α → Nat}
    (hr : ∀ x y, parent[x]? = some y → y ≠ x → rank y < rank x) (h : Walk parent x r) :
    r = x ∨ rank r < rank x := by
  induction h with
  | stop => exact .inl rfl
  | step link ne _ ih =>
    have hlt := hr _ _ link ne
    rcases ih with rfl | ih
    · exact .inr hlt
    · exact .inr (Nat.lt_trans ih hlt)

/-- The loop that shortens a path ends within as many steps as the rank of the node that it starts from. -/
theorem redirects_shortenPath (rank : α → Nat) : ∀ (n : Nat) (x : α) (p : Partition α),
    (∀ a b, p.parent[a]? = some b → b ≠ a → rank b < rank a) → p.find? x = some r → rank x ≤ n →
    Redirects r p.parent x (shortenPath r n x p).parent
  | n, x, p, hrank, hr, hn => by
    by_cases hxr : x = r
    · -- nothing is left to be redirected
      subst hxr
      cases n with
      | zero => exact .stop
      | succ n =>
        rw [shortenPath, dif_neg fun h => h.1 rfl]
        exact .stop
    · obtain ⟨y, hy⟩ := Option.isSome_iff_exists.1 (Std.TreeMap.mem_iff_isSome_getElem?.1 (mem_of_find? hr))
      have hyx : y ≠ x := by
        rintro rfl
        exact hxr (Option.some.inj ((find?_of_root hy).symm.trans hr))
      have hlt := hrank x y hy hyx
      cases n with
      | zero => omega
      | succ n =>
        have hguard : r ≠ x ∧ p.parent[r]? = some r ∧ x ∈ p.parent ∧ p.parent[x]? ≠ some x :=
          ⟨Ne.symm hxr, parent_of_find? hr, mem_of_find? hr, by rw [hy]; exact fun h => hyx (Option.some.inj h)⟩
        have hshortened : ∀ a b, (p.parent.insert x r)[a]? = some b → b ≠ a → rank b < rank a := by
          intro a b hab hba
          by_cases hax : a = x
          · subst hax
            rw [Std.TreeMap.getElem?_insert_self] at hab
            cases hab
            exact ((find?_eq_some_iff_walk.1 hr).rank_le hrank).resolve_left hba
          · rw [getElem?_insert_of_ne hax] at hab
            exact hrank a b hab hba
        have hranked := p.ranked.shorten hguard.2.1 hguard.2.2.1 hguard.1 hguard.2.2.2
        have hry : (⟨p.parent.insert x r, p.parts, p.joins, hranked⟩ : Partition α).find? y = some r := by
          rw [find?_of_shortened hr (Ne.symm hxr) rfl, ← find?_of_parent hy, hr]
        rw [shortenPath, dif_pos hguard, hy, Option.getD_some]
        exact .step hxr hy (redirects_shortenPath rank n y _ hshortened hry (by omega))

/-- The loop that shortens a path ends with the links that are left. -/
theorem redirects_iff (hr : p.find? x = some r) (t : Std.TreeMap α α) :
    Redirects r p.parent x t ↔ t = (p.compress x).1.parent := by
  obtain ⟨rank, hrank⟩ := p.ranked
  obtain ⟨y, hy⟩ := Option.isSome_iff_exists.1 (Std.TreeMap.mem_iff_isSome_getElem?.1 (mem_of_find? hr))
  have hends : Redirects r p.parent x (p.compress x).1.parent := by
    unfold Partition.compress
    rw [hr]
    exact redirects_shortenPath rank p.joins x p (fun a b hab => (hrank a b hab).2.2.2) hr (hrank x y hy).1
  exact ⟨fun h => h.unique hends, fun h => h ▸ hends⟩

/-! ## Nodes -/

/-- Only adding a node makes it known. -/
theorem isSome_find?_perform (c : Call α) :
    ((p.perform c).find? x).isSome ↔ (p.find? x).isSome ∨ c = .add x := by
  cases c with
  | add y =>
    show ((p.add y).find? x).isSome ↔ _
    rw [find?_add]
    by_cases hxy : x = y
    · subst hxy
      by_cases hx : x ∈ p.parent
      · have hknown : (p.find? x).isSome := by
          rw [Option.isSome_iff_ne_none, ne_eq, find?_eq_none_iff]
          exact fun h => h hx
        simp [hx, hknown]
      · simp [hx]
    · have hne : Call.add y ≠ Call.add x := fun h => hxy (Call.add.inj h).symm
      simp [hxy, hne]
  | find y => simp [perform]
  | compress y =>
    show ((p.compress y).1.find? x).isSome ↔ _
    simp [find?_compress]
  | unite keep absorb =>
    show ((p.unite keep absorb).1.find? x).isSome ↔ _
    simp only [reduceCtorEq, or_false]
    cases hk : p.find? keep with
    | none => rw [(unite_of_unknown (.inl hk)).2.1]
    | some k =>
      cases ha : p.find? absorb with
      | none => rw [(unite_of_unknown (.inr ha)).2.1]
      | some a =>
        rw [find?_unite hk ha]
        split
        · next h => simp [h]
        · exact Iff.rfl

/-- The known nodes are those that were added. -/
theorem isSome_find?_run (calls : List (Call α)) : ((run calls).find? x).isSome ↔ .add x ∈ calls := by
  have key : ∀ (calls : List (Call α)) (p : Partition α),
      ((calls.foldl perform p).find? x).isSome ↔ (p.find? x).isSome ∨ .add x ∈ calls := by
    intro calls
    induction calls with
    | nil => simp
    | cons c calls ih =>
      intro p
      rw [List.foldl_cons, ih, isSome_find?_perform, or_assoc, List.mem_cons, eq_comm (a := c)]
  have hnone : (empty : Partition α).find? x = none := by simp [find?_eq_none_iff, empty]
  rw [run, key, hnone]
  simp

/-! ## Counting -/

omit [Std.LawfulEqOrd α] in
theorem mem_representatives : r ∈ p.representatives ↔ p.find? r = some r :=
  ⟨fun ⟨_, h⟩ => find?_of_root (parent_of_find? h), fun h => ⟨r, h⟩⟩

omit [Std.TransOrd α] [Std.LawfulEqOrd α] in
theorem representatives_of_find? {q : Partition α} (h : ∀ y, q.find? y = p.find? y) :
    q.representatives = p.representatives := by
  unfold representatives
  simp only [h]

/-- A new node represents itself. -/
theorem representatives_add (h : x ∉ p.parent) : (p.add x).representatives = insert x p.representatives := by
  ext r
  rw [mem_representatives, find?_add, Set.mem_insert_iff, mem_representatives]
  by_cases hr : r = x
  · simp [hr, h]
  · simp [hr]

/-- A join takes one representative away, if there were two. -/
theorem representatives_unite {keep absorb : α} (hk : p.find? keep = some k) (ha : p.find? absorb = some a)
    (hne : k ≠ a) : (p.unite keep absorb).1.representatives = p.representatives \ {a} := by
  ext r
  rw [mem_representatives, find?_unite hk ha, Set.mem_sdiff, mem_representatives, Set.mem_singleton_iff]
  by_cases hr : p.find? r = some a
  · rw [if_pos hr, hr]
    have hkk : k ∈ p.representatives := ⟨keep, hk⟩
    constructor
    · intro h
      cases h
      exact absurd ((mem_representatives.1 hkk).symm.trans hr) fun h => hne (Option.some.inj h)
    · rintro ⟨h, hra⟩
      exact absurd (Option.some.inj h).symm hra
  · rw [if_neg hr]
    refine (and_iff_left_of_imp fun h => ?_).symm
    rintro rfl
    exact hr h

/-- The parts are as many as the representatives. -/
def Numbered (p : Partition α) : Prop := p.representatives.encard = p.parts

omit [Std.TransOrd α] [Std.LawfulEqOrd α] in
theorem Numbered.of_same {q : Partition α} (h : p.Numbered) (hf : ∀ y, q.find? y = p.find? y)
    (hp : q.parts = p.parts) : q.Numbered := by
  unfold Numbered at h ⊢
  rw [representatives_of_find? hf, h, hp]

theorem Numbered.add (h : p.Numbered) (x : α) : (p.add x).Numbered := by
  by_cases hx : x ∈ p.parent
  · rwa [Partition.add, dif_pos hx]
  · have hnew : x ∉ p.representatives := by
      rw [mem_representatives, (find?_eq_none_iff p x).2 hx]
      simp
    unfold Numbered at h ⊢
    rw [representatives_add hx, Set.encard_insert_of_notMem hnew, h, parts_add, if_neg hx]
    rfl

theorem Numbered.unite (h : p.Numbered) (keep absorb : α) : (p.unite keep absorb).1.Numbered := by
  have hunknown : p.find? keep = none ∨ p.find? absorb = none → (p.unite keep absorb).1.Numbered := by
    intro hnone
    obtain ⟨-, hfind, hparts⟩ := unite_of_unknown hnone
    exact h.of_same hfind hparts
  cases hk : p.find? keep with
  | none => exact hunknown (.inl hk)
  | some k =>
    cases ha : p.find? absorb with
    | none => exact hunknown (.inr ha)
    | some a =>
      by_cases hne : k = a
      · refine h.of_same (fun y => ?_) ((parts_unite hk ha).trans (if_pos hne))
        rw [find?_unite hk ha, hne]
        split
        · next hy => exact hy.symm
        · rfl
      · have hmem : a ∈ p.representatives := ⟨absorb, ha⟩
        unfold Numbered at h ⊢
        rw [representatives_unite hk ha hne, Set.encard_sdiff_singleton_of_mem hmem, h, parts_unite hk ha, if_neg hne]
        exact (ENat.natCast_sub _ _).symm

theorem Numbered.perform (h : p.Numbered) (c : Call α) : (p.perform c).Numbered := by
  cases c with
  | add x => exact h.add x
  | find x => exact h
  | compress x => exact h.of_same (find?_compress p x) (parts_compress p x)
  | unite keep absorb => exact h.unite keep absorb

theorem numbered_run (calls : List (Call α)) : (run calls).Numbered := by
  have hempty : (empty : Partition α).Numbered := by
    have hnone : (empty : Partition α).representatives = ∅ := by
      ext r
      simp [mem_representatives, find?, empty]
    unfold Numbered
    rw [hnone, Set.encard_empty]
    rfl
  exact List.foldlRecOn calls perform hempty fun p hp c _ => hp.perform c

/-! ## Runs -/

/-- Whatever calls are made of a partition that had no nodes, in whatever order, it represents what was added. -/
theorem run_represents (calls : List (Call α)) : Represents (run calls) fun x => .add x ∈ calls where
  known _ := isSome_find?_run calls
  walk _ _ := find?_eq_some_iff_walk
  redirect _ _ hr t := redirects_iff hr t
  add x y := by
    rw [find?_add]
    simp only [find?_eq_none_iff]
  compress x := ⟨compress_snd _ x, find?_compress _ x⟩
  unite _ _ _ _ hk ha := ⟨(unite_of_known hk ha).1, find?_unite hk ha⟩
  uniteUnknown _ _ hnone := ⟨(unite_of_unknown hnone).1, (unite_of_unknown hnone).2.1⟩
  count := numbered_run calls

/-- Four nodes, of which each but the last is taken in by the next one. -/
def chained : List (Call Int) :=
  [.add 0, .add 1, .add 2, .add 3, .unite 1 0, .unite 2 1, .unite 3 2]

theorem chained_answers :
    ((run chained).find? 0, (run chained).find? 3, (run chained).find? 7, (run chained).parts) =
      (some 3, some 3, none, 1) := by
  cbv

/-- The walk from the first node ends at the last one, which alone represents the nodes. A node that comes in after that
and takes in the first one represents them all, and a join with a node that is not there changes nothing. -/
theorem chained_represents : Walk (run chained).parent 0 3 ∧ (run chained).representatives.encard = 1 ∧
    (∀ x, ((run (chained ++ [.add 4])).unite 4 0).1.find? x =
      if (run (chained ++ [.add 4])).find? x = some 3 then some 4 else (run (chained ++ [.add 4])).find? x) ∧
    ∀ x, ((run chained).unite 0 7).1.find? x = (run chained).find? x := by
  obtain ⟨hfirst, hrest⟩ := Prod.mk.inj chained_answers
  obtain ⟨-, hrest⟩ := Prod.mk.inj hrest
  obtain ⟨hunknown, hparts⟩ := Prod.mk.inj hrest
  have hrepresents := run_represents chained
  have hlater := run_represents (chained ++ [.add 4])
  have hanswers : (run (chained ++ [.add 4])).find? 4 = some 4 ∧ (run (chained ++ [.add 4])).find? 0 = some 3 := by
    have hnew : (run chained).find? 4 = none := by cbv
    rw [show run (chained ++ [.add 4]) = (run chained).add 4 from rfl, hrepresents.add, hrepresents.add, hfirst, hnew]
    exact ⟨rfl, rfl⟩
  refine ⟨(hrepresents.walk 0 3).1 hfirst, ?_, (hlater.unite 4 0 4 3 hanswers.1 hanswers.2).2,
    (hrepresents.uniteUnknown 0 7 (.inr hunknown)).2⟩
  rw [hrepresents.count, hparts]
  rfl

end Partition

end PlanSearch
