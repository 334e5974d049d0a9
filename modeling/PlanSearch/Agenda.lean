import PlanSearch.Ident

/-!
# The agenda

The agenda holds the rule matches that are still to fire. A match is accepted once; it is not accepted
again after it has fired, unless it is forgotten first. Matches are taken in the order in which they
were accepted, or by falling priority, with the older first among equals.

    (a.push x p).2 = true ↔ x.key ∉ a.seen        (Agenda.push_eq_true_iff)
-/

namespace PlanSearch

/-- A rule with one binding of its pattern. -/
structure Match where
  rule : Nat
  exprs : List ExprId
deriving DecidableEq

/-- The numbers that a match consists of. -/
def Match.key (x : Match) : List Nat := x.rule :: x.exprs.map Ident.val

/-- The order in which matches are taken. -/
inductive AgendaOrder where
  | fifo
  | priority
deriving DecidableEq

/-- The matches to fire, and all that were ever accepted. -/
structure Agenda where
  order : AgendaOrder
  /-- The matches still to fire with their priorities, oldest first. -/
  pending : List (Int × Match)
  /-- The keys of all matches accepted and not forgotten since. -/
  seen : Std.TreeSet (List Nat)

namespace Agenda

/-- An agenda that has accepted nothing. -/
def empty (order : AgendaOrder) : Agenda := ⟨order, [], ∅⟩

/-- How many matches are still to fire. -/
def size (a : Agenda) : Nat := a.pending.length

/-- Whether nothing is left to fire. -/
def isEmpty (a : Agenda) : Bool := a.pending.isEmpty

/-- Accepts a match unless it was accepted before, and says whether it did. -/
def push (a : Agenda) (x : Match) (priority : Int) : Agenda × Bool :=
  if a.seen.contains x.key then (a, false)
  else ({ a with pending := a.pending ++ [(priority, x)], seen := a.seen.insert x.key }, true)

/-- The first of the entries with the highest priority in a list that starts with `p`, and the rest. -/
def takeHighest (p : Int × Match) : List (Int × Match) → (Int × Match) × List (Int × Match)
  | [] => (p, [])
  | q :: qs =>
    let (best, rest) := takeHighest q qs
    if p.1 < best.1 then (best, p :: rest) else (p, q :: qs)

/-- Takes the next match. -/
def pop? (a : Agenda) : Option (Match × Agenda) :=
  match a.pending with
  | [] => none
  | p :: ps =>
    match a.order with
    | .fifo => some (p.2, { a with pending := ps })
    | .priority =>
      let (best, rest) := takeHighest p ps
      some (best.2, { a with pending := rest })

/-- Lets a match be accepted again. -/
def forget (a : Agenda) (x : Match) : Agenda := { a with seen := a.seen.erase x.key }

/-! ## Lemmas -/

theorem key_injective {x y : Match} (h : x.key = y.key) : x = y := by
  obtain ⟨r, es⟩ := x
  obtain ⟨s, fs⟩ := y
  simp only [Match.key, List.cons.injEq] at h
  obtain ⟨rfl, h⟩ := h
  have hv : ∀ a b : ExprId, a.val = b.val → a = b := fun a b hab => by
    cases a; cases b; exact congrArg Ident.mk hab
  rw [(List.map_inj_right hv).1 h]

theorem push_eq_true_iff (a : Agenda) (x : Match) (priority : Int) :
    (a.push x priority).2 = true ↔ x.key ∉ a.seen := by
  unfold push
  rw [← Std.TreeSet.contains_iff_mem]
  split <;> simp_all

/-- Taking one entry out of a list and putting it back leaves the entries the same. -/
theorem takeHighest_perm (p : Int × Match) (ps : List (Int × Match)) :
    ((takeHighest p ps).1 :: (takeHighest p ps).2).Perm (p :: ps) := by
  induction ps generalizing p with
  | nil => exact .refl _
  | cons q qs ih =>
    simp only [takeHighest]
    split
    · exact (List.Perm.swap _ _ _).trans ((ih q).cons p)
    · exact .refl _

/-- No entry has a higher priority than the one that is taken. -/
theorem priority_le_takeHighest (p : Int × Match) (ps : List (Int × Match)) :
    ∀ q ∈ p :: ps, q.1 ≤ (takeHighest p ps).1.1 := by
  induction ps generalizing p with
  | nil => intro q hq; simp at hq; subst hq; exact Int.le_refl _
  | cons r rs ih =>
    have hr := ih r
    intro q hq
    simp only [takeHighest]
    rcases List.mem_cons.1 hq with rfl | hq
    · split
      · next h => exact Int.le_of_lt h
      · exact Int.le_refl _
    · have := hr q hq
      split
      · exact this
      · next h => exact Int.le_trans this (Int.not_lt.1 h)

end Agenda

end PlanSearch
