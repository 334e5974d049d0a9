import PlanSearch.Proofs.Optimizer.Advance

/-!
# Tickets

What an agenda is for, said of its calls and answers alone. Whatever is accepted gets a ticket, which is how many were
accepted before it, and every pop that gives a match calls a ticket that was not called before: the lowest one, or the
lowest of those of the highest priority. A match is accepted unless it is held, that is, unless it was accepted and not
forgotten since; whether it is still waiting does not matter, so that a match that is forgotten while it waits can be
accepted a second time and then has two tickets. Any calls in any order are answered like this, and once as many more pops
are made as there are matches waiting, every ticket has been called once.

    Serves order (run (.empty order) calls).2 called                                                    (run_serves)
-/

namespace PlanSearch

namespace Agenda

/-! ## Calls and answers -/

/-- A call of an agenda. -/
inductive Call where
  | push (x : Match) (priority : Int)
  | pop
  | forget (x : Match)

/-- A call with its answer. -/
inductive Event where
  | push (x : Match) (priority : Int) (accepted : Bool)
  | pop (next : Option Match)
  | forget (x : Match)

/-- The agenda after a call, and what the call came to. -/
def perform (a : Agenda) : Call → Agenda × Event
  | .push x priority => ((a.push x priority).1, .push x priority (a.push x priority).2)
  | .pop =>
    match a.pop? with
    | some (x, a') => (a', .pop (some x))
    | none => (a, .pop none)
  | .forget x => (a.forget x, .forget x)

/-- The agenda after some calls, and what they came to. -/
def run (a : Agenda) : List Call → Agenda × List Event
  | [] => (a, [])
  | c :: cs => ((run (a.perform c).1 cs).1, (a.perform c).2 :: (run (a.perform c).1 cs).2)

/-! ## What the answers should be -/

/-- What was accepted, with its priority. The ticket of an entry is its position. -/
def accepted (log : List Event) : List (Int × Match) :=
  log.filterMap fun
    | .push x priority true => some (priority, x)
    | _ => none

/-- What was popped. -/
def popped (log : List Event) : List Match :=
  log.filterMap fun
    | .pop next => next
    | _ => none

/-- The match was accepted and not forgotten since. -/
def Held (log : List Event) (x : Match) : Prop :=
  ∃ before priority after, log = before ++ .push x priority true :: after ∧ .forget x ∉ after

/-- A ticket with a priority has its turn before another one. -/
def Precedes : AgendaOrder → Int × Nat → Int × Nat → Prop
  | .fifo, (_, t), (_, u) => t < u
  | .priority, (p, t), (q, u) => q < p ∨ q = p ∧ t < u

/-- The match has a ticket that is not called yet, and the ticket has its turn before all others that are not. -/
def Next (order : AgendaOrder) (entries : List (Int × Match)) (called : List Nat) (t : Nat) (x : Match) : Prop :=
  ∃ p, entries[t]? = some (p, x) ∧ t ∉ called ∧
    ∀ u q y, entries[u]? = some (q, y) → u ∉ called → u ≠ t → Precedes order (p, t) (q, u)

/-- The calls were answered as they should be, and these are the tickets that the pops called. -/
inductive Serves (order : AgendaOrder) : List Event → List Nat → Prop
  | start : Serves order [] []
  | push {log : List Event} {called : List Nat} (before : Serves order log called) (x : Match) (priority : Int) {b : Bool}
      (fresh : b = true ↔ ¬ Held log x) : Serves order (log ++ [.push x priority b]) called
  | pop {log : List Event} {called : List Nat} (before : Serves order log called) {t : Nat} {x : Match}
      (next : Next order (accepted log) called t x) : Serves order (log ++ [.pop (some x)]) (called ++ [t])
  | idle {log : List Event} {called : List Nat} (before : Serves order log called)
      (spent : ∀ t < (accepted log).length, t ∈ called) : Serves order (log ++ [.pop none]) called
  | forget {log : List Event} {called : List Nat} (before : Serves order log called) (x : Match) :
      Serves order (log ++ [.forget x]) called

/-! ## Lemmas on logs -/

variable {log : List Event} {called : List Nat} {order : AgendaOrder} {x y : Match}

@[simp]
theorem accepted_append (log log' : List Event) : accepted (log ++ log') = accepted log ++ accepted log' :=
  List.filterMap_append

@[simp]
theorem popped_append (log log' : List Event) : popped (log ++ log') = popped log ++ popped log' :=
  List.filterMap_append

theorem not_held_nil : ¬ Held [] x := by
  rintro ⟨before, priority, after, h, -⟩
  cases before <;> cases h

/-- One more event leaves a match held or makes it so. -/
theorem held_concat {e : Event} : Held (log ++ [e]) x ↔
    (∃ priority, e = .push x priority true) ∨ Held log x ∧ e ≠ .forget x := by
  constructor
  · rintro ⟨before, priority, after, h, hkept⟩
    rcases List.eq_nil_or_concat after with rfl | ⟨after, e', rfl⟩
    · obtain ⟨-, he⟩ := List.append_inj' h rfl
      exact .inl ⟨priority, List.singleton_inj.1 he⟩
    · rw [List.concat_eq_append, ← List.cons_append, ← List.append_assoc] at h
      obtain ⟨rfl, he⟩ := List.append_inj' h rfl
      cases he
      simp only [List.concat_eq_append, List.mem_append, List.mem_singleton, not_or] at hkept
      exact .inr ⟨⟨before, priority, after, rfl, hkept.1⟩, Ne.symm hkept.2⟩
  · rintro (⟨priority, rfl⟩ | ⟨⟨before, priority, after, rfl, hkept⟩, hne⟩)
    · exact ⟨log, priority, [], rfl, List.not_mem_nil⟩
    · refine ⟨before, priority, after ++ [e], by simp, ?_⟩
      simp only [List.mem_append, List.mem_singleton, not_or]
      exact ⟨hkept, Ne.symm hne⟩

namespace Serves

/-- Only what was accepted is called. -/
theorem lt (h : Serves order log called) : ∀ t ∈ called, t < (accepted log).length := by
  induction h with
  | start => intro t ht; cases ht
  | push _ x p _ ih =>
    intro t ht
    rw [accepted_append, List.length_append]
    exact Nat.lt_add_right _ (ih t ht)
  | pop _ next ih =>
    intro t ht
    rw [accepted_append, List.length_append]
    refine Nat.lt_add_right _ ?_
    rcases List.mem_append.1 ht with ht | ht
    · exact ih t ht
    · obtain ⟨p, hentry, -⟩ := next
      exact List.mem_singleton.1 ht ▸ (List.getElem?_eq_some_iff.1 hentry).1
  | idle _ _ ih => simpa [accepted] using ih
  | forget _ _ ih => simpa [accepted] using ih

/-- No ticket is called twice. -/
theorem nodup (h : Serves order log called) : called.Nodup := by
  induction h with
  | start => exact List.nodup_nil
  | pop _ next ih =>
    obtain ⟨p, -, hwaits, -⟩ := next
    exact List.nodup_append.2 ⟨ih, List.pairwise_singleton _ _, fun t ht u hu => by
      rw [List.mem_singleton.1 hu]
      exact fun heq => hwaits (heq ▸ ht)⟩
  | push _ _ _ _ ih => exact ih
  | idle _ _ ih => exact ih
  | forget _ _ ih => exact ih

/-- What was popped are the matches of the tickets. -/
theorem tickets (h : Serves order log called) :
    List.Forall₂ (fun t x => ∃ p, (accepted log)[t]? = some (p, x)) called (popped log) := by
  have hmore : ∀ {log : List Event} {called : List Nat} {xs : List Match} (e : Event),
      List.Forall₂ (fun t x => ∃ p, (accepted log)[t]? = some (p, x)) called xs →
      List.Forall₂ (fun t x => ∃ p, (accepted (log ++ [e]))[t]? = some (p, x)) called xs := by
    intro log called xs e hall
    refine hall.imp fun t x ⟨p, hp⟩ => ⟨p, ?_⟩
    rw [accepted_append, List.getElem?_append_left (List.getElem?_eq_some_iff.1 hp).1, hp]
  induction h with
  | start => exact .nil
  | push _ _ _ _ ih =>
    rw [popped_append]
    exact (List.append_nil (popped _)).symm ▸ hmore _ ih
  | @pop log called _ t x next ih =>
    obtain ⟨p, hentry, -⟩ := next
    rw [popped_append]
    have hall : List.Forall₂ (fun t x => ∃ p, (accepted log)[t]? = some (p, x)) (called ++ [t]) (popped log ++ [x]) :=
      List.rel_append ih (.cons ⟨p, hentry⟩ .nil)
    exact hmore _ hall
  | idle _ _ ih =>
    rw [popped_append]
    exact (List.append_nil (popped _)).symm ▸ hmore _ ih
  | forget _ _ ih =>
    rw [popped_append]
    exact (List.append_nil (popped _)).symm ▸ hmore _ ih

theorem length_le (h : Serves order log called) : called.length ≤ (accepted log).length := by
  have hsub : called ⊆ List.range (accepted log).length := fun t ht => List.mem_range.2 (h.lt t ht)
  simpa using (List.subperm_of_subset h.nodup hsub).length_le

/-- First come, first served: what was popped is what was accepted first. -/
theorem popped_eq_take (h : Serves .fifo log called) :
    called = List.range called.length ∧ popped log = ((accepted log).map Prod.snd).take called.length := by
  generalize horder : AgendaOrder.fifo = order at h
  induction h with
  | start => exact ⟨rfl, rfl⟩
  | @push log called before x p b _ ih =>
    obtain ⟨hcalled, hpopped⟩ := ih
    refine ⟨hcalled, ?_⟩
    rw [popped_append, accepted_append, List.map_append,
      List.take_append_of_le_length (by rw [List.length_map]; exact before.length_le), ← hpopped]
    exact List.append_nil _
  | @pop log called before t x next ih =>
    obtain ⟨hcalled, hpopped⟩ := ih
    obtain ⟨p, hentry, hwaits, hfirst⟩ := next
    have ht : t = called.length := by
      rw [hcalled, List.mem_range, Nat.not_lt] at hwaits
      rcases Nat.eq_or_lt_of_le hwaits with heq | hlt
      · exact heq.symm
      · -- the next number is waiting as well, and would have its turn before
        have hn : called.length < (accepted log).length :=
          Nat.lt_trans hlt (List.getElem?_eq_some_iff.1 hentry).1
        have hother := hfirst called.length _ _ (List.getElem?_eq_getElem hn)
          (by rw [hcalled]; simp) (Nat.ne_of_lt hlt)
        rw [← horder] at hother
        exact absurd hother (Nat.not_lt.2 hwaits)
    rw [List.length_append, List.length_singleton, List.range_succ, ← hcalled, ← ht, popped_append, accepted_append]
    refine ⟨rfl, ?_⟩
    rw [List.take_add_one, show (accepted [Event.pop (some x)]) = [] from rfl, List.append_nil, List.getElem?_map, hentry,
      hpopped, ht]
    rfl
  | idle _ _ ih => simpa [accepted, popped] using ih
  | forget _ _ ih => simpa [accepted, popped] using ih

end Serves

/-! ## What a pop takes -/

/-- What is taken has a higher priority than all before it, and none that is lower than those after it. -/
theorem takeHighest_split (p : Int × Match) (ps : List (Int × Match)) : ∃ l₁ l₂,
    p :: ps = l₁ ++ (takeHighest p ps).1 :: l₂ ∧ (takeHighest p ps).2 = l₁ ++ l₂ ∧
    (∀ q ∈ l₁, q.1 < (takeHighest p ps).1.1) ∧ ∀ q ∈ l₂, q.1 ≤ (takeHighest p ps).1.1 := by
  induction ps generalizing p with
  | nil => exact ⟨[], [], rfl, rfl, fun q hq => (by cases hq), fun q hq => (by cases hq)⟩
  | cons r rs ih =>
    obtain ⟨l₁, l₂, hsplit, hrest, hbefore, hafter⟩ := ih r
    have hmost := priority_le_takeHighest r rs
    rw [takeHighest]
    dsimp only
    split
    · next hlt =>
      refine ⟨p :: l₁, l₂, by rw [hsplit]; rfl, by rw [hrest]; rfl, fun q hq => ?_, hafter⟩
      rcases List.mem_cons.1 hq with rfl | hq
      · exact hlt
      · exact hbefore q hq
    · next hle =>
      exact ⟨[], r :: rs, rfl, rfl, fun q hq => (by cases hq), fun q hq => Int.le_trans (hmost q hq) (Int.not_lt.1 hle)⟩

/-- A pop takes one of the entries: the first one, or the first one of the highest priority. -/
theorem pop?_split {a a' : Agenda} (h : a.pop? = some (x, a')) : ∃ l₁ p l₂, a.pending = l₁ ++ (p, x) :: l₂ ∧
    a' = { a with pending := l₁ ++ l₂ } ∧
    match a.order with
    | .fifo => l₁ = []
    | .priority => (∀ q ∈ l₁, q.1 < p) ∧ ∀ q ∈ l₂, q.1 ≤ p := by
  unfold pop? at h
  split at h
  · cases h
  · next p ps hpending =>
    cases horder : a.order with
    | fifo =>
      rw [horder] at h
      cases h
      exact ⟨[], p.1, ps, hpending, rfl, rfl⟩
    | priority =>
      rw [horder] at h
      cases h
      obtain ⟨l₁, l₂, hsplit, hrest, hbefore, hafter⟩ := takeHighest_split p ps
      exact ⟨l₁, _, l₂, hpending.trans hsplit, by rw [hrest], hbefore, hafter⟩

/-! ## What the agenda keeps -/

/-- The entries with tickets that are not called yet. -/
def waitingEntries (entries : List (Int × Match)) (called : List Nat) : List ((Int × Match) × Nat) :=
  entries.zipIdx.filter fun w => w.2 ∉ called

variable {entries : List (Int × Match)} {w : (Int × Match) × Nat}

theorem mem_waitingEntries : w ∈ waitingEntries entries called ↔ entries[w.2]? = some w.1 ∧ w.2 ∉ called := by
  rw [waitingEntries, List.mem_filter, List.mem_zipIdx_iff_getElem?, decide_eq_true_eq]

theorem pairwise_waitingEntries : (waitingEntries entries called).Pairwise fun w w' => w.2 < w'.2 := by
  refine List.Pairwise.filter _ (List.pairwise_map.1 ?_)
  rw [List.zipIdx_map_snd]
  exact List.pairwise_lt_range'

/-- What is accepted goes to the end of those waiting. -/
theorem waitingEntries_concat (h : ∀ t ∈ called, t < entries.length) (e : Int × Match) :
    waitingEntries (entries ++ [e]) called = waitingEntries entries called ++ [(e, entries.length)] := by
  have hnew : entries.length ∉ called := fun hmem => Nat.lt_irrefl _ (h _ hmem)
  simp [waitingEntries, List.zipIdx_append, hnew]

/-- A ticket that is called takes its entry from those waiting, and no other. -/
theorem waitingEntries_call {w₁ w₂ : List ((Int × Match) × Nat)} (h : waitingEntries entries called = w₁ ++ w :: w₂) :
    waitingEntries entries (called ++ [w.2]) = w₁ ++ w₂ := by
  have hfilter : waitingEntries entries (called ++ [w.2]) =
      (waitingEntries entries called).filter fun w' => w'.2 ≠ w.2 := by
    rw [waitingEntries, waitingEntries, List.filter_filter]
    refine List.filter_congr fun w' _ => ?_
    simp [and_comm]
  have hsorted : (waitingEntries entries called).Pairwise _ := pairwise_waitingEntries
  rw [h, List.pairwise_append, List.pairwise_cons] at hsorted
  obtain ⟨-, ⟨hafter, -⟩, hbefore⟩ := hsorted
  rw [hfilter, h, List.filter_append, List.filter_cons_of_neg (by simp),
    List.filter_eq_self.2 fun w' hw' => ?_, List.filter_eq_self.2 fun w' hw' => ?_]
  · simpa using Nat.ne_of_gt (hafter w' hw')
  · simpa using Nat.ne_of_lt (hbefore w' hw' w List.mem_cons_self)

/-- Of those waiting, the one that the order picks has its turn before all others. -/
theorem next_of_split {w₁ w₂ : List ((Int × Match) × Nat)} {p : Int} {t : Nat}
    (h : waitingEntries entries called = w₁ ++ ((p, x), t) :: w₂)
    (hfirst : match order with
      | .fifo => w₁ = []
      | .priority => (∀ w ∈ w₁, w.1.1 < p) ∧ ∀ w ∈ w₂, w.1.1 ≤ p) : Next order entries called t x := by
  have hpicked : ((p, x), t) ∈ waitingEntries entries called := h ▸ List.mem_append_right w₁ List.mem_cons_self
  obtain ⟨hentry, hwaits⟩ := mem_waitingEntries.1 hpicked
  have hsorted : (waitingEntries entries called).Pairwise _ := pairwise_waitingEntries
  rw [h, List.pairwise_append, List.pairwise_cons] at hsorted
  obtain ⟨-, ⟨hafter, -⟩, -⟩ := hsorted
  refine ⟨p, hentry, hwaits, fun u q y hu hnot hne => ?_⟩
  have hmem : ((q, y), u) ∈ waitingEntries entries called := mem_waitingEntries.2 ⟨hu, hnot⟩
  rw [h, List.mem_append, List.mem_cons] at hmem
  cases order with
  | fifo =>
    rcases hmem with hmem | hmem | hmem
    · rw [show w₁ = [] from hfirst] at hmem
      cases hmem
    · cases hmem
      exact absurd rfl hne
    · exact hafter _ hmem
  | priority =>
    obtain ⟨hbefore, hbehind⟩ := hfirst
    rcases hmem with hmem | hmem | hmem
    · exact .inl (hbefore _ hmem)
    · cases hmem
      exact absurd rfl hne
    · rcases Int.lt_or_eq_of_le (hbehind _ hmem) with hlt | heq
      · exact .inl hlt
      · exact .inr ⟨heq, hafter _ hmem⟩

/-- The agenda after a log in which these tickets were called: it holds the entries that wait and knows the matches that are
held. -/
structure Keeps (order : AgendaOrder) (a : Agenda) (log : List Event) (called : List Nat) : Prop where
  ordered : a.order = order
  serves : Serves order log called
  pending : a.pending = (waitingEntries (accepted log) called).map Prod.fst
  seen : ∀ x : Match, x.key ∈ a.seen ↔ Held log x
  count : a.size + called.length = (accepted log).length

theorem keeps_empty (order : AgendaOrder) : Keeps order (.empty order) [] [] where
  ordered := rfl
  serves := .start
  pending := rfl
  seen x := ⟨fun h => absurd h (by simp [empty]), fun h => absurd h not_held_nil⟩
  count := rfl

section Steps

variable {a a' : Agenda}

theorem Keeps.push (h : Keeps order a log called) (x : Match) (priority : Int) :
    Keeps order (a.push x priority).1 (log ++ [.push x priority (a.push x priority).2]) called := by
  obtain ⟨b, hb⟩ : ∃ b, (a.push x priority).2 = b := ⟨_, rfl⟩
  have hpush : a.push x priority = ((a.push x priority).1, b) := by rw [← hb]
  have hfresh : b = true ↔ ¬ Held log x := by rw [← hb, push_eq_true_iff, h.seen]
  have hseen : ∀ y : Match, y.key ∈ (a.push x priority).1.seen ↔ Held (log ++ [.push x priority b]) y := by
    intro y
    rw [push_seen hpush, h.seen, held_concat]
    constructor
    · rintro (hheld | hkey)
      · exact .inr ⟨hheld, by simp⟩
      · obtain rfl := key_injective hkey
        by_cases hheld : Held log y
        · exact .inr ⟨hheld, by simp⟩
        · exact .inl ⟨priority, by rw [hfresh.2 hheld]⟩
    · rintro (⟨p, hpush⟩ | ⟨hheld, -⟩)
      · cases hpush
        exact .inr rfl
      · exact .inl hheld
  rw [hb]
  cases b with
  | true =>
    obtain ⟨hpending, -⟩ := push_accepted hpush
    refine ⟨?_, h.serves.push x priority hfresh, ?_, hseen, ?_⟩
    · rw [← h.ordered, Agenda.push]
      split <;> rfl
    · rw [hpending, h.pending, accepted_append, show accepted [Event.push x priority true] = [(priority, x)] from rfl,
        waitingEntries_concat h.serves.lt, List.map_append]
      rfl
    · have hsize := h.count
      rw [size] at hsize ⊢
      rw [hpending, accepted_append, List.length_append, List.length_append, ← hsize]
      simp [accepted]
      omega
  | false =>
    have hsame : (a.push x priority).1 = a := by
      have hheld : a.seen.contains x.key = true := by
        rw [Std.TreeSet.contains_iff_mem, h.seen]
        by_contra hnot
        cases hfresh.2 hnot
      rw [Agenda.push, if_pos hheld]
    have haccepted : accepted (log ++ [.push x priority false]) = accepted log := by simp [accepted]
    refine ⟨?_, h.serves.push x priority hfresh, ?_, hseen, ?_⟩
    · rw [hsame]
      exact h.ordered
    · rw [hsame, haccepted]
      exact h.pending
    · rw [hsame, haccepted]
      exact h.count

theorem Keeps.pop (h : Keeps order a log called) (hpop : a.pop? = some (x, a')) :
    ∃ t, Keeps order a' (log ++ [.pop (some x)]) (called ++ [t]) := by
  obtain ⟨l₁, p, l₂, hpending, rfl, hfirst⟩ := pop?_split hpop
  obtain ⟨w₁, w', hsplit, rfl, hw'⟩ := List.map_eq_append_iff.1 (h.pending.symm.trans hpending)
  obtain ⟨⟨entry, t⟩, w₂, rfl, rfl, rfl⟩ := List.map_eq_cons_iff.1 hw'
  have haccepted : accepted (log ++ [.pop (some x)]) = accepted log := by simp [accepted]
  have hnext : Next order (accepted log) called t x := by
    refine next_of_split hsplit ?_
    rw [h.ordered] at hfirst
    cases order with
    | fifo => exact List.map_eq_nil_iff.1 hfirst
    | priority =>
      exact ⟨fun w hw => hfirst.1 _ (List.mem_map_of_mem hw), fun w hw => hfirst.2 _ (List.mem_map_of_mem hw)⟩
  refine ⟨t, h.ordered, h.serves.pop hnext, ?_, fun y => ?_, ?_⟩
  · rw [haccepted, waitingEntries_call hsplit, List.map_append]
  · rw [held_concat]
    simpa using h.seen y
  · have hsize := h.count
    rw [size, hpending] at hsize
    rw [haccepted, ← hsize, size]
    simp only [List.length_append, List.length_cons, List.length_nil]
    omega

theorem Keeps.idle (h : Keeps order a log called) (hpop : a.pop? = none) : Keeps order a (log ++ [.pop none]) called := by
  have haccepted : accepted (log ++ [.pop none]) = accepted log := by simp [accepted]
  refine ⟨h.ordered, h.serves.idle fun t ht => ?_, ?_, fun y => ?_, ?_⟩
  · have hnone := h.pending
    rw [pop?_eq_none hpop] at hnone
    have hwaiting : waitingEntries (accepted log) called = [] := List.map_eq_nil_iff.1 hnone.symm
    by_contra hwaits
    have hmem : ((accepted log)[t], t) ∈ waitingEntries (accepted log) called :=
      mem_waitingEntries.2 ⟨List.getElem?_eq_getElem ht, hwaits⟩
    rw [hwaiting] at hmem
    cases hmem
  · rw [haccepted]
    exact h.pending
  · rw [held_concat]
    simpa using h.seen y
  · rw [haccepted]
    exact h.count

theorem Keeps.forget (h : Keeps order a log called) (x : Match) :
    Keeps order (a.forget x) (log ++ [.forget x]) called := by
  have haccepted : accepted (log ++ [.forget x]) = accepted log := by simp [accepted]
  refine ⟨h.ordered, h.serves.forget x, ?_, fun y => ?_, ?_⟩
  · rw [haccepted]
    exact h.pending
  · rw [held_concat, Agenda.forget, Std.TreeSet.mem_erase, Ne, Std.LawfulEqOrd.compare_eq_iff_eq, h.seen]
    constructor
    · rintro ⟨hne, hheld⟩
      exact .inr ⟨hheld, fun heq => hne (by cases heq; rfl)⟩
    · rintro (⟨p, heq⟩ | ⟨hheld, hne⟩)
      · cases heq
      · exact ⟨fun hkey => hne (by rw [key_injective hkey]), hheld⟩
  · rw [haccepted]
    exact h.count

/-- What one call keeps. -/
theorem Keeps.perform (h : Keeps order a log called) (c : Call) :
    ∃ more, Keeps order (a.perform c).1 (log ++ [(a.perform c).2]) (called ++ more) := by
  have hnone : ∀ {a' : Agenda} {log' : List Event}, Keeps order a' log' called → ∃ more, Keeps order a' log' (called ++ more) :=
    fun h => ⟨[], (List.append_nil called).symm ▸ h⟩
  cases c with
  | push x p => exact hnone (h.push x p)
  | forget x => exact hnone (h.forget x)
  | pop =>
    unfold Agenda.perform
    dsimp only
    split
    · next x a' hpop =>
      obtain ⟨t, h⟩ := h.pop hpop
      exact ⟨[t], h⟩
    · next hpop => exact hnone (h.idle hpop)

/-- What calls keep. -/
theorem Keeps.run (cs : List Call) : ∀ {a : Agenda} {log : List Event} {called : List Nat}, Keeps order a log called →
    ∃ more, Keeps order (a.run cs).1 (log ++ (a.run cs).2) (called ++ more) := by
  induction cs with
  | nil => exact fun {a log called} h => ⟨[], by simpa [Agenda.run] using h⟩
  | cons c cs ih =>
    intro a log called h
    obtain ⟨more, h⟩ := h.perform c
    obtain ⟨later, h⟩ := ih h
    exact ⟨more ++ later, by simpa [Agenda.run] using h⟩

end Steps

/-! ## Runs -/

theorem run_append (a : Agenda) (cs cs' : List Call) : a.run (cs ++ cs') =
    (((a.run cs).1.run cs').1, (a.run cs).2 ++ ((a.run cs).1.run cs').2) := by
  induction cs generalizing a with
  | nil => rfl
  | cons c cs ih => simp [run, ih]

/-- Pops take one match each, as long as there is one, and nothing is accepted by them. -/
theorem run_pops (n : Nat) (a : Agenda) :
    (a.run (List.replicate n .pop)).1.size = a.size - n ∧ accepted (a.run (List.replicate n .pop)).2 = [] := by
  induction n generalizing a with
  | zero => exact ⟨rfl, rfl⟩
  | succ n ih =>
    obtain ⟨hsize, haccepted⟩ := ih (a.perform .pop).1
    rw [List.replicate_succ, run]
    refine ⟨hsize.trans ?_, ?_⟩
    · unfold perform
      dsimp only
      split
      · next x a' hpop =>
        obtain ⟨p, hperm, -⟩ := pop?_eq_some hpop
        have hlength := hperm.length_eq
        rw [List.length_cons] at hlength
        show a'.pending.length - n = a.pending.length - (n + 1)
        omega
      · next hpop =>
        rw [size, pop?_eq_none hpop]
        simp
    · have hpop : accepted [(a.perform .pop).2] = [] := by
        unfold perform
        dsimp only
        split <;> rfl
      rw [← List.singleton_append, accepted_append, hpop, haccepted]
      rfl

/-- Whatever calls are made of an agenda that was empty, in either order, they are answered as they should be: the pops call
tickets, none twice, and give the matches that have them, under the first order in the order in which they were accepted. As
many are waiting as were not called, and when they have all been popped, every ticket has been called once. -/
theorem run_serves (order : AgendaOrder) (calls : List Call) :
    ∃ called, Serves order (run (.empty order) calls).2 called ∧ called.Nodup ∧
      List.Forall₂ (fun t x => ∃ p, (accepted (run (.empty order) calls).2)[t]? = some (p, x)) called
        (popped (run (.empty order) calls).2) ∧
      (order = .fifo →
        popped (run (.empty order) calls).2 <+: (accepted (run (.empty order) calls).2).map Prod.snd) ∧
      (run (.empty order) calls).1.size + called.length = (accepted (run (.empty order) calls).2).length ∧
      ∃ more, Serves order
          (run (.empty order) (calls ++ List.replicate (run (.empty order) calls).1.size .pop)).2 (called ++ more) ∧
        (called ++ more).Perm (List.range (accepted (run (.empty order) calls).2).length) := by
  obtain ⟨called, hkeeps⟩ := (keeps_empty order).run calls
  rw [List.nil_append, List.nil_append] at hkeeps
  obtain ⟨more, hafter⟩ := hkeeps.run (List.replicate (run (.empty order) calls).1.size .pop)
  obtain ⟨hsize, hnone⟩ := run_pops (run (.empty order) calls).1.size (run (.empty order) calls).1
  refine ⟨called, hkeeps.serves, hkeeps.serves.nodup, hkeeps.serves.tickets, ?_, hkeeps.count, more, ?_, ?_⟩
  · rintro rfl
    rw [hkeeps.serves.popped_eq_take.2]
    exact List.take_prefix _ _
  · rw [run_append]
    exact hafter.serves
  · have hall := hafter.count
    rw [hsize, Nat.sub_self, Nat.zero_add, accepted_append, hnone, List.append_nil] at hall
    have hlt := hafter.serves.lt
    rw [accepted_append, hnone, List.append_nil] at hlt
    have hsub : called ++ more ⊆ List.range (accepted (run (.empty order) calls).2).length :=
      fun t ht => List.mem_range.2 (hlt t ht)
    refine (List.subperm_of_subset hafter.serves.nodup hsub).perm_of_length_le ?_
    rw [List.length_range, hall]

/-- Two matches come, the first one is forgotten while it waits and comes again, and is not taken a third time. -/
def returning : List Call :=
  [.push ⟨0, [⟨4⟩]⟩ 0, .push ⟨1, [⟨4⟩]⟩ 5, .forget ⟨0, [⟨4⟩]⟩, .push ⟨0, [⟨4⟩]⟩ 5, .push ⟨0, [⟨4⟩]⟩ 9, .pop, .pop, .pop, .pop]

/-- In either order, three tickets are called, and what comes out in the order of arrival is what was accepted. -/
theorem returning_serves :
    (∃ called, Serves .priority (run (.empty .priority) returning).2 called ∧ called.Nodup ∧ called.length = 3) ∧
    [⟨0, [⟨4⟩]⟩, ⟨1, [⟨4⟩]⟩, ⟨0, [⟨4⟩]⟩] <+: (accepted (run (.empty .fifo) returning).2).map Prod.snd := by
  have hpopped : popped (run (.empty .fifo) returning).2 = [⟨0, [⟨4⟩]⟩, ⟨1, [⟨4⟩]⟩, ⟨0, [⟨4⟩]⟩] := by cbv
  have hlength : (popped (run (.empty .priority) returning).2).length = 3 := by cbv
  obtain ⟨called, hserves, hnodup, htickets, -⟩ := run_serves .priority returning
  obtain ⟨-, -, -, -, hfifo, -⟩ := run_serves .fifo returning
  exact ⟨⟨called, hserves, hnodup, htickets.length_eq.trans hlength⟩, hpopped ▸ hfifo rfl⟩

end Agenda

end PlanSearch
