import PlanSearch.Proofs.Decimal.Shortest
import PlanSearch.Value

/-!
# What the text of a value tells

Text ends by itself: after a number comes its type, and everything else is closed by what it was opened with, so that it can
be told from what follows. So two values are written alike only if they are the same but for what is not written: bytes are
counted only, and of what is no number it is written that it is none. The one exception is text inside a list. It is quoted
as it stands, so a quote in it can be taken for its end where a comma or a bracket comes next.

    v.isLegible → w.isLegible → (v.text = w.text ↔ v.shown = w.shown)                               (text_eq_iff)
    v.isFaithful → w.isFaithful → (v.text = w.text ↔ v.Same w)                                      (text_eq_iff_same)
-/

namespace PlanSearch

namespace Value

/-! ## What is written -/

/-- What comes after an item of a list. -/
def follows (c : Option Char) : Bool := c == some ',' || c == some ']'

/-- Somewhere in the text a quote looks like the end of an item. -/
def breaksOff : List Char → Bool
  | [] => false
  | c :: cs => c == '"' && follows cs.head? || breaksOff cs

mutual

/-- No text in the value seems to end before its end. -/
def isUnbroken : Value → Bool
  | string s => !breaksOff s.toList
  | list vs => areUnbroken vs
  | _ => true

/-- No text in any of the values seems to end before its end. -/
def areUnbroken : List Value → Bool
  | [] => true
  | v :: vs => v.isUnbroken && areUnbroken vs

end

/-- No text in a list seems to end before its end; a text that is not in a list may. -/
def isLegible : Value → Bool
  | string _ => true
  | v => v.isUnbroken

mutual

/-- The value as far as its text tells: the number of the bytes alone, and not what kind of no number. -/
def shown : Value → Value
  | float x => float (if x.isNaN then x.canon else x)
  | list vs => list (shownAll vs)
  | bytes bs => bytes (List.replicate bs.length 0)
  | v => v

/-- Every value as far as its text tells. -/
def shownAll : List Value → List Value
  | [] => []
  | v :: vs => v.shown :: shownAll vs

end

mutual

/-- The value has no bytes and no negative zero in it. -/
def isPlain : Value → Bool
  | float x => !(x.isZero && x.isNegative)
  | list vs => arePlain vs
  | bytes _ => false
  | _ => true

/-- None of the values has bytes or a negative zero in it. -/
def arePlain : List Value → Bool
  | [] => true
  | v :: vs => v.isPlain && arePlain vs

end

/-- Nothing in the value is lost in its text, and nothing is in its text that is not in the value. -/
def isFaithful (v : Value) : Bool := v.isLegible && v.isPlain

/-! ## Characters -/

/-- The number in front of the type. -/
def numeral : Value → List Char
  | u64 n => (toString n).toList
  | i64 n => (toString n).toList
  | float x => x.text.toList
  | _ => []

/-- The type in parentheses, without the one that opens. -/
def typeName : Value → List Char
  | u64 _ => ['u', '6', '4', ')']
  | i64 _ => ['i', '6', '4', ')']
  | float _ => ['f', 'l', 'o', 'a', 't', ')']
  | _ => []

/-- What text can start with. -/
inductive Lead where
  | number
  | quote
  | truth
  | bracket
  | angle
deriving DecidableEq

/-- What the text of a value starts with. -/
def lead : Value → Lead
  | u64 _ | i64 _ | float _ => .number
  | string _ => .quote
  | bool _ => .truth
  | list _ => .bracket
  | bytes _ => .angle

/-- What a character starts. -/
def leadOf (c : Char) : Option Lead :=
  if c = '"' then some .quote
  else if c = 't' ∨ c = 'f' then some .truth
  else if c = '[' then some .bracket
  else if c = '<' then some .angle
  else if c.isDigit ∨ c ∈ ['.', '-', 'i', 'N'] then some .number
  else none

theorem leadOf_number {c : Char} (h : c.isDigit = true ∨ c ∈ ['.', '-', 'i', 'N']) : leadOf c = some .number := by
  have hne : ∀ d : Char, d.isDigit = false → d ∉ ['.', '-', 'i', 'N'] → c ≠ d := by
    rintro d hdigit hother rfl
    rcases h with h | h
    · rw [hdigit] at h
      cases h
    · exact hother h
  unfold leadOf
  rw [if_neg (hne '"' rfl (by decide)), if_neg (not_or.2 ⟨hne 't' rfl (by decide), hne 'f' rfl (by decide)⟩),
    if_neg (hne '[' rfl (by decide)), if_neg (hne '<' rfl (by decide)), if_pos h]

theorem text_number {v : Value} (h : v.lead = .number) : v.text.toList = v.numeral ++ '(' :: v.typeName := by
  cases v with
  | u64 n => rw [text, String.toList_append]; rfl
  | i64 n => rw [text, String.toList_append]; rfl
  | float x => rw [text, String.toList_append]; rfl
  | _ => cases h

theorem text_string (t : String) : (string t).text.toList = '"' :: (t.toList ++ ['"']) := by
  rw [text, String.toList_append, String.toList_append]
  rfl

theorem text_bytes (bs : List UInt8) :
    (bytes bs).text.toList = '<' :: 'l' :: 'e' :: 'n' :: ':' :: ((toString bs.length).toList ++ ['>']) := by
  rw [text, String.toList_append, String.toList_append, List.append_assoc]
  rfl

/-- What follows an item of a list. -/
def following : List Value → List Char
  | [] => [']']
  | v :: vs => ',' :: ' ' :: (v.text.toList ++ following vs)

/-- What follows the bracket that opens a list. -/
def items : List Value → List Char
  | [] => [']']
  | v :: vs => v.text.toList ++ following vs

theorem text_list (vs : List Value) : (list vs).text.toList = '[' :: items vs := by
  have hfollowing : ∀ (v : Value) (vs : List Value),
      (", ".intercalate (textAll (v :: vs))).toList ++ [']'] = v.text.toList ++ following vs := by
    intro v vs
    induction vs generalizing v with
    | nil => simp [textAll, following]
    | cons w vs ih =>
      rw [textAll, textAll, String.intercalate_cons_cons, String.toList_append, String.toList_append, List.append_assoc,
        show w.text :: textAll vs = textAll (w :: vs) from rfl, ih w, following, List.append_assoc]
      rfl
  cases vs with
  | nil => rfl
  | cons v vs =>
    rw [text, String.toList_append, String.toList_append, List.append_assoc]
    exact congrArg ('[' :: ·) (hfollowing v vs)

theorem toList_natText (n : Nat) : (toString n).toList = Nat.toDigits 10 n := by
  rw [Nat.toString_eq_repr, Nat.toList_repr]

/-- The text of a number holds digits only. -/
theorem not_mem_natText {c : Char} (h : c.isDigit = false) (n : Nat) : c ∉ (toString n).toList := by
  rw [toList_natText]
  intro hmem
  rw [Decimal.isDigit_of_mem_digits hmem] at h
  cases h

theorem natText_cons (n : Nat) : ∃ c cs, (toString n).toList = c :: cs ∧ c.isDigit = true := by
  rw [toList_natText]
  obtain ⟨c, cs, hcons⟩ := List.exists_cons_of_ne_nil (Nat.toDigits_ne_nil (n := n) (b := 10))
  exact ⟨c, cs, hcons, Decimal.isDigit_of_mem_digits (hcons ▸ List.mem_cons_self)⟩

theorem intText_chars (n : Int) : '(' ∉ (toString n).toList ∧
    ∃ c cs, (toString n).toList = c :: cs ∧ (c.isDigit = true ∨ c ∈ ['.', '-', 'i', 'N']) := by
  rw [Int.toString_eq_repr, Int.repr_eq_if]
  split
  · rw [← Nat.toString_eq_repr]
    obtain ⟨c, cs, hcons, hdigit⟩ := natText_cons n.toNat
    exact ⟨not_mem_natText rfl _, c, cs, hcons, .inl hdigit⟩
  · rw [String.toList_append, ← Nat.toString_eq_repr]
    exact ⟨by simpa using not_mem_natText rfl _, '-', _, rfl, .inr (by decide)⟩

/-- There is no parenthesis in a number, and it starts like one. -/
theorem numeral_chars {v : Value} (h : v.lead = .number) : '(' ∉ v.numeral ∧
    ∃ c cs, v.numeral = c :: cs ∧ (c.isDigit = true ∨ c ∈ ['.', '-', 'i', 'N']) := by
  cases v with
  | u64 n =>
    obtain ⟨c, cs, hcons, hdigit⟩ := natText_cons n.toNat
    exact ⟨not_mem_natText rfl n.toNat, c, cs, hcons, .inl hdigit⟩
  | i64 n => exact intText_chars n.toInt
  | float x => exact x.text_chars
  | _ => cases h

/-- The first character of the text of a value tells what it starts. -/
theorem exists_lead (v : Value) : ∃ c cs, v.text.toList = c :: cs ∧ leadOf c = some v.lead := by
  have hnumber : v.lead = .number → ∃ c cs, v.text.toList = c :: cs ∧ leadOf c = some .number := by
    intro h
    obtain ⟨-, c, cs, hcons, hc⟩ := numeral_chars h
    exact ⟨c, cs ++ '(' :: v.typeName, by rw [text_number h, hcons]; rfl, leadOf_number hc⟩
  cases v with
  | string s => exact ⟨'"', _, text_string s, rfl⟩
  | bool b =>
    cases b with
    | false => exact ⟨'f', ['a', 'l', 's', 'e'], rfl, rfl⟩
    | true => exact ⟨'t', ['r', 'u', 'e'], rfl, rfl⟩
  | list vs => exact ⟨'[', items vs, text_list vs, rfl⟩
  | bytes bs => exact ⟨'<', _, text_bytes bs, rfl⟩
  | u64 n => exact hnumber rfl
  | i64 n => exact hnumber rfl
  | float x => exact hnumber rfl

/-! ## Text ends by itself -/

/-- What is closed by a character that is not in it can be told from what follows. -/
theorem append_cons_inj {c : Char} {a b x y : List Char} (ha : c ∉ a) (hb : c ∉ b) (h : a ++ c :: x = b ++ c :: y) :
    a = b ∧ x = y := by
  induction a generalizing b with
  | nil =>
    cases b with
    | nil => exact ⟨rfl, (List.cons.inj h).2⟩
    | cons d b => exact absurd ((List.cons.inj h).1 ▸ List.mem_cons_self) hb
  | cons d a ih =>
    cases b with
    | nil => exact absurd ((List.cons.inj h).1 ▸ List.mem_cons_self) ha
    | cons e b =>
      obtain ⟨rfl, htail⟩ := List.cons.inj h
      obtain ⟨rfl, rfl⟩ := ih (fun hmem => ha (List.mem_cons_of_mem _ hmem))
        (fun hmem => hb (List.mem_cons_of_mem _ hmem)) htail
      exact ⟨rfl, rfl⟩

/-- So is what is closed by a quote, where no quote in it looks like the one that closes. -/
theorem append_quote_inj {a b x y : List Char} (ha : breaksOff a = false) (hb : breaksOff b = false)
    (hx : follows x.head? = true) (hy : follows y.head? = true) (h : a ++ '"' :: x = b ++ '"' :: y) : a = b ∧ x = y := by
  have hlonger : ∀ {d : Char} {b x y : List Char}, breaksOff (d :: b) = false → follows x.head? = true →
      '"' :: x ≠ d :: b ++ '"' :: y := by
    rintro d b x y hb hx h
    obtain ⟨rfl, rfl⟩ := List.cons.inj h
    cases b with
    | nil => cases hx
    | cons e b =>
      have hbreak : breaksOff ('"' :: e :: b) = true := by
        rw [breaksOff, show follows (e :: b).head? = true from hx]
        rfl
      rw [hbreak] at hb
      cases hb
  induction a generalizing b with
  | nil =>
    cases b with
    | nil => exact ⟨rfl, (List.cons.inj h).2⟩
    | cons d b => exact absurd h (hlonger hb hx)
  | cons d a ih =>
    cases b with
    | nil => exact absurd h.symm (hlonger ha hy)
    | cons e b =>
      obtain ⟨rfl, htail⟩ := List.cons.inj h
      rw [breaksOff, Bool.or_eq_false_iff] at ha hb
      obtain ⟨rfl, rfl⟩ := ih ha.2 hb.2 htail
      exact ⟨rfl, rfl⟩

variable {v w : Value} {r s : List Char}

theorem lead_eq (h : v.text.toList ++ r = w.text.toList ++ s) : v.lead = w.lead := by
  obtain ⟨c, cs, hv, hc⟩ := exists_lead v
  obtain ⟨d, ds, hw, hd⟩ := exists_lead w
  rw [hv, hw] at h
  obtain ⟨rfl, -⟩ := List.cons.inj h
  exact Option.some.inj (hc.symm.trans hd)

/-- After a number comes its type. -/
theorem shown_eq_of_number (hv : v.lead = .number) (hw : w.lead = .number)
    (h : v.text.toList ++ r = w.text.toList ++ s) : v.shown = w.shown ∧ r = s := by
  rw [text_number hv, text_number hw, List.append_assoc, List.append_assoc, List.cons_append, List.cons_append] at h
  obtain ⟨hnumeral, htype⟩ := append_cons_inj (numeral_chars hv).1 (numeral_chars hw).1 h
  cases v with
  | u64 m =>
    cases w with
    | u64 n =>
      have hnat : m.toNat = n.toNat := Nat.repr_injective (String.toList_injective hnumeral)
      rw [UInt64.toNat_inj.1 hnat]
      exact ⟨rfl, List.append_cancel_left htype⟩
    | i64 n => cases (List.cons.inj htype).1
    | float x => cases (List.cons.inj htype).1
    | _ => cases hw
  | i64 m =>
    cases w with
    | i64 n =>
      have hint : m.toInt = n.toInt := Int.repr_injective (String.toList_injective hnumeral)
      rw [Int64.toInt_inj.1 hint]
      exact ⟨rfl, List.append_cancel_left htype⟩
    | u64 n => cases (List.cons.inj htype).1
    | float x => cases (List.cons.inj htype).1
    | _ => cases hw
  | float x =>
    cases w with
    | float y =>
      refine ⟨?_, List.append_cancel_left htype⟩
      rcases Binary64.text_eq_iff.1 (String.toList_injective hnumeral) with rfl | ⟨hx, hy⟩
      · rfl
      · simp [shown, hx, hy, Binary64.canon]
    | u64 n => cases (List.cons.inj htype).1
    | i64 n => cases (List.cons.inj htype).1
    | _ => cases hw
  | _ => cases hv

/-- Bytes that are counted alike are as many. -/
theorem shown_eq_of_bytes {bs cs : List UInt8} (h : (bytes bs).text.toList ++ r = (bytes cs).text.toList ++ s) :
    (bytes bs).shown = (bytes cs).shown ∧ r = s := by
  rw [text_bytes, text_bytes] at h
  simp only [List.cons_append, List.cons.injEq, true_and, List.append_assoc, List.nil_append] at h
  obtain ⟨hcount, rfl⟩ := append_cons_inj (not_mem_natText rfl _) (not_mem_natText rfl _) h
  have hlength : bs.length = cs.length := Nat.repr_injective (String.toList_injective hcount)
  exact ⟨by rw [shown, shown, hlength], rfl⟩

theorem shown_eq_of_truth {b c : Bool} (h : (bool b).text.toList ++ r = (bool c).text.toList ++ s) :
    (bool b).shown = (bool c).shown ∧ r = s := by
  cases b with
  | true =>
    cases c with
    | true => exact ⟨rfl, List.append_cancel_left h⟩
    | false => cases (List.cons.inj h).1
  | false =>
    cases c with
    | true => cases (List.cons.inj h).1
    | false => exact ⟨rfl, List.append_cancel_left h⟩

theorem follows_following (vs : List Value) (r : List Char) : follows (following vs ++ r).head? = true := by
  cases vs <;> rfl

mutual

/-- The text of an item ends by itself and tells what is shown. -/
theorem shown_eq_of_append_eq : ∀ {v w : Value} {r s : List Char}, v.isUnbroken = true → w.isUnbroken = true →
    follows r.head? = true → follows s.head? = true → v.text.toList ++ r = w.text.toList ++ s →
      v.shown = w.shown ∧ r = s
  | u64 _, w, r, s, _, _, _, _, h | i64 _, w, r, s, _, _, _, _, h | float _, w, r, s, _, _, _, _, h =>
    shown_eq_of_number rfl (lead_eq h).symm h
  | string t, w, r, s, hv, hw, hr, hs, h => by
    have hlead := lead_eq h
    cases w with
    | string u =>
      simp only [isUnbroken, Bool.not_eq_true'] at hv hw
      rw [text_string, text_string] at h
      simp only [List.cons_append, List.cons.injEq, true_and, List.append_assoc, List.nil_append] at h
      obtain ⟨htext, rfl⟩ := append_quote_inj hv hw hr hs h
      exact ⟨by rw [String.toList_injective htext], rfl⟩
    | _ => cases hlead
  | bool b, w, r, s, _, _, _, _, h => by
    have hlead := lead_eq h
    cases w with
    | bool c => exact shown_eq_of_truth h
    | _ => cases hlead
  | bytes _, w, r, s, _, _, _, _, h => by
    have hlead := lead_eq h
    cases w with
    | bytes _ => exact shown_eq_of_bytes h
    | _ => cases hlead
  | list vs, w, r, s, hv, hw, _, _, h => by
    have hlead := lead_eq h
    cases w with
    | list ws =>
      rw [text_list, text_list] at h
      simp only [List.cons_append, List.cons.injEq, true_and] at h
      obtain ⟨hshown, rfl⟩ := shownAll_eq_of_items_eq hv hw h
      exact ⟨by rw [shown, shown, hshown], rfl⟩
    | _ => cases hlead

/-- So does what follows the bracket that opens a list, whatever comes after the list. -/
theorem shownAll_eq_of_items_eq : ∀ {vs ws : List Value} {r s : List Char}, areUnbroken vs = true → areUnbroken ws = true →
    items vs ++ r = items ws ++ s → shownAll vs = shownAll ws ∧ r = s
  | [], [], _, _, _, _, h => ⟨rfl, List.append_cancel_left h⟩
  | [], w :: _, _, _, _, _, h => by
    obtain ⟨c, cs, hw, hc⟩ := exists_lead w
    rw [items, items, hw] at h
    obtain ⟨rfl, -⟩ := List.cons.inj h
    cases hc
  | v :: _, [], _, _, _, _, h => by
    obtain ⟨c, cs, hv, hc⟩ := exists_lead v
    rw [items, items, hv] at h
    obtain ⟨rfl, -⟩ := List.cons.inj h
    cases hc
  | v :: vs, w :: ws, r, s, hv, hw, h => by
    rw [areUnbroken, Bool.and_eq_true] at hv hw
    rw [items, items, List.append_assoc, List.append_assoc] at h
    obtain ⟨hshown, hfollowing⟩ := shown_eq_of_append_eq hv.1 hw.1 (follows_following vs r) (follows_following ws s) h
    obtain ⟨hrest, rfl⟩ := shownAll_eq_of_following_eq hv.2 hw.2 hfollowing
    exact ⟨by rw [shownAll, shownAll, hshown, hrest], rfl⟩

/-- And what follows an item. -/
theorem shownAll_eq_of_following_eq : ∀ {vs ws : List Value} {r s : List Char}, areUnbroken vs = true →
    areUnbroken ws = true → following vs ++ r = following ws ++ s → shownAll vs = shownAll ws ∧ r = s
  | [], [], _, _, _, _, h => ⟨rfl, List.append_cancel_left h⟩
  | [], _ :: _, _, _, _, _, h | _ :: _, [], _, _, _, _, h => by cases (List.cons.inj h).1
  | v :: vs, w :: ws, r, s, hv, hw, h => by
    rw [areUnbroken, Bool.and_eq_true] at hv hw
    simp only [following, List.cons_append, List.cons.injEq, true_and, List.append_assoc] at h
    obtain ⟨hshown, hfollowing⟩ := shown_eq_of_append_eq hv.1 hw.1 (follows_following vs r) (follows_following ws s) h
    obtain ⟨hrest, rfl⟩ := shownAll_eq_of_following_eq hv.2 hw.2 hfollowing
    exact ⟨by rw [shownAll, shownAll, hshown, hrest], rfl⟩

end

/-! ## What is written and what is the same -/

mutual

/-- What is not shown is not written. -/
theorem text_shown : ∀ v : Value, v.shown.text = v.text
  | u64 _ | i64 _ | string _ | bool _ => rfl
  | float x => by
    rw [shown, text, text]
    split
    · rename_i hx
      rw [Binary64.text_eq_iff.2 (.inr ⟨(Binary64.isNaN_canon x).trans hx, hx⟩)]
    · rfl
  | list vs => by rw [shown, text, text, textAll_shownAll vs]
  | bytes bs => by rw [shown, text, text, List.length_replicate]

/-- What is not shown of the items is not written. -/
theorem textAll_shownAll : ∀ vs : List Value, textAll (shownAll vs) = textAll vs
  | [] => rfl
  | v :: vs => by rw [shownAll, textAll, textAll, text_shown v, textAll_shownAll vs]

end

/-- Values are written alike exactly if the same is shown of them. -/
theorem text_eq_iff (hv : v.isLegible = true) (hw : w.isLegible = true) : v.text = w.text ↔ v.shown = w.shown := by
  constructor
  · intro h
    have happend : v.text.toList ++ [] = w.text.toList ++ [] := by rw [h]
    have hlead := lead_eq happend
    cases v with
    | u64 _ | i64 _ | float _ => exact (shown_eq_of_number rfl hlead.symm happend).1
    | string t =>
      cases w with
      | string u =>
        rw [text_string, text_string] at happend
        simp only [List.append_nil, List.cons.injEq, true_and] at happend
        rw [String.toList_injective (List.append_cancel_right happend)]
      | _ => cases hlead
    | bool b =>
      cases w with
      | bool c => exact (shown_eq_of_truth happend).1
      | _ => cases hlead
    | bytes bs =>
      cases w with
      | bytes cs => exact (shown_eq_of_bytes happend).1
      | _ => cases hlead
    | list vs =>
      cases w with
      | list ws =>
        rw [text_list, text_list] at happend
        simp only [List.cons_append, List.cons.injEq, true_and] at happend
        rw [shown, shown, (shownAll_eq_of_items_eq hv hw happend).1]
      | _ => cases hlead
  · intro h
    rw [← text_shown v, ← text_shown w, h]

mutual

/-- A plain value is shown as it is compared. -/
theorem shown_eq_canon : ∀ {v : Value}, v.isPlain = true → v.shown = v.canon
  | u64 _, _ | i64 _, _ | string _, _ | bool _, _ => rfl
  | bytes _, h => by cases h
  | float x, h => by
    rw [shown, canon]
    split
    · rfl
    · rename_i hnan
      rw [Binary64.canon_eq_self (by simpa using hnan) (fun hzero => by simpa [isPlain, hzero] using h)]
  | list vs, h => by rw [shown, canon, shownAll_eq_canonAll h]

/-- Plain values are shown as they are compared. -/
theorem shownAll_eq_canonAll : ∀ {vs : List Value}, arePlain vs = true → shownAll vs = canonAll vs
  | [], _ => rfl
  | v :: vs, h => by
    rw [arePlain, Bool.and_eq_true] at h
    rw [shownAll, canonAll, shown_eq_canon h.1, shownAll_eq_canonAll h.2]

end

/-- Values in which nothing is lost are written alike exactly if they are the same. -/
theorem text_eq_iff_same (hv : v.isFaithful = true) (hw : w.isFaithful = true) : v.text = w.text ↔ v.Same w := by
  simp only [isFaithful, Bool.and_eq_true] at hv hw
  rw [text_eq_iff hv.1 hw.1, shown_eq_canon hv.2, shown_eq_canon hw.2]
  rfl

end Value

end PlanSearch
