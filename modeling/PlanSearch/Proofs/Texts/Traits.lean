import PlanSearch.Proofs.Texts.Values
import PlanSearch.Trait.Basic

/-!
# The order of traits

Traits are ordered by their texts, which is a total order on texts and thus tells apart what is written differently. Orders
of rows and distributions are written with everything in them, so there it is an order on the traits themselves. Of a
convention the name is written, and a host may give it the name of a built-in one; of a host's value there is written what
its text tells. Apart from that, traits are on a par only if they are the same.

    a.isLegible → b.isLegible → (a.order b = .eq ↔ a.shown = b.shown)                        (Trait.order_eq_iff_shown)
    a.isFaithful → b.isFaithful → (a.order b = .eq ↔ a.Same b)                               (Trait.order_eq_iff_same)
    Trait.order, TraitSet.order: total; what is sorted is written alike however it was arranged     (TraitSet.order_tells)
-/

namespace PlanSearch

/-! ## Items between commas -/

/-- Items without a comma in them can be told from what they are written as together. -/
theorem intercalate_comma_inj : ∀ {xs ys : List String}, (∀ s ∈ xs, s ≠ "" ∧ ',' ∉ s.toList) →
    (∀ s ∈ ys, s ≠ "" ∧ ',' ∉ s.toList) → ", ".intercalate xs = ", ".intercalate ys → xs = ys
  | [], [], _, _, _ => rfl
  | [], [y], _, hy, h => absurd h.symm (hy y (by simp)).1
  | [x], [], hx, _, h => absurd h (hx x (by simp)).1
  | [], y :: y' :: ys, _, _, h => by
    rw [String.intercalate_cons_cons] at h
    exact absurd (congrArg String.toList h) (by simp)
  | x :: x' :: xs, [], _, _, h => by
    rw [String.intercalate_cons_cons] at h
    exact absurd (congrArg String.toList h) (by simp)
  | [x], [y], _, _, h => by
    rw [String.intercalate_singleton, String.intercalate_singleton] at h
    rw [h]
  | [x], y :: y' :: ys, hx, _, h => by
    rw [String.intercalate_singleton, String.intercalate_cons_cons] at h
    exact absurd (by rw [h]; simp) (hx x (by simp)).2
  | x :: x' :: xs, [y], _, hy, h => by
    rw [String.intercalate_singleton, String.intercalate_cons_cons] at h
    exact absurd (by rw [← h]; simp) (hy y (by simp)).2
  | x :: x' :: xs, y :: y' :: ys, hx, hy, h => by
    rw [String.intercalate_cons_cons, String.intercalate_cons_cons, ← String.toList_inj, String.append_assoc,
      String.append_assoc, String.toList_append, String.toList_append, String.toList_append, String.toList_append] at h
    obtain ⟨hfirst, hrest⟩ := Value.append_cons_inj (hx x (by simp)).2 (hy y (by simp)).2 h
    have htail : ", ".intercalate (x' :: xs) = ", ".intercalate (y' :: ys) :=
      String.toList_injective (List.cons.inj hrest).2
    rw [String.toList_injective hfirst,
      intercalate_comma_inj (fun s hs => hx s (List.mem_cons_of_mem _ hs)) (fun s hs => hy s (List.mem_cons_of_mem _ hs)) htail]

theorem not_mem_column {c : Char} (h : c.isDigit = false) (n : UInt64) : c ∉ (toString n).toList :=
  Value.not_mem_natText h n.toNat

theorem column_ne_empty (n : UInt64) : toString n ≠ "" := by
  obtain ⟨c, cs, hcons, -⟩ := Value.natText_cons n.toNat
  intro h
  rw [show toString n.toNat = "" from h] at hcons
  cases hcons

theorem column_inj {m n : UInt64} (h : (toString m).toList = (toString n).toList) : m = n :=
  UInt64.toNat_inj.1 (Nat.repr_injective (String.toList_injective h))

/-! ## Orders of rows and distributions -/

namespace SortKey

/-- How a key is written after its column. -/
def suffix (k : SortKey) : List Char :=
  (match k.direction with | .asc => ['a', 's', 'c'] | .desc => ['d', 'e', 's', 'c']) ++
    (if k.nullsFirst then [' ', 'n', 'u', 'l', 'l', 's', ' ', 'f', 'i', 'r', 's', 't'] else [])

theorem toList_text (k : SortKey) : k.text.toList = '#' :: ((toString k.column).toList ++ ' ' :: k.suffix) := by
  obtain ⟨column, direction, nullsFirst⟩ := k
  cases direction <;> cases nullsFirst <;> simp [text, suffix]

theorem text_chars (k : SortKey) : k.text ≠ "" ∧ ',' ∉ k.text.toList := by
  have hsuffix : ',' ∉ k.suffix := by
    obtain ⟨column, direction, nullsFirst⟩ := k
    cases direction <;> cases nullsFirst <;> simp [suffix]
  have hcolumn : ',' ∉ (toString k.column).toList := not_mem_column rfl _
  refine ⟨fun h => ?_, ?_⟩
  · have hlist := toList_text k
    rw [h] at hlist
    cases hlist
  · rw [toList_text]
    simp [hcolumn, hsuffix]

theorem text_injective : Function.Injective text := by
  intro k l h
  have hlist : k.text.toList = l.text.toList := by rw [h]
  rw [toList_text, toList_text, List.cons.injEq] at hlist
  obtain ⟨hcolumn, hsuffix⟩ := Value.append_cons_inj (not_mem_column rfl _) (not_mem_column rfl _) hlist.2
  obtain ⟨column, direction, nullsFirst⟩ := k
  obtain ⟨column', direction', nullsFirst'⟩ := l
  obtain rfl := column_inj hcolumn
  cases direction <;> cases nullsFirst <;> cases direction' <;> cases nullsFirst' <;> first | rfl | cases hsuffix

end SortKey

/-- An order of rows is written with all that is in it. -/
theorem Collation.text_injective : Function.Injective Collation.text := by
  intro a b h
  obtain ⟨keys⟩ := a
  obtain ⟨keys'⟩ := b
  simp only [text, List.isEmpty_iff] at h
  split at h
  · split at h
    · simp_all
    · rw [← String.toList_inj, String.toList_append, String.toList_append] at h
      cases h
  · split at h
    · rw [← String.toList_inj, String.toList_append, String.toList_append] at h
      cases h
    · rw [String.append_left_inj, String.append_right_inj] at h
      have hmap : keys.map SortKey.text = keys'.map SortKey.text :=
        intercalate_comma_inj (by simp [SortKey.text_chars]) (by simp [SortKey.text_chars]) h
      rw [List.map_injective_iff.2 SortKey.text_injective hmap]

namespace Distribution

/-- What the name of a distribution starts with. -/
def initial : Distribution → Char
  | any => 'a'
  | singleton => 's'
  | broadcast => 'b'
  | roundRobin => 'r'
  | hash _ => 'h'

theorem initial_eq {a b : Distribution} (h : a.text = b.text) : a.initial = b.initial := by
  have hinitial : ∀ d : Distribution, d.text.toList[5]? = some d.initial := by
    intro d
    cases d with
    | hash columns =>
      rw [text, String.toList_append, String.toList_append]
      rfl
    | _ => rfl
  exact Option.some.inj ((hinitial a).symm.trans (h ▸ hinitial b))

/-- A distribution is written with all that is in it. -/
theorem text_injective : Function.Injective text := by
  intro a b h
  have hinitial := initial_eq h
  cases a with
  | hash columns =>
    cases b with
    | hash columns' =>
      rw [text, text, String.append_left_inj, String.append_right_inj] at h
      have hchars : ∀ (columns : List UInt64), ∀ s ∈ columns.map toString, s ≠ "" ∧ ',' ∉ s.toList := by
        intro columns s hs
        obtain ⟨n, -, rfl⟩ := List.mem_map.1 hs
        exact ⟨column_ne_empty n, not_mem_column rfl n⟩
      have hinj : Function.Injective (toString : UInt64 → String) := fun m n h => column_inj (congrArg String.toList h)
      rw [List.map_injective_iff.2 hinj (intercalate_comma_inj (hchars columns) (hchars columns') h)]
    | _ => cases hinitial
  | _ => cases b <;> first | rfl | cases hinitial

end Distribution

/-! ## Conventions -/

namespace Convention

/-- What is written of a convention. -/
def name : Convention → String
  | any => "any"
  | logical => "logical"
  | named name => name

/-- The convention as far as its text tells: a host's that has the name of a built-in one is taken for that. -/
def shown : Convention → Convention
  | named name => if name = "any" then any else if name = "logical" then logical else named name
  | c => c

/-- The convention does not have the name of another. -/
def isProper : Convention → Bool
  | named name => name != "any" && name != "logical"
  | _ => true

theorem text_eq (c : Convention) : c.text = "conv:" ++ c.name := by
  cases c <;> rfl

theorem shown_eq (c : Convention) :
    c.shown = if c.name = "any" then any else if c.name = "logical" then logical else named c.name := by
  cases c <;> rfl

theorem name_shown (c : Convention) : c.shown.name = c.name := by
  rw [shown_eq]
  split
  · next h => rw [h]; rfl
  · split
    · next h => rw [h]; rfl
    · rfl

theorem text_eq_iff {a b : Convention} : a.text = b.text ↔ a.shown = b.shown := by
  rw [text_eq, text_eq, String.append_right_inj]
  constructor
  · intro h
    rw [shown_eq, shown_eq, h]
  · intro h
    rw [← name_shown a, ← name_shown b, h]

theorem shown_eq_self {c : Convention} (h : c.isProper = true) : c.shown = c := by
  cases c with
  | named name =>
    simp only [isProper, Bool.and_eq_true, bne_iff_ne, ne_eq] at h
    rw [shown, if_neg h.1, if_neg h.2]
  | _ => rfl

end Convention

/-! ## Traits -/

namespace Trait

/-- The trait as far as its text tells. -/
def shown : Trait → Trait
  | convention c => convention c.shown
  | custom v => custom v.shown
  | t => t

/-- What is in the trait can be told from its text. -/
def isLegible : Trait → Bool
  | custom v => v.isLegible
  | _ => true

/-- Nothing in the trait is lost in its text. -/
def isFaithful : Trait → Bool
  | convention c => c.isProper
  | custom v => v.isFaithful
  | _ => true

/-- What the text of a trait starts with. -/
def label : Trait → List Char
  | convention _ => ['c', 'o', 'n']
  | collation _ => ['c', 'o', 'l']
  | distribution _ => ['d', 'i', 's']
  | custom _ => ['c', 'u', 's']

theorem take_text (t : Trait) : t.text.toList.take 3 = t.label := by
  cases t with
  | convention c =>
    rw [text, Convention.text_eq, String.toList_append]
    rfl
  | collation c =>
    rw [text, Collation.text]
    split
    · rfl
    · rw [String.toList_append, String.toList_append]
      rfl
  | distribution d =>
    cases d with
    | hash columns =>
      rw [text, Distribution.text, String.toList_append, String.toList_append]
      rfl
    | _ => rfl
  | custom v =>
    rw [text, String.toList_append, String.toList_append]
    rfl

variable {a b : Trait}

/-- Traits are written alike exactly if the same is shown of them. -/
theorem text_eq_iff (ha : a.isLegible = true) (hb : b.isLegible = true) : a.text = b.text ↔ a.shown = b.shown := by
  have hlabel : a.text = b.text → a.label = b.label := fun h => by rw [← take_text, ← take_text, h]
  cases a with
  | convention c =>
    cases b with
    | convention d => simpa only [text, shown, convention.injEq] using Convention.text_eq_iff
    | _ => exact ⟨fun h => absurd (hlabel h) (by simp [label]), fun h => by cases h⟩
  | collation c =>
    cases b with
    | collation d => simpa only [text, shown, collation.injEq] using Collation.text_injective.eq_iff
    | _ => exact ⟨fun h => absurd (hlabel h) (by simp [label]), fun h => by cases h⟩
  | distribution c =>
    cases b with
    | distribution d => simpa only [text, shown, distribution.injEq] using Distribution.text_injective.eq_iff
    | _ => exact ⟨fun h => absurd (hlabel h) (by simp [label]), fun h => by cases h⟩
  | custom v =>
    cases b with
    | custom w =>
      simpa only [text, shown, custom.injEq, String.append_left_inj, String.append_right_inj] using Value.text_eq_iff ha hb
    | _ => exact ⟨fun h => absurd (hlabel h) (by simp [label]), fun h => by cases h⟩

/-- What is not shown is not written. -/
theorem text_shown (t : Trait) : t.shown.text = t.text := by
  cases t with
  | convention c => rw [shown, text, text, Convention.text_eq, Convention.text_eq, Convention.name_shown]
  | custom v => rw [shown, text, text, Value.text_shown]
  | _ => rfl

theorem isLegible_of_isFaithful (h : a.isFaithful = true) : a.isLegible = true := by
  cases a with
  | custom v =>
    rw [isFaithful, Value.isFaithful, Bool.and_eq_true] at h
    exact h.1
  | _ => rfl

theorem shown_eq_canon (h : a.isFaithful = true) : a.shown = a.canon := by
  cases a with
  | convention c => exact congrArg convention (Convention.shown_eq_self h)
  | custom v =>
    rw [isFaithful, Value.isFaithful, Bool.and_eq_true] at h
    rw [shown, canon, Value.shown_eq_canon h.2]
  | _ => rfl

theorem text_eq_iff_same (ha : a.isFaithful = true) (hb : b.isFaithful = true) : a.text = b.text ↔ a.Same b := by
  rw [text_eq_iff (isLegible_of_isFaithful ha) (isLegible_of_isFaithful hb), shown_eq_canon ha, shown_eq_canon hb]
  rfl

theorem order_eq_iff : a.order b = .eq ↔ a.text = b.text :=
  Std.LawfulEqOrd.compare_eq_iff_eq (a := a.text) (b := b.text)

instance : Std.TransCmp order := inferInstanceAs (Std.TransCmp (compareOn text))

end Trait

/-! ## Trait sets -/

/-- Two readings of items that agree on what is alike do so on lists. -/
theorem map_eq_map_iff {α β γ : Type} {p : α → Bool} {f : α → β} {g : α → γ}
    (h : ∀ a b, p a = true → p b = true → (f a = f b ↔ g a = g b)) :
    ∀ {as bs : List α}, as.all p = true → bs.all p = true → (as.map f = bs.map f ↔ as.map g = bs.map g)
  | [], [], _, _ => by simp
  | [], _ :: _, _, _ | _ :: _, [], _, _ => by simp
  | a :: as, b :: bs, ha, hb => by
    rw [List.all_cons, Bool.and_eq_true] at ha hb
    rw [List.map_cons, List.map_cons, List.map_cons, List.map_cons, List.cons.injEq, List.cons.injEq, h a b ha.1 hb.1,
      map_eq_map_iff h ha.2 hb.2]

namespace TraitSet

/-- The set with every trait as far as its text tells. -/
def shown (s : TraitSet) : TraitSet := ⟨s.traits.map Trait.shown⟩

/-- What is in the traits can be told from their texts. -/
def isLegible (s : TraitSet) : Bool := s.traits.all Trait.isLegible

/-- Nothing in the traits is lost in their texts. -/
def isFaithful (s : TraitSet) : Bool := s.traits.all Trait.isFaithful

/-- The texts of the traits, which sets are ordered by. -/
def texts (s : TraitSet) : List String := s.traits.map Trait.text

/-- The sets in order. -/
def sorted (l : List TraitSet) : List TraitSet := l.mergeSort fun a b => (a.order b).isLE

variable {a b : TraitSet} {l l' : List TraitSet}

theorem order_eq_iff : a.order b = .eq ↔ a.texts = b.texts :=
  Std.LawfulEqOrd.compare_eq_iff_eq (a := a.texts) (b := b.texts)

instance : Std.TransCmp order := inferInstanceAs (Std.TransCmp (compareOn texts))

theorem texts_eq_iff (ha : a.isLegible = true) (hb : b.isLegible = true) : a.texts = b.texts ↔ a.shown = b.shown := by
  rw [shown, shown, TraitSet.mk.injEq]
  exact map_eq_map_iff (fun _ _ => Trait.text_eq_iff) ha hb

theorem texts_eq_iff_same (ha : a.isFaithful = true) (hb : b.isFaithful = true) : a.texts = b.texts ↔ a.Same b := by
  rw [Same, canon, canon, TraitSet.mk.injEq]
  exact map_eq_map_iff (fun _ _ => Trait.text_eq_iff_same) ha hb

theorem texts_shown (s : TraitSet) : s.shown.texts = s.texts := by
  rw [shown, texts, texts, List.map_map]
  exact List.map_congr_left fun t _ => t.text_shown

theorem sorted_perm (l : List TraitSet) : (sorted l).Perm l := l.mergeSort_perm _

theorem sorted_pairwise (l : List TraitSet) : (sorted l).Pairwise fun a b => (a.order b).isLE = true := by
  refine List.pairwise_mergeSort (fun a b c => Std.TransCmp.isLE_trans) (fun a b => ?_) l
  rw [show b.order a = (a.order b).swap from Std.OrientedCmp.eq_swap]
  cases a.order b <;> rfl

/-- What is sorted is written alike, however it was arranged. -/
theorem texts_sorted (h : l.Perm l') : (sorted l).map texts = (sorted l').map texts := by
  have hsorted : ∀ l : List TraitSet, ((sorted l).map texts).Pairwise fun s t => (compare s t).isLE = true := by
    intro l
    exact List.pairwise_map.2 (sorted_pairwise l)
  have hperm : ((sorted l).map texts).Perm ((sorted l').map texts) :=
    (((sorted_perm l).trans h).trans (sorted_perm l').symm).map texts
  refine hperm.eq_of_pairwise (fun s t _ _ hst hts => ?_) (hsorted l) (hsorted l')
  exact Std.LawfulEqCmp.eq_of_compare (Std.OrientedCmp.isLE_antisymm hst hts)

/-- Where nothing is lost in the texts, what is sorted is the same, however it was arranged. -/
theorem canon_sorted (hl : l.all isFaithful = true) (h : l.Perm l') :
    (sorted l).map canon = (sorted l').map canon := by
  have hall : ∀ k : List TraitSet, k.Perm l → k.all isFaithful = true := fun k hk =>
    List.all_eq_true.2 fun s hs => List.all_eq_true.1 hl s (hk.subset hs)
  refine (map_eq_map_iff (fun a b ha hb => ?_) (hall _ (sorted_perm l)) (hall _ ((sorted_perm l').trans h.symm))).1
    (texts_sorted h)
  exact texts_eq_iff_same ha hb

end TraitSet

/-! ## What the order tells -/

/-- What it tells that two are on a par in an order by texts: the same is shown of them, where the texts are legible, and
they are the same, where nothing is lost in them. -/
structure OrderTells {α : Type} (order : α → α → Ordering) (shown : α → α) (same : α → α → Prop)
    (isLegible isFaithful : α → Bool) : Prop where
  total : Std.TransCmp order
  eq_of_shown : ∀ {a b}, shown a = shown b → order a b = .eq
  shown_of_eq : ∀ {a b}, isLegible a = true → isLegible b = true → order a b = .eq → shown a = shown b
  eq_iff_same : ∀ {a b}, isFaithful a = true → isFaithful b = true → (order a b = .eq ↔ same a b)

theorem Trait.order_tells_shown : OrderTells Trait.order Trait.shown Trait.Same Trait.isLegible Trait.isFaithful where
  total := inferInstance
  eq_of_shown {a b} h := order_eq_iff.2 (by rw [← text_shown a, ← text_shown b, h])
  shown_of_eq ha hb h := (text_eq_iff ha hb).1 (order_eq_iff.1 h)
  eq_iff_same ha hb := order_eq_iff.trans (text_eq_iff_same ha hb)

namespace TraitSet

theorem order_tells_shown : OrderTells order shown Same isLegible isFaithful where
  total := inferInstance
  eq_of_shown {a b} h := order_eq_iff.2 (by rw [← texts_shown a, ← texts_shown b, h])
  shown_of_eq ha hb h := (texts_eq_iff ha hb).1 (order_eq_iff.1 h)
  eq_iff_same ha hb := order_eq_iff.trans (texts_eq_iff_same ha hb)

/-- Traits and trait sets are totally ordered, and what is on a par is what is shown alike. So sets that are sorted are
written alike however they were arranged, and are the same where nothing is lost in their texts. -/
theorem order_tells :
    OrderTells Trait.order Trait.shown Trait.Same Trait.isLegible Trait.isFaithful ∧
    OrderTells order shown Same isLegible isFaithful ∧
    ∀ l l' : List TraitSet, l.Perm l' →
      (sorted l).Perm l ∧ ((sorted l).Pairwise fun a b => (a.order b).isLE = true) ∧
      (sorted l).map texts = (sorted l').map texts ∧
      (l.all isFaithful = true → (sorted l).map canon = (sorted l').map canon) :=
  ⟨Trait.order_tells_shown, order_tells_shown, fun l _ h =>
    ⟨sorted_perm l, sorted_pairwise l, texts_sorted h, fun hl => canon_sorted hl h⟩⟩

/-- A set that a host could require, with a value of its own in it. -/
def tagged (v : Value) : TraitSet :=
  ⟨[.convention (.named "row"), .collation (Collation.asc [0]), .distribution (.hash [1]), .custom v]⟩

theorem tagged_order :
    (tagged (.string "x")).order (tagged (.string "y")) ≠ .eq ∧
    (tagged (.bytes [1])).order (tagged (.bytes [2])) = .eq ∧
    (tagged (.bytes [1])).shown = (tagged (.bytes [2])).shown ∧
    (sorted [tagged (.string "x"), tagged (.string "y")]).map canon =
      (sorted [tagged (.string "y"), tagged (.string "x")]).map canon :=
  ⟨fun h => absurd ((order_tells.2.1.eq_iff_same (by decide) (by decide)).1 h) (by decide),
    order_tells.2.1.eq_of_shown (by decide),
    order_tells.2.1.shown_of_eq (by decide) (by decide) (by decide),
    (order_tells.2.2 _ _ (List.Perm.swap _ _ _)).2.2.2 (by decide)⟩

/-- A set with a number of the host's in it. -/
def scored (x : Binary64) : TraitSet := ⟨[.custom (.float x), .collation ⟨[]⟩]⟩

/-- The two zeros are the same but are not on a par. A named convention is on a par with the built-in one of that name,
bytes with others of their number, and one text in a list with two if it is quoted like two; none of these are the same. -/
theorem order_is_by_text :
    ((scored ⟨0x8000000000000000⟩).Same (scored ⟨0⟩) ∧ (scored ⟨0x8000000000000000⟩).order (scored ⟨0⟩) = .lt) ∧
    (Trait.order (.convention (.named "any")) (.convention .any) = .eq ∧
      ¬ Trait.Same (.convention (.named "any")) (.convention .any)) ∧
    (Trait.order (.custom (.bytes [1])) (.custom (.bytes [2])) = .eq ∧
      ¬ Trait.Same (.custom (.bytes [1])) (.custom (.bytes [2]))) ∧
    (Trait.order (.custom (.list [.string "x\", \"y"])) (.custom (.list [.string "x", .string "y"])) = .eq ∧
      ¬ Trait.Same (.custom (.list [.string "x\", \"y"])) (.custom (.list [.string "x", .string "y"]))) := by
  decide

end TraitSet

end PlanSearch
