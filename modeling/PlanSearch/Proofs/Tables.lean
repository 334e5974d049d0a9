import PlanSearch.Memo.Basic

/-!
# Tables

Look-ups in a table after a change, where the order of the keys agrees with their equality. A key is
then the one that was changed, or it is not.

    (t.insert a v)[b]? = if b = a then some v else t[b]?        (getElem?_insert_eq)
    (t.modify a f)[b]? = if b = a then t[b]?.map f else t[b]?   (getElem?_modify_eq)
-/

namespace PlanSearch

namespace Tables

variable {α β γ : Type} [Ord α] [Std.TransOrd α] [Std.LawfulEqOrd α] [DecidableEq α]

omit [Std.TransOrd α] [DecidableEq α] in
theorem compare_eq_iff {a b : α} : compare a b = .eq ↔ b = a :=
  ⟨fun h => (Std.LawfulEqOrd.eq_of_compare h).symm, fun h => h ▸ Std.ReflOrd.compare_self⟩

/-! ## Single changes -/

theorem getElem?_insert_eq (t : Std.TreeMap α β) (a b : α) (v : β) :
    (t.insert a v)[b]? = if b = a then some v else t[b]? := by
  rw [Std.TreeMap.getElem?_insert]
  simp only [compare_eq_iff]

omit [Std.LawfulEqOrd α] [DecidableEq α] in
theorem size_insert_of_not_mem {t : Std.TreeMap α β} {a : α} (v : β) (h : a ∉ t) :
    (t.insert a v).size = t.size + 1 := by
  rw [Std.TreeMap.size_insert, if_neg (mt Std.TreeMap.contains_iff_mem.1 h)]

theorem getElem?_erase_eq (t : Std.TreeMap α β) (a b : α) :
    (t.erase a)[b]? = if b = a then none else t[b]? := by
  rw [Std.TreeMap.getElem?_erase]
  simp only [compare_eq_iff]

theorem getElem?_modify_eq (t : Std.TreeMap α β) (a b : α) (f : β → β) :
    (t.modify a f)[b]? = if b = a then t[b]?.map f else t[b]? := by
  rw [Std.TreeMap.getElem?_modify]
  simp only [compare_eq_iff]
  split
  · next h => rw [h]
  · rfl

open Std.DTreeMap.Internal in
omit [Std.TransOrd α] [Std.LawfulEqOrd α] [DecidableEq α] in
theorem values_eq_map_toList (t : Std.TreeMap α β) : t.values = t.toList.map Prod.snd := by
  show Impl.values t.inner.inner = (Impl.Const.toList t.inner.inner).map Prod.snd
  rw [Impl.values_eq_map_snd, Impl.Const.toList_eq_toListModel_map, List.map_map]
  rfl

/-- What a change of the record at one key shows through a view. -/
theorem map_getElem?_modify (view : β → γ) (f : β → β) (F : γ → γ)
    (hf : ∀ b, view (f b) = F (view b)) (t : Std.TreeMap α β) (a b : α) :
    ((t.modify a f)[b]?).map view = if b = a then ((t[b]?).map view).map F else (t[b]?).map view := by
  rw [getElem?_modify_eq]
  split
  · cases t[b]? <;> simp [hf]
  · rfl

/-! ## Changes at several keys -/

/-- Where one more change of a record does not show any more, only whether a key is changed at all
shows. -/
theorem map_getElem?_foldl_modify (view : β → γ) (f : β → β) (F : γ → γ)
    (hf : ∀ b, view (f b) = F (view b)) (hF : ∀ c, F (F c) = F c) {ι : Type} (key : ι → α)
    (is : List ι) (t : Std.TreeMap α β) (a : α) :
    ((is.foldl (fun t i => t.modify (key i) f) t)[a]?).map view =
      if is.any fun i => key i = a then ((t[a]?).map view).map F else (t[a]?).map view := by
  induction is generalizing t with
  | nil => simp
  | cons i is ih =>
    rw [List.foldl_cons, ih, map_getElem?_modify view f F hf, List.any_cons]
    by_cases hi : a = key i
    · subst hi
      cases t[key i]? <;> simp [hF]
    · simp [hi, Ne.symm hi]

/-- A change of the records at some keys, where it does not matter how often one is changed. -/
theorem getElem?_foldl_modify_key (f : β → β) (hf : ∀ b, f (f b) = f b) (ks : List α)
    (t : Std.TreeMap α β) (a : α) :
    (ks.foldl (fun t k => t.modify k f) t)[a]? = if a ∈ ks then t[a]?.map f else t[a]? := by
  have h := map_getElem?_foldl_modify id f f (fun _ => rfl) hf id ks t a
  simp only [Option.map_id_fun, id_eq, List.any_eq_true, decide_eq_true_eq, exists_eq_right] at h
  exact h

end Tables

/-! ## Lists that are searched -/

/-- The first that passes is the only one that passes. -/
theorem find?_eq_some_of_unique {α : Type} {p : α → Bool} {xs : List α} {x : α} (hx : x ∈ xs)
    (hp : p x = true) (hu : ∀ y ∈ xs, p y = true → y = x) : xs.find? p = some x := by
  cases h : xs.find? p with
  | none => exact absurd hp (List.find?_eq_none.1 h x hx)
  | some y => rw [hu y (List.mem_of_find?_eq_some h) (List.find?_some h)]

/-- Two entries of a list that are the same one way and the other are one entry, if no two are. -/
theorem eq_of_pairwise_not {α : Type} {R : α → α → Prop} {xs : List α}
    (h : xs.Pairwise fun a b => ¬ R a b) {a b : α} (ha : a ∈ xs) (hb : b ∈ xs) (hab : R a b)
    (hba : R b a) : a = b := by
  induction h with
  | nil => cases ha
  | cons hx _ ih =>
    rcases List.mem_cons.1 ha with rfl | ha' <;> rcases List.mem_cons.1 hb with rfl | hb'
    · rfl
    · exact absurd hab (hx b hb')
    · exact absurd hba (hx a ha')
    · exact ih ha' hb'

end PlanSearch
