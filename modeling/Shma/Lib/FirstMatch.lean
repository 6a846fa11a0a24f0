import Mathlib.Data.List.Perm.Basic

/-!
# Updating the first match

A loop over an array that changes the first element that meets a condition and then stops.
What it does to the keys of the elements depends only on the keys of that element before
and after.
-/
namespace Shma.Lib

variable {α β : Type*} {p : α → Bool} {f : α → α} {l : List α} {k : α → Option β}

def updateFirst (p : α → Bool) (f : α → α) : List α → List α
  | [] => []
  | a :: l => if p a then f a :: l else a :: updateFirst p f l

theorem updateFirst_of_forall (h : ∀ a ∈ l, p a = false) : updateFirst p f l = l := by
  induction l with
  | nil => rfl
  | cons a l ih =>
    rw [updateFirst, h a List.mem_cons_self, ih fun b hb => h b (List.mem_cons_of_mem a hb)]
    rfl

theorem updateFirst_of_exists (h : ∃ a ∈ l, p a = true) (f : α → α) :
    ∃ l1 a l2, l = l1 ++ a :: l2 ∧ p a = true ∧ updateFirst p f l = l1 ++ f a :: l2 := by
  induction l with
  | nil =>
    obtain ⟨a, ha, -⟩ := h
    cases ha
  | cons b l ih =>
    by_cases hb : p b = true
    · exact ⟨[], b, l, rfl, hb, if_pos hb⟩
    · obtain ⟨a, ha, hpa⟩ := h
      have hal : a ∈ l := by
        rcases List.mem_cons.mp ha with rfl | hal
        · exact absurd hpa hb
        · exact hal
      obtain ⟨l1, c, l2, hl, hc, hupdate⟩ := ih ⟨a, hal, hpa⟩
      refine ⟨b :: l1, c, l2, congrArg (b :: ·) hl, hc, ?_⟩
      rw [updateFirst, if_neg hb, hupdate]
      rfl

theorem updateFirst_cases (p : α → Bool) (f : α → α) (l : List α) :
    updateFirst p f l = l ∨ ∃ l1 a l2, l = l1 ++ a :: l2 ∧ p a = true ∧ updateFirst p f l = l1 ++ f a :: l2 := by
  by_cases h : ∃ a ∈ l, p a = true
  · exact .inr (updateFirst_of_exists h f)
  · refine .inl (updateFirst_of_forall fun a ha => ?_)
    exact Bool.eq_false_iff.mpr fun hpa => h ⟨a, ha, hpa⟩

theorem length_updateFirst : (updateFirst p f l).length = l.length := by
  obtain h | ⟨l1, a, l2, hl, -, h⟩ := updateFirst_cases p f l
  · rw [h]
  · rw [h, hl, List.length_append, List.length_append, List.length_cons, List.length_cons]

theorem mem_updateFirst {b : α} (h : b ∈ updateFirst p f l) : b ∈ l ∨ ∃ a ∈ l, p a = true ∧ b = f a := by
  obtain heq | ⟨l1, a, l2, hl, ha, heq⟩ := updateFirst_cases p f l
  · exact .inl (heq ▸ h)
  · rw [heq] at h
    rw [hl]
    rcases List.mem_append.mp h with h1 | h2
    · exact .inl (List.mem_append_left _ h1)
    · rcases List.mem_cons.mp h2 with rfl | h2
      · exact .inr ⟨a, List.mem_append_right _ List.mem_cons_self, ha, rfl⟩
      · exact .inl (List.mem_append_right _ (List.mem_cons_of_mem a h2))

theorem mem_updateFirst_of_mem {b : α} (h : b ∈ l) (hb : p b = false) : b ∈ updateFirst p f l := by
  obtain heq | ⟨l1, a, l2, hl, ha, heq⟩ := updateFirst_cases p f l
  · rw [heq]
    exact h
  · rw [hl] at h
    rw [heq]
    rcases List.mem_append.mp h with h1 | h2
    · exact List.mem_append_left _ h1
    · rcases List.mem_cons.mp h2 with rfl | h2
      · rw [hb] at ha
        cases ha
      · exact List.mem_append_right _ (List.mem_cons_of_mem _ h2)

theorem all_updateFirst {q : α → Bool} (h : ∀ a, p a = true → q (f a) = q a) : (updateFirst p f l).all q = l.all q := by
  obtain heq | ⟨l1, a, l2, hl, ha, heq⟩ := updateFirst_cases p f l
  · rw [heq]
  · rw [heq, hl, List.all_append, List.all_append, List.all_cons, List.all_cons, h a ha]

/-! ### By index -/

theorem findIdx?_eq_some_split {i : Nat} (h : l.findIdx? p = some i) :
    ∃ l1 a l2, l = l1 ++ a :: l2 ∧ l1.length = i ∧ p a = true := by
  obtain ⟨hi, ha, -⟩ := List.findIdx?_eq_some_iff_getElem.mp h
  refine ⟨l.take i, l[i], l.drop (i + 1), ?_, List.length_take_of_le (Nat.le_of_lt hi), ha⟩
  rw [List.getElem_cons_drop, List.take_append_drop]

theorem modify_append_cons (l1 l2 : List α) (a : α) (f : α → α) :
    (l1 ++ a :: l2).modify l1.length f = l1 ++ f a :: l2 := by
  induction l1 with
  | nil => rfl
  | cons b l1 ih => exact congrArg (b :: ·) ih

/-! ### Keys -/

/-- The element keeps its key. -/
theorem filterMap_updateFirst (h : ∀ a, p a = true → k (f a) = k a) :
    (updateFirst p f l).filterMap k = l.filterMap k := by
  obtain heq | ⟨l1, a, l2, hl, ha, heq⟩ := updateFirst_cases p f l
  · rw [heq]
  · rw [heq, hl, List.filterMap_append, List.filterMap_append, List.filterMap_cons, List.filterMap_cons, h a ha]

/-- The element loses its key. -/
theorem filterMap_updateFirst_sublist (h : ∀ a, p a = true → k (f a) = none) :
    ((updateFirst p f l).filterMap k).Sublist (l.filterMap k) := by
  obtain heq | ⟨l1, a, l2, hl, ha, heq⟩ := updateFirst_cases p f l
  · rw [heq]
  · rw [heq, hl, List.filterMap_append, List.filterMap_append, List.filterMap_cons_none (h a ha)]
    exact (List.Sublist.refl _).append ((List.sublist_cons_self a l2).filterMap k)

/-- An element without a key gets one. -/
theorem filterMap_updateFirst_perm {b : β} (hex : ∃ a ∈ l, p a = true)
    (h : ∀ a, p a = true → k a = none ∧ k (f a) = some b) :
    ((updateFirst p f l).filterMap k).Perm (b :: l.filterMap k) := by
  obtain ⟨l1, a, l2, hl, ha, heq⟩ := updateFirst_of_exists hex f
  obtain ⟨hbefore, hafter⟩ := h a ha
  rw [heq, hl, List.filterMap_append, List.filterMap_append, List.filterMap_cons_some hafter,
    List.filterMap_cons_none hbefore]
  exact List.perm_middle

end Shma.Lib
