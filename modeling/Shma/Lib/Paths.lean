import Mathlib.Data.List.Basic
import Mathlib.Data.List.Infix

/-!
# Paths in trees

A node of a tree is the list of the steps that lead to it, the last one first,
so a node's subtree is the set of lists that end in it: `p <:+ q` says that `q`
lies in the subtree of `p`.

In a path-compressed binary trie keys are read bit by bit, up to a width `w`. A
node stands for the keys that agree with its own on some first bits, and what is
below it parts at the next one.
-/
namespace Shma.Lib.Subtree

variable {α : Type*} {p q : List α} {c d : α}

theorem parent_suffix (h : (c :: p) <:+ q) : p <:+ q := (List.suffix_cons c p).trans h

theorem not_child_suffix_self : ¬ (c :: p) <:+ p := by
  intro h
  have := h.length_le
  rw [List.length_cons] at this
  omega

theorem suffix_cases (h : p <:+ q) : q = p ∨ ∃ c, (c :: p) <:+ q := by
  obtain ⟨l, rfl⟩ := h
  rcases List.eq_nil_or_concat l with rfl | ⟨l, c, rfl⟩
  · exact .inl rfl
  · exact .inr ⟨c, l, by simp⟩

theorem child_unique (h : (c :: p) <:+ q) (h' : (d :: p) <:+ q) : c = d := by
  have := List.suffix_of_suffix_length_le h h' (by simp)
  have := this.eq_of_length (by simp)
  exact (List.cons.inj this).1

/-- What the root has, and a child has if its parent does, the whole subtree has. -/
theorem suffix_induction {motive : List α → Prop} (root : motive p)
    (child : ∀ c q, p <:+ q → motive q → motive (c :: q)) (h : p <:+ q) : motive q := by
  obtain ⟨l, rfl⟩ := h
  induction l with
  | nil => exact root
  | cons c l ih => exact child c (l ++ p) (List.suffix_append l p) ih

end Shma.Lib.Subtree

namespace Shma.Lib.PathTrie

theorem other_side {a b c : Bool} (hab : a ≠ b) (hac : a ≠ c) : b = c := by
  cases a <;> cases b <;> cases c <;> simp_all

variable {K : Type*} (bit : K → Nat → Bool) {a b c : K} {d d' w : Nat}

def Agree (d : Nat) (a b : K) : Prop := ∀ i, i < d → bit a i = bit b i

instance (d : Nat) (a b : K) : Decidable (Agree bit d a b) := inferInstanceAs (Decidable (∀ _, _ → _))

variable {bit}

theorem Agree.refl (d : Nat) (a : K) : Agree bit d a a := fun _ _ => rfl

theorem Agree.zero (a b : K) : Agree bit 0 a b := fun _ hi => absurd hi (Nat.not_lt_zero _)

theorem Agree.symm (h : Agree bit d a b) : Agree bit d b a := fun i hi => (h i hi).symm

theorem Agree.trans (h : Agree bit d a b) (h' : Agree bit d b c) : Agree bit d a c :=
  fun i hi => (h i hi).trans (h' i hi)

theorem Agree.mono (h : Agree bit d a b) (hle : d' ≤ d) : Agree bit d' a b :=
  fun i hi => h i (Nat.lt_of_lt_of_le hi hle)

theorem agree_succ_iff : Agree bit (d + 1) a b ↔ Agree bit d a b ∧ bit a d = bit b d := by
  constructor
  · exact fun h => ⟨h.mono (Nat.le_succ d), h d (Nat.lt_succ_self d)⟩
  · rintro ⟨h, hd⟩ i hi
    rcases Nat.lt_succ_iff_lt_or_eq.mp hi with hlt | rfl
    · exact h i hlt
    · exact hd

variable (bit)

def parting (w : Nat) (a b : K) : Nat := (List.range w).findIdx fun i => bit a i != bit b i

variable {bit}

theorem parting_le (w : Nat) (a b : K) : parting bit w a b ≤ w := by
  have hle : (List.range w).findIdx (fun i => bit a i != bit b i) ≤ (List.range w).length := List.findIdx_le_length
  rwa [List.length_range] at hle

theorem agree_parting (w : Nat) (a b : K) : Agree bit (parting bit w a b) a b := by
  intro i hi
  have hnot := List.not_of_lt_findIdx hi
  simpa using hnot

theorem bit_parting (h : parting bit w a b < w) : bit a (parting bit w a b) ≠ bit b (parting bit w a b) := by
  have hlt : (List.range w).findIdx (fun i => bit a i != bit b i) < (List.range w).length := by
    rw [List.length_range]
    exact h
  have hbit := List.findIdx_getElem (w := hlt)
  simpa [parting] using hbit

theorem le_parting (h : Agree bit d a b) (hd : d ≤ w) : d ≤ parting bit w a b := by
  by_contra hlt
  exact bit_parting (by omega) (h _ (Nat.not_le.mp hlt))

theorem parting_lt_of_not_agree (h : ¬ Agree bit d a b) : parting bit w a b < d := by
  by_contra hle
  exact h ((agree_parting w a b).mono (Nat.not_lt.mp hle))

end Shma.Lib.PathTrie
