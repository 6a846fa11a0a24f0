import Mathlib.Data.List.Perm.Basic
import Mathlib.Data.List.Nodup
import Mathlib.Data.List.Range
import Mathlib.Tactic.Ring

/-!
# Dyadic blocks and their pages

A block of order `k` is a run of `2^k` consecutive pages. Coverage and
disjointness of a family of blocks are one statement about the list of all its
pages: being a permutation of a duplicate-free list.
-/
namespace Shma.Lib.Dyadic

structure Block where
  (start order : Nat)
  deriving DecidableEq, Repr

def Block.pages (b : Block) : List Nat := List.range' b.start (2 ^ b.order)

def pages (bs : List Block) : List Nat := bs.flatMap Block.pages

def Block.Aligned (b : Block) : Prop := 2 ^ b.order ∣ b.start

@[simp] theorem pages_nil : pages [] = [] := rfl

@[simp] theorem pages_cons (b : Block) (bs : List Block) : pages (b :: bs) = b.pages ++ pages bs := rfl

@[simp] theorem pages_append (bs cs : List Block) : pages (bs ++ cs) = pages bs ++ pages cs :=
  List.flatMap_append

theorem Block.mem_pages {b : Block} {x : Nat} : x ∈ b.pages ↔ b.start ≤ x ∧ x < b.start + 2 ^ b.order := by
  simp [Block.pages, List.mem_range'_1]

theorem mem_pages {bs : List Block} {x : Nat} : x ∈ pages bs ↔ ∃ b ∈ bs, x ∈ b.pages :=
  List.mem_flatMap

theorem pages_perm {bs cs : List Block} (h : bs.Perm cs) : (pages bs).Perm (pages cs) :=
  h.flatMap_right _

theorem Block.pages_split (p k : Nat) :
    (Block.mk p (k+1)).pages = (Block.mk p k).pages ++ (Block.mk (p + 2^k) k).pages := by
  simp only [Block.pages]
  rw [List.range'_append_1, ← Nat.two_mul, Nat.pow_succ, Nat.mul_comm 2]

theorem Block.aligned_halves {p k : Nat} (h : (Block.mk p (k+1)).Aligned) :
    (Block.mk p k).Aligned ∧ (Block.mk (p + 2^k) k).Aligned := by
  have hp : 2 ^ k ∣ p := (Nat.pow_dvd_pow 2 (Nat.le_succ k)).trans h
  exact ⟨hp, Nat.dvd_add hp (Nat.dvd_refl _)⟩

theorem pairwise_disjoint_of_nodup {bs : List Block} (h : (pages bs).Nodup) :
    bs.Pairwise fun b c => b.pages.Disjoint c.pages :=
  (List.nodup_flatMap.mp h).2

theorem flatMap_update_perm {ι α : Type*} [DecidableEq ι] (f : ι → List α) (a : List α)
    {k : ι} : ∀ {l : List ι}, k ∈ l → l.Nodup →
      (l.flatMap (Function.update f k a) ++ f k).Perm (l.flatMap f ++ a) := by
  intro l
  induction l with
  | nil => intro hk; cases hk
  | cons i l ih =>
    intro hk hn
    rw [List.nodup_cons] at hn
    rw [List.flatMap_cons, List.flatMap_cons]
    rcases List.mem_cons.mp hk with rfl | hk
    · have hrest : l.flatMap (Function.update f k a) = l.flatMap f := by
        apply List.flatMap_congr
        intro j hj
        have hjk : j ≠ k := fun he => hn.1 (he ▸ hj)
        rw [Function.update_of_ne hjk]
      rw [Function.update_self, hrest]
      calc (a ++ l.flatMap f ++ f k).Perm (f k ++ (a ++ l.flatMap f)) := List.perm_append_comm
        _ |>.Perm (f k ++ (l.flatMap f ++ a)) := List.perm_append_comm.append_left _
        _ = f k ++ l.flatMap f ++ a := (List.append_assoc _ _ _).symm
    · have hik : i ≠ k := fun he => hn.1 (he ▸ hk)
      rw [Function.update_of_ne hik, List.append_assoc, List.append_assoc]
      exact (ih hk hn.2).append_left _

end Shma.Lib.Dyadic
