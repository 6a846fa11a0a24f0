import Mathlib.Data.BitVec
import Shma.Common.Trie
import Shma.Lib.Paths

/-!
# The masks of the trie

Every mask in a trie has its leading bits set, so comparing two keys under it compares their leading
bits.
-/
namespace Shma.Trie

open Lib.PathTrie

variable {n : Nat} {l l' : Nat} {a b : BitVec n}

def topBit (key : BitVec n) (i : Nat) : Bool := key.getMsbD i

def leadingMask (n l : Nat) : BitVec n := BitVec.allOnes n <<< (n - l)

theorem widthMask_eq (h : l ≤ n) : widthMask n l = leadingMask n l := by
  unfold widthMask leadingMask
  split
  · rfl
  · rw [Nat.sub_eq_zero_of_le (by omega), BitVec.shiftLeft_zero]

theorem topBit_leadingMask (h : l ≤ n) (i : Nat) : topBit (leadingMask n l) i = decide (i < l) := by
  unfold topBit leadingMask
  rw [BitVec.getMsbD_shiftLeft, BitVec.getMsbD_allOnes]
  exact decide_eq_decide.mpr (by omega)

theorem ext_topBit (h : ∀ i, topBit a i = topBit b i) : a = b :=
  BitVec.eq_of_getMsbD_eq fun i _ => h i

theorem topBit_and (a b : BitVec n) (i : Nat) : topBit (a &&& b) i = (topBit a i && topBit b i) :=
  BitVec.getMsbD_and

theorem leadingMask_zero : leadingMask n 0 = 0#n :=
  ext_topBit fun i => by rw [topBit_leadingMask (Nat.zero_le n)]; simp [topBit]

theorem leadingMask_inj (h : l ≤ n) (h' : l' ≤ n) : leadingMask n l = leadingMask n l' ↔ l = l' := by
  refine ⟨fun he => ?_, fun he => he ▸ rfl⟩
  have hbit : ∀ i, decide (i < l) = decide (i < l') := fun i => by
    rw [← topBit_leadingMask h, ← topBit_leadingMask h', he]
  have hl : ¬ l < l' := fun hlt => by simpa [hlt] using hbit l
  have hl' : ¬ l' < l := fun hlt => by simpa [hlt] using hbit l'
  omega

theorem and_leadingMask_eq_iff (h : l ≤ n) : a &&& leadingMask n l = b &&& leadingMask n l ↔ Agree topBit l a b := by
  constructor
  · intro he i hi
    have hbit : topBit (a &&& leadingMask n l) i = topBit (b &&& leadingMask n l) i := by rw [he]
    simpa [topBit_and, topBit_leadingMask h, hi] using hbit
  · intro ha
    refine ext_topBit fun i => ?_
    rw [topBit_and, topBit_and, topBit_leadingMask h]
    by_cases hi : i < l
    · rw [ha i hi]
    · simp [hi]

theorem agree_and_leadingMask (h : l ≤ n) (a : BitVec n) : Agree topBit l (a &&& leadingMask n l) a := by
  intro i hi
  simp [topBit_and, topBit_leadingMask h, hi]

theorem leadingMask_and_eq_iff (h : l ≤ n) (h' : l' ≤ n) :
    leadingMask n l &&& leadingMask n l' = leadingMask n l ↔ l ≤ l' := by
  have hbit : ∀ i, topBit (leadingMask n l &&& leadingMask n l') i = decide (i < l ∧ i < l') := fun i => by
    rw [topBit_and, topBit_leadingMask h, topBit_leadingMask h', Bool.decide_and]
  constructor
  · intro he
    by_contra hlt
    have hlast := hbit l'
    rw [he, topBit_leadingMask h] at hlast
    simp [Nat.not_le.mp hlt] at hlast
  · intro hle
    refine ext_topBit fun i => ?_
    rw [hbit, topBit_leadingMask h]
    exact decide_eq_decide.mpr ⟨And.left, fun hi => ⟨hi, Nat.lt_of_lt_of_le hi hle⟩⟩

theorem extendOneBit_leadingMask (h : l < n) : extendOneBit (leadingMask n l) = leadingMask n (l + 1) := by
  refine ext_topBit fun i => ?_
  rw [topBit_leadingMask h]
  have hbit := topBit_leadingMask (Nat.le_of_lt h)
  unfold topBit at hbit ⊢
  unfold extendOneBit
  rw [BitVec.getMsbD_or, BitVec.getMsbD_or, BitVec.getMsbD_ushiftRight, BitVec.getMsbD_shiftLeft]
  grind

/-- The loop stops at the bit where the two keys part. -/
theorem extendMask_eq {w : Nat} (hw : w ≤ n) {fuel : Nat} (hl : Agree topBit l a b) (hlw : l ≤ w) (hfuel : w < l + fuel) :
    extendMask a b (leadingMask n w) fuel (leadingMask n l) = some (leadingMask n (parting topBit w a b)) := by
  induction fuel generalizing l with
  | zero => omega
  | succ fuel ih =>
    have hle := le_parting hl hlw
    have hle' : parting topBit w a b ≤ w := parting_le w a b
    unfold extendMask
    simp only [leadingMask_inj (Nat.le_trans hlw hw) hw]
    by_cases hend : l = w
    · subst hend
      rw [if_pos (.inl rfl), Nat.le_antisymm hle' hle]
    · rw [extendOneBit_leadingMask (by omega)]
      have hsame : a &&& leadingMask n (l + 1) = b &&& leadingMask n (l + 1) ↔ Agree topBit (l + 1) a b :=
        and_leadingMask_eq_iff (by omega)
      by_cases hnext : Agree topBit (l + 1) a b
      · rw [if_neg (by simp [hend, hsame, hnext])]
        exact ih hnext (by omega) (by omega)
      · rw [if_pos (.inr (mt hsame.mp hnext))]
        have hlt : parting topBit w a b < l + 1 := parting_lt_of_not_agree hnext
        rw [Nat.le_antisymm hle (Nat.le_of_lt_succ hlt)]

end Shma.Trie
