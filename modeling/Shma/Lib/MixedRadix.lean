import Mathlib.Algebra.Order.Ring.Nat
import Mathlib.Data.List.Nodup

/-!
# Mixed radix numerals

A numeral is a list of positions from the least significant one up, each with a
size of its own. `value` reads the digits of a family off the positions, `digits`
writes them back by repeated remainder and quotient; on families below the sizes
and numbers below the volume the two are inverse to each other. Where the sizes are
powers of two, a digit is a window of bits.
-/
namespace Shma.Lib.MixedRadix

variable {ι : Type*} (size digit : ι → Nat)

def volume : List ι → Nat
  | [] => 1
  | i :: is => size i * volume is

def value : List ι → Nat
  | [] => 0
  | i :: is => digit i + size i * value is

def digits [DecidableEq ι] : List ι → Nat → (ι → Nat) → ι → Nat
  | [], _, d => d
  | i :: is, n, d => digits is (n / size i) (Function.update d i (n % size i))

variable {size digit}

theorem volume_perm {is js : List ι} (h : is.Perm js) : volume size is = volume size js := by
  induction h with
  | nil => rfl
  | cons i _ ih => exact congrArg (size i * ·) ih
  | swap i j is => exact Nat.mul_left_comm (size j) (size i) (volume size is)
  | trans _ _ ih1 ih2 => exact ih1.trans ih2

theorem volume_two_pow (width : ι → Nat) (is : List ι) :
    volume (fun i => 2 ^ width i) is = 2 ^ (is.map width).sum := by
  induction is with
  | nil => rfl
  | cons i is ih => rw [volume, ih, List.map_cons, List.sum_cons, Nat.pow_add]

theorem value_lt {is : List ι} (h : ∀ i ∈ is, digit i < size i) : value size digit is < volume size is := by
  induction is with
  | nil => exact Nat.one_pos
  | cons i is ih =>
    obtain ⟨hi, his⟩ := List.forall_mem_cons.mp h
    calc digit i + size i * value size digit is
        < size i + size i * value size digit is := Nat.add_lt_add_right hi _
      _ = size i * (value size digit is + 1) := by rw [Nat.mul_succ, Nat.add_comm]
      _ ≤ size i * volume size is := Nat.mul_le_mul_left _ (ih his)

section Digits

variable [DecidableEq ι]

variable {is : List ι} {i : ι}

theorem digits_of_not_mem (h : i ∉ is) (n : Nat) (d : ι → Nat) : digits size is n d i = d i := by
  induction is generalizing n d with
  | nil => rfl
  | cons j is ih =>
    rw [List.mem_cons, not_or] at h
    rw [digits, ih h.2, Function.update_of_ne h.1]

/-- The digit at a position is read off above the volume of the positions before it. -/
theorem digits_of_mem (hnd : is.Nodup) (h : i ∈ is) (n : Nat) (d : ι → Nat) :
    digits size is n d i = n / volume size (is.takeWhile (· ≠ i)) % size i := by
  induction is generalizing n d with
  | nil => exact absurd h List.not_mem_nil
  | cons j is ih =>
    obtain ⟨hj, hnd⟩ := List.nodup_cons.mp hnd
    rw [digits, List.takeWhile_cons]
    by_cases hji : j = i
    · subst hji
      rw [digits_of_not_mem hj, Function.update_self]
      simp [volume]
    · have hmem : i ∈ is := (List.mem_cons.mp h).resolve_left (Ne.symm hji)
      rw [ih hnd hmem, if_pos (decide_eq_true hji), volume, Nat.div_div_eq_div_mul]

theorem digits_lt (hsize : ∀ i, 0 < size i) (hnd : is.Nodup) (h : i ∈ is) (n : Nat) (d : ι → Nat) :
    digits size is n d i < size i := by
  rw [digits_of_mem hnd h]
  exact Nat.mod_lt _ (hsize i)

/-- The digits of the number that digits below the sizes stand for are these digits. -/
theorem digits_value (hnd : is.Nodup) (h : ∀ i ∈ is, digit i < size i) (hi : i ∈ is)
    (d : ι → Nat) : digits size is (value size digit is) d i = digit i := by
  induction is generalizing d with
  | nil => exact absurd hi List.not_mem_nil
  | cons j is ih =>
    obtain ⟨hj, his⟩ := List.forall_mem_cons.mp h
    obtain ⟨hjis, hnd⟩ := List.nodup_cons.mp hnd
    have hpos : 0 < size j := Nat.zero_lt_of_lt hj
    have hdiv : (digit j + size j * value size digit is) / size j = value size digit is := by
      rw [Nat.add_mul_div_left _ _ hpos, Nat.div_eq_of_lt hj, Nat.zero_add]
    have hmod : (digit j + size j * value size digit is) % size j = digit j := by
      rw [Nat.add_mul_mod_self_left, Nat.mod_eq_of_lt hj]
    rw [value, digits, hdiv, hmod]
    by_cases hmem : i ∈ is
    · exact ih hnd his hmem _
    · obtain rfl : i = j := (List.mem_cons.mp hi).resolve_right hmem
      rw [digits_of_not_mem hmem, Function.update_self]

theorem value_inj {digit' : ι → Nat} (hnd : is.Nodup) (h : ∀ i ∈ is, digit i < size i)
    (h' : ∀ i ∈ is, digit' i < size i) (he : value size digit is = value size digit' is) (hi : i ∈ is) :
    digit i = digit' i := by
  rw [← digits_value hnd h hi digit, he, digits_value hnd h' hi]

/-- The digits of a number below the volume stand for this number. -/
theorem value_digits (hnd : is.Nodup) {n : Nat} (h : n < volume size is) (d : ι → Nat) :
    value size (digits size is n d) is = n := by
  induction is generalizing n d with
  | nil => exact (Nat.lt_one_iff.mp h).symm
  | cons i is ih =>
    obtain ⟨hi, hnd⟩ := List.nodup_cons.mp hnd
    have hlow : digits size (i :: is) n d i = n % size i := by
      rw [digits, digits_of_not_mem hi, Function.update_self]
    rw [value, hlow, digits, ih hnd (Nat.div_lt_of_lt_mul h), Nat.mod_add_div]

end Digits

/-! ### Windows of bits -/

theorem mod_two_pow_min {y k : Nat} (h : y < 2 ^ k) (v : Nat) : y % 2 ^ v = y % 2 ^ min v k := by
  rcases Nat.le_total v k with hle | hle
  · rw [Nat.min_eq_left hle]
  · rw [Nat.min_eq_right hle, Nat.mod_eq_of_lt h,
      Nat.mod_eq_of_lt (h.trans_le (Nat.pow_le_pow_right Nat.two_pos hle))]

theorem div_two_pow_lt {x n a : Nat} (h : x < 2 ^ n) : x / 2 ^ a < 2 ^ (n - a) := by
  rcases Nat.le_total a n with hle | hle
  · rwa [Nat.div_lt_iff_lt_mul (Nat.two_pow_pos a), ← Nat.pow_add, Nat.sub_add_cancel hle]
  · rw [Nat.div_eq_of_lt (h.trans_le (Nat.pow_le_pow_right Nat.two_pos hle))]
    exact Nat.two_pow_pos _

theorem mul_two_pow_lt {x n a : Nat} (h : x < 2 ^ (n - a)) : x * 2 ^ a < 2 ^ n := by
  rcases Nat.le_total a n with hle | hle
  · rwa [← Nat.sub_add_cancel hle, Nat.pow_add, Nat.mul_lt_mul_right (Nat.two_pow_pos a)]
  · rw [Nat.sub_eq_zero_of_le hle, Nat.pow_zero, Nat.lt_one_iff] at h
    rw [h, Nat.zero_mul]
    exact Nat.two_pow_pos n

/-- If the lowest bit of a window is seen by another one, then this is its lowest bit too, and so on
up to the highest. -/
theorem window_le {n a b v w : Nat} (h : ∀ x < 2 ^ n, x / 2 ^ a % 2 ^ v = x / 2 ^ b % 2 ^ w)
    (hv : 0 < v) (ha : a + v ≤ n) : a = b ∧ v ≤ w := by
  have hpow : ∀ k < v, 2 ^ (a + k) / 2 ^ b % 2 ^ w = 2 ^ k := by
    intro k hk
    rw [← h _ (Nat.pow_lt_pow_right Nat.one_lt_two (by omega)), Nat.pow_add,
      Nat.mul_div_cancel_left _ (Nat.two_pow_pos a)]
    exact Nat.mod_eq_of_lt (Nat.pow_lt_pow_right Nat.one_lt_two hk)
  have hlow := hpow 0 hv
  have hhigh := hpow (v - 1) (by omega)
  have hw : 0 < w := by
    by_contra hw
    rw [Nat.eq_zero_of_not_pos hw, Nat.pow_zero, Nat.mod_one] at hlow
    cases hlow
  have hab : a = b := by
    rcases Nat.lt_trichotomy a b with hlt | heq | hgt
    · rw [Nat.add_zero, Nat.div_eq_of_lt (Nat.pow_lt_pow_right Nat.one_lt_two hlt), Nat.zero_mod] at hlow
      cases hlow
    · exact heq
    · rw [Nat.add_zero, Nat.pow_div hgt.le Nat.two_pos] at hlow
      have hodd := congrArg (· % 2) hlow
      rw [Nat.mod_mod_of_dvd _ (dvd_pow_self 2 hw.ne'),
        Nat.mod_eq_zero_of_dvd (dvd_pow_self 2 (Nat.sub_ne_zero_of_lt hgt))] at hodd
      cases hodd
  refine ⟨hab, ?_⟩
  by_contra hlt
  rw [hab, Nat.pow_add, Nat.mul_div_cancel_left _ (Nat.two_pow_pos b),
    Nat.mod_eq_zero_of_dvd (Nat.pow_dvd_pow 2 (by omega))] at hhigh
  exact absurd hhigh.symm (Nat.two_pow_pos _).ne'

/-- Two windows show the same of every number of `n` bits exactly if they show the same of its
bits. -/
theorem window_eq_iff {n a b v w : Nat} : (∀ x < 2 ^ n, x / 2 ^ a % 2 ^ v = x / 2 ^ b % 2 ^ w) ↔
    min v (n - a) = min w (n - b) ∧ (min v (n - a) = 0 ∨ a = b) := by
  have hclip : ∀ (c k : Nat) {x : Nat}, x < 2 ^ n → x / 2 ^ c % 2 ^ k = x / 2 ^ c % 2 ^ min k (n - c) :=
    fun _ _ _ hx => mod_two_pow_min (div_two_pow_lt hx) _
  constructor
  · intro h
    have h' : ∀ x < 2 ^ n, x / 2 ^ a % 2 ^ min v (n - a) = x / 2 ^ b % 2 ^ min w (n - b) := by
      intro x hx
      rw [← hclip a v hx, ← hclip b w hx, h x hx]
    have hle := fun hv => window_le h' hv (by omega)
    have hge := fun hw => window_le (fun x hx => (h' x hx).symm) hw (by omega)
    omega
  · rintro ⟨hwidth, hlow⟩ x hx
    rw [hclip a v hx, hclip b w hx, ← hwidth]
    rcases hlow with hzero | rfl
    · rw [hzero, Nat.pow_zero, Nat.mod_one, Nat.mod_one]
    · rfl

end Shma.Lib.MixedRadix
