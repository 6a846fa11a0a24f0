import Shma.Lib.Rotation
import Shma.Nvmain.FlatMigrator

/-!
# The victims of the flat migrator

`ChooseVictim` of `Utils/FlatMigrator/FlatMigrator.cpp` reads the coordinates of a row of
the fast device off a page number, as a numeral whose sizes are the numbers of channels,
ranks, banks and rows, and counts the page number around. The coordinates pass through
variables of type `int`, which limits the sizes, and the subarray is always zero, although a
device with a mat height keeps no more than that many rows in each subarray.
-/
namespace Shma.Nvmain

open Lib Lib.Rotation
open MixedRadix (digits_value value value_digits value_lt volume)

namespace VictimCounts

/-- The rows that some calls of `ChooseVictim` return one after the other, from a page number on. -/
def victims (n : VictimCounts) : Nat → Nat → List Row
  | _, 0 => []
  | page, calls + 1 => n.victim page :: n.victims (n.nextPage page) calls

/-- The rows of the fast device, whose subarrays have as many rows as a mat is high. -/
structure Has (n : VictimCounts) (matHeight : Option Nat) (r : Row) : Prop where
  channel : r.channel < n.channels
  rank : r.rank < n.ranks
  bank : r.bank < n.banks
  row : r.row < matHeight.getD n.rows
  subarray : r.subarray < n.rows / matHeight.getD n.rows

/-- As many calls as there are pages, after any calls from the page number zero, return each row
once. -/
def Rotates (n : VictimCounts) (matHeight : Option Nat) : Prop :=
  ∀ calls, (n.victims (n.nextPage^[calls] 0) n.totalPages).Nodup ∧
    ∀ r, r ∈ n.victims (n.nextPage^[calls] 0) n.totalPages ↔ n.Has matHeight r

def PowersOfTwo (n : VictimCounts) : Prop := ∀ x ∈ [n.channels, n.ranks, n.banks, n.rows], ∃ k, x = 2 ^ k

/-! ### The page number -/

variable {n : VictimCounts}

section

variable (hpos : 0 < n.totalPages)
include hpos

theorem nextPage_mod (k : Nat) : n.nextPage (k % n.totalPages) = (k + 1) % n.totalPages := by
  rw [nextPage, if_pos (mod_lt k hpos).le, Nat.mod_add_mod]

theorem iterate_nextPage (k : Nat) : n.nextPage^[k] 0 = k % n.totalPages := by
  induction k with
  | zero => rw [Function.iterate_zero_apply, Nat.zero_mod]
  | succ k ih => rw [Function.iterate_succ_apply', ih, nextPage_mod hpos]

theorem victims_eq (k calls : Nat) :
    n.victims (k % n.totalPages) calls = (List.range calls).map fun i => n.victim ((k + i) % n.totalPages) := by
  induction calls generalizing k with
  | zero => rfl
  | succ calls ih =>
    rw [victims, nextPage_mod hpos, ih, List.range_succ_eq_map, List.map_cons, List.map_map]
    refine congrArg (n.victim (k % n.totalPages) :: ·) (List.map_congr_left fun i _ => ?_)
    rw [Function.comp_apply, Nat.add_right_comm, Nat.add_assoc]

theorem victims_rotation (k : Nat) :
    n.victims (n.nextPage^[k] 0) n.totalPages = (Rotation.rotation n.totalPages k).map n.victim := by
  rw [iterate_nextPage hpos, victims_eq hpos, Rotation.rotation, List.map_map]
  rfl

end

/-! ### The numeral -/

def size (n : VictimCounts) : Field → Nat := Field.table n.rows 1 n.banks n.ranks n.channels 1

def pageFields : List Field := [.channel, .rank, .bank, .row]

theorem nodup_pageFields : pageFields.Nodup := by decide

theorem volume_pageFields (n : VictimCounts) : volume n.size pageFields = n.totalPages := by
  simp only [pageFields, volume, size, Field.table, totalPages]
  ring

def digits (n : VictimCounts) (page : Nat) : Coords := MixedRadix.digits n.size pageFields page fun _ => 0

section

variable (h : n.PowersOfTwo)
include h

theorem PowersOfTwo.size {f : Field} (hf : f ∈ pageFields) : ∃ k, n.size f = 2 ^ k := by
  cases f with
  | row => exact h n.rows (by simp)
  | col => exact absurd hf (by decide)
  | bank => exact h n.banks (by simp)
  | rank => exact h n.ranks (by simp)
  | channel => exact h n.channels (by simp)
  | subarray => exact absurd hf (by decide)

theorem PowersOfTwo.size_pos (f : Field) : 0 < n.size f := by
  by_cases hf : f ∈ pageFields
  · obtain ⟨k, hk⟩ := h.size hf
    rw [hk]
    exact Nat.two_pow_pos k
  · cases f with
    | col | subarray => exact Nat.one_pos
    | row | bank | rank | channel => exact absurd (by decide) hf

theorem PowersOfTwo.totalPages_pos : 0 < n.totalPages := by
  have hr := h.size_pos .rank
  have hb := h.size_pos .bank
  have hw := h.size_pos .row
  have hc := h.size_pos .channel
  exact Nat.mul_pos (Nat.mul_pos (Nat.mul_pos hr hb) hw) hc

theorem PowersOfTwo.shiftRight {f : Field} (hf : f ∈ pageFields) (page : Nat) :
    page >>> mlog2 (n.size f) = page / n.size f := by
  obtain ⟨k, hk⟩ := h.size hf
  rw [hk, mlog2_two_pow, shiftRight_eq_div_pow]

omit h in
theorem digits_eq (n : VictimCounts) (page : Nat) :
    n.digits page = Field.table (page / n.channels / n.ranks / n.banks % n.rows) 0 (page / n.channels / n.ranks % n.banks)
      (page / n.channels % n.ranks) (page % n.channels) 0 := by
  funext f
  cases f <;> rfl

theorem PowersOfTwo.victim_eq (page : Nat) :
    n.victim page = ⟨viaInt (page % n.channels), viaInt (page / n.channels % n.ranks),
      viaInt (page / n.channels / n.ranks % n.banks), 0, viaInt (page / n.channels / n.ranks / n.banks % n.rows)⟩ := by
  have hch : ∀ x, x >>> mlog2 n.channels = x / n.channels := h.shiftRight (f := .channel) (by decide)
  have hrk : ∀ x, x >>> mlog2 n.ranks = x / n.ranks := h.shiftRight (f := .rank) (by decide)
  have hbk : ∀ x, x >>> mlog2 n.banks = x / n.banks := h.shiftRight (f := .bank) (by decide)
  rw [victim, hch, hrk, hbk]

omit h in
theorem coords_map (via : Nat → Nat) (hzero : via 0 = 0) (channel rank bank row : Nat) (f : Field) :
    (⟨via channel, via rank, via bank, 0, via row⟩ : Row).coords 0 f =
      via (Field.table row 0 bank rank channel 0 f) := by
  cases f <;> simp only [Row.coords, Field.table, hzero]

omit h in
theorem viaInt_zero : viaInt 0 = 0 := viaInt_of_lt (Nat.two_pow_pos 31)

theorem PowersOfTwo.victim_coords (page : Nat) (f : Field) : (n.victim page).coords 0 f = viaInt (n.digits page f) := by
  rw [digits_eq, h.victim_eq]
  exact coords_map viaInt viaInt_zero _ _ _ _ f

theorem PowersOfTwo.digits_lt {f : Field} (hf : f ∈ pageFields) (page : Nat) : n.digits page f < n.size f :=
  MixedRadix.digits_lt h.size_pos nodup_pageFields hf _ _

end

variable {matHeight : Option Nat} {r : Row}

theorem Has.coords_lt (h : n.Has matHeight r) : ∀ f ∈ pageFields, r.coords 0 f < n.size f := by
  intro f hf
  cases f with
  | row =>
    have hpos : 0 < n.rows / matHeight.getD n.rows := Nat.zero_lt_of_lt h.subarray
    exact h.row.trans_le (Nat.div_pos_iff.mp hpos).2
  | col => exact absurd hf (by decide)
  | bank => exact h.bank
  | rank => exact h.rank
  | channel => exact h.channel
  | subarray => exact absurd hf (by decide)

/-- The mats, where a height is given, are as high as the rows. -/
def Whole (n : VictimCounts) (matHeight : Option Nat) : Prop := matHeight = none ∨ matHeight = some n.rows

theorem Whole.has_iff (hrows : 0 < n.rows) (hwhole : n.Whole matHeight) :
    n.Has matHeight r ↔ (∀ f ∈ pageFields, r.coords 0 f < n.size f) ∧ r.coords 0 .subarray = 0 := by
  have hheight : matHeight.getD n.rows = n.rows := by
    rcases hwhole with rfl | rfl <;> rfl
  have hone : n.rows / n.rows = 1 := Nat.div_self hrows
  constructor
  · intro h
    have hsub := h.subarray
    rw [hheight, hone] at hsub
    exact ⟨h.coords_lt, lt_one_iff.mp hsub⟩
  · rintro ⟨h, hs⟩
    refine ⟨h .channel (by decide), h .rank (by decide), h .bank (by decide), ?_, ?_⟩
    · rw [hheight]
      exact h .row (by decide)
    · rw [hheight, hone]
      exact lt_one_iff.mpr hs

theorem digits_of_not_mem {f : Field} (hf : f ∉ pageFields) (page : Nat) : n.digits page f = 0 :=
  MixedRadix.digits_of_not_mem hf _ _

def FitsInt (n : VictimCounts) : Prop := ∀ f ∈ pageFields, n.size f ≤ 2 ^ 31

section

variable (h : n.PowersOfTwo)
include h

section

variable (hfit : n.FitsInt)
include hfit

theorem victim_coords_of_fits (page : Nat) : (n.victim page).coords 0 = n.digits page := by
  funext f
  rw [h.victim_coords]
  by_cases hf : f ∈ pageFields
  · exact viaInt_of_lt ((h.digits_lt hf page).trans_le (hfit f hf))
  · rw [digits_of_not_mem hf, viaInt_zero]

theorem victim_inj {p q : Nat} (hp : p < n.totalPages)
    (hq : q < n.totalPages) (he : n.victim p = n.victim q) : p = q := by
  have hdigits : n.digits p = n.digits q := by
    rw [← victim_coords_of_fits h hfit, he, victim_coords_of_fits h hfit]
  rw [← volume_pageFields] at hp hq
  rw [← value_digits nodup_pageFields hp fun _ => 0,
    ← value_digits nodup_pageFields hq fun _ => 0]
  exact congrArg (value n.size · pageFields) hdigits

theorem has_victim_iff (hwhole : n.Whole matHeight) :
    (∃ p < n.totalPages, n.victim p = r) ↔ n.Has matHeight r := by
  constructor
  · rintro ⟨p, _, rfl⟩
    rw [hwhole.has_iff (h.size_pos .row), victim_coords_of_fits h hfit]
    exact ⟨fun f hf => h.digits_lt hf p, digits_of_not_mem (by decide) p⟩
  · intro hr
    obtain ⟨hlt, hsub⟩ := (hwhole.has_iff (h.size_pos .row)).mp hr
    refine ⟨value n.size (r.coords 0) pageFields, ?_, ?_⟩
    · rw [← volume_pageFields]
      exact value_lt hlt
    · have hcoords : (n.victim (value n.size (r.coords 0) pageFields)).coords 0 = r.coords 0 := by
        rw [victim_coords_of_fits h hfit]
        funext f
        by_cases hf : f ∈ pageFields
        · exact digits_value nodup_pageFields hlt hf _
        · cases f with
          | col => rfl
          | subarray => exact hsub.symm
          | row | bank | rank | channel => exact absurd (by decide) hf
      exact (rowOf_coords _ 0).symm.trans ((congrArg rowOf hcoords).trans (rowOf_coords r 0))

theorem rotates_of_fits (hwhole : n.Whole matHeight) : n.Rotates matHeight := by
  intro calls
  rw [victims_rotation h.totalPages_pos]
  constructor
  · refine List.Nodup.map_on (fun p hp q hq he => ?_) (nodup_rotation _ _)
    exact victim_inj h hfit (mem_rotation.mp hp) (mem_rotation.mp hq) he
  · intro r
    rw [← has_victim_iff h hfit hwhole, mem_map]
    simp only [mem_rotation]

end

end

/-- The page with one digit that is not zero. -/
def pageOf (n : VictimCounts) (f : Field) (x : Nat) : Nat :=
  value n.size (fun g => if g = f then x else 0) pageFields

theorem size_le_totalPages (h : n.PowersOfTwo) {f : Field} (hf : f ∈ pageFields) : n.size f ≤ n.totalPages := by
  have hdvd : n.size f ∣ n.totalPages := by
    cases f with
    | row => exact Dvd.dvd.mul_right (Nat.dvd_mul_left _ _) _
    | col => exact Nat.one_dvd _
    | bank => exact Dvd.dvd.mul_right (Dvd.dvd.mul_right (Nat.dvd_mul_left _ _) _) _
    | rank => exact Dvd.dvd.mul_right (Dvd.dvd.mul_right (Nat.dvd_mul_right _ _) _) _
    | channel => exact Nat.dvd_mul_left _ _
    | subarray => exact Nat.one_dvd _
  exact Nat.le_of_dvd h.totalPages_pos hdvd

section

variable (hrot : n.Rotates matHeight) (h : n.PowersOfTwo)
include hrot h

/-- Each value of a coordinate, as an `int` leaves it, is that of a row of the device. -/
theorem Rotates.exists_has {f : Field} {x : Nat} (hf : f ∈ pageFields) (hx : x < n.size f) :
    ∃ r, n.Has matHeight r ∧ r.coords 0 f = viaInt x := by
  have hdigit : ∀ g ∈ pageFields, (if g = f then x else 0) < n.size g := by
    intro g _
    split
    · rename_i he
      rw [he]
      exact hx
    · exact h.size_pos g
  have hpage : n.pageOf f x < n.totalPages := by
    rw [← volume_pageFields]
    exact value_lt hdigit
  have hmem : n.victim (n.pageOf f x) ∈ n.victims (n.nextPage^[0] 0) n.totalPages := by
    rw [victims_rotation h.totalPages_pos]
    exact List.mem_map_of_mem (mem_rotation.mpr hpage)
  have hval : n.digits (n.pageOf f x) f = x :=
    (digits_value nodup_pageFields hdigit hf fun _ => 0).trans (if_pos rfl)
  refine ⟨_, ((hrot 0).2 _).mp hmem, ?_⟩
  rw [h.victim_coords, hval]

theorem Rotates.size_le (hpages : n.totalPages < 2 ^ 64) : n.FitsInt := by
  intro f hf
  by_contra hlarge
  have hx : 2 ^ 31 < n.size f := Nat.not_le.mp hlarge
  obtain ⟨r, hhas, hcoord⟩ := hrot.exists_has h hf hx
  have hlt := hhas.coords_lt f hf
  -- a power of two below the words is at most half of them
  have hhalf : n.size f ≤ 2 ^ 63 := by
    obtain ⟨k, hk⟩ := h.size hf
    have hword := (size_le_totalPages h hf).trans_lt hpages
    rw [hk] at hword ⊢
    have hlt : k < 64 := (Nat.pow_lt_pow_iff_right Nat.one_lt_two).mp hword
    exact Nat.pow_le_pow_right Nat.two_pos (Nat.le_of_lt_succ hlt)
  have hneg : viaInt (2 ^ 31) = 2 ^ 64 - 2 ^ 31 := by decide
  omega

theorem Rotates.whole (hfit : n.FitsInt) : n.Whole matHeight := by
  have hpos : 0 < n.rows := h.size_pos .row
  have hlast : n.rows - 1 < n.rows := Nat.sub_lt hpos Nat.one_pos
  obtain ⟨r, hhas, hcoord⟩ := hrot.exists_has h (f := .row) (by decide) hlast
  have hrow : viaInt (n.rows - 1) < matHeight.getD n.rows := hcoord ▸ hhas.row
  rw [viaInt_of_lt (hlast.trans_le (hfit .row (by decide)))] at hrow
  have hle : matHeight.getD n.rows ≤ n.rows := (Nat.div_pos_iff.mp (Nat.zero_lt_of_lt hhas.subarray)).2
  cases matHeight with
  | none => exact .inl rfl
  | some height =>
    rw [Option.getD_some] at hrow hle
    exact .inr (congrArg some (by omega))

end

/-- For powers of two whose product fits a word, the victims are counted around, whatever page
number the count from zero has reached, so that each row of the fast device is returned once in as
many calls as there are pages, exactly if none of the numbers is above `2 ^ 31` and the device has
one subarray. -/
theorem victims_rotate_iff (n : VictimCounts) (matHeight : Option Nat) (h : n.PowersOfTwo)
    (hpages : n.totalPages < 2 ^ 64) :
    n.Rotates matHeight ↔ (matHeight = none ∨ matHeight = some n.rows) ∧
      n.channels ≤ 2 ^ 31 ∧ n.ranks ≤ 2 ^ 31 ∧ n.banks ≤ 2 ^ 31 ∧ n.rows ≤ 2 ^ 31 := by
  have hfits : n.FitsInt ↔ n.channels ≤ 2 ^ 31 ∧ n.ranks ≤ 2 ^ 31 ∧ n.banks ≤ 2 ^ 31 ∧ n.rows ≤ 2 ^ 31 := by
    simp only [FitsInt, pageFields, forall_mem_cons, not_mem_nil, false_imp_iff, implies_true, and_true]
    rfl
  rw [← hfits]
  constructor
  · intro hrot
    have hfit := hrot.size_le h hpages
    exact ⟨hrot.whole h hfit, hfit⟩
  · rintro ⟨hwhole, hfit⟩
    exact rotates_of_fits h hfit hwhole

theorem victims_rotate_iff_small :
    (⟨2, 1, 2, 4⟩ : VictimCounts).PowersOfTwo ∧ (⟨2, 1, 2, 4⟩ : VictimCounts).Rotates (some 4) := by
  have h : (⟨2, 1, 2, 4⟩ : VictimCounts).PowersOfTwo := by
    intro x hx
    simp only [mem_cons, not_mem_nil, or_false] at hx
    obtain rfl | rfl | rfl | rfl := hx
    · exact ⟨1, rfl⟩
    · exact ⟨0, rfl⟩
    · exact ⟨1, rfl⟩
    · exact ⟨2, rfl⟩
  exact ⟨h, (victims_rotate_iff ⟨2, 1, 2, 4⟩ (some 4) h (by decide)).mpr (by decide)⟩

/-- Four rows in mats of two: the last two calls return rows that no subarray has, and the two rows
of the second subarray are never returned. -/
theorem victims_beyond_mats :
    (⟨1, 1, 1, 4⟩ : VictimCounts).victims 0 4 =
        [⟨0, 0, 0, 0, 0⟩, ⟨0, 0, 0, 0, 1⟩, ⟨0, 0, 0, 0, 2⟩, ⟨0, 0, 0, 0, 3⟩] ∧
      ¬(⟨1, 1, 1, 4⟩ : VictimCounts).Has (some 2) ⟨0, 0, 0, 0, 2⟩ ∧
      (⟨1, 1, 1, 4⟩ : VictimCounts).Has (some 2) ⟨0, 0, 0, 1, 0⟩ :=
  ⟨by decide +kernel, fun h => absurd h.row (by decide), by decide, by decide, by decide, by decide, by decide⟩

end VictimCounts

end Shma.Nvmain
