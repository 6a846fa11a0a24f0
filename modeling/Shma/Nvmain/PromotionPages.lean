import Shma.Nvmain.Translator

/-!
# The pages of the promotion channel

`ChooseVictim` of `Utils/CommonMigrator/CommonMigrator.cpp` and of
`Utils/MultiQueueMigrator/MultiQueueMigrator.cpp` reads the coordinates of a row of the
promotion channel off a page number. The row itself is what is left of the number at the end.
-/
namespace Shma.Nvmain

/-- The fields of `Params` that are read from the promotion channel, whose rows can be counted in a
word. -/
structure PromotionParams where
  (ranks banks rows matHeight : Nat)
  word : ranks * banks * rows < 2 ^ 64

namespace PromotionParams

def subarrayCount (p : PromotionParams) : Nat := p.rows / p.matHeight

def totalPages (p : PromotionParams) : Nat := p.ranks * p.banks * p.rows

def victim (p : PromotionParams) (promotionChannel page : Nat) : Row where
  channel := promotionChannel
  rank := page % p.ranks
  bank := (page >>> mlog2 p.ranks) % p.banks
  subarray := (page >>> mlog2 p.ranks >>> mlog2 p.banks) % p.subarrayCount
  row := page >>> mlog2 p.ranks >>> mlog2 p.banks >>> mlog2 p.subarrayCount

structure PowersOfTwo (p : PromotionParams) : Prop where
  ranks : ∃ k, p.ranks = 2 ^ k
  banks : ∃ k, p.banks = 2 ^ k
  rows : ∃ k, p.rows = 2 ^ k
  matHeight : ∃ k, p.matHeight = 2 ^ k
  mat_le : p.matHeight ≤ p.rows

@[mk_iff] structure Has (p : PromotionParams) (promotionChannel : Nat) (r : Row) : Prop where
  channel : r.channel = promotionChannel
  rank : r.rank < p.ranks
  bank : r.bank < p.banks
  subarray : r.subarray < p.subarrayCount
  row : r.row < p.matHeight

instance (p : PromotionParams) (promotionChannel : Nat) (r : Row) : Decidable (p.Has promotionChannel r) :=
  decidable_of_iff' _ (has_iff p promotionChannel r)

structure Fits (p : PromotionParams) (g : Geometry) (promotionChannel : Nat) : Prop where
  channel : promotionChannel < g.count .channel
  ranks : p.ranks ≤ g.count .rank
  banks : p.banks ≤ g.count .bank
  subarrays : p.subarrayCount ≤ g.count .subarray
  rows : p.matHeight ≤ g.count .row

variable {p : PromotionParams} {g : Geometry} {promotionChannel page : Nat} {r : Row}

theorem Has.hasRow (h : p.Has promotionChannel r) (hf : p.Fits g promotionChannel) : g.HasRow r where
  channel := by
    rw [h.channel]
    exact hf.channel
  rank := h.rank.trans_le hf.ranks
  bank := h.bank.trans_le hf.banks
  subarray := h.subarray.trans_le hf.subarrays
  row := h.row.trans_le hf.rows

def toPage (p : PromotionParams) (r : Row) : Nat :=
  r.rank + p.ranks * (r.bank + p.banks * (r.subarray + p.subarrayCount * r.row))

namespace PowersOfTwo

variable (h : p.PowersOfTwo)
include h

theorem subarrayCount : ∃ k, p.subarrayCount = 2 ^ k := by
  obtain ⟨a, ha⟩ := h.rows
  obtain ⟨b, hb⟩ := h.matHeight
  have hle := h.mat_le
  rw [ha, hb] at hle
  have hba : b ≤ a := (Nat.pow_le_pow_iff_right Nat.one_lt_two).mp hle
  exact ⟨a - b, by rw [PromotionParams.subarrayCount, ha, hb, Nat.pow_div hba Nat.two_pos]⟩

theorem subarrayCount_mul : p.subarrayCount * p.matHeight = p.rows := by
  obtain ⟨a, ha⟩ := h.rows
  obtain ⟨b, hb⟩ := h.matHeight
  apply Nat.div_mul_cancel
  rw [ha, hb]
  apply Nat.pow_dvd_pow
  have hle := h.mat_le
  rw [ha, hb] at hle
  exact (Nat.pow_le_pow_iff_right Nat.one_lt_two).mp hle

omit h in
theorem pos {n : Nat} (h : ∃ k, n = 2 ^ k) : 0 < n := by
  obtain ⟨k, rfl⟩ := h
  exact Nat.two_pow_pos k

omit h in
theorem shiftRight {n : Nat} (h : ∃ k, n = 2 ^ k) (x : Nat) : x >>> mlog2 n = x / n := by
  obtain ⟨k, rfl⟩ := h
  rw [mlog2_two_pow, Nat.shiftRight_eq_div_pow]

theorem totalPages_pos : 0 < p.totalPages :=
  Nat.mul_pos (Nat.mul_pos (pos h.ranks) (pos h.banks)) (pos h.rows)

theorem victim_eq (promotionChannel page : Nat) :
    p.victim promotionChannel page =
      ⟨promotionChannel, page % p.ranks, page / p.ranks % p.banks, page / p.ranks / p.banks % p.subarrayCount,
        page / p.ranks / p.banks / p.subarrayCount⟩ := by
  rw [victim, shiftRight h.ranks, shiftRight h.banks, shiftRight h.subarrayCount]

theorem toPage_victim (promotionChannel page : Nat) : p.toPage (p.victim promotionChannel page) = page := by
  rw [h.victim_eq]
  simp only [toPage]
  rw [Nat.mod_add_div, Nat.mod_add_div, Nat.mod_add_div]

theorem victim_inj {page page' : Nat}
    (he : p.victim promotionChannel page = p.victim promotionChannel page') : page = page' := by
  rw [← h.toPage_victim promotionChannel page, he, h.toPage_victim]

theorem victim_toPage (hr : p.Has promotionChannel r) : p.victim promotionChannel (p.toPage r) = r := by
  have hdigit : ∀ {n a b : Nat}, a < n → (a + n * b) % n = a ∧ (a + n * b) / n = b := by
    intro n a b ha
    constructor
    · rw [Nat.add_mul_mod_self_left, Nat.mod_eq_of_lt ha]
    · rw [Nat.add_mul_div_left _ _ (Nat.zero_lt_of_lt ha), Nat.div_eq_of_lt ha, Nat.zero_add]
  rw [h.victim_eq, toPage, (hdigit hr.rank).1, (hdigit hr.rank).2, (hdigit hr.bank).1, (hdigit hr.bank).2,
    (hdigit hr.subarray).1, (hdigit hr.subarray).2, ← hr.channel]

theorem totalPages_eq : p.totalPages = p.matHeight * (p.ranks * p.banks * p.subarrayCount) := by
  rw [totalPages, ← h.subarrayCount_mul]
  ring

theorem has_victim_iff : p.Has promotionChannel (p.victim promotionChannel page) ↔ page < p.totalPages := by
  have hrow : (p.victim promotionChannel page).row < p.matHeight ↔ page < p.totalPages := by
    rw [h.victim_eq, h.totalPages_eq]
    simp only
    rw [Nat.div_div_eq_div_mul, Nat.div_div_eq_div_mul, ← Nat.mul_assoc]
    exact Nat.div_lt_iff_lt_mul
      (Nat.mul_pos (Nat.mul_pos (pos h.ranks) (pos h.banks)) (pos h.subarrayCount))
  constructor
  · intro hhas
    exact hrow.mp hhas.row
  · intro hlt
    have hlow := hrow.mpr hlt
    exact ⟨rfl, Nat.mod_lt _ (pos h.ranks), Nat.mod_lt _ (pos h.banks), Nat.mod_lt _ (pos h.subarrayCount), hlow⟩

theorem toPage_lt (hr : p.Has promotionChannel r) : p.toPage r < p.totalPages := by
  rw [← h.has_victim_iff, h.victim_toPage hr]
  exact hr

end PowersOfTwo

end PromotionParams

structure PageCounter where
  queriedMemory : Bool
  (totalPromotionPages currentPromotionPage : Nat)

namespace PageCounter

def new : PageCounter := ⟨false, 0, 0⟩

/-- What the first call of `ChooseVictim` does, with the page number that it starts from. -/
def query (p : PromotionParams) (first : Nat) (c : PageCounter) : PageCounter :=
  if c.queriedMemory then c else ⟨true, p.totalPages, first⟩

theorem query_of_queried {p : PromotionParams} {first : Nat} {c : PageCounter} (h : c.queriedMemory = true) :
    c.query p first = c := if_pos h

end PageCounter

end Shma.Nvmain
