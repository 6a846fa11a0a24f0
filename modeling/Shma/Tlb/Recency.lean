import Shma.Lib.Recency
import Shma.Lib.Run
import Shma.Tlb.Contents

/-!
# Least recently used

A look-up that finds an entry and an insertion give the entry the next number of `lru_seq`. A
full TLB evicts the entry with the smallest number, found by a scan of the array; as long as the
numbers are not negative as an `int`, it is the one that was used least recently.
-/
namespace Shma.Tlb

open Lib.Recency Lib.Run

structure TlbUses where
  tlb : CommonTlb
  uses : List Nat

inductive UseOp where
  | lookUp (vpageNo : Address)
  | insert (vpageNo : Address) (entry : ExtendTlbEntry)
  deriving DecidableEq, Repr

namespace TlbUses

def use (t : CommonTlb) (found : Option Nat) (uses : List Nat) : TlbUses :=
  ⟨t, found.toList ++ uses⟩

/-- A hit and an insertion use the entry of the page. -/
def step (z : Zinfo) (multiQueue : Bool) (s : TlbUses) : UseOp → Option TlbUses
  | .lookUp v => some (use (s.tlb.lookUp v true).2 (s.tlb.lookUp v true).1 s.uses)
  | .insert v entry => (s.tlb.insert z multiQueue v entry).map fun r => use r.1 (r.1.tlbTrie v) s.uses

/-- Each entry used bears the number of its last use, as long as the counter is not negative as an
`int`; entries that are not free, and those found by their page, have been used. -/
structure Inv (s : TlbUses) : Prop where
  seq : s.tlb.lruSeq = BitVec.ofNat 32 s.uses.length
  stamped : s.uses.length < 2^31 → Stamped s.uses fun i => (s.tlb.tlb i).lruSeq.toNat
  valid : ∀ i ∈ s.uses, (s.tlb.tlb i).valid = true
  found : ∀ v i, s.tlb.tlbTrie v = some i → i ∈ s.uses
  used : ∀ i < s.tlb.tlbEntryNum, i ∉ s.tlb.freeEntryList → i ∈ s.uses
  lt : ∀ i ∈ s.tlb.freeEntryList ++ s.uses, i < s.tlb.tlbEntryNum

variable {t : CommonTlb}

theorem inv_new (tlbSize hitLat resLat : Nat) (policy : EvictStyle) (garbage : Nat → ExtendTlbEntry) :
    Inv ⟨.new tlbSize hitLat resLat policy garbage 0, []⟩ where
  seq := rfl
  stamped _ := stamped_nil _
  valid _ h := nomatch h
  found _ _ h := nomatch h
  used _ hi hfree := absurd (mem_range.mpr hi) hfree
  lt i hi := by
    rw [append_nil] at hi
    exact mem_range.mp hi

theorem toNat_signExtend {n : Nat} (h : n < 2^31) : ((BitVec.ofNat 32 n).signExtend 64).toNat = n := by
  have hmsb : (BitVec.ofNat 32 n).msb = false := by
    rw [BitVec.msb_eq_false_iff_two_mul_lt, BitVec.toNat_ofNat]
    omega
  rw [BitVec.signExtend_eq_setWidth_of_msb_false hmsb, BitVec.toNat_setWidth, BitVec.toNat_ofNat]
  omega

variable {s : TlbUses}

theorem Inv.touch (h : s.Inv) (hseq : t.lruSeq = s.tlb.lruSeq) (hvalid : (t.tlb i).valid = true)
    (hsame : ∀ j ∈ s.uses, j ≠ i → t.tlb j = s.tlb.tlb j) (hfound : ∀ v j, t.tlbTrie v = some j → j ∈ i :: s.uses)
    (hused : ∀ j < t.tlbEntryNum, j ∉ t.freeEntryList → j ∈ i :: s.uses)
    (hlt : ∀ j ∈ t.freeEntryList ++ i :: s.uses, j < t.tlbEntryNum) : Inv ⟨t.touch i, i :: s.uses⟩ := by
  have hnext : t.lruSeq + 1 = BitVec.ofNat 32 (s.uses.length + 1) := by
    rw [hseq, h.seq, BitVec.ofNat_add]
    rfl
  have hself : (t.touch i).tlb i = { t.tlb i with lruSeq := (t.lruSeq + 1).signExtend 64 } := update_self ..
  have hother : ∀ j, j ≠ i → (t.touch i).tlb j = t.tlb j := fun j hj => update_of_ne hj ..
  constructor
  case seq => exact hnext
  case stamped =>
    intro hlt
    have hlt : s.uses.length + 1 < 2^31 := hlt
    refine (h.stamped (Nat.lt_of_succ_lt hlt)).use ?_ fun j hj hji => ?_
    · rw [hself, hnext, toNat_signExtend hlt]
    · rw [hother j hji, hsame j hj hji]
  case valid =>
    intro j hj
    by_cases hji : j = i
    · rw [hji, hself]
      exact hvalid
    · have hmem := (mem_cons.mp hj).resolve_left hji
      rw [hother j hji, hsame j hmem hji]
      exact h.valid j hmem
  case found => exact hfound
  case used => exact hused
  case lt => exact hlt

theorem Inv.lookUp (h : s.Inv) (v : Address) : Inv (use (s.tlb.lookUp v true).2 (s.tlb.lookUp v true).1 s.uses) := by
  unfold CommonTlb.lookUp
  cases hv : s.tlb.tlbTrie v with
  | none => exact h
  | some i =>
    have hi := h.found v i hv
    have hmem : ∀ j, j ∈ s.uses → j ∈ i :: s.uses := fun j hj => mem_cons_of_mem i hj
    dsimp only
    rw [h.valid i hi, Bool.and_self]
    refine h.touch rfl (h.valid i hi) (fun _ _ _ => rfl) (fun w j hj => hmem j (h.found w j hj))
      (fun j hlt hfree => hmem j (h.used j hlt hfree)) fun j hj => h.lt j ?_
    rw [mem_append, mem_cons] at hj
    rw [mem_append]
    exact hj.imp_right fun hj => hj.elim (fun hji => hji ▸ hi) id

variable {v : Address} {entry : ExtendTlbEntry} {i : Nat}

/-- The entry taken out of a full TLB, if it was full, is the next to be filled. -/
theorem Inv.fill (h : s.Inv) {rest : List Nat} (hseq : t.lruSeq = s.tlb.lruSeq) (hlist : t.freeEntryList = i :: rest)
    (hsame : ∀ j ∈ s.uses, j ≠ i → t.tlb j = s.tlb.tlb j) (hfound : ∀ w j, t.tlbTrie w = some j → j ∈ s.uses)
    (hused : ∀ j < t.tlbEntryNum, j ∉ t.freeEntryList → j ∈ s.uses)
    (hlt : ∀ j ∈ t.freeEntryList ++ s.uses, j < t.tlbEntryNum) :
    Inv (use (t.fill v entry) ((t.fill v entry).tlbTrie v) s.uses) := by
  rw [CommonTlb.fill_eq hlist]
  have htrie : ((t.occupy i rest v entry).touch i).tlbTrie v = some i := update_self ..
  rw [htrie]
  refine h.touch hseq ?_ (fun j hj hji => ?_) (fun w j hj => ?_) (fun j hlt hfree => ?_) fun j hj => hlt j ?_
  · exact congrArg ExtendTlbEntry.valid (update_self i entry.setValid t.tlb)
  · exact (update_of_ne hji _ _).trans (hsame j hj hji)
  · by_cases hw : w = v
    · rw [hw, show (t.occupy i rest v entry).tlbTrie v = some i from update_self ..] at hj
      exact some_inj.mp hj ▸ mem_cons_self
    · rw [show (t.occupy i rest v entry).tlbTrie w = t.tlbTrie w from update_of_ne hw ..] at hj
      exact mem_cons_of_mem i (hfound w j hj)
  · by_cases hji : j = i
    · exact hji ▸ mem_cons_self
    · refine mem_cons_of_mem i (hused j hlt ?_)
      rw [hlist]
      exact List.not_mem_cons_of_ne_of_not_mem hji hfree
  · rw [hlist]
    exact perm_middle.mem_iff.mp hj

/-- The scan of `lru_evict` ends at an entry with the smallest number. -/
theorem lruEvictLoop_le {is : List Nat} (hvalid : ∀ i ∈ is, (t.tlb i).valid = true) (m : Nat) :
    ∀ j ∈ m :: is, (t.tlb (t.lruEvictLoop is m)).lruSeq.toNat ≤ (t.tlb j).lruSeq.toNat := by
  induction is generalizing m with
  | nil =>
    intro j hj
    rw [mem_singleton.mp hj]
    exact Nat.le_refl _
  | cons i is ih =>
    rw [CommonTlb.lruEvictLoop, hvalid i mem_cons_self, Bool.true_and]
    have hrest := ih (fun j hj => hvalid j (mem_cons_of_mem i hj))
    by_cases hlt : (t.tlb i).lruSeq < (t.tlb m).lruSeq
    · rw [decide_eq_true hlt]
      have hle := hrest i
      intro j hj
      rcases mem_cons.mp hj with rfl | hj
      · exact (hle i mem_cons_self).trans (BitVec.lt_def.mp hlt).le
      · exact hle j hj
    · rw [decide_eq_false hlt]
      have hle := hrest m
      intro j hj
      rcases mem_cons.mp hj with rfl | hj
      · exact hle j mem_cons_self
      · rcases mem_cons.mp hj with rfl | hj
        · exact (hle m mem_cons_self).trans (BitVec.not_lt.mp hlt)
        · exact hle j (mem_cons_of_mem m hj)

variable {m : Nat}

theorem Inv.lruEvict_lt (h : s.Inv) {w : Address} (hfound : s.tlb.tlbTrie w = some i)
    (hm : s.tlb.lruEvict = some m) : m < s.tlb.tlbEntryNum := by
  have hi : i < s.tlb.tlbEntryNum := h.lt i (mem_append_right _ (h.found w i hfound))
  obtain ⟨-, -, hm⟩ := bind_eq_some_iff.mp hm
  cases hm
  refine CommonTlb.lruEvictLoop_lt (fun j hj => ?_) (Nat.zero_lt_of_lt hi)
  obtain ⟨-, hlt⟩ := mem_range'_1.mp hj
  omega

theorem Inv.lruEvict (h : s.Inv) (hseq : s.uses.length < 2^31) (hfull : s.tlb.freeEntryList = []) (hm : s.tlb.lruEvict = some m) (hlt : m < s.tlb.tlbEntryNum) :
    Oldest s.uses (· < s.tlb.tlbEntryNum) m := by
  have hmem : ∀ j < s.tlb.tlbEntryNum, j ∈ s.uses := fun j hj => h.used j hj (hfull ▸ not_mem_nil)
  have hscan : ∀ j, j ∈ 0 :: List.range' 1 (s.tlb.tlbEntryNum - 1) ↔ j < s.tlb.tlbEntryNum := by
    intro j
    rw [mem_cons, mem_range'_1]
    omega
  refine (h.stamped hseq).oldest hmem hlt fun j hj => ?_
  obtain ⟨-, -, hm⟩ := bind_eq_some_iff.mp hm
  cases hm
  refine lruEvictLoop_le (fun j hj => ?_) 0 j ((hscan j).mpr hj)
  exact h.valid j (hmem j ((hscan j).mp (mem_cons_of_mem 0 hj)))

variable {z : Zinfo} {multiQueue : Bool}

theorem Inv.insert (h : s.Inv) {r : CommonTlb × Option MemReq} (hr : s.tlb.insert z multiQueue v entry = some r) :
    Inv (use r.1 (r.1.tlbTrie v) s.uses) := by
  rcases CommonTlb.insert_cases hr with ⟨hfree, hfill⟩ | ⟨hfull, m, hm, ⟨w, i, hfound⟩, hfill⟩
  · obtain ⟨i, rest, hlist⟩ := List.exists_cons_of_ne_nil hfree
    rw [hfill]
    exact h.fill rfl hlist (fun _ _ _ => rfl) h.found h.used h.lt
  · have hlist : (s.tlb.dropEntry m).freeEntryList = [m] := congrArg (· ++ [m]) hfull
    rw [hfill]
    refine h.fill rfl hlist (fun j _ hj => update_of_ne hj _ _) (fun w j hj => ?_) (fun j hlt _ => ?_)
      fun j hj => ?_
    · have hold : update s.tlb.tlbTrie (s.tlb.tlb m).vPageNo none w = some j := hj
      rw [update_apply] at hold
      split at hold
      · cases hold
      · exact h.found w j hold
    · refine h.used j hlt ?_
      rw [hfull]
      exact not_mem_nil
    · rw [hlist] at hj
      rcases mem_cons.mp hj with rfl | hj
      · exact h.lruEvict_lt hfound hm
      · exact h.lt j (mem_append_right _ hj)

theorem step_inv {s' : TlbUses} {op : UseOp} (h : s.Inv) (hr : s.step z multiQueue op = some s') : s'.Inv := by
  cases op with
  | lookUp v =>
    cases hr
    exact h.lookUp v
  | insert v entry =>
    obtain ⟨r, hins, rfl⟩ := map_eq_some_iff.mp hr
    exact h.insert hins

/-- Over any sequence of look-ups and insertions, as long as `lru_seq` was raised fewer than `2^31`
times, an insertion into a full TLB takes out the entry whose last hit or insertion is the oldest,
and fills it. -/
theorem run_evicts_oldest (z : Zinfo) (multiQueue : Bool) {tlbSize hitLat resLat : Nat} {policy : EvictStyle}
    {garbage : Nat → ExtendTlbEntry} {ops : List UseOp} {s : TlbUses}
    (hr : run (step z multiQueue) ⟨.new tlbSize hitLat resLat policy garbage 0, []⟩ ops = some s)
    (hseq : s.uses.length < 2^31) (hfull : s.tlb.freeEntryList = []) {v : Address} {entry : ExtendTlbEntry}
    {r : CommonTlb × Option MemReq} (hins : s.tlb.insert z multiQueue v entry = some r) :
    ∃ m, s.tlb.lruEvict = some m ∧ Oldest s.uses (· < s.tlb.tlbEntryNum) m ∧
      r.1 = (s.tlb.dropEntry m).fill v entry := by
  have h : s.Inv := run_invariant_of_step (step z multiQueue) (fun _ _ _ => step_inv) ops
    (inv_new tlbSize hitLat resLat policy garbage) hr
  rcases CommonTlb.insert_cases hins with ⟨hfree, -⟩ | ⟨-, m, hm, ⟨w, i, hfound⟩, hfill⟩
  · exact absurd hfull hfree
  · exact ⟨m, hm, h.lruEvict hseq hfull hm (h.lruEvict_lt hfound hm), hfill⟩

section Sample

def sampleUses : TlbUses := ⟨.new 2 1 1 .lru (fun _ => .new 0 0 false) 0, []⟩

def sampleUseOps : List UseOp := [.insert 1 (.new 1 11 false), .insert 2 (.new 2 12 false), .lookUp 1]

/-- Pages 1 and 2 in a TLB with two entries; page 1 is looked up again, so page 3 takes the place of
page 2. -/
theorem run_evicts_oldest_two : ∃ s r, run (step ⟨12, 12, 2^40, 1⟩ false) sampleUses sampleUseOps = some s ∧
    s.tlb.insert ⟨12, 12, 2^40, 1⟩ false 3 (.new 3 13 false) = some r ∧
    (∃ m, s.tlb.lruEvict = some m ∧ Oldest s.uses (· < s.tlb.tlbEntryNum) m ∧
      r.1 = (s.tlb.dropEntry m).fill 3 (.new 3 13 false)) ∧
    r.1.tlbTrie 1 = some 0 ∧ r.1.tlbTrie 2 = none ∧ r.1.tlbTrie 3 = some 1 := by
  have hr : ∃ s, run (step ⟨12, 12, 2^40, 1⟩ false) sampleUses sampleUseOps = some s := ⟨_, rfl⟩
  obtain ⟨s, hr⟩ := hr
  have hins : ∃ r, s.tlb.insert ⟨12, 12, 2^40, 1⟩ false 3 (.new 3 13 false) = some r := by
    cases hr
    exact ⟨_, rfl⟩
  obtain ⟨r, hins⟩ := hins
  refine ⟨s, r, hr, hins, run_evicts_oldest ⟨12, 12, 2^40, 1⟩ false hr ?_ ?_ hins, ?_⟩
  · cases hr
    decide
  · cases hr
    rfl
  · cases hr
    cases hins
    exact ⟨rfl, rfl, rfl⟩

end Sample

end TlbUses

end Shma.Tlb
