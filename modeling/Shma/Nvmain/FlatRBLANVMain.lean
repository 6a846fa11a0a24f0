import Shma.Nvmain.FlatDecoder

/-!
# Requests to the flat memory

`IsIssuable` and `IssueCommand` of `NVM/Flat_NVMain/FlatNVMain.cpp`, and of
`NVM/Flat_RBLA_NVMain/FlatRBLANVMain.cpp` in front of it, as `NVMainMemory::enqueue` calls them
one after the other. Both rewrite the address of the request in place, so `IssueCommand` starts
from the local address that `IsIssuable` left there.

The sets of accessed pages and the thresholds of migration do not take part.
-/
namespace Shma.Nvmain

structure FlatRequest where
  (physicalAddress virtualAddress : Nat)
  media : Media
  deriving DecidableEq

/-- The request that `enqueue` builds; its device is the slow one by default. -/
def FlatRequest.new (addr : Nat) : FlatRequest := ⟨addr, 0, .slow⟩

namespace FlatNVMain

section

variable (c : FlatNVMain) (ready : Media → Nat → Bool) (req : FlatRequest)

/-- `IsIssuable`; `ready` is what the device answers for a local address. -/
def isIssuable : Bool × FlatRequest :=
  let (media, local') := c.route req.physicalAddress
  (ready media local', ⟨local', req.physicalAddress, media⟩)

/-- `IssueCommand`: the device and local address that the request is delivered to, if any, and the
request. A device of the alternating slices that is not ready is passed over for the slow one. -/
def issueCommand : Option (Media × Nat) × FlatRequest :=
  let addrOrg := req.physicalAddress
  let fallThrough (addr : Nat) : Option (Media × Nat) × FlatRequest :=
    let local' := toU64 (addr - 2 * c.fastMemSize)
    (if ready .slow local' then some (.slow, local') else none, ⟨local', addrOrg, .slow⟩)
  if addrOrg >>> c.fastMemBits = 0 then
    let (media, local') := c.route addrOrg
    if ready media local' then (some (media, local'), ⟨local', addrOrg, media⟩)
    else fallThrough local'
  else fallThrough addrOrg

end

/-- The slice zero, or one whose number has wrapped to minus one. -/
def FirstSlice (c : FlatNVMain) (a : Nat) : Prop :=
  a < 2 ^ c.fastMemBits ∧ (c.unitNum a = 0 ∨ c.unitNum a = -1)

/-- The first slice, the one before a wrapped first slice, and the first slice above the
alternating ones. -/
def Routed (c : FlatNVMain) (a : Nat) : Prop :=
  c.FirstSlice a ∨ (a + c.memorySlice < 2 ^ c.fastMemBits ∧ c.unitNum a = -2) ∨
    (2 ^ c.fastMemBits ≤ a ∧ c.FirstSlice (toU64 (a - 2 * c.fastMemSize)))

variable {c : FlatNVMain} {a : Nat}

theorem two_pow_fastMemBits_le (c : FlatNVMain) : 2 ^ c.fastMemBits ≤ 2 ^ 63 := by
  obtain ⟨_, hle⟩ := c.two_pow_fastMemBits
  have hsize := c.fastMemSize_lt
  have hlt : 2 ^ c.fastMemBits < 2 ^ 64 := by omega
  have hbits : c.fastMemBits < 64 := (Nat.pow_lt_pow_iff_right Nat.one_lt_two).mp hlt
  exact Nat.pow_le_pow_right Nat.two_pos (by omega)

theorem unitNum_sub {l : Nat} {t : Int} (h : (l : Int) = a - t * c.memorySlice) :
    c.unitNum l = (c.unitNum a - t).bmod (2 ^ 32) := by
  have hpos := c.memorySlice_pos
  have hdiv : ((l / c.memorySlice : Nat) : Int) = (a / c.memorySlice : Nat) - t := by
    rw [Int.natCast_ediv, h, sub_eq_add_neg, ← neg_mul, Int.add_mul_ediv_right _ _ (by omega)]
    omega
  unfold unitNum
  rw [hdiv, Int.bmod_sub_bmod]

theorem unitNum_spec (c : FlatNVMain) (a : Nat) :
    -2147483648 ≤ c.unitNum a ∧ c.unitNum a < 2147483648 ∧ c.unitNum a ≤ (a / c.memorySlice : Nat) ∧
      (c.unitNum a < 0 → 2147483648 ≤ a / c.memorySlice) := by
  unfold unitNum Int.bmod
  generalize a / c.memorySlice = unit
  simp only [Nat.reducePow, Nat.cast_ofNat]
  split <;> omega

theorem tdiv_tmod_two (u : Int) :
    (0 ≤ u ∧ u.tdiv 2 = u / 2 ∧ u.tmod 2 = u % 2) ∨ (u < 0 ∧ u.tdiv 2 = -(-u / 2) ∧ u.tmod 2 = -(-u % 2)) := by
  by_cases hu : 0 ≤ u
  · exact .inl ⟨hu, Int.tdiv_eq_ediv_of_nonneg hu, Int.tmod_eq_emod_of_nonneg hu⟩
  · have hneg : 0 ≤ -u := by omega
    right
    rw [← Int.tdiv_eq_ediv_of_nonneg hneg, ← Int.tmod_eq_emod_of_nonneg hneg, Int.neg_tdiv, Int.neg_tmod,
      Int.neg_neg, Int.neg_neg]
    exact ⟨by omega, rfl, rfl⟩

theorem toU64_of_nonneg {x : Int} (h : 0 ≤ x) (h' : x < 2 ^ 64) : toU64 x = x.toNat :=
  congrArg Int.toNat (Int.emod_eq_of_lt h h')

theorem route_slow (ha : a < 2 ^ c.fastMemBits) (hu : (c.unitNum a).tmod 2 ≠ 1) :
    ∃ l : Nat, c.route a = (.slow, l) ∧ (l : Int) = a - (c.unitNum a).tdiv 2 * c.memorySlice := by
  obtain ⟨hmin, _, hle, hneg⟩ := c.unitNum_spec a
  have hbits := c.two_pow_fastMemBits_le
  have hslices := Nat.div_mul_le_self a c.memorySlice
  -- the slices gone back are not more than those below the address
  have hback : -(a : Int) ≤ (c.unitNum a).tdiv 2 * c.memorySlice ∧ (c.unitNum a).tdiv 2 * c.memorySlice ≤ (a : Int) := by
    have habs : -((a / c.memorySlice : Nat) : Int) ≤ (c.unitNum a).tdiv 2 ∧
        (c.unitNum a).tdiv 2 ≤ (a / c.memorySlice : Nat) := by
      obtain ⟨hu, ht, _⟩ | ⟨hu, ht, _⟩ := tdiv_tmod_two (c.unitNum a)
      · omega
      · omega
    have hupper := Int.mul_le_mul_of_nonneg_right habs.2 (Int.natCast_nonneg c.memorySlice)
    have hlower := Int.mul_le_mul_of_nonneg_right habs.1 (Int.natCast_nonneg c.memorySlice)
    rw [Int.neg_mul] at hlower
    omega
  have hlow : (0 : Int) ≤ a - (c.unitNum a).tdiv 2 * c.memorySlice := by omega
  refine ⟨(a - (c.unitNum a).tdiv 2 * c.memorySlice : Int).toNat, ?_, Int.toNat_of_nonneg hlow⟩
  unfold route
  rw [if_pos (shiftRight_fastMemBits_eq_zero.mpr ha), if_neg hu, toU64_of_nonneg hlow (by omega)]

/-- A slice of the fast device: an address is lowered by one slice at least. -/
theorem route_fast (ha : a < 2 ^ c.fastMemBits) (hu : (c.unitNum a).tmod 2 = 1) :
    ∃ l : Nat, c.route a = (.fast, l) ∧ l < a := by
  obtain ⟨_, _, hle, _⟩ := c.unitNum_spec a
  have hbits := c.two_pow_fastMemBits_le
  have hslices := Nat.div_mul_le_self a c.memorySlice
  have hpos := c.memorySlice_pos
  have hback : 1 ≤ (c.unitNum a - 1).tdiv 2 + 1 ∧ (c.unitNum a - 1).tdiv 2 + 1 ≤ (a / c.memorySlice : Nat) := by
    obtain ⟨hnonneg, _, hmod⟩ | ⟨_, _, hmod⟩ := tdiv_tmod_two (c.unitNum a)
    · rw [Int.tdiv_eq_ediv_of_nonneg (by omega)]
      omega
    · omega
  have hlower := Int.mul_le_mul_of_nonneg_right hback.1 (Int.natCast_nonneg c.memorySlice)
  have hupper := Int.mul_le_mul_of_nonneg_right hback.2 (Int.natCast_nonneg c.memorySlice)
  have hlow : (0 : Int) ≤ a - ((c.unitNum a - 1).tdiv 2 + 1) * c.memorySlice := by omega
  refine ⟨(a - ((c.unitNum a - 1).tdiv 2 + 1) * c.memorySlice : Int).toNat, ?_, by omega⟩
  unfold route
  rw [if_pos (shiftRight_fastMemBits_eq_zero.mpr ha), if_pos hu, toU64_of_nonneg hlow (by omega)]

theorem route_ne_fast (c : FlatNVMain) (a : Nat) : c.route a ≠ (.fast, a) := by
  intro h
  by_cases ha : a < 2 ^ c.fastMemBits
  · by_cases hu : (c.unitNum a).tmod 2 = 1
    · obtain ⟨l, hl, hlt⟩ := route_fast ha hu
      have hsame : l = a := congrArg Prod.snd (hl.symm.trans h)
      omega
    · obtain ⟨l, hl, _⟩ := route_slow ha hu
      rw [hl] at h
      cases h
  · rw [route_above (Nat.not_lt.mp ha)] at h
    cases h

theorem toU64_sub_ne (c : FlatNVMain) (a : Nat) : toU64 (a - 2 * c.fastMemSize) ≠ a := by
  have hpos := c.fastMemSize_pos
  have hsize := c.fastMemSize_lt
  unfold toU64
  omega

theorem route_eq_self_iff : c.route a = (.slow, a) ↔ c.FirstSlice a := by
  have hpos := c.memorySlice_pos
  constructor
  · intro h
    by_cases hlow : a < 2 ^ c.fastMemBits
    · by_cases hu : (c.unitNum a).tmod 2 = 1
      · obtain ⟨l, hl, _⟩ := route_fast hlow hu
        rw [hl] at h
        cases h
      · obtain ⟨l, hl, hexact⟩ := route_slow hlow hu
        obtain rfl : l = a := congrArg Prod.snd (hl.symm.trans h)
        have hzero : (c.unitNum l).tdiv 2 = 0 := by
          have hprod : (c.unitNum l).tdiv 2 * (c.memorySlice : Int) = 0 := by omega
          obtain ht | hs := Int.mul_eq_zero.mp hprod
          · exact ht
          · omega
        refine ⟨hlow, ?_⟩
        obtain ⟨_, ht, hm⟩ | ⟨_, ht, hm⟩ := tdiv_tmod_two (c.unitNum l)
        · omega
        · omega
    · rw [route_above (Nat.not_lt.mp hlow)] at h
      exact absurd (congrArg Prod.snd h) (c.toU64_sub_ne a)
  · rintro ⟨hlow, hu⟩
    have heven : (c.unitNum a).tmod 2 ≠ 1 := by
      obtain hu | hu := hu <;> rw [hu] <;> decide
    have hzero : (c.unitNum a).tdiv 2 = 0 := by
      obtain hu | hu := hu <;> rw [hu] <;> decide
    obtain ⟨l, hl, hexact⟩ := route_slow hlow heven
    rw [hzero] at hexact
    obtain rfl : l = a := by omega
    exact hl

theorem route_firstSlice_iff : (c.route a).1 = .slow ∧ c.FirstSlice (c.route a).2 ↔ c.Routed a := by
  by_cases hlow : a < 2 ^ c.fastMemBits
  · have hhigh : ¬2 ^ c.fastMemBits ≤ a := Nat.not_le.mpr hlow
    obtain ⟨hmin, hmax, _, _⟩ := c.unitNum_spec a
    by_cases hu : (c.unitNum a).tmod 2 = 1
    · obtain ⟨l, hl, _⟩ := route_fast hlow hu
      have hodd : c.unitNum a ≠ 0 ∧ c.unitNum a ≠ -1 ∧ c.unitNum a ≠ -2 := by
        obtain ⟨_, _, hm⟩ | ⟨_, _, hm⟩ := tdiv_tmod_two (c.unitNum a) <;> omega
      simp [hl, Routed, FirstSlice, hodd, hhigh]
    · obtain ⟨l, hl, hexact⟩ := route_slow hlow hu
      have hunit : c.unitNum l = c.unitNum a - (c.unitNum a).tdiv 2 := by
        rw [unitNum_sub hexact]
        obtain ⟨_, ht, _⟩ | ⟨_, ht, _⟩ := tdiv_tmod_two (c.unitNum a)
        all_goals exact Int.bmod_eq_of_le (by omega) (by omega)
      rw [hl, Routed, FirstSlice, hunit]
      constructor
      · rintro ⟨_, hl', hfirst⟩
        obtain hzero | htwo : (c.unitNum a = 0 ∨ c.unitNum a = -1) ∨ c.unitNum a = -2 := by
          obtain ⟨_, ht, _⟩ | ⟨_, ht, _⟩ := tdiv_tmod_two (c.unitNum a) <;> omega
        · exact .inl ⟨hlow, hzero⟩
        · have hback : (c.unitNum a).tdiv 2 = -1 := by rw [htwo]; decide
          rw [hback] at hexact
          exact .inr (.inl ⟨by omega, htwo⟩)
      · rintro (⟨_, hzero⟩ | ⟨hnext, htwo⟩ | ⟨hle, _⟩)
        · have hback : (c.unitNum a).tdiv 2 = 0 := by
            obtain h | h := hzero <;> rw [h] <;> decide
          rw [hback] at hexact ⊢
          exact ⟨rfl, by omega, by omega⟩
        · have hback : (c.unitNum a).tdiv 2 = -1 := by rw [htwo]; decide
          rw [hback] at hexact ⊢
          exact ⟨rfl, by omega, by omega⟩
        · exact absurd hle hhigh
  · have hhigh := Nat.not_lt.mp hlow
    have hnext : ¬a + c.memorySlice < 2 ^ c.fastMemBits := by omega
    rw [route_above hhigh, Routed]
    simp [FirstSlice, hlow, hnext, hhigh]

theorem issueCommand_virtualAddress (c : FlatNVMain) (ready : Media → Nat → Bool) (req : FlatRequest) :
    (c.issueCommand ready req).2.virtualAddress = req.physicalAddress := by
  unfold issueCommand
  dsimp only
  split
  · split
    · rfl
    · rfl
  · rfl

section

variable {ready : Media → Nat → Bool} {req : FlatRequest}

theorem issueCommand_low (h : req.physicalAddress < 2 ^ c.fastMemBits)
    (hready : ready (c.route req.physicalAddress).1 (c.route req.physicalAddress).2 = true) :
    (c.issueCommand ready req).1 = some (c.route req.physicalAddress) := by
  unfold issueCommand
  rw [if_pos (shiftRight_fastMemBits_eq_zero.mpr h)]
  exact congrArg Prod.fst (if_pos hready)

theorem issueCommand_high (h : 2 ^ c.fastMemBits ≤ req.physicalAddress) (x : Media × Nat)
    (hx : (c.issueCommand ready req).1 = some x) :
    x = (.slow, toU64 (req.physicalAddress - 2 * c.fastMemSize)) := by
  unfold issueCommand at hx
  rw [if_neg fun hzero => Nat.not_lt.mpr h (shiftRight_fastMemBits_eq_zero.mp hzero)] at hx
  dsimp only at hx
  split at hx
  · exact (some_inj.mp hx).symm
  · cases hx

end

end FlatNVMain

inductive FlatMemory where
  | flat (c : FlatNVMain)
  | rbla (L : FlatLayout) (d : FlatDecoder)

namespace FlatMemory

def flatMemory : FlatMemory → FlatNVMain
  | .flat c => c
  | .rbla L _ => L.flat

variable (mem : FlatMemory)

section

variable (ready : Media → Nat → Bool) (req : FlatRequest)

/-- `IsIssuable`; in front of the flat memory the address of a migrated page is translated. -/
def isIssuable : Bool × FlatRequest :=
  match mem with
  | .flat c => c.isIssuable ready req
  | .rbla L d =>
    let req :=
      if d.isMigrated L req.physicalAddress then
        { req with
          virtualAddress := req.physicalAddress
          physicalAddress := d.translate2 L req.physicalAddress }
      else req
    L.flat.isIssuable ready req

def issueCommand : Option (Media × Nat) × FlatRequest :=
  mem.flatMemory.issueCommand ready req

end

def NoPageMigrated : FlatMemory → Prop
  | .flat _ => True
  | .rbla L d => ∀ a, d.isMigrated L a = false

/-- An accepted request for an address is delivered to the device and the local address that
`IsIssuable` has tested, whatever the devices are ready for. -/
def Delivers (a : Nat) : Prop :=
  ∀ ready, (mem.isIssuable ready (.new a)).1 = true →
    (mem.issueCommand ready (mem.isIssuable ready (.new a)).2).1 =
      some ((mem.isIssuable ready (.new a)).2.media, (mem.isIssuable ready (.new a)).2.physicalAddress)

/-- A rejected request for an address is left with its address and its device. -/
def Keeps (a : Nat) : Prop :=
  ∀ ready, (mem.isIssuable ready (.new a)).1 = false →
    (mem.isIssuable ready (.new a)).2.physicalAddress = a ∧ (mem.isIssuable ready (.new a)).2.media = (FlatRequest.new a).media

variable {mem : FlatMemory} {a : Nat} {ready : Media → Nat → Bool}

theorem isIssuable_new (h : mem.NoPageMigrated) :
    mem.isIssuable ready (.new a) =
      (ready (mem.flatMemory.route a).1 (mem.flatMemory.route a).2,
        ⟨(mem.flatMemory.route a).2, a, (mem.flatMemory.route a).1⟩) := by
  cases mem with
  | flat c => rfl
  | rbla L d =>
    unfold isIssuable
    simp only [FlatRequest.new, h a]
    rfl

theorem keeps_iff (h : mem.NoPageMigrated) : mem.Keeps a ↔ mem.flatMemory.FirstSlice a := by
  rw [← FlatNVMain.route_eq_self_iff]
  constructor
  · intro hkeep
    obtain ⟨hlocal, hmedia⟩ := hkeep (fun _ _ => false) (by rw [isIssuable_new h])
    rw [isIssuable_new h] at hlocal hmedia
    exact Prod.ext hmedia hlocal
  · intro hroute ready _
    rw [isIssuable_new h, hroute]
    exact ⟨rfl, rfl⟩

theorem delivers_iff (h : mem.NoPageMigrated) : mem.Delivers a ↔ mem.flatMemory.Routed a := by
  rw [← FlatNVMain.route_firstSlice_iff]
  constructor
  · intro hdel
    -- when everything is ready, a second use of the map has to change nothing
    have hall := hdel (fun _ _ => true) (by rw [isIssuable_new h])
    rw [isIssuable_new h] at hall
    generalize mem.flatMemory.route a = tested at hall ⊢
    obtain ⟨m, l⟩ := tested
    by_cases hlow : l < 2 ^ mem.flatMemory.fastMemBits
    · have hroute : mem.flatMemory.route l = (m, l) :=
        some_inj.mp ((FlatNVMain.issueCommand_low hlow rfl).symm.trans hall)
      cases m with
      | fast => exact absurd hroute (FlatNVMain.route_ne_fast _ l)
      | slow => exact ⟨rfl, FlatNVMain.route_eq_self_iff.mp hroute⟩
    · have hsame := FlatNVMain.issueCommand_high (Nat.not_lt.mp hlow) _ hall
      exact absurd (congrArg Prod.snd hsame).symm (FlatNVMain.toU64_sub_ne _ l)
  · rintro ⟨hslow, hfirst⟩ ready haccept
    rw [isIssuable_new h] at haccept ⊢
    generalize mem.flatMemory.route a = tested at hslow hfirst haccept ⊢
    obtain ⟨m, l⟩ := tested
    obtain rfl : m = .slow := hslow
    have hroute := FlatNVMain.route_eq_self_iff.mpr hfirst
    have hready : ready (mem.flatMemory.route l).1 (mem.flatMemory.route l).2 = true := by
      rw [hroute]
      exact haccept
    exact (FlatNVMain.issueCommand_low hfirst.1 hready).trans (congrArg some hroute)

/-- For every address, with no page migrated: accepted requests are delivered as they were tested
exactly if the address is sent to the first slice of the slow device, and rejected requests are
left as they were exactly if the address lies in the first slice. -/
theorem enqueue_consistent_iff (mem : FlatMemory) (h : mem.NoPageMigrated) (a : Nat) :
    (mem.Delivers a ↔ mem.flatMemory.Routed a) ∧ (mem.Keeps a ↔ mem.flatMemory.FirstSlice a) :=
  ⟨delivers_iff h, keeps_iff h⟩

theorem enqueue_consistent_iff_four :
    (FlatMemory.flat (.fourBytes 4 (by decide))).Delivers 1 ∧ (FlatMemory.flat (.fourBytes 4 (by decide))).Keeps 1 := by
  obtain ⟨hdel, hkeep⟩ := enqueue_consistent_iff (.flat (.fourBytes 4 (by decide))) trivial 1
  have hfirst : (FlatNVMain.fourBytes 4 (by decide)).FirstSlice 1 := ⟨by decide, .inl (by decide)⟩
  exact ⟨hdel.mpr (.inl hfirst), hkeep.mpr hfirst⟩

/-- The first address of the fast device: it is tested there, and delivered to the slow device. If
the fast device is not ready, the request has become one for address zero of the fast device. -/
theorem request_misrouted :
    let mem := FlatMemory.flat (.fourBytes 4 (by decide))
    (mem.isIssuable (fun _ _ => true) (.new 2) = (true, ⟨0, 2, .fast⟩) ∧
      (mem.issueCommand (fun _ _ => true) ⟨0, 2, .fast⟩).1 = some (.slow, 0)) ∧
    mem.isIssuable (fun _ _ => false) (.new 2) = (false, ⟨0, 2, .fast⟩) := by
  decide +kernel

end FlatMemory

end Shma.Nvmain
