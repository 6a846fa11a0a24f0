import Mathlib.Algebra.Order.Archimedean.Real.Basic
import Shma.Common.Const

/-!
# The threshold of migration

`AdjustMigrateThres` of `NVM/Flat_RBLA_NVMain/FlatRBLANVMain.cpp` and of
`NVM/RBLA_NVMain/RBLA_NVMain.cpp`: the threshold climbs with the net benefit. A call with a
negative benefit raises the threshold by three and then goes on with the rule for the change of
the benefit, which takes one back if the benefit has not grown.

Benefits are exact numbers here. `RBLA_NVMain` keeps the last one in a `uint64_t`.
-/
namespace Shma.Nvmain

inductive Action where
  | init | decrement | increment
  deriving DecidableEq, Repr

/-- The static members that `AdjustMigrateThres` reads and writes. -/
structure MigrateThreshold (K : Type*) where
  migraThres : Nat
  preAction : Action
  preNetBenefit : K

namespace MigrateThreshold

variable {K : Type*}

def new [Zero K] (migraThres : Nat) : MigrateThreshold K := ⟨migraThres, .init, 0⟩

variable (s : MigrateThreshold K)

def raise (n : Nat) : MigrateThreshold K := { s with migraThres := (s.migraThres + n) % 2^64 }

def lower : MigrateThreshold K := { s with migraThres := subU64 s.migraThres 1 }

/-- The first call; `rise` is what a benefit that is not positive adds. -/
def start [Zero K] [LT K] [DecidableLT K] (rise : Nat) (s : MigrateThreshold K) (netBenefit : K) : MigrateThreshold K :=
  if 0 < netBenefit then
    let s := { s with preAction := .decrement }
    if 0 < s.migraThres then s.lower else s
  else { s with preAction := .increment }.raise rise

def onDeficit [Zero K] [LT K] [DecidableLT K] (s : MigrateThreshold K) (netBenefit : K) : MigrateThreshold K :=
  if netBenefit < 0 then { s with preAction := .increment }.raise 3 else s

def onGain : MigrateThreshold K :=
  if s.preAction = .increment then s.raise 1
  else if s.preAction = .decrement ∧ 0 < s.migraThres then s.lower
  else s

def onLoss : MigrateThreshold K :=
  if s.preAction = .increment ∧ 0 < s.migraThres then { s.lower with preAction := .decrement }
  else if s.preAction = .decrement then { s.raise 1 with preAction := .increment }
  else s

end MigrateThreshold

open MigrateThreshold

section Adjust

variable {K : Type*} [Zero K] [Sub K] [LT K] [DecidableLT K]

def FlatRBLANVMain.adjustMigrateThres [LE K] [DecidableLE K] (s : MigrateThreshold K) (netBenefit : K) :
    MigrateThreshold K :=
  let delta := netBenefit - s.preNetBenefit
  let s :=
    if s.preAction = .init then s.start 1 netBenefit
    else
      let s := s.onDeficit netBenefit
      if 0 < delta then s.onGain else if delta ≤ 0 then s.onLoss else s
  { s with preNetBenefit := netBenefit }

/-- `RBLA_NVMain::AdjustMigrateThres`. The benefit is converted when it is kept; what the conversion
makes of a negative number is not defined, so it is any function. -/
def RblaNVMain.adjustMigrateThres [NatCast K] (toUint64 : K → Nat) (s : MigrateThreshold K) (netBenefit : K) :
    MigrateThreshold K :=
  let delta := netBenefit - s.preNetBenefit
  let s :=
    if s.preAction = .init then s.start 3 netBenefit
    else
      let s := s.onDeficit netBenefit
      if 0 < delta then s.onGain else s.onLoss
  { s with preNetBenefit := (toUint64 netBenefit : K) }

end Adjust

namespace MigrateThreshold

def Directed {K : Type*} (s s' : MigrateThreshold K) : Prop :=
  s'.migraThres ≠ s.migraThres →
    (s'.preAction = .increment ↔ s.migraThres < s'.migraThres) ∧
    (s'.preAction = .decrement ↔ s'.migraThres < s.migraThres)

def NotBelowZero {K : Type*} (s s' : MigrateThreshold K) : Prop :=
  ∃ change : Int, -1 ≤ change ∧ change ≤ 4 ∧ 0 ≤ s.migraThres + change ∧
    (s'.migraThres : Int) = (s.migraThres + change) % 2^64

def EachCall {K : Type*} (adjust : MigrateThreshold K → K → MigrateThreshold K)
    (ok : MigrateThreshold K → MigrateThreshold K → Prop) : MigrateThreshold K → List K → Prop
  | _, [] => True
  | s, b :: bs => ok s (adjust s b) ∧ EachCall adjust ok (adjust s b) bs

/-! ### One call -/

section Moves

variable {K : Type*} {s : MigrateThreshold K}

def Moved (s s' : MigrateThreshold K) : Prop :=
  (∃ n, 1 ≤ n ∧ n ≤ 4 ∧ s'.migraThres = (s.migraThres + n) % 2^64 ∧ s'.preAction = .increment) ∨
  (s'.migraThres = s.migraThres - 1 ∧ s'.preAction = .decrement) ∨
  s'.migraThres = s.migraThres

variable {n : Nat} {s' : MigrateThreshold K}

theorem raise_moved (hn : 1 ≤ n ∧ n ≤ 4)
    (hthres : s'.migraThres = (s.migraThres + n) % 2^64) (hact : s'.preAction = .increment) : Moved s s' :=
  .inl ⟨n, hn.1, hn.2, hthres, hact⟩

theorem Moved.directed (h : Moved s s') (hroom : s.migraThres + 4 < 2^64) : Directed s s' := by
  intro hne
  obtain ⟨n, h1, h4, hthres, hact⟩ | ⟨hthres, hact⟩ | hsame := h
  · rw [hact]
    exact ⟨iff_of_true rfl (by omega), iff_of_false nofun (by omega)⟩
  · rw [hact]
    exact ⟨iff_of_false nofun (by omega), iff_of_true rfl (by omega)⟩
  · exact absurd hsame hne

theorem Moved.notBelowZero (h : Moved s s') (hlt : s.migraThres < 2^64) : NotBelowZero s s' := by
  obtain ⟨n, h1, h4, hthres, -⟩ | ⟨hthres, -⟩ | hsame := h
  · exact ⟨n, by omega, by omega, by omega, by omega⟩
  · by_cases hpos : 0 < s.migraThres
    · exact ⟨-1, by omega, by omega, by omega, by omega⟩
    · exact ⟨0, by omega, by omega, by omega, by omega⟩
  · exact ⟨0, by omega, by omega, by omega, by omega⟩

theorem NotBelowZero.le {s : MigrateThreshold K} (h : NotBelowZero s s') (hroom : s.migraThres + 4 < 2^64) :
    s'.migraThres ≤ s.migraThres + 4 := by
  obtain ⟨change, -, hle, hpos, hthres⟩ := h
  omega

@[simp] theorem migraThres_raise (s : MigrateThreshold K) (n : Nat) :
    (s.raise n).migraThres = (s.migraThres + n) % 2^64 := rfl

@[simp] theorem preAction_raise (s : MigrateThreshold K) (n : Nat) : (s.raise n).preAction = s.preAction := rfl

@[simp] theorem preAction_lower (s : MigrateThreshold K) : s.lower.preAction = s.preAction := by
  unfold lower
  rfl

theorem migraThres_lower (h : s.migraThres < 2^64) (hpos : 0 < s.migraThres) :
    s.lower.migraThres = s.migraThres - 1 := by
  show subU64 s.migraThres 1 = _
  unfold subU64
  omega

theorem onGain_moved (h : s.migraThres < 2^64) : Moved s s.onGain := by
  unfold onGain
  split
  · next hact => exact raise_moved ⟨Nat.le_refl 1, by decide⟩ (migraThres_raise s 1) ((preAction_raise s 1).trans hact)
  · split
    · next hdec => exact .inr (.inl ⟨migraThres_lower h hdec.2, (preAction_lower s).trans hdec.1⟩)
    · exact .inr (.inr rfl)

theorem onLoss_moved (h : s.migraThres < 2^64) : Moved s s.onLoss := by
  unfold onLoss
  split
  · next hinc => exact .inr (.inl ⟨migraThres_lower h hinc.2, rfl⟩)
  · split
    · exact raise_moved ⟨Nat.le_refl 1, by decide⟩ (migraThres_raise s 1) rfl
    · exact .inr (.inr rfl)

theorem raise_onGain (hact : s.preAction = .increment) (n : Nat) : (s.raise n).onGain = s.raise (n + 1) := by
  have hsum : ((s.migraThres + n) % 2^64 + 1) % 2^64 = (s.migraThres + (n + 1)) % 2^64 := by omega
  rw [onGain, if_pos (show (s.raise n).preAction = .increment from hact)]
  simp only [raise, hsum]

/-- A loss after a rise takes one back and is noted as a decrement. -/
theorem raise_onLoss (hact : s.preAction = .increment) (hn : 0 < n) (hroom : s.migraThres + n < 2^64) :
    (s.raise n).onLoss.migraThres = s.migraThres + (n - 1) ∧ (s.raise n).onLoss.preAction = .decrement := by
  have hthres : (s.raise n).migraThres = s.migraThres + n := mod_eq_of_lt hroom
  have hpos : 0 < (s.raise n).migraThres := by omega
  rw [onLoss, if_pos ⟨show (s.raise n).preAction = .increment from hact, hpos⟩]
  refine ⟨?_, rfl⟩
  rw [migraThres_lower (hthres ▸ hroom) hpos]
  omega

theorem start_moved [Zero K] [LT K] [DecidableLT K] {rise : Nat} (hrise : 1 ≤ rise ∧ rise ≤ 4)
    (h : s.migraThres < 2^64) (b : K) : Moved s (s.start rise b) := by
  unfold start
  split
  · dsimp only
    split
    · next hpos =>
      exact .inr (.inl ⟨migraThres_lower (s := { s with preAction := .decrement }) h hpos, rfl⟩)
    · exact .inr (.inr rfl)
  · exact raise_moved hrise rfl rfl

end Moves

section Climb

variable {K : Type*} [AddCommGroup K] [LinearOrder K]

def climb (rise : Nat) (s : MigrateThreshold K) (b : K) : MigrateThreshold K :=
  if s.preAction = .init then s.start rise b
  else if s.preNetBenefit < b then (s.onDeficit b).onGain
  else (s.onDeficit b).onLoss

def climbKeeping (rise : Nat) (keep : K → K) (s : MigrateThreshold K) (b : K) : MigrateThreshold K :=
  { s.climb rise b with preNetBenefit := keep b }

theorem flat_eq_climb [IsOrderedAddMonoid K] : FlatRBLANVMain.adjustMigrateThres (K := K) = climbKeeping 1 id := by
  funext s b
  unfold FlatRBLANVMain.adjustMigrateThres climbKeeping climb
  simp only [sub_pos, sub_nonpos]
  by_cases hlt : s.preNetBenefit < b
  · simp only [if_pos hlt]
    rfl
  · simp only [if_neg hlt, if_pos (not_lt.mp hlt)]
    rfl

theorem rbla_eq_climb [IsOrderedAddMonoid K] [NatCast K] (toUint64 : K → Nat) :
    RblaNVMain.adjustMigrateThres toUint64 = climbKeeping 3 fun b => (toUint64 b : K) := by
  funext s b
  unfold RblaNVMain.adjustMigrateThres climbKeeping climb
  simp only [sub_pos]

variable {rise : Nat} {s : MigrateThreshold K} {b : K}

def Regular (s : MigrateThreshold K) (b : K) : Prop := s.preAction = .init ∨ 0 ≤ b ∨ s.preNetBenefit < b

theorem Regular.moved (h : s.Regular b) (hlt : s.migraThres < 2^64) (hrise : 1 ≤ rise ∧ rise ≤ 4) :
    Moved s (s.climb rise b) := by
  unfold climb
  split
  · exact start_moved hrise hlt b
  · next hinit =>
    by_cases hneg : b < 0
    · -- a deficit, smaller than the one before
      have hgrown : s.preNetBenefit < b := (h.resolve_left hinit).resolve_left (not_le.mpr hneg)
      rw [if_pos hgrown, onDeficit, if_pos hneg, raise_onGain rfl]
      exact raise_moved ⟨by decide, Nat.le_refl 4⟩ rfl rfl
    · rw [onDeficit]
      split
      · exact onGain_moved hlt
      · exact onLoss_moved hlt

/-- Any other call goes up by two and notes a decrement. -/
theorem climb_of_not_regular (h : ¬ s.Regular b) (hroom : s.migraThres + 3 < 2^64) :
    (s.climb rise b).migraThres = s.migraThres + 2 ∧ (s.climb rise b).preAction = .decrement := by
  simp only [Regular, not_or, not_le, not_lt] at h
  obtain ⟨hinit, hneg, hle⟩ := h
  rw [climb, if_neg hinit, if_neg (not_lt.mpr hle), onDeficit, if_pos hneg]
  exact raise_onLoss rfl (by decide) hroom

theorem climb_directed_iff (hrise : 1 ≤ rise ∧ rise ≤ 4) (hroom : s.migraThres + 4 < 2^64) :
    Directed s (s.climb rise b) ↔ s.Regular b := by
  constructor
  · intro hdir
    by_contra hirr
    obtain ⟨hthres, hact⟩ : (s.climb rise b).migraThres = s.migraThres + 2 ∧ (s.climb rise b).preAction = .decrement :=
      climb_of_not_regular hirr (by omega)
    have hdown := (hdir (by omega)).2.mp hact
    omega
  · exact fun hreg => (hreg.moved (by omega) hrise).directed hroom

theorem climb_notBelowZero (hrise : 1 ≤ rise ∧ rise ≤ 4) (hlt : s.migraThres < 2^64) :
    NotBelowZero s (s.climb rise b) := by
  by_cases hreg : s.Regular b
  · exact (hreg.moved hlt hrise).notBelowZero hlt
  · simp only [Regular, not_or, not_le, not_lt] at hreg
    obtain ⟨hinit, hneg, hle⟩ := hreg
    rw [climb, if_neg hinit, if_neg (not_lt.mpr hle), onDeficit, if_pos hneg, onLoss]
    have hraised : (({ s with preAction := .increment } : MigrateThreshold K).raise 3).migraThres =
        (s.migraThres + 3) % 2^64 := rfl
    split
    · next hpos =>
      refine ⟨2, by omega, by omega, by omega, ?_⟩
      rw [migraThres_lower (by omega) hpos.2]
      omega
    · refine ⟨3, by omega, by omega, by omega, ?_⟩
      rw [if_neg (by simp [raise])]
      omega

theorem climb_preAction_ne_init : (s.climb rise b).preAction ≠ .init := by
  have hdeficit : s.preAction ≠ .init → (s.onDeficit b).preAction ≠ .init := by
    intro hinit
    unfold onDeficit
    split
    · exact nofun
    · exact hinit
  unfold climb
  split
  · unfold start
    split
    · dsimp only
      split <;> exact nofun
    · exact nofun
  · next hinit =>
    split
    · unfold onGain
      split
      · exact hdeficit hinit
      · split
        · rw [preAction_lower]
          exact hdeficit hinit
        · exact hdeficit hinit
    · unfold onLoss
      split
      · exact nofun
      · split
        · exact nofun
        · exact hdeficit hinit

end Climb

/-! ### Runs -/

theorem isChain_snd_iff {K : Type*} {P : K → Prop} (bs : List K) (b : K) :
    (b :: bs).IsChain (fun _ b' => P b') ↔ ∀ b' ∈ bs, P b' := by
  induction bs generalizing b with
  | nil => exact iff_of_true (.singleton _) (forall_mem_nil _)
  | cons b' bs ih => rw [List.isChain_cons_cons, ih b', forall_mem_cons]

section Runs

variable {K : Type*} [AddCommGroup K] [LinearOrder K] {rise : Nat} {keep : K → K}

variable (hrise : 1 ≤ rise ∧ rise ≤ 4)
include hrise

theorem eachCall_directed_iff (bs : List K) {s : MigrateThreshold K} {last : K}
    (hinit : s.preAction ≠ .init) (hlast : s.preNetBenefit = keep last) (hroom : s.migraThres + 4 * bs.length < 2^64) :
    EachCall (climbKeeping rise keep) Directed s bs ↔
      (last :: bs).IsChain fun b b' => 0 ≤ b' ∨ keep b < b' := by
  induction bs generalizing s last with
  | nil => exact iff_of_true trivial (.singleton _)
  | cons b bs ih =>
    rw [length_cons] at hroom
    have hle := (climb_notBelowZero (b := b) hrise (show s.migraThres < 2^64 by omega)).le (by omega)
    have hregular : s.Regular b ↔ 0 ≤ b ∨ keep last < b := by rw [Regular, hlast, or_iff_right hinit]
    have hdirected : Directed s (s.climb rise b) ↔ s.Regular b := climb_directed_iff hrise (by omega)
    have hrest := @ih (s.climbKeeping rise keep b) b climb_preAction_ne_init rfl
      (show (s.climb rise b).migraThres + 4 * bs.length < 2^64 by omega)
    rw [List.isChain_cons_cons, ← hregular, ← hdirected, ← hrest]
    rfl

theorem eachCall_notBelowZero (bs : List K) {s : MigrateThreshold K}
    (hlt : s.migraThres < 2^64) : EachCall (climbKeeping rise keep) NotBelowZero s bs := by
  induction bs generalizing s with
  | nil => trivial
  | cons b bs ih =>
    have hcall : NotBelowZero s (s.climb rise b) := climb_notBelowZero hrise hlt
    refine ⟨hcall, ih ?_⟩
    show (s.climb rise b).migraThres < 2^64
    obtain ⟨change, -, -, -, hthres⟩ := hcall
    omega

theorem eachCall_new_iff (bs : List K) {t : Nat} (hroom : t + 4 * bs.length < 2^64) :
    EachCall (climbKeeping rise keep) Directed (new t) bs ↔ bs.IsChain fun b b' => 0 ≤ b' ∨ keep b < b' := by
  cases bs with
  | nil => exact iff_of_true trivial .nil
  | cons b bs =>
    rw [length_cons] at hroom
    have hlt : (new t : MigrateThreshold K).migraThres < 2^64 := show t < 2^64 by omega
    have hfirst : Directed (new t) ((new t).climb rise b) :=
      (climb_directed_iff hrise (show t + 4 < 2^64 by omega)).mpr (.inl rfl)
    have hle : ((new t).climb rise b).migraThres ≤ t + 4 :=
      (climb_notBelowZero hrise hlt).le (show t + 4 < 2^64 by omega)
    refine Iff.trans (and_iff_right hfirst) (eachCall_directed_iff hrise bs climb_preAction_ne_init rfl ?_)
    show ((new t).climb rise b).migraThres + 4 * bs.length < 2^64
    omega

end Runs

/-- The direction is noted by every call exactly if no benefit after the first is negative without
having grown. A `RBLA_NVMain` compares with a number that is not negative, so there no benefit after
the first is negative. Nothing is subtracted from zero. -/
theorem direction_noted_iff (toUint64 : ℝ → Nat) {t : Nat} (ht : t < 2^64) (bs : List ℝ) :
    (t + 4 * bs.length < 2^64 →
      (EachCall FlatRBLANVMain.adjustMigrateThres Directed (new t) bs ↔ bs.IsChain fun b b' => 0 ≤ b' ∨ b < b') ∧
      (EachCall (RblaNVMain.adjustMigrateThres toUint64) Directed (new t) bs ↔ ∀ b ∈ bs.tail, 0 ≤ b)) ∧
    EachCall FlatRBLANVMain.adjustMigrateThres NotBelowZero (new t) bs ∧
    EachCall (RblaNVMain.adjustMigrateThres toUint64) NotBelowZero (new t) bs := by
  rw [flat_eq_climb, rbla_eq_climb]
  refine ⟨fun hroom => ⟨eachCall_new_iff ⟨by decide, by decide⟩ bs hroom, ?_⟩,
    eachCall_notBelowZero ⟨by decide, by decide⟩ bs ht, eachCall_notBelowZero ⟨by decide, by decide⟩ bs ht⟩
  rw [eachCall_new_iff ⟨by decide, by decide⟩ bs hroom]
  have hnonneg : ∀ b b' : ℝ, 0 ≤ b' ∨ (toUint64 b : ℝ) < b' ↔ 0 ≤ b' := by
    intro b b'
    exact or_iff_left_of_imp fun hlt => (Nat.cast_nonneg _).trans hlt.le
  simp only [hnonneg]
  cases bs with
  | nil => exact iff_of_true .nil (forall_mem_nil _)
  | cons b bs => exact isChain_snd_iff bs b

/-- A benefit that grows. -/
theorem direction_noted_iff_growing : 5 < 2^64 ∧
    EachCall FlatRBLANVMain.adjustMigrateThres Directed (new 5 : MigrateThreshold ℝ) [-2, -1, 3] ∧
    EachCall (RblaNVMain.adjustMigrateThres Nat.floor) Directed (new 5 : MigrateThreshold ℝ) [-2, 0, 3] := by
  have ht : 5 < 2^64 := by decide
  have hflat := (((direction_noted_iff Nat.floor ht [-2, -1, 3]).1 (by decide)).1).mpr
  have hrbla := (((direction_noted_iff Nat.floor ht [-2, 0, 3]).1 (by decide)).2).mpr
  refine ⟨ht, hflat ?_, hrbla ?_⟩
  · norm_num
  · simp

/-- A benefit that turns negative: the threshold goes from four to six, and the action is a
decrement. -/
theorem deficit_noted_as_decrement :
    (∃ s, FlatRBLANVMain.adjustMigrateThres (new 5) (1 : ℝ) = s ∧ s.migraThres = 4 ∧
      (FlatRBLANVMain.adjustMigrateThres s (-1)).migraThres = 6 ∧
      (FlatRBLANVMain.adjustMigrateThres s (-1)).preAction = .decrement) ∧
    (∃ s, RblaNVMain.adjustMigrateThres Nat.floor (new 5) (1 : ℝ) = s ∧ s.migraThres = 4 ∧
      (RblaNVMain.adjustMigrateThres Nat.floor s (-1)).migraThres = 6 ∧
      (RblaNVMain.adjustMigrateThres Nat.floor s (-1)).preAction = .decrement) := by
  have hfirst : ∀ rise, (new 5 : MigrateThreshold ℝ).climb rise 1 = ⟨4, .decrement, 0⟩ := by
    intro rise
    rw [climb, start, if_pos one_pos]
    rfl
  have hsecond : ∀ rise (keep : ℝ → ℝ), keep 1 = 1 →
      ((⟨4, .decrement, keep 1⟩ : MigrateThreshold ℝ).climb rise (-1)).migraThres = 6 ∧
      ((⟨4, .decrement, keep 1⟩ : MigrateThreshold ℝ).climb rise (-1)).preAction = .decrement := by
    intro rise keep hkeep
    refine climb_of_not_regular ?_ (show 4 + 3 < 2^64 by decide)
    rw [hkeep]
    rintro (h | h | h)
    · cases h
    · norm_num at h
    · norm_num at h
  rw [flat_eq_climb, rbla_eq_climb]
  refine ⟨⟨_, rfl, ?_⟩, ⟨_, rfl, ?_⟩⟩ <;> rw [climbKeeping, hfirst]
  · exact ⟨rfl, hsecond 1 id rfl⟩
  · exact ⟨rfl, hsecond 3 (fun b => (⌊b⌋₊ : ℝ)) (by simp)⟩

end MigrateThreshold

end Shma.Nvmain
