import Shma.Common.Const
import Shma.Lib.Outstanding
import Shma.Lib.Run

/-!
# The block fetcher

`Utils/BlockFetcher/BlockFetcher.cpp` and the part of
`Decoders/BufferDecoder/BufferDecoder.cpp` that it uses: a block is copied by a read
of its source and a write of its destination, which are issued together and complete
in any order. The decoder notes the two blocks by the upper bits of their addresses,
shifted by the amount of the last transfer. While a transfer runs, further ones are
put off for some cycles; one that the memory cannot take is dropped.

Cycles are left out; the tags of requests and the count of evictions are in `TransferRetry`.
-/
namespace Shma.Nvmain

open Lib Lib.Run

structure BufferDecoder where
  (srcKey dstKey : Nat)
  opState : Nat → Option Bool
  caching : Bool
  cacheTime : Nat

namespace BufferDecoder

def new : BufferDecoder := ⟨0, 0, fun _ => none, false, 0⟩

def startBuffer (b : BufferDecoder) (srcAddr dstAddr offsetShift : Nat) : Option BufferDecoder :=
  let srcKey := srcAddr >>> offsetShift
  let dstKey := dstAddr >>> offsetShift
  (assertThat (b.caching = false)).bind fun _ =>
  (assertThat (b.opState srcKey = none)).bind fun _ =>
  (assertThat (b.opState dstKey = none)).map fun _ =>
    { b with
      srcKey, dstKey
      opState := update (update b.opState srcKey (some false)) dstKey (some false)
      caching := true }

/-- `SetOpComplete`: whether the transfer is complete with this operation. -/
def setOpComplete (b : BufferDecoder) (addr offsetShift : Nat) : Option (Bool × BufferDecoder) :=
  let key := addr >>> offsetShift
  (assertThat (b.opState key ≠ none)).map fun _ =>
    let opState := update b.opState key (some true)
    if opState b.srcKey = some true ∧ opState b.dstKey = some true then
      (true, { b with opState := fun _ => none, caching := false, cacheTime := b.cacheTime + 1 })
    else (false, { b with opState })

end BufferDecoder

structure FetchRequest where
  (srcAddr dstAddr dataSize : Nat)
  (srcIsBuffer dstIsBuffer : Bool)
  deriving DecidableEq

inductive Half where
  | read | write
  deriving DecidableEq

instance : Fintype Half := ⟨{.read, .write}, fun i => by cases i <;> decide⟩

structure FetchOp where
  type : Half
  (address burstCount : Nat)
  deriving DecidableEq

structure BlockFetcher where
  (memColSize bufferColSize offsetShift : Nat)
  translator : BufferDecoder
  succeedCacheTime : Nat

namespace BlockFetcher

def new (memColSize bufferColSize : Nat) : BlockFetcher := ⟨memColSize, bufferColSize, 0, .new, 0⟩

def ops (f : BlockFetcher) (req : FetchRequest) : Half → FetchOp
  | .read => ⟨.read, req.srcAddr, req.dataSize / if req.srcIsBuffer then f.bufferColSize else f.memColSize⟩
  | .write => ⟨.write, req.dstAddr, req.dataSize / if req.dstIsBuffer then f.bufferColSize else f.memColSize⟩

/-- `Fetch`, where `ready` is what `CheckIssuable` finds; `Log2` asserts that its argument is
positive. The transfer that is started, if any, is returned. -/
def fetch (f : BlockFetcher) (req : FetchRequest) (ready : Half → Bool) : Option (BlockFetcher × Option FetchRequest) :=
  (assertThat (f.translator.caching = false)).bind fun _ =>
    if ready .read && ready .write then
      (assertThat (0 < req.dataSize)).bind fun _ =>
        let offsetShift := Nat.log2 req.dataSize
        (f.translator.startBuffer req.srcAddr req.dstAddr offsetShift).map fun translator =>
          ({ f with offsetShift, translator }, some req)
    else some (f, none)

def opComplete (f : BlockFetcher) (op : FetchOp) : Option BlockFetcher :=
  (f.translator.setOpComplete op.address f.offsetShift).map fun (completed, translator) =>
    { f with translator, succeedCacheTime := if completed then f.succeedCacheTime + 1 else f.succeedCacheTime }

end BlockFetcher

/-- The fetcher, the requests that it has issued and that have not completed, the transfers put off,
and what is noted: the last transfer that was started and how many were. -/
structure Fetching where
  fetcher : BlockFetcher
  inflight : Multiset FetchOp
  delayed : Multiset FetchRequest
  transfer : Option FetchRequest
  started : Nat

namespace Fetching

def new (memColSize bufferColSize : Nat) : Fetching := ⟨.new memColSize bufferColSize, 0, 0, none, 0⟩

def issue (s : Fetching) (fetcher : BlockFetcher) : Option FetchRequest → Fetching
  | none => { s with fetcher }
  | some req =>
    { s with
      fetcher
      inflight := fetcher.ops req .read ::ₘ fetcher.ops req .write ::ₘ s.inflight
      transfer := some req
      started := s.started + 1 }

def issueCommand (s : Fetching) (req : FetchRequest) (ready : Half → Bool) : Option Fetching :=
  if s.fetcher.translator.caching = false then (s.fetcher.fetch req ready).map fun x => s.issue x.1 x.2
  else some { s with delayed := req ::ₘ s.delayed }

/-- A transfer is asked for, comes up again, or one of the requests completes. -/
inductive Event where
  | request (req : FetchRequest) (ready : Half → Bool)
  | retry (req : FetchRequest) (ready : Half → Bool)
  | complete (op : FetchOp)

def step (s : Fetching) : Event → Option Fetching
  | .request req ready => s.issueCommand req ready
  | .retry req ready => { s with delayed := s.delayed.erase req }.issueCommand req ready
  | .complete op =>
    (s.fetcher.opComplete op).map fun fetcher => { s with fetcher, inflight := s.inflight.erase op }

def block (req : FetchRequest) (addr : Nat) : Nat := addr >>> Nat.log2 req.dataSize

def Blocks (req : FetchRequest) : Prop := 0 < req.dataSize ∧ block req req.srcAddr ≠ block req req.dstAddr
  deriving Decidable

def Allowed (s : Fetching) : Event → Prop
  | .request req _ => Blocks req
  | .retry req _ => req ∈ s.delayed
  | .complete op => op ∈ s.inflight

instance (s : Fetching) : ∀ e, Decidable (Allowed s e)
  | .request req _ => inferInstanceAs (Decidable (Blocks req))
  | .retry req _ => inferInstanceAs (Decidable (req ∈ s.delayed))
  | .complete op => inferInstanceAs (Decidable (op ∈ s.inflight))

/-! ### The transfer that runs -/

structure Idle (s : Fetching) : Prop where
  caching : s.fetcher.translator.caching = false
  opState : ∀ k, s.fetcher.translator.opState k = none
  inflight : s.inflight = 0
  cacheTime : s.fetcher.translator.cacheTime = s.started
  succeedCacheTime : s.fetcher.succeedCacheTime = s.started

def key (req : FetchRequest) : Half → Nat
  | .read => block req req.srcAddr
  | .write => block req req.dstAddr

structure Active (s : Fetching) (req : FetchRequest) (out : Half → Bool) : Prop where
  caching : s.fetcher.translator.caching = true
  transfer : s.transfer = some req
  blocks : Blocks req
  offsetShift : s.fetcher.offsetShift = Nat.log2 req.dataSize
  srcKey : s.fetcher.translator.srcKey = key req .read
  dstKey : s.fetcher.translator.dstKey = key req .write
  inflight : s.inflight = outstanding (s.fetcher.ops req) out
  state : ∀ i, s.fetcher.translator.opState (key req i) = some (!out i)
  others : ∀ k, (∀ i, k ≠ key req i) → s.fetcher.translator.opState k = none
  cacheTime : s.fetcher.translator.cacheTime + 1 = s.started
  succeedCacheTime : s.fetcher.succeedCacheTime + 1 = s.started

structure Inv (s : Fetching) : Prop where
  phase : Idle s ∨ ∃ req out, Active s req out ∧ ∃ i, out i = true
  delayed : ∀ req ∈ s.delayed, Blocks req

variable {s : Fetching} {req : FetchRequest} {ready : Half → Bool} {out : Half → Bool} {i : Half}

theorem key_inj (h : Blocks req) : Function.Injective (key req) := by
  intro i j hij
  cases i <;> cases j
  · rfl
  · exact absurd hij h.2
  · exact absurd hij.symm h.2
  · rfl

theorem shiftRight_ops_address (f : BlockFetcher) (req : FetchRequest) (i : Half) :
    (f.ops req i).address >>> Nat.log2 req.dataSize = key req i := by
  cases i <;> rfl

theorem Idle.startBuffer (h : Idle s) (req : FetchRequest) :
    s.fetcher.translator.startBuffer req.srcAddr req.dstAddr (Nat.log2 req.dataSize) = some
      { s.fetcher.translator with
        srcKey := key req .read
        dstKey := key req .write
        opState := update (update s.fetcher.translator.opState (key req .read) (some false))
          (key req .write) (some false)
        caching := true } := by
  apply assertThat_bind_eq_some.mpr
  refine ⟨h.caching, assertThat_bind_eq_some.mpr ⟨h.opState _, ?_⟩⟩
  exact assertThat_map_eq_some.mpr ⟨h.opState _, rfl⟩

theorem Idle.fetch (h : Idle s) (hb : Blocks req) (ready : Half → Bool) :
    ∃ x, s.fetcher.fetch req ready = some x ∧
      (Idle (s.issue x.1 x.2) ∨ Active (s.issue x.1 x.2) req fun _ => true) := by
  unfold BlockFetcher.fetch
  rw [assertThat_true h.caching]
  by_cases hready : (ready .read && ready .write) = true
  · rw [if_pos hready, assertThat_true hb.1]
    dsimp only
    rw [h.startBuffer req]
    refine ⟨_, rfl, .inr ?_⟩
    constructor
    case caching => rfl
    case transfer => rfl
    case blocks => exact hb
    case offsetShift => rfl
    case srcKey => rfl
    case dstKey => rfl
    case inflight =>
      show _ ::ₘ _ ::ₘ s.inflight = _
      rw [h.inflight]
      rfl
    case state =>
      intro i
      cases i with
      | read => exact (update_of_ne hb.2 ..).trans (update_self ..)
      | write => exact update_self ..
    case others =>
      intro k hk
      refine (update_of_ne (hk .write) ..).trans ?_
      exact (update_of_ne (hk .read) ..).trans (h.opState k)
    case cacheTime => exact congrArg (· + 1) h.cacheTime
    case succeedCacheTime => exact congrArg (· + 1) h.succeedCacheTime
  · rw [if_neg hready]
    exact ⟨_, rfl, .inl { h with }⟩

theorem Active.setOpComplete (h : Active s req out) (i : Half) :
    s.fetcher.translator.setOpComplete (s.fetcher.ops req i).address s.fetcher.offsetShift = some
      (if ∀ j, update out i false j = false then
        (true, { s.fetcher.translator with
          opState := fun _ => none, caching := false, cacheTime := s.fetcher.translator.cacheTime + 1 })
      else (false, { s.fetcher.translator with
        opState := update s.fetcher.translator.opState (key req i) (some true) })) := by
  have hstate : ∀ j, update s.fetcher.translator.opState (key req i) (some true) (key req j) =
      some (!update out i false j) := by
    intro j
    by_cases hj : j = i
    · rw [hj, update_self, update_self]
      rfl
    · rw [update_of_ne ((key_inj h.blocks).ne hj), update_of_ne hj, h.state]
  have hsome : s.fetcher.translator.opState (key req i) ≠ none := by
    rw [h.state]
    exact some_ne_none _
  have hcomplete : (update s.fetcher.translator.opState (key req i) (some true) s.fetcher.translator.srcKey =
      some true ∧ update s.fetcher.translator.opState (key req i) (some true) s.fetcher.translator.dstKey =
      some true) ↔ ∀ j, update out i false j = false := by
    rw [h.srcKey, h.dstKey, hstate, hstate, some_inj, some_inj, Bool.not_eq_true', Bool.not_eq_true']
    constructor
    · rintro ⟨hr, hw⟩ j
      cases j with
      | read => exact hr
      | write => exact hw
    · intro hall
      exact ⟨hall .read, hall .write⟩
  unfold BufferDecoder.setOpComplete
  rw [h.offsetShift, shiftRight_ops_address]
  dsimp only
  rw [assertThat_true hsome, map_some]
  simp only [hcomplete]

theorem Active.opState_ne_none (h : Active s req out) (k : Nat) :
    s.fetcher.translator.opState k ≠ none ↔ k = block req req.srcAddr ∨ k = block req req.dstAddr := by
  constructor
  · intro hk
    by_contra hother
    rw [not_or] at hother
    refine hk (h.others k fun i => ?_)
    cases i with
    | read => exact hother.1
    | write => exact hother.2
  · rintro (rfl | rfl)
    · exact (h.state .read).trans_ne (some_ne_none _)
    · exact (h.state .write).trans_ne (some_ne_none _)

theorem Active.complete (h : Active s req out) (hi : out i = true) :
    ∃ s', step s (.complete (s.fetcher.ops req i)) = some s' ∧ s'.delayed = s.delayed ∧
      (Idle s' ∨ ∃ out', Active s' req out' ∧ ∃ j, out' j = true) := by
  have hinflight : s.inflight.erase (s.fetcher.ops req i) =
      outstanding (s.fetcher.ops req) (update out i false) := by
    rw [h.inflight, outstanding_erase hi]
  simp only [step, BlockFetcher.opComplete, h.setOpComplete i, map_some]
  refine ⟨_, rfl, rfl, ?_⟩
  by_cases hlast : ∀ j, update out i false j = false
  · left
    simp only [if_pos hlast]
    refine ⟨rfl, fun _ => rfl, hinflight.trans (outstanding_eq_zero.mpr hlast), h.cacheTime, h.succeedCacheTime⟩
  · right
    simp only [if_neg hlast]
    refine ⟨update out i false, ?_, ?_⟩
    · refine { h with inflight := hinflight, state := fun j => ?_, others := fun k hk => ?_ }
      · by_cases hj : j = i
        · rw [hj, update_self]
          exact update_self ..
        · rw [update_of_ne hj]
          exact (update_of_ne ((key_inj h.blocks).ne hj) ..).trans (h.state j)
      · exact (update_of_ne (hk i) ..).trans (h.others k hk)
    · obtain ⟨j, hj⟩ := not_forall.mp hlast
      exact ⟨j, Bool.not_eq_false _ ▸ hj⟩

section

variable (h : Idle s ∨ ∃ req out, Active s req out ∧ ∃ i, out i = true)
include h

/-- A transfer is asked for: it is started or dropped, or put off while another one runs. -/
theorem issueCommand_phase (hb : Blocks req) :
    ∃ s', s.issueCommand req ready = some s' ∧ (Idle s' ∨ ∃ req out, Active s' req out ∧ ∃ i, out i = true) ∧
      ∀ q ∈ s'.delayed, q = req ∨ q ∈ s.delayed := by
  rcases h with h | ⟨cur, out, h, hi⟩
  · obtain ⟨x, hx, hphase⟩ := h.fetch hb ready
    refine ⟨s.issue x.1 x.2, (if_pos h.caching).trans (congrArg _ hx), ?_, fun q hq => .inr ?_⟩
    · rcases hphase with hidle | hactive
      · exact .inl hidle
      · exact .inr ⟨req, _, hactive, .read, rfl⟩
    · have hsame : (s.issue x.1 x.2).delayed = s.delayed := by
        cases x.2 <;> rfl
      exact hsame ▸ hq
  · refine ⟨{ s with delayed := req ::ₘ s.delayed }, ?_, .inr ⟨cur, out, ?_, hi⟩, fun _ hq => Multiset.mem_cons.mp hq⟩
    · apply if_neg
      rw [h.caching]
      exact nofun
    · exact { h with }

theorem phase_withDelayed (delayed : Multiset FetchRequest) :
    Idle { s with delayed } ∨ ∃ req out, Active { s with delayed } req out ∧ ∃ i, out i = true := by
  rcases h with h | ⟨cur, out, h, hi⟩
  · exact .inl { h with }
  · exact .inr ⟨cur, out, { h with }, hi⟩

end

theorem Inv.step {e : Event} (h : Inv s) (hallowed : Allowed s e) : ∃ s', Fetching.step s e = some s' ∧ Inv s' := by
  cases e with
  | request req ready =>
    obtain ⟨s', hs, hphase, hdelayed⟩ := issueCommand_phase h.phase hallowed
    refine ⟨s', hs, hphase, fun q hq => ?_⟩
    obtain rfl | hold := hdelayed q hq
    · exact hallowed
    · exact h.delayed q hold
  | retry req ready =>
    have hb := h.delayed req hallowed
    obtain ⟨s', hs, hphase, hdelayed⟩ := issueCommand_phase (phase_withDelayed h.phase (s.delayed.erase req)) hb
    refine ⟨s', hs, hphase, fun q hq => ?_⟩
    obtain rfl | hold := hdelayed q hq
    · exact hb
    · exact h.delayed q (Multiset.mem_of_mem_erase hold)
  | complete op =>
    have hmem : op ∈ s.inflight := hallowed
    rcases h.phase with hidle | ⟨req, out, hactive, _⟩
    · rw [hidle.inflight] at hmem
      cases hmem
    · rw [hactive.inflight] at hmem
      obtain ⟨i, hi, rfl⟩ := mem_outstanding.mp hmem
      obtain ⟨s', hs, hd, hphase⟩ := hactive.complete hi
      refine ⟨s', hs, ?_, hd ▸ h.delayed⟩
      rcases hphase with hidle | ⟨out', hactive', hj⟩
      · exact .inl hidle
      · exact .inr ⟨req, out', hactive', hj⟩

theorem inv_new (memColSize bufferColSize : Nat) : Inv (new memColSize bufferColSize) :=
  ⟨.inl ⟨rfl, fun _ => rfl, rfl, rfl, rfl⟩, fun _ hq => absurd hq (Multiset.notMem_zero _)⟩

/-- Whatever transfers are asked for and in whatever order their requests complete, no assertion
fails. `isCaching` holds exactly while a read or a write has not completed, all that have not belong
to one transfer, and then the keys of its two blocks are noted and no others. Both counters have
counted every transfer that was started, but for the one that runs. -/
theorem run_transfers (memColSize bufferColSize : Nat) (events : List Event)
    (hallowed : AllSteps step Allowed (new memColSize bufferColSize) events) :
    ∃ s, run step (new memColSize bufferColSize) events = some s ∧
      (s.fetcher.translator.caching = true ↔ s.inflight ≠ 0) ∧
      (s.fetcher.translator.caching = true → ∃ req out, s.transfer = some req ∧
        s.inflight = outstanding (s.fetcher.ops req) out ∧
        ∀ k, s.fetcher.translator.opState k ≠ none ↔ k = block req req.srcAddr ∨ k = block req req.dstAddr) ∧
      s.fetcher.translator.cacheTime + (if s.fetcher.translator.caching then 1 else 0) = s.started ∧
      s.fetcher.succeedCacheTime + (if s.fetcher.translator.caching then 1 else 0) = s.started := by
  obtain ⟨s, hrun, hinv⟩ := run_isSome step (fun s e h ha => h.step ha) events (inv_new memColSize bufferColSize)
    hallowed
  refine ⟨s, hrun, ?_⟩
  rcases hinv.phase with h | ⟨req, out, h, i, hi⟩
  · refine ⟨?_, fun hcaching => ?_, ?_, ?_⟩
    · rw [h.caching, h.inflight]
      decide
    · rw [h.caching] at hcaching
      cases hcaching
    · rw [h.caching]
      exact h.cacheTime
    · rw [h.caching]
      exact h.succeedCacheTime
  · refine ⟨iff_of_true h.caching ?_, fun _ => ⟨req, out, h.transfer, h.inflight, h.opState_ne_none⟩, ?_, ?_⟩
    · rw [h.inflight, ne_eq, outstanding_eq_zero]
      intro hall
      rw [hall i] at hi
      cases hi
    · rw [h.caching]
      exact h.cacheTime
    · rw [h.caching]
      exact h.succeedCacheTime

/-- A transfer between the blocks `0` and `1`; one between the blocks `2` and `3` is put off
twice. -/
theorem run_transfers_two :
    let a : FetchRequest := ⟨0, 64, 64, false, true⟩
    let b : FetchRequest := ⟨192, 128, 64, true, false⟩
    let events : List Event := [.request a fun _ => true, .request b fun _ => true, .complete ⟨.write, 64, 4⟩,
      .retry b fun _ => true, .complete ⟨.read, 0, 8⟩, .retry b fun _ => true]
    AllSteps step Allowed (new 8 16) events ∧ ∃ s, run step (new 8 16) events = some s ∧
      (s.fetcher.translator.caching = true ↔ s.inflight ≠ 0) ∧
      s.fetcher.translator.cacheTime + (if s.fetcher.translator.caching then 1 else 0) = s.started := by
  intro a b events
  have hallowed : AllSteps step Allowed (new 8 16) events := by decide +kernel
  obtain ⟨s, hrun, hcaching, _, hcount, _⟩ := run_transfers 8 16 events hallowed
  exact ⟨hallowed, s, hrun, hcaching, hcount⟩

theorem Inv.idle (h : Inv s) (hinflight : s.inflight = 0) : Idle s := by
  rcases h.phase with hidle | ⟨req, out, hactive, i, hi⟩
  · exact hidle
  · rw [hactive.inflight, outstanding_eq_zero] at hinflight
    cases hi.symm.trans (hinflight i)

theorem drain {ops : List FetchOp} (h : Inv s) (hops : (ops : Multiset FetchOp) = s.inflight) :
    ∃ s', run step s (ops.map .complete) = some s' ∧ Idle s' ∧ s'.started = s.started ∧ s'.delayed = s.delayed := by
  induction ops generalizing s with
  | nil => exact ⟨s, rfl, h.idle hops.symm, rfl, rfl⟩
  | cons op ops ih =>
    have hmem : op ∈ s.inflight := by
      rw [← hops]
      exact Multiset.mem_coe.mpr mem_cons_self
    obtain ⟨s1, hs1, hinv⟩ := h.step (e := .complete op) hmem
    obtain ⟨fetcher, -, rfl⟩ := map_eq_some_iff.mp hs1
    have hrest : (ops : Multiset FetchOp) = s.inflight.erase op := by
      rw [← hops, Multiset.coe_erase, List.erase_cons_head]
    obtain ⟨s', hr, hidle, hstarted, hdelayed⟩ := ih hinv hrest
    exact ⟨s', (run_cons_eq_some step).mpr ⟨_, hs1, hr⟩, hidle, hstarted, hdelayed⟩

/-- After any run, once the requests in flight have completed, in whatever order, no transfer runs,
nothing is noted of one, and both counters are the number of transfers that were started. -/
theorem completions_end_transfer {memColSize bufferColSize : Nat} {events : List Event}
    (hallowed : AllSteps step Allowed (new memColSize bufferColSize) events)
    (hr : run step (new memColSize bufferColSize) events = some s) {ops : List FetchOp}
    (hops : (ops : Multiset FetchOp) = s.inflight) :
    ∃ s', run step s (ops.map .complete) = some s' ∧ Idle s' ∧ s'.started = s.started ∧ s'.delayed = s.delayed := by
  have hstart := inv_new memColSize bufferColSize
  obtain ⟨s1, hs1, hinv⟩ := run_isSome step (fun s e h ha => h.step ha) events hstart hallowed
  cases hs1.symm.trans hr
  exact drain hinv hops

/-- The write completes before the read. -/
theorem completions_end_transfer_one : ∃ s,
    run step (new 8 16) [.request ⟨0, 64, 64, false, true⟩ fun _ => true] = some s ∧
      ∃ s', run step s ([⟨.write, 64, 4⟩, ⟨.read, 0, 8⟩].map .complete) = some s' ∧ Idle s' := by
  obtain ⟨s, hr, hops⟩ : ∃ s, run step (new 8 16) [.request ⟨0, 64, 64, false, true⟩ fun _ => true] = some s ∧
      (([⟨.write, 64, 4⟩, ⟨.read, 0, 8⟩] : List FetchOp) : Multiset FetchOp) = s.inflight := ⟨_, rfl, by decide⟩
  obtain ⟨s', hr', hidle, -⟩ := completions_end_transfer (by decide) hr hops
  exact ⟨s, hr, s', hr', hidle⟩

end Fetching

end Shma.Nvmain
