import Shma.Nvmain.BlockFetcher

/-!
# Transfers that are put off

`BlockFetcher::IssueCommand` with the tags of its requests. A transfer that is asked for while
another one runs is put into the event queue, as `DELAYED_BUFFER`, and comes up again with the tag
`BUFFER_FETCH`, under which `drc_evicts` does not count it a second time. What `Fetch` returns is
not looked at: a transfer that a controller cannot take is forgotten.
-/
namespace Shma.Nvmain

open Lib.Run

/-- `BUFFER_FETCH` and any other tag. -/
inductive TransferTag where
  | bufferFetch | other
  deriving DecidableEq

/-- A request of the fetcher; `writeBack` says that its type is `FETCH`. -/
structure Transfer where
  request : FetchRequest
  writeBack : Bool
  tag : TransferTag
  deriving DecidableEq

/-- The fetcher, with the transfers it has put off, and its `uint64_t` `drc_evicts`. -/
structure TransferQueue where
  fetching : Fetching
  drcEvicts : Nat

namespace TransferQueue

def new (memColSize bufferColSize : Nat) : TransferQueue := ⟨.new memColSize bufferColSize, 0⟩

/-- `IssueCommand`: the transfer is started or put off, and a write-back that has not come up before
is counted. -/
def issueCommand (s : TransferQueue) (t : Transfer) (ready : Half → Bool) : Option TransferQueue :=
  (s.fetching.issueCommand t.request ready).map fun fetching =>
    { fetching
      drcEvicts := if t.writeBack ∧ t.tag ≠ .bufferFetch then (s.drcEvicts + 1) % 2^64 else s.drcEvicts }

inductive Event where
  | request (req : FetchRequest) (writeBack : Bool) (ready : Half → Bool)
  | retry (req : FetchRequest) (writeBack : Bool) (ready : Half → Bool)
  | complete (op : FetchOp)

/-- A transfer is asked for, one that was put off comes up again, or a request completes. -/
def step (s : TransferQueue) : Event → Option TransferQueue
  | .request req writeBack ready => s.issueCommand ⟨req, writeBack, .other⟩ ready
  | .retry req writeBack ready =>
    issueCommand { s with fetching := { s.fetching with delayed := s.fetching.delayed.erase req } }
      ⟨req, writeBack, .bufferFetch⟩ ready
  | .complete op => (s.fetching.step (.complete op)).map fun fetching => { s with fetching }

structure Started (s s' : TransferQueue) (t : Transfer) : Prop where
  inflight : s'.fetching.inflight =
    s'.fetching.fetcher.ops t.request .read ::ₘ s'.fetching.fetcher.ops t.request .write ::ₘ s.fetching.inflight
  transfer : s'.fetching.transfer = some t.request
  started : s'.fetching.started = s.fetching.started + 1

def Scheduled (s s' : TransferQueue) (t : Transfer) : Prop :=
  s'.fetching.delayed = t.request ::ₘ s.fetching.delayed

def writeBacks : List Event → Nat
  | [] => 0
  | .request _ true _ :: es => writeBacks es + 1
  | _ :: es => writeBacks es

variable {s s' : TransferQueue} {t : Transfer} {ready : Half → Bool}

theorem drcEvicts_issueCommand (h : s.issueCommand t ready = some s') :
    s'.drcEvicts = if t.writeBack ∧ t.tag ≠ .bufferFetch then (s.drcEvicts + 1) % 2^64 else s.drcEvicts := by
  obtain ⟨fetching, -, rfl⟩ := map_eq_some_iff.mp h
  rfl

/-- A call starts the transfer or puts it off unless no transfer runs and one of the two controllers
is not ready. -/
theorem kept_issueCommand_iff (h : s.issueCommand t ready = some s') :
    Started s s' t ∨ Scheduled s s' t ↔
      s.fetching.fetcher.translator.caching = true ∨ ready .read = true ∧ ready .write = true := by
  obtain ⟨fetching, hf, rfl⟩ := map_eq_some_iff.mp h
  unfold Fetching.issueCommand at hf
  cases hc : s.fetching.fetcher.translator.caching with
  | true =>
    rw [if_neg (by rw [hc]; exact Bool.false_ne_true.symm)] at hf
    cases hf
    exact iff_of_true (.inr rfl) (.inl rfl)
  | false =>
    rw [if_pos hc] at hf
    obtain ⟨⟨fetcher, transfer⟩, hx, rfl⟩ := map_eq_some_iff.mp hf
    have hx := (assertThat_bind_eq_some.mp hx).2
    by_cases hready : (ready .read && ready .write) = true
    · rw [if_pos hready] at hx
      obtain ⟨translator, -, hx⟩ := map_eq_some_iff.mp (assertThat_bind_eq_some.mp hx).2
      cases hx
      exact iff_of_true (.inl ⟨rfl, rfl, rfl⟩) (.inr (Bool.and_eq_true_iff.mp hready))
    · rw [if_neg hready] at hx
      cases hx
      refine iff_of_false ?_ ?_
      · rintro (hstarted | hscheduled)
        · exact Nat.succ_ne_self _ hstarted.started.symm
        · exact (Multiset.lt_cons_self s.fetching.delayed _).ne hscheduled
      · rintro (hcaching | hboth)
        · cases hcaching
        · exact hready (Bool.and_eq_true_iff.mpr hboth)

theorem drcEvicts_step {e : Event} (h : s.step e = some s') :
    s'.drcEvicts = (s.drcEvicts + writeBacks [e]) % 2^64 ∨ writeBacks [e] = 0 ∧ s'.drcEvicts = s.drcEvicts := by
  cases e with
  | request req writeBack ready =>
    have hcount := drcEvicts_issueCommand h
    cases writeBack with
    | true => exact .inl hcount
    | false => exact .inr ⟨rfl, hcount⟩
  | retry req writeBack ready =>
    have hcount := drcEvicts_issueCommand h
    rw [if_neg (by simp)] at hcount
    exact .inr ⟨rfl, hcount⟩
  | complete op =>
    obtain ⟨fetching, -, rfl⟩ := map_eq_some_iff.mp h
    exact .inr ⟨rfl, rfl⟩

theorem writeBacks_cons (e : Event) (es : List Event) : writeBacks (e :: es) = writeBacks [e] + writeBacks es := by
  rcases e with ⟨req, _ | _, ready⟩ | ⟨req, writeBack, ready⟩ | op
  · exact (Nat.zero_add _).symm
  · exact Nat.add_comm _ _
  all_goals exact (Nat.zero_add _).symm

theorem drcEvicts_run {es : List Event} (h : run step s es = some s') (hlt : s.drcEvicts < 2^64) :
    s'.drcEvicts = (s.drcEvicts + writeBacks es) % 2^64 := by
  induction es generalizing s with
  | nil =>
    cases h
    exact (mod_eq_of_lt hlt).symm
  | cons e es ih =>
    obtain ⟨s1, hs1, hrest⟩ := (run_cons_eq_some step).mp h
    rw [writeBacks_cons]
    rcases drcEvicts_step hs1 with hcount | ⟨hnone, hcount⟩
    · rw [ih hrest (by rw [hcount]; exact mod_lt _ (by omega)), hcount, Nat.mod_add_mod, Nat.add_assoc]
    · rw [ih hrest (hcount ▸ hlt), hcount, hnone, Nat.zero_add]

/-- Whatever state the fetcher and the controllers are in, a call starts the transfer or puts it off
exactly if a transfer runs or both controllers are ready. Over every sequence of calls and
completions, `drc_evicts` counts each write-back that is asked for once, however often it comes up
again. -/
theorem transfers_kept_iff (s : TransferQueue) :
    (∀ t ready s', s.issueCommand t ready = some s' →
      (Started s s' t ∨ Scheduled s s' t ↔
        s.fetching.fetcher.translator.caching = true ∨ ready .read = true ∧ ready .write = true)) ∧
    ∀ es s', s.drcEvicts < 2^64 → run step s es = some s' → s'.drcEvicts = (s.drcEvicts + writeBacks es) % 2^64 :=
  ⟨fun _ _ _ => kept_issueCommand_iff, fun _ _ hlt h => drcEvicts_run h hlt⟩

/-- A write-back is started, and a second one is put off and comes up again while the first one
runs. -/
theorem transfers_kept_iff_twice :
    ∃ s', run step (new 64 64)
        [.request ⟨0, 4096, 4096, true, false⟩ true fun _ => true,
          .request ⟨8192, 12288, 4096, true, false⟩ true fun _ => true,
          .retry ⟨8192, 12288, 4096, true, false⟩ true fun _ => true] = some s' ∧
      s'.drcEvicts = 2 := by
  obtain ⟨s', hs'⟩ : ∃ s', run step (new 64 64)
      [.request ⟨0, 4096, 4096, true, false⟩ true fun _ => true,
        .request ⟨8192, 12288, 4096, true, false⟩ true fun _ => true,
        .retry ⟨8192, 12288, 4096, true, false⟩ true fun _ => true] = some s' :=
    isSome_iff_exists.mp (by decide +kernel)
  exact ⟨s', hs', (transfers_kept_iff (new 64 64)).2 _ _ (by decide) hs'⟩

/-- The controller of the source is not ready: the call returns, and nothing is issued or put
off. -/
theorem transfer_forgotten :
    ∃ s', (new 64 64).issueCommand ⟨⟨0, 4096, 4096, false, true⟩, false, .other⟩ (· == .write) = some s' ∧
      s'.fetching.inflight = 0 ∧ s'.fetching.started = 0 ∧ s'.fetching.delayed = 0 :=
  ⟨_, rfl, rfl, rfl, rfl⟩

end TransferQueue

end Shma.Nvmain
