import Shma.Tlb.Representation
import Shma.Walker.Isolation

/-!
# What a shootdown leaves behind

`tlb_shootdown` looks a page up in every TLB and clears the flags of the entry it finds.
The entry stays in `tlb_trie`, and `look_up` does not ask whether an entry is valid. The
counter for the overhead is passed by value, to `tlb_shootdown` as well as by it, so what
is added to it is lost.
-/
namespace Shma.Tlb.HotMonitorTlb

open Lib.Run

/-- The calls on a TLB: those of `TlbOp`, a shootdown, an access counted and a dirty bit set. -/
inductive Call where
  | op (op : TlbOp)
  | setInvalid (i : Nat)
  | lookUpVa (ppn : Address) (isWrite : Bool) (thres : Nat)
  | setDirty (i : Nat)
  deriving DecidableEq, Repr

def call (z : Zinfo) (cfg : CounterConfig) (t : HotMonitorTlb) : Call → Option HotMonitorTlb
  | .op op => t.step z cfg.multiQueue op
  | .setInvalid i => some (t.setInvalid i)
  | .lookUpVa ppn isWrite thres => some (t.lookUpVa cfg ppn isWrite thres).2.2
  | .setDirty i => some (t.setDirty i)

def Call.Inserts (v : Address) : Call → Prop
  | .op (.insert entry) => entry.vPageNo = v
  | _ => False

/-- The page is not found until it is inserted again. -/
def Unseen (z : Zinfo) (cfg : CounterConfig) (t : HotMonitorTlb) (v : Address) : Prop :=
  ∀ calls t', (∀ c ∈ calls, ¬c.Inserts v) → run (call z cfg) t calls = some t' →
    ∀ updateLru, (t'.lookUp v updateLru).1 = none

variable {z : Zinfo} {cfg : CounterConfig} {t t' : HotMonitorTlb} {v : Address}

theorem lookUp_trie (t : CommonTlb) (w : Address) (updateLru : Bool) :
    (t.lookUp w updateLru).2.tlbTrie = t.tlbTrie := by
  rcases t.lookUp_snd_cases w updateLru with he | ⟨i, he⟩ <;> rw [he]
  rfl

theorem dropEntry_trie {t : CommonTlb} (h : t.tlbTrie v = none) (i : Nat) : (t.dropEntry i).tlbTrie v = none := by
  show update t.tlbTrie _ none v = none
  rw [update_apply, h, ite_self]

theorem fill_trie {t : CommonTlb} {entry : ExtendTlbEntry} {w : Address} (h : t.tlbTrie v = none) (hw : w ≠ v) :
    (t.fill w entry).tlbTrie v = none := by
  cases hlist : t.freeEntryList with
  | nil =>
    rw [CommonTlb.fill, hlist]
    exact h
  | cons i rest =>
    rw [CommonTlb.fill_eq hlist]
    exact (update_of_ne hw.symm _ _).trans h

theorem step_trie_none {multiQueue : Bool} {op : TlbOp} (h : t.ordinaryTlb.tlbTrie v = none)
    (hop : ∀ entry, op = .insert entry → entry.vPageNo ≠ v) (hs : t.step z multiQueue op = some t') :
    t'.ordinaryTlb.tlbTrie v = none := by
  cases op with
  | lookUp w updateLru =>
    cases hs
    exact (congrFun (lookUp_trie t.ordinaryTlb w updateLru) v).trans h
  | insert entry =>
    obtain ⟨r, hr, rfl⟩ := map_eq_some_iff.mp hs
    have hne := hop entry rfl
    rcases CommonTlb.insert_cases hr with ⟨-, hfill⟩ | ⟨-, m, -, -, hfill⟩ <;> rw [hfill]
    · exact fill_trie h hne
    · exact fill_trie (dropEntry_trie h m) hne
  | evict =>
    obtain ⟨r, hr, rfl⟩ := map_eq_some_iff.mp hs
    obtain ⟨i, -, hdrop⟩ := CommonTlb.evict_eq_some hr
    rw [hdrop]
    exact dropEntry_trie h i
  | deleteEntry w =>
    cases hs
    have hlook := (congrFun (lookUp_trie t.ordinaryTlb w true) v).trans h
    unfold CommonTlb.deleteEntry
    rcases hl : t.ordinaryTlb.lookUp w true with ⟨_ | i, t1⟩ <;> rw [hl] at hlook
    · exact hlook
    · exact dropEntry_trie hlook i
  | flushAll =>
    cases hs
    rfl
  | remapPpn w ppn isDram =>
    obtain ⟨i, -, rfl⟩ := map_eq_some_iff.mp hs
    exact h

theorem call_trie_none {c : Call} (h : t.ordinaryTlb.tlbTrie v = none) (hc : ¬c.Inserts v)
    (hs : t.call z cfg c = some t') : t'.ordinaryTlb.tlbTrie v = none := by
  cases c with
  | op op =>
    refine step_trie_none h ?_ hs
    rintro entry rfl
    exact hc
  | setInvalid i =>
    cases hs
    exact h
  | lookUpVa ppn isWrite thres =>
    cases hs
    unfold lookUpVa
    split
    · exact h
    · dsimp only
      split <;> exact h
  | setDirty i =>
    cases hs
    exact h

/-- A page stays out of sight exactly if `tlb_trie` does not have it; its flags play no role. -/
theorem unseen_iff : t.Unseen z cfg v ↔ t.ordinaryTlb.tlbTrie v = none := by
  constructor
  · intro hu
    rw [← t.lookUp_fst v true]
    exact hu [] t (fun _ h => nomatch h) rfl true
  · intro h calls t' hcalls hr updateLru
    rw [lookUp_fst]
    refine run_invariant (call z cfg) (fun _ _ _ h hc hs => call_trie_none h hc hs) calls h ?_ hr
    exact AllSteps.of_forall_mem _ calls t hcalls

end Shma.Tlb.HotMonitorTlb

namespace Shma.Walker.System

open PageTable Tlb Lib.Run

variable {cfg : Config} {s : System} {vpn : Address} {req : MemReq}

/-- `tlb_shootdown` of one TLB: the TLB, the request, and the function's copy of the counter. -/
def tlbShootdownOne (cfg : Config) (t : HotMonitorTlb) (vpn : Address) (req : MemReq) (shootdownCounter : Nat) :
    HotMonitorTlb × MemReq × Nat :=
  match t.lookUp vpn true with
  | (none, t) => (t, req, shootdownCounter)
  | (some i, t) =>
    (t.setInvalid i, { req with cycle := req.cycle + cfg.tlbHitLat }, shootdownCounter + cfg.tlbHitLat)

/-- The loop of `tlb_shootdown`. Each call has a copy of the counter of its own. -/
def tlbShootdownLoop (cfg : Config) (vpn : Address) (shootdownCounter : Nat) :
    List TlbId → System → MemReq → System × MemReq
  | [], s, req => (s, req)
  | id :: ids, s, req =>
    let (t, req, _) := tlbShootdownOne cfg (s.tlb id) vpn req shootdownCounter
    tlbShootdownLoop cfg vpn shootdownCounter ids (s.setTlb id t) req

/-- The TLBs in the order of the loop. -/
def tlbIds (cfg : Config) : List TlbId := (List.range cfg.numCores).flatMap fun c => [(c, Side.ins), (c, Side.data)]

/-- The call `tlb_shootdown(req, vpn, tlb_shootdown_overhead)`, with what the caller's counter is
after it. -/
def tlbShootdownCall (cfg : Config) (s : System) (vpn : Address) (req : MemReq) (tlbShootdownOverhead : Nat) :
    System × MemReq × Nat :=
  let shootdownCounter := tlbShootdownOverhead
  let (s, req) := tlbShootdownLoop cfg vpn shootdownCounter (tlbIds cfg) s req
  (s, req, tlbShootdownOverhead)

theorem mem_tlbIds {id : TlbId} : id ∈ tlbIds cfg ↔ id.1 < cfg.numCores := by
  rw [tlbIds, List.mem_flatMap]
  constructor
  · rintro ⟨c, hc, hid⟩
    rw [show id.1 = c by rcases List.mem_pair.mp hid with rfl | rfl <;> rfl]
    exact mem_range.mp hc
  · intro hid
    refine ⟨id.1, mem_range.mpr hid, List.mem_pair.mpr ?_⟩
    rcases id with ⟨c, _ | _⟩
    · exact .inl rfl
    · exact .inr rfl

theorem nodup_tlbIds (cfg : Config) : (tlbIds cfg).Nodup := by
  refine List.nodup_flatMap.mpr ⟨fun c _ => by simp, nodup_range.imp fun {c d} hne => ?_⟩
  intro id hc hd
  refine hne ?_
  rw [show c = id.1 by rcases List.mem_pair.mp hc with rfl | rfl <;> rfl,
    show d = id.1 by rcases List.mem_pair.mp hd with rfl | rfl <;> rfl]

theorem tlbShootdownOne_eq (cfg : Config) (t : HotMonitorTlb) (vpn : Address) (req : MemReq) (counter : Nat) :
    (tlbShootdownOne cfg t vpn req counter).1 = shootTlb (fun t i => t.setInvalid i) vpn t ∧
      (tlbShootdownOne cfg t vpn req counter).2.1 = { req with
        cycle := req.cycle + cfg.tlbHitLat * (if (t.ordinaryTlb.tlbTrie vpn).isSome then 1 else 0) } := by
  have hfst := t.lookUp_fst vpn true
  unfold tlbShootdownOne shootTlb
  rcases hl : t.lookUp vpn true with ⟨_ | i, t1⟩ <;> rw [hl] at hfst <;> rw [← hfst]
  · exact ⟨rfl, rfl⟩
  · exact ⟨rfl, by rw [Option.isSome_some, if_pos rfl, Nat.mul_one]⟩

theorem tlbShootdownLoop_eq (counter : Nat) {ids : List TlbId} (hnodup : ids.Nodup) (s : System) (req : MemReq) :
    tlbShootdownLoop cfg vpn counter ids s req =
      ({ s with tlb := fun id => if id ∈ ids then shootTlb (fun t i => t.setInvalid i) vpn (s.tlb id) else s.tlb id },
        { req with cycle := req.cycle +
            cfg.tlbHitLat * ids.countP fun id => ((s.tlb id).ordinaryTlb.tlbTrie vpn).isSome }) := by
  induction ids generalizing s req with
  | nil => simp [tlbShootdownLoop]
  | cons id ids ih =>
    obtain ⟨hid, hnodup⟩ := nodup_cons.mp hnodup
    obtain ⟨htlb, hreq⟩ := tlbShootdownOne_eq cfg (s.tlb id) vpn req counter
    have hne : ∀ j ∈ ids, (s.setTlb id (shootTlb (fun t i => t.setInvalid i) vpn (s.tlb id))).tlb j = s.tlb j :=
      fun j hj => update_of_ne (ne_of_mem_of_not_mem hj hid) _ _
    show tlbShootdownLoop cfg vpn counter ids (s.setTlb id (tlbShootdownOne cfg (s.tlb id) vpn req counter).1)
      (tlbShootdownOne cfg (s.tlb id) vpn req counter).2.1 = _
    rw [htlb, hreq, ih hnodup, List.countP_cons]
    congr 1
    · congr 1
      funext j
      by_cases hj : j ∈ ids
      · rw [if_pos hj, if_pos (mem_cons_of_mem id hj), hne j hj]
      · rw [if_neg hj]
        by_cases hji : j = id
        · rw [hji, if_pos mem_cons_self]
          exact update_self ..
        · rw [if_neg (List.not_mem_cons_of_ne_of_not_mem hji hj)]
          exact update_of_ne hji _ _
    · rw [List.countP_congr fun j hj => by rw [hne j hj], Nat.mul_add]
      dsimp only
      congr 1
      omega

/-- The loop comes to what `tlb_shootdown` is modelled as; the caller's counter is what it was. -/
theorem tlbShootdownCall_eq (cfg : Config) (s : System) (vpn : Address) (req : MemReq) (overhead : Nat) :
    tlbShootdownCall cfg s vpn req overhead =
      ((s.tlbShootdown cfg vpn req).1, (s.tlbShootdown cfg vpn req).2, overhead) := by
  rw [tlbShootdownCall, tlbShootdownLoop_eq overhead (nodup_tlbIds cfg)]
  simp only [mem_tlbIds]
  rfl

def holders (cfg : Config) (s : System) (vpn : Address) : Nat :=
  (tlbIds cfg).countP fun id => ((s.tlb id).ordinaryTlb.tlbTrie vpn).isSome

/-- What a shootdown is for: no TLB finds the page until it is inserted again, and the overhead is
counted. -/
structure ShotDown (cfg : Config) (s : System) (vpn : Address) (req : MemReq) (overhead : Nat) : Prop where
  unseen : ∀ id : TlbId, id.1 < cfg.numCores →
    ((tlbShootdownCall cfg s vpn req overhead).1.tlb id).Unseen cfg.z cfg.counters vpn
  counted : (tlbShootdownCall cfg s vpn req overhead).2.2 = overhead + cfg.tlbHitLat * s.holders cfg vpn

theorem shoot_trie (act : HotMonitorTlb → Nat → HotMonitorTlb)
    (hact : ∀ t i, (act t i).ordinaryTlb.tlbTrie = t.ordinaryTlb.tlbTrie) (vpn : Address) (t : HotMonitorTlb) :
    (shootTlb act vpn t).ordinaryTlb.tlbTrie = t.ordinaryTlb.tlbTrie := by
  have hlook := HotMonitorTlb.lookUp_trie t.ordinaryTlb vpn true
  show (match t.lookUp vpn true with | (none, t) => t | (some i, t) => act t i).ordinaryTlb.tlbTrie = _
  rcases hl : t.lookUp vpn true with ⟨_ | i, t1⟩
  · rw [← hlook]
    exact congrArg (fun r => r.2.ordinaryTlb.tlbTrie) hl.symm
  · rw [← hlook]
    exact (hact t1 i).trans (congrArg (fun r => r.2.ordinaryTlb.tlbTrie) hl.symm)

/-- A shootdown takes effect exactly if no TLB held the page, when there was nothing to do. A TLB
that held it still finds it, and the overhead is lost unless it is 0. -/
theorem shotDown_iff (cfg : Config) (s : System) (vpn : Address) (req : MemReq) (overhead : Nat) :
    (ShotDown cfg s vpn req overhead ↔ s.holders cfg vpn = 0) ∧
    (∀ id : TlbId, id.1 < cfg.numCores →
      (((tlbShootdownCall cfg s vpn req overhead).1.tlb id).Unseen cfg.z cfg.counters vpn ↔
        (s.tlb id).ordinaryTlb.tlbTrie vpn = none)) ∧
    ((tlbShootdownCall cfg s vpn req overhead).2.2 = overhead + cfg.tlbHitLat * s.holders cfg vpn ↔
      cfg.tlbHitLat = 0 ∨ s.holders cfg vpn = 0) := by
  have hunseen : ∀ id : TlbId, id.1 < cfg.numCores →
      (((tlbShootdownCall cfg s vpn req overhead).1.tlb id).Unseen cfg.z cfg.counters vpn ↔
        (s.tlb id).ordinaryTlb.tlbTrie vpn = none) := by
    intro id hid
    rw [HotMonitorTlb.unseen_iff, tlbShootdownCall_eq]
    show (if id.1 < cfg.numCores then _ else _ : HotMonitorTlb).ordinaryTlb.tlbTrie vpn = none ↔ _
    rw [if_pos hid, shoot_trie (fun t i => t.setInvalid i) (fun _ _ => rfl)]
  have hcount : (tlbShootdownCall cfg s vpn req overhead).2.2 = overhead + cfg.tlbHitLat * s.holders cfg vpn ↔
      cfg.tlbHitLat = 0 ∨ s.holders cfg vpn = 0 := by
    rw [← Nat.mul_eq_zero]
    exact ⟨fun h => Nat.add_eq_left.mp h.symm, fun h => (Nat.add_eq_left.mpr h).symm⟩
  have hholders : s.holders cfg vpn = 0 ↔ ∀ id : TlbId, id.1 < cfg.numCores →
      (s.tlb id).ordinaryTlb.tlbTrie vpn = none := by
    rw [holders, List.countP_eq_zero]
    simp only [mem_tlbIds, not_isSome_iff_eq_none]
  refine ⟨⟨fun h => ?_, fun h => ⟨fun id hid => ?_, ?_⟩⟩, hunseen, hcount⟩
  · exact hholders.mpr fun id hid => (hunseen id hid).mp (h.unseen id hid)
  · exact (hunseen id hid).mpr (hholders.mp h id hid)
  · exact hcount.mpr (.inr h)

/-- Process 0 has page 0 in the TLB of core 0, and the page fault of process 1 shoots page 0 down.
Core 0 still finds its entry, now invalid, and translates with it in the time of a hit. -/
theorem shootdown_leaves_entry : ∃ s, run (step pairConfig) pairSetup.boot [load 0 0] = some s ∧
    s.holders pairConfig 0 = 1 ∧ (tlbShootdownCall pairConfig s 0 ⟨0, .gets, 0, 0⟩ 7).2.2 = 7 ∧
    ∃ s', s.step pairConfig (load 1 0) = some s' ∧ ((s'.tlb (0, .data)).lookUp 0 true).1 = some 0 ∧
    (s'.entry ⟨(0, .data), 0⟩).valid = false ∧
    (s'.tlbAccess pairConfig (0, .data) ⟨16, .gets, 0, 0⟩).map (fun r => (r.1, r.2.1.cycle)) = some (16, 2) := by
  decide

end Shma.Walker.System
