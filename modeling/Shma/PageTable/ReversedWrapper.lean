import Shma.Lib.Run
import Shma.PageTable.Reversed

/-!
# The wrapper against what it wraps

`ReversedPaging` passes every call on to the long-mode structure that it holds, with two exceptions:
`map_page_table` insists on a free key in the inverse table, and `remove_page_table` calls itself.
-/
namespace Shma.PageTable

open Lib.Run
open Option (map_eq_none_iff)

/-- The calls of `BasePaging`. Whether `pg_ptr` points to a DRAM block is what the flag of
`map_page_table` says. -/
inductive BaseOp where
  | access (f : Frames) (req : MemReq)
  | map (addr : Address) (pgPtr : Target)
  | unmap (addr : Address)
  | allocatePageTable (addr size : Address)
  | removePageTable (addr size : Address)

/-- What a call returns; a walk also leaves its request and the descriptors changed. -/
inductive CallResult where
  | accessed (addr : Address) (req : MemReq) (frames : Frames)
  | mapped (latency : Nat)
  | done (succeed : Bool)

/-- A paging structure, the results of the calls so far, and the keys under which pages got their
first target. -/
structure Session (α : Type) where
  paging : α
  results : List CallResult
  firstKeys : List Nat

namespace Session

def start {α : Type} (paging : α) : Session α := ⟨paging, [], []⟩

def note {α : Type} (s : Session α) (paging : α) (result : CallResult) : Session α :=
  { s with paging, results := s.results ++ [result] }

end Session

/-- The key of the page number that `map_page_table` reads from a descriptor. -/
def ReversedPaging.keyOf (z : Zinfo) : Target → Nat
  | .block b => key (z.blockIdToAddr b >>> z.blockShift)
  | .page n => key n

def LongModePaging.call (z : Zinfo) (s : Session LongModePaging) : BaseOp → Option (Session LongModePaging)
  | .access f req => (s.paging.access z f req).map fun w =>
      s.note { s.paging with tables := w.tables } (.accessed w.addr w.req w.frames)
  | .map addr pgPtr => (s.paging.mapPageTable z addr pgPtr pgPtr.isBlock).map fun r =>
      { s.note r.1 (.mapped r.2.1) with
        firstKeys := if r.2.2.isSome then s.firstKeys ++ [ReversedPaging.keyOf z pgPtr] else s.firstKeys }
  | .unmap addr => (s.paging.unmapPageTable addr).map fun r => s.note r.1 (.done r.2)
  | .allocatePageTable addr size => (s.paging.allocatePageTableRange addr size).map fun r => s.note r.1 (.done r.2)
  | .removePageTable addr size => (s.paging.removePageTableRange addr size).map fun r => s.note r.1 (.done r.2)

def ReversedPaging.call (z : Zinfo) (fuel : Nat) (s : Session ReversedPaging) : BaseOp → Option (Session ReversedPaging)
  | .access f req => (s.paging.access z f req).map fun w =>
      s.note { s.paging with paging := { s.paging.paging with tables := w.tables } } (.accessed w.addr w.req w.frames)
  | .map addr pgPtr => (s.paging.mapPageTable z addr pgPtr pgPtr.isBlock).map fun r => s.note r.1 (.mapped r.2)
  | .unmap addr => (s.paging.unmapPageTable addr).map fun r => s.note r.1 (.done r.2)
  | .allocatePageTable addr size => (s.paging.allocatePageTable addr size).map fun r => s.note r.1 (.done r.2)
  | .removePageTable addr size => (s.paging.removePageTable fuel addr size).map fun r => s.note r.1 (.done r.2)

namespace ReversedPaging

/-- The wrapped structure has answered as the plain one, holds the same forward tables, and has
recorded the keys that the plain one would have had to. -/
structure Matches (s : Session LongModePaging) (t : Session ReversedPaging) : Prop where
  paging : t.paging.paging = s.paging
  results : t.results = s.results
  keys : ∀ k, t.paging.reversedPgt k = none ↔ k ∉ s.firstKeys

variable {z : Zinfo} {fuel : Nat} {s s' : Session LongModePaging} {t t' : Session ReversedPaging}

theorem removePageTable_eq_none (fuel : Nat) (p : ReversedPaging) (addr size : Address) :
    p.removePageTable fuel addr size = none := by
  induction fuel with
  | zero => rfl
  | succ fuel ih => exact ih

/-- `map_page_table` of the wrapper: a first target needs a key that is free. -/
theorem mapPageTable_eq (z : Zinfo) (p : ReversedPaging) (addr : Address) (tg : Target) :
    p.mapPageTable z addr tg tg.isBlock =
      (p.paging.mapPageTable z addr tg tg.isBlock).bind fun r =>
        match r.2.2 with
        | none => some ({ p with paging := r.1 }, r.2.1)
        | some entry =>
          if p.reversedPgt (keyOf z tg) = none then
            some (⟨r.1, update p.reversedPgt (keyOf z tg) (some ⟨entry, addr >>> z.pageShift⟩)⟩, r.2.1)
          else none := by
  obtain ⟨ppn, hppn, hkey⟩ : ∃ ppn, mappedPpn z tg tg.isBlock = some ppn ∧ key ppn = keyOf z tg := by
    cases tg with
    | page n => exact ⟨n, rfl, rfl⟩
    | block b => exact ⟨_, rfl, rfl⟩
  rw [mapPageTable]
  cases hr : p.paging.mapPageTable z addr tg tg.isBlock with
  | none => rfl
  | some r =>
    obtain ⟨paging, latency, entry⟩ := r
    cases entry with
    | none => simp [hppn]
    | some entry =>
      by_cases hfree : p.reversedPgt (keyOf z tg) = none
      all_goals simp [hppn, hkey, hfree]

theorem matches_start (mode : PagingStyle) : Matches (.start (.new mode)) (.start (.new mode)) :=
  ⟨rfl, rfl, fun _ => iff_of_true rfl not_mem_nil⟩

theorem Matches.note (hm : Matches s t) (paging : LongModePaging) (result : CallResult) :
    Matches (s.note paging result) (t.note { t.paging with paging } result) :=
  ⟨rfl, congrArg (· ++ [result]) hm.results, hm.keys⟩

def Passed (z : Zinfo) (s : Session LongModePaging) : BaseOp → Prop
  | .map addr pgPtr => ∀ r, s.paging.mapPageTable z addr pgPtr pgPtr.isBlock = some r → r.2.2.isSome →
      keyOf z pgPtr ∉ s.firstKeys
  | .removePageTable _ _ => False
  | _ => True

section

variable (hm : Matches s t) {op : BaseOp}
include hm

theorem Matches.call (fuel : Nat) (hs : LongModePaging.call z s op = some s') :
    (Passed z s op → ∃ t', ReversedPaging.call z fuel t op = some t' ∧ Matches s' t') ∧
      (¬ Passed z s op → ReversedPaging.call z fuel t op = none) := by
  have hpaging := hm.paging
  cases op with
  | access f req =>
    obtain ⟨w, hw, rfl⟩ := map_eq_some_iff.mp hs
    refine ⟨fun _ => ⟨_, ?_, hm.note { s.paging with tables := w.tables } (.accessed w.addr w.req w.frames)⟩,
      fun hno => absurd trivial hno⟩
    rw [ReversedPaging.call, access, hpaging, hw]
    rfl
  | map addr pgPtr =>
    obtain ⟨⟨paging, latency, entry⟩, hr, rfl⟩ := map_eq_some_iff.mp hs
    rw [ReversedPaging.call, mapPageTable_eq, hpaging, hr]
    cases entry with
    | none =>
      refine ⟨fun _ => ⟨_, rfl, hm.note paging (.mapped latency)⟩, fun hno => ?_⟩
      refine absurd (fun r hr' hentry => ?_) hno
      obtain rfl := mem_unique hr hr'
      cases hentry
    | some entry =>
      have hpassed : Passed z s (.map addr pgPtr) ↔ keyOf z pgPtr ∉ s.firstKeys :=
        ⟨fun h => h _ hr rfl, fun h _ _ _ => h⟩
      rw [hpassed, ← hm.keys]
      refine ⟨fun hfree => ?_, fun htaken => by simp [htaken]⟩
      refine ⟨t.note ⟨paging, update t.paging.reversedPgt (keyOf z pgPtr)
        (some ⟨entry, addr >>> z.pageShift⟩)⟩ (.mapped latency), by simp [hfree], rfl, ?_, fun k => ?_⟩
      · exact congrArg (· ++ [_]) hm.results
      · show update t.paging.reversedPgt (keyOf z pgPtr) _ k = none ↔ k ∉ s.firstKeys ++ [keyOf z pgPtr]
        by_cases hk : k = keyOf z pgPtr
        · simp [hk]
        · rw [update_of_ne hk, hm.keys]
          simp [hk]
  | unmap addr =>
    obtain ⟨r, hr, rfl⟩ := map_eq_some_iff.mp hs
    refine ⟨fun _ => ⟨_, ?_, hm.note r.1 (.done r.2)⟩, fun hno => absurd trivial hno⟩
    rw [ReversedPaging.call, unmapPageTable, hpaging, hr]
    rfl
  | allocatePageTable addr size =>
    obtain ⟨r, hr, rfl⟩ := map_eq_some_iff.mp hs
    refine ⟨fun _ => ⟨_, ?_, hm.note r.1 (.done r.2)⟩, fun hno => absurd trivial hno⟩
    rw [ReversedPaging.call, allocatePageTable, hpaging, hr]
    rfl
  | removePageTable addr size =>
    refine ⟨fun hpassed => hpassed.elim, fun _ => ?_⟩
    rw [ReversedPaging.call, removePageTable_eq_none]
    rfl

theorem call_eq_none (hs : LongModePaging.call z s op = none) :
    ReversedPaging.call z fuel t op = none := by
  have hpaging := hm.paging
  cases op with
  | access f req =>
    rw [LongModePaging.call, map_eq_none_iff] at hs
    rw [ReversedPaging.call, access, hpaging, hs]
    rfl
  | map addr pgPtr =>
    rw [LongModePaging.call, map_eq_none_iff] at hs
    rw [ReversedPaging.call, mapPageTable_eq, hpaging, hs]
    rfl
  | unmap addr =>
    rw [LongModePaging.call, map_eq_none_iff] at hs
    rw [ReversedPaging.call, unmapPageTable, hpaging, hs]
    rfl
  | allocatePageTable addr size =>
    rw [LongModePaging.call, map_eq_none_iff] at hs
    rw [ReversedPaging.call, allocatePageTable, hpaging, hs]
    rfl
  | removePageTable addr size =>
    rw [ReversedPaging.call, removePageTable_eq_none]
    rfl

theorem Matches.call_back (ht : ReversedPaging.call z fuel t op = some t') :
    ∃ s', LongModePaging.call z s op = some s' ∧ Matches s' t' := by
  cases hs : LongModePaging.call z s op with
  | none =>
    rw [call_eq_none hm hs] at ht
    cases ht
  | some s' =>
    obtain ⟨hyes, hno⟩ := hm.call fuel hs
    have hpassed : Passed z s op := by
      by_contra h
      rw [hno h] at ht
      cases ht
    obtain ⟨t1, ht1, hm1⟩ := hyes hpassed
    obtain rfl := mem_unique ht1 ht
    exact ⟨s', rfl, hm1⟩

end

theorem call_firstKeys {op : BaseOp} (hs : LongModePaging.call z s op = some s') :
    s'.firstKeys = s.firstKeys ∧ ((∀ addr size, op ≠ .removePageTable addr size) → Passed z s op) ∨
      ∃ k, s'.firstKeys = s.firstKeys ++ [k] ∧ (∀ addr size, op ≠ .removePageTable addr size) ∧
        (Passed z s op ↔ k ∉ s.firstKeys) := by
  cases op with
  | access f req =>
    obtain ⟨w, -, rfl⟩ := map_eq_some_iff.mp hs
    exact .inl ⟨rfl, fun _ => trivial⟩
  | map addr pgPtr =>
    obtain ⟨⟨paging, latency, entry⟩, hr, rfl⟩ := map_eq_some_iff.mp hs
    cases entry with
    | none =>
      refine .inl ⟨rfl, fun _ r hr' hentry => ?_⟩
      obtain rfl := mem_unique hr hr'
      cases hentry
    | some entry =>
      exact .inr ⟨keyOf z pgPtr, rfl, fun _ _ => nofun, ⟨fun h => h _ hr rfl, fun h _ _ _ => h⟩⟩
  | unmap addr | allocatePageTable addr size =>
    obtain ⟨r, -, rfl⟩ := map_eq_some_iff.mp hs
    exact .inl ⟨rfl, fun _ => trivial⟩
  | removePageTable addr size =>
    obtain ⟨r, -, rfl⟩ := map_eq_some_iff.mp hs
    exact .inl ⟨rfl, fun h => absurd rfl (h addr size)⟩

theorem run_firstKeys {ops : List BaseOp} (hs : run (LongModePaging.call z) s ops = some s') :
    s.firstKeys <+: s'.firstKeys := by
  have hstep : ∀ u op v, s.firstKeys <+: u.firstKeys → LongModePaging.call z u op = some v →
      s.firstKeys <+: v.firstKeys := by
    intro u op v hu huv
    rcases call_firstKeys huv with ⟨hsame, -⟩ | ⟨k, hk, -⟩
    · exact hsame ▸ hu
    · exact hk ▸ hu.trans (List.prefix_append _ _)
  exact run_invariant_of_step (LongModePaging.call z) hstep ops prefix_rfl hs

/-- From matching states, the wrapper answers a sequence as the plain structure exactly if the
sequence removes nothing and no key comes twice. -/
theorem Matches.run_iff (fuel : Nat) (ops : List BaseOp) :
    ∀ {s s' : Session LongModePaging} {t : Session ReversedPaging}, Matches s t → s.firstKeys.Nodup →
      run (LongModePaging.call z) s ops = some s' →
      ((∃ t', run (ReversedPaging.call z fuel) t ops = some t' ∧ Matches s' t') ↔
        (∀ addr size, .removePageTable addr size ∉ ops) ∧ s'.firstKeys.Nodup) := by
  induction ops with
  | nil =>
    intro s s' t hm hnodup hs
    cases hs
    exact iff_of_true ⟨t, rfl, hm⟩ ⟨fun _ _ => not_mem_nil, hnodup⟩
  | cons op ops ih =>
    intro s s' t hm hnodup hs
    obtain ⟨u, hu, hrest⟩ := (run_cons_eq_some _).mp hs
    obtain ⟨hyes, hno⟩ := hm.call fuel hu
    by_cases hpassed : Passed z s op
    · obtain ⟨v, hv, hmv⟩ := hyes hpassed
      have hremove : ∀ addr size, op ≠ .removePageTable addr size := by
        rintro addr size rfl
        exact hpassed
      have hnodup' : u.firstKeys.Nodup := by
        rcases call_firstKeys hu with ⟨hsame, -⟩ | ⟨k, hk, -, hiff⟩
        · rw [hsame]
          exact hnodup
        · rw [hk]
          exact List.nodup_append.mpr ⟨hnodup, List.nodup_singleton k, by
            rintro a ha b hb rfl
            rw [mem_singleton.mp hb] at ha
            exact hiff.mp hpassed ha⟩
      rw [run_cons, hv, bind_some, ih hmv hnodup' hrest]
      simp only [mem_cons, not_or, fun addr size => (hremove addr size).symm, not_false_eq_true, true_and]
    · rw [run_cons, hno hpassed]
      refine iff_of_false (fun ⟨_, h, _⟩ => by cases h) fun ⟨hremove, hnodup'⟩ => ?_
      have hop : ∀ addr size, op ≠ .removePageTable addr size := fun addr size he =>
        hremove addr size (he ▸ mem_cons_self)
      rcases call_firstKeys hu with ⟨-, hpass⟩ | ⟨k, hk, -, hiff⟩
      · exact hpassed (hpass hop)
      · -- the key comes a second time, and stays
        have hnodup_u : u.firstKeys.Nodup := hnodup'.sublist (run_firstKeys hrest).sublist
        rw [hk] at hnodup_u
        refine hpassed (hiff.mpr fun hmem => ?_)
        exact (List.nodup_append.mp hnodup_u).2.2 k hmem k (List.mem_singleton_self k) rfl

theorem Matches.run_back (fuel : Nat) (ops : List BaseOp) :
    ∀ {s : Session LongModePaging} {t t' : Session ReversedPaging}, Matches s t →
      run (ReversedPaging.call z fuel) t ops = some t' →
      ∃ s', run (LongModePaging.call z) s ops = some s' ∧ Matches s' t' := by
  induction ops with
  | nil =>
    intro s t t' hm ht
    cases ht
    exact ⟨s, rfl, hm⟩
  | cons op ops ih =>
    intro s t t' hm ht
    obtain ⟨v, hv, hrest⟩ := (run_cons_eq_some _).mp ht
    obtain ⟨u, hu, hmu⟩ := hm.call_back hv
    obtain ⟨s', hs', hms'⟩ := ih hmu hrest
    exact ⟨s', (run_cons_eq_some _).mpr ⟨u, hu, hs'⟩, hms'⟩

end ReversedPaging

end Shma.PageTable
