import Shma.Lib.Run
import Shma.Tlb.Contents

/-!
# The representation of a TLB

The free list and the values of `tlb_trie` share out the entries of the array, and
both tries agree with the entries they point to. Every operation keeps this. An
eviction under the policy `HOTNESSAware`, which `evict` does not handle, leaves the
entry pointer null.
-/
namespace Shma.Tlb

open Lib.Run

namespace CommonTlb

structure Represents (t : CommonTlb) : Prop where
  free_nodup : t.freeEntryList.Nodup
  value_unique : ∀ v w i, t.tlbTrie v = some i → t.tlbTrie w = some i → v = w
  covers : ∀ i, i < t.tlbEntryNum ↔ i ∈ t.freeEntryList ∨ ∃ v, t.tlbTrie v = some i
  apart : ∀ v i, t.tlbTrie v = some i → i ∉ t.freeEntryList
  key : ∀ v i, t.tlbTrie v = some i → (t.tlb i).vPageNo = v ∧ (t.tlb i).valid
  pa : ∀ p i, t.tlbTriePa p = some i ↔ ∃ v, t.tlbTrie v = some i ∧ (t.tlb i).pPageNo = p

/-- The invariant that is carried along: well-formed, and the entries found are valid
and known to the physical index. -/
structure Indexed (t : CommonTlb) : Prop extends Wf t where
  range : ∀ v i, t.tlbTrie v = some i → i < t.tlbEntryNum
  valid : ∀ v i, t.tlbTrie v = some i → (t.tlb i).valid
  paOf : ∀ v i, t.tlbTrie v = some i → t.tlbTriePa (t.tlb i).pPageNo = some i

def FreshPpn (t : CommonTlb) (v ppn : Address) : Prop :=
  ∀ w i, t.tlbTrie w = some i → w ≠ v → (t.tlb i).pPageNo ≠ ppn

variable {t : CommonTlb}

variable (h : t.Indexed)
include h

theorem Indexed.represents : t.Represents where
  free_nodup := h.nodup
  value_unique v w i hv hw := (h.vpn v i hv).symm.trans (h.vpn w i hw)
  covers i := by
    constructor
    · intro hi
      by_cases hfree : i ∈ t.freeEntryList
      · exact .inl hfree
      · exact .inr ⟨_, h.live i hi hfree⟩
    · intro hi
      rcases hi with hfree | ⟨v, hv⟩
      · exact h.free i hfree
      · exact h.range v i hv
  apart := h.used
  key v i hv := ⟨h.vpn v i hv, h.valid v i hv⟩
  pa p i := by
    constructor
    · intro hp
      obtain ⟨hlive, hppn⟩ := h.toWf.pa p i hp
      exact ⟨_, hlive, hppn⟩
    · intro hv
      obtain ⟨v, hv, hppn⟩ := hv
      exact hppn ▸ h.paOf v i hv

omit h in
theorem indexed_new {tlbSize hitLat resLat : Nat} {policy : EvictStyle} {garbage : Nat → ExtendTlbEntry}
    {seq : BitVec 32} (hsize : 0 < tlbSize) : (new tlbSize hitLat resLat policy garbage seq).Indexed :=
  ⟨wf_new hsize, fun _ _ h => (nomatch h), fun _ _ h => (nomatch h), fun _ _ h => (nomatch h)⟩

theorem Indexed.of_sameIndex {t' : CommonTlb} (hs : SameIndex t t')
    (hvalid : ∀ i, (t'.tlb i).valid = (t.tlb i).valid) : t'.Indexed := by
  refine ⟨hs.wf h.toWf, ?_, ?_, ?_⟩
  · intro v i hv
    rw [hs.trie] at hv
    rw [hs.size]
    exact h.range v i hv
  · intro v i hv
    rw [hs.trie] at hv
    rw [hvalid]
    exact h.valid v i hv
  · intro v i hv
    rw [hs.trie] at hv
    rw [hs.triePa, hs.ppn]
    exact h.paOf v i hv

omit h in
theorem touch_valid (t : CommonTlb) (i j : Nat) : ((t.touch i).tlb j).valid = (t.tlb j).valid := by
  by_cases hj : j = i
  · subst hj
    simp [touch, modify]
  · simp [touch, modify, hj]

theorem Indexed.touch (i : Nat) : (t.touch i).Indexed :=
  h.of_sameIndex (sameIndex_touch t i) (touch_valid t i)

theorem Indexed.lookUp (v : Address) (updateLru : Bool) : (t.lookUp v updateLru).2.Indexed := by
  rcases lookUp_snd_cases t v updateLru with he | ⟨i, he⟩
  · rw [he]
    exact h
  · rw [he]
    exact h.touch i

variable {v : Address} {i : Nat}

theorem Indexed.live_of_trie (hv : t.tlbTrie v = some i) : t.tlbTrie (t.tlb i).vPageNo = some i := by
  rw [h.vpn v i hv]
  exact hv

theorem Indexed.dropEntry (hv : t.tlbTrie v = some i) : (t.dropEntry i).Indexed := by
  have hlive := h.live_of_trie hv
  obtain ⟨hwf, -⟩ := dropEntry_spec h.toWf (h.range v i hv) hlive
  -- what is still found was found before, at another entry
  have hkept : ∀ w j, (t.dropEntry i).tlbTrie w = some j → t.tlbTrie w = some j ∧ j ≠ i := by
    intro w j hw
    simp only [CommonTlb.dropEntry, modify, update_apply] at hw
    split at hw
    · cases hw
    · next hne =>
      refine ⟨hw, fun hji => hne ?_⟩
      rw [← h.vpn w j hw, hji]
  have hsame : ∀ j, j ≠ i → (t.dropEntry i).tlb j = t.tlb j :=
    fun j hj => update_of_ne hj _ _
  refine ⟨hwf, fun w j hw => h.range w j (hkept w j hw).1, fun w j hw => ?_, fun w j hw => ?_⟩
  · obtain ⟨hold, hji⟩ := hkept w j hw
    rw [hsame j hji]
    exact h.valid w j hold
  · obtain ⟨hold, hji⟩ := hkept w j hw
    have hppn : (t.tlb j).pPageNo ≠ (t.tlb i).pPageNo := by
      intro he
      have hj := h.paOf w j hold
      rw [he, h.paOf v i hv] at hj
      exact hji (some_inj.mp hj).symm
    rw [hsame j hji]
    exact (update_of_ne hppn _ _).trans (h.paOf w j hold)

omit h in
theorem FreshPpn.dropEntry {ppn : Address} (h : t.FreshPpn v ppn) (hw : t.Wf) : (t.dropEntry i).FreshPpn v ppn := by
  intro w j hj hne
  simp only [CommonTlb.dropEntry, modify, update_apply] at hj
  split at hj
  · cases hj
  · next hpage =>
    have hji : j ≠ i := fun hji => hpage (by rw [← hw.vpn w j hj, hji])
    have hsame : (t.dropEntry i).tlb j = t.tlb j := update_of_ne hji _ _
    rw [hsame]
    exact h w j hj hne

theorem Indexed.deleteEntry (v : Address) : (t.deleteEntry v).2.Indexed := by
  have hlook := h.lookUp v true
  have hfst := lookUp_fst t v true
  have htrie := (lookUp_spec t v true).1.trie
  rw [CommonTlb.deleteEntry]
  rcases hr : t.lookUp v true with ⟨found, t1⟩
  rw [hr] at hlook hfst htrie
  cases found with
  | none => exact hlook
  | some i => exact hlook.dropEntry (v := v) (by rw [htrie]; exact hfst.symm)

theorem Indexed.flushAll : t.flushAll.Indexed where
  toWf := h.toWf.flushAll
  range _ _ hv := nomatch hv
  valid _ _ hv := nomatch hv
  paOf _ _ hv := nomatch hv

variable {entry : ExtendTlbEntry}

theorem Indexed.fill (hv : t.tlbTrie v = none)
    (hentry : entry.vPageNo = v) (hfree : t.freeEntryList ≠ []) (hppn : t.FreshPpn v entry.pPageNo) :
    (t.fill v entry).Indexed := by
  obtain ⟨hwf, -⟩ := fill_spec h.toWf hv hentry hfree
  obtain ⟨i, rest, hlist⟩ := List.exists_cons_of_ne_nil hfree
  have hi : i < t.tlbEntryNum := h.free i (by rw [hlist]; exact mem_cons_self)
  have hnew : (t.occupy i rest v entry).tlb i = entry.setValid := update_self _ _ _
  have hold : ∀ j, j ≠ i → (t.occupy i rest v entry).tlb j = t.tlb j := fun j hj => update_of_ne hj _ _
  have hbase : ∀ w j, (t.occupy i rest v entry).tlbTrie w = some j →
      (w = v ∧ j = i) ∨ (w ≠ v ∧ t.tlbTrie w = some j ∧ j ≠ i) := by
    intro w j hw
    by_cases hwv : w = v
    · have hself : (t.occupy i rest v entry).tlbTrie w = some i := by rw [hwv]; exact update_self _ _ _
      rw [hself] at hw
      exact .inl ⟨hwv, (some_inj.mp hw).symm⟩
    · have hsame : (t.occupy i rest v entry).tlbTrie w = t.tlbTrie w := update_of_ne hwv _ _
      rw [hsame] at hw
      exact .inr ⟨hwv, hw, h.ne_of_free hlist hw⟩
  have hs := sameIndex_touch (t.occupy i rest v entry) i
  rw [fill_eq hlist] at hwf ⊢
  refine ⟨hwf, ?_, ?_, ?_⟩
  · intro w j hw
    rcases hbase w j hw with ⟨-, rfl⟩ | ⟨-, hw, -⟩
    · exact hi
    · exact h.range w j hw
  · intro w j hw
    rw [touch_valid]
    rcases hbase w j hw with ⟨-, rfl⟩ | ⟨-, hw, hji⟩
    · rw [hnew]
      rfl
    · rw [hold j hji]
      exact h.valid w j hw
  · intro w j hw
    rw [hs.ppn]
    rcases hbase w j hw with ⟨-, rfl⟩ | ⟨hwv, hw, hji⟩
    · rw [hnew]
      exact update_self _ _ _
    · rw [hold j hji]
      exact (update_of_ne (hppn w j hw hwv) _ _).trans (h.paOf w j hw)

/-! ## Evictions -/

variable (z : Zinfo) (multiQueue : Bool)

/-- A full TLB can evict under the policies that `evict` handles. -/
theorem Indexed.evict_progress (hfull : t.freeEntryList = [])
    (hpolicy : t.evictPolicy ≠ .hotnessAware) :
    ∃ i v writeBack, t.evict z multiQueue = some (t.dropEntry i, writeBack) ∧ t.tlbTrie v = some i := by
  have hlru : t.lruEvict = some (t.lruEvictLoop (List.range' 1 (t.tlbEntryNum - 1)) 0) := by
    rw [lruEvict, assertThat_true hfull]
    rfl
  obtain ⟨-, -, hlive⟩ := lruEvict_spec h.toWf hlru
  have hwrite : ∃ writeBack, victimWriteBack z multiQueue
      (t.tlb (t.lruEvictLoop (List.range' 1 (t.tlbEntryNum - 1)) 0)) t.evictPolicy = some writeBack := by
    cases hp : t.evictPolicy with
    | lru | hotMonitorTlbLru => exact ⟨_, rfl⟩
    | hotnessAware => exact absurd hp hpolicy
  obtain ⟨writeBack, hwrite⟩ := hwrite
  refine ⟨_, _, writeBack, ?_, hlive⟩
  simp only [evict, hlru, hwrite, hlive, bind_eq_bind, bind_some, Option.isSome_some, assertThat_true,
    pure_def]

omit h in
/-- Under the other policy it dereferences the null pointer. -/
theorem evict_hotnessAware (hpolicy : t.evictPolicy = .hotnessAware) :
    t.evict z multiQueue = none := by
  cases hlru : t.lruEvict with
  | none => simp [evict, hlru]
  | some i => simp [evict, hlru, hpolicy, victimWriteBack]

theorem Indexed.insert_progress (hv : t.tlbTrie entry.vPageNo = none)
    (hppn : t.FreshPpn entry.vPageNo entry.pPageNo)
    (hpolicy : t.freeEntryList = [] → t.evictPolicy ≠ .hotnessAware) :
    ∃ t' writeBack, t.insert z multiQueue entry.vPageNo entry = some (t', writeBack) ∧ t'.Indexed := by
  rw [CommonTlb.insert, assertThat_true hv, makeRoom]
  by_cases hfull : t.freeEntryList = []
  · obtain ⟨i, v, writeBack, hevict, hlive⟩ := h.evict_progress z multiQueue hfull (hpolicy hfull)
    have hdrop := h.dropEntry hlive
    have hroom : (t.dropEntry i).freeEntryList ≠ [] := by simp [CommonTlb.dropEntry, modify]
    have hnone : (t.dropEntry i).tlbTrie entry.vPageNo = none := by
      simp only [CommonTlb.dropEntry, modify, update_apply, hv, ite_self]
    refine ⟨(t.dropEntry i).fill entry.vPageNo entry, writeBack, ?_,
      hdrop.fill hnone rfl hroom (hppn.dropEntry h.toWf)⟩
    simp only [if_pos hfull, hevict, bind_eq_bind, bind_some, pure_def]
  · refine ⟨t.fill entry.vPageNo entry, none, ?_, h.fill hv rfl hfull hppn⟩
    simp only [if_neg hfull, bind_eq_bind, bind_some, pure_def]

end CommonTlb

namespace HotMonitorTlb

variable {t : HotMonitorTlb}

theorem indexed_remapPpn (h : t.ordinaryTlb.Indexed) {v : Address} {i : Nat} (hv : t.ordinaryTlb.tlbTrie v = some i)
    {ppn : Address} (hppn : t.ordinaryTlb.FreshPpn v ppn) (isDram : Bool) :
    (t.remapPpn ppn i isDram).ordinaryTlb.Indexed := by
  obtain ⟨hwf, -⟩ := remapPpn_spec (t := t) h.toWf hv ppn isDram
  have hnew : (t.remapPpn ppn i isDram).ordinaryTlb.tlb i = (t.ordinaryTlb.tlb i).remap ppn isDram :=
    update_self _ _ _
  have hold : ∀ j, j ≠ i → (t.remapPpn ppn i isDram).ordinaryTlb.tlb j = t.ordinaryTlb.tlb j :=
    fun j hj => update_of_ne hj _ _
  refine ⟨hwf, h.range, fun w j hw => ?_, fun w j hw => ?_⟩
  · have hvalid := h.valid w j hw
    by_cases hji : j = i
    · rw [hji] at hvalid
      rw [hji, hnew]
      exact hvalid
    · rw [hold j hji]
      exact hvalid
  · by_cases hji : j = i
    · rw [hji, hnew]
      exact update_self _ _ _
    · have hwv : w ≠ v := fun he => hji (some_inj.mp (hw.symm.trans (he ▸ hv)))
      have hppn' := hppn w j hw hwv
      have hold' : (t.ordinaryTlb.tlb j).pPageNo ≠ (t.ordinaryTlb.tlb i).pPageNo := by
        intro he
        have hj := h.paOf w j hw
        rw [he, h.paOf v i hv] at hj
        exact hji (some_inj.mp hj).symm
      rw [hold j hji]
      show update (update _ _ _) _ _ _ = _
      rw [update_of_ne hppn', update_of_ne hold']
      exact h.paOf w j hw

inductive TlbOp where
  | lookUp (vpageNo : Address) (updateLru : Bool)
  | insert (entry : ExtendTlbEntry)
  | evict
  | deleteEntry (vpageNo : Address)
  | flushAll
  | remapPpn (vpageNo ppn : Address) (isDram : Bool)
  deriving DecidableEq, Repr

def withOrdinary (t : HotMonitorTlb) (ordinary : CommonTlb) : HotMonitorTlb := { t with ordinaryTlb := ordinary }

def step (z : Zinfo) (multiQueue : Bool) (t : HotMonitorTlb) : TlbOp → Option HotMonitorTlb
  | .lookUp v updateLru => some (t.lookUp v updateLru).2
  | .insert entry =>
    (t.ordinaryTlb.insert z multiQueue entry.vPageNo entry).map fun r => t.withOrdinary r.1
  | .evict => (t.ordinaryTlb.evict z multiQueue).map fun r => t.withOrdinary r.1
  | .deleteEntry v => some (t.withOrdinary (t.ordinaryTlb.deleteEntry v).2)
  | .flushAll => some t.flushAll
  | .remapPpn v ppn isDram => (t.ordinaryTlb.tlbTrie v).map fun i => t.remapPpn ppn i isDram

/-- What the callers see to: only pages not present are inserted, only a full TLB evicts,
only entries present are remapped, and a physical page has one entry. -/
def Allowed (t : HotMonitorTlb) : TlbOp → Prop
  | .insert entry =>
    t.ordinaryTlb.tlbTrie entry.vPageNo = none ∧ t.ordinaryTlb.FreshPpn entry.vPageNo entry.pPageNo
  | .evict => t.ordinaryTlb.freeEntryList = []
  | .remapPpn v ppn _ => (t.ordinaryTlb.tlbTrie v).isSome ∧ t.ordinaryTlb.FreshPpn v ppn
  | _ => True

def Evicts (t : HotMonitorTlb) : TlbOp → Prop
  | .insert _ => t.ordinaryTlb.freeEntryList = []
  | .evict => True
  | _ => False

variable {z : Zinfo} {multiQueue : Bool} {op : TlbOp}

theorem step_evictPolicy {t' : HotMonitorTlb}
    (h : t.step z multiQueue op = some t') : t'.ordinaryTlb.evictPolicy = t.ordinaryTlb.evictPolicy := by
  have hlook : ∀ v updateLru, (t.ordinaryTlb.lookUp v updateLru).2.evictPolicy = t.ordinaryTlb.evictPolicy := by
    intro v updateLru
    rcases t.ordinaryTlb.lookUp_snd_cases v updateLru with he | ⟨i, he⟩ <;> rw [he]
    rfl
  have hevict : ∀ r, t.ordinaryTlb.evict z multiQueue = some r → r.1.evictPolicy = t.ordinaryTlb.evictPolicy := by
    intro r hr
    obtain ⟨i, -, he⟩ := CommonTlb.evict_eq_some hr
    rw [he]
    rfl
  have hfill : ∀ (ordinary : CommonTlb) v entry, (ordinary.fill v entry).evictPolicy = ordinary.evictPolicy := by
    intro ordinary v entry
    unfold CommonTlb.fill
    split <;> rfl
  cases op with
  | lookUp v updateLru =>
    cases h
    exact hlook v updateLru
  | insert entry =>
    obtain ⟨r, hr, rfl⟩ := map_eq_some_iff.mp h
    obtain ⟨_, -, hr⟩ := bind_eq_some_iff.mp hr
    obtain ⟨r1, hr1, hr⟩ := bind_eq_some_iff.mp hr
    cases hr
    refine (hfill r1.1 _ _).trans ?_
    unfold CommonTlb.makeRoom at hr1
    split at hr1
    · exact hevict r1 hr1
    · cases hr1
      rfl
  | evict =>
    obtain ⟨r, hr, rfl⟩ := map_eq_some_iff.mp h
    exact hevict r hr
  | deleteEntry v =>
    cases h
    have hpolicy := hlook v true
    simp only [withOrdinary, CommonTlb.deleteEntry]
    rcases hr : t.ordinaryTlb.lookUp v true with ⟨found, t1⟩
    rw [hr] at hpolicy
    cases found <;> exact hpolicy
  | flushAll =>
    cases h
    rfl
  | remapPpn v ppn isDram =>
    obtain ⟨i, -, rfl⟩ := map_eq_some_iff.mp h
    rfl

/-- An allowed call ends and keeps the representation, unless it evicts under a policy
that `evict` does not handle. -/
theorem step_progress (h : t.ordinaryTlb.Indexed) (z : Zinfo) (multiQueue : Bool) (hok : t.Allowed op)
    (hpolicy : t.Evicts op → t.ordinaryTlb.evictPolicy ≠ .hotnessAware) :
    ∃ t', t.step z multiQueue op = some t' ∧ t'.ordinaryTlb.Indexed := by
  cases op with
  | lookUp v updateLru => exact ⟨_, rfl, h.lookUp v updateLru⟩
  | insert entry =>
    obtain ⟨ordinary, writeBack, hr, h'⟩ := h.insert_progress z multiQueue hok.1 hok.2 hpolicy
    exact ⟨t.withOrdinary ordinary, by rw [step, hr]; rfl, h'⟩
  | evict =>
    obtain ⟨i, v, writeBack, hr, hlive⟩ := h.evict_progress z multiQueue hok (hpolicy trivial)
    exact ⟨t.withOrdinary (t.ordinaryTlb.dropEntry i), by rw [step, hr]; rfl, h.dropEntry hlive⟩
  | deleteEntry v => exact ⟨_, rfl, h.deleteEntry v⟩
  | flushAll => exact ⟨_, rfl, h.flushAll⟩
  | remapPpn v ppn isDram =>
    obtain ⟨i, hi⟩ := isSome_iff_exists.mp hok.1
    exact ⟨t.remapPpn ppn i isDram, by rw [step, hi]; rfl, indexed_remapPpn h hi hok.2 isDram⟩

theorem not_evicts_of_step
    (hpolicy : t.ordinaryTlb.evictPolicy = .hotnessAware) (hr : (t.step z multiQueue op).isSome) : ¬ t.Evicts op := by
  intro hev
  have hnone := CommonTlb.evict_hotnessAware z multiQueue hpolicy
  cases op with
  | insert entry =>
    have hfull : t.ordinaryTlb.freeEntryList = [] := hev
    have hroom : t.ordinaryTlb.makeRoom z multiQueue = none := by rw [CommonTlb.makeRoom, if_pos hfull, hnone]
    by_cases hv : t.ordinaryTlb.tlbTrie entry.vPageNo = none
    · simp [step, CommonTlb.insert, hv, hroom] at hr
    · simp [step, CommonTlb.insert, hv] at hr
  | evict => simp [step, hnone] at hr
  | lookUp _ _ | deleteEntry _ | flushAll | remapPpn _ _ _ => exact hev

/-- Over any sequence of allowed calls, every call ends and leaves free list, tries and
entries in agreement exactly if the policy is one that `evict` handles or no call
evicts. -/
theorem run_represents_iff (z : Zinfo) (multiQueue : Bool) (c : TlbSetup) {ops : List TlbOp}
    (hok : AllSteps (step z multiQueue) Allowed (new c) ops) :
    (∀ pre, pre <+: ops → ∃ t, run (step z multiQueue) (new c) pre = some t ∧ t.ordinaryTlb.Represents) ↔
      c.policy ≠ .hotnessAware ∨ AllSteps (step z multiQueue) (fun t op => ¬ t.Evicts op) (new c) ops := by
  have hkeep : ∀ t op t', t.ordinaryTlb.evictPolicy = c.policy → step z multiQueue t op = some t' →
      t'.ordinaryTlb.evictPolicy = c.policy := fun t op t' hp hr => (step_evictPolicy hr).trans hp
  constructor
  · intro hall
    by_cases hpolicy : c.policy = .hotnessAware
    · obtain ⟨t, hr, -⟩ := hall ops prefix_rfl
      refine .inr (AllSteps.imp (step z multiQueue) (fun t op t' hp _ hr => hkeep t op t' hp hr) ?_ ops rfl
        (allSteps_of_run (step z multiQueue) ops hr))
      exact fun t op hp hr => not_evicts_of_step (hp.trans hpolicy) hr
    · exact .inl hpolicy
  · intro hcond pre hpre
    obtain ⟨post, rfl⟩ := hpre
    let handled := fun (t : HotMonitorTlb) (op : TlbOp) => c.policy ≠ .hotnessAware ∨ ¬ t.Evicts op
    have hhandled : AllSteps (step z multiQueue) handled (new c) pre := by
      rcases hcond with hpolicy | hno
      · exact allSteps_of_forall _ (fun _ _ => .inl hpolicy) _ _
      · have hno' := ((allSteps_append (step z multiQueue)).mp hno).1
        exact AllSteps.imp (step z multiQueue) (fun _ _ _ (_ : True) _ _ => trivial)
          (fun _ _ _ h => .inr h) pre trivial hno'
    have hboth := AllSteps.and (step z multiQueue) pre ((allSteps_append (step z multiQueue)).mp hok).1 hhandled
    let inv := fun t : HotMonitorTlb => t.ordinaryTlb.Indexed ∧ t.ordinaryTlb.evictPolicy = c.policy
    have hstep : ∀ t op, inv t → t.Allowed op ∧ handled t op → ∃ t', step z multiQueue t op = some t' ∧ inv t' := by
      intro t op h hop
      obtain ⟨t', hr, h'⟩ := step_progress h.1 z multiQueue hop.1 fun hev => by
        rw [h.2]
        exact hop.2.resolve_right fun hno => hno hev
      exact ⟨t', hr, h', hkeep t op t' h.2 hr⟩
    obtain ⟨t, hr, h⟩ := run_isSome (step z multiQueue) hstep pre
      (⟨CommonTlb.indexed_new c.size_pos, rfl⟩ : inv (new c)) hboth
    exact ⟨t, hr, h.1.represents⟩

section Sample

def oneEntry (policy : EvictStyle) : TlbSetup :=
  ⟨1, 1, 1, policy, fun _ => .new 0 0 false, 0, Nat.one_pos⟩

/-- Page 1 at frame 11, looked up and evicted again. -/
theorem run_represents_iff_evicted :
    ∃ t, run (step ⟨12, 12, 2^40, 1⟩ false) (new (oneEntry .lru))
        [.insert (.new 1 11 false), .lookUp 1 true, .evict, .flushAll] = some t ∧ t.ordinaryTlb.Represents := by
  refine (run_represents_iff ⟨12, 12, 2^40, 1⟩ false (oneEntry .lru) ?_).mpr (.inl (by decide)) _ prefix_rfl
  refine ⟨⟨rfl, fun _ _ h => nomatch h⟩, fun t ht => ⟨trivial, fun t1 ht1 => ⟨?_, fun _ _ => ⟨trivial, fun _ _ => trivial⟩⟩⟩⟩
  cases ht
  cases ht1
  rfl

/-- With the policy `HOTNESSAware` a second page does not fit: there is no entry to
evict. -/
theorem hotnessAware_insert_fails :
    AllSteps (step ⟨12, 12, 2^40, 1⟩ false) Allowed (new (oneEntry .hotnessAware))
        [.insert (.new 1 11 false), .insert (.new 2 12 false)] ∧
      run (step ⟨12, 12, 2^40, 1⟩ false) (new (oneEntry .hotnessAware))
        [.insert (.new 1 11 false), .insert (.new 2 12 false)] = none := by
  refine ⟨⟨⟨rfl, fun _ _ h => nomatch h⟩, fun t ht => ⟨⟨?_, ?_⟩, fun _ _ => trivial⟩⟩, rfl⟩
  · cases ht
    rfl
  · cases ht
    intro w i hw _
    have hi : i = 0 := by
      by_cases hw1 : w = 1
      · subst hw1
        exact (some_inj.mp hw).symm
      · have hupd : update (fun _ : Address => (none : Option Nat)) 1 (some 0) w = some i := hw
        rw [update_of_ne hw1] at hupd
        cases hupd
    subst hi
    decide

end Sample

end HotMonitorTlb

end Shma.Tlb
