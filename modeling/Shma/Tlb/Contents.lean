import Mathlib.Data.List.Nodup
import Shma.Tlb.HotMonitorTlb

/-!
# What a TLB holds

The representation invariant of a TLB, kept by every operation in any state, and
the effect of each operation on the translations the TLB holds.
-/
namespace Shma.Tlb

open ExtendTlbEntry (decreLifetime increCounter remap setCounter setValid)

namespace CommonTlb

/-- Every entry outside the free list is the one its virtual page is found at; the
physical index leads to such entries. -/
structure Wf (t : CommonTlb) : Prop where
  size : 0 < t.tlbEntryNum
  vpn : ∀ v i, t.tlbTrie v = some i → (t.tlb i).vPageNo = v
  used : ∀ v i, t.tlbTrie v = some i → i ∉ t.freeEntryList
  live : ∀ i < t.tlbEntryNum, i ∉ t.freeEntryList → t.tlbTrie (t.tlb i).vPageNo = some i
  free : ∀ i ∈ t.freeEntryList, i < t.tlbEntryNum
  nodup : t.freeEntryList.Nodup
  pa : ∀ p i, t.tlbTriePa p = some i → t.tlbTrie (t.tlb i).vPageNo = some i ∧ (t.tlb i).pPageNo = p

def view (t : CommonTlb) (v : Address) : Option (Address × Bool) :=
  (t.tlbTrie v).map fun i => ((t.tlb i).pPageNo, (t.tlb i).inDram)

variable {t : CommonTlb}

theorem wf_new {tlbSize hitLat resLat : Nat} {policy : EvictStyle} {garbage : Nat → ExtendTlbEntry}
    {seq : BitVec 32} (h : 0 < tlbSize) : (new tlbSize hitLat resLat policy garbage seq).Wf where
  size := h
  vpn _ _ h := by cases h
  used _ _ h := by cases h
  live i hi hfree := absurd (mem_range.mpr hi) hfree
  free _ hi := mem_range.mp hi
  nodup := nodup_range
  pa _ _ h := by cases h

theorem Wf.flushAll (hw : t.Wf) : t.flushAll.Wf where
  size := hw.size
  vpn _ _ h := by cases h
  used _ _ h := by cases h
  live i hi hfree := absurd (mem_range.mpr hi) hfree
  free _ hi := mem_range.mp hi
  nodup := nodup_range
  pa _ _ h := by cases h

theorem view_eq_some {v p : Address} {d : Bool} (h : t.view v = some (p, d)) :
    ∃ i, t.tlbTrie v = some i ∧ (t.tlb i).pPageNo = p ∧ (t.tlb i).inDram = d := by
  obtain ⟨i, hi, he⟩ := map_eq_some_iff.mp h
  exact ⟨i, hi, (Prod.mk.inj he).1, (Prod.mk.inj he).2⟩

structure SameIndex (t t' : CommonTlb) : Prop where
  size : t'.tlbEntryNum = t.tlbEntryNum
  trie : t'.tlbTrie = t.tlbTrie
  triePa : t'.tlbTriePa = t.tlbTriePa
  free : t'.freeEntryList = t.freeEntryList
  vpn : ∀ i, (t'.tlb i).vPageNo = (t.tlb i).vPageNo
  ppn : ∀ i, (t'.tlb i).pPageNo = (t.tlb i).pPageNo

variable {t' : CommonTlb}

theorem SameIndex.wf (h : SameIndex t t') (hw : t.Wf) : t'.Wf := by
  refine ⟨?_, ?_, ?_, ?_, ?_, ?_, ?_⟩
  · rw [h.size]; exact hw.size
  · intro v i hi
    rw [h.trie] at hi
    rw [h.vpn]; exact hw.vpn v i hi
  · intro v i hi
    rw [h.trie] at hi
    rw [h.free]; exact hw.used v i hi
  · intro i hi hfree
    rw [h.size] at hi
    rw [h.free] at hfree
    rw [h.trie, h.vpn]; exact hw.live i hi hfree
  · intro i hi
    rw [h.free] at hi
    rw [h.size]; exact hw.free i hi
  · rw [h.free]; exact hw.nodup
  · intro p i hi
    rw [h.triePa] at hi
    rw [h.trie, h.vpn, h.ppn]; exact hw.pa p i hi

section

variable (t : CommonTlb)

theorem sameIndex_modify (i : Nat) (f : ExtendTlbEntry → ExtendTlbEntry)
    (hv : (f (t.tlb i)).vPageNo = (t.tlb i).vPageNo)
    (hp : (f (t.tlb i)).pPageNo = (t.tlb i).pPageNo) : SameIndex t (t.modify i f) := by
  refine ⟨rfl, rfl, rfl, rfl, fun j => ?_, fun j => ?_⟩
  all_goals
    by_cases hj : j = i
    · subst hj; simpa [modify]
    · simp [modify, hj]

theorem sameIndex_touch (i : Nat) : SameIndex t (t.touch i) := by
  obtain ⟨hs, ht, hpa, hf, hv, hp⟩ := sameIndex_modify { t with lruSeq := t.lruSeq + 1 } i
    (fun e => { e with lruSeq := (t.lruSeq + 1).signExtend 64 }) rfl rfl
  exact ⟨hs, ht, hpa, hf, hv, hp⟩

theorem view_modify (i : Nat) (f : ExtendTlbEntry → ExtendTlbEntry)
    (hp : (f (t.tlb i)).pPageNo = (t.tlb i).pPageNo) (hd : (f (t.tlb i)).inDram = (t.tlb i).inDram)
    (v : Address) : (t.modify i f).view v = t.view v := by
  refine congrArg (Option.map · (t.tlbTrie v)) (funext fun j => ?_)
  by_cases hj : j = i
  · subst hj; simp [modify, hp, hd]
  · simp [modify, hj]

theorem view_touch (i : Nat) (v : Address) : (t.touch i).view v = t.view v :=
  view_modify { t with lruSeq := t.lruSeq + 1 } i
    (fun e => { e with lruSeq := (t.lruSeq + 1).signExtend 64 }) rfl rfl v

theorem SameIndex.refl : SameIndex t t :=
  ⟨rfl, rfl, rfl, rfl, fun _ => rfl, fun _ => rfl⟩

section

variable (v : Address) (updateLru : Bool)

theorem lookUp_fst : (t.lookUp v updateLru).1 = t.tlbTrie v := by
  unfold lookUp
  cases t.tlbTrie v <;> rfl

theorem lookUp_snd_cases :
    (t.lookUp v updateLru).2 = t ∨ ∃ i, (t.lookUp v updateLru).2 = t.touch i := by
  unfold lookUp
  cases t.tlbTrie v with
  | none => exact .inl rfl
  | some i =>
    by_cases hc : ((t.tlb i).valid && updateLru) = true
    · exact .inr ⟨i, if_pos hc⟩
    · exact .inl (if_neg hc)

theorem lookUp_spec :
    SameIndex t (t.lookUp v updateLru).2 ∧ ∀ w, (t.lookUp v updateLru).2.view w = t.view w := by
  rcases lookUp_snd_cases t v updateLru with h | ⟨i, h⟩
  · rw [h]; exact ⟨SameIndex.refl t, fun _ => rfl⟩
  · rw [h]; exact ⟨sameIndex_touch t i, view_touch t i⟩

end

end

theorem lruEvictLoop_lt {n : Nat} {is : List Nat} (his : ∀ i ∈ is, i < n) {m : Nat} (hm : m < n) :
    t.lruEvictLoop is m < n := by
  induction is generalizing m with
  | nil => exact hm
  | cons i is ih =>
    refine ih (fun j hj => his j (mem_cons_of_mem i hj)) ?_
    split
    · exact his i mem_cons_self
    · exact hm

theorem lruEvict_spec (hw : t.Wf) {i : Nat} (h : t.lruEvict = some i) :
    t.freeEntryList = [] ∧ i < t.tlbEntryNum ∧ t.tlbTrie (t.tlb i).vPageNo = some i := by
  simp only [lruEvict, bind_eq_bind, bind_eq_some_iff, pure_def, some_inj] at h
  obtain ⟨_, hempty, rfl⟩ := h
  have hnil : t.freeEntryList = [] := by
    by_contra hne
    simp [hne] at hempty
  have hlt : t.lruEvictLoop (List.range' 1 (t.tlbEntryNum - 1)) 0 < t.tlbEntryNum := by
    refine lruEvictLoop_lt (fun i hi => ?_) hw.size
    have := mem_range'_1.mp hi
    omega
  exact ⟨hnil, hlt, hw.live _ hlt (by rw [hnil]; exact not_mem_nil)⟩

variable {multiQueue : Bool} {writeBack : Option MemReq} {z : Zinfo}

theorem evict_eq_some
    (h : t.evict z multiQueue = some (t', writeBack)) : ∃ i, t.lruEvict = some i ∧ t' = t.dropEntry i := by
  obtain ⟨i, hi, h⟩ := bind_eq_some_iff.mp h
  obtain ⟨_, -, h⟩ := bind_eq_some_iff.mp h
  obtain ⟨_, -, h⟩ := bind_eq_some_iff.mp h
  exact ⟨i, hi, (Prod.mk.inj (some_inj.mp h)).1.symm⟩

variable {entry : ExtendTlbEntry} {v : Address}

/-- What `insert` does: it fills the first free entry, in a full TLB the one that `lru_evict` chose,
whose page it must find. -/
theorem insert_cases {r : CommonTlb × Option MemReq} (h : t.insert z multiQueue v entry = some r) :
    (t.freeEntryList ≠ [] ∧ r.1 = t.fill v entry) ∨
      t.freeEntryList = [] ∧ ∃ m, t.lruEvict = some m ∧ (∃ w i, t.tlbTrie w = some i) ∧
        r.1 = (t.dropEntry m).fill v entry := by
  obtain ⟨-, -, h⟩ := bind_eq_some_iff.mp h
  obtain ⟨⟨t1, writeBack⟩, hroom, h⟩ := bind_eq_some_iff.mp h
  cases h
  unfold CommonTlb.makeRoom at hroom
  split at hroom
  · next hfull =>
    obtain ⟨m, hm, hevict⟩ := bind_eq_some_iff.mp hroom
    obtain ⟨_, -, hevict⟩ := bind_eq_some_iff.mp hevict
    obtain ⟨hfound, hevict⟩ := assertThat_bind_eq_some.mp hevict
    cases hevict
    exact .inr ⟨hfull, m, hm, ⟨_, isSome_iff_exists.mp hfound⟩, rfl⟩
  · next hfree =>
    cases hroom
    exact .inl ⟨hfree, rfl⟩

theorem dropEntry_spec (hw : t.Wf) {i : Nat} (hlt : i < t.tlbEntryNum) (hlive : t.tlbTrie (t.tlb i).vPageNo = some i) :
    (t.dropEntry i).Wf ∧
      ∀ w, (t.dropEntry i).view w = if w = (t.tlb i).vPageNo then none else t.view w := by
  -- another page is found at another entry
  have hother : ∀ w j, w ≠ (t.tlb i).vPageNo → t.tlbTrie w = some j → j ≠ i := by
    rintro w j hne hj rfl
    exact hne (hw.vpn w j hj).symm
  have hused : i ∉ t.freeEntryList := hw.used _ i hlive
  refine ⟨⟨hw.size, ?_, ?_, ?_, ?_, ?_, ?_⟩, fun w => ?_⟩
  all_goals simp only [dropEntry, modify, mem_append, mem_singleton, update_apply]
  · intro v j hj
    split at hj
    · cases hj
    · next hne =>
      rw [if_neg (hother v j hne hj)]
      exact hw.vpn v j hj
  · intro v j hj hmem
    split at hj
    · cases hj
    · next hne => exact hmem.elim (hw.used v j hj) (hother v j hne hj)
  · intro j hj hmem
    obtain ⟨hfree, hji⟩ := not_or.mp hmem
    have hjlive := hw.live j hj hfree
    rw [if_neg hji, if_neg ?_]
    · exact hjlive
    · intro he
      rw [he, hlive] at hjlive
      exact hji (some_inj.mp hjlive).symm
  · intro j hj
    rcases hj with hj | rfl
    · exact hw.free j hj
    · exact hlt
  · rw [List.nodup_append']
    exact ⟨hw.nodup, List.nodup_singleton i, fun j hj hji => hused (mem_singleton.mp hji ▸ hj)⟩
  · intro p j hj
    split at hj
    · cases hj
    · next hne =>
      obtain ⟨htrie, hp⟩ := hw.pa p j hj
      have hji : j ≠ i := by
        rintro rfl
        exact hne hp.symm
      rw [if_neg hji, if_neg ?_]
      · exact ⟨htrie, hp⟩
      · intro he
        rw [he, hlive] at htrie
        exact hji (some_inj.mp htrie).symm
  · simp only [view, update_apply]
    split
    · rfl
    · next hne =>
      cases hj : t.tlbTrie w with
      | none => rfl
      | some j => simp [hother w j hne hj]

theorem evict_spec (hw : t.Wf) (h : t.evict z multiQueue = some (t', writeBack)) :
    t'.Wf ∧ t'.freeEntryList ≠ [] ∧ ∃ e, ∀ w, t'.view w = if w = e then none else t.view w := by
  obtain ⟨i, hi, rfl⟩ := evict_eq_some h
  obtain ⟨-, hlt, hlive⟩ := lruEvict_spec hw hi
  obtain ⟨hw', hview⟩ := dropEntry_spec hw hlt hlive
  exact ⟨hw', by simp [dropEntry, modify], (t.tlb i).vPageNo, hview⟩

/-- The TLB whose free entry `i` now is that of page `v`, before the entry gets its age. -/
def occupy (t : CommonTlb) (i : Nat) (rest : List Nat) (v : Address) (entry : ExtendTlbEntry) : CommonTlb :=
  { t with
    freeEntryList := rest
    tlb := update t.tlb i entry.setValid
    tlbTrie := update t.tlbTrie v (some i)
    tlbTriePa := update t.tlbTriePa entry.pPageNo (some i) }

section Occupy

variable {i : Nat} {rest : List Nat} {v : Address} {entry : ExtendTlbEntry} (hlist : t.freeEntryList = i :: rest)
include hlist

theorem fill_eq : t.fill v entry = (t.occupy i rest v entry).touch i := by
  unfold fill
  rw [hlist]
  rfl

theorem Wf.ne_of_free (hw : t.Wf) {w : Address} {j : Nat} (hj : t.tlbTrie w = some j) : j ≠ i := by
  rintro rfl
  exact hw.used w j hj (by rw [hlist]; exact mem_cons_self)

theorem Wf.occupy (hw : t.Wf) (hv : t.tlbTrie v = none) (hentry : entry.vPageNo = v) :
    (t.occupy i rest v entry).Wf := by
  have hnodup := hw.nodup
  rw [hlist, nodup_cons] at hnodup
  refine ⟨hw.size, ?_, ?_, ?_, ?_, ?_, ?_⟩
  all_goals simp only [CommonTlb.occupy, update_apply]
  · intro w j hj
    split at hj
    · next hwv =>
      cases hj
      simp [setValid, hentry, hwv]
    · rw [if_neg (hw.ne_of_free hlist hj)]
      exact hw.vpn w j hj
  · intro w j hj hmem
    split at hj
    · cases hj
      exact hnodup.1 hmem
    · exact hw.used w j hj (by rw [hlist]; exact mem_cons_of_mem i hmem)
  · intro j hj hmem
    by_cases hji : j = i
    · subst hji
      simp [setValid, hentry]
    · have hlive := hw.live j hj (by rw [hlist]; exact fun h => (mem_cons.mp h).elim hji hmem)
      rw [if_neg hji, if_neg ?_]
      · exact hlive
      · intro he
        rw [he, hv] at hlive
        cases hlive
  · intro j hj
    exact hw.free j (by rw [hlist]; exact mem_cons_of_mem i hj)
  · exact hnodup.2
  · intro p j hj
    split at hj
    · next hp =>
      cases hj
      simp [setValid, hentry, hp]
    · obtain ⟨htrie, hp⟩ := hw.pa p j hj
      rw [if_neg (hw.ne_of_free hlist htrie), if_neg ?_]
      · exact ⟨htrie, hp⟩
      · intro he
        rw [he, hv] at htrie
        cases htrie

theorem Wf.view_occupy (hw : t.Wf) (w : Address) :
    (t.occupy i rest v entry).view w = if w = v then some (entry.pPageNo, entry.inDram) else t.view w := by
  simp only [view, CommonTlb.occupy, update_apply]
  split
  · simp [setValid]
  · cases hj : t.tlbTrie w with
    | none => rfl
    | some j => simp [hw.ne_of_free hlist hj]

end Occupy

theorem fill_spec (hw : t.Wf) (hv : t.tlbTrie v = none) (hentry : entry.vPageNo = v) (hfree : t.freeEntryList ≠ []) :
    (t.fill v entry).Wf ∧
      ∀ w, (t.fill v entry).view w = if w = v then some (entry.pPageNo, entry.inDram) else t.view w := by
  obtain ⟨i, rest, hlist⟩ := List.exists_cons_of_ne_nil hfree
  rw [fill_eq hlist]
  constructor
  · exact (sameIndex_touch _ i).wf (hw.occupy hlist hv hentry)
  · exact fun w => (view_touch _ i w).trans (hw.view_occupy hlist w)

theorem insert_spec (hw : t.Wf) (hentry : entry.vPageNo = v)
    (h : t.insert z multiQueue v entry = some (t', writeBack)) :
    t'.Wf ∧ t'.view v = some (entry.pPageNo, entry.inDram) ∧
      ∀ w, w ≠ v → t'.view w = t.view w ∨ t'.view w = none := by
  obtain ⟨_, hv, h⟩ := bind_eq_some_iff.mp h
  obtain ⟨⟨t1, writeBack1⟩, h1, h⟩ := bind_eq_some_iff.mp h
  cases h
  have hview : t.view v = none := by
    have hnone : t.tlbTrie v = none := by
      by_contra hne
      simp [hne] at hv
    rw [view, hnone]; rfl
  have hroom : t1.Wf ∧ t1.freeEntryList ≠ [] ∧ ∀ w, t1.view w = t.view w ∨ t1.view w = none := by
    unfold makeRoom at h1
    split at h1
    · obtain ⟨hw1, hfree, e, hview1⟩ := evict_spec hw h1
      refine ⟨hw1, hfree, fun w => ?_⟩
      rw [hview1]
      split
      · exact .inr rfl
      · exact .inl rfl
    · next hfree =>
      cases h1
      exact ⟨hw, hfree, fun w => .inl rfl⟩
  obtain ⟨hw1, hfree, hview1⟩ := hroom
  have hv1 : t1.tlbTrie v = none := by
    have hnone : t1.view v = none := by
      rcases hview1 v with he | he
      · rw [he, hview]
      · exact he
    exact Option.map_eq_none_iff.mp hnone
  obtain ⟨hwf, hfill⟩ := fill_spec hw1 hv1 hentry hfree
  refine ⟨hwf, by rw [hfill, if_pos rfl], fun w hne => ?_⟩
  rw [hfill, if_neg hne]
  exact hview1 w

end CommonTlb

namespace HotMonitorTlb

def Wf (t : HotMonitorTlb) : Prop := t.ordinaryTlb.Wf

def view (t : HotMonitorTlb) (v : Address) : Option (Address × Bool) := t.ordinaryTlb.view v

theorem wf_new (c : TlbSetup) : (new c).Wf := CommonTlb.wf_new c.size_pos

theorem view_new (c : TlbSetup) (v : Address) : (new c).view v = none := rfl

def SameTrie (t t' : HotMonitorTlb) : Prop :=
  t'.ordinaryTlb.tlbTrie = t.ordinaryTlb.tlbTrie ∧
    ∀ i, (t'.ordinaryTlb.tlb i).vPageNo = (t.ordinaryTlb.tlb i).vPageNo

def IsLive (t : HotMonitorTlb) (i : Nat) : Prop :=
  t.ordinaryTlb.tlbTrie (t.ordinaryTlb.tlb i).vPageNo = some i

variable {t : HotMonitorTlb}

theorem SameTrie.refl (t : HotMonitorTlb) : SameTrie t t := ⟨rfl, fun _ => rfl⟩

theorem SameTrie.trans {t' t'' : HotMonitorTlb} (h : SameTrie t t') (h' : SameTrie t' t'') : SameTrie t t'' :=
  ⟨h'.1.trans h.1, fun i => (h'.2 i).trans (h.2 i)⟩

variable {i : Nat}

theorem IsLive.view_eq (h : t.IsLive i) :
    t.view (t.ordinaryTlb.tlb i).vPageNo = some ((t.ordinaryTlb.tlb i).pPageNo, (t.ordinaryTlb.tlb i).inDram) := by
  rw [view, CommonTlb.view, h]; rfl

theorem SameTrie.isLive {t' : HotMonitorTlb} (h : SameTrie t t') (hi : t.IsLive i) : t'.IsLive i := by
  rw [IsLive, h.1, h.2]; exact hi

theorem lookUp_fst (t : HotMonitorTlb) (v : Address) (updateLru : Bool) :
    (t.lookUp v updateLru).1 = t.ordinaryTlb.tlbTrie v :=
  t.ordinaryTlb.lookUp_fst v updateLru

theorem lookUp_spec (hw : t.Wf) (v : Address) (updateLru : Bool) :
    (t.lookUp v updateLru).2.Wf ∧ SameTrie t (t.lookUp v updateLru).2 ∧
      ∀ w, (t.lookUp v updateLru).2.view w = t.view w := by
  obtain ⟨hs, hview⟩ := t.ordinaryTlb.lookUp_spec v updateLru
  exact ⟨hs.wf hw, ⟨hs.trie, hs.vpn⟩, hview⟩

theorem setDirty_spec (hw : t.Wf) (i : Nat) : (t.setDirty i).Wf ∧ ∀ w, (t.setDirty i).view w = t.view w :=
  ⟨(CommonTlb.sameIndex_modify t.ordinaryTlb i _ rfl rfl).wf hw,
    CommonTlb.view_modify t.ordinaryTlb i _ rfl rfl⟩

variable {v : Address}

section

variable (hw : t.Wf) (hv : t.ordinaryTlb.tlbTrie v = some i)
include hw hv

theorem view_update (t' : HotMonitorTlb) {e : ExtendTlbEntry} (htrie : t'.ordinaryTlb.tlbTrie = t.ordinaryTlb.tlbTrie)
    (htlb : t'.ordinaryTlb.tlb = update t.ordinaryTlb.tlb i e) (w : Address) :
    t'.view w = if w = v then some (e.pPageNo, e.inDram) else t.view w := by
  rw [view, CommonTlb.view, htrie, htlb]
  split
  · next hwv => rw [hwv, hv]; simp
  · next hne =>
    show _ = (t.ordinaryTlb.tlbTrie w).map _
    cases hj : t.ordinaryTlb.tlbTrie w with
    | none => rfl
    | some j =>
      have hji : j ≠ i := fun he => hne <| by
        rw [← hw.vpn w j hj, he, hw.vpn v i hv]
      simp [hji]

theorem setInvalid_spec :
    (t.setInvalid i).Wf ∧ SameTrie t (t.setInvalid i) ∧ ∀ w, (t.setInvalid i).view w =
      if w = v then (t.view w).map fun x => (x.1, false) else t.view w := by
  have hs := CommonTlb.sameIndex_modify t.ordinaryTlb i (·.setInvalid) rfl rfl
  refine ⟨hs.wf hw, ⟨hs.trie, hs.vpn⟩, fun w => ?_⟩
  rw [view_update hw hv (t.setInvalid i) rfl rfl]
  split
  · next hwv => rw [hwv, view, CommonTlb.view, hv]; rfl
  · rfl

theorem remapPpn_spec (ppn : Address) (inDram : Bool) :
    (t.remapPpn ppn i inDram).Wf ∧ SameTrie t (t.remapPpn ppn i inDram) ∧ ∀ w, (t.remapPpn ppn i inDram).view w =
      if w = v then some (ppn, inDram) else t.view w := by
  have hvpn : ∀ j, ((t.remapPpn ppn i inDram).ordinaryTlb.tlb j).vPageNo = (t.ordinaryTlb.tlb j).vPageNo := by
    intro j
    by_cases hj : j = i
    · subst hj; simp [remapPpn, remap]
    · simp [remapPpn, hj]
  refine ⟨⟨hw.size, ?_, hw.used, ?_, hw.free, hw.nodup, ?_⟩, ⟨rfl, hvpn⟩,
    view_update hw hv (t.remapPpn ppn i inDram) rfl rfl⟩
  · intro w j hj
    rw [hvpn]; exact hw.vpn w j hj
  · intro j hj hfree
    rw [hvpn]; exact hw.live j hj hfree
  · intro p j hj
    simp only [remapPpn, update_apply] at hj ⊢
    split at hj
    · next hp =>
      cases hj
      have hlive : t.ordinaryTlb.tlbTrie (t.ordinaryTlb.tlb i).vPageNo = some i := by rw [hw.vpn v i hv, hv]
      simpa [remap, hp] using hlive
    · split at hj
      · cases hj
      · next hold =>
        obtain ⟨hlive, hp⟩ := hw.pa p j hj
        have hji : j ≠ i := by
          rintro rfl
          exact hold hp.symm
        rw [if_neg hji]
        exact ⟨hlive, hp⟩

end

theorem newEntry_spec (z : Zinfo) (cfg : CounterConfig) (v ppn : Address) (accessCounter : Nat) :
    (newEntry z cfg v ppn accessCounter).vPageNo = v ∧ (newEntry z cfg v ppn accessCounter).pPageNo = ppn ∧
      (newEntry z cfg v ppn accessCounter).inDram = decide (z.highAddr ≤ ppn <<< z.pageShift) := by
  unfold newEntry
  split
  · next hd => split <;> simp [ExtendTlbEntry.new, remap, ExtendTlbEntry.setDirty, hd]
  · next hd => split <;> simp [ExtendTlbEntry.new, setCounter, hd]

theorem insert_spec {z : Zinfo} {cfg : CounterConfig} {t' : HotMonitorTlb} {writeBack : Option MemReq} (hw : t.Wf)
    {v ppn : Address} {accessCounter : Nat} (h : t.insert z cfg v ppn accessCounter = some (t', writeBack)) :
    t'.Wf ∧ t'.view v = some (ppn, decide (z.highAddr ≤ ppn <<< z.pageShift)) ∧
      ∀ w, w ≠ v → t'.view w = t.view w ∨ t'.view w = none := by
  obtain ⟨⟨ordinary, writeBack1⟩, h1, h⟩ := bind_eq_some_iff.mp h
  cases h
  obtain ⟨hv, hp, hd⟩ := newEntry_spec z cfg v ppn accessCounter
  obtain ⟨hwf, hview, hothers⟩ := CommonTlb.insert_spec hw hv h1
  rw [hp, hd] at hview
  exact ⟨hwf, hview, hothers⟩

variable (cfg : CounterConfig)

theorem increCounter_spec (e : ExtendTlbEntry) (isWrite : Bool)
    (writeIncreStep readIncreStep thres : Nat) :
    let r := e.increCounter cfg isWrite writeIncreStep readIncreStep thres
    r.1.vPageNo = e.vPageNo ∧ r.1.pPageNo = e.pPageNo ∧ r.1.inDram = e.inDram ∧
      (r.2 = .overThres → e.inDram = false) := by
  unfold increCounter
  split
  · exact ⟨rfl, rfl, rfl, fun h => by cases h⟩
  · next hd => exact ⟨rfl, rfl, rfl, fun _ => by simpa using hd⟩

theorem updateLifeTime_spec (t : HotMonitorTlb) (vpn : Address) :
    CommonTlb.SameIndex t.ordinaryTlb (t.updateLifeTime cfg vpn).ordinaryTlb ∧
      ∀ i, ((t.updateLifeTime cfg vpn).ordinaryTlb.tlb i).inDram = (t.ordinaryTlb.tlb i).inDram := by
  have hentry : ∀ i, let e := (t.updateLifeTime cfg vpn).ordinaryTlb.tlb i
      e.vPageNo = (t.ordinaryTlb.tlb i).vPageNo ∧ e.pPageNo = (t.ordinaryTlb.tlb i).pPageNo ∧
        e.inDram = (t.ordinaryTlb.tlb i).inDram := by
    intro i
    unfold updateLifeTime decreLifetime
    dsimp only
    split
    · split <;> exact ⟨rfl, rfl, rfl⟩
    · exact ⟨rfl, rfl, rfl⟩
  exact ⟨⟨rfl, rfl, rfl, rfl, fun i => (hentry i).1, fun i => (hentry i).2.1⟩, fun i => (hentry i).2.2⟩

/-- What is found through the physical index: a live entry of that physical page. -/
structure FoundVa (t t' : HotMonitorTlb) (ppn : Address) (i : Nat) (result : TLBSearchResult) : Prop where
  index : t.ordinaryTlb.tlbTriePa ppn = some i
  live : t'.IsLive i
  ppn : (t'.ordinaryTlb.tlb i).pPageNo = ppn
  vpn : (t'.ordinaryTlb.tlb i).vPageNo = (t.ordinaryTlb.tlb i).vPageNo
  inDram : (t'.ordinaryTlb.tlb i).inDram = (t.ordinaryTlb.tlb i).inDram
  overThres : result = .overThres → (t.ordinaryTlb.tlb i).inDram = false

theorem lookUpVa_spec (hw : t.Wf) (ppn : Address) (isWrite : Bool) (thres : Nat) :
    let r := t.lookUpVa cfg ppn isWrite thres
    r.2.2.Wf ∧ (∀ w, r.2.2.view w = t.view w) ∧ ∀ i, r.1 = some i → FoundVa t r.2.2 ppn i r.2.1 := by
  unfold lookUpVa
  cases hpa : t.ordinaryTlb.tlbTriePa ppn with
  | none => exact ⟨hw, fun _ => rfl, fun i hi => by cases hi⟩
  | some i =>
    obtain ⟨hv, hp, hd, hover⟩ := increCounter_spec cfg (t.ordinaryTlb.tlb i) isWrite t.writeIncreStep
      t.readIncreStep thres
    dsimp only
    generalize (t.ordinaryTlb.tlb i).increCounter cfg isWrite t.writeIncreStep t.readIncreStep thres = r at *
    obtain ⟨hlive, hppn⟩ := hw.pa ppn i hpa
    let t1 : HotMonitorTlb := { t with ordinaryTlb := t.ordinaryTlb.modify i fun _ => r.1 }
    have hs1 : CommonTlb.SameIndex t.ordinaryTlb t1.ordinaryTlb :=
      CommonTlb.sameIndex_modify t.ordinaryTlb i (fun _ => r.1) hv hp
    have hview1 : ∀ w, t1.view w = t.view w := CommonTlb.view_modify t.ordinaryTlb i (fun _ => r.1) hp hd
    have hd1 : (t1.ordinaryTlb.tlb i).inDram = (t.ordinaryTlb.tlb i).inDram := by
      simpa [t1, CommonTlb.modify] using hd
    -- the life times of the other entries do not matter
    suffices hgen : ∀ t2 : HotMonitorTlb, CommonTlb.SameIndex t1.ordinaryTlb t2.ordinaryTlb →
        (∀ j, (t2.ordinaryTlb.tlb j).inDram = (t1.ordinaryTlb.tlb j).inDram) →
        t2.Wf ∧ (∀ w, t2.view w = t.view w) ∧ ∀ j, some i = some j → FoundVa t t2 ppn j r.2 by
      by_cases hq : cfg.multiQueue = true
      · simp only [hq, if_true]
        obtain ⟨hs2, hd2⟩ := updateLifeTime_spec cfg t1 r.1.vPageNo
        exact hgen _ hs2 hd2
      · simp only [hq]
        exact hgen t1 (.refl _) fun _ => rfl
    intro t2 hs2 hd2
    refine ⟨hs2.wf (hs1.wf hw), fun w => ?_, ?_⟩
    · rw [← hview1 w]
      show (t2.ordinaryTlb.tlbTrie w).map _ = (t1.ordinaryTlb.tlbTrie w).map _
      rw [hs2.trie]
      exact congrArg (Option.map · _) (funext fun j => by rw [hs2.ppn, hd2])
    · rintro j ⟨⟩
      have hvpn : (t2.ordinaryTlb.tlb i).vPageNo = (t.ordinaryTlb.tlb i).vPageNo :=
        (hs2.vpn i).trans (hs1.vpn i)
      refine ⟨hpa, ?_, ?_, hvpn, (hd2 i).trans hd1, hover⟩
      · rw [IsLive, hvpn, hs2.trie]; exact hlive
      · rw [hs2.ppn, hs1.ppn]; exact hppn

end HotMonitorTlb

end Shma.Tlb
