import Shma.Nvmain.CacheAssoc

/-!
# When the cache is a cache

With one set, tags are line numbers, and the cache answers for the lines that were installed and not
replaced, as long as no line is installed again while it is there. With more sets some bits of an
address are in neither the tag nor the index, and lines are taken for others. Every valid block is
reported dirty.
-/
namespace Shma.Nvmain

open Lib.Run
open CacheImpl (findBlock findVictim setBlk)

namespace NVMDataBlock

variable {g : AssocGeometry} {dst m : NVMDataBlock}

theorem assign_isSome (hm : CacheLog.IsLine g m) (hdst : ∀ bytes ∈ dst.rawData, g.cacheLineSize ≤ bytes.length) :
    (dst.assign m).isSome := by
  obtain ⟨hlen, hsize⟩ := hm
  obtain ⟨bytes, hbytes, hlen⟩ := map_eq_some_iff.mp hlen
  have hbuffer : m.size ≤ (dst.rawData.getD (List.replicate m.size 0)).length := by
    cases hd : dst.rawData with
    | none => rw [Option.getD_none, List.length_replicate]
    | some buffer =>
      rw [hsize]
      exact hdst buffer hd
  rw [assign, hbytes]
  dsimp only
  rw [if_pos ⟨(hsize.trans hlen.symm).le, hbuffer⟩]
  rfl

theorem assign_line (hm : CacheLog.IsLine g m) (hdst : CacheLog.IsLine g dst) :
    ∃ d, dst.assign m = some d ∧ d.rawData = m.rawData ∧ CacheLog.IsLine g d := by
  obtain ⟨buffer, hbuffer, hblen⟩ := map_eq_some_iff.mp hdst.1
  obtain ⟨bytes, hbytes, hlen⟩ := map_eq_some_iff.mp hm.1
  have hroom : ∀ b ∈ dst.rawData, g.cacheLineSize ≤ b.length := by
    intro b hb
    obtain rfl := mem_unique hbuffer hb
    exact hblen.ge
  obtain ⟨d, hd⟩ := isSome_iff_exists.mp (assign_isSome hm hroom)
  have hraw : d.rawData = m.rawData ∧ d.size = m.size := by
    rw [assign, hbytes] at hd
    dsimp only at hd
    split at hd
    · cases hd
      rw [hbuffer, Option.getD_some, hm.2, List.take_of_length_le hlen.le, List.drop_eq_nil_of_le hblen.le,
        append_nil, hbytes]
      exact ⟨rfl, rfl⟩
    · cases hd
  refine ⟨d, hd, hraw.1, ?_⟩
  rw [CacheLog.IsLine, hraw.1, hraw.2]
  exact hm

end NVMDataBlock

namespace CacheBlock

theorem isValid_markDirty (b : CacheBlock) : { b with status := b.status ||| blkDirty }.isValid = b.isValid := by
  have hbit : (b.status ||| blkDirty) &&& blkValid = b.status &&& blkValid := by
    rw [Nat.and_or_distrib_right]
    exact Nat.or_zero _
  unfold isValid
  rw [hbit]

theorem isDirty_of_isValid {b : CacheBlock} (h : b.isValid = true) : b.isDirty = true := by
  have hbit : b.status &&& (blkValid ||| blkDirty) ≠ 0 := by
    intro hzero
    have hvalid : b.status &&& blkValid = 0 := by
      rw [Nat.and_or_distrib_left] at hzero
      exact (Nat.or_eq_zero_iff.mp hzero).1
    rw [isValid, hvalid] at h
    cases h
  exact bne_iff_ne.mpr hbit

end CacheBlock

namespace CacheImpl

variable {g : AssocGeometry} {c : CacheImpl g}

structure Written (c : CacheImpl g) (a b : Nat) (d : NVMDataBlock) (blks : Nat → CacheBlock) : Prop where
  tag : ∀ x, (blks x).tag = (c.blks x).tag
  valid : ∀ x, (blks x).isValid = (c.blks x).isValid
  data : (blks b).data = d
  dataOthers : ∀ x, x ≠ b → (blks x).data = (c.blks x).data
  others : ∀ x, x ≠ a → x ≠ b → blks x = c.blks x

theorem write_eq {a b : Nat} {d data : NVMDataBlock} (hd : (c.blks b).data.assign data = some d)
    (ha : (c.sets 0)[0]? = some a) :
    ∃ blks, c.write (some b) data = some (use ⟨c.sets, blks⟩ b) ∧ Written c a b d blks := by
  let c1 := c.setBlk b { c.blks b with data := d }
  let c2 := c1.setBlk a { c1.blks a with status := (c1.blks a).status ||| blkDirty }
  have hc1 : ∀ x, (c1.blks x).tag = (c.blks x).tag ∧ (c1.blks x).status = (c.blks x).status ∧
      (x ≠ b → c1.blks x = c.blks x) := by
    intro x
    by_cases hx : x = b
    · rw [hx]
      simp [c1, setBlk]
    · simp [c1, setBlk, hx]
  have hc2 : ∀ x, (c2.blks x).tag = (c1.blks x).tag ∧ (c2.blks x).data = (c1.blks x).data ∧
      (c2.blks x).isValid = (c1.blks x).isValid ∧ (x ≠ a → c2.blks x = c1.blks x) := by
    intro x
    by_cases hx : x = a
    · rw [hx]
      simp [c2, setBlk, CacheBlock.isValid_markDirty]
    · simp [c2, setBlk, hx]
  have hmark : c1.markDirty = some c2 := congrArg (Option.map _) ha
  refine ⟨c2.blks, ?_, ⟨?_, ?_, ?_, ?_, ?_⟩⟩
  · show (((c.blks b).data.assign data).bind fun d => _) = _
    rw [hd, bind_some]
    rw [hmark]
    rfl
  · exact fun x => (hc2 x).1.trans (hc1 x).1
  · intro x
    rw [(hc2 x).2.2.1, CacheBlock.isValid, CacheBlock.isValid, (hc1 x).2.1]
  · rw [(hc2 b).2.1]
    simp [c1, setBlk]
  · intro x hx
    rw [(hc2 x).2.1, (hc1 x).2.2 hx]
  · intro x hxa hxb
    rw [(hc2 x).2.2.2 hxa, (hc1 x).2.2 hxb]

end CacheImpl

/-! ### The order of the blocks -/

theorem shiftUntil_of_mem {blk tmpBlk : Nat} {bs : List Nat} (h : blk ∈ bs) :
    shiftUntil blk tmpBlk bs = tmpBlk :: bs.erase blk := by
  induction bs generalizing tmpBlk with
  | nil => cases h
  | cons b bs ih =>
    rw [shiftUntil]
    by_cases hb : b = blk
    · rw [if_pos hb, hb, List.erase_cons_head]
    · rw [if_neg hb, ih ((mem_cons.mp h).resolve_left fun he => hb he.symm),
        List.erase_cons_tail (by simpa using hb)]

theorem moveToHead_of_mem {blk : Nat} {bs : List Nat} (h : blk ∈ bs) : moveToHead blk bs = blk :: bs.erase blk := by
  cases bs with
  | nil => cases h
  | cons b bs =>
    rw [moveToHead]
    by_cases hb : b = blk
    · rw [if_pos hb, hb, List.erase_cons_head]
    · rw [if_neg hb, shiftUntil_of_mem h]

theorem rewriteUntil_eq (blk n : Nat) (bs : List Nat) : rewriteUntil blk n bs = bs := by
  induction n with
  | zero => rfl
  | succ i ih =>
    rw [rewriteUntil]
    cases hget : bs[i]? with
    | none => rfl
    | some tmpBlk =>
      have hsame : bs.set i tmpBlk = bs := by
        obtain ⟨hi, rfl⟩ := List.getElem?_eq_some_iff.mp hget
        exact List.set_getElem_self hi
      simp only [hsame, ih, ite_self]

theorem moveToTail_eq (blk : Nat) (bs : List Nat) : moveToTail blk bs = bs := by
  rw [moveToTail, rewriteUntil_eq, ite_self]

/-- The same blocks are in the set, and all but one of them in the same order. -/
def KeepsOthers (blk : Nat) (bs bs' : List Nat) : Prop := bs'.Perm bs ∧ bs'.erase blk = bs.erase blk

/-- The two moves put a block of the set first and last, with the others in their order, exactly if
it was the last one: `MoveToTail` moves nothing. -/
theorem moves_rotate_iff {blk : Nat} {bs : List Nat} (h : blk ∈ bs) :
    ((moveToHead blk bs).head? = some blk ∧ KeepsOthers blk bs (moveToHead blk bs)) ∧
      (moveToTail blk bs).getLast? = some blk ∧ KeepsOthers blk bs (moveToTail blk bs) ↔ bs.getLast? = some blk := by
  have hhead : (moveToHead blk bs).head? = some blk ∧ KeepsOthers blk bs (moveToHead blk bs) := by
    rw [moveToHead_of_mem h]
    exact ⟨rfl, (List.perm_cons_erase h).symm, List.erase_cons_head ..⟩
  rw [and_iff_right hhead, moveToTail_eq]
  exact and_iff_left ⟨List.Perm.refl bs, rfl⟩

theorem moves_rotate_last : ((moveToHead 1 [0, 1]).head? = some 1 ∧ KeepsOthers 1 [0, 1] (moveToHead 1 [0, 1])) ∧
    (moveToTail 1 [0, 1]).getLast? = some 1 ∧ KeepsOthers 1 [0, 1] (moveToTail 1 [0, 1]) :=
  (moves_rotate_iff (by decide)).mpr rfl

theorem first_not_moved_to_tail : moveToTail 0 [0, 1] = [0, 1] := by decide

theorem CacheImpl.use_sets {g : AssocGeometry} (c : CacheImpl g) (b : Nat) :
    (c.use b).sets 0 = moveToHead b (c.sets 0) := by
  simp only [use, update_self]

namespace AssocGeometry

variable {g : AssocGeometry}

section OneSet

variable (h : g.setNum = 1)

include h

theorem getIndex_one (pa : Nat) : g.getIndex pa = 0 := by
  rw [getIndex, setMask, h, Nat.and_zero, Nat.zero_shiftRight]

theorem tagShift_one : g.tagShift = g.setShift := by
  rw [tagShift, h]
  rfl

theorem getTag_one (pa : Nat) : g.getTag pa = g.line pa := by
  rw [getTag, tagShift_one h, line]

theorem getPA_one (tag pa : Nat) : g.getPA tag (g.getIndex pa) = tag <<< g.setShift := by
  rw [getPA, tagShift_one h, getIndex_one h, Nat.zero_shiftLeft, Nat.or_zero]

end OneSet

theorem setShift_pos (g : AssocGeometry) : 0 < g.setShift := by
  have hpow := g.lineSize_pow
  have hfour := g.four_le
  by_contra hzero
  rw [setShift, Nat.not_lt, Nat.le_zero] at hzero
  rw [hzero] at hpow
  omega

/-- With several sets, an address of another line than the first can have its tag and its set. -/
theorem exists_confused (h : g.setNum ≠ 1) : ∃ pa, g.getIndex pa = 0 ∧ g.getTag pa = 0 ∧ g.line pa ≠ 0 := by
  have hsets := g.setNum_pow
  have hshift := g.setShift_pos
  have hlog : 0 < Nat.log2 g.setNum := by
    refine Nat.pos_of_ne_zero fun hzero => h ?_
    rw [hsets, hzero, Nat.pow_zero]
  refine ⟨2 ^ (g.tagShift - 1), ?_, ?_, ?_⟩
  · -- the bit is above those that `GetIndex` looks at
    have hdvd : 2 ^ Nat.log2 g.setNum ∣ 2 ^ (g.tagShift - 1) := Nat.pow_dvd_pow 2 (by rw [tagShift]; omega)
    rw [getIndex, setMask, hsets, Nat.and_two_pow_sub_one_eq_mod, Nat.mod_eq_zero_of_dvd hdvd, Nat.zero_shiftRight]
  · rw [getTag, shiftRight_eq_div_pow]
    exact Nat.div_eq_of_lt (Nat.pow_lt_pow_right (by omega) (by rw [tagShift]; omega))
  · have hle : 2 ^ g.setShift ≤ 2 ^ (g.tagShift - 1) := Nat.pow_le_pow_right (by omega) (by rw [tagShift]; omega)
    rw [line, shiftRight_eq_div_pow]
    exact (Nat.div_pos hle (Nat.two_pow_pos _)).ne'

end AssocGeometry

namespace CacheLog

variable {g : AssocGeometry} {s t : CacheLog g}

/-- What runs of a cache with one set keep. The valid blocks come before the others, so the first
block is valid when any is. -/
structure OneSet (s : CacheLog g) : Prop where
  perm : (s.cache.sets 0).Perm (List.range g.assoc)
  ordered : (s.cache.sets 0).Pairwise fun a b => (s.cache.blks b).isValid = true → (s.cache.blks a).isValid = true
  held : ∀ b n, s.holder b = some n ↔ b < g.assoc ∧ (s.cache.blks b).isValid = true ∧ (s.cache.blks b).tag = n
  clean : ∀ b, (s.cache.blks b).isValid = false → (s.cache.blks b).status = 0 ∧ s.written b = false
  apart : ∀ a b n, s.holder a = some n → s.holder b = some n → a = b
  line : ∀ b, IsLine g (s.cache.blks b).data
  data : ∀ b n, s.holder b = some n → (s.cache.blks b).data.rawData = s.latest n

def place (s : CacheLog g) (b n : Nat) (d : NVMDataBlock) : CacheLog g where
  cache := s.cache.setBlk b ⟨n, blkValid, d⟩
  holder := update s.holder b (some n)
  latest := update s.latest n d.rawData
  written := update s.written b false

section Place

variable {b n : Nat} {d : NVMDataBlock}

theorem place_self : (place s b n d).cache.blks b = ⟨n, blkValid, d⟩ := by
  simp only [place, setBlk, update_self]

theorem place_of_ne {x : Nat} (hx : x ≠ b) : (place s b n d).cache.blks x = s.cache.blks x := by
  simp only [place, setBlk, update_of_ne hx]

theorem place_valid_self : ((place s b n d).cache.blks b).isValid = true := by
  rw [place_self]
  show (blkValid &&& blkValid != 0) = true
  decide

theorem place_valid {x : Nat} (hx : (s.cache.blks x).isValid = true) :
    ((place s b n d).cache.blks x).isValid = true := by
  by_cases hxb : x = b
  · rw [hxb, place_valid_self]
  · rw [place_of_ne hxb, hx]

theorem place_holder {x m : Nat} : (place s b n d).holder x = some m ↔ x = b ∧ m = n ∨ x ≠ b ∧ s.holder x = some m := by
  by_cases hx : x = b
  · simp [place, hx, eq_comm]
  · simp [place, hx]

end Place

theorem isLine_ofSize (g : AssocGeometry) : IsLine g (.ofSize g.cacheLineSize) := by
  refine ⟨?_, rfl⟩
  rw [NVMDataBlock.ofSize, map_some, List.length_replicate]

theorem new_isValid (g : AssocGeometry) (b : Nat) : ((new g).cache.blks b).isValid = false := by
  show (0 &&& blkValid != 0) = false
  decide

theorem oneSet_new (g : AssocGeometry) : OneSet (new g) := by
  have hinvalid := new_isValid g
  constructor
  · show (List.range' (0 * g.assoc) g.assoc).Perm _
    rw [Nat.zero_mul, ← List.range_eq_range']
  · exact List.pairwise_of_forall fun a b h => absurd h (by rw [hinvalid]; decide)
  · intro b n
    exact ⟨nofun, fun h => absurd h.2.1 (by rw [hinvalid]; decide)⟩
  · exact fun _ _ => ⟨rfl, rfl⟩
  · exact nofun
  · exact fun _ => isLine_ofSize g
  · exact nofun

namespace OneSet

theorem mem_iff (hs : OneSet s) {b : Nat} : b ∈ s.cache.sets 0 ↔ b < g.assoc := by
  rw [hs.perm.mem_iff, mem_range]

theorem use (hs : OneSet s) {b n : Nat} (hb : s.holder b = some n) : OneSet { s with cache := s.cache.use b } := by
  obtain ⟨hlt, hvalid, -⟩ := (hs.held b n).mp hb
  have hmem := hs.mem_iff.mpr hlt
  have hsets : (s.cache.use b).sets 0 = b :: (s.cache.sets 0).erase b := by
    rw [CacheImpl.use_sets, moveToHead_of_mem hmem]
  constructor
  · rw [hsets]
    exact (List.perm_cons_erase hmem).symm.trans hs.perm
  · rw [hsets]
    exact List.pairwise_cons.mpr ⟨fun _ _ _ => hvalid, hs.ordered.sublist List.erase_sublist⟩
  · exact hs.held
  · exact hs.clean
  · exact hs.apart
  · exact hs.line
  · exact hs.data

section Find

variable (hone : g.setNum = 1)

include hone

theorem findBlock_eq_some (hs : OneSet s) {pa b : Nat} (h : s.cache.findBlock pa = some b) :
    s.holder b = some (g.line pa) := by
  rw [findBlock, g.getIndex_one hone, g.getTag_one hone] at h
  have hfound := List.find?_some h
  rw [Bool.and_eq_true, beq_iff_eq] at hfound
  exact (hs.held b _).mpr ⟨hs.mem_iff.mp (List.mem_of_find?_eq_some h), hfound.2, hfound.1.symm⟩

theorem findBlock_isSome (hs : OneSet s) {pa b : Nat} (h : s.holder b = some (g.line pa)) :
    (s.cache.findBlock pa).isSome := by
  obtain ⟨hlt, hvalid, htag⟩ := (hs.held b _).mp h
  rw [findBlock, g.getIndex_one hone, g.getTag_one hone, List.find?_isSome]
  exact ⟨b, hs.mem_iff.mpr hlt, by rw [htag, hvalid, beq_self_eq_true]; rfl⟩

theorem findVictim_eq (hs : OneSet s) (pa : Nat) : ∃ b as bs, s.cache.findVictim pa = some b ∧
    s.cache.sets 0 = as ++ b :: bs ∧ ∀ a ∈ as, (s.cache.blks a).isValid = true := by
  have hlen : (s.cache.sets 0).length = g.assoc := by rw [hs.perm.length_eq, length_range]
  rw [findVictim, g.getIndex_one hone]
  cases hf : (s.cache.sets 0).find? fun b => !(s.cache.blks b).isValid with
  | some b =>
    obtain ⟨-, as, bs, heq, has⟩ := List.find?_eq_some_iff_append.mp hf
    exact ⟨b, as, bs, rfl, heq, fun a ha => by simpa using has a ha⟩
  | none =>
    -- the set is full of valid blocks, and the last of them goes
    have hne : s.cache.sets 0 ≠ [] := List.ne_nil_of_length_pos (hlen ▸ g.assoc_pos)
    refine ⟨(s.cache.sets 0).getLast hne, (s.cache.sets 0).dropLast, [], ?_, ?_, ?_⟩
    · rw [← hlen, ← List.getLast?_eq_getElem?, List.getLast?_eq_some_getLast hne]
    · exact (List.dropLast_concat_getLast hne).symm
    · intro a ha
      simpa using List.find?_eq_none.mp hf a (List.dropLast_subset _ ha)

theorem right (hs : OneSet s) : Right s where
  found _ _ h := hs.findBlock_eq_some hone h
  finds _ _ h := hs.findBlock_isSome hone h
  data _ _ h := hs.data _ _ (hs.findBlock_eq_some hone h)
  address pa b n _ h := by rw [g.getPA_one hone, ((hs.held b n).mp h).2.2]

end Find

/-- `Evict` answers right for the blocks that hold nothing and for those that were written. -/
theorem evict_eq_written_iff (hs : OneSet s) {b : Nat} (hb : b < g.assoc) :
    s.cache.evict (some b) = s.written b ↔ s.holder b = none ∨ s.written b = true := by
  have hevict : s.cache.evict (some b) = (s.cache.blks b).isDirty := rfl
  rw [hevict]
  cases hvalid : (s.cache.blks b).isValid with
  | true =>
    have hholder : s.holder b ≠ none := by
      rw [(hs.held b _).mpr ⟨hb, hvalid, rfl⟩]
      exact some_ne_none _
    rw [CacheBlock.isDirty_of_isValid hvalid, eq_comm]
    exact (or_iff_right hholder).symm
  | false =>
    obtain ⟨hstatus, hwritten⟩ := hs.clean b hvalid
    refine iff_of_true ?_ (.inl ?_)
    · rw [CacheBlock.isDirty, hstatus, hwritten]
      rfl
    · refine Option.eq_none_iff_forall_ne_some.mpr fun n hn => ?_
      rw [((hs.held b n).mp hn).2.1] at hvalid
      cases hvalid

theorem keep (hs : OneSet s) {blks : Nat → CacheBlock} {latest : Nat → Option (List UInt8)} {written : Nat → Bool}
    (htag : ∀ b, (blks b).tag = (s.cache.blks b).tag) (hvalid : ∀ b, (blks b).isValid = (s.cache.blks b).isValid)
    (hclean : ∀ b, (s.cache.blks b).isValid = false → (blks b).status = 0 ∧ written b = false)
    (hline : ∀ b, IsLine g (blks b).data) (hdata : ∀ b n, s.holder b = some n → (blks b).data.rawData = latest n) :
    OneSet (⟨⟨s.cache.sets, blks⟩, s.holder, latest, written⟩ : CacheLog g) := by
  refine ⟨hs.perm, ?_, ?_, ?_, hs.apart, hline, hdata⟩
  · simpa only [hvalid] using hs.ordered
  · simpa only [hvalid, htag] using hs.held
  · simpa only [hvalid] using hclean

theorem head_valid (hs : OneSet s) {a b n : Nat} (ha : (s.cache.sets 0)[0]? = some a) (hb : s.holder b = some n) :
    (s.cache.blks a).isValid = true := by
  obtain ⟨hlt, hvalid, -⟩ := (hs.held b n).mp hb
  have hmem := hs.mem_iff.mpr hlt
  have hordered := hs.ordered
  cases hsets : s.cache.sets 0 with
  | nil =>
    rw [hsets] at hmem
    cases hmem
  | cons x xs =>
    rw [hsets] at ha hmem hordered
    cases ha
    rcases mem_cons.mp hmem with rfl | htail
    · exact hvalid
    · exact (List.pairwise_cons.mp hordered).1 b htail hvalid

theorem write (hs : OneSet s) {pa b : Nat} {data : NVMDataBlock} (hb : s.holder b = some (g.line pa))
    (hline : IsLine g data) :
    ∃ c, s.cache.write (some b) data = some c ∧ OneSet (s.noteWrite pa data (some b) c) := by
  obtain ⟨d, hd, hraw, hdline⟩ := NVMDataBlock.assign_line hline (hs.line b)
  have hlen : 0 < (s.cache.sets 0).length := by
    rw [hs.perm.length_eq, length_range]
    exact g.assoc_pos
  have hhead : (s.cache.sets 0)[0]? = some (s.cache.sets 0)[0] := List.getElem?_eq_getElem hlen
  have hfirst := hs.head_valid hhead hb
  obtain ⟨hlt, hbvalid, -⟩ := (hs.held b _).mp hb
  obtain ⟨blks, hwrite, hblks⟩ := CacheImpl.write_eq hd hhead
  refine ⟨_, hwrite, ?_⟩
  have hkeep : OneSet (⟨⟨s.cache.sets, blks⟩, s.holder, update s.latest (g.line pa) data.rawData,
      update s.written b true⟩ : CacheLog g) := by
    refine hs.keep hblks.tag hblks.valid ?_ ?_ ?_
    · intro x hx
      have hxa : x ≠ (s.cache.sets 0)[0] := fun h => by rw [h, hfirst] at hx; cases hx
      have hxb : x ≠ b := fun h => by rw [h, hbvalid] at hx; cases hx
      rw [hblks.others x hxa hxb, update_of_ne hxb]
      exact hs.clean x hx
    · intro x
      by_cases hx : x = b
      · rw [hx, hblks.data]
        exact hdline
      · rw [hblks.dataOthers x hx]
        exact hs.line x
    · intro x n hn
      by_cases hx : x = b
      · subst hx
        obtain rfl := mem_unique hb hn
        rw [hblks.data, update_self, hraw]
      · have hne : n ≠ g.line pa := fun h => hx (hs.apart x b n hn (h ▸ hb))
        rw [hblks.dataOthers x hx, update_of_ne hne]
        exact hs.data x n hn
  exact hkeep.use hb

section Place

variable {b n : Nat} {d : NVMDataBlock}

section

variable (hs : OneSet s) {as bs : List Nat} (hsets : s.cache.sets 0 = as ++ b :: bs)
  (hbefore : ∀ a ∈ as, (s.cache.blks a).isValid = true)
include hs hsets hbefore

theorem place_ordered : ((place s b n d).cache.sets 0).Pairwise fun x y =>
      ((place s b n d).cache.blks y).isValid = true → ((place s b n d).cache.blks x).isValid = true := by
  have hordered := hs.ordered
  have hnodup : (as ++ b :: bs).Nodup := hsets ▸ hs.perm.nodup_iff.mpr nodup_range
  have hnot : b ∉ bs := (nodup_cons.mp (List.nodup_append.mp hnodup).2.1).1
  rw [hsets] at hordered
  show (s.cache.sets 0).Pairwise _
  rw [hsets]
  refine List.pairwise_append.mpr ⟨?_, ?_, fun x hx _ _ _ => place_valid (hbefore x hx)⟩
  · exact List.Pairwise.imp_of_mem (fun hx _ _ _ => place_valid (hbefore _ hx))
      (List.pairwise_append.mp hordered).1
  · refine List.pairwise_cons.mpr ⟨fun _ _ _ => place_valid_self, ?_⟩
    -- the blocks after it are as they were
    have hafter := (List.pairwise_cons.mp (List.pairwise_append.mp hordered).2.1).2
    refine hafter.imp_of_mem fun {x y} hx hy hxy => ?_
    have hxb : x ≠ b := ne_of_mem_of_not_mem hx hnot
    have hyb : y ≠ b := ne_of_mem_of_not_mem hy hnot
    rw [place_of_ne hxb, place_of_ne hyb]
    exact hxy

theorem placed (hfree : ∀ x, s.holder x ≠ some n) (hd : IsLine g d) : OneSet (place s b n d) := by
  have hlt : b < g.assoc := hs.mem_iff.mp (hsets ▸ mem_append_right as mem_cons_self)
  refine ⟨hs.perm, place_ordered hs hsets hbefore, ?_, ?_, ?_, ?_, ?_⟩
  · intro x m
    rw [place_holder]
    by_cases hx : x = b
    · rw [hx, place_self]
      simp [hlt, eq_comm, CacheBlock.isValid, blkValid]
    · rw [place_of_ne hx, ← hs.held x m]
      simp [hx]
  · intro x hx
    have hxb : x ≠ b := fun h => by
      rw [h, place_valid_self] at hx
      cases hx
    rw [place_of_ne hxb] at hx ⊢
    refine ⟨(hs.clean x hx).1, ?_⟩
    simp only [place, update_of_ne hxb, (hs.clean x hx).2]
  · intro x y m hx hy
    rcases place_holder.mp hx with ⟨hxb, hm⟩ | ⟨-, hx'⟩ <;> rcases place_holder.mp hy with ⟨hyb, hm'⟩ | ⟨-, hy'⟩
    · rw [hxb, hyb]
    · exact absurd (hm ▸ hy') (hfree y)
    · exact absurd (hm' ▸ hx') (hfree x)
    · exact hs.apart x y m hx' hy'
  · intro x
    by_cases hx : x = b
    · rw [hx, place_self]
      exact hd
    · rw [place_of_ne hx]
      exact hs.line x
  · intro x m hm
    rcases place_holder.mp hm with ⟨rfl, rfl⟩ | ⟨hx, hm⟩
    · rw [place_self]
      simp only [place, update_self]
    · have hne : m ≠ n := fun h => hfree x (h ▸ hm)
      rw [place_of_ne hx, hs.data x m hm]
      simp only [place, update_of_ne hne]

end

end Place

theorem install (hone : g.setNum = 1) (hs : OneSet s) {pa : Nat} {data : NVMDataBlock}
    (hnew : s.cache.findBlock pa = none) (hline : IsLine g data) :
    ∃ t, s.step (.install pa data) = some t ∧ OneSet t := by
  obtain ⟨b, as, bs, hvictim, hsets, hbefore⟩ := hs.findVictim_eq hone pa
  obtain ⟨d, hd, hraw, hdline⟩ := NVMDataBlock.assign_line hline (hs.line b)
  have hfree : ∀ x, s.holder x ≠ some (g.line pa) := by
    intro x hx
    have hfound := hs.findBlock_isSome hone hx
    rw [hnew] at hfound
    cases hfound
  have hstep : s.step (.install pa data) = some (place s b (g.line pa) { d with isValid := true }) := by
    rw [step, hvictim, bind_some, CacheImpl.install, hd, g.getTag_one hone,
      ← hraw]
    rfl
  exact ⟨_, hstep, placed hs hsets hbefore hfree hdline⟩

theorem step (hone : g.setNum = 1) (hs : OneSet s) {op : CacheOp} (hop : Allowed s op) :
    ∃ t, s.step op = some t ∧ OneSet t := by
  cases op with
  | install pa data => exact hs.install hone hop.1 hop.2
  | read pa data =>
    cases hfind : s.cache.findBlock pa with
    | none =>
      refine ⟨s, ?_, hs⟩
      rw [CacheLog.step, hfind]
      rfl
    | some b =>
      obtain ⟨d, hd⟩ := isSome_iff_exists.mp (NVMDataBlock.assign_isSome (hs.line b) hop)
      refine ⟨{ s with cache := s.cache.use b }, ?_, hs.use (hs.findBlock_eq_some hone hfind)⟩
      rw [CacheLog.step, hfind, CacheImpl.read, hd]
      rfl
  | write pa data =>
    cases hfind : s.cache.findBlock pa with
    | none =>
      refine ⟨s, ?_, hs⟩
      rw [CacheLog.step, hfind]
      rfl
    | some b =>
      obtain ⟨c, hc, hkept⟩ := hs.write (hs.findBlock_eq_some hone hfind) hop
      refine ⟨_, ?_, hkept⟩
      rw [CacheLog.step, hfind, hc, map_some]

end OneSet

theorem exists_not_right (h : g.setNum ≠ 1) : ∃ op s, Allowed (new g) op ∧ (new g).step op = some s ∧ ¬ Right s := by
  obtain ⟨pa, hindex, htag, hline⟩ := g.exists_confused h
  obtain ⟨n, hn⟩ := Nat.exists_eq_add_one_of_ne_zero g.assoc_pos.ne'
  have hsets : (new g).cache.sets 0 = 0 :: List.range' 1 n := by
    show List.range' (0 * g.assoc) g.assoc = _
    rw [Nat.zero_mul, hn, List.range'_succ]
  have hzero : g.getIndex 0 = 0 ∧ g.getTag 0 = 0 ∧ g.line 0 = 0 := by
    refine ⟨?_, Nat.zero_shiftRight _, Nat.zero_shiftRight _⟩
    rw [AssocGeometry.getIndex, Nat.zero_and, Nat.zero_shiftRight]
  have hd := isLine_ofSize g
  have hfree : (new g).cache.findBlock 0 = none := by
    rw [findBlock, List.find?_eq_none]
    intro b _
    rw [new_isValid, Bool.and_false]
    exact Bool.false_ne_true
  have hvictim : (new g).cache.findVictim 0 = some 0 := by
    rw [findVictim, hzero.1, hsets, List.find?_cons_of_pos (by rw [new_isValid]; rfl)]
  obtain ⟨d, hassign, hraw, -⟩ := NVMDataBlock.assign_line hd hd
  have hstep : (new g).step (.install 0 (.ofSize g.cacheLineSize)) =
      some (place (new g) 0 0 { d with isValid := true }) := by
    have hblk : ((new g).cache.blks 0).data.assign (.ofSize g.cacheLineSize) = some d := hassign
    rw [step, hvictim, bind_some, CacheImpl.install, hblk, hzero.2.1, hzero.2.2, ← hraw]
    rfl
  have hfound : (place (new g) 0 0 { d with isValid := true }).cache.findBlock pa = some 0 := by
    have hset : (place (new g) 0 0 { d with isValid := true }).cache.sets 0 = 0 :: List.range' 1 n := hsets
    rw [findBlock, hindex, htag, hset, List.find?_cons_of_pos]
    rw [place_valid_self]
    rfl
  refine ⟨.install 0 (.ofSize g.cacheLineSize), _, ⟨hfree, hd⟩, hstep, fun hright => hline ?_⟩
  have hholder : (place (new g) 0 0 { d with isValid := true }).holder 0 = some 0 :=
    place_holder.mpr (.inl ⟨rfl, rfl⟩)
  exact some_inj.mp ((hright.found pa 0 hfound).symm.trans hholder)

/-- With one set, `CacheImpl` keeps the lines installed in it, as long as none is installed while it
is there and all data is of the size of a line. With more sets it does not. `Evict` answers right
exactly for blocks that hold nothing and for those written after their installation. -/
theorem cache_right_iff (g : AssocGeometry) :
    ((∀ ops, AllSteps step Allowed (new g) ops → ∃ s, run step (new g) ops = some s ∧ Right s) ↔ g.setNum = 1) ∧
      (g.setNum = 1 → ∀ ops s, AllSteps step Allowed (new g) ops → run step (new g) ops = some s →
        ∀ b < g.assoc, (s.cache.evict (some b) = s.written b ↔ s.holder b = none ∨ s.written b = true)) := by
  have hrun : g.setNum = 1 → ∀ ops, AllSteps step Allowed (new g) ops →
      ∃ s, run step (new g) ops = some s ∧ OneSet s :=
    fun hone ops hops => run_isSome step (fun _ _ hs hop => hs.step hone hop) ops (oneSet_new g) hops
  refine ⟨⟨fun hall => ?_, fun hone ops hops => ?_⟩, fun hone ops s hops hs b hb => ?_⟩
  · by_contra hone
    obtain ⟨op, s, hop, hstep, hnot⟩ := exists_not_right hone
    obtain ⟨t, ht, hright⟩ := hall [op] ⟨hop, fun _ _ => trivial⟩
    obtain ⟨u, hu, hut⟩ := (run_cons_eq_some step).mp ht
    obtain rfl := mem_unique hstep hu
    cases hut
    exact hnot hright
  · obtain ⟨s, hs, hinv⟩ := hrun hone ops hops
    exact ⟨s, hs, hinv.right hone⟩
  · obtain ⟨t, ht, hinv⟩ := hrun hone ops hops
    obtain rfl := mem_unique hs ht
    exact hinv.evict_eq_written_iff hb

def twoSets : AssocGeometry := ⟨1, 2, 4, Nat.one_pos, rfl, Nat.le_refl 4, rfl⟩

def oneSetOfTwo : AssocGeometry := ⟨2, 1, 4, Nat.two_pos, rfl, Nat.le_refl 4, rfl⟩

def lineOf (v : UInt8) : NVMDataBlock := ⟨some (List.replicate 4 v), true, 4⟩

/-- With two sets, after the line at 0 was installed it is found at address 4, which is in the next
line. With one set, a line that was only installed is reported dirty; and a line installed for a
second time is found with its first data. -/
theorem confused_and_always_dirty :
    (∃ s, run step (new twoSets) [.install 0 (lineOf 1)] = some s ∧
      s.cache.findBlock 4 = some 0 ∧ s.holder 0 = some 0 ∧ twoSets.line 4 = 1) ∧
    (∃ s, run step (new oneSetOfTwo) [.install 0 (lineOf 1)] = some s ∧
      s.cache.evict (s.cache.findBlock 0) = true ∧ s.written 0 = false) ∧
    (∃ s, run step (new oneSetOfTwo) [.install 0 (lineOf 1), .install 0 (lineOf 2)] = some s ∧
      s.latest 0 = (lineOf 2).rawData ∧
        (s.cache.findBlock 0).map (fun b => (s.cache.blks b).data.rawData) = some (lineOf 1).rawData) := by
  decide

end CacheLog

end Shma.Nvmain
