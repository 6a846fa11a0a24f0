import Shma.Common.Const
import Shma.Lib.FirstMatch
import Shma.Nvmain.Translator

/-!
# The tags of a DRAM cache

`Utils/Caches/CacheBank.cpp`, as far as `HierDRAMCache` uses it: sets of ways that hold addresses,
which are compared by their tags. Every operation is a loop over the ways of one set that stops at
the first one it looks for. The order of the ways does not change here; the victim is always the
last one.

The flag `CACHE_ENTRY_EXAMPLE`, which nothing here sets, and the data are left out.
-/
namespace Shma.Nvmain

open Lib
open Nat (log2)

structure CacheEntry where
  (valid dirty : Bool)
  address : Nat
  deriving DecidableEq

structure CacheGeometry where
  (numSets numAssoc cachelineSize : Nat)
  numSets_pos : 0 < numSets
  numAssoc_pos : 0 < numAssoc
  cachelineSize_pos : 0 < cachelineSize

namespace CacheGeometry

variable (g : CacheGeometry) (addr : Nat)

/-- `DefaultDecoder`, which takes the logarithm of an `int`. -/
def setID : Nat :=
  (addr >>> mlog2 (Int.bmod g.cachelineSize (2^32)).toNat) % g.numSets

def tagOff : Nat := log2 g.cachelineSize + log2 g.numSets

def getTag : Nat := addr >>> g.tagOff

def line : Nat := addr / g.cachelineSize

def tagOf (e : CacheEntry) : Option Nat := if e.valid then some (g.getTag e.address) else none

def holds (e : CacheEntry) : Bool :=
  g.getTag e.address == g.getTag addr && e.valid

variable {e : CacheEntry}

theorem tagOf_eq_some {g : CacheGeometry} {addr : Nat} : g.tagOf e = some (g.getTag addr) ↔ g.holds addr e = true := by
  unfold tagOf holds
  cases e.valid <;> simp

theorem tagOf_eq_none {g : CacheGeometry} : g.tagOf e = none ↔ e.valid = false := by
  unfold tagOf
  cases e.valid <;> simp

end CacheGeometry

variable (g : CacheGeometry)

/-- An entry of a set: only if it is valid it is dirty, and then its address belongs to the set. -/
structure CacheGeometry.Fits (i : Nat) (e : CacheEntry) : Prop where
  dirty : e.dirty = true → e.valid = true
  home : e.valid = true → g.setID e.address = i

structure CacheSet (i : Nat) where
  ways : List CacheEntry
  length_eq : ways.length = g.numAssoc
  fits : ∀ e ∈ ways, g.Fits i e

namespace CacheSet

variable {g : CacheGeometry} {i : Nat}

theorem fits_replicate : ∀ e ∈ List.replicate g.numAssoc (⟨false, false, 0⟩ : CacheEntry), g.Fits i e := by
  intro e he
  rw [List.eq_of_mem_replicate he]
  exact ⟨nofun, nofun⟩

def empty : CacheSet g i := ⟨List.replicate g.numAssoc ⟨false, false, 0⟩, List.length_replicate, fits_replicate⟩

theorem fits_updateFirst (s : CacheSet g i) {p : CacheEntry → Bool} {f : CacheEntry → CacheEntry}
    (hf : ∀ e, g.Fits i e → p e = true → g.Fits i (f e)) : ∀ e ∈ updateFirst p f s.ways, g.Fits i e := by
  intro e he
  obtain hmem | ⟨a, hmem, ha, rfl⟩ := mem_updateFirst he
  · exact s.fits e hmem
  · exact hf a (s.fits a hmem) ha

def update (s : CacheSet g i) (p : CacheEntry → Bool) (f : CacheEntry → CacheEntry)
    (hf : ∀ e, g.Fits i e → p e = true → g.Fits i (f e)) : CacheSet g i :=
  ⟨updateFirst p f s.ways, length_updateFirst.trans s.length_eq, s.fits_updateFirst hf⟩

end CacheSet

structure CacheBank where
  sets : ∀ i, CacheSet g i

namespace CacheBank

variable {g : CacheGeometry}

def new : CacheBank g := ⟨fun _ => .empty⟩

section

variable (b : CacheBank g) (addr : Nat)

def findSet : CacheSet g (g.setID addr) := b.sets (g.setID addr)

def setSet (s : CacheSet g (g.setID addr)) : CacheBank g :=
  ⟨update b.sets (g.setID addr) s⟩

def present : Bool := (b.findSet addr).ways.any (g.holds addr)

end

theorem fits_setDirty {addr i : Nat} (e : CacheEntry) (h : g.Fits i e) (hp : g.holds addr e = true) :
    g.Fits i { e with dirty := true } := ⟨fun _ => (Bool.and_eq_true_iff.mp hp).2, h.home⟩

/-- `Present` with `set_dirty`, after which the entry that was found is dirty. -/
def setDirty (b : CacheBank g) (addr : Nat) : CacheBank g :=
  b.setSet addr ((b.findSet addr).update (g.holds addr) (fun e => { e with dirty := true }) fits_setDirty)

def setFull (b : CacheBank g) (addr : Nat) : Bool := (b.findSet addr).ways.all fun e => e.valid || e.dirty

theorem fits_install (addr : Nat) (e : CacheEntry) (_ : g.Fits (g.setID addr) e) (_ : (!e.valid) = true) :
    g.Fits (g.setID addr) { e with valid := true, address := addr } := ⟨fun _ => rfl, fun _ => rfl⟩

/-- `Install`: the first way that is not valid is taken, if there is one. -/
def install (b : CacheBank g) (addr : Nat) : CacheBank g :=
  b.setSet addr ((b.findSet addr).update (fun e => !e.valid) (fun e => { e with valid := true, address := addr })
    (fits_install addr))

/-- `ChooseVictim`: whether the victim is dirty, and its address. -/
def chooseVictim (b : CacheBank g) (addr : Nat) : Option (Bool × Nat) :=
  (assertThat (b.setFull addr = true)).bind fun _ =>
  (b.findSet addr).ways[g.numAssoc - 1]?.bind fun e =>
  (assertThat (e.valid = true)).map fun _ => (e.dirty, e.address)

theorem fits_evict {addr i : Nat} (e : CacheEntry) (_ : g.Fits i e) (_ : g.holds addr e = true) :
    g.Fits i { e with valid := false, dirty := false } := ⟨nofun, nofun⟩

def evict (b : CacheBank g) (addr : Nat) : Option (CacheBank g) :=
  (assertThat (b.present addr = true)).map fun _ =>
    b.setSet addr ((b.findSet addr).update (g.holds addr) (fun e => { e with valid := false, dirty := false })
      fits_evict)

/-! ### Tags -/

def tags (b : CacheBank g) (i : Nat) : List Nat := (b.sets i).ways.filterMap g.tagOf

def TagsUnique (b : CacheBank g) : Prop := ∀ i, (b.tags i).Nodup

variable {b : CacheBank g} {addr i : Nat}

theorem present_iff : b.present addr = true ↔ g.getTag addr ∈ b.tags (g.setID addr) := by
  rw [present, List.any_eq_true, tags, List.mem_filterMap]
  exact exists_congr fun e => and_congr_right' CacheGeometry.tagOf_eq_some.symm

theorem valid_of_full (h : b.setFull addr = true) {e : CacheEntry} (he : e ∈ (b.findSet addr).ways) :
    e.valid = true := by
  rcases Bool.or_eq_true_iff.mp (List.all_eq_true.mp h e he) with hv | hd
  · exact hv
  · exact ((b.findSet addr).fits e he).dirty hd

theorem sets_setSet_of_ne {s : CacheSet g (g.setID addr)} (h : i ≠ g.setID addr) :
    (b.setSet addr s).sets i = b.sets i := by
  unfold setSet
  dsimp only
  rw [update_of_ne h]

theorem sets_setSet (s : CacheSet g (g.setID addr)) : (b.setSet addr s).sets (g.setID addr) = s := by
  unfold setSet
  dsimp only
  rw [update_self]

theorem tags_setSet_of_ne {s : CacheSet g (g.setID addr)} (h : i ≠ g.setID addr) :
    (b.setSet addr s).tags i = b.tags i := by
  rw [tags, sets_setSet_of_ne h, tags]

theorem tags_setSet (s : CacheSet g (g.setID addr)) :
    (b.setSet addr s).tags (g.setID addr) = s.ways.filterMap g.tagOf := by
  rw [tags, sets_setSet]

theorem tags_new (i : Nat) : (new : CacheBank g).tags i = [] := by
  apply List.filterMap_eq_nil_iff.mpr
  intro e he
  rw [List.eq_of_mem_replicate he]
  rfl

variable {b' : CacheBank g}

@[simp] theorem tags_setDirty (b : CacheBank g) (addr i : Nat) : (b.setDirty addr).tags i = b.tags i := by
  by_cases hi : i = g.setID addr
  · rw [hi, setDirty, tags_setSet]
    exact filterMap_updateFirst fun _ _ => rfl
  · exact tags_setSet_of_ne hi

theorem evict_tags (h : b.evict addr = some b') (i : Nat) : (b'.tags i).Sublist (b.tags i) := by
  obtain ⟨-, rfl⟩ := assertThat_map_eq_some.mp h
  by_cases hi : i = g.setID addr
  · rw [hi, tags_setSet]
    exact filterMap_updateFirst_sublist fun _ _ => rfl
  · rw [tags_setSet_of_ne hi]

theorem tags_install_of_ne (h : i ≠ g.setID addr) : (b.install addr).tags i = b.tags i := tags_setSet_of_ne h

theorem tags_install (h : b.setFull addr = false) :
    ((b.install addr).tags (g.setID addr)).Perm (g.getTag addr :: b.tags (g.setID addr)) := by
  obtain ⟨e, he, hfree⟩ := List.all_eq_false.mp h
  have hvalid : e.valid = false := by
    cases hv : e.valid with
    | false => rfl
    | true => exact absurd (by rw [hv, Bool.true_or]) hfree
  rw [install, tags_setSet]
  refine filterMap_updateFirst_perm ⟨e, he, by rw [hvalid]; rfl⟩ fun a ha => ⟨?_, rfl⟩
  exact CacheGeometry.tagOf_eq_none.mpr (Bool.not_eq_true' _ ▸ ha)

theorem tags_install_of_full (h : b.setFull addr = true) (i : Nat) : (b.install addr).tags i = b.tags i := by
  by_cases hi : i = g.setID addr
  · have hvalid : ∀ e ∈ (b.findSet addr).ways, (!e.valid) = false := by
      intro e he
      rw [valid_of_full h he]
      rfl
    rw [hi, install, tags_setSet]
    exact congrArg (List.filterMap g.tagOf) (updateFirst_of_forall hvalid)
  · exact tags_install_of_ne hi

/-- A line is installed once and is then present exactly if it was not present and its set was not
full, or it was present and its set was full. -/
theorem install_correct_iff (h : b.TagsUnique) :
    (b.install addr).TagsUnique ∧ (b.install addr).present addr = true ↔ b.setFull addr = b.present addr := by
  cases hfull : b.setFull addr with
  | true =>
    have hunique : (b.install addr).TagsUnique := fun i => (tags_install_of_full hfull i).symm ▸ h i
    have hpresent : (b.install addr).present addr = true ↔ b.present addr = true := by
      rw [present_iff, present_iff, tags_install_of_full hfull]
    rw [and_iff_right hunique, hpresent, eq_comm]
  | false =>
    have hperm := tags_install hfull
    have hpresent : (b.install addr).present addr = true :=
      present_iff.mpr (hperm.mem_iff.mpr mem_cons_self)
    rw [and_iff_left hpresent, eq_comm, eq_false_iff, ne_eq, present_iff]
    constructor
    · intro hunique
      exact (nodup_cons.mp (hperm.nodup_iff.mp (hunique (g.setID addr)))).1
    · intro hnew i
      by_cases hi : i = g.setID addr
      · rw [hi, hperm.nodup_iff]
        exact nodup_cons.mpr ⟨hnew, h _⟩
      · rw [tags_install_of_ne hi]
        exact h i

theorem chooseVictim_spec (h : b.setFull addr = true) :
    ∃ dirty victim, b.chooseVictim addr = some (dirty, victim) ∧ g.setID victim = g.setID addr ∧
      b.present victim = true := by
  have hlt : g.numAssoc - 1 < (b.findSet addr).ways.length := by
    rw [(b.findSet addr).length_eq]
    have := g.numAssoc_pos
    omega
  have hmem := List.getElem_mem hlt
  have hget := List.getElem?_eq_getElem hlt
  generalize (b.findSet addr).ways[g.numAssoc - 1] = e at hmem hget
  have hvalid := valid_of_full h hmem
  have hhome := ((b.findSet addr).fits e hmem).home hvalid
  refine ⟨e.dirty, e.address, ?_, hhome, ?_⟩
  · refine assertThat_bind_eq_some.mpr ⟨h, bind_eq_some_iff.mpr ⟨e, hget, ?_⟩⟩
    exact assertThat_map_eq_some.mpr ⟨hvalid, rfl⟩
  · rw [present_iff, hhome, tags, List.mem_filterMap]
    refine ⟨e, hmem, CacheGeometry.tagOf_eq_some.mpr ?_⟩
    rw [CacheGeometry.holds, hvalid, beq_self_eq_true]
    rfl

/-! ### Lines -/

/-- The addresses belong to one line, as far as sets and tags can tell. -/
def SameLine (g : CacheGeometry) (a a' : Nat) : Prop := g.setID a = g.setID a' ∧ g.getTag a = g.getTag a'
  deriving Decidable

variable {a a' : Nat}

/-- Set and tag make up the number of the line, if the size of a line is an `int`. -/
theorem sameLine_iff (hint : g.cachelineSize < 2^31) :
    SameLine g a a' ↔ a >>> log2 g.cachelineSize = a' >>> log2 g.cachelineSize := by
  have hline : mlog2 (Int.bmod g.cachelineSize (2^32)).toNat = log2 g.cachelineSize := by
    have hbmod : Int.bmod g.cachelineSize (2^32) = g.cachelineSize := Int.bmod_eq_of_le (by omega) (by omega)
    rw [hbmod, mlog2]
    split
    · next hsmall => exact (lt_one_iff.mp ((Nat.log2_lt g.cachelineSize_pos.ne').mpr hsmall)).symm
    · rfl
  have hlog : 2^log2 g.numSets ≤ g.numSets := Nat.log2_self_le g.numSets_pos.ne'
  unfold SameLine CacheGeometry.setID CacheGeometry.getTag CacheGeometry.tagOff
  rw [hline, Nat.shiftRight_add, Nat.shiftRight_add]
  generalize a >>> log2 g.cachelineSize = x, a' >>> log2 g.cachelineSize = y
  refine ⟨fun ⟨hset, htag⟩ => ?_, fun h => h ▸ ⟨rfl, rfl⟩⟩
  -- lines with one tag are less than the number of sets apart
  rw [shiftRight_eq_div_pow, shiftRight_eq_div_pow] at htag
  have hx := Nat.div_add_mod x (2^log2 g.numSets)
  have hy := Nat.div_add_mod y (2^log2 g.numSets)
  rw [htag] at hx
  have hmod : x % 2^log2 g.numSets ≡ y % 2^log2 g.numSets [MOD g.numSets] := by
    refine Nat.ModEq.add_left_cancel' (2^log2 g.numSets * (y / 2^log2 g.numSets)) ?_
    rw [hx, hy]
    exact hset
  have hlow := Nat.ModEq.eq_of_lt_of_lt hmod ((mod_lt x (Nat.two_pow_pos _)).trans_le hlog)
    ((mod_lt y (Nat.two_pow_pos _)).trans_le hlog)
  calc x = 2^log2 g.numSets * (y / 2^log2 g.numSets) + x % 2^log2 g.numSets := hx.symm
    _ = y := by rw [hlow, hy]

variable {k : Nat}

section

variable (hline : g.cachelineSize = 2^k)
include hline

theorem shiftRight_log2_eq_line (a : Nat) : a >>> log2 g.cachelineSize = g.line a := by
  rw [CacheGeometry.line, hline, Nat.log2_two_pow, shiftRight_eq_div_pow]

theorem sameLine_iff_line (h : g.cachelineSize < 2^31 ∨ g.numSets = 1) : SameLine g a a' ↔ g.line a = g.line a' := by
  rw [← shiftRight_log2_eq_line hline, ← shiftRight_log2_eq_line hline]
  rcases h with hint | hone
  · exact sameLine_iff hint
  · rw [SameLine, CacheGeometry.setID, CacheGeometry.setID, CacheGeometry.getTag, CacheGeometry.getTag,
      CacheGeometry.tagOff, hone, Nat.mod_one, Nat.mod_one, and_iff_right rfl]
    rfl

/-- An `int` has no room for the size, so that sets are told apart by the lowest bits of an
address. -/
theorem setID_of_large (hk : 31 ≤ k) (a : Nat) : g.setID a = a % g.numSets := by
  have hneg : Int.bmod g.cachelineSize (2^32) ≤ 0 := by
    rw [hline]
    rcases hk.eq_or_lt with rfl | hlt
    · decide
    · obtain ⟨j, rfl⟩ := Nat.exists_eq_add_of_le (show 32 ≤ k from hlt)
      rw [Nat.pow_add, Int.bmod_def]
      simp
  rw [CacheGeometry.setID, Int.toNat_of_nonpos hneg]
  rfl

end

/-- Among the addresses of a set the tags tell lines apart, and an address is present only if its
own line is in the set. -/
def TagsIdentify (g : CacheGeometry) : Prop :=
  (∀ a a', g.setID a = g.setID a' →
    (g.getTag a = g.getTag a' ↔ g.line a = g.line a')) ∧
  ∀ (b : CacheBank g) a, b.present a = true →
    ∃ e ∈ (b.findSet a).ways, e.valid = true ∧ g.line e.address = g.line a

theorem tagsIdentify_of_tags (h : ∀ a a', g.setID a = g.setID a' →
    (g.getTag a = g.getTag a' ↔ g.line a = g.line a')) : TagsIdentify g := by
  refine ⟨h, fun b a hp => ?_⟩
  obtain ⟨e, he, hholds⟩ := List.any_eq_true.mp hp
  obtain ⟨htag, hvalid⟩ := Bool.and_eq_true_iff.mp hholds
  have hhome := ((b.findSet a).fits e he).home hvalid
  exact ⟨e, he, hvalid, (h _ _ hhome).mp (beq_iff_eq.mp htag)⟩

/-- For a size that is no `int`, half a line for each set is a multiple of the number of sets that
has the tag of zero. -/
theorem not_tagsIdentify (hline : g.cachelineSize = 2^(k + 1)) (hk : 30 ≤ k) (hsets : 1 < g.numSets) :
    ¬ TagsIdentify g := by
  intro h
  have hset : g.setID 0 = g.setID (2^k * g.numSets) := by
    rw [setID_of_large hline (by omega), setID_of_large hline (by omega), Nat.zero_mod, Nat.mul_mod_left]
  have hlog : g.numSets < 2^(log2 g.numSets + 1) := Nat.lt_log2_self
  have htag : g.getTag 0 = g.getTag (2^k * g.numSets) := by
    rw [CacheGeometry.getTag, CacheGeometry.getTag, CacheGeometry.tagOff, hline, Nat.log2_two_pow,
      shiftRight_eq_div_pow, shiftRight_eq_div_pow, Nat.zero_div]
    refine (Nat.div_eq_of_lt ?_).symm
    calc 2^k * g.numSets < 2^k * 2^(log2 g.numSets + 1) := Nat.mul_lt_mul_of_pos_left hlog (Nat.two_pow_pos k)
      _ = 2^(k + 1 + log2 g.numSets) := by ring
  have hlines := (h.1 _ _ hset).mp htag
  rw [CacheGeometry.line, CacheGeometry.line, hline, Nat.zero_div, Nat.pow_succ,
    Nat.mul_div_mul_left _ _ (Nat.two_pow_pos k)] at hlines
  omega

/-- Lines are told apart exactly if the size of a line is an `int` or there is one set only. -/
theorem tagsIdentify_iff (g : CacheGeometry) (k : Nat) (hline : g.cachelineSize = 2^k) :
    TagsIdentify g ↔ g.cachelineSize < 2^31 ∨ g.numSets = 1 := by
  constructor
  · intro h
    by_contra hnot
    obtain ⟨hlarge, hsets⟩ := not_or.mp hnot
    have hk : 31 ≤ k := (Nat.pow_le_pow_iff_right Nat.one_lt_two).mp (hline ▸ Nat.not_lt.mp hlarge)
    have hpos := g.numSets_pos
    exact not_tagsIdentify (k := k - 1) (by rw [hline]; congr 1; omega) (by omega) (by omega) h
  · intro h
    refine tagsIdentify_of_tags fun a a' hset => ?_
    rw [← sameLine_iff_line hline h, SameLine, and_iff_right hset]

def directMapped (numSets cachelineSize : Nat) (hs : 0 < numSets) (hl : 0 < cachelineSize) : CacheGeometry :=
  ⟨numSets, 1, cachelineSize, hs, Nat.one_pos, hl⟩

/-- Three sets of lines of 64 bytes. -/
theorem tagsIdentify_three_sets : TagsIdentify (directMapped 3 64 (by decide) (by decide)) :=
  (tagsIdentify_iff (directMapped 3 64 (by decide) (by decide)) 6 rfl).mpr (.inl (by decide))

/-- Two sets of lines of 2 GiB: the first two lines have one set and one tag. -/
theorem tags_confuse_large_lines :
    let g := directMapped 2 (2^31) (by decide) (by decide)
    g.setID 0 = g.setID (2^31) ∧ g.getTag 0 = g.getTag (2^31) ∧ g.line 0 ≠ g.line (2^31) := by
  decide

theorem present_of_tags (h : ∀ i, b'.tags i = b.tags i) (a : Nat) : b'.present a = b.present a := by
  rw [Bool.eq_iff_iff, present_iff, present_iff, h]

theorem present_congr (h : b'.sets (g.setID addr) = b.sets (g.setID addr)) : b'.present addr = b.present addr := by
  unfold present findSet
  rw [h]

theorem evict_sets_of_ne (h : b.evict addr = some b') (hi : i ≠ g.setID addr) : b'.sets i = b.sets i := by
  obtain ⟨-, rfl⟩ := assertThat_map_eq_some.mp h
  exact sets_setSet_of_ne hi

variable {victim : Nat}

theorem evict_present (h : b.evict victim = some b') (hp : b.present addr = true) :
    b'.present addr = true ∨ SameLine g victim addr := by
  by_cases hset : g.setID addr = g.setID victim
  · obtain ⟨-, rfl⟩ := assertThat_map_eq_some.mp h
    obtain ⟨e, he, hholds⟩ := List.any_eq_true.mp hp
    cases hv : g.holds victim e with
    | true =>
      have htag : ∀ {a}, g.holds a e = true → g.getTag e.address = g.getTag a :=
        fun ha => beq_iff_eq.mp (Bool.and_eq_true_iff.mp ha).1
      exact .inr ⟨hset.symm, (htag hv).symm.trans (htag hholds)⟩
    | false =>
      refine .inl (List.any_eq_true.mpr ⟨e, ?_, hholds⟩)
      unfold findSet at he ⊢
      rw [hset] at he ⊢
      rw [sets_setSet]
      exact mem_updateFirst_of_mem he hv
  · rw [present_congr (evict_sets_of_ne h hset)]
    exact .inl hp

theorem install_present (b : CacheBank g) (addr : Nat) (h : b.present a = true) :
    (b.install addr).present a = true := by
  rw [present_iff] at h ⊢
  cases hfull : b.setFull addr with
  | true => rwa [tags_install_of_full hfull]
  | false =>
    by_cases hset : g.setID a = g.setID addr
    · rw [hset] at h ⊢
      exact (tags_install hfull).mem_iff.mpr (mem_cons_of_mem _ h)
    · rwa [tags_install_of_ne hset]

theorem install_present_self (b : CacheBank g) (addr : Nat) :
    (b.install addr).present addr = true ↔ (b.setFull addr = true → b.present addr = true) := by
  cases hfull : b.setFull addr with
  | true => rw [forall_prop_of_true rfl, present_iff, present_iff, tags_install_of_full hfull]
  | false =>
    refine iff_of_true ?_ nofun
    exact present_iff.mpr ((tags_install hfull).mem_iff.mpr mem_cons_self)

/-! ### Room in a set -/

theorem setFull_congr (h : b'.sets (g.setID addr) = b.sets (g.setID addr)) : b'.setFull addr = b.setFull addr := by
  unfold setFull findSet
  rw [h]

theorem setFull_setDirty (b : CacheBank g) (addr a : Nat) : (b.setDirty addr).setFull a = b.setFull a := by
  by_cases ha : g.setID a = g.setID addr
  · unfold setFull findSet
    rw [ha, setDirty, sets_setSet]
    refine all_updateFirst fun e he => ?_
    rw [(Bool.and_eq_true_iff.mp he).2, Bool.true_or, Bool.true_or]
  · exact setFull_congr (sets_setSet_of_ne ha)

theorem evict_setFull (h : b.evict victim = some b')
    (hset : g.setID victim = g.setID addr) : b'.setFull addr = false := by
  obtain ⟨hpresent, rfl⟩ := assertThat_map_eq_some.mp h
  obtain ⟨l1, e, l2, -, -, hways⟩ := updateFirst_of_exists (List.any_eq_true.mp hpresent)
    fun e => { e with valid := false, dirty := false }
  unfold setFull findSet
  rw [← hset, sets_setSet]
  refine List.all_eq_false.mpr ⟨{ e with valid := false, dirty := false }, ?_, Bool.false_ne_true⟩
  refine (congrArg (_ ∈ ·) hways).mpr ?_
  exact mem_append_right l1 mem_cons_self

end CacheBank

end Shma.Nvmain
