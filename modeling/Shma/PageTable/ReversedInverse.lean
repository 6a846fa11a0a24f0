import Shma.PageTable.FiniteMap
import Shma.PageTable.ReversedMap

/-!
# The inverse table over sequences of calls

The inverse table records an entry when a page gets its first target, under the low 32 bits of
the target's page number, and never forgets or moves it.
-/
namespace Shma.PageTable.ReversedPaging

open Lib Lib.Run PageTables
open FiniteMap (after)
open LongModePaging (inv_new slotOf_eq_iff translate_new)

inductive InverseOp where
  | call (op : PagingOp)
  | access (f : Frames) (req : MemReq)

def step (z : Zinfo) (p : ReversedPaging) : InverseOp → Option ReversedPaging
  | .call (.map a t) => (p.mapPageTable z a t t.isBlock).map (·.1)
  | .call (.unmap a) => (p.unmapPageTable a).map (·.1)
  | .access f req =>
    (p.access z f req).map fun w => { p with paging := { p.paging with tables := w.tables } }

variable (ops : List InverseOp)

def calls : List PagingOp :=
  ops.filterMap fun
    | .call op => some op
    | .access _ _ => none

theorem calls_call (op : PagingOp) : calls (ops ++ [.call op]) = calls ops ++ [op] := by
  simp [calls]

theorem calls_access (f : Frames) (req : MemReq) :
    calls (ops ++ [.access f req]) = calls ops := by
  simp [calls]

/-- For the physical pages below `pages`: the inverse table leads from `ppn` to the
entry of a virtual page exactly if that page is mapped to `ppn`. -/
def Consistent (z : Zinfo) (pages : Nat) (p : ReversedPaging) : Prop :=
  ∀ ppn < pages, ∀ a < 2^48, (∃ c, p.reversedPgt (key ppn) = some c ∧ p.PointsTo c a) ↔
    (p.paging.translate a).map (Target.ppn z) = some ppn

/-- What the callers see to: 48-bit addresses, physical pages of the machine, and
distinct ones for distinct pages. -/
def Issued (z : Zinfo) (pages : Nat) (mode : PagingStyle) (hist : List PagingOp) : PagingOp → Prop
  | .map a t => a < 2^48 ∧ t.ppn z < pages ∧ ∀ v, v ≠ a >>> mode.pageShift →
      ((after mode.pageShift hist).contents v).map (Target.ppn z) ≠ some (t.ppn z)
  | .unmap a => a < 2^48

def OwnKey (pages : Nat) (ppn : Address) : Prop := ∀ q < pages, key q = key ppn → q = ppn

/-- The call leaves the record right: it maps a page that has no target under a key of its
own, repeats a mapping, or unmaps nothing. -/
def Keeps (z : Zinfo) (pages : Nat) (mode : PagingStyle) (hist : List PagingOp) : PagingOp → Prop
  | .map a t =>
    (after mode.pageShift hist).contents (a >>> mode.pageShift) = none ∧ OwnKey pages (t.ppn z) ∨
      ((after mode.pageShift hist).contents (a >>> mode.pageShift)).map (Target.ppn z) = some (t.ppn z)
  | .unmap a => (after mode.pageShift hist).contents (a >>> mode.pageShift) = none

variable {p p' : ReversedPaging}

/-! ## The calls -/

theorem unmapPageTable_cases (hi : p.paging.Inv) {addr : Address} {done : Bool}
    (h : p.unmapPageTable addr = some (p', done)) :
    p'.paging.Inv ∧ p'.paging.mode = p.paging.mode ∧ p'.reversedPgt = p.reversedPgt ∧
      (∀ b, p'.paging.translate b =
        if slotOf b p.paging.mode = slotOf addr p.paging.mode then none else p.paging.translate b) ∧
      ∀ q, p'.paging.tables.descend q = p.paging.tables.descend q := by
  obtain ⟨⟨paging, done'⟩, hu, he⟩ := map_eq_some_iff.mp h
  cases he
  have hroot : p.paging.mode ≠ .longModeHuge →
      (p.paging.tables.descend [getBitValue addr 39 47]).isSome := by
    intro hm
    by_contra hno
    rw [LongModePaging.unmapPageTable_eq hi, if_pos ⟨hm, not_isSome_iff_eq_none.mp hno⟩] at hu
    cases hu
  obtain ⟨paging', hu', hinv, hmode, htr, hd⟩ := LongModePaging.unmapPageTable_spec hi addr hroot
  obtain rfl : paging' = paging := congrArg Prod.fst (mem_unique hu' hu)
  exact ⟨hinv, hmode, rfl, htr, hd⟩

theorem access_cases (hi : p.paging.Inv) {z : Zinfo} {f : Frames} {req : MemReq}
    (h : p.step z (.access f req) = some p') :
    p'.paging.Inv ∧ p'.paging.mode = p.paging.mode ∧ p'.reversedPgt = p.reversedPgt ∧
      (∀ b, p'.paging.translate b = p.paging.translate b) ∧
      ∀ q, p'.paging.tables.descend q = p.paging.tables.descend q := by
  obtain ⟨w, hw, rfl⟩ := map_eq_some_iff.mp h
  obtain ⟨hinv, htr, hd⟩ := access_keeps hi hw
  exact ⟨hinv, rfl, rfl, htr, hd⟩

/-! ## The simulation -/

structure Sim (z : Zinfo) (pages : Nat) (mode : PagingStyle) (hist : List PagingOp) (p : ReversedPaging) :
    Prop where
  inv : p.paging.Inv
  mode_eq : p.paging.mode = mode
  contents : ∀ a < 2^48, p.paging.translate a =
    (after mode.pageShift hist).contents (a >>> mode.pageShift)
  recorded : ∀ a < 2^48, ∀ tg, p.paging.translate a = some tg →
    ∃ c, p.reversedPgt (key (tg.ppn z)) = some c ∧ p.PointsTo c a
  keys : ∀ k c, p.reversedPgt k = some c →
    ∃ a < 2^48, ∃ tg, p.paging.translate a = some tg ∧ key (tg.ppn z) = k ∧ p.PointsTo c a
  own : ∀ a tg, p.paging.translate a = some tg → tg.ppn z < pages ∧ OwnKey pages (tg.ppn z)

variable {z : Zinfo} {pages : Nat} {mode : PagingStyle} {hist : List PagingOp}

theorem sim_new (z : Zinfo) (pages : Nat) (hm : isLongMode mode) : Sim z pages mode [] (new mode) where
  inv := inv_new hm
  mode_eq := rfl
  contents a _ := translate_new mode a
  recorded a _ tg h := by
    rw [show (new mode).paging.translate a = none from translate_new mode a] at h
    cases h
  keys _ _ h := by cases h
  own a tg h := by
    rw [show (new mode).paging.translate a = none from translate_new mode a] at h
    cases h

section

variable (h : Sim z pages mode hist p)
include h

theorem Sim.consistent : p.Consistent z pages := by
  intro ppn hppn a ha
  constructor
  · intro hc
    obtain ⟨c, hc, hpt⟩ := hc
    obtain ⟨b, hb, tg, htg, hkey, hpt'⟩ := h.keys _ c hc
    have hleaf := hpt.slotOf_eq h.inv hpt'
    rw [h.mode_eq, slotOf_eq_iff (h.mode_eq ▸ h.inv.mode) ha hb] at hleaf
    have hsame : p.paging.translate a = some tg := by
      rw [h.contents a ha, hleaf, ← h.contents b hb, htg]
    rw [hsame, map_some, (h.own b tg htg).2 ppn hppn hkey.symm]
  · intro ht
    obtain ⟨tg, htg, rfl⟩ := map_eq_some_iff.mp ht
    exact h.recorded a ha tg htg

theorem Sim.of_same (hinv : p'.paging.Inv) (hmode : p'.paging.mode = p.paging.mode)
    (hrev : p'.reversedPgt = p.reversedPgt) (htr : ∀ b, p'.paging.translate b = p.paging.translate b)
    (hd : ∀ q, p'.paging.tables.descend q = p.paging.tables.descend q) : Sim z pages mode hist p' where
  inv := hinv
  mode_eq := hmode.trans h.mode_eq
  contents a ha := (htr a).trans (h.contents a ha)
  recorded a ha tg htg := by
    obtain ⟨c, hc, hpt⟩ := h.recorded a ha tg ((htr a).symm.trans htg)
    exact ⟨c, by rw [hrev]; exact hc, hpt.mono hmode fun q t hq => (hd q).trans hq⟩
  keys k c hk := by
    rw [hrev] at hk
    obtain ⟨a, ha, tg, htg, hkey, hpt⟩ := h.keys k c hk
    exact ⟨a, ha, tg, (htr a).trans htg, hkey, hpt.mono hmode fun q t hq => (hd q).trans hq⟩
  own a tg htg := h.own a tg ((htr a).symm.trans htg)

variable {a b : Address} {tg tg' : Target}

/-- A page whose target has the page number of another call's target is that call's. -/
theorem Sim.not_other (hb : b < 2^48)
    (hissued : Issued z pages mode hist (.map a tg)) (htg : p.paging.translate b = some tg')
    (hppn : tg'.ppn z = tg.ppn z) : b >>> mode.pageShift = a >>> mode.pageShift := by
  by_contra hne
  apply hissued.2.2 _ hne
  rw [← h.contents b hb, htg, map_some, hppn]

theorem Sim.ppn_of_keeps (hkeeps : Keeps z pages mode hist (.map a tg)) (hb : b < 2^48)
    (hpage : b >>> mode.pageShift = a >>> mode.pageShift) (htg : p.paging.translate b = some tg') :
    tg'.ppn z = tg.ppn z := by
  rcases hkeeps with ⟨hnone, -⟩ | hagain
  · rw [← hpage, ← h.contents b hb, htg] at hnone
    cases hnone
  · rw [← hpage, ← h.contents b hb, htg] at hagain
    exact some_inj.mp hagain

theorem Sim.ownKey_of_keeps (ha : a < 2^48)
    (hkeeps : Keeps z pages mode hist (.map a tg)) : OwnKey pages (tg.ppn z) := by
  rcases hkeeps with hnew | hagain
  · exact hnew.2
  · rw [← h.contents a ha] at hagain
    obtain ⟨tg', htg', hppn⟩ := map_eq_some_iff.mp hagain
    rw [← hppn]
    exact (h.own a tg' htg').2

omit h in
theorem sim_map (hz : z.blockShift = z.pageShift) (h : Sim z pages mode hist p)
    (hissued : Issued z pages mode hist (.map a tg)) (hkeeps : Keeps z pages mode hist (.map a tg))
    (hr : p.step z (.call (.map a tg)) = some p') : Sim z pages mode (hist ++ [.map a tg]) p' := by
  obtain ⟨⟨p1, latency⟩, hmap, rfl⟩ := map_eq_some_iff.mp hr
  obtain ⟨hinv, hmode, htr, hd, hcases⟩ := mapPageTable_cases (mappedPpn_eq hz tg) h.inv hmap
  have ha := hissued.1
  have hpage : ∀ b < 2^48, (slotOf b p.paging.mode = slotOf a p.paging.mode ↔
      b >>> mode.pageShift = a >>> mode.pageShift) := by
    intro b hb
    rw [h.mode_eq]
    exact slotOf_eq_iff (h.mode_eq ▸ h.inv.mode) hb ha
  have hown := h.ownKey_of_keeps ha hkeeps
  -- the record after the call: for the page just mapped, and for the others as before
  have hrecord : ∃ c, p1.reversedPgt (key (tg.ppn z)) = some c ∧ p1.PointsTo c a := by
    rcases hcases with ⟨hsome, hrev⟩ | ⟨hnone, -, c, hpt, hrev⟩
    · obtain ⟨tg', htg'⟩ := isSome_iff_exists.mp hsome
      have hppn := h.ppn_of_keeps hkeeps ha rfl htg'
      obtain ⟨c, hc, hpt⟩ := h.recorded a ha tg' htg'
      exact ⟨c, by rw [hrev, ← hppn]; exact hc, hpt.mono hmode hd⟩
    · exact ⟨c, by rw [hrev, update_self], hpt⟩
  have hother : ∀ k, k ≠ key (tg.ppn z) → p1.reversedPgt k = p.reversedPgt k := by
    intro k hk
    rcases hcases with ⟨-, hrev⟩ | ⟨-, -, c, -, hrev⟩
    · rw [hrev]
    · rw [hrev, update_of_ne hk]
  obtain ⟨c, hc, hpt⟩ := hrecord
  refine ⟨hinv, hmode.trans h.mode_eq, fun b hb => ?_, fun b hb tg' htg' => ?_, fun k c' hk => ?_,
    fun b tg' htg' => ?_⟩
  · rw [htr, h.contents b hb, FiniteMap.after_concat]
    simp only [hpage b hb, FiniteMap.step, update_apply]
  · rw [htr] at htg'
    split at htg'
    · next hslot =>
      cases htg'
      obtain ⟨hdirs, hoff⟩ := Prod.mk.inj hslot
      refine ⟨c, hc, ?_, ?_⟩
      · rw [hmode, hdirs, ← hmode]
        exact hpt.1
      · rw [hmode, hoff, ← hmode]
        exact hpt.2
    · next hslot =>
      obtain ⟨c', hc', hpt'⟩ := h.recorded b hb tg' htg'
      have hk : key (tg'.ppn z) ≠ key (tg.ppn z) := by
        intro hk
        have hppn := hown (tg'.ppn z) (h.own b tg' htg').1 hk
        exact hslot ((hpage b hb).mpr (h.not_other hb hissued htg' hppn))
      exact ⟨c', by rw [hother _ hk]; exact hc', hpt'.mono hmode hd⟩
  · by_cases hkk : k = key (tg.ppn z)
    · rw [hkk, hc] at hk
      cases hk
      exact ⟨a, ha, tg, by rw [htr, if_pos rfl], hkk.symm, hpt⟩
    · rw [hother k hkk] at hk
      obtain ⟨b, hb, tg', htg', hkey, hpt'⟩ := h.keys k c' hk
      refine ⟨b, hb, tg', ?_, hkey, hpt'.mono hmode hd⟩
      rw [htr, if_neg]
      · exact htg'
      · intro hslot
        -- the page just mapped had a target with the same key
        have hppn := h.ppn_of_keeps hkeeps hb ((hpage b hb).mp hslot) htg'
        exact hkk (by rw [← hkey, hppn])
  · rw [htr] at htg'
    split at htg'
    · cases htg'
      exact ⟨hissued.2.1, hown⟩
    · exact h.own b tg' htg'

theorem sim_unmap (ha : a < 2^48)
    (hkeeps : Keeps z pages mode hist (.unmap a)) (hr : p.step z (.call (.unmap a)) = some p') :
    Sim z pages mode (hist ++ [.unmap a]) p' := by
  obtain ⟨⟨p1, done⟩, hu, rfl⟩ := map_eq_some_iff.mp hr
  obtain ⟨hinv, hmode, hrev, htr, hd⟩ := unmapPageTable_cases h.inv hu
  have hnone : (after mode.pageShift hist).contents (a >>> mode.pageShift) = none := hkeeps
  have hsame : ∀ b, p1.paging.translate b = p.paging.translate b := by
    intro b
    rw [htr]
    split
    · next hslot =>
      have hleaf : p.paging.translate b = p.paging.translate a := by
        obtain ⟨hdirs, hoff⟩ := Prod.mk.inj hslot
        rw [LongModePaging.translate, LongModePaging.translate, hdirs, hoff]
      rw [hleaf, h.contents a ha, hnone]
    · rfl
  have hmap : after mode.pageShift (hist ++ [.unmap a]) = after mode.pageShift hist := by
    rw [FiniteMap.after_concat, FiniteMap.step, ← hnone, update_eq_self]
  have hsim := h.of_same hinv hmode hrev hsame hd
  exact { hsim with contents := fun b hb => by rw [hmap]; exact hsim.contents b hb }

end

/-- The premises of the calls of a sequence, each with the calls before it. -/
def AllCalls (may : List PagingOp → PagingOp → Prop) (ops : List InverseOp) : Prop :=
  ∀ pre op post, ops = pre ++ .call op :: post → may (calls pre) op

theorem run_sim (hz : z.blockShift = z.pageShift) (hm : isLongMode mode) {ops : List InverseOp}
    (hissued : AllCalls (Issued z pages mode) ops) (hkeeps : AllCalls (Keeps z pages mode) ops)
    (hr : run (step z) (new mode) ops = some p) : Sim z pages mode (calls ops) p := by
  let may := fun (hist : List InverseOp) (a : InverseOp) => ∀ op, a = .call op →
    Issued z pages mode (calls hist) op ∧ Keeps z pages mode (calls hist) op
  have hstep : ∀ hist p a, Sim z pages mode (calls hist) p → (step z p a).isSome → may hist a →
      ∃ p', step z p a = some p' ∧ Sim z pages mode (calls (hist ++ [a])) p' := by
    intro hist p a h hsome hmay
    obtain ⟨p', hp'⟩ := isSome_iff_exists.mp hsome
    refine ⟨p', hp', ?_⟩
    cases a with
    | access f req =>
      obtain ⟨hinv, hmode, hrev, htr, hd⟩ := access_cases h.inv hp'
      rw [calls_access]
      exact h.of_same hinv hmode hrev htr hd
    | call op =>
      obtain ⟨hiss, hkeep⟩ := hmay op rfl
      rw [calls_call]
      cases op with
      | map a tg => exact sim_map hz h hiss hkeep hp'
      | unmap a => exact sim_unmap h hiss hkeep hp'
  have hall : ∀ pre a post, ops = pre ++ a :: post → may pre a := by
    intro pre a post he op ha
    rw [ha] at he
    exact ⟨hissued pre op post he, hkeeps pre op post he⟩
  obtain ⟨p', hr', hsim⟩ := run_history (P := fun hist p => Sim z pages mode (calls hist) p) (step z) hstep ops
    (sim_new z pages hm) (allSteps_of_run (step z) ops hr) hall
  obtain rfl : p' = p := mem_unique hr' hr
  exact hsim

theorem keeps_of_consistent (hz : z.blockShift = z.pageShift) (h : Sim z pages mode hist p) {op : PagingOp}
    (hissued : Issued z pages mode hist op) (hr : p.step z (.call op) = some p') (hc : p'.Consistent z pages) :
    Keeps z pages mode hist op := by
  cases op with
  | map a tg =>
    obtain ⟨⟨p1, latency⟩, hmap, rfl⟩ := map_eq_some_iff.mp hr
    obtain ⟨hinv, hmode, htr, hd, hcases⟩ := mapPageTable_cases (mappedPpn_eq hz tg) h.inv hmap
    have ha := hissued.1
    have hself : p1.paging.translate a = some tg := by rw [htr, if_pos rfl]
    rw [Keeps, ← h.contents a ha]
    rcases hcases with ⟨hsome, hrev⟩ | ⟨hnone, -, c, hpt, hrev⟩
    · -- the entry recorded for the old page number still leads here
      obtain ⟨tg', htg'⟩ := isSome_iff_exists.mp hsome
      obtain ⟨c, hold, hpt⟩ := h.recorded a ha tg' htg'
      have hnow := (hc (tg'.ppn z) (h.own a tg' htg').1 a ha).mp
        ⟨c, by rw [hrev]; exact hold, hpt.mono hmode hd⟩
      rw [hself] at hnow
      exact .inr (by rw [htg', map_some, ← some_inj.mp hnow])
    · -- another page number with the same key leads here too
      refine .inl ⟨hnone, fun q hq hkey => ?_⟩
      have hnow := (hc q hq a ha).mp ⟨c, by rw [hrev, hkey, update_self], hpt⟩
      rw [hself] at hnow
      exact (some_inj.mp hnow).symm
  | unmap a =>
    obtain ⟨⟨p1, done⟩, hu, rfl⟩ := map_eq_some_iff.mp hr
    obtain ⟨hinv, hmode, hrev, htr, hd⟩ := unmapPageTable_cases h.inv hu
    have ha : a < 2^48 := hissued
    rw [Keeps, ← h.contents a ha]
    by_contra hne
    obtain ⟨tg, htg⟩ := ne_none_iff_exists'.mp hne
    obtain ⟨c, hold, hpt⟩ := h.recorded a ha tg htg
    have hnow := (hc (tg.ppn z) (h.own a tg htg).1 a ha).mp
      ⟨c, by rw [hrev]; exact hold, hpt.mono hmode fun q t hq => (hd q).trans hq⟩
    rw [htr, if_pos rfl] at hnow
    cases hnow

theorem AllCalls.append {may : List PagingOp → PagingOp → Prop} {pre post : List InverseOp}
    (h : AllCalls may (pre ++ post)) : AllCalls may pre := by
  intro q op r he
  exact h q op (r ++ post) (by rw [he]; simp)

/-- Over any sequence of calls that all return, on 48-bit addresses and with distinct
physical pages for distinct pages, the inverse table is right after every call exactly
if each call maps a page without a target under a key of its own, repeats a mapping or
unmaps a page that has no target. -/
theorem consistent_iff_keeps (hz : z.blockShift = z.pageShift) (hm : isLongMode mode) {ops : List InverseOp}
    (hissued : AllCalls (Issued z pages mode) ops) (hr : (run (step z) (new mode) ops).isSome) :
    (∀ pre, pre <+: ops → ∀ p, run (step z) (new mode) pre = some p → p.Consistent z pages) ↔
      AllCalls (Keeps z pages mode) ops := by
  constructor
  · intro hall pre op post he
    -- the calls before this one keep the record right, by induction on their number
    induction hn : pre.length using Nat.strong_induction_on generalizing pre op post with
    | _ n ih =>
      have hpre : AllCalls (Keeps z pages mode) pre := by
        intro q op' r hq
        exact ih q.length (by rw [← hn, hq]; simp) q op' (r ++ .call op :: post) (by rw [he, hq]; simp) rfl
      have hsplit : ops = (pre ++ [.call op]) ++ post := by rw [he]; simp
      obtain ⟨p, hp⟩ : ∃ p, run (step z) (new mode) pre = some p := by
        rw [he, run_append] at hr
        exact isSome_iff_exists.mp (Option.isSome_of_isSome_bind hr)
      obtain ⟨p', hp'⟩ : ∃ p', run (step z) (new mode) (pre ++ [.call op]) = some p' := by
        rw [hsplit, run_append] at hr
        exact isSome_iff_exists.mp (Option.isSome_of_isSome_bind hr)
      have hsim := run_sim hz hm (AllCalls.append (he ▸ hissued)) hpre hp
      have hone : p.step z (.call op) = some p' := by
        rw [run_append, hp, bind_some] at hp'
        obtain ⟨u, hu, hnil⟩ := bind_eq_some_iff.mp hp'
        cases hnil
        exact hu
      exact keeps_of_consistent hz hsim (hissued pre op post he) hone
        (hall _ ⟨post, hsplit.symm⟩ p' hp')
  · intro hkeeps pre hpre p hp
    obtain ⟨post, rfl⟩ := hpre
    exact (run_sim hz hm hissued.append hkeeps.append hp).consistent

section Sample

def mapTwice : List InverseOp := [.call (.map 0x1000 (.page 7)), .call (.map 0x1000 (.page 7))]

theorem consistent_iff_keeps_twice :
    ∃ p, run (step ⟨12, 12, 2^40, 1⟩) (new .longModeNormal) mapTwice = some p ∧
      p.Consistent ⟨12, 12, 2^40, 1⟩ (2^28) := by
  -- either call is the first or comes after one like it
  have hcases : ∀ pre op post, mapTwice = pre ++ .call op :: post →
      op = .map 0x1000 (.page 7) ∧ (calls pre = [] ∨ calls pre = [.map 0x1000 (.page 7)]) := by
    intro pre op post he
    rcases pre with - | ⟨x, - | ⟨y, pre⟩⟩ <;> simp [mapTwice] at he
    · exact ⟨he.1.symm, .inl rfl⟩
    · obtain ⟨rfl, rfl, -⟩ := he
      exact ⟨rfl, .inr rfl⟩
  have hissued : AllCalls (Issued ⟨12, 12, 2^40, 1⟩ (2^28) .longModeNormal) mapTwice := by
    intro pre op post he
    obtain ⟨rfl, hpre | hpre⟩ := hcases pre op post he <;> rw [hpre]
    · exact ⟨by decide, by decide, fun v _ h => by cases h⟩
    · refine ⟨by decide, by decide, fun v hv => ?_⟩
      have hnone : (after PagingStyle.longModeNormal.pageShift [.map 0x1000 (.page 7)]).contents v = none :=
        update_of_ne hv _ _
      rw [hnone]
      exact fun h => by cases h
  have hkeeps : AllCalls (Keeps ⟨12, 12, 2^40, 1⟩ (2^28) .longModeNormal) mapTwice := by
    intro pre op post he
    obtain ⟨rfl, hpre | hpre⟩ := hcases pre op post he <;> rw [hpre]
    · refine .inl ⟨rfl, fun q hq hkey => ?_⟩
      have hsmall : (q : Nat) % 2^32 = q := mod_eq_of_lt (hq.trans (by decide))
      exact hsmall.symm.trans hkey
    · exact .inr (by decide)
  have hrun : (run (step ⟨12, 12, 2^40, 1⟩) (new .longModeNormal) mapTwice).isSome := by decide
  obtain ⟨p, hp⟩ := isSome_iff_exists.mp hrun
  exact ⟨p, hp, (consistent_iff_keeps rfl (by decide) hissued hrun).mpr hkeeps _ prefix_rfl p hp⟩

/-- Mapping a page again, to frame 8 instead of 7: the inverse table has no entry for
frame 8. -/
theorem map_again_not_consistent :
    ∃ p, run (step ⟨12, 12, 2^40, 1⟩) (new .longModeNormal)
        [.call (.map 0x1000 (.page 7)), .call (.map 0x1000 (.page 8))] = some p ∧
      ¬ p.Consistent ⟨12, 12, 2^40, 1⟩ (2^28) := by
  have hstate : ∃ p, run (step ⟨12, 12, 2^40, 1⟩) (new .longModeNormal)
        [.call (.map 0x1000 (.page 7)), .call (.map 0x1000 (.page 8))] = some p ∧
      p.reversedPgt (key 8) = none ∧
      (p.paging.translate 0x1000).map (Target.ppn ⟨12, 12, 2^40, 1⟩) = some 8 := by decide
  obtain ⟨p, hp, hnone, htr⟩ := hstate
  refine ⟨p, hp, fun hc => ?_⟩
  obtain ⟨c, hsome, -⟩ := (hc 8 (by decide) 0x1000 (by decide)).mpr htr
  rw [hnone] at hsome
  cases hsome

end Sample

end Shma.PageTable.ReversedPaging
