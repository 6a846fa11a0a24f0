import Mathlib.Algebra.Group.Nat.Defs
import Mathlib.Data.Finset.Card
import Shma.Lib.FirstMatch
import Shma.Lib.Run

/-!
# The table of row-buffer misses

`StatsStore` of `NVM/RBLA_NVMain/StatsStore.hh` and `UpdateStatsTable`, which is the same in
`FlatRBLANVMain` and `RBLA_NVMain`. An entry is found by its row among the valid ones; a new row
takes the first invalid entry, or the last one if there is none. The counts are 64-bit words.
The counters of hits and misses of the table itself are left out.
-/
namespace Shma.Nvmain

open Lib Lib.Run
open List (filterMap_append mem_cons perm_middle replicate)

structure StatsStoreBlock where
  (rowId missTime status : Nat)
  deriving DecidableEq, Repr

namespace StatsStoreBlock

def new : StatsStoreBlock := ⟨0, 0, 0⟩

variable (b : StatsStoreBlock)

def setValid : StatsStoreBlock := { b with status := 1 }

def isValid : Bool := b.status &&& 1 ≠ 0

def row? : Option Nat := if b.isValid then some b.rowId else none

end StatsStoreBlock

open StatsStoreBlock

/-- The entries; `cacheSet[i]` points to `blk[i]` throughout. -/
structure StatsStore where
  blk : List StatsStoreBlock
  deriving DecidableEq, Repr

namespace StatsStore

/-- The constructor. An empty table is fatal. -/
def new (entryNum : Nat) : Option StatsStore :=
  if entryNum = 0 then none else some ⟨replicate entryNum .new⟩

variable (s : StatsStore) (migraThres increNum : Nat)

def findEntry (rowId : Nat) : Option Nat := s.blk.findIdx? fun b => b.rowId = rowId && b.isValid

def findVictim : Nat := (s.blk.findIdx? fun b => !b.isValid).getD (s.blk.length - 1)

def clear : StatsStore := ⟨s.blk.map fun b => { b with missTime := 0 }⟩

def install (entry rowId : Nat) : StatsStore :=
  ⟨s.blk.modify entry fun b => { b.setValid with rowId, missTime := 0 }⟩

def increMissTime (entry steps : Nat) : StatsStore :=
  ⟨s.blk.modify entry fun b => { b with missTime := (b.missTime + steps) % 2^64 }⟩

def report (migraThres : Nat) (s : StatsStore) (entry : Nat) : Bool × StatsStore :=
  match s.blk[entry]? with
  | none => (false, s)
  | some b =>
    if migraThres ≤ b.missTime then (true, ⟨s.blk.modify entry fun b => { b with missTime := 0 }⟩)
    else (false, s)

def updateStatsTable (migraThres : Nat) (s : StatsStore) (rowNum increNum : Nat) : Bool × StatsStore :=
  let (entry, s) :=
    match s.findEntry rowNum with
    | some entry => (entry, s)
    | none => (s.findVictim, s.install s.findVictim rowNum)
  (s.increMissTime entry increNum).report migraThres entry

/-! ### One call -/

variable {s : StatsStore} {l1 l2 : List StatsStoreBlock} {b : StatsStoreBlock} {row : Nat}

theorem row?_eq_some : b.row? = some row ↔ b.isValid ∧ b.rowId = row := by
  rw [row?, Option.ite_none_right_eq_some, Option.some.injEq]

theorem row?_eq_none : b.row? = none ↔ b.isValid = false := by
  rw [row?]
  cases b.isValid <;> simp

theorem row?_new (row missTime : Nat) : (StatsStoreBlock.mk row missTime 1).row? = some row :=
  row?_eq_some.mpr ⟨by simp [isValid], rfl⟩

def counted (migraThres missTime increNum : Nat) : Nat :=
  if migraThres ≤ (missTime + increNum) % 2^64 then 0 else (missTime + increNum) % 2^64

theorem report_increMissTime (l1 l2 : List StatsStoreBlock) (b : StatsStoreBlock) (migraThres increNum : Nat) :
    (increMissTime ⟨l1 ++ b :: l2⟩ l1.length increNum).report migraThres l1.length =
      (decide (migraThres ≤ (b.missTime + increNum) % 2^64),
        ⟨l1 ++ { b with missTime := counted migraThres b.missTime increNum } :: l2⟩) := by
  simp only [increMissTime, modify_append_cons, report, List.getElem?_append_right (Nat.le_refl _), Nat.sub_self,
    List.getElem?_cons_zero, counted]
  split <;> rename_i h
  · rw [decide_eq_true h]
  · rw [decide_eq_false h]

theorem updateStatsTable_of_mem (h : row ∈ s.blk.filterMap row?) :
    ∃ l1 b l2, s.blk = l1 ++ b :: l2 ∧ b.row? = some row ∧
      s.updateStatsTable migraThres row increNum =
        (decide (migraThres ≤ (b.missTime + increNum) % 2^64),
          ⟨l1 ++ { b with missTime := counted migraThres b.missTime increNum } :: l2⟩) := by
  obtain ⟨b, hb, hrow⟩ := List.mem_filterMap.mp h
  cases hfind : s.findEntry row with
  | none =>
    have hmiss := List.findIdx?_eq_none_iff.mp hfind b hb
    simp [row?_eq_some.mp hrow] at hmiss
  | some entry =>
    obtain ⟨l1, c, l2, hsplit, rfl, hc⟩ := findIdx?_eq_some_split hfind
    have hcrow : c.row? = some row := by
      simp only [Bool.and_eq_true, decide_eq_true_eq] at hc
      exact row?_eq_some.mpr ⟨hc.2, hc.1⟩
    refine ⟨l1, c, l2, hsplit, hcrow, ?_⟩
    rw [← report_increMissTime, ← hsplit]
    simp only [updateStatsTable, hfind]

theorem updateStatsTable_of_not_mem (h : row ∉ s.blk.filterMap row?)
    (hroom : ∃ b ∈ s.blk, b.row? = none) :
    ∃ l1 b l2, s.blk = l1 ++ b :: l2 ∧ b.row? = none ∧
      s.updateStatsTable migraThres row increNum =
        (decide (migraThres ≤ increNum % 2^64), ⟨l1 ++ ⟨row, counted migraThres 0 increNum, 1⟩ :: l2⟩) := by
  have hfind : s.findEntry row = none := by
    refine List.findIdx?_eq_none_iff.mpr fun b hb => ?_
    refine Bool.eq_false_iff.mpr fun hmatch => h (List.mem_filterMap.mpr ⟨b, hb, ?_⟩)
    simp only [Bool.and_eq_true, decide_eq_true_eq] at hmatch
    exact row?_eq_some.mpr ⟨hmatch.2, hmatch.1⟩
  cases hvictim : s.blk.findIdx? fun b => !b.isValid with
  | none =>
    obtain ⟨b, hb, hnone⟩ := hroom
    have hvalid := List.findIdx?_eq_none_iff.mp hvictim b hb
    simp [row?_eq_none.mp hnone] at hvalid
  | some entry =>
    obtain ⟨l1, c, l2, hsplit, rfl, hc⟩ := findIdx?_eq_some_split hvictim
    refine ⟨l1, c, l2, hsplit, row?_eq_none.mpr (by simpa using hc), ?_⟩
    have hentry : s.findVictim = l1.length := by rw [findVictim, hvictim, Option.getD_some]
    have hinstall : s.install l1.length row = ⟨l1 ++ ⟨row, 0, 1⟩ :: l2⟩ := by
      rw [install, hsplit, modify_append_cons, setValid]
    have hreport := report_increMissTime l1 l2 ⟨row, 0, 1⟩ migraThres increNum
    rw [Nat.zero_add] at hreport
    simp only [updateStatsTable, hfind, hentry, hinstall, hreport]

theorem updateStatsTable_spec (hroom : row ∉ s.blk.filterMap row? → ∃ b ∈ s.blk, b.row? = none) :
    ∃ l1 b l2 b', s.blk = l1 ++ b :: l2 ∧
      (b.row? = some row ∨ row ∉ s.blk.filterMap row? ∧ b.row? = none) ∧ b'.row? = some row ∧
      let before := if row ∈ s.blk.filterMap row? then b.missTime else 0
      b'.missTime = counted migraThres before increNum ∧
      s.updateStatsTable migraThres row increNum =
        (decide (migraThres ≤ (before + increNum) % 2^64), ⟨l1 ++ b' :: l2⟩) := by
  by_cases h : row ∈ s.blk.filterMap row?
  · obtain ⟨l1, b, l2, hsplit, hrow, hupdate⟩ := updateStatsTable_of_mem migraThres increNum h
    refine ⟨l1, b, l2, { b with missTime := counted migraThres b.missTime increNum }, hsplit, .inl hrow,
      hrow, ?_, ?_⟩
    · rw [if_pos h]
    · rw [if_pos h, hupdate]
  · obtain ⟨l1, b, l2, hsplit, hrow, hupdate⟩ := updateStatsTable_of_not_mem migraThres increNum h (hroom h)
    refine ⟨l1, b, l2, ⟨row, counted migraThres 0 increNum, 1⟩, hsplit, .inr ⟨h, hrow⟩, row?_new row _, ?_, ?_⟩
    · rw [if_neg h]
    · rw [if_neg h, hupdate, Nat.zero_add]

/-! ### Runs -/

inductive Call where
  | updateStatsTable (rowNum increNum : Nat)
  | clear
  deriving DecidableEq, Repr

def Call.row? : Call → Option Nat
  | .updateStatsTable rowNum _ => some rowNum
  | .clear => none

/-- The table, and for each row the sum of the increments since it was last reported or the table
was cleared. -/
structure Session where
  store : StatsStore
  since : Nat → Nat

namespace Session

variable (migraThres : Nat) (s : Session)

def answer (rowNum increNum : Nat) : Bool :=
  (s.store.updateStatsTable migraThres rowNum increNum).1

def step : Call → Option Session
  | .updateStatsTable rowNum increNum =>
    some {
      store := (s.store.updateStatsTable migraThres rowNum increNum).2
      since := Function.update s.since rowNum
        (if s.answer migraThres rowNum increNum then 0 else s.since rowNum + increNum) }
  | .clear => some { store := s.store.clear, since := fun _ => 0 }

def DistinctRows : Prop := (s.store.blk.filterMap row?).Nodup

/-- An update answers by the sum, which is kept in 64 bits. -/
def AnswersBySum : Call → Prop
  | .updateStatsTable rowNum increNum =>
    s.answer migraThres rowNum increNum = true ↔ migraThres ≤ (s.since rowNum + increNum) % 2^64
  | .clear => True

structure Inv (n : Nat) (rows : Finset Nat) (s : Session) : Prop where
  length_eq : s.store.blk.length = n
  used : ∀ row ∈ s.store.blk.filterMap row?, row ∈ rows
  distinct : s.DistinctRows
  missTime_eq : ∀ b ∈ s.store.blk, ∀ row, b.row? = some row → b.missTime = s.since row % 2^64
  since_eq_zero : ∀ row ∉ s.store.blk.filterMap row?, s.since row = 0

variable {n : Nat} {rows : Finset Nat} {s : Session}

section

variable (h : s.Inv n rows)
include h

theorem Inv.room (hcard : rows.card ≤ n) {row : Nat} (hrow : row ∈ rows)
    (hnew : row ∉ s.store.blk.filterMap row?) : ∃ b ∈ s.store.blk, b.row? = none := by
  by_contra hfull
  push Not at hfull
  have hall : (s.store.blk.filterMap row?).length = n := by
    rw [List.length_filterMap_eq_countP, List.countP_eq_length.mpr, h.length_eq]
    intro b hb
    exact Option.isSome_iff_ne_none.mpr (hfull b hb)
  have hnodup : (row :: s.store.blk.filterMap row?).Nodup := List.nodup_cons.mpr ⟨hnew, h.distinct⟩
  have hsub : (row :: s.store.blk.filterMap row?).toFinset ⊆ rows := by
    intro r hr
    rcases mem_cons.mp (List.mem_toFinset.mp hr) with rfl | hr
    · exact hrow
    · exact h.used r hr
  have hle := Finset.card_le_card hsub
  rw [List.toFinset_card_of_nodup hnodup, List.length_cons] at hle
  omega

theorem Inv.found {row : Nat} {b : StatsStoreBlock} (hb : b ∈ s.store.blk)
    (hrow : b.row? = some row ∨ row ∉ s.store.blk.filterMap row? ∧ b.row? = none) :
    (if row ∈ s.store.blk.filterMap row? then b.missTime else 0) = s.since row % 2^64 := by
  rcases hrow with hrow | ⟨hnew, -⟩
  · rw [if_pos (List.mem_filterMap.mpr ⟨b, hb, hrow⟩)]
    exact h.missTime_eq b hb row hrow
  · rw [if_neg hnew, h.since_eq_zero row hnew, Nat.zero_mod]

omit h in
theorem nodup_and_mem_of_replace {l1 l2 : List StatsStoreBlock} {b b' : StatsStoreBlock} {row : Nat}
    (hdistinct : ((l1 ++ b :: l2).filterMap row?).Nodup)
    (hrow : b.row? = some row ∨ row ∉ (l1 ++ b :: l2).filterMap row? ∧ b.row? = none)
    (hrow' : b'.row? = some row) :
    ((l1 ++ b' :: l2).filterMap row?).Nodup ∧
      ∀ r, r ∈ (l1 ++ b' :: l2).filterMap row? ↔
        r = row ∨ r ∈ (l1 ++ b :: l2).filterMap row? := by
  rw [filterMap_append, List.filterMap_cons_some hrow']
  rcases hrow with hrow | ⟨hnew, hnone⟩
  · rw [filterMap_append, List.filterMap_cons_some hrow] at hdistinct ⊢
    refine ⟨hdistinct, fun r => ?_⟩
    simp only [List.mem_append, mem_cons]
    tauto
  · rw [filterMap_append, List.filterMap_cons_none hnone] at hdistinct hnew ⊢
    refine ⟨perm_middle.nodup_iff.mpr (List.nodup_cons.mpr ⟨hnew, hdistinct⟩), fun r => ?_⟩
    rw [perm_middle.mem_iff, mem_cons]

theorem Inv.replace {l1 l2 : List StatsStoreBlock} {b b' : StatsStoreBlock} {row total : Nat}
    (hsplit : s.store.blk = l1 ++ b :: l2)
    (hrow : b.row? = some row ∨ row ∉ s.store.blk.filterMap row? ∧ b.row? = none)
    (hrow' : b'.row? = some row) (hused : row ∈ rows) (hcount : b'.missTime = total % 2^64) :
    Inv n rows ⟨⟨l1 ++ b' :: l2⟩, Function.update s.since row total⟩ := by
  obtain ⟨hlength, hlater, hdistinct, hmissTime, hsince⟩ := h
  rw [DistinctRows] at hdistinct
  rw [hsplit] at hrow hlength hlater hdistinct hmissTime hsince
  obtain ⟨hnodup, hmem⟩ := nodup_and_mem_of_replace hdistinct hrow hrow'
  constructor
  case length_eq => simpa using hlength
  case used =>
    intro r hr
    rcases (hmem r).mp hr with rfl | hr
    · exact hused
    · exact hlater r hr
  case distinct => exact hnodup
  case missTime_eq =>
    intro c hc r hr
    -- the entry of the row, or one of another row
    rcases mem_cons.mp (perm_middle.mem_iff.mp hc) with rfl | hother
    · obtain rfl : row = r := Option.mem_unique hrow' hr
      simp only [hcount, Function.update_self]
    · have hne : r ≠ row := by
        rintro rfl
        rw [filterMap_append, List.filterMap_cons_some hrow', perm_middle.nodup_iff, List.nodup_cons,
          ← filterMap_append] at hnodup
        exact hnodup.1 (List.mem_filterMap.mpr ⟨c, hother, hr⟩)
      simp only [Function.update_of_ne hne]
      exact hmissTime c (perm_middle.mem_iff.mpr (List.mem_cons_of_mem b hother)) r hr
  case since_eq_zero =>
    intro r hr
    obtain ⟨hne, hold⟩ := not_or.mp (mt (hmem r).mpr hr)
    simp only [Function.update_of_ne hne]
    exact hsince r hold

/-- One update answers by the sum of its row and counts on. -/
theorem Inv.update (hcard : rows.card ≤ n) (migraThres : Nat) {row : Nat} (hused : row ∈ rows) (increNum : Nat) :
    s.AnswersBySum migraThres (.updateStatsTable row increNum) ∧
      ∃ s', s.step migraThres (.updateStatsTable row increNum) = some s' ∧ s'.Inv n rows := by
  obtain ⟨l1, b, l2, b', hsplit, hrow, hrow', hcount, hupdate⟩ :=
    updateStatsTable_spec migraThres increNum (h.room hcard hused)
  have hb : b ∈ s.store.blk := by
    rw [hsplit]
    exact List.mem_append_right _ List.mem_cons_self
  rw [h.found hb hrow, Nat.mod_add_mod] at hupdate
  rw [h.found hb hrow, counted, Nat.mod_add_mod] at hcount
  have hanswer : s.answer migraThres row increNum = decide (migraThres ≤ (s.since row + increNum) % 2^64) := by
    rw [answer, hupdate]
  refine ⟨?_, _, rfl, ?_⟩
  · rw [AnswersBySum, hanswer, decide_eq_true_iff]
  · rw [hanswer, hupdate]
    refine h.replace hsplit hrow hrow' hused ?_
    rw [hcount]
    by_cases hthres : migraThres ≤ (s.since row + increNum) % 2^64
    · rw [if_pos hthres, if_pos (decide_eq_true hthres), Nat.zero_mod]
    · rw [if_neg hthres, if_neg (mt of_decide_eq_true hthres)]

omit h in
theorem filterMap_row?_clear (s : StatsStore) :
    s.clear.blk.filterMap row? = s.blk.filterMap row? :=
  List.filterMap_map

theorem Inv.clear (migraThres : Nat) : ∃ s', s.step migraThres .clear = some s' ∧ s'.Inv n rows := by
  refine ⟨_, rfl, ?_⟩
  constructor
  case length_eq => exact (List.length_map _).trans h.length_eq
  case used =>
    rw [filterMap_row?_clear]
    exact h.used
  case distinct =>
    rw [DistinctRows, filterMap_row?_clear]
    exact h.distinct
  case missTime_eq =>
    intro c hc row _
    obtain ⟨b, -, rfl⟩ := List.mem_map.mp hc
    rfl
  case since_eq_zero => exact fun _ _ => rfl

omit h in
theorem Inv.new {store : StatsStore} (hnew : StatsStore.new n = some store) : Inv n rows ⟨store, fun _ => 0⟩ := by
  rw [StatsStore.new, Option.ite_none_left_eq_some] at hnew
  obtain rfl := Option.some.inj hnew.2
  have hempty : (replicate n StatsStoreBlock.new).filterMap row? = [] :=
    List.filterMap_replicate_of_none (by decide)
  constructor
  case length_eq => exact List.length_replicate
  case used => simp [hempty]
  case distinct => simp [DistinctRows, hempty]
  case missTime_eq =>
    intro b hb row _
    rw [List.eq_of_mem_replicate hb]
    rfl
  case since_eq_zero => exact fun _ _ => rfl

theorem Inv.step (hcard : rows.card ≤ n) (migraThres : Nat) (c : Call) (hrow : ∀ row, c.row? = some row → row ∈ rows) :
    s.AnswersBySum migraThres c ∧ ∃ s', s.step migraThres c = some s' ∧ s'.Inv n rows := by
  cases c with
  | updateStatsTable row increNum => exact h.update hcard migraThres (hrow row rfl) increNum
  | clear => exact ⟨trivial, h.clear migraThres⟩

end

/-- For no more rows than the table has entries, whatever the calls and whatever the threshold: no
row has two entries, and a row is reported exactly when its sum, as a word of 64 bits, is at least
the threshold. -/
theorem answers_by_sum (migraThres : Nat) (cs : List Call) {store : StatsStore}
    (hnew : StatsStore.new n = some store) (hrows : (cs.filterMap Call.row?).toFinset.card ≤ n) :
    Run.AllSteps (step migraThres) (fun s c => s.DistinctRows ∧ s.AnswersBySum migraThres c) ⟨store, fun _ => 0⟩ cs ∧
      ∃ s', run (step migraThres) ⟨store, fun _ => 0⟩ cs = some s' ∧ s'.DistinctRows := by
  have hstart : Inv n (cs.filterMap Call.row?).toFinset ⟨store, fun _ => 0⟩ := Inv.new hnew
  have hmem : ∀ c ∈ cs, ∀ row, c.row? = some row → row ∈ (cs.filterMap Call.row?).toFinset := by
    intro c hc row hrow
    exact List.mem_toFinset.mpr (List.mem_filterMap.mpr ⟨c, hc, hrow⟩)
  have hall := AllSteps.of_forall_mem (step migraThres) cs ⟨store, fun _ => 0⟩ hmem
  constructor
  · refine AllSteps.imp (step migraThres) (fun s c s' h hc hs' => ?_) (fun s c h hc => ?_) cs hstart hall
    · obtain ⟨-, s'', hs'', hinv⟩ := h.step hrows migraThres c hc
      exact Option.mem_unique hs'' hs' ▸ hinv
    · exact ⟨h.distinct, (h.step hrows migraThres c hc).1⟩
  · obtain ⟨s', hrun, hinv⟩ := run_isSome (step migraThres)
      (fun s c h hc => (h.step hrows migraThres c hc).2) cs hstart hall
    exact ⟨s', hrun, hinv.distinct⟩

/-- Two entries and two rows, one of them reported and the table cleared in between. -/
theorem answers_by_sum_two_rows :
    let cs : List Call := [.updateStatsTable 7 2, .updateStatsTable 0 1, .updateStatsTable 7 3, .clear,
      .updateStatsTable 0 4]
    Run.AllSteps (step 5) (fun s c => s.DistinctRows ∧ s.AnswersBySum 5 c)
        ⟨⟨replicate 2 .new⟩, fun _ => 0⟩ cs ∧
      ∃ s', run (step 5) ⟨⟨replicate 2 .new⟩, fun _ => 0⟩ cs = some s' ∧ s'.DistinctRows :=
  answers_by_sum (n := 2) 5 _ rfl (by decide)

/-- The sum as a number is not what counts: with a threshold of two, one and then `2^64 - 1` for the
only row of a table of one entry are not reported. -/
theorem sum_wraps_unreported :
    ∃ store s, StatsStore.new 1 = some store ∧
      run (step 2) ⟨store, fun _ => 0⟩ [.updateStatsTable 0 1] = some s ∧
      2 ≤ s.since 0 + (2^64 - 1) ∧ s.answer 2 0 (2^64 - 1) = false := by
  refine ⟨_, _, rfl, rfl, ?_, ?_⟩
  · decide
  · decide

end Session

end StatsStore

end Shma.Nvmain
