import Shma.Lib.RadixCount
import Shma.PageTable.Domains
import Shma.PageTable.Tables

/-!
# Counting the tables of a paging structure

The tables linked at each level, what a walk with creation adds to them and what `invalidate_entry`
takes away.
-/
namespace Shma.PageTable

open Lib

theorem eq_decrement {e : ℕ∞} {n : Nat} (h : e + 1 = n) : e = decrement n := by
  have hne : e ≠ ⊤ := by
    rintro rfl
    exact ENat.natCast_ne_top n h.symm
  lift e to ℕ using hne
  have hn : e + 1 = n := by exact_mod_cast h
  rw [decrement, if_neg (by omega)]
  congr
  omega

/-- A counter that follows its level through the loss of a table at level `k`. -/
theorem counter_of_drop {e e' : ℕ∞} {n l k : Nat} (hcard : e' + (if l = k then 1 else 0) = e) (hn : e = n) :
    e' = ((if l = k then decrement n else n : Nat) : ℕ∞) := by
  by_cases hk : l = k
  · rw [if_pos hk] at hcard ⊢
    exact eq_decrement (hcard.trans hn)
  · rw [if_neg hk, add_zero] at hcard
    rw [if_neg hk, hcard, hn]

theorem decrement_ne (n : Nat) : decrement n ≠ n := by
  unfold decrement
  split <;> omega

namespace PageTables

variable {h h' : PageTables} {depth rootSize size : Nat}

def linked (h : PageTables) (k : Nat) : Set (List Nat) := h.tables.linked coding 0 k

def newlyLinked (h h' : PageTables) : Set (List Nat) := {q | (h'.descend q).isSome ∧ h.descend q = none}

/-- Paths go through the first `size` entries of each table. -/
def Within (h : PageTables) (size : Nat) : Prop := ∀ q, (h.descend q).isSome → ∀ i ∈ q, i < size

def prune (h : PageTables) (t i : Nat) : PageTables := { h with tables := h.tables.prune coding t i }

theorem descend_new_eq_none (size i : Nat) (q : List Nat) : (new size).descend (i :: q) = none := rfl

theorem linked_new (size k : Nat) : ((new size).linked (k + 1)).encard = 0 := by
  rw [Set.encard_eq_zero, Set.eq_empty_iff_forall_notMem]
  rintro q ⟨hlen, hq⟩
  cases q with
  | nil => cases hlen
  | cons i q =>
    cases hq

theorem linked_congr (hd : ∀ q, h'.descend q = h.descend q) (k : Nat) : h'.linked k = h.linked k := by
  ext q
  show q.length = k ∧ (h'.descend q).isSome ↔ q.length = k ∧ (h.descend q).isSome
  rw [hd]

theorem isSome_descend_mono {p q : List Nat} (hp : p <+: q) (hq : (h.descend q).isSome) : (h.descend p).isSome :=
  Radix.Tables.isSome_descend_mono hp hq

namespace Inv

theorem length_le (hi : h.Inv depth rootSize size) {q : List Nat} (hq : (h.descend q).isSome) : q.length ≤ depth := by
  by_contra hlong
  obtain ⟨p, i, r, rfl, hp⟩ : ∃ p i r, q = p ++ i :: r ∧ p.length = depth := by
    refine ⟨q.take depth, q.get ⟨depth, by omega⟩, q.drop (depth + 1), ?_, List.length_take_of_le (by omega)⟩
    rw [List.get_eq_getElem, List.getElem_cons_drop, List.take_append_drop]
  have hnext : (h.descend (p ++ [i])).isSome := isSome_descend_mono ⟨r, by simp⟩ hq
  obtain ⟨t, ht⟩ := isSome_iff_exists.mp (isSome_descend_mono (List.prefix_append p [i]) hnext)
  rw [descend_concat ht, (hi.isLeaf_cell ht hp i).1] at hnext
  cases hnext

section Prune

variable (hi : h.Inv depth rootSize size) {p : List Nat} {t : Nat} (ht : h.descend p = some t) (i : Nat)
include hi ht

theorem prune : (h.prune t i).Inv depth rootSize size := ⟨hi.wf.prune ht i, hi.root_count, hi.count⟩

theorem descend_prune (q : List Nat) :
    (h.prune t i).descend q = if p ++ [i] <+: q then none else h.descend q := hi.wf.descend_prune ht i q

theorem invalidateEntry_eq (hb : i < if p = [] then rootSize else size) (hp : p.length < depth)
    (hlinked : (h.descend (p ++ [i])).isSome) : h.invalidateEntry t i = some (h.prune t i) := by
  rw [descend_concat ht] at hlinked
  have hpresent : (h.tables.cell t i).present = true := by rw [(hi.wf.dir ht hp i).2, hlinked]
  have hptr : (h.tables.cell t i).nextLevelPtr.isSome := by
    rw [BasePDTEntry.child] at hlinked
    cases hn : (h.tables.cell t i).nextLevelPtr with
    | none =>
      rw [hn] at hlinked
      cases hlinked
    | some ptr => rfl
  rw [invalidateEntry, hi.get_eq ht hb, bind_some, BasePDTEntry.invalidatePageTable, if_pos ⟨hpresent, hptr⟩]
  rfl

theorem encard_linked_prune (hlinked : (h.descend (p ++ [i])).isSome)
    (hbare : ∀ q, (h.descend q).isSome → p ++ [i] <+: q → q = p ++ [i]) (k : Nat) :
    ((h.prune t i).linked k).encard + (if k = p.length + 1 then 1 else 0) = (h.linked k).encard := by
  have hremove := Radix.Tables.encard_linked_remove hlinked (hi.descend_prune ht i) hbare k
  rw [length_append] at hremove
  exact hremove

end Prune

theorem bare_of_depth (hi : h.Inv depth rootSize size) {path : List Nat} (hlen : path.length = depth) {q : List Nat}
    (hq : (h.descend q).isSome) (hpath : path <+: q) : q = path :=
  (hpath.eq_of_length_le (hlen ▸ hi.length_le hq)).symm

theorem ensure_fresh (hi : h.Inv depth rootSize size) {r : List Nat} {t : Nat} (ht : h.descend r = some t)
    {p : List Nat} (hp : r.length + p.length ≤ depth) :
    ∃ n : Nat, (h.newlyLinked (ensure size h t p).2).encard = n ∧
      (ensure size h t p).2.tables.fresh = h.tables.fresh + n := by
  refine ensure_induction (motive := fun h _ _ _ res => ∃ n : Nat, (h.newlyLinked res.2).encard = n ∧
    res.2.tables.fresh = h.tables.fresh + n) ?_ ?_ ?_ hi ht hp
  · intro h r t _ _
    refine ⟨0, ?_, rfl⟩
    rw [Nat.cast_zero, Set.encard_eq_zero, Set.eq_empty_iff_forall_notMem]
    rintro q ⟨hsome, hnone⟩
    rw [hnone] at hsome
    cases hsome
  · exact fun _ _ ih => ih
  · rintro h r t i p hi ht hr hlen hc ⟨n, hn, hfresh⟩
    have hself := hi.descend_graft_self ht hc
    have hgraft : ∀ q, (h.graft t i size).descend q = if q = r ++ [i] then some h.tables.fresh else h.descend q :=
      hi.wf.descend_graft ht hc
    have hstays := (hi.graft ht hr hc).ensure_descend_of_some hself hlen hself
    -- the new table is the first that the walk links, and stays linked
    have hset : h.newlyLinked (ensure size (h.graft t i size) h.tables.fresh p).2 =
        insert (r ++ [i])
          ((h.graft t i size).newlyLinked (ensure size (h.graft t i size) h.tables.fresh p).2) := by
      ext q
      simp only [newlyLinked, Set.mem_ofPred_eq, Set.mem_insert_iff, hgraft]
      by_cases hq : q = r ++ [i]
      · rw [hq, hstays, PageTables.descend_concat ht, hc]
        simp
      · simp [hq]
    have hnot : r ++ [i] ∉
        (h.graft t i size).newlyLinked (ensure size (h.graft t i size) h.tables.fresh p).2 := by
      rintro ⟨-, hnone⟩
      rw [hself] at hnone
      cases hnone
    refine ⟨n + 1, ?_, ?_⟩
    · rw [hset, Set.encard_insert_of_notMem hnot, hn]
      rfl
    · rw [hfresh, graft_fresh]
      omega

end Inv

/-! ### Linking and unlinking a family of slots -/

/-- The slots get tables, with the tables above them, and nothing that was linked changes. -/
structure Links (h h' : PageTables) (slots : List Nat → Prop) : Prop where
  linked : ∀ q, (h'.descend q).isSome ↔ (h.descend q).isSome ∨ ∃ r, slots r ∧ q <+: r
  kept : ∀ q, (h.descend q).isSome → h'.descend q = h.descend q

structure Unlinks (h h' : PageTables) (slots : List Nat → Prop) : Prop where
  gone : ∀ r q, slots r → r <+: q → h'.descend q = none
  kept : ∀ q, (∀ r, slots r → ¬ r <+: q) → h'.descend q = h.descend q

section Slots

variable {h h' h'' : PageTables} {slots slots' : List Nat → Prop}

theorem Links.congr (hl : Links h h' slots) (heq : ∀ r, slots r ↔ slots' r) : Links h h' slots' := by
  obtain rfl : slots = slots' := funext fun r => propext (heq r)
  exact hl

theorem Unlinks.congr (hu : Unlinks h h' slots) (heq : ∀ r, slots r ↔ slots' r) : Unlinks h h' slots' := by
  obtain rfl : slots = slots' := funext fun r => propext (heq r)
  exact hu

theorem Links.refl (h : PageTables) : Links h h fun _ => False := ⟨fun q => by simp, fun _ _ => rfl⟩

theorem Unlinks.refl (h : PageTables) : Unlinks h h fun _ => False := ⟨fun _ _ hr => hr.elim, fun _ _ => rfl⟩

theorem Links.trans (hl : Links h h' slots) (hl' : Links h' h'' slots') : Links h h'' fun r => slots r ∨ slots' r := by
  constructor
  · intro q
    rw [hl'.linked, hl.linked, or_assoc, ← exists_or]
    simp only [or_and_right]
  · intro q hq
    rw [hl'.kept q ((hl.linked q).mpr (.inl hq)), hl.kept q hq]

theorem Unlinks.trans (hu : Unlinks h h' slots) (hu' : Unlinks h' h'' slots') :
    Unlinks h h'' fun r => slots r ∨ slots' r := by
  have hkept : ∀ q, (∀ r, slots r ∨ slots' r → ¬ r <+: q) → h''.descend q = h.descend q := by
    intro q hq
    rw [hu'.kept q fun r hr => hq r (.inr hr), hu.kept q fun r hr => hq r (.inl hr)]
  refine ⟨fun r q hr hpre => ?_, hkept⟩
  by_cases hlater : ∃ r', slots' r' ∧ r' <+: q
  · obtain ⟨r', hr', hpre'⟩ := hlater
    exact hu'.gone r' q hr' hpre'
  · have hsame := hu'.kept q fun r' hr' hpre' => hlater ⟨r', hr', hpre'⟩
    rcases hr with hr | hr
    · rw [hsame, hu.gone r q hr hpre]
    · exact absurd ⟨r, hr, hpre⟩ hlater

variable (mode : PagingStyle) {path : List Nat}

theorem Inv.links_ensure (hi : h.Inv depth rootSize size) (hlen : path.length ≤ depth) :
    Links h (ensure size h 0 path).2 (· = path) := by
  constructor
  · intro q
    rw [hi.ensure_descend hlen]
    simp
  · intro q hq
    obtain ⟨u, hu⟩ := isSome_iff_exists.mp hq
    rw [hi.ensure_descend_of_some (r := []) rfl (by simpa using hlen) hu, hu]

theorem Inv.links_mapAt (hi : h.Inv depth rootSize size) (hlen : path.length = depth) (i : Nat)
    (tg : Target) : Links h (h.mapAt size path i tg) (· = path) := by
  have hl := hi.links_ensure hlen.le
  constructor
  · intro q
    rw [hi.mapAt_descend_eq hlen]
    exact hl.linked q
  · intro q hq
    rw [hi.mapAt_descend_eq hlen]
    exact hl.kept q hq

theorem Unlinks.of_descend (hd : ∀ q, h'.descend q = if path <+: q then none else h.descend q) :
    Unlinks h h' (· = path) := by
  constructor
  · rintro r q rfl hpre
    rw [hd, if_pos hpre]
  · intro q hq
    rw [hd, if_neg (hq path rfl)]

theorem Unlinks.of_unlinked (hu : Unlinks h h' slots) (hnone : ∀ r, slots r → h.descend r = none) :
    Unlinks h h' fun _ => False := by
  refine ⟨fun _ _ hr => hr.elim, fun q _ => ?_⟩
  by_cases hq : ∃ r, slots r ∧ r <+: q
  · obtain ⟨r, hr, hpre⟩ := hq
    rw [hu.gone r q hr hpre]
    obtain ⟨s, rfl⟩ := hpre
    exact (descend_append_none (hnone r hr) s).symm
  · exact hu.kept q fun r hr hpre => hq ⟨r, hr, hpre⟩

theorem slots_succ (slot : Nat → List Nat) (k n : Nat) (r : List Nat) :
    (r = slot k ∨ ∃ m, k + 1 ≤ m ∧ m < k + 1 + n ∧ r = slot m) ↔ ∃ m, k ≤ m ∧ m < k + (n + 1) ∧ r = slot m := by
  constructor
  · rintro (rfl | ⟨m, hle, hlt, rfl⟩)
    · exact ⟨k, le_refl k, by omega, rfl⟩
    · exact ⟨m, by omega, by omega, rfl⟩
  · rintro ⟨m, hle, hlt, rfl⟩
    rcases Nat.eq_or_lt_of_le hle with rfl | hlt'
    · exact .inl rfl
    · exact .inr ⟨m, hlt', by omega, rfl⟩

theorem not_slots_zero (slot : Nat → List Nat) (k : Nat) (r : List Nat) : ¬ ∃ m, k ≤ m ∧ m < k + 0 ∧ r = slot m := by
  rintro ⟨m, hle, hlt, -⟩
  omega

def Covers (addr size : Nat) (r : List Nat) : Prop :=
  ∃ a : Nat, addr ≤ a ∧ a < addr + size ∧ r = dirs a mode

theorem covers_self (addr : Nat) {size : Nat} (h : 0 < size) :
    Covers mode addr size (dirs addr mode) := ⟨addr, le_refl addr, by omega, rfl⟩

theorem not_covers_zero (addr : Nat) (r : List Nat) : ¬ Covers mode addr 0 r := by
  rintro ⟨a, hle, hlt, -⟩
  omega

/-- Allocating links exactly the slots, and removing what was allocated unlinks exactly them. -/
def TouchesExactly {σ : Type} (tables : σ → PageTables) (allocate remove : σ → Option (σ × Bool))
    (slots : List Nat → Prop) (p : σ) : Prop :=
  ∃ p' b p'' b', allocate p = some (p', b) ∧ Links (tables p) (tables p') slots ∧
    remove p' = some (p'', b') ∧ Unlinks (tables p') (tables p'') slots

end Slots

end PageTables

end Shma.PageTable
