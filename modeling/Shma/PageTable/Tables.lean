import Shma.PageTable.Entry

/-!
# Paging structures as radix trees

Every paging mode keeps its tables as a tree of fixed depth under table 0. The
invariant below is shared by all of them; the operations of the source reduce to
two moves on it, walking a path with creation and writing one leaf.
-/
namespace Shma.PageTable

open Lib

variable (e : BasePDTEntry) (f : Frames)

def BasePDTEntry.child : Option Nat :=
  match e.nextLevelPtr with
  | some (.table t) => some t
  | _ => none

def BasePDTEntry.mapped : Option Target :=
  match e.nextLevelPtr with
  | some (.target t) => some t
  | _ => none

/-- A directory entry is present exactly if it points to a table. -/
def BasePDTEntry.IsDir : Prop :=
  e.mapped = none ∧ e.present = e.child.isSome

/-- A leaf entry is present exactly if it has a target, and `PBUFFER` tells the
target's kind. -/
def BasePDTEntry.IsLeaf : Prop :=
  e.child = none ∧ e.present = e.mapped.isSome ∧ ∀ t, e.mapped = some t → e.pbuffer = t.isBlock

namespace BasePDTEntry

@[simp] theorem child_new : new.child = none := rfl

@[simp] theorem child_setDirty (e : BasePDTEntry) : e.setDirty.child = e.child := rfl

theorem isLeaf_new : new.IsLeaf := ⟨rfl, rfl, fun _ h => by cases h⟩

theorem isLeaf_validate (e : BasePDTEntry) (t : Target) : (e.validate (.target t) t.isBlock).IsLeaf :=
  ⟨rfl, rfl, fun _ h => by cases h; rfl⟩

theorem IsLeaf.nextLevelPtr_eq : ∀ {e : BasePDTEntry}, e.IsLeaf → e.nextLevelPtr = e.mapped.map Ptr.target
  | ⟨_, _, _, none⟩, _ => rfl
  | ⟨_, _, _, some (.table _)⟩, h => by cases h.1
  | ⟨_, _, _, some (.target _)⟩, _ => rfl

theorem IsDir.asTable_eq : ∀ {e : BasePDTEntry}, e.IsDir → PageTables.asTable e.nextLevelPtr = some e.child
  | ⟨_, _, _, none⟩, _ | ⟨_, _, _, some (.table _)⟩, _ => rfl
  | ⟨_, _, _, some (.target _)⟩, h => by cases h.1

end BasePDTEntry

open BasePDTEntry

def coding : Radix.Coding BasePDTEntry where
  blank := .new
  link t e := e.validate (.table t) false
  child := BasePDTEntry.child
  Dir := IsDir
  Leaf := IsLeaf
  child_blank := rfl
  child_link _ _ := rfl
  dir_blank := ⟨rfl, rfl⟩
  dir_link _ _ _ := ⟨rfl, rfl⟩
  leaf_blank := isLeaf_new
  child_leaf _ h := h.1

namespace PageTables

section

variable (h : PageTables) (p : List Nat)

def descend : Option Nat := h.tables.descend coding 0 p

def slot (i : Nat) : BasePDTEntry := h.tables.slot coding 0 p i

def translate (i : Nat) : Option Target := (h.slot p i).mapped

end

def graft (h : PageTables) (t i size : Nat) : PageTables :=
  { tables := h.tables.graft coding t i, mapCount := update h.mapCount h.tables.fresh size }

/-- Walk a path from table `t`, linking new tables where it ends early. -/
def ensure (size : Nat) : PageTables → Nat → List Nat → Nat × PageTables
  | h, t, [] => (t, h)
  | h, t, i :: p =>
    match (h.tables.cell t i).child with
    | some u => ensure size h u p
    | none => ensure size (h.graft t i size) h.tables.fresh p

/-- The tables form a tree of the given depth; the root has `rootSize` entries and
every other table `size`. -/
structure Inv (h : PageTables) (depth rootSize size : Nat) : Prop where
  wf : Radix.Wf coding h.tables 0 depth
  root_count : h.mapCount 0 = rootSize
  count : ∀ t, t ≠ 0 → t < h.tables.fresh → h.mapCount t = size

variable {h : PageTables} {depth rootSize size : Nat}

theorem inv_new (depth rootSize size : Nat) : (PageTables.new rootSize).Inv depth rootSize size := by
  refine ⟨Radix.Wf.init coding depth, rfl, fun t h0 hlt => ?_⟩
  exact absurd (lt_one_iff.mp hlt) h0

theorem translate_new (rootSize : Nat) (p : List Nat) (i : Nat) : (PageTables.new rootSize).translate p i = none := by
  unfold translate slot Radix.Tables.slot
  split
  · rfl
  · rfl

variable {p : List Nat}

theorem ensure_cons_some {t i u : Nat} (hc : (h.tables.cell t i).child = some u) :
    ensure size h t (i :: p) = ensure size h u p := by
  rw [ensure, hc]

theorem ensure_cons_none {t i : Nat} (hc : (h.tables.cell t i).child = none) :
    ensure size h t (i :: p) = ensure size (h.graft t i size) h.tables.fresh p := by
  rw [ensure, hc]

@[simp] theorem graft_fresh (h : PageTables) (t i size : Nat) :
    (h.graft t i size).tables.fresh = h.tables.fresh + 1 := rfl

theorem child_graft_self (h : PageTables) (t i size : Nat) :
    ((h.graft t i size).tables.cell t i).child = some h.tables.fresh := by
  rw [graft, Radix.Tables.graft_cell, if_pos ⟨rfl, rfl⟩]
  rfl

variable {t : Nat}

theorem child_graft_fresh (ht : t ≠ h.tables.fresh) (i size j : Nat) :
    ((h.graft t i size).tables.cell h.tables.fresh j).child = none := by
  rw [graft, Radix.Tables.graft_cell, if_neg (fun hk => ht hk.1.symm), if_pos rfl]
  rfl

theorem slot_eq (ht : h.descend p = some t) (i : Nat) : h.slot p i = h.tables.cell t i := by
  have hd : h.tables.descend coding 0 p = some t := ht
  rw [slot, Radix.Tables.slot, hd]

theorem descend_concat (ht : h.descend p = some t) (i : Nat) : h.descend (p ++ [i]) = (h.tables.cell t i).child := by
  have hd : h.tables.descend coding 0 p = some t := ht
  rw [descend, Radix.Tables.descend_append, hd]
  exact Option.bind_fun_some _

theorem descend_append_none (hd : h.descend p = none) (q : List Nat) : h.descend (p ++ q) = none := by
  have hd' : h.tables.descend coding 0 p = none := hd
  rw [descend, Radix.Tables.descend_append, hd']
  rfl

namespace Inv

variable {p : List Nat}

theorem count_eq (hi : h.Inv depth rootSize size) {t : Nat} (ht : h.descend p = some t) :
    h.mapCount t = if p = [] then rootSize else size := by
  by_cases hp : p = []
  · subst hp
    obtain rfl : 0 = t := some_inj.mp ht
    rw [if_pos rfl, hi.root_count]
  · rw [if_neg hp]
    refine hi.count t ?_ (hi.wf.lt_fresh ht)
    rintro rfl
    exact hp (hi.wf.inj ht rfl)

variable {t i : Nat}

theorem get_eq (hi : h.Inv depth rootSize size) (ht : h.descend p = some t)
    (hb : i < if p = [] then rootSize else size) : h.get t i = some (h.tables.cell t i) := by
  rw [← hi.count_eq ht] at hb
  exact if_pos hb

theorem get_eq_none (hi : h.Inv depth rootSize size) (ht : h.descend p = some t)
    (hb : (if p = [] then rootSize else size) ≤ i) : h.get t i = none := by
  rw [← hi.count_eq ht] at hb
  exact if_neg (Nat.not_lt.mpr hb)

section Dir

variable (hi : h.Inv depth rootSize size) {p : List Nat} {t i : Nat} (ht : h.descend p = some t)
  (hb : i < if p = [] then rootSize else size)
include hi ht hb

theorem nextTable_eq (hp : p.length < depth) : h.nextTable t i = some (h.tables.cell t i).child := by
  rw [nextTable, getNextLevelAddress, hi.get_eq ht hb]
  exact (hi.wf.dir ht hp i).asTable_eq

theorem nextTable_descend (hp : p.length < depth) : h.nextTable t i = some (h.descend (p ++ [i])) := by
  rw [hi.nextTable_eq ht hb hp, descend_concat ht]

omit ht hb in
theorem nextTable_root (hb : i < rootSize) (hd : 0 < depth) : h.nextTable 0 i = some (h.descend [i]) :=
  hi.nextTable_descend (p := []) rfl hb hd

theorem isPresent_eq (hp : p.length < depth) : h.isPresent t i = some (h.tables.cell t i).child.isSome := by
  rw [isPresent, hi.get_eq ht hb, map_some, (hi.wf.dir ht hp i).2]

theorem linkNewTable_eq : h.linkNewTable t i size = some (h.tables.fresh, h.graft t i size) := by
  have hne : t ≠ h.tables.fresh := hi.wf.ne_fresh ht
  have hcount : i < update h.mapCount h.tables.fresh size t := by
    rw [update_of_ne hne, hi.count_eq ht]
    exact hb
  rw [linkNewTable, validateEntry, get, if_pos hcount]
  simp only [map_some, modify, graft, Radix.Tables.graft, Radix.Tables.grow, coding,
    update_of_ne hne]

end Dir

section

variable (hi : h.Inv depth rootSize size) (ht : h.descend p = some t)
include hi ht

theorem graft (hp : p.length < depth) (hc : (h.tables.cell t i).child = none) :
    (h.graft t i size).Inv depth rootSize size := by
  have hroot : (0 : Nat) ≠ h.tables.fresh := Nat.ne_of_lt hi.wf.root_lt
  refine ⟨hi.wf.graft ht hc hp, ?_, ?_⟩
  · exact (update_of_ne hroot _ _).trans hi.root_count
  · intro u h0 hu
    by_cases hf : u = h.tables.fresh
    · rw [hf]; exact update_self _ _ _
    · have hlt : u < h.tables.fresh := by
        have : u < h.tables.fresh + 1 := hu
        omega
      exact (update_of_ne hf _ _).trans (hi.count u h0 hlt)

theorem descend_graft_self (hc : (h.tables.cell t i).child = none) :
    (h.graft t i size).descend (p ++ [i]) = some h.tables.fresh := by
  exact (hi.wf.descend_graft ht hc _).trans (if_pos rfl)

theorem linkNew (hp : p.length < depth) (hc : (h.tables.cell t i).child = none) :
    (h.graft t i size).Inv depth rootSize size ∧
      (h.graft t i size).descend (p ++ [i]) = some h.tables.fresh ∧
      ∀ j, ((h.graft t i size).tables.cell h.tables.fresh j).child = none :=
  ⟨hi.graft ht hp hc, hi.descend_graft_self ht hc, child_graft_fresh (hi.wf.ne_fresh ht) i size⟩

theorem level (hb : i < if p = [] then rootSize else size) (hp : p.length < depth) :
    (∃ u, (h.tables.cell t i).child = some u ∧ h.nextTable t i = some (some u) ∧ h.isPresent t i = some true ∧
      h.descend (p ++ [i]) = some u) ∨
    (h.tables.cell t i).child = none ∧ h.nextTable t i = some none ∧ h.isPresent t i = some false ∧
      h.descend (p ++ [i]) = none ∧ h.linkNewTable t i size = some (h.tables.fresh, h.graft t i size) := by
  have hnext := hi.nextTable_eq ht hb hp
  have hpresent := hi.isPresent_eq ht hb hp
  have hdescend := PageTables.descend_concat ht i
  cases hc : (h.tables.cell t i).child with
  | some u =>
    rw [hc] at hnext hpresent hdescend
    exact .inl ⟨u, rfl, hnext, hpresent, hdescend⟩
  | none =>
    rw [hc] at hnext hpresent hdescend
    exact .inr ⟨rfl, hnext, hpresent, hdescend, hi.linkNewTable_eq ht hb⟩

end

variable {r : List Nat}

/-- Induction along a walk with creation that starts at a linked table: each step goes through an
entry that has a table, or through one that gets a new one. -/
theorem ensure_induction {motive : PageTables → List Nat → Nat → List Nat → Nat × PageTables → Prop}
    (nil : ∀ {h r t}, h.Inv depth rootSize size → h.descend r = some t → motive h r t [] (t, h))
    (found : ∀ {h r t i p u}, h.descend r = some t → (h.tables.cell t i).child = some u →
      motive h (r ++ [i]) u p (ensure size h u p) → motive h r t (i :: p) (ensure size h u p))
    (created : ∀ {h r t i p}, h.Inv depth rootSize size → h.descend r = some t → r.length < depth →
      (r ++ [i]).length + p.length ≤ depth → (h.tables.cell t i).child = none →
      motive (h.graft t i size) (r ++ [i]) h.tables.fresh p
        (ensure size (h.graft t i size) h.tables.fresh p) →
      motive h r t (i :: p) (ensure size (h.graft t i size) h.tables.fresh p))
    (hi : h.Inv depth rootSize size) {t : Nat} (ht : h.descend r = some t)
    (hp : r.length + p.length ≤ depth) : motive h r t p (ensure size h t p) := by
  induction p generalizing h r t with
  | nil => exact nil hi ht
  | cons i p ih =>
    rw [length_cons] at hp
    have hlen : (r ++ [i]).length + p.length ≤ depth := by
      rw [length_append, length_singleton]
      omega
    rw [ensure]
    cases hc : (h.tables.cell t i).child with
    | some u => exact found ht hc (ih hi (Radix.Tables.descend_concat ht hc) hlen)
    | none =>
      have hr : r.length < depth := by omega
      exact created hi ht hr hlen hc (ih (hi.graft ht hr hc) (hi.descend_graft_self ht hc) hlen)

section

variable (hi : h.Inv depth rootSize size)
include hi

theorem ensure_spec (hp : p.length ≤ depth) :
    (ensure size h 0 p).2.Inv depth rootSize size ∧
    (ensure size h 0 p).2.descend p = some (ensure size h 0 p).1 ∧
    ∀ q, q.length = depth → ∀ j, (ensure size h 0 p).2.slot q j = h.slot q j := by
  refine ensure_induction (motive := fun h r _ p res => res.2.Inv depth rootSize size ∧
    res.2.descend (r ++ p) = some res.1 ∧ ∀ q, q.length = depth → ∀ j, res.2.slot q j = h.slot q j) ?_ ?_ ?_ hi
    (r := []) rfl (by simpa using hp)
  · intro h r t hi ht
    rw [append_nil]
    exact ⟨hi, ht, fun _ _ _ => rfl⟩
  · intro h r t i p u _ _ ih
    rwa [append_assoc] at ih
  · rintro h r t i p hi ht hr - hc ⟨hw, hd, hs⟩
    rw [append_assoc] at hd
    exact ⟨hw, hd, fun q hq j => (hs q hq j).trans (hi.wf.slot_graft ht hc hr hq j)⟩

theorem ensure_descend (hp : p.length ≤ depth) (q : List Nat) :
    ((ensure size h 0 p).2.descend q).isSome ↔ (h.descend q).isSome ∨ q <+: p := by
  -- a prefix of a longer path is the path itself or goes on through its first entry
  have hsplit : ∀ (r : List Nat) (i : Nat) (p : List Nat), (∃ p', p' <+: i :: p ∧ q = r ++ p') ↔
      q = r ∨ ∃ p', p' <+: p ∧ q = r ++ [i] ++ p' := by
    intro r i p
    constructor
    · rintro ⟨p', hp', rfl⟩
      rcases List.prefix_cons_iff.mp hp' with rfl | ⟨p'', rfl, hp''⟩
      · exact .inl (append_nil _)
      · exact .inr ⟨p'', hp'', by simp⟩
    · rintro (rfl | ⟨p', hp', rfl⟩)
      · exact ⟨[], List.nil_prefix, (append_nil _).symm⟩
      · exact ⟨i :: p', (List.prefix_cons_inj i).mpr hp', by simp⟩
  have hroot : (∃ p', p' <+: p ∧ q = [] ++ p') ↔ q <+: p := by simp
  rw [← hroot]
  refine ensure_induction (motive := fun h r _ p res => (res.2.descend q).isSome ↔
    (h.descend q).isSome ∨ ∃ p', p' <+: p ∧ q = r ++ p') ?_ ?_ ?_ hi (r := []) rfl (by simpa using hp)
  · intro h r t _ ht
    refine ⟨.inl, fun hq => hq.elim id ?_⟩
    rintro ⟨p', hp', rfl⟩
    rw [List.prefix_nil.mp hp', append_nil, ht]
    rfl
  · intro h r t i p u ht _ ih
    have hr : q = r → (h.descend q).isSome := fun hq => by rw [hq, ht]; rfl
    rw [ih, hsplit]
    constructor
    · exact fun hq => hq.imp_right .inr
    · rintro (hq | hq | hq)
      · exact .inl hq
      · exact .inl (hr hq)
      · exact .inr hq
  · intro h r t i p hi ht _ _ hc ih
    have hr : q = r → (h.descend q).isSome := fun hq => by rw [hq, ht]; rfl
    have hd : (h.graft t i size).descend q = if q = r ++ [i] then some h.tables.fresh else h.descend q :=
      hi.wf.descend_graft ht hc q
    rw [ih, hsplit, hd]
    constructor
    · rintro (hq | hq)
      · split at hq
        · next he => exact .inr (.inr ⟨[], List.nil_prefix, by rw [he, append_nil]⟩)
        · exact .inl hq
      · exact .inr (.inr hq)
    · rintro (hq | hq | hq)
      · left
        split
        · rfl
        · exact hq
      · left
        split
        · rfl
        · exact hr hq
      · exact .inr hq

theorem ensure_descend_of_some {t : Nat}
    (ht : h.descend r = some t) (hp : r.length + p.length ≤ depth) {q : List Nat} {u : Nat}
    (hq : h.descend q = some u) : (ensure size h t p).2.descend q = some u := by
  refine ensure_induction (motive := fun h _ _ _ res => h.descend q = some u → res.2.descend q = some u) ?_ ?_ ?_
    hi ht hp hq
  · exact fun _ _ hq => hq
  · exact fun _ _ ih hq => ih hq
  · intro h r t i p hi ht _ _ hc ih hq
    have hne : q ≠ r ++ [i] := by
      rintro rfl
      rw [PageTables.descend_concat ht, hc] at hq
      cases hq
    exact ih ((hi.wf.descend_graft ht hc q).trans ((if_neg hne).trans hq))

end

section Leaf

variable (hi : h.Inv depth rootSize size) {p : List Nat} {t : Nat} (ht : h.descend p = some t)
include hi ht

theorem isLeaf_cell (hp : p.length = depth) (i : Nat) : (h.tables.cell t i).IsLeaf := hi.wf.leaf ht hp i

theorem modify_leaf (hp : p.length = depth) (i : Nat) (f : BasePDTEntry → BasePDTEntry)
    (hf : (f (h.tables.cell t i)).IsLeaf) :
    (h.modify t i f).Inv depth rootSize size ∧ ∀ q j, (h.modify t i f).slot q j =
      if q = p ∧ j = i then f (h.tables.cell t i) else h.slot q j :=
  ⟨⟨hi.wf.put ht hp hf i, hi.root_count, hi.count⟩, hi.wf.slot_put ht hp hf i⟩

theorem mapLeaf_eq (hp : p.length = depth) {i : Nat} (hb : i < if p = [] then rootSize else size)
    (tg : Target) : h.mapLeaf t i tg tg.isBlock =
      some (h.modify t i fun e => e.validate (.target tg) tg.isBlock,
        if (h.translate p i).isSome then none else some (t, i)) := by
  have hpres : (h.tables.cell t i).present = (h.translate p i).isSome := by
    rw [translate, slot_eq ht]
    exact (hi.isLeaf_cell ht hp i).2.1
  simp [mapLeaf, isValid, validateEntry, hi.get_eq ht hb, hpres]

end Leaf

theorem slot_isLeaf (hi : h.Inv depth rootSize size) (hp : p.length = depth) (i : Nat) : (h.slot p i).IsLeaf := by
  unfold slot Radix.Tables.slot
  split
  · next t ht => exact hi.wf.leaf ht hp i
  · exact isLeaf_new

theorem setDirty (hi : h.Inv depth rootSize size) (t i : Nat) :
    (h.modify t i (·.setDirty)).Inv depth rootSize size ∧
      ∀ q j, (h.modify t i (·.setDirty)).translate q j = h.translate q j :=
  ⟨⟨hi.wf.modify BasePDTEntry.setDirty (fun _ => rfl) (fun _ h => h) (fun _ h => h) t i, hi.root_count, hi.count⟩,
    fun q j => Radix.Wf.slot_modify BasePDTEntry.setDirty (fun _ => rfl) mapped (fun _ => rfl) t i q j⟩

end Inv

def mapAt (size : Nat) (h : PageTables) (p : List Nat) (i : Nat) (tg : Target) : PageTables :=
  (ensure size h 0 p).2.modify (ensure size h 0 p).1 i fun e => e.validate (.target tg) tg.isBlock

def unmapAt (h : PageTables) (p : List Nat) (i : Nat) : PageTables :=
  match h.descend p with
  | none => h
  | some t => if (h.tables.cell t i).present then h.modify t i (·.invalidatePage) else h

variable (hi : h.Inv depth rootSize size)
include hi

/-- The common end of `map_page_table`, once the walk has reached the leaf's table. -/
theorem Inv.mapLeaf_ensure (hp : p.length = depth) {i : Nat}
    (hb : i < if p = [] then rootSize else size) (tg : Target) :
    (ensure size h 0 p).2.mapLeaf (ensure size h 0 p).1 i tg tg.isBlock =
      some (h.mapAt size p i tg,
        if (h.translate p i).isSome then none else some ((ensure size h 0 p).1, i)) := by
  obtain ⟨hw, hd, hs⟩ := hi.ensure_spec hp.le
  have htr : (ensure size h 0 p).2.translate p i = h.translate p i := by
    rw [translate, hs p hp]; rfl
  rw [hw.mapLeaf_eq hd hp hb tg, htr]
  rfl

theorem Inv.invalidatePage_eq {t i : Nat} (ht : h.descend p = some t) (hb : i < if p = [] then rootSize else size) :
    h.invalidatePage t i = some (h.unmapAt p i) := by
  rw [invalidatePage, hi.get_eq ht hb, PageTables.unmapAt, ht]
  rfl

omit hi in
theorem unmapAt_of_descend_none (hd : h.descend p = none) (i : Nat) : h.unmapAt p i = h := by
  rw [unmapAt, hd]

variable (hp : p.length = depth)
include hp

variable (i : Nat) (tg : Target)

theorem Inv.mapAt : (h.mapAt size p i tg).Inv depth rootSize size ∧
      ∀ q j, q.length = depth →
        (h.mapAt size p i tg).translate q j = if q = p ∧ j = i then some tg else h.translate q j := by
  obtain ⟨hw, hd, hs⟩ := hi.ensure_spec hp.le
  obtain ⟨hinv, hslot⟩ := hw.modify_leaf hd hp i (fun e => e.validate (.target tg) tg.isBlock)
    (isLeaf_validate _ tg)
  refine ⟨hinv, fun q j hq => ?_⟩
  rw [translate, PageTables.mapAt, hslot]
  split
  · rfl
  · rw [hs q hq]; rfl

theorem Inv.mapAt_descend_eq (q : List Nat) :
    (h.mapAt size p i tg).descend q = (ensure size h 0 p).2.descend q := by
  obtain ⟨hw, hd, -⟩ := hi.ensure_spec hp.le
  have hchild : (((ensure size h 0 p).2.tables.cell (ensure size h 0 p).1 i).validate
      (.target tg) tg.isBlock).child =
      ((ensure size h 0 p).2.tables.cell (ensure size h 0 p).1 i).child := by
    rw [(hw.isLeaf_cell hd hp i).1]; rfl
  exact Radix.Tables.descend_put hchild 0 q

theorem Inv.mapAt_descend (q : List Nat) :
    ((h.mapAt size p i tg).descend q).isSome ↔ (h.descend q).isSome ∨ q <+: p := by
  rw [hi.mapAt_descend_eq hp, hi.ensure_descend hp.le]

theorem Inv.mapAt_descend_of_some {q : List Nat} (hq : h.descend q = some t) :
    (h.mapAt size p i tg).descend q = some t := by
  rw [hi.mapAt_descend_eq hp]
  exact hi.ensure_descend_of_some (r := []) rfl (by simp [hp]) hq

theorem Inv.mapAt_descend_self : (h.mapAt size p i tg).descend p = some (ensure size h 0 p).1 := by
  rw [hi.mapAt_descend_eq hp]
  exact (hi.ensure_spec hp.le).2.1

theorem Inv.unmapAt_descend (q : List Nat) : (h.unmapAt p i).descend q = h.descend q := by
  unfold PageTables.unmapAt
  split
  · rfl
  · next t ht =>
    split
    · exact Radix.Tables.descend_put (hi.isLeaf_cell ht hp i).1.symm 0 q
    · rfl

theorem Inv.unmapAt :
    (h.unmapAt p i).Inv depth rootSize size ∧
      ∀ q j, (h.unmapAt p i).translate q j = if q = p ∧ j = i then none else h.translate q j := by
  unfold PageTables.unmapAt
  split
  · next hd =>
    refine ⟨hi, fun q j => ?_⟩
    split
    · next he =>
      have hnone : h.tables.descend coding 0 p = none := hd
      rw [he.1, translate, slot, Radix.Tables.slot, hnone]; rfl
    · rfl
  · next t ht =>
    by_cases hpres : (h.tables.cell t i).present = true
    · rw [if_pos hpres]
      obtain ⟨hinv, hslot⟩ := hi.modify_leaf ht hp i (·.invalidatePage) isLeaf_new
      refine ⟨hinv, fun q j => ?_⟩
      rw [translate, hslot]
      split <;> rfl
    · rw [if_neg hpres]
      refine ⟨hi, fun q j => ?_⟩
      split
      · next he =>
        -- an absent leaf has no target
        have hleaf := hi.isLeaf_cell ht hp i
        rw [he.1, he.2, translate, slot_eq ht]
        rw [hleaf.2.1, Bool.not_eq_true, Option.isSome_eq_false_iff, Option.isNone_iff_eq_none] at hpres
        exact hpres
      · rfl

end PageTables

/-- The side answer of a walk, which tells what kind of memory the page is in: the
overlap counter of an NVM page, the dirty flag of a DRAM block. -/
def Target.answer (req : MemReq) : Target → Nat
  | .page n => if req.type = .writeback then req.childId else (f.mem.page n).overlap
  | .block b => if req.type = .setdirty then 1 else (f.block b).dirty.toNat

/-- The descriptors agree but for overlap counters and dirty flags. -/
structure Frames.Agree (f f' : Frames) : Prop where
  next : f'.mem.next = f.mem.next
  nodePageNum : f'.mem.nodePageNum = f.mem.nodePageNum
  block : ∀ b, (f'.block b).used = (f.block b).used ∧
    (f'.block b).originalAddr = (f.block b).originalAddr ∧ (f'.block b).vaddr = (f.block b).vaddr

theorem Frames.Agree.refl : f.Agree f := ⟨rfl, rfl, fun _ => ⟨rfl, rfl, rfl⟩⟩

theorem Frames.Agree.trans {f f' f'' : Frames} (h : f.Agree f') (h' : f'.Agree f'') : f.Agree f'' where
  next := h'.next.trans h.next
  nodePageNum := h'.nodePageNum.trans h.nodePageNum
  block b := ⟨(h'.block b).1.trans (h.block b).1, (h'.block b).2.1.trans (h.block b).2.1,
    (h'.block b).2.2.trans (h.block b).2.2⟩

/-- The walk's result is that of a page mapped to `tr`, and it leaves all
translations alone. -/
structure Walk.Answers (z : Zinfo) (f : Frames) (req : MemReq) (tr : Option Target) (h : PageTables)
    (depth rootSize size : Nat) (w : Walk) : Prop where
  addr : w.addr = (tr.map (Target.ppn z)).getD pageFaultSig
  childId : ∀ tg, tr = some tg → w.req.childId = tg.answer f req
  lineAddr : w.req.lineAddr = req.lineAddr
  inv : w.tables.Inv depth rootSize size
  translate : ∀ q j, w.tables.translate q j = h.translate q j
  frames : f.Agree w.frames
  dirty : ∀ c, (w.frames.block c).dirty = true ↔
    (f.block c).dirty = true ∨ req.type = .setdirty ∧ tr = some (.block c)

def MemReq.SameButCycle (req req' : MemReq) : Prop :=
  req'.type = req.type ∧ req'.childId = req.childId ∧ req'.lineAddr = req.lineAddr

theorem MemReq.sameButCycle_after (z : Zinfo) (req : MemReq) (n : Nat) :
    MemReq.SameButCycle req (req.after z n) := ⟨rfl, rfl, rfl⟩

section Answers

variable {z : Zinfo} {h : PageTables} {f : Frames} {req req' : MemReq} {depth rootSize size : Nat}

theorem PageTables.translate_of_descend_none {p : List Nat} (hd : h.descend p = none) (i : Nat) :
    h.translate p i = none := by
  have hd' : h.tables.descend coding 0 p = none := hd
  rw [translate, slot, Radix.Tables.slot, hd']
  rfl

theorem Walk.answers_fault (hi : h.Inv depth rootSize size) (hs : MemReq.SameButCycle req req') :
    Walk.Answers z f req none h depth rootSize size ⟨pageFaultSig, req', h, f⟩ :=
  ⟨rfl, (fun _ he => by cases he), hs.2.2, hi, fun _ _ => rfl, Frames.Agree.refl f, fun _ => by simp⟩

theorem PageTables.Inv.leaf_reads (hi : h.Inv depth rootSize size) {p : List Nat} {t i : Nat}
    (ht : h.descend p = some t) (hp : p.length = depth) (hb : i < if p = [] then rootSize else size) :
    h.getNextLevelAddress t i = some ((h.translate p i).map Ptr.target) ∧
    ∃ pbuffer, h.pointToBufferTable t i = some pbuffer ∧
      ∀ tg, h.translate p i = some tg → pbuffer = tg.isBlock := by
  have hleaf := hi.isLeaf_cell ht hp i
  have htr : h.translate p i = (h.tables.cell t i).mapped := by rw [translate, slot_eq ht]
  rw [htr]
  refine ⟨?_, _, ?_, hleaf.2.2⟩
  · rw [getNextLevelAddress, hi.get_eq ht hb, map_some, hleaf.nextLevelPtr_eq]
  · rw [pointToBufferTable, hi.get_eq ht hb]; rfl

variable {pgId : Option Nat}

/-- The end of a walk to a leaf with a target answers for it, whichever entry it
marks dirty. -/
theorem finishAccess_answers (hi : h.Inv depth rootSize size) (hs : MemReq.SameButCycle req req')
    (tg : Target) {pgt : Nat} {w : Walk}
    (hw : finishAccess z h f req' pgt (some (.target tg)) pgId tg.isBlock = some w) :
    w.Answers z f req (some tg) h depth rootSize size := by
  obtain ⟨htype, hchild, hl⟩ := hs
  cases tg with
  | page n =>
    cases hw
    refine ⟨rfl, ?_, hl, hi, fun _ _ => rfl, ?_, fun _ => by simp⟩
    · rintro _ ⟨⟩
      by_cases hw : req.type = .writeback
      · simp [Target.answer, htype, hw, hchild, Mmu.MemMap.modify]
      · simp [Target.answer, htype, hw]
    · refine ⟨?_, ?_, fun _ => ⟨rfl, rfl, rfl⟩⟩
      all_goals by_cases hw : req'.type = .writeback <;> simp [hw, Mmu.MemMap.modify]
  | block b =>
    by_cases hd : req.type = .setdirty
    · simp only [finishAccess, getBlockId, Target.isBlock, htype, hd, decide_true, if_true,
        bind_eq_some_iff, map_eq_some_iff] at hw
      obtain ⟨i, -, _, -, rfl⟩ := hw
      obtain ⟨hinv, htr⟩ := hi.setDirty pgt i
      refine ⟨rfl, ?_, hl, hinv, htr, ⟨rfl, rfl, ?_⟩, ?_⟩
      · rintro _ ⟨⟩
        simp [Target.answer, hd]
      · intro c
        by_cases hc : c = b
        · subst hc; simp [DRAMBufferBlock.setDirty]
        · simp [hc]
      · intro c
        by_cases hc : c = b
        · subst hc; simp [DRAMBufferBlock.setDirty, hd]
        · simp [hc, Ne.symm hc]
    · simp only [finishAccess, getBlockId, Target.isBlock, htype, hd, decide_false, Bool.false_eq_true,
        if_false, some_inj] at hw
      obtain rfl := hw
      refine ⟨rfl, ?_, hl, hi, fun _ _ => rfl, Frames.Agree.refl f, fun _ => by simp [hd]⟩
      rintro _ ⟨⟩
      simp [Target.answer, hd]

/-- The entry to be marked dirty must exist for `SETDIRTY` requests to a DRAM block. -/
theorem finishAccess_isSome_iff (hs : MemReq.SameButCycle req req') (tg : Target) {pgt : Nat}
    : (finishAccess z h f req' pgt (some (.target tg)) pgId tg.isBlock).isSome ↔
      (req.type = .setdirty → tg.isBlock → ∃ i, pgId = some i ∧ (h.get pgt i).isSome) := by
  cases tg with
  | page n => simp [finishAccess, getBlockId, Target.isBlock]
  | block b =>
    by_cases hd : req.type = .setdirty
    · cases pgId with
      | none | some i => simp [finishAccess, getBlockId, Target.isBlock, hs.1, hd]
    · simp [finishAccess, getBlockId, Target.isBlock, hs.1, hd]

section WalkLeaf

variable (hi : h.Inv depth rootSize size) (hs : MemReq.SameButCycle req req') {p : List Nat} {t i : Nat}
  (ht : h.descend p = some t) (hp : p.length = depth) (hb : i < if p = [] then rootSize else size)
  {pgt : Nat} {pgId : Option Nat}
include hi hs ht hp hb

theorem walkLeaf_answers {w : Walk} (hw : walkLeaf z h f req' t i pgt pgId = some w) :
    w.Answers z f req (h.translate p i) h depth rootSize size := by
  obtain ⟨hptr, pbuffer, hpb, hkind⟩ := hi.leaf_reads ht hp hb
  cases hc : h.translate p i with
  | none =>
    simp only [walkLeaf, hpb, hptr, hc, Option.map_none, bind_eq_bind, bind_some,
      pure_def, some_inj] at hw
    obtain rfl := hw
    exact Walk.answers_fault hi hs
  | some tg =>
    simp only [walkLeaf, hpb, hptr, hc, hkind tg hc, map_some, bind_eq_bind,
      bind_some] at hw
    exact finishAccess_answers hi hs tg hw

theorem walkLeaf_isSome_iff : (walkLeaf z h f req' t i pgt pgId).isSome ↔
    (req.type = .setdirty → ∀ tg, h.translate p i = some tg → tg.isBlock →
      ∃ j, pgId = some j ∧ (h.get pgt j).isSome) := by
  obtain ⟨hptr, pbuffer, hpb, hkind⟩ := hi.leaf_reads ht hp hb
  cases hc : h.translate p i with
  | none => simp [walkLeaf, hpb, hptr, hc]
  | some tg =>
    have hiff : (finishAccess z h f req' pgt (some (.target tg)) pgId tg.isBlock).isSome ↔ _ :=
      finishAccess_isSome_iff hs tg
    simpa [walkLeaf, hpb, hptr, hc, hkind tg hc] using hiff

/-- With the leaf's own entry as the one to mark dirty, the walk answers every request. -/
theorem walkLeaf_own : ∃ w, walkLeaf z h f req' t i t (some i) = some w ∧
    w.Answers z f req (h.translate p i) h depth rootSize size := by
  have hget : (h.get t i).isSome := by
    rw [hi.get_eq ht hb]
    rfl
  have hsome : (walkLeaf z h f req' t i t (some i)).isSome := by
    rw [walkLeaf_isSome_iff hi hs ht hp hb]
    exact fun _ _ _ _ => ⟨i, rfl, hget⟩
  obtain ⟨w, hw⟩ := isSome_iff_exists.mp hsome
  exact ⟨w, hw, walkLeaf_answers hi hs ht hp hb hw⟩

end WalkLeaf

theorem PageTables.descend_setDirty (h : PageTables) (t i : Nat) (q : List Nat) :
    (h.modify t i (·.setDirty)).descend q = h.descend q :=
  Radix.Tables.descend_put (child_setDirty (h.tables.cell t i)) 0 q

theorem walkLeaf_descend {t i pgt : Nat} {w : Walk}
    (hw : walkLeaf z h f req t i pgt pgId = some w) (q : List Nat) : w.tables.descend q = h.descend q := by
  obtain ⟨pbuffer, -, hw⟩ := bind_eq_some_iff.mp hw
  obtain ⟨ptr, -, hw⟩ := bind_eq_some_iff.mp hw
  cases ptr with
  | none =>
    cases hw
    rfl
  | some ptr =>
    simp only [finishAccess, getBlockId] at hw
    split at hw
    · cases hw
      rfl
    · split at hw
      · obtain ⟨j, -, hw⟩ := bind_eq_some_iff.mp hw
        obtain ⟨_, -, rfl⟩ := map_eq_some_iff.mp hw
        exact h.descend_setDirty pgt j q
      · cases hw
        rfl
    · cases hw
      rfl
    · cases hw

end Answers

end Shma.PageTable
