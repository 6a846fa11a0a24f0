import Mathlib.Data.List.Basic

/-!
# Linked tables as a radix tree

Tables live in a store and refer to one another through their entries. A path of
indices leads from a root to a table; the entries of the tables at full depth are
the leaves. The laws say that linking a new table leaves every leaf alone and that
writing one leaf changes no other.
-/
namespace Shma.Lib.Radix

/-- How an entry refers to a table, and which entries may stand in a directory
and in a leaf. `link` makes an entry refer to a table. -/
structure Coding (E : Type*) where
  blank : E
  link : Nat → E → E
  child : E → Option Nat
  (Dir Leaf : E → Prop)
  child_blank : child blank = none
  child_link : ∀ t e, child (link t e) = some t
  dir_blank : Dir blank
  dir_link : ∀ t e, Dir e → Dir (link t e)
  leaf_blank : Leaf blank
  child_leaf : ∀ e, Leaf e → child e = none

/-- Tables by identifier; identifiers from `fresh` on are not in use. -/
@[ext] structure Tables (E : Type*) where
  cell : Nat → Nat → E
  fresh : Nat

variable {E : Type*} (c : Coding E)

namespace Tables

def put (s : Tables E) (t i : Nat) (e : E) : Tables E :=
  { s with cell := Function.update s.cell t (Function.update (s.cell t) i e) }

def grow (s : Tables E) : Tables E :=
  { cell := Function.update s.cell s.fresh fun _ => c.blank, fresh := s.fresh + 1 }

def graft (s : Tables E) (t i : Nat) : Tables E := (s.grow c).put t i (c.link s.fresh (s.cell t i))

/-- The table at the end of a path. -/
def descend (s : Tables E) : Nat → List Nat → Option Nat
  | t, [] => some t
  | t, i :: p => (c.child (s.cell t i)).bind fun u => descend s u p

def missing (s : Tables E) (root : Nat) (path : List Nat) (k : Nat) : Nat :=
  if k ≤ path.length ∧ s.descend c root (path.take k) = none then 1 else 0

/-- The entry `i` of the table at the end of a path, blank if there is none. -/
def slot (s : Tables E) (root : Nat) (p : List Nat) (i : Nat) : E :=
  match s.descend c root p with
  | some t => s.cell t i
  | none => c.blank

variable {c} {s : Tables E} {root : Nat}

theorem put_cell (s : Tables E) (t i : Nat) (e : E) (u j : Nat) :
    (s.put t i e).cell u j = if u = t ∧ j = i then e else s.cell u j := by
  by_cases hu : u = t
  · subst hu
    by_cases hj : j = i
    · subst hj; simp [put]
    · simp [put, hj]
  · simp [put, hu]

theorem graft_cell (s : Tables E) (t i u j : Nat) :
    (s.graft c t i).cell u j =
      if u = t ∧ j = i then c.link s.fresh (s.cell t i) else if u = s.fresh then c.blank else s.cell u j := by
  rw [graft, put_cell]
  by_cases hu : u = s.fresh
  · subst hu; simp [grow]
  · simp [grow, hu]

theorem descend_append (s : Tables E) (t : Nat) (p q : List Nat) :
    s.descend c t (p ++ q) = (s.descend c t p).bind fun u => s.descend c u q := by
  induction p generalizing t with
  | nil => rfl
  | cons i p ih =>
    simp only [List.cons_append, descend, Option.bind_assoc, ih]

theorem descend_concat {t u i : Nat} {p : List Nat} (ht : s.descend c root p = some t)
    (hu : c.child (s.cell t i) = some u) : s.descend c root (p ++ [i]) = some u := by
  simp [descend_append, ht, descend, hu]

/-- Changing an entry without changing its child changes no path. -/
theorem descend_put {t i : Nat} {e : E} (he : c.child e = c.child (s.cell t i)) (u : Nat) (p : List Nat) :
    (s.put t i e).descend c u p = s.descend c u p := by
  induction p generalizing u with
  | nil => rfl
  | cons j p ih =>
    have hchild : c.child ((s.put t i e).cell u j) = c.child (s.cell u j) := by
      rw [put_cell]
      split
      · next h => rw [h.1, h.2, he]
      · rfl
    simp only [descend, hchild, ih]

end Tables

/-- The tables reached from `root` form a tree of the given depth. -/
structure Wf (s : Tables E) (root depth : Nat) : Prop where
  root_lt : root < s.fresh
  lt_fresh : ∀ {p t}, s.descend c root p = some t → t < s.fresh
  inj : ∀ {p q t}, s.descend c root p = some t → s.descend c root q = some t → p = q
  dir : ∀ {p t}, s.descend c root p = some t → p.length < depth → ∀ i, c.Dir (s.cell t i)
  leaf : ∀ {p t}, s.descend c root p = some t → p.length = depth → ∀ i, c.Leaf (s.cell t i)

namespace Wf

open Tables

variable {c} {s : Tables E} {root depth : Nat}

theorem init (c : Coding E) (depth : Nat) : Wf c (⟨fun _ _ => c.blank, 1⟩ : Tables E) 0 depth := by
  have hd : ∀ {p t}, Tables.descend c ⟨fun _ _ => c.blank, 1⟩ 0 p = some t → p = [] ∧ t = 0 := by
    intro p t h
    cases p with
    | nil => exact ⟨rfl, (Option.some.inj h).symm⟩
    | cons i p => simp [descend, c.child_blank] at h
  constructor
  · exact Nat.zero_lt_one
  · intro p t h
    rw [(hd h).2]; exact Nat.zero_lt_one
  · intro p q t hp hq
    rw [(hd hp).1, (hd hq).1]
  · exact fun _ _ _ => c.dir_blank
  · exact fun _ _ _ => c.leaf_blank

variable {p : List Nat}

theorem ne_fresh (h : Wf c s root depth) {t : Nat} (ht : s.descend c root p = some t) :
    t ≠ s.fresh := Nat.ne_of_lt (h.lt_fresh ht)

variable {t i : Nat}

section

variable (h : Wf c s root depth) (ht : s.descend c root p = some t) (hi : c.child (s.cell t i) = none)
include h ht hi

/-- A grafted table is reached by exactly one new path. -/
theorem descend_graft (q : List Nat) :
    (s.graft c t i).descend c root q = if q = p ++ [i] then some s.fresh else s.descend c root q := by
  have hnone : s.descend c root (p ++ [i]) = none := by simp [descend_append, ht, descend, hi]
  -- along any path `r` that exists already
  suffices hgen : ∀ q r u, s.descend c root r = some u → (s.graft c t i).descend c u q =
      if r ++ q = p ++ [i] then some s.fresh else s.descend c u q from hgen q [] root rfl
  intro q
  induction q with
  | nil =>
    intro r u hu
    rw [List.append_nil, if_neg]
    · rfl
    · rintro rfl
      rw [hnone] at hu
      cases hu
  | cons j q ih =>
    intro r u hu
    rw [descend, descend, graft_cell]
    by_cases hcell : u = t ∧ j = i
    · obtain ⟨rfl, rfl⟩ := hcell
      obtain rfl := h.inj hu ht
      rw [if_pos ⟨rfl, rfl⟩, c.child_link, hi]
      have hblank : ∀ k, (s.graft c u j).cell s.fresh k = c.blank := by
        intro k
        rw [graft_cell, if_neg (fun hk => h.ne_fresh hu hk.1.symm), if_pos rfl]
      cases q with
      | nil => simp [descend]
      | cons k q => simp [descend, hblank, c.child_blank]
    · rw [if_neg hcell, if_neg (h.ne_fresh hu)]
      cases hchild : c.child (s.cell u j) with
      | none =>
        rw [Option.bind_none, Option.bind_none, if_neg]
        intro heq
        rcases List.eq_nil_or_concat q with rfl | ⟨q', k, rfl⟩
        · obtain ⟨rfl, hj⟩ := List.append_inj' heq rfl
          obtain rfl : u = t := Option.mem_unique hu ht
          exact hcell ⟨rfl, List.singleton_inj.mp hj⟩
        · -- the path to `t` would pass through the missing entry
          have hp : r ++ j :: q' = p := by
            rw [List.concat_eq_append, ← List.cons_append, ← List.append_assoc] at heq
            exact (List.append_inj' heq rfl).1
          rw [← hp, descend_append, hu, Option.bind_some, descend, hchild] at ht
          cases ht
      | some v =>
        rw [Option.bind_some, ih (r ++ [j]) v (descend_concat hu hchild)]
        simp

theorem graft (hp : p.length < depth) : Wf c (s.graft c t i) root depth := by
  have hd := h.descend_graft ht hi
  have hcases : ∀ {q u}, (s.graft c t i).descend c root q = some u →
      (q = p ++ [i] ∧ u = s.fresh) ∨ s.descend c root q = some u := by
    intro q u hu
    rw [hd] at hu
    split at hu
    · next hq => exact .inl ⟨hq, (Option.some.inj hu).symm⟩
    · exact .inr hu
  have hfresh : ∀ k, (s.graft c t i).cell s.fresh k = c.blank := by
    intro k
    rw [graft_cell, if_neg (fun hk => h.ne_fresh ht hk.1.symm), if_pos rfl]
  have hold : ∀ {q u}, s.descend c root q = some u → ∀ k, ¬ (u = t ∧ k = i) →
      (s.graft c t i).cell u k = s.cell u k := by
    intro q u hu k hk
    rw [graft_cell, if_neg hk, if_neg (h.ne_fresh hu)]
  constructor
  · exact Nat.lt_succ_of_lt h.root_lt
  · intro q u hu
    rcases hcases hu with ⟨_, rfl⟩ | hu
    · exact Nat.lt_succ_self _
    · exact Nat.lt_succ_of_lt (h.lt_fresh hu)
  · intro q q' u hq hq'
    rcases hcases hq with ⟨rfl, rfl⟩ | hq <;> rcases hcases hq' with ⟨rfl, hu⟩ | hq'
    · rfl
    · exact absurd rfl (h.ne_fresh hq')
    · exact absurd hu (h.ne_fresh hq)
    · exact h.inj hq hq'
  · intro q u hu hq k
    rcases hcases hu with ⟨_, rfl⟩ | hu
    · rw [hfresh]; exact c.dir_blank
    · by_cases hk : u = t ∧ k = i
      · rw [graft_cell, if_pos hk]
        exact c.dir_link _ _ (h.dir ht hp i)
      · rw [hold hu k hk]; exact h.dir hu hq k
  · intro q u hu hq k
    rcases hcases hu with ⟨_, rfl⟩ | hu'
    · rw [hfresh]; exact c.leaf_blank
    · have hk : ¬ (u = t ∧ k = i) := by
        rintro ⟨rfl, -⟩
        rw [h.inj hu' ht] at hq
        omega
      rw [hold hu' k hk]; exact h.leaf hu' hq k

theorem slot_graft (hp : p.length < depth) {q : List Nat} (hq : q.length = depth)
    (j : Nat) : (s.graft c t i).slot c root q j = s.slot c root q j := by
  rw [slot, slot, h.descend_graft ht hi]
  by_cases heq : q = p ++ [i]
  · have hnone : s.descend c root (p ++ [i]) = none := by simp [descend_append, ht, descend, hi]
    rw [if_pos heq, heq, hnone]
    show (s.graft c t i).cell s.fresh j = c.blank
    rw [graft_cell, if_neg (fun hk => h.ne_fresh ht hk.1.symm), if_pos rfl]
  · rw [if_neg heq]
    cases hu : s.descend c root q with
    | none => rfl
    | some u =>
      show (s.graft c t i).cell u j = s.cell u j
      have hk : ¬ (u = t ∧ j = i) := by
        rintro ⟨rfl, -⟩
        rw [h.inj hu ht] at hq
        omega
      rw [graft_cell, if_neg hk, if_neg (h.ne_fresh hu)]

end

variable {e : E}

variable (h : Wf c s root depth)
include h

/-- Rewriting an entry without redirecting it keeps the tree, if the entry stays of the kind of its
table. -/
theorem put_of_child (hchild : c.child e = c.child (s.cell t i))
    (hdir : ∀ q, s.descend c root q = some t → q.length < depth → c.Dir e)
    (hleaf : ∀ q, s.descend c root q = some t → q.length = depth → c.Leaf e) :
    Wf c (s.put t i e) root depth := by
  have hd := descend_put hchild
  constructor
  · exact h.root_lt
  · intro q u hu
    rw [hd] at hu
    exact h.lt_fresh hu
  · intro q q' u hq hq'
    rw [hd] at hq hq'
    exact h.inj hq hq'
  · intro q u hu hq j
    rw [hd] at hu
    rw [put_cell]
    split
    · next hk => exact hdir q (hk.1 ▸ hu) hq
    · exact h.dir hu hq j
  · intro q u hu hq j
    rw [hd] at hu
    rw [put_cell]
    split
    · next hk => exact hleaf q (hk.1 ▸ hu) hq
    · exact h.leaf hu hq j

theorem modify (f : E → E) (hchild : ∀ e, c.child (f e) = c.child e)
    (hdir : ∀ e, c.Dir e → c.Dir (f e)) (hleaf : ∀ e, c.Leaf e → c.Leaf (f e)) (t i : Nat) :
    Wf c (s.put t i (f (s.cell t i))) root depth := by
  apply h.put_of_child (hchild (s.cell t i))
  · exact fun q ht hq => hdir _ (h.dir ht hq i)
  · exact fun q ht hq => hleaf _ (h.leaf ht hq i)

omit h in
theorem slot_modify {α : Sort*} (f : E → E) (hchild : ∀ e, c.child (f e) = c.child e) (g : E → α)
    (hg : ∀ e, g (f e) = g e) (t i : Nat) (q : List Nat) (j : Nat) :
    g ((s.put t i (f (s.cell t i))).slot c root q j) = g (s.slot c root q j) := by
  rw [slot, slot, descend_put (hchild (s.cell t i))]
  cases s.descend c root q with
  | none => rfl
  | some u =>
    show g ((s.put t i (f (s.cell t i))).cell u j) = g (s.cell u j)
    rw [put_cell]
    split
    · next hk => rw [hg, hk.1, hk.2]
    · rfl

section

variable {t : Nat} (ht : s.descend c root p = some t) (hp : p.length = depth) (he : c.Leaf e)
  (i : Nat)
include ht hp he

theorem put : Wf c (s.put t i e) root depth := by
  have hchild : c.child e = c.child (s.cell t i) := by
    rw [c.child_leaf e he, c.child_leaf _ (h.leaf ht hp i)]
  apply h.put_of_child hchild
  · intro q hq hlt
    rw [h.inj hq ht] at hlt
    omega
  · exact fun _ _ _ => he

theorem slot_put (q : List Nat) (j : Nat) :
    (s.put t i e).slot c root q j = if q = p ∧ j = i then e else s.slot c root q j := by
  have hchild : c.child e = c.child (s.cell t i) := by
    rw [c.child_leaf e he, c.child_leaf _ (h.leaf ht hp i)]
  rw [slot, slot, descend_put hchild]
  cases hu : s.descend c root q with
  | none =>
    rw [if_neg]
    rintro ⟨rfl, -⟩
    rw [ht] at hu
    cases hu
  | some u =>
    show (s.put t i e).cell u j = _
    rw [put_cell]
    by_cases hq : q = p
    · subst hq
      obtain rfl : u = t := Option.mem_unique hu ht
      simp
    · have hut : ¬ (u = t ∧ j = i) := by
        rintro ⟨rfl, -⟩
        exact hq (h.inj hu ht)
      rw [if_neg hut, if_neg (fun hk => hq hk.1)]

end

end Wf

end Shma.Lib.Radix
