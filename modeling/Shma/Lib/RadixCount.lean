import Mathlib.Data.Set.Card
import Shma.Lib.Radix

/-!
# Unlinking and counting tables

A table is counted at the level of the path that leads to it. Walking a path with creation adds at
most one table to each level. Unlinking a table cuts off what is under it, and takes one table away
if nothing is.
-/
namespace Shma.Lib.Radix

variable {E : Type*} (c : Coding E)

namespace Tables

def prune (s : Tables E) (t i : Nat) : Tables E := s.put t i c.blank

def linked (s : Tables E) (root k : Nat) : Set (List Nat) := {q | q.length = k ∧ (s.descend c root q).isSome}

variable {c} {s s' : Tables E} {root : Nat}

theorem isSome_descend_mono {p q : List Nat} (hp : p <+: q) (hq : (s.descend c root q).isSome) :
    (s.descend c root p).isSome := by
  obtain ⟨r, rfl⟩ := hp
  rw [descend_append, Option.isSome_bind] at hq
  exact Option.isSome_of_any hq

/-- The level of a path gains its table there, unless it has it. -/
theorem encard_linked_add {path : List Nat}
    (h : ∀ q, (s'.descend c root q).isSome ↔ (s.descend c root q).isSome ∨ q <+: path) (k : Nat) :
    (s'.linked c root k).encard = (s.linked c root k).encard + s.missing c root path k := by
  by_cases hk : k ≤ path.length
  · have hset : s'.linked c root k = insert (path.take k) (s.linked c root k) := by
      ext q
      simp only [linked, Set.mem_ofPred_eq, Set.mem_insert_iff, h]
      constructor
      · rintro ⟨hlen, hq | hq⟩
        · exact .inr ⟨hlen, hq⟩
        · rw [← hlen]
          exact .inl (List.prefix_iff_eq_take.mp hq)
      · rintro (rfl | ⟨hlen, hq⟩)
        · exact ⟨List.length_take_of_le hk, .inr (List.take_prefix k path)⟩
        · exact ⟨hlen, .inl hq⟩
    rw [hset, missing]
    by_cases hnone : s.descend c root (path.take k) = none
    · have hnot : path.take k ∉ s.linked c root k := fun hmem => by
        have hsome := hmem.2
        rw [hnone] at hsome
        cases hsome
      rw [if_pos ⟨hk, hnone⟩, Set.encard_insert_of_notMem hnot]
      rfl
    · have hmem : path.take k ∈ s.linked c root k :=
        ⟨List.length_take_of_le hk, Option.isSome_iff_ne_none.mpr hnone⟩
      rw [if_neg fun h => hnone h.2, Set.insert_eq_of_mem hmem]
      exact (add_zero _).symm
  · have hset : s'.linked c root k = s.linked c root k := by
      ext q
      simp only [linked, Set.mem_ofPred_eq, h]
      refine and_congr_right fun hlen => or_iff_left fun hq => hk ?_
      rw [← hlen]
      exact hq.length_le
    rw [hset, missing, if_neg fun h => hk h.1]
    exact (add_zero _).symm

theorem encard_linked_remove {path : List Nat} (hpath : (s.descend c root path).isSome)
    (h : ∀ q, s'.descend c root q = if path <+: q then none else s.descend c root q)
    (hbare : ∀ q, (s.descend c root q).isSome → path <+: q → q = path) (k : Nat) :
    (s'.linked c root k).encard + (if k = path.length then 1 else 0) = (s.linked c root k).encard := by
  have hset : s'.linked c root k = s.linked c root k \ {path} := by
    ext q
    simp only [linked, Set.mem_ofPred_eq, Set.mem_sdiff, Set.mem_singleton_iff, h, and_assoc]
    refine and_congr_right fun _ => ?_
    by_cases hq : path <+: q
    · rw [if_pos hq]
      refine iff_of_false (by simp) fun hboth => hboth.2 (hbare q hboth.1 hq)
    · rw [if_neg hq, iff_self_and]
      rintro - rfl
      exact hq List.prefix_rfl
  rw [hset]
  by_cases hk : k = path.length
  · rw [if_pos hk]
    exact Set.encard_sdiff_singleton_add_one ⟨hk.symm, hpath⟩
  · rw [if_neg hk, add_zero, Set.sdiff_singleton_eq_self fun hmem => hk hmem.1.symm]

end Tables

namespace Wf

open Tables

variable {c} {s : Tables E} {root depth : Nat}

/-- Unlinking cuts off the table and everything under it. -/
theorem descend_prune (h : Wf c s root depth) {p : List Nat} {t : Nat} (ht : s.descend c root p = some t)
    (i : Nat) (q : List Nat) :
    (s.prune c t i).descend c root q = if p ++ [i] <+: q then none else s.descend c root q := by
  -- along any path `r` that does not lead through the entry
  suffices hgen : ∀ q r u, s.descend c root r = some u → ¬ p ++ [i] <+: r →
      (s.prune c t i).descend c u q = if p ++ [i] <+: r ++ q then none else s.descend c u q from
    hgen q [] root rfl (by simp)
  intro q
  induction q with
  | nil =>
    intro r u _ hr
    rw [List.append_nil, if_neg hr]
    rfl
  | cons j q ih =>
    intro r u hu hr
    rw [descend, descend, Tables.prune, put_cell]
    by_cases hcell : u = t ∧ j = i
    · obtain ⟨rfl, rfl⟩ := hcell
      obtain rfl := h.inj hu ht
      rw [if_pos ⟨rfl, rfl⟩, c.child_blank, Option.bind_none, if_pos]
      exact ⟨q, by simp⟩
    · rw [if_neg hcell]
      cases hchild : c.child (s.cell u j) with
      | none => simp
      | some v =>
        have hnext : ¬ p ++ [i] <+: r ++ [j] := by
          intro hpre
          rcases List.prefix_concat_iff.mp hpre with heq | hpre
          · obtain ⟨rfl, hj⟩ := List.append_inj' heq rfl
            obtain rfl : u = t := Option.mem_unique hu ht
            exact hcell ⟨rfl, (List.singleton_inj.mp hj).symm⟩
          · exact hr hpre
        have hih := ih (r ++ [j]) v (descend_concat hu hchild) hnext
        rw [List.append_assoc] at hih
        exact hih

theorem prune (h : Wf c s root depth) {p : List Nat} {t : Nat} (ht : s.descend c root p = some t) (i : Nat) :
    Wf c (s.prune c t i) root depth := by
  have hold : ∀ {q u}, (s.prune c t i).descend c root q = some u → s.descend c root q = some u := by
    intro q u hu
    rw [h.descend_prune ht] at hu
    split at hu
    · cases hu
    · exact hu
  refine ⟨h.root_lt, fun hu => h.lt_fresh (hold hu), fun hq hq' => h.inj (hold hq) (hold hq'), ?_, ?_⟩
  · intro q u hu hq j
    rw [Tables.prune, put_cell]
    split
    · exact c.dir_blank
    · exact h.dir (hold hu) hq j
  · intro q u hu hq j
    rw [Tables.prune, put_cell]
    split
    · exact c.leaf_blank
    · exact h.leaf (hold hu) hq j

end Wf

end Shma.Lib.Radix
