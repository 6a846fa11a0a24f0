import Mathlib.Data.List.Induction
import Shma.Lib.Run
import Shma.PageTable.Domains
import Shma.PageTable.Tables

/-!
# A page table as a finite map

The abstract behaviour every paging class is measured against: a map from virtual
page numbers to targets. The model of the source is the one in the class's own
module; nothing here is translated from it.
-/
namespace Shma.PageTable

open Lib

inductive PagingOp where
  | map (addr : Address) (target : Target)
  | unmap (addr : Address)
  deriving DecidableEq, Repr

def PagingOp.addr : PagingOp → Address
  | .map a _ => a
  | .unmap a => a

def PagingOp.isMap : PagingOp → Bool
  | .map _ _ => true
  | .unmap _ => false

/-- A map from virtual page numbers to targets, with a record, newest first, of
whether the page of each `map` had no target before. -/
@[ext] structure FiniteMap where
  contents : Address → Option Target
  reports : List Bool

namespace FiniteMap

def empty : FiniteMap := { contents := fun _ => none, reports := [] }

def step (shift : Nat) (m : FiniteMap) : PagingOp → FiniteMap
  | .map a t =>
    { contents := update m.contents (a >>> shift) (some t)
      reports := (m.contents (a >>> shift)).isNone :: m.reports }
  | .unmap a => { m with contents := update m.contents (a >>> shift) none }

def after (shift : Nat) (ops : List PagingOp) : FiniteMap := ops.foldl (step shift) empty

theorem after_concat (shift : Nat) (ops : List PagingOp) (op : PagingOp) :
    after shift (ops ++ [op]) = (after shift ops).step shift op := by
  rw [after, List.foldl_append]; rfl

theorem exists_map_of_contents {shift : Nat} {ops : List PagingOp} {v : Address} {tg : Target}
    (h : (after shift ops).contents v = some tg) : ∃ a, PagingOp.map a tg ∈ ops ∧ a >>> shift = v := by
  induction ops using List.reverseRecOn with
  | nil => cases h
  | append_singleton ops op ih =>
    have hold : (after shift ops).contents v = some tg → ∃ a, PagingOp.map a tg ∈ ops ++ [op] ∧ a >>> shift = v :=
      fun h => (ih h).imp fun _ ha => ⟨mem_append_left _ ha.1, ha.2⟩
    rw [after_concat] at h
    cases op with
    | map a t =>
      simp only [step, update_apply] at h
      split at h
      · next hv =>
        cases h
        exact ⟨a, by simp, hv.symm⟩
      · exact hold h
    | unmap a =>
      simp only [step, update_apply] at h
      split at h
      · cases h
      · exact hold h

theorem contents_after_of_unmapped {shift : Nat} {ops : List PagingOp} (h : ∀ op ∈ ops, op.isMap = false)
    (v : Address) : (after shift ops).contents v = none := by
  by_contra hne
  obtain ⟨tg, htg⟩ := ne_none_iff_exists'.mp hne
  obtain ⟨a, ha, -⟩ := exists_map_of_contents htg
  cases h _ ha

end FiniteMap

end Shma.PageTable
