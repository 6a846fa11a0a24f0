import Mathlib.Data.List.Nodup
import Mathlib.Data.List.Perm.Basic
import Mathlib.Data.List.Range

/-!
# Chains of links and families of lists

`Linked next h as` says that following `next` from `h` visits exactly the cells
of `as` and then stops. The frame rule is `linked_congr`: only the links of the
visited cells matter.

`gather` is the concatenation of lists indexed by `0 .. n-1`. A change at one
index is a change of that list alone: the rest is the same list on both sides.
-/
namespace Shma.Lib.Chain

open Function (update update_of_ne update_self)

variable {α : Type*}

def Linked (next : α → Option α) : Option α → List α → Prop
  | h, [] => h = none
  | h, a :: as => h = some a ∧ Linked next (next a) as

def walk (next : α → Option α) : Nat → Option α → List α
  | 0, _ => []
  | _+1, none => []
  | n+1, some a => a :: walk next n (next a)

variable {next next' : α → Option α} {h : Option α} {as : List α}

@[simp] theorem linked_nil : Linked next h [] ↔ h = none := Iff.rfl

theorem linked_congr (heq : ∀ a ∈ as, next' a = next a) (hl : Linked next h as) : Linked next' h as := by
  induction as generalizing h with
  | nil => exact hl
  | cons a as ih =>
    refine ⟨hl.1, ?_⟩
    rw [heq a List.mem_cons_self]
    exact ih (fun b hb => heq b (List.mem_cons_of_mem a hb)) hl.2

/-- Redirecting the last link appends the chain that starts there. -/
theorem linked_append [DecidableEq α] {a : α} {k : Option α} {bs : List α} (hl : Linked next h (as ++ [a]))
    (hk : Linked next k bs) (hn : (as ++ [a] ++ bs).Nodup) :
    Linked (update next a k) h (as ++ [a] ++ bs) := by
  induction as generalizing h with
  | nil =>
    refine ⟨hl.1, ?_⟩
    rw [update_self]
    refine linked_congr (fun b hb => update_of_ne ?_ _ _) hk
    exact fun he => (List.nodup_cons.mp hn).1 (he ▸ hb)
  | cons c as ih =>
    obtain ⟨hc, hn⟩ := List.nodup_cons.mp hn
    have hca : c ≠ a := fun he => hc (by simp [he])
    refine ⟨hl.1, ?_⟩
    rw [update_of_ne hca]
    exact ih hl.2 hn

theorem linked_concat [DecidableEq α] {a b : α} (hl : Linked next h (as ++ [a]))
    (hn : (as ++ [a]).Nodup) (hb : b ∉ as ++ [a]) :
    Linked (update (update next a (some b)) b none) h (as ++ [a] ++ [b]) := by
  have hab : a ≠ b := fun he => hb (by simp [he])
  have hl' : Linked (update next b none) h (as ++ [a]) :=
    linked_congr (fun c hc => update_of_ne (ne_of_mem_of_not_mem hc hb) _ _) hl
  have hk : Linked (update next b none) (some b) [b] := ⟨rfl, update_self ..⟩
  rw [Function.update_comm hab]
  exact linked_append hl' hk (List.nodup_append'.mpr ⟨hn, List.nodup_singleton b, by simpa using hb⟩)

theorem walk_eq (hl : Linked next h as) {n : Nat} (hn : as.length ≤ n) : walk next n h = as := by
  induction as generalizing h n with
  | nil =>
    obtain rfl := hl
    cases n <;> rfl
  | cons a as ih =>
    obtain ⟨rfl, hl⟩ := hl
    cases n with
    | zero => simp at hn
    | succ n => rw [walk, ih hl (Nat.le_of_succ_le_succ hn)]

end Shma.Lib.Chain

namespace Shma.Lib.Family

variable {α : Type*}

def gather (n : Nat) (f : Nat → List α) : List α := (List.range n).flatMap f

theorem mem_gather {n : Nat} {f : Nat → List α} {x : α} : x ∈ gather n f ↔ ∃ i < n, x ∈ f i := by
  simp [gather]

theorem gather_perm {n i : Nat} (hi : i < n) (f : Nat → List α) :
    (gather n f).Perm (f i ++ ((List.range n).erase i).flatMap f) :=
  (List.perm_cons_erase (List.mem_range.mpr hi)).flatMap_right f

section

variable {n i : Nat} (hi : i < n) {f g : Nat → List α} (h : ∀ j ≠ i, g j = f j)
include hi h

theorem gather_perm_of_ne :
    ∃ rest, (gather n f).Perm (f i ++ rest) ∧ (gather n g).Perm (g i ++ rest) := by
  refine ⟨_, gather_perm hi f, ?_⟩
  have hrest : ((List.range n).erase i).flatMap g = ((List.range n).erase i).flatMap f :=
    List.flatMap_congr fun j hj => h j (List.Nodup.mem_erase_iff List.nodup_range |>.mp hj).1
  rw [← hrest]
  exact gather_perm hi g

theorem length_gather_of_ne :
    (gather n g).length + (f i).length = (gather n f).length + (g i).length := by
  obtain ⟨rest, hf, hg⟩ := gather_perm_of_ne hi h
  rw [hf.length_eq, hg.length_eq, List.length_append, List.length_append]
  omega

end

theorem length_le_gather {n i : Nat} (hi : i < n) (f : Nat → List α) : (f i).length ≤ (gather n f).length := by
  rw [(gather_perm hi f).length_eq, List.length_append]
  omega

theorem perm_interchange (as bs cs ds : List α) : ((as ++ bs) ++ (cs ++ ds)).Perm ((as ++ cs) ++ (bs ++ ds)) := by
  rw [List.append_assoc, List.append_assoc]
  apply List.Perm.append_left
  exact List.perm_append_comm_assoc bs cs ds

end Shma.Lib.Family
