import Shma.Cache.Controllers
import Mathlib.Data.Finset.Card

/-!
# A directory entry and the states it stands for

What the directory entry of a line has to do with the line's state in the cache
itself and in each of its children. This is all a controller knows of its
surroundings, and every assertion of the controllers follows from it.
-/
namespace Shma.Cache

open Finset (mem_filter)

namespace MESIState

def Excl (s : MESIState) : Prop := s = .E ∨ s = .M
  deriving Decidable

def demoted : MESIState → MESIState
  | .E | .M => .S
  | s => s

@[simp] theorem excl_E : Excl .E := .inl rfl
@[simp] theorem excl_M : Excl .M := .inr rfl
@[simp] theorem not_excl_S : ¬ Excl .S := by decide
@[simp] theorem not_excl_I : ¬ Excl .I := by decide

theorem Excl.ne_I {s : MESIState} (h : s.Excl) : s ≠ .I := by
  intro hs
  exact not_excl_I (hs ▸ h)

@[simp] theorem demoted_eq_I (s : MESIState) : s.demoted = .I ↔ s = .I := by cases s <;> decide

@[simp] theorem not_excl_demoted (s : MESIState) : ¬ s.demoted.Excl := by cases s <;> decide

theorem demoted_of_not_excl {s : MESIState} (h : ¬ s.Excl) : s.demoted = s := by
  revert h
  cases s <;> decide

end MESIState

open MESIState

def holders (n : Nat) (s : Nat → MESIState) : Finset Nat := {c ∈ Finset.range n | s c ≠ .I}

/-- The entry `e` of a cache with `n` children that holds the line in state `x`, while the
children hold it in the states `s`. The flag `exclusive` outlives the last sharer. -/
structure Agrees (n : Nat) (e : Entry) (x : MESIState) (s : Nat → MESIState) : Prop where
  bound : ∀ c, s c ≠ .I → c < n
  incl : ∀ c, s c ≠ .I → x ≠ .I
  inclx : ∀ c, (s c).Excl → x.Excl
  sharers : ∀ c, e.sharers c = true ↔ s c ≠ .I
  count : e.numSharers = (holders n s).card
  exclusive : ∀ c, s c ≠ .I → ((s c).Excl ↔ e.exclusive = true)
  alone : e.exclusive = true → e.numSharers ≤ 1

namespace Agrees

variable {n : Nat} {e : Entry} {x x' : MESIState} {s s' : Nat → MESIState} {c : Nat}

variable (h : Agrees n e x s)
include h

theorem mem_holders : c ∈ holders n s ↔ s c ≠ .I := by
  rw [holders, mem_filter, Finset.mem_range]
  exact ⟨fun hc => hc.2, fun hc => ⟨h.bound c hc, hc⟩⟩

theorem single (hc : (s c).Excl) {d : Nat} (hd : d ≠ c) : s d = .I := by
  by_contra hne
  have hle : (holders n s).card ≤ 1 := by
    rw [← h.count]
    exact h.alone ((h.exclusive c hc.ne_I).mp hc)
  exact hd (Finset.card_le_one.mp hle d (h.mem_holders.mpr hne) c (h.mem_holders.mpr hc.ne_I))

theorem children_of_invalid (hx : x = .I) (c : Nat) : s c = .I := by
  by_contra hc
  exact h.incl c hc hx

theorem children_of_not_excl (hx : ¬ x.Excl) (c : Nat) : ¬ (s c).Excl :=
  fun hc => hx (h.inclx c hc)

theorem not_sharer (hc : s c = .I) : e.sharers c = false := by
  rw [← Bool.not_eq_true, h.sharers c]
  exact not_not_intro hc

theorem length_sharers : ((List.range n).filter e.sharers).length = e.numSharers := by
  have hf : (List.range n).filter e.sharers = (List.range n).filter fun c => decide (s c ≠ .I) := by
    refine List.filter_congr fun c _ => ?_
    rw [Bool.eq_iff_iff, h.sharers c, decide_eq_true_iff]
  rw [hf, h.count]
  rfl

theorem isEmpty_iff : e.isEmpty = true ↔ ∀ c, s c = .I := by
  rw [Entry.isEmpty, beq_iff_eq, h.count, Finset.card_eq_zero, Finset.eq_empty_iff_forall_notMem]
  exact forall_congr' fun c => by rw [h.mem_holders, not_not]

theorem isExclusive_iff : e.isExclusive = true ↔ ∃ c, (s c).Excl := by
  rw [Entry.isExclusive, Bool.and_eq_true, beq_iff_eq]
  constructor
  · intro ⟨hone, hexcl⟩
    rw [h.count, Finset.card_eq_one] at hone
    obtain ⟨c, hc⟩ := hone
    have hm : s c ≠ .I := h.mem_holders.mp (hc ▸ Finset.mem_singleton_self c)
    exact ⟨c, (h.exclusive c hm).mpr hexcl⟩
  · intro ⟨c, hc⟩
    have hexcl := (h.exclusive c hc.ne_I).mp hc
    have hpos : 0 < e.numSharers := by
      rw [h.count]
      exact Finset.card_pos.mpr ⟨c, h.mem_holders.mpr hc.ne_I⟩
    exact ⟨Nat.le_antisymm (h.alone hexcl) hpos, hexcl⟩

theorem not_excl_of_not_isExclusive (he : e.isExclusive = false) (c : Nat) : ¬ (s c).Excl := by
  intro hc
  rw [h.isExclusive_iff.mpr ⟨c, hc⟩] at he
  exact Bool.noConfusion he

theorem own (hI : x ≠ .I → x' ≠ .I) (hX : x.Excl → x'.Excl) : Agrees n e x' s :=
  { h with
    incl := fun c hc => hI (h.incl c hc)
    inclx := fun c hc => hX (h.inclx c hc) }

theorem own_of_children_invalid (hs : ∀ c, s c = .I) : Agrees n e x' s :=
  { h with
    incl := fun c hc => absurd (hs c) hc
    inclx := fun c hc => absurd (hs c) hc.ne_I }

omit h in
theorem vacant (hs : ∀ c, s c = .I) (he : ∀ c, e.sharers c = false) (h0 : e.numSharers = 0) : Agrees n e x s where
  bound c hc := absurd (hs c) hc
  incl c hc := absurd (hs c) hc
  inclx c hc := absurd (hs c) hc.ne_I
  sharers c := by simp [he c, hs c]
  count := by
    rw [h0, eq_comm, Finset.card_eq_zero, Finset.eq_empty_iff_forall_notMem]
    intro c hc
    exact (mem_filter.mp hc).2 (hs c)
  exclusive c hc := absurd (hs c) hc
  alone _ := by omega

theorem children (hI : ∀ c, s' c = .I ↔ s c = .I) (hX : ∀ c, (s' c).Excl ↔ (s c).Excl) : Agrees n e x s' where
  bound c hc := h.bound c ((hI c).not.mp hc)
  incl c hc := h.incl c ((hI c).not.mp hc)
  inclx c hc := h.inclx c ((hX c).mp hc)
  sharers c := (h.sharers c).trans (hI c).not.symm
  count := by
    rw [h.count]
    simp only [holders, ne_eq, hI]
  exclusive c hc := (hX c).trans (h.exclusive c ((hI c).not.mp hc))
  alone := h.alone

theorem demote : Agrees n { e with exclusive := false } x fun c => (s c).demoted where
  bound c hc := h.bound c ((demoted_eq_I _).not.mp hc)
  incl c hc := h.incl c ((demoted_eq_I _).not.mp hc)
  inclx c hc := absurd hc (not_excl_demoted _)
  sharers c := (h.sharers c).trans (demoted_eq_I _).not.symm
  count := by
    have hcount := h.count
    simp only [holders, ne_eq, demoted_eq_I] at hcount ⊢
    exact hcount
  exclusive c _ := by simp
  alone he := Bool.noConfusion he

omit h in
theorem holders_update_I : holders n (update s c .I) = (holders n s).erase c := by
  ext d
  simp only [holders, mem_filter, Finset.mem_range, Finset.mem_erase]
  by_cases hd : d = c
  · subst hd
    simp
  · simp [hd]

theorem drop (hc : s c ≠ .I) : Agrees n (e.drop c) x (update s c .I) where
  bound d hd := by
    by_cases hdc : d = c
    · exact h.bound d (hdc ▸ hc)
    · exact h.bound d (by rwa [update_of_ne hdc] at hd)
  incl d hd := by
    by_cases hdc : d = c
    · exact h.incl d (hdc ▸ hc)
    · exact h.incl d (by rwa [update_of_ne hdc] at hd)
  inclx d hd := by
    by_cases hdc : d = c
    · rw [hdc, update_self] at hd
      exact absurd hd not_excl_I
    · exact h.inclx d (by rwa [update_of_ne hdc] at hd)
  sharers d := by
    by_cases hdc : d = c
    · simp [Entry.drop, hdc]
    · simpa [Entry.drop, update_of_ne hdc] using h.sharers d
  count := by
    rw [holders_update_I, Finset.card_erase_of_mem (h.mem_holders.mpr hc), ← h.count]
    rfl
  exclusive d hd := by
    by_cases hdc : d = c
    · rw [hdc, update_self] at hd
      exact absurd rfl hd
    · rw [update_of_ne hdc] at hd ⊢
      exact h.exclusive d hd
  alone he := by
    have := h.alone he
    show e.numSharers - 1 ≤ 1
    omega

omit h in
/-- The one sharer of a line that is given exclusively. -/
theorem sole (hc : c < n) (hx : x.Excl) (hs : ∀ d, d ≠ c → s d = .I) (hsc : (s c).Excl)
    (he : ∀ d, e.sharers d = true ↔ d = c) (h1 : e.numSharers = 1) (hexcl : e.exclusive = true) :
    Agrees n e x s := by
  have hiff : ∀ d, s d ≠ .I ↔ d = c := by
    intro d
    constructor
    · intro hd
      by_contra hdc
      exact hd (hs d hdc)
    · intro hd
      exact hd ▸ hsc.ne_I
  refine ⟨fun d hd => ?_, fun _ _ => hx.ne_I, fun _ _ => hx, fun d => (he d).trans (hiff d).symm, ?_,
    fun d hd => ?_, fun _ => h1.le⟩
  · rwa [(hiff d).mp hd]
  · rw [h1, eq_comm, Finset.card_eq_one]
    refine ⟨c, ?_⟩
    ext d
    rw [holders, mem_filter, Finset.mem_range, Finset.mem_singleton, hiff]
    exact ⟨fun hd => hd.2, fun hd => ⟨hd ▸ hc, hd⟩⟩
  · rw [(hiff d).mp hd]
    exact iff_of_true hsc hexcl

theorem share (hc : c < n) (hx : x ≠ .I) (hsc : s c = .I) (hs : ∀ d, ¬ (s d).Excl) :
    Agrees n { e.add c with exclusive := false } x (update s c .S) := by
  have hne : ∀ d, update s c .S d ≠ .I ↔ d = c ∨ s d ≠ .I := by
    intro d
    by_cases hdc : d = c
    · simp [hdc]
    · simp [hdc]
  have hnx : ∀ d, ¬ (update s c .S d).Excl := by
    intro d
    by_cases hdc : d = c
    · rw [hdc, update_self]
      exact not_excl_S
    · rw [update_of_ne hdc]
      exact hs d
  refine ⟨fun d hd => ?_, fun _ _ => hx, fun d hd => absurd hd (hnx d), fun d => ?_, ?_,
    fun d _ => iff_of_false (hnx d) Bool.noConfusion, Bool.noConfusion⟩
  · rcases (hne d).mp hd with rfl | hd
    · exact hc
    · exact h.bound d hd
  · by_cases hdc : d = c
    · simp [Entry.add, hdc]
    · simpa [Entry.add, update_of_ne hdc, hdc] using h.sharers d
  · have heq : holders n (update s c .S) = insert c (holders n s) := by
      ext d
      rw [holders, mem_filter, Finset.mem_insert, h.mem_holders, hne, Finset.mem_range]
      constructor
      · exact fun hd => hd.2
      · intro hd
        rcases hd with rfl | hd
        · exact ⟨hc, .inl rfl⟩
        · exact ⟨h.bound d hd, .inr hd⟩
    rw [heq, Finset.card_insert_of_notMem (fun hm => h.mem_holders.mp hm hsc), ← h.count]
    rfl

end Agrees

end Shma.Cache
