import Shma.Cache.Invalidate

/-!
# What a terminal cache sees of the others

Seen from a terminal cache, the operations of the other caches are invalidations
of some of its lines, at any time and in any order. Each of them takes the
line's filter entry along, or leaves the line's state as it is.
-/
namespace Shma.Cache

variable {t : Topology} {h h' : Hierarchy} {p q : Path} {a : Address} {type : InvType}
  {s s' s'' : CacheState}

variable (t) in
structure LeafInv (type : InvType) (a : Address) (q : Path) (s s' : CacheState) : Prop where
  array : s'.array = s.array
  state : t.stateOf q s' a = type.after (t.stateOf q s a)
  others : ∀ b, b ≠ a → t.stateOf q s' b = t.stateOf q s b
  filter : s'.filterArray = t.clearFilter q a s.filterArray ∨
    ¬ type.Reaches (t.stateOf q s a) ∧ s'.filterArray = s.filterArray

/-- In the filter array, a line that may be written may be read. -/
def WritesReads (f : Nat → FilterEntry) : Prop := ∀ i, (f i).wrAddr = noAddr ∨ (f i).wrAddr = (f i).rdAddr

theorem WritesReads.update {f : Nat → FilterEntry} (hf : WritesReads f) {i : Nat} {e : FilterEntry}
    (he : e.wrAddr = noAddr ∨ e.wrAddr = e.rdAddr) : WritesReads (update f i e) := by
  intro j
  by_cases hj : j = i
  · rw [hj, update_self]
    exact he
  · rw [update_of_ne hj]
    exact hf j

theorem WritesReads.clearFilter {f : Nat → FilterEntry} (hf : WritesReads f) (t : Topology) (p : Path)
    (a : Address) : WritesReads (t.clearFilter p a f) := by
  rw [Topology.clearFilter]
  split
  · exact hf.update (.inl rfl)
  · exact hf

theorem LeafInv.writesReads (hinv : LeafInv t type a q s s') (hs : WritesReads s.filterArray) :
    WritesReads s'.filterArray := by
  rcases hinv.filter with hf | ⟨-, hf⟩
  · rw [hf]
    exact hs.clearFilter t q a
  · rw [hf]
    exact hs

variable (t) in
def Disturbed (q : Path) : CacheState → CacheState → Prop :=
  Relation.ReflTransGen fun s s' => ∃ type a, LeafInv t type a q s s'

namespace Disturbed

theorem refl (s : CacheState) : Disturbed t q s s := Relation.ReflTransGen.refl

theorem of_eq (hs : s' = s) : Disturbed t q s s' := by
  rw [hs]
  exact refl s

theorem trans (hd : Disturbed t q s s') (hd' : Disturbed t q s' s'') : Disturbed t q s s'' :=
  Relation.ReflTransGen.trans hd hd'

theorem keeps {P : CacheState → Prop} (hstep : ∀ s s' type a, LeafInv t type a q s s' → P s → P s')
    (hd : Disturbed t q s s') (hs : P s) : P s' := by
  induction hd with
  | refl => exact hs
  | tail _ hlast ih =>
    obtain ⟨type, a, hinv⟩ := hlast
    exact hstep _ _ type a hinv ih

theorem writesReads (hd : Disturbed t q s s') (hs : WritesReads s.filterArray) : WritesReads s'.filterArray :=
  hd.keeps (fun _ _ _ _ hinv hs => hinv.writesReads hs) hs

end Disturbed

variable (t) in
/-- All terminal caches but `p` have at most received invalidations. -/
def LeavesDisturbed (p : Path) (h h' : Hierarchy) : Prop :=
  ∀ q, t.isTerminal q → q ≠ p → Disturbed t q (h q) (h' q)

namespace LeavesDisturbed

variable {h'' : Hierarchy}

theorem refl (p : Path) (h : Hierarchy) : LeavesDisturbed t p h h := fun q _ _ => .refl (h q)

theorem trans (hd : LeavesDisturbed t p h h') (hd' : LeavesDisturbed t p h' h'') : LeavesDisturbed t p h h'' :=
  fun q hq hqp => (hd q hq hqp).trans (hd' q hq hqp)

theorem of_update (hp : ∀ q, q ≠ p → h' q = h q) : LeavesDisturbed t p h h' :=
  fun q _ hqp => .of_eq (hp q hqp)

theorem of_not_terminal (hp : ¬ t.isTerminal p) (hd : LeavesDisturbed t p h h') (q : Path) : LeavesDisturbed t q h h' :=
  fun r hr _ => hd r hr fun hrp => hp (hrp ▸ hr)

end LeavesDisturbed

theorem OnlyLine.leafInv (ho : OnlyLine t a h h') (hq : t.isTerminal q)
    (hstate : stateAt t h' q a = type.after (stateAt t h q a))
    (hfilter : (h' q).filterArray = filterAfter t type (stateAt t h q a) q a (h q).filterArray) :
    LeafInv t type a q (h q) (h' q) := by
  refine ⟨ho.array q, hstate, fun b hb => ho.stateAt_of_ne hb q, ?_⟩
  rw [hfilter]
  by_cases hr : type.Reaches (stateAt t h q a)
  · exact .inl (if_pos ⟨hq, hr⟩)
  · exact .inr ⟨hr, filterAfter_of_not_reaches hr⟩

theorem Swept.leaves {told : Nat → Prop} (hs : Swept t type p a told h h') : LeavesDisturbed t p h h' := by
  intro q hq hqp
  by_cases hbelow : ∃ c, told c ∧ (c :: p) <:+ q
  · obtain ⟨c, hc, hcq⟩ := hbelow
    exact Relation.ReflTransGen.single ⟨type, a, hs.only.leafInv hq (hs.states c hc q hcq) (hs.filters c hc q hcq)⟩
  · exact .of_eq (hs.outside q hqp fun c hc hcq => hbelow ⟨c, hc, hcq⟩)

end Shma.Cache
