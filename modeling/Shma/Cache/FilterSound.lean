import Shma.Cache.Runs

/-!
# The filter array of a terminal cache

The filter array answers loads and stores without asking the cache. What it
answers should be what the cache holds. The rest of the hierarchy is left open
here: it may invalidate lines of the cache whenever it is asked for something,
and then gives or takes the line it was asked for.
-/
namespace Shma.Cache

open Lib.Run MESIState
open MESIBottomCC (fetch processGetx processInval processType writeBack)
open FilterCache (clflush clflushAll contextSwitch entry load store)

variable {t : Topology} {h h' : Hierarchy} {p : Path} {a b : Address} {id : Nat} {s s' : CacheState}
  {type : InvType}

/-! ### What the entries of the filter array say -/

variable (t) in
/-- The entry of line `a` may be believed. The addresses 0 and `-1` also stand for no line: 0
in an entry that was cleared, `-1` in one that was invalidated or only read. -/
def Believed (p : Path) (s : CacheState) (a : Address) : Prop :=
  a ≠ noAddr ∧ (a = 0 → s.filterArray (t.filterIdx p 0) ≠ .clear)
  deriving Decidable

variable (t) in
def Faithful (p : Path) (s : CacheState) (a : Address) : Prop :=
  ((s.filterArray (t.filterIdx p a)).rdAddr = a → t.stateOf p s a ≠ .I) ∧
    ((s.filterArray (t.filterIdx p a)).wrAddr = a → t.stateOf p s a = .M)

variable (t) in
structure SoundOn (p : Path) (lines : Address → Prop) (s : CacheState) : Prop where
  shape : WritesReads s.filterArray
  faithful : ∀ a, lines a → Believed t p s a → Faithful t p s a

namespace SoundOn

variable {lines : Address → Prop}

section

variable (hs : SoundOn t p lines s)
include hs

theorem faithful_congr (ha : lines a) (hstate : t.stateOf p s' a = t.stateOf p s a)
    (hentry : s'.filterArray (t.filterIdx p a) = s.filterArray (t.filterIdx p a)) (hb : Believed t p s' a) :
    Faithful t p s' a := by
  have hb' : Believed t p s a := by
    refine ⟨hb.1, fun h0 => ?_⟩
    have hne := hb.2 h0
    rw [h0] at hentry
    rwa [hentry] at hne
  rw [Faithful, hentry, hstate]
  exact hs.faithful a ha hb'

theorem leafInv (hinv : LeafInv t type b p s s') : SoundOn t p lines s' := by
  constructor
  · exact hinv.writesReads hs.shape
  · intro a ha hbel
    rcases hinv.filter with hf | ⟨hnot, hf⟩
    · rw [Topology.clearFilter] at hf
      split at hf
      · by_cases hidx : t.filterIdx p a = t.filterIdx p b
        · -- the entry was dropped
          have hentry : s'.filterArray (t.filterIdx p a) =
              { s.filterArray (t.filterIdx p b) with wrAddr := noAddr, rdAddr := noAddr } := by
            rw [hf, hidx, update_self]
          rw [Faithful, hentry]
          exact ⟨fun h => absurd h.symm hbel.1, fun h => absurd h.symm hbel.1⟩
        · have hne : a ≠ b := fun hab => hidx (by rw [hab])
          apply hs.faithful_congr ha (hinv.others a hne) _ hbel
          rw [hf, update_of_ne hidx]
      · next hrd =>
        by_cases hab : a = b
        · -- neither read nor written through the filter
          subst hab
          rw [Faithful, hf]
          refine ⟨fun h => absurd h hrd, fun h => ?_⟩
          rcases hs.shape (t.filterIdx p a) with hw | hw
          · exact absurd (h.symm.trans hw) hbel.1
          · exact absurd (hw.symm.trans h) hrd
        · exact hs.faithful_congr ha (hinv.others a hab) (by rw [hf]) hbel
    · apply hs.faithful_congr ha _ (by rw [hf]) hbel
      by_cases hab : a = b
      · rw [hab, hinv.state, InvType.after_of_not_reaches hnot]
      · exact hinv.others a hab

theorem disturbed (hd : Disturbed t p s s') : SoundOn t p lines s' :=
  hd.keeps (fun _ _ _ _ hinv hs => hs.leafInv hinv) hs

theorem of_states (hf : s'.filterArray = s.filterArray)
    (hstate : ∀ a, lines a → t.stateOf p s' a = t.stateOf p s a) : SoundOn t p lines s' where
  shape := by
    rw [hf]
    exact hs.shape
  faithful a ha hb := hs.faithful_congr ha (hstate a ha) (by rw [hf]) hb

end

theorem new : SoundOn t p lines CacheState.new where
  shape _ := .inr rfl
  faithful a _ hb := by
    have hz : a ≠ 0 := fun h0 => hb.2 h0 rfl
    exact ⟨fun h => absurd h.symm hz, fun h => absurd h.symm hz⟩

end SoundOn

/-! ### An access in an open hierarchy -/

variable (t) in
def Sets (p : Path) : Prop := ∀ a b id, id ∈ t.ways p a → id ∈ t.ways p b → t.filterIdx p a = t.filterIdx p b

variable (t) in
/-- The cache at `p` before and after some invalidations, and some writes of the state of
line id `id`. -/
def Handled (p : Path) (id : Nat) : CacheState → CacheState → Prop :=
  Relation.ReflTransGen fun s s' =>
    (∃ type a, LeafInv t type a p s s') ∨ ∃ x, s' = { s with bcc := update s.bcc id x }

variable (t) in
/-- The parent does nothing to the cache at `p` but invalidate lines of it and write the state of
the line id it was asked about. -/
def Serves (p : Path) (up : Upper) : Prop :=
  ∀ req id h r h', req.state = .line p id → up req h = some (r, h') → Handled t p id (h p) (h' p) ∧
    (req.type = .gets → (h' p).bcc id ≠ .I) ∧ (req.type = .getx → (h' p).bcc id = .M)

variable (t) in
def Elsewhere (p : Path) (a b : Address) : Prop := t.filterIdx p b ≠ t.filterIdx p a

namespace Elsewhere

section

variable (hb : Elsewhere t p a b) (hsets : Sets t p) (hid : id ∈ t.ways p a)
include hb hsets hid

theorem lookup_ne {array : Nat → Address} : t.lookup p array b ≠ some id := by
  intro hl
  exact hb (hsets b a id (List.mem_of_find?_eq_some hl) hid)

theorem stateOf_write (x : MESIState) : t.stateOf p { s with bcc := update s.bcc id x } b = t.stateOf p s b := by
  have hne : t.lookup p s.array b ≠ some id := hb.lookup_ne hsets hid
  rw [Topology.stateOf, Topology.stateOf]
  cases hl : t.lookup p s.array b with
  | none => rfl
  | some id' =>
    have hid' : id' ≠ id := fun h => hne (hl.trans (by rw [h]))
    exact update_of_ne hid' x s.bcc

theorem stateOf_insert : t.stateOf p { s with array := update s.array id a } b = t.stateOf p s b := by
  have hba : b ≠ a := fun h => hb (by rw [h])
  have hne : t.lookup p s.array b ≠ some id := hb.lookup_ne hsets hid
  rw [Topology.stateOf, Topology.stateOf]
  cases hl : t.lookup p s.array b with
  | none => rw [lookup_insert_of_none hba hl]
  | some id' =>
    have hid' : id' ≠ id := fun h => hne (hl.trans (by rw [h]))
    rw [lookup_insert_of_some hba hl hid']

end

end Elsewhere

namespace Handled

theorem refl (s : CacheState) : Handled t p id s s := Relation.ReflTransGen.refl

theorem setState (h : Hierarchy) (x : MESIState) : Handled t p id (h p) (h.setState p id x p) := by
  apply Relation.ReflTransGen.single
  right
  exact ⟨x, update_self p _ h⟩

theorem of_disturbed (hd : Disturbed t p s s') : Handled t p id s s' := by
  induction hd with
  | refl => exact refl _
  | tail _ hlast ih => exact Relation.ReflTransGen.tail ih (.inl hlast)

theorem array (hh : Handled t p id s s') : s'.array = s.array := by
  induction hh with
  | refl => rfl
  | tail _ hlast ih =>
    rcases hlast with ⟨type, a, hinv⟩ | ⟨x, hx⟩
    · exact hinv.array.trans ih
    · rw [hx]
      exact ih

/-- Lines of other sets are only invalidated. -/
theorem sound (hh : Handled t p id s s') (hsets : Sets t p) (hid : id ∈ t.ways p a)
    (hs : SoundOn t p (Elsewhere t p a) s) : SoundOn t p (Elsewhere t p a) s' := by
  induction hh with
  | refl => exact hs
  | tail _ hlast ih =>
    rcases hlast with ⟨type, a, hinv⟩ | ⟨x, hx⟩
    · exact ih.leafInv hinv
    · rw [hx]
      exact ih.of_states rfl fun b hb => hb.stateOf_write hsets hid x

end Handled

section Access

variable {up : Upper} {r cycle : Nat}

theorem eviction_handled (hup : Serves t p up) {w : Address}
    (hev : MESIBottomCC.processEviction up p w id false cycle h = some (r, h')) : Handled t p id (h p) (h' p) := by
  obtain ⟨h1, hh1, hev⟩ := bind_eq_some_iff.mp hev
  obtain rfl : h = h1 := some_inj.mp hh1
  obtain ⟨res, hres, hev⟩ := bind_eq_some_iff.mp hev
  obtain ⟨-, -, rfl⟩ := map_eq_some_iff.mp hev
  rw [writeBack] at hres
  split at hres
  · cases hres
    exact .refl _
  all_goals exact (hup _ id h r h' rfl hres).1

variable {victim : Path → Nat}

variable {type : AccessType}

theorem findLine_sound (hleaf : t.isTerminal p) (hsets : Sets t p) (hup : Serves t p up)
    (hv : victim p ∈ t.ways p a) (hs : SoundOn t p (Elsewhere t p a) (h p))
    (hf : findLine t victim up p a type cycle h = some (id, h')) :
    t.lookup p (h' p).array a = some id ∧ SoundOn t p (Elsewhere t p a) (h' p) := by
  rw [findLine] at hf
  cases hl : t.lookup p (h p).array a with
  | some id0 =>
    rw [hl] at hf
    cases hf
    exact ⟨hl, hs⟩
  | none =>
    rw [hl] at hf
    obtain ⟨-, -, hf⟩ := bind_eq_some_iff.mp hf
    obtain ⟨⟨r, h1⟩, hev, hf⟩ := map_eq_some_iff.mp hf
    cases hf
    rw [processEviction, if_pos hleaf] at hev
    have hh := eviction_handled hup hev
    have hs1 := hh.sound hsets hv hs
    have htag : h1.setTag p (victim p) a p =
        { h1 p with array := update (h1 p).array (victim p) a } := update_self p _ h1
    constructor
    · rw [setTag_array_self]
      apply lookup_insert_self hv
      rwa [hh.array]
    · rw [htag]
      exact hs1.of_states rfl fun b hb => hb.stateOf_insert hsets hv

variable {flags : Flags}

theorem fetch_handled (hup : Serves t p up)
    (hf : fetch t up p a id type cycle flags h = some (r, h')) :
    Handled t p id (h p) (h' p) ∧ (type = .gets → (h' p).bcc id ≠ .I) := by
  obtain ⟨⟨r1, h1⟩, hreq, hres⟩ := map_eq_some_iff.mp hf
  cases hres
  obtain ⟨hh, hgets, -⟩ := hup _ id h r1 h1 rfl hreq
  exact ⟨hh, hgets⟩

theorem processGetx_handled (hup : Serves t p up)
    (hg : processGetx t up p a id cycle flags h = some (r, h')) : Handled t p id (h p) (h' p) := by
  have hfetch : ((fetch t up p a id .getx cycle flags h).map fun r => (r.1, r.2.setState p id .M)) =
      some (r, h') → Handled t p id (h p) (h' p) := by
    intro hm
    obtain ⟨⟨r1, h1⟩, hf, hres⟩ := map_eq_some_iff.mp hm
    cases hres
    exact Relation.ReflTransGen.trans (fetch_handled hup hf).1 (Handled.setState h1 .M)
  rw [processGetx] at hg
  split at hg
  · exact hfetch hg
  · exact hfetch hg
  · cases hg
    exact .setState h .M
  · cases hg
    exact .refl _

theorem processAccess_handled (hup : Serves t p up) (htype : type = .gets ∨ type = .getx)
    (hp : MESIBottomCC.processAccess t up p a id type cycle flags h = some (r, h')) :
    Handled t p id (h p) (h' p) ∧ Answers type ((h' p).bcc id) := by
  obtain ⟨⟨r1, h1⟩, htype1, hres⟩ := bind_eq_some_iff.mp hp
  obtain ⟨-, -, hres1⟩ := map_eq_some_iff.mp hres
  obtain rfl : h1 = h' := (Prod.mk.inj hres1).2
  rcases htype with rfl | rfl
  · rw [processType] at htype1
    split at htype1
    · obtain ⟨hh, hne⟩ := fetch_handled hup htype1
      exact ⟨hh, .inl ⟨rfl, hne rfl⟩⟩
    · next hne =>
      obtain rfl : h = h1 := (Prod.mk.inj (some_inj.mp htype1)).2
      exact ⟨.refl _, .inl ⟨rfl, hne⟩⟩
  · obtain ⟨⟨r2, h2⟩, hg, hres2⟩ := bind_eq_some_iff.mp htype1
    obtain ⟨_, hM, hres3⟩ := map_eq_some_iff.mp hres2
    obtain rfl : h2 = h1 := (Prod.mk.inj hres3).2
    refine ⟨processGetx_handled hup hg, .inr ⟨rfl, ?_⟩⟩
    by_contra hne
    rw [assertThat_false hne] at hM
    cases hM

section

variable (hleaf : t.isTerminal p) (hsets : Sets t p) (hup : Serves t p up) (hv : victim p ∈ t.ways p a)
include hleaf hsets hup hv

/-- An access of the terminal cache: the line is there as asked, and lines of other sets are only
invalidated. -/
theorem cacheAccess_sound {type : AccessType} (htype : type = .gets ∨ type = .getx)
    (hs : SoundOn t p (Elsewhere t p a) (h p))
    (ha : cacheAccess t victim p up (coreRequest a type cycle flags) h = some (r, h')) :
    SoundOn t p (Elsewhere t p a) (h' p) ∧ Answers type (stateAt t h' p a) := by
  rw [cacheAccess_eq (startAccess_coreRequest hleaf htype)] at ha
  obtain ⟨⟨r2, h2⟩, hbind, hres⟩ := bind_eq_some_iff.mp ha
  obtain ⟨-, -, hres2⟩ := map_eq_some_iff.mp hres
  obtain rfl : h2 = h' := (Prod.mk.inj hres2).2
  obtain ⟨⟨id, h1⟩, hfind, hproc⟩ := bind_eq_some_iff.mp hbind
  obtain ⟨hl, hs1⟩ := findLine_sound hleaf hsets hup hv hs hfind
  rw [processAccess, if_pos hleaf] at hproc
  obtain ⟨hh, hans⟩ := processAccess_handled hup htype hproc
  have hl2 : t.lookup p (h2 p).array a = some id := by rwa [hh.array]
  rw [stateAt_of_lookup hl2]
  exact ⟨hh.sound hsets (List.mem_of_find?_eq_some hl) hs1, hans⟩

theorem replace_sound {isLoad : Bool} (hs : SoundOn t p (fun _ => True) (h p))
    (hr : FilterCache.replace t victim up p a isLoad cycle flags h = some (r, h')) :
    SoundOn t p (fun _ => True) (h' p) := by
  obtain ⟨⟨r1, h1⟩, hacc, hres⟩ := map_eq_some_iff.mp hr
  cases hres
  have hoff : SoundOn t p (Elsewhere t p a) (h p) := ⟨hs.shape, fun b _ hb => hs.faithful b trivial hb⟩
  obtain ⟨hs1, hans⟩ := cacheAccess_sound hleaf hsets hup hv (gets_or_getx isLoad) hoff hacc
  constructor
  · rw [setFilter_filterArray_self]
    apply hs1.shape.update
    cases isLoad
    · exact .inr rfl
    · exact .inl rfl
  · intro b _ hb
    by_cases hidx : t.filterIdx p b = t.filterIdx p a
    · -- the entry is that of the line just accessed
      rw [Faithful, setFilter_filterArray_self, hidx, update_self]
      constructor
      · intro hrd
        obtain rfl : a = b := hrd
        exact fun hI => hans.ne_I ((stateAt_setFilter _ p).symm.trans hI)
      · intro hwr
        cases isLoad with
        | true => exact absurd (show noAddr = b from hwr).symm hb.1
        | false =>
          obtain rfl : a = b := hwr
          rcases hans with ⟨hgets, -⟩ | ⟨-, hM⟩
          · exact absurd hgets (by decide)
          · exact (stateAt_setFilter _ p).trans hM
    · apply hs1.faithful_congr hidx (stateAt_setFilter _ p) _ hb
      rw [setFilter_filterArray_self, update_of_ne hidx]

end

end Access

/-! ### Runs -/

/-- What the rest of the hierarchy does to the cache while it serves a request: it invalidates
lines of it, and answers. -/
structure Reply where
  invs : List (Address × InvType)
  shared : Bool
  cycle : Nat

def disturb (t : Topology) (p : Path) : List (Address × InvType) → Hierarchy → Option Hierarchy
  | [], h => some h
  | (a, type) :: rest, h => (invalidate t p a type false 0 h).bind fun r => disturb t p rest r.caches

def Reply.state (reply : Reply) : AccessType → MESIState
  | .gets => if reply.shared then .S else .E
  | .getx => .M
  | _ => .I

theorem Reply.state_gets (reply : Reply) : reply.state .gets ≠ .I := by
  rw [Reply.state]
  split <;> decide

/-- A parent that gives the one reply to a PUT and the other to a GET. -/
def surroundings (t : Topology) (p : Path) (put get : Reply) : Upper := fun req h =>
  let reply := if req.type = .gets ∨ req.type = .getx then get else put
  (disturb t p reply.invs h).map fun h => (reply.cycle, h.write req.state (reply.state req.type))

theorem processInval_some {wb wb' : Bool} (hr : processInval p id type wb h = some (wb', h')) :
    h' = h.setState p id (type.after ((h p).bcc id)) := by
  unfold processInval at hr
  by_cases hI : (h p).bcc id = .I
  · rw [if_pos hI] at hr
    cases hr
    rw [hI, InvType.after_I, ← hI, setState_same]
  · rw [if_neg hI] at hr
    cases type with
    | inv => exact (Prod.mk.inj (some_inj.mp hr)).2.symm
    | invx =>
      obtain ⟨_, hx, hres⟩ := map_eq_some_iff.mp hr
      rw [← (Prod.mk.inj hres).2]
      have hdem : (InvType.after .invx ((h p).bcc id)) = .S := by
        by_contra hne
        rw [assertThat_false] at hx
        · cases hx
        · intro hor
          rcases hor with hor | hor <;> exact hne (by rw [hor]; rfl)
      rw [hdem]
    | fwd =>
      obtain ⟨-, -, hres⟩ := map_eq_some_iff.mp hr
      cases hres
      exact (setState_same h p id).symm

theorem invalidate_eq (t : Topology) (p : Path) : ∃ down, invalidate t p = cacheInvalidate t down p := by
  rw [invalidate]
  cases t.depth - p.length with
  | zero | succ n => exact ⟨_, rfl⟩

theorem invalidate_leafInv (hleaf : t.isTerminal p) {wb : Bool} {cycle : Nat} {r : InvReply}
    (hr : invalidate t p a type wb cycle h = some r) : LeafInv t type a p (h p) (r.caches p) := by
  obtain ⟨down, hdown⟩ := invalidate_eq t p
  rw [hdown] at hr
  simp only [cacheInvalidate, if_pos hleaf, setFilter_array] at hr
  cases hl : t.lookup p (h p).array a with
  | none =>
    rw [hl] at hr
    cases hr
    refine ⟨setFilter_array _ _ _ _, ?_, fun b _ => stateAt_setFilter _ p, .inl (setFilter_filterArray_self _ _ _)⟩
    have hI : stateAt t h p a = .I := stateAt_of_none hl
    exact (stateAt_setFilter _ p).trans (by rw [show t.stateOf p (h p) a = .I from hI, hI, InvType.after_I])
  | some id =>
    rw [hl] at hr
    simp only [processInv, if_pos hleaf] at hr
    obtain ⟨⟨wb', h1⟩, hinv, rfl⟩ := map_eq_some_iff.mp hr
    have hl0 : t.lookup p (h.setFilter p (t.clearFilter p a (h p).filterArray) p).array a = some id := by
      rwa [setFilter_array]
    obtain rfl := processInval_some hinv
    refine ⟨by simp, ?_, fun b hb => ?_, .inl (by simp)⟩
    · refine (stateAt_setState hl0 p).trans ?_
      rw [if_pos rfl, setFilter_bcc, ← stateAt_of_lookup hl]
      rfl
    · exact ((OnlyLine.setState hl0 _).stateAt_of_ne hb p).trans (stateAt_setFilter _ p)

theorem disturb_disturbed (hleaf : t.isTerminal p) (invs : List (Address × InvType)) :
    ∀ {h h' : Hierarchy}, disturb t p invs h = some h' → Disturbed t p (h p) (h' p) := by
  induction invs with
  | nil =>
    intro h h' hd
    cases hd
    exact .refl _
  | cons inv rest ih =>
    intro h h' hd
    obtain ⟨r, hr, hd⟩ := bind_eq_some_iff.mp hd
    exact Relation.ReflTransGen.head ⟨inv.2, inv.1, invalidate_leafInv hleaf hr⟩ (ih hd)

theorem serves_surroundings (hleaf : t.isTerminal p) (put get : Reply) : Serves t p (surroundings t p put get) := by
  intro req id h r h' hstate hup
  obtain ⟨h1, hd, hres⟩ := map_eq_some_iff.mp hup
  cases hres
  have hdist := disturb_disturbed hleaf _ hd
  rw [hstate]
  refine ⟨?_, fun htype => ?_, fun htype => ?_⟩
  · exact Relation.ReflTransGen.trans (Handled.of_disturbed hdist) (Handled.setState h1 _)
  · rw [htype]
    show (h1.setState p id _ p).bcc id ≠ .I
    rw [setState_bcc_self, update_self]
    exact Reply.state_gets _
  · rw [htype]
    show (h1.setState p id _ p).bcc id = .M
    rw [setState_bcc_self, update_self]
    rfl

/-- The flush of a line from the root down, which reaches the cache or does not. -/
def flushRoot (t : Topology) (p : Path) (reached : Bool) (a : Address) (cycle : Nat) (h : Hierarchy) :
    Option (Nat × Hierarchy) :=
  if reached then (invalidate t p a .inv true cycle h).map fun r => (r.cycle, r.caches) else some (cycle, h)

/-- A load or store of the core, with the line id to replace and what the parent does. -/
structure CoreAccess (t : Topology) (p : Path) (lineBits : Nat) where
  vAddr : BitVec 64
  (curCycle victim : Nat)
  (put get : Reply)
  victim_mem : victim ∈ t.ways p (vAddr.toNat >>> lineBits)

def CoreAccess.line {lineBits : Nat} (r : CoreAccess t p lineBits) : Address := r.vAddr.toNat >>> lineBits

inductive FilterOp (t : Topology) (p : Path) (lineBits : Nat) where
  | load (r : CoreAccess t p lineBits)
  | store (r : CoreAccess t p lineBits)
  | invalidate (a : Address) (type : InvType) (cycle : Nat)
  | clflush (a : Address) (curCycle : Nat) (flushAll reached : Bool)
  | contextSwitch

section Runs

variable (t p) (lineBits : Nat)

def filterStep (h : Hierarchy) : FilterOp t p lineBits → Option Hierarchy
  | .load r =>
    (load t (fun _ => r.victim) (surroundings t p r.put r.get) p lineBits r.vAddr.toNat r.curCycle
      {} h).map Prod.snd
  | .store r =>
    (store t (fun _ => r.victim) (surroundings t p r.put r.get) p lineBits r.vAddr.toNat r.curCycle
      {} h).map Prod.snd
  | .invalidate a type cycle => (invalidate t p a type false cycle h).map InvReply.caches
  | .clflush a curCycle flushAll reached =>
    (clflush t p (flushRoot t p reached) a curCycle flushAll h).map fun r => r.2.2
  | .contextSwitch => some (contextSwitch p h)

def ServedHeld (h : Hierarchy) : FilterOp t p lineBits → Prop
  | .load r => r.line = (entry t p h r.line).rdAddr → stateAt t h p r.line ≠ .I
  | .store r => r.line = (entry t p h r.line).wrAddr → stateAt t h p r.line = .M
  | _ => True

/-- Loads and stores are of addresses that stand for a line: not of line 0 while the entry of its
set is as `clear` leaves it, and not of line `-1`. -/
def OfLine (h : Hierarchy) : FilterOp t p lineBits → Prop
  | .load r => Believed t p (h p) r.line
  | .store r => Believed t p (h p) r.line
  | _ => True

instance (h : Hierarchy) : ∀ op, Decidable (ServedHeld t p lineBits h op)
  | .load r => inferInstanceAs (Decidable (r.line = _ → _))
  | .store r => inferInstanceAs (Decidable (r.line = _ → _))
  | .invalidate .. | .clflush .. | .contextSwitch => inferInstanceAs (Decidable True)

instance (h : Hierarchy) : ∀ op, Decidable (OfLine t p lineBits h op)
  | .load r => inferInstanceAs (Decidable (Believed t p (h p) r.line))
  | .store r => inferInstanceAs (Decidable (Believed t p (h p) r.line))
  | .invalidate .. | .clflush .. | .contextSwitch => inferInstanceAs (Decidable True)

variable {t p lineBits}

theorem flushRoot_disturbed (hleaf : t.isTerminal p) {reached : Bool} {cycle r : Nat}
    (hf : flushRoot t p reached a cycle h = some (r, h')) : Disturbed t p (h p) (h' p) := by
  rw [flushRoot] at hf
  split at hf
  · obtain ⟨res, hres, hmk⟩ := map_eq_some_iff.mp hf
    cases hmk
    exact Relation.ReflTransGen.single ⟨.inv, a, invalidate_leafInv hleaf hres⟩
  · cases hf
    exact .refl _

theorem clflush_disturbed (hleaf : t.isTerminal p) {reached flushAll dirty : Bool} {cycle r : Nat}
    (hf : clflush t p (flushRoot t p reached) a cycle flushAll h = some (r, dirty, h')) :
    Disturbed t p (h p) (h' p) := by
  have hall : ∀ res, clflushAll t p (flushRoot t p reached) a cycle h = some res →
      Disturbed t p (h p) (res.2 p) := by
    intro res hres
    rw [clflushAll] at hres
    split at hres
    · cases hres
      exact .refl _
    · split at hres
      · cases hres
      · exact flushRoot_disturbed hleaf hres
  simp only [clflush] at hf
  split at hf
  · obtain ⟨res, hres, hmk⟩ := map_eq_some_iff.mp hf
    obtain rfl := (Prod.mk.inj (Prod.mk.inj hmk).2).2
    split at hres
    · exact hall res hres
    · cases hres
      exact .refl _
  · split at hf
    · obtain ⟨res, hres, hmk⟩ := map_eq_some_iff.mp hf
      obtain rfl := (Prod.mk.inj (Prod.mk.inj hmk).2).2
      exact hall res hres
    · obtain rfl := (Prod.mk.inj (Prod.mk.inj (some_inj.mp hf)).2).2
      exact .refl _

theorem filterStep_sound (hleaf : t.isTerminal p) (hsets : Sets t p) {op : FilterOp t p lineBits}
    (hs : SoundOn t p (fun _ => True) (h p)) (hstep : filterStep t p lineBits h op = some h') :
    SoundOn t p (fun _ => True) (h' p) := by
  cases op with
  | load r =>
    obtain ⟨⟨c, h1⟩, hload, rfl⟩ := map_eq_some_iff.mp hstep
    simp only [load] at hload
    split at hload
    · cases hload
      exact hs
    · exact replace_sound hleaf hsets (serves_surroundings hleaf r.put r.get) r.victim_mem hs hload
  | store r =>
    obtain ⟨⟨c, h1⟩, hstore, rfl⟩ := map_eq_some_iff.mp hstep
    simp only [store] at hstore
    split at hstore
    · cases hstore
      exact hs
    · exact replace_sound hleaf hsets (serves_surroundings hleaf r.put r.get) r.victim_mem hs hstore
  | invalidate a type cycle =>
    obtain ⟨r, hr, rfl⟩ := map_eq_some_iff.mp hstep
    exact hs.leafInv (invalidate_leafInv hleaf hr)
  | clflush a curCycle flushAll reached =>
    obtain ⟨⟨c, dirty, h1⟩, hf, rfl⟩ := map_eq_some_iff.mp hstep
    exact hs.disturbed (clflush_disturbed hleaf hf)
  | contextSwitch =>
    cases hstep
    have hclear : (contextSwitch p h p).filterArray = fun _ => .clear :=
      setFilter_filterArray_self h p _
    constructor
    · rw [hclear]
      exact fun _ => .inr rfl
    · intro a _ hb
      have hz : a ≠ 0 := fun h0 => hb.2 h0 (by rw [hclear])
      rw [Faithful, hclear]
      exact ⟨fun h => absurd h.symm hz, fun h => absurd h.symm hz⟩

/-- Whatever the core and the rest of the hierarchy do, the filter array serves a load only if the
cache holds the line, and a store only if it holds it in M, as long as no access is of an address
that stands for no line. -/
theorem filter_run_sound (hleaf : t.isTerminal p) (hsets : Sets t p) (ops : List (FilterOp t p lineBits))
    (hlines : AllSteps (filterStep t p lineBits) (OfLine t p lineBits) Hierarchy.new ops) :
    AllSteps (filterStep t p lineBits) (ServedHeld t p lineBits) Hierarchy.new ops := by
  have hkeep : ∀ h op h', SoundOn t p (fun _ => True) (h p) → OfLine t p lineBits h op →
      filterStep t p lineBits h op = some h' → SoundOn t p (fun _ => True) (h' p) :=
    fun h op h' hs _ hstep => filterStep_sound hleaf hsets hs hstep
  apply AllSteps.imp (filterStep t p lineBits) hkeep _ ops SoundOn.new hlines
  intro h op hs hline
  cases op with
  | load r =>
    intro hserved
    exact (hs.faithful r.line trivial hline).1 hserved.symm
  | store r =>
    intro hserved
    exact (hs.faithful r.line trivial hline).2 hserved.symm
  | invalidate a type cycle | clflush a curCycle flushAll reached | contextSwitch => trivial

/-- An access of core 0 of `twoCores`, whose lines are of 64 bytes. -/
def twoCores.access (vAddr : BitVec 64) : CoreAccess twoCores [0] 6 where
  vAddr := vAddr
  curCycle := 0
  victim := 0
  put := ⟨[], false, 20⟩
  get := ⟨[], false, 20⟩
  victim_mem := mem_cons_self

theorem twoCores.sets : Sets twoCores [0] := fun a b _ _ _ => (Nat.and_zero a).trans (Nat.and_zero b).symm

/-- Line 1 is loaded and stored to, taken away, and loaded again after a context switch. -/
theorem filter_run_sound_line_one :
    AllSteps (filterStep twoCores [0] 6) (ServedHeld twoCores [0] 6) Hierarchy.new
      [.load (twoCores.access 0x40), .load (twoCores.access 0x48), .store (twoCores.access 0x40),
        .store (twoCores.access 0x48), .invalidate 1 .inv 0, .load (twoCores.access 0x40), .contextSwitch,
        .load (twoCores.access 0x40)] :=
  filter_run_sound (show twoCores.isTerminal [0] from rfl) twoCores.sets _ (by decide +kernel)

/-- The first load of a new cache is served by the filter array if it is of line 0. -/
theorem load_of_line_zero_is_served :
    load twoCores (fun _ => 0) (surroundings twoCores [0] ⟨[], false, 20⟩ ⟨[], false, 20⟩) [0] 6 0x10 5 {}
        Hierarchy.new = some (5, Hierarchy.new) ∧
      ¬ AllSteps (filterStep twoCores [0] 6) (ServedHeld twoCores [0] 6) Hierarchy.new
        [.load (twoCores.access 0x10)] :=
  ⟨rfl, by decide +kernel⟩

end Runs

end Shma.Cache
