import Shma.Cache.Hierarchy
import Shma.Cache.Directory

/-!
# The view of one line

What the hierarchy says of a single line: its state and its directory entry in
every cache. A cache whose array does not have the line has it in state I. An
operation on a line leaves the view of every other line alone (`OnlyLine`),
except that the insertion of a line makes room by forgetting an invalid one.
-/
namespace Shma.Cache

open Hierarchy (setEntry setFilter setState setTag)

variable (t : Topology) {h h' h'' : Hierarchy} {p q : Path} {a b : Address} {lineId id : Nat}
  {x : MESIState} {e : Entry}

section Lookup

variable {t} {array : Nat → Address}

theorem lookup_tag (hl : t.lookup p array a = some id) : array id = a := by
  have := List.find?_some hl
  exact beq_iff_eq.mp this

theorem lookup_ne (hl : t.lookup p array b = some id) (hb : b ≠ a) : t.lookup p array a ≠ some id := by
  intro ha
  exact hb ((lookup_tag hl).symm.trans (lookup_tag ha))

end Lookup

/-! ### The parts of a cache that an update leaves alone -/

section Updates

/-- What a change of one cache leaves alone in it, it leaves alone in all. -/
theorem update_proj {β : Type} (proj : CacheState → β) {c : CacheState} (hc : proj c = proj (h p)) :
    proj (update h p c q) = proj (h q) := by
  rw [update_apply]
  split
  · next hq => rw [hc, hq]
  · rfl

variable (h p lineId x e) (f : Nat → FilterEntry) (q : Path)

@[simp] theorem setState_array : (h.setState p lineId x q).array = (h q).array :=
  update_proj (·.array) rfl

@[simp] theorem setState_tcc : (h.setState p lineId x q).tcc = (h q).tcc := update_proj (·.tcc) rfl

@[simp] theorem setState_filterArray : (h.setState p lineId x q).filterArray = (h q).filterArray :=
  update_proj (·.filterArray) rfl

@[simp] theorem setState_bcc_self : (h.setState p lineId x p).bcc = update (h p).bcc lineId x := by
  rw [setState, update_self]

@[simp] theorem setEntry_array : (h.setEntry p lineId e q).array = (h q).array :=
  update_proj (·.array) rfl

@[simp] theorem setEntry_bcc : (h.setEntry p lineId e q).bcc = (h q).bcc := update_proj (·.bcc) rfl

@[simp] theorem setEntry_filterArray : (h.setEntry p lineId e q).filterArray = (h q).filterArray :=
  update_proj (·.filterArray) rfl

@[simp] theorem setEntry_tcc_self : (h.setEntry p lineId e p).tcc = update (h p).tcc lineId e := by
  rw [setEntry, update_self]

@[simp] theorem setFilter_array : (h.setFilter p f q).array = (h q).array :=
  update_proj (·.array) rfl

@[simp] theorem setFilter_bcc : (h.setFilter p f q).bcc = (h q).bcc := update_proj (·.bcc) rfl

@[simp] theorem setFilter_tcc : (h.setFilter p f q).tcc = (h q).tcc := update_proj (·.tcc) rfl

@[simp] theorem setFilter_filterArray_self : (h.setFilter p f p).filterArray = f := by
  rw [setFilter, update_self]

@[simp] theorem setTag_bcc : (h.setTag p lineId a q).bcc = (h q).bcc := update_proj (·.bcc) rfl

@[simp] theorem setTag_tcc : (h.setTag p lineId a q).tcc = (h q).tcc := update_proj (·.tcc) rfl

@[simp] theorem setTag_filterArray : (h.setTag p lineId a q).filterArray = (h q).filterArray :=
  update_proj (·.filterArray) rfl

@[simp] theorem setTag_array_self : (h.setTag p lineId a p).array = update (h p).array lineId a := by
  rw [setTag, update_self]

variable {q p}

theorem setState_of_ne (hq : q ≠ p) : h.setState p lineId x q = h q := update_of_ne hq _ _

theorem setState_congr (hp : h' p = h p) : h'.setState p lineId x p = h.setState p lineId x p := by
  rw [setState, setState, update_self, update_self, hp]

theorem setEntry_of_ne (hq : q ≠ p) : h.setEntry p lineId e q = h q := update_of_ne hq _ _

theorem setFilter_of_ne (hq : q ≠ p) : h.setFilter p f q = h q := update_of_ne hq _ _

theorem setTag_of_ne (hq : q ≠ p) : h.setTag p lineId a q = h q := update_of_ne hq _ _

end Updates

/-! ### State and entry of a line -/

def Topology.stateOf (p : Path) (s : CacheState) (a : Address) : MESIState :=
  ((t.lookup p s.array a).map s.bcc).getD .I

section

variable (h : Hierarchy) (p : Path) (a : Address)

def stateAt : MESIState := t.stateOf p (h p) a

def entryAt : Entry :=
  ((t.lookup p (h p).array a).map (h p).tcc).getD .clear

def childStates : Nat → MESIState := fun c => stateAt t h (c :: p) a

end

variable {t}

section

variable (hl : t.lookup p (h p).array a = some id)
include hl

theorem stateAt_of_lookup : stateAt t h p a = (h p).bcc id := by
  rw [stateAt, Topology.stateOf, hl]
  rfl

omit hl in
theorem stateAt_of_none (hl : t.lookup p (h p).array a = none) : stateAt t h p a = .I := by
  rw [stateAt, Topology.stateOf, hl]
  rfl

theorem entryAt_of_lookup : entryAt t h p a = (h p).tcc id := by
  rw [entryAt, hl]
  rfl

omit hl in
theorem entryAt_of_none (hl : t.lookup p (h p).array a = none) : entryAt t h p a = .clear := by
  rw [entryAt, hl]
  rfl

omit hl in
theorem lookup_of_ne_I (hs : stateAt t h p a ≠ .I) : ∃ id, t.lookup p (h p).array a = some id := by
  cases hl : t.lookup p (h p).array a with
  | some id => exact ⟨id, rfl⟩
  | none => exact absurd (stateAt_of_none hl) hs

omit hl in
theorem stateAt_congr (harr : (h' p).array = (h p).array) (hbcc : (h' p).bcc = (h p).bcc) :
    stateAt t h' p a = stateAt t h p a := by
  rw [stateAt, stateAt, Topology.stateOf, Topology.stateOf, harr, hbcc]

omit hl in
theorem entryAt_congr (harr : (h' p).array = (h p).array) (htcc : (h' p).tcc = (h p).tcc) :
    entryAt t h' p a = entryAt t h p a := by
  rw [entryAt, entryAt, harr, htcc]

theorem stateAt_setState (q : Path) : stateAt t (h.setState p id x) q a = if q = p then x else stateAt t h q a := by
  split
  · subst q
    rw [stateAt_of_lookup (by rwa [setState_array]), setState_bcc_self, update_self]
  · next hq => rw [stateAt, stateAt, setState_of_ne h id x hq]

omit hl in
theorem entryAt_setState (q : Path) : entryAt t (h.setState p id x) q a = entryAt t h q a :=
  entryAt_congr (setState_array h p id x q) (setState_tcc h p id x q)

omit hl in
theorem stateAt_setFilter (f : Nat → FilterEntry) (q : Path) : stateAt t (h.setFilter p f) q a = stateAt t h q a :=
  stateAt_congr (setFilter_array h p f q) (setFilter_bcc h p f q)

omit hl in
theorem entryAt_setFilter (f : Nat → FilterEntry) (q : Path) : entryAt t (h.setFilter p f) q a = entryAt t h q a :=
  entryAt_congr (setFilter_array h p f q) (setFilter_tcc h p f q)

omit hl in
theorem stateAt_setEntry (q : Path) : stateAt t (h.setEntry p id e) q a = stateAt t h q a :=
  stateAt_congr (setEntry_array h p id e q) (setEntry_bcc h p id e q)

theorem entryAt_setEntry (q : Path) : entryAt t (h.setEntry p id e) q a = if q = p then e else entryAt t h q a := by
  split
  · subst q
    rw [entryAt_of_lookup (by rwa [setEntry_array]), setEntry_tcc_self, update_self]
  · next hq => rw [entryAt, entryAt, setEntry_of_ne h id e hq]

omit hl in
theorem childStates_setState_self {c : Nat} (hl : t.lookup (c :: p) (h (c :: p)).array a = some id) :
    childStates t (h.setState (c :: p) id x) p a = update (childStates t h p a) c x := by
  funext d
  rw [childStates, stateAt_setState hl, update_apply]
  simp only [List.cons.injEq, and_true]
  rfl

theorem childStates_setState_of_ne (hq : ∀ c, c :: q ≠ p) :
    childStates t (h.setState p id x) q a = childStates t h q a := by
  funext d
  rw [childStates, stateAt_setState hl, if_neg (hq d)]
  rfl

end

theorem childStates_setEntry (q : Path) : childStates t (h.setEntry p id e) q a = childStates t h q a :=
  funext fun _ => stateAt_setEntry _

/-! ### Operations on one line -/

variable (t) in
/-- The arrays stay, and of states and directory entries only those of line `a` change. -/
structure OnlyLine (a : Address) (h h' : Hierarchy) : Prop where
  array : ∀ q, (h' q).array = (h q).array
  bcc : ∀ q id, t.lookup q (h q).array a ≠ some id → (h' q).bcc id = (h q).bcc id
  tcc : ∀ q id, t.lookup q (h q).array a ≠ some id → (h' q).tcc id = (h q).tcc id

namespace OnlyLine

theorem refl (a : Address) (h : Hierarchy) : OnlyLine t a h h := ⟨fun _ => rfl, fun _ _ _ => rfl, fun _ _ _ => rfl⟩

theorem trans (ho : OnlyLine t a h h') (ho' : OnlyLine t a h' h'') : OnlyLine t a h h'' where
  array q := (ho'.array q).trans (ho.array q)
  bcc q id hid := by
    rw [ho'.bcc q id (by rwa [ho.array q]), ho.bcc q id hid]
  tcc q id hid := by
    rw [ho'.tcc q id (by rwa [ho.array q]), ho.tcc q id hid]

theorem lookup (ho : OnlyLine t a h h') (q : Path) (b : Address) :
    t.lookup q (h' q).array b = t.lookup q (h q).array b := by rw [ho.array q]

theorem setState (hl : t.lookup p (h p).array a = some id) (x : MESIState) : OnlyLine t a h (h.setState p id x) where
  array q := setState_array h p id x q
  tcc q _ _ := by rw [setState_tcc]
  bcc q i hi := by
    by_cases hq : q = p
    · subst q
      rw [setState_bcc_self, update_of_ne]
      intro hid
      exact hi (hid ▸ hl)
    · rw [setState_of_ne h id x hq]

theorem setEntry (hl : t.lookup p (h p).array a = some id) (e : Entry) : OnlyLine t a h (h.setEntry p id e) where
  array q := setEntry_array h p id e q
  bcc q _ _ := by rw [setEntry_bcc]
  tcc q i hi := by
    by_cases hq : q = p
    · subst q
      rw [setEntry_tcc_self, update_of_ne]
      intro hid
      exact hi (hid ▸ hl)
    · rw [setEntry_of_ne h id e hq]

theorem setFilter (a : Address) (h : Hierarchy) (p : Path) (f : Nat → FilterEntry) :
    OnlyLine t a h (h.setFilter p f) where
  array q := setFilter_array h p f q
  bcc q _ _ := by rw [setFilter_bcc]
  tcc q _ _ := by rw [setFilter_tcc]

theorem stateAt_of_ne (ho : OnlyLine t a h h') (hb : b ≠ a) (q : Path) : stateAt t h' q b = stateAt t h q b := by
  cases hl : t.lookup q (h q).array b with
  | none => rw [stateAt_of_none hl, stateAt_of_none ((ho.lookup q b).trans hl)]
  | some id =>
    rw [stateAt_of_lookup hl, stateAt_of_lookup ((ho.lookup q b).trans hl), ho.bcc q id (lookup_ne hl hb)]

theorem entryAt_of_ne (ho : OnlyLine t a h h') (hb : b ≠ a) (q : Path) : entryAt t h' q b = entryAt t h q b := by
  cases hl : t.lookup q (h q).array b with
  | none => rw [entryAt_of_none hl, entryAt_of_none ((ho.lookup q b).trans hl)]
  | some id =>
    rw [entryAt_of_lookup hl, entryAt_of_lookup ((ho.lookup q b).trans hl), ho.tcc q id (lookup_ne hl hb)]

end OnlyLine

end Shma.Cache
