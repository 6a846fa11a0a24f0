import Shma.Cache.Coherent
import Shma.Lib.Paths

/-!
# What an invalidation does

An INV of a line takes it away from a cache and all caches below it; an INVX
takes the right to write away from them. Both are told to exactly those caches
that have something to lose, and touch no other line and no other cache.
-/
namespace Shma.Cache

open Lib.Subtree MESIState
open List (range suffix_rfl)
open MESITopCC (sendInvalidates sendLoop settle)

def InvType.after : InvType → MESIState → MESIState
  | .inv, _ => .I
  | .invx, x => x.demoted
  | .fwd, x => x

def InvType.Reaches : InvType → MESIState → Prop
  | .inv, x => x ≠ .I
  | .invx, x => x.Excl
  | .fwd, _ => False

instance : ∀ (type : InvType) (x : MESIState), Decidable (type.Reaches x)
  | .inv, x => inferInstanceAs (Decidable (x ≠ .I))
  | .invx, x => inferInstanceAs (Decidable x.Excl)
  | .fwd, _ => inferInstanceAs (Decidable False)

def InvType.Admits : InvType → MESIState → Prop
  | .inv, _ => True
  | .invx, x => x ≠ .I → x.Excl
  | .fwd, _ => False

namespace InvType

variable {type : InvType} {x : MESIState}

theorem Reaches.ne_I (h : type.Reaches x) : x ≠ .I := by
  cases type with
  | inv => exact h
  | invx => exact Excl.ne_I h
  | fwd => exact absurd h not_false

theorem after_of_not_reaches (h : ¬ type.Reaches x) : type.after x = x := by
  cases type with
  | inv => exact (not_not.mp h).symm
  | invx => exact demoted_of_not_excl h
  | fwd => rfl

theorem Reaches.admits (h : type.Reaches x) : type.Admits x := by
  cases type with
  | inv => trivial
  | invx => exact fun _ => h
  | fwd => exact absurd h not_false

theorem after_I : type.after .I = .I := by cases type <;> rfl

end InvType

variable {t : Topology} {h h' h'' : Hierarchy} {p q : Path} {a : Address} {id : Nat} {type : InvType}

variable (t) in
def filterAfter (type : InvType) (x : MESIState) (q : Path) (a : Address) (f : Nat → FilterEntry) : Nat → FilterEntry :=
  if t.isTerminal q ∧ type.Reaches x then t.clearFilter q a f else f

theorem filterAfter_of_not_reaches {x : MESIState} {f : Nat → FilterEntry} (hx : ¬ type.Reaches x) :
    filterAfter t type x q a f = f := if_neg fun hc => hx hc.2

theorem not_reaches_below (hsub : ∀ q, p <:+ q → Consistent t h a q) (hp : ¬ type.Reaches (stateAt t h p a))
    (hq : p <:+ q) : ¬ type.Reaches (stateAt t h q a) := by
  refine suffix_induction (motive := fun q => ¬ type.Reaches (stateAt t h q a)) hp (fun c q hpq ih => ?_) hq
  have hagree := hsub q hpq
  cases type with
  | inv => exact not_not_intro (hagree.children_of_invalid (not_not.mp ih) c)
  | invx => exact hagree.children_of_not_excl ih c
  | fwd => exact not_false

/-! ### Some children told -/

variable (t) in
/-- The children `told` of cache `p` were invalidated, with all that is below them, and
besides at most the directory entry in `p` has changed. -/
structure Swept (type : InvType) (p : Path) (a : Address) (told : Nat → Prop) (h h' : Hierarchy) : Prop where
  only : OnlyLine t a h h'
  bcc : (h' p).bcc = (h p).bcc
  filterArray : (h' p).filterArray = (h p).filterArray
  outside : ∀ q, q ≠ p → (∀ c, told c → ¬ (c :: p) <:+ q) → h' q = h q
  states : ∀ c, told c → ∀ q, (c :: p) <:+ q → stateAt t h' q a = type.after (stateAt t h q a)
  consistent : ∀ c, told c → ∀ q, (c :: p) <:+ q → Consistent t h' a q
  filters : ∀ c, told c → ∀ q, (c :: p) <:+ q →
    (h' q).filterArray = filterAfter t type (stateAt t h q a) q a (h q).filterArray

variable {c : Nat}

theorem ne_of_child_suffix (hq : (c :: p) <:+ q) : q ≠ p := by
  intro hqp
  exact not_child_suffix_self (hqp ▸ hq)

theorem Consistent.of_below (hsame : ∀ q, (c :: p) <:+ q → h' q = h q) (hq : (c :: p) <:+ q)
    (hc : Consistent t h a q) : Consistent t h' a q :=
  hc.of_apply_eq (hsame q hq) fun d => hsame (d :: q) (hq.trans (List.suffix_cons d q))

namespace Swept

variable {told told' : Nat → Prop}

theorem refl (htold : ∀ c, ¬ told c) : Swept t type p a told h h where
  only := .refl a h
  bcc := rfl
  filterArray := rfl
  outside _ _ _ := rfl
  states c hc := absurd hc (htold c)
  consistent c hc := absurd hc (htold c)
  filters c hc := absurd hc (htold c)

section

variable (hs : Swept t type p a told h h')
include hs

theorem apply_below {c : Nat} (hc : ¬ told c) (hq : (c :: p) <:+ q) : h' q = h q := by
  refine hs.outside q (ne_of_child_suffix hq) fun d hd hdq => hc ?_
  rwa [child_unique hq hdq]

theorem stateAt_self : stateAt t h' p a = stateAt t h p a :=
  stateAt_congr (hs.only.array p) hs.bcc

theorem childStates_self (hnot : ∀ c, ¬ told c → ¬ type.Reaches (stateAt t h (c :: p) a)) :
    childStates t h' p a = fun c => type.after (childStates t h p a c) := by
  funext c
  by_cases hc : told c
  · exact hs.states c hc (c :: p) suffix_rfl
  · rw [childStates, childStates, InvType.after_of_not_reaches (hnot c hc), stateAt,
      hs.apply_below hc suffix_rfl]
    rfl

theorem consistent_below {c : Nat}
    (hc : ∀ q, (c :: p) <:+ q → Consistent t h a q) (hq : (c :: p) <:+ q) : Consistent t h' a q := by
  by_cases htold : told c
  · exact hs.consistent c htold q hq
  · exact (hc q hq).of_below (fun q hq => hs.apply_below htold hq) hq

theorem consistent_of_ne (hc : ∀ q, q ≠ p → Consistent t h a q) (hq : q ≠ p) : Consistent t h' a q := by
  by_cases hpq : p <:+ q
  · rcases suffix_cases hpq with hqp | ⟨c, hcq⟩
    · exact absurd hqp hq
    · exact hs.consistent_below (fun r hr => hc r (ne_of_child_suffix hr)) hcq
  · have hout : ∀ r, r ≠ p → ¬ p <:+ r → h' r = h r :=
      fun r hr hpr => hs.outside r hr fun c _ hcr => hpr (parent_suffix hcr)
    refine (hc q hq).congr ?_ ?_ (funext fun d => ?_)
    · rw [entryAt, entryAt, hout q hq hpq]
    · rw [stateAt, stateAt, hout q hq hpq]
    · by_cases hdq : d :: q = p
      · subst hdq
        exact hs.stateAt_self
      · have hpdq : ¬ p <:+ d :: q := by
          rw [List.suffix_cons_iff]
          exact fun hor => hor.elim (fun heq => hdq heq.symm) hpq
        rw [childStates, childStates, stateAt, stateAt, hout (d :: q) hdq hpdq]

theorem trans (hs' : Swept t type p a told' h' h'')
    (hdisj : ∀ c, told c → ¬ told' c) : Swept t type p a (fun c => told c ∨ told' c) h h'' := by
  have hdisj' : ∀ c, told' c → ¬ told c := fun c hc' hc => hdisj c hc hc'
  refine ⟨hs.only.trans hs'.only, hs'.bcc.trans hs.bcc, hs'.filterArray.trans hs.filterArray, ?_, ?_, ?_, ?_⟩
  · intro q hq hout
    rw [hs'.outside q hq fun c hc => hout c (.inr hc), hs.outside q hq fun c hc => hout c (.inl hc)]
  · intro c hc q hq
    rcases hc with hc | hc
    · rw [stateAt, hs'.apply_below (hdisj c hc) hq]
      exact hs.states c hc q hq
    · rw [hs'.states c hc q hq, stateAt, hs.apply_below (hdisj' c hc) hq]
      rfl
  · intro c hc q hq
    rcases hc with hc | hc
    · exact hs'.consistent_below (hs.consistent c hc) hq
    · exact hs'.consistent c hc q hq
  · intro c hc q hq
    rcases hc with hc | hc
    · rw [hs'.apply_below (hdisj c hc) hq]
      exact hs.filters c hc q hq
    · rw [hs'.filters c hc q hq, stateAt, hs.apply_below (hdisj' c hc) hq]
      rfl

theorem congr (hiff : ∀ c, told' c ↔ told c) : Swept t type p a told' h h' := by
  rwa [show told' = told from funext fun c => propext (hiff c)]

theorem setEntry (hl : t.lookup p (h p).array a = some id) (e : Entry) :
    Swept t type p a told h (h'.setEntry p id e) := by
  have hsame : ∀ c q, (c :: p) <:+ q → h'.setEntry p id e q = h' q :=
    fun c q hq => setEntry_of_ne h' id e (ne_of_child_suffix hq)
  refine ⟨hs.only.trans (.setEntry (by rwa [hs.only.array p]) e), by rw [setEntry_bcc, hs.bcc],
    by rw [setEntry_filterArray, hs.filterArray], ?_, ?_, ?_, ?_⟩
  · intro q hq hout
    rw [setEntry_of_ne h' id e hq, hs.outside q hq hout]
  · intro c hc q hq
    rw [stateAt_setEntry, hs.states c hc q hq]
  · intro c hc q hq
    exact (hs.consistent c hc q hq).of_below (hsame c) hq
  · intro c hc q hq
    rw [hsame c q hq, hs.filters c hc q hq]

end

theorem of_setEntry {e : Entry} (hs : Swept t type p a told (h.setEntry p id e) h')
    (hl : t.lookup p (h p).array a = some id) : Swept t type p a told h h' := by
  refine ⟨(OnlyLine.setEntry hl e).trans hs.only, by rw [hs.bcc, setEntry_bcc],
    by rw [hs.filterArray, setEntry_filterArray], ?_, ?_, hs.consistent, ?_⟩
  · intro q hq hout
    rw [hs.outside q hq hout, setEntry_of_ne h id e hq]
  · intro c hc q hq
    rw [hs.states c hc q hq, stateAt_setEntry]
  · intro c hc q hq
    rw [hs.filters c hc q hq, stateAt_setEntry, setEntry_filterArray]

end Swept

/-! ### A cache and all that is below it -/

variable (t) in
structure Lowered (type : InvType) (p : Path) (a : Address) (h h' : Hierarchy) : Prop where
  only : OnlyLine t a h h'
  outside : ∀ q, ¬ p <:+ q → h' q = h q
  states : ∀ q, p <:+ q → stateAt t h' q a = type.after (stateAt t h q a)
  consistent : ∀ q, p <:+ q → Consistent t h' a q
  filters : ∀ q, p <:+ q → q ≠ p →
    (h' q).filterArray = filterAfter t type (stateAt t h q a) q a (h q).filterArray

variable (t) in
/-- The filter of the invalidated cache is looked at whether or not the cache has the
line. -/
structure Invalidated (type : InvType) (p : Path) (a : Address) (h h' : Hierarchy) : Prop
    extends Lowered t type p a h h' where
  filter_self : (h' p).filterArray =
    if t.isTerminal p then t.clearFilter p a (h p).filterArray else (h p).filterArray

theorem Invalidated.swept (hi : Invalidated t type (c :: p) a h h')
    (hr : type.Reaches (stateAt t h (c :: p) a)) : Swept t type p a (fun d => d = c) h h' := by
  have hself : h' p = h p := hi.outside p not_child_suffix_self
  refine ⟨hi.only, by rw [hself], by rw [hself], fun q _ hout => hi.outside q (hout c rfl), ?_, ?_, ?_⟩
  · intro d hd q hq
    exact hi.states q (hd ▸ hq)
  · intro d hd q hq
    exact hi.consistent q (hd ▸ hq)
  · intro d hd q hq
    subst hd
    by_cases hqp : q = d :: p
    · subst hqp
      rw [hi.filter_self, filterAfter]
      simp [hr]
    · exact hi.filters q hq hqp

/-- The outcome of an invalidation: it succeeds, and a writeback it asks for is its own
only if the line was exclusive. -/
def InvSpec (t : Topology) (type : InvType) (p : Path) (a : Address) (wb : Bool) (cycle : Nat) (h : Hierarchy)
    (result : Option InvReply) : Prop :=
  ∃ r, result = some r ∧ Invalidated t type p a h r.caches ∧ cycle ≤ r.cycle ∧
    (r.reqWriteback = true → wb = true ∨ (stateAt t h p a).Excl)

variable (t) in
/-- What a cache needs of the `invalidate` of its children. -/
def ChildrenSpec (down : Lower) (type : InvType) (p : Path) (a : Address) : Prop :=
  ∀ c wb cycle h, (∀ q, (c :: p) <:+ q → Consistent t h a q) → type.Admits (stateAt t h (c :: p) a) →
    InvSpec t type (c :: p) a wb cycle h (down (c :: p) a type wb cycle h)

/-! ### The loop over the children -/

def Entry.told (e : Entry) (type : InvType) (cs : List Nat) : Entry :=
  { e with sharers := fun c => if type = .inv ∧ c ∈ cs then false else e.sharers c }

theorem Entry.told_nil (e : Entry) : e.told type [] = e := by simp [Entry.told]

theorem Entry.told_cons (e : Entry) (c : Nat) (cs : List Nat) :
    (e.told type [c]).told type cs = e.told type (c :: cs) := by
  simp only [Entry.told, mem_cons, Entry.mk.injEq, true_and, and_true]
  funext d
  by_cases htype : type = .inv <;> by_cases hd : d = c <;> simp [htype, hd]

theorem Entry.told_not_sharer (e : Entry) (cs : List Nat) (hc : e.sharers c ≠ true) :
    e.told type (c :: cs) = e.told type cs := by
  simp only [Entry.told, mem_cons, Entry.mk.injEq, true_and, and_true]
  funext d
  by_cases hd : d = c
  · subst hd
    simp [hc]
  · simp [hd]

variable (t) in
/-- What the loop over the children `cs` leaves: the sharers among them were told, and
counted. -/
structure LoopSpec (type : InvType) (p : Path) (a : Address) (id : Nat) (cs : List Nat)
    (s s' : MESITopCC.Sent) : Prop where
  swept : Swept t type p a (fun c => c ∈ cs ∧ ((s.caches p).tcc id).sharers c = true) s.caches s'.caches
  entry : (s'.caches p).tcc id = ((s.caches p).tcc id).told type cs
  sentInvs : s'.sentInvs = s.sentInvs + (cs.filter ((s.caches p).tcc id).sharers).length
  maxCycle : s.maxCycle ≤ s'.maxCycle
  reqWriteback : s'.reqWriteback = true → s.reqWriteback = true ∨
    ∃ c ∈ cs, ((s.caches p).tcc id).sharers c = true ∧ (stateAt t s.caches (c :: p) a).Excl

variable {down : Lower}

theorem LoopSpec.reply (hdown : ChildrenSpec t down type p a) (cycle : Nat)
    {s : MESITopCC.Sent} (hl : t.lookup p (s.caches p).array a = some id)
    (hc : ((s.caches p).tcc id).sharers c = true) (hreach : type.Reaches (stateAt t s.caches (c :: p) a))
    (hcons : ∀ q, (c :: p) <:+ q → Consistent t s.caches a q) :
    ∃ r, down (c :: p) a type s.reqWriteback cycle s.caches = some r ∧
      LoopSpec t type p a id [c] s (s.reply t p id type c r) := by
  obtain ⟨r, hr, hinv, -, hwb⟩ := hdown c s.reqWriteback cycle s.caches hcons hreach.admits
  have hself : r.caches p = s.caches p := hinv.outside p not_child_suffix_self
  refine ⟨r, hr, ?_, ?_, ?_, le_max_right _ _, fun h => ?_⟩
  · have hiff : ∀ d, (d ∈ [c] ∧ ((s.caches p).tcc id).sharers d = true) ↔ d = c := by
      intro d
      rw [mem_singleton]
      exact ⟨fun hd => hd.1, fun hd => ⟨hd, hd ▸ hc⟩⟩
    refine Swept.congr ?_ hiff
    rw [MESITopCC.Sent.reply]
    split
    · exact (hinv.swept hreach).setEntry hl _
    · exact hinv.swept hreach
  · rw [MESITopCC.Sent.reply, Entry.told]
    by_cases htype : type = .inv
    · subst htype
      simp only [if_true, setEntry_tcc_self, update_self, hself, true_and, mem_singleton]
      congr 1
      funext d
      rw [update_apply]
    · simp only [htype, false_and, if_false, hself]
  · rw [List.filter_cons_of_pos hc]
    rfl
  · rcases hwb h with hwb | hwb
    · exact .inl hwb
    · exact .inr ⟨c, List.mem_singleton_self c, hc, hwb⟩

theorem LoopSpec.cons {cs : List Nat} {s s1 s2 : MESITopCC.Sent} (hc : c ∉ cs)
    (hsh : ((s.caches p).tcc id).sharers c = true)
    (h1 : LoopSpec t type p a id [c] s s1) (h2 : LoopSpec t type p a id cs s1 s2) :
    LoopSpec t type p a id (c :: cs) s s2 := by
  have hne : ∀ d ∈ cs, ¬ (d ∈ [c] ∧ ((s.caches p).tcc id).sharers d = true) :=
    fun d hd hdc => hc (mem_singleton.mp hdc.1 ▸ hd)
  have hsame : ∀ d ∈ cs, ((s1.caches p).tcc id).sharers d = ((s.caches p).tcc id).sharers d := by
    intro d hd
    have hdc : d ≠ c := fun hdc => hc (hdc ▸ hd)
    simp [h1.entry, Entry.told, hdc]
  refine ⟨(h1.swept.trans h2.swept ?_).congr ?_, ?_, ?_, h1.maxCycle.trans h2.maxCycle, fun hwb => ?_⟩
  · intro d hd hd'
    exact hc (mem_singleton.mp hd.1 ▸ hd'.1)
  · intro d
    rw [mem_cons, mem_singleton]
    constructor
    · intro ⟨hd, hsd⟩
      rcases hd with hd | hd
      · exact .inl ⟨hd, hsd⟩
      · exact .inr ⟨hd, (hsame d hd).trans hsd⟩
    · intro hd
      rcases hd with hd | hd
      · exact ⟨.inl hd.1, hd.2⟩
      · exact ⟨.inr hd.1, (hsame d hd.1).symm.trans hd.2⟩
  · rw [h2.entry, h1.entry, Entry.told_cons]
  · rw [h2.sentInvs, h1.sentInvs, List.filter_congr hsame, List.filter_cons_of_pos hsh,
      List.filter_cons_of_pos hsh, length_cons, length_cons, List.filter_nil, List.length_nil]
    omega
  · rcases h2.reqWriteback hwb with hwb | ⟨d, hd, hshd, hx⟩
    · rcases h1.reqWriteback hwb with hwb | ⟨d, hd, hshd, hx⟩
      · exact .inl hwb
      · exact .inr ⟨d, mem_singleton.mp hd ▸ mem_cons_self, hshd, hx⟩
    · rw [hsame d hd] at hshd
      rw [stateAt, h1.swept.apply_below (hne d hd) suffix_rfl] at hx
      exact .inr ⟨d, mem_cons_of_mem c hd, hshd, hx⟩

theorem sendLoop_spec (hdown : ChildrenSpec t down type p a) (cycle : Nat) (cs : List Nat) :
    ∀ s : MESITopCC.Sent, cs.Nodup → t.lookup p (s.caches p).array a = some id →
      (∀ c ∈ cs, ((s.caches p).tcc id).sharers c = true → type.Reaches (stateAt t s.caches (c :: p) a) ∧
        ∀ q, (c :: p) <:+ q → Consistent t s.caches a q) →
      ∃ s', sendLoop t down p a id type cycle cs s = some s' ∧ LoopSpec t type p a id cs s s' := by
  induction cs with
  | nil =>
    intro s _ _ _
    refine ⟨s, rfl, Swept.refl fun c hc => ?_, (Entry.told_nil _).symm, rfl, le_rfl, .inl⟩
    exact absurd hc.1 not_mem_nil
  | cons c cs ih =>
    intro s hnodup hl hall
    obtain ⟨hcs, hnodup⟩ := nodup_cons.mp hnodup
    by_cases hc : ((s.caches p).tcc id).sharers c = true
    · obtain ⟨hreach, hcons⟩ := hall c mem_cons_self hc
      obtain ⟨_, hlc⟩ := lookup_of_ne_I hreach.ne_I
      obtain ⟨r, hr, hone⟩ := LoopSpec.reply hdown cycle hl hc hreach hcons
      -- the subtrees of the other children are as before
      have hothers : ∀ d ∈ cs, (((s.reply t p id type c r).caches p).tcc id).sharers d = true →
          type.Reaches (stateAt t (s.reply t p id type c r).caches (d :: p) a) ∧
            ∀ q, (d :: p) <:+ q → Consistent t (s.reply t p id type c r).caches a q := by
        intro d hd hshd
        have hnot : ¬ (d ∈ [c] ∧ ((s.caches p).tcc id).sharers d = true) :=
          fun hdc => hcs (mem_singleton.mp hdc.1 ▸ hd)
        have hsame : ∀ q, (d :: p) <:+ q → (s.reply t p id type c r).caches q = s.caches q :=
          fun q hq => hone.swept.apply_below hnot hq
        have hshd' : ((s.caches p).tcc id).sharers d = true := by
          rw [hone.entry, Entry.told] at hshd
          by_contra hf
          simp [hf] at hshd
        obtain ⟨hreach, hcons⟩ := hall d (mem_cons_of_mem c hd) hshd'
        rw [stateAt, hsame (d :: p) suffix_rfl]
        exact ⟨hreach, fun q hq => (hcons q hq).of_below hsame hq⟩
      rw [sendLoop, if_pos ⟨hc, by rw [hlc]; rfl⟩, hr]
      obtain ⟨s', hs', hrest⟩ := ih (s.reply t p id type c r) hnodup (by rwa [hone.swept.only.array p]) hothers
      exact ⟨s', hs', .cons hcs hc hone hrest⟩
    · rw [sendLoop, if_neg fun hcond => hc hcond.1]
      obtain ⟨s', hs', hrest⟩ := ih s hnodup hl fun d hd => hall d (mem_cons_of_mem c hd)
      refine ⟨s', hs', hrest.swept.congr fun d => ?_, ?_, ?_, hrest.maxCycle, fun hwb => ?_⟩
      · rw [mem_cons]
        constructor
        · rintro ⟨hd | hd, hshd⟩
          · exact absurd (hd ▸ hshd) hc
          · exact ⟨hd, hshd⟩
        · rintro ⟨hd, hshd⟩
          exact ⟨.inr hd, hshd⟩
      · rw [hrest.entry, Entry.told_not_sharer _ _ hc]
      · rw [hrest.sentInvs, List.filter_cons_of_neg hc]
      · rcases hrest.reqWriteback hwb with hwb | ⟨d, hd, hx⟩
        · exact .inl hwb
        · exact .inr ⟨d, mem_cons_of_mem c hd, hx⟩

/-! ### `sendInvalidates` -/

def Entry.settled (e : Entry) : InvType → Entry
  | .inv => { e with sharers := fun _ => false, numSharers := 0 }
  | .invx => { e with exclusive := false }
  | .fwd => e

variable {e : Entry}

theorem Entry.settled_of_isEmpty (hempty : e.isEmpty = true) (hnone : ∀ c, e.sharers c = false)
    (hfwd : type ≠ .fwd) (hexcl : type = .invx → e.isExclusive = true) : e.settled type = e := by
  have hzero : e.numSharers = 0 := beq_iff_eq.mp hempty
  cases type with
  | inv => rw [Entry.settled, ← hzero, ← show e.sharers = fun _ => false from funext hnone]
  | invx =>
    have hx := hexcl rfl
    rw [Entry.isExclusive, hzero] at hx
    exact absurd hx Bool.false_ne_true
  | fwd => exact absurd rfl hfwd

/-- The end of `sendInvalidates`, once all `n` children that share the line were told. -/
theorem settle_spec {n : Nat} {s : MESITopCC.Sent} (hentry : (s.caches p).tcc id = e.told type (range n))
    (hsent : s.sentInvs = e.numSharers) (hbound : ∀ c, e.sharers c = true → c < n) (hfwd : type ≠ .fwd)
    (hexcl : type = .invx → e.isExclusive = true) :
    settle p id type s =
      some ⟨s.maxCycle, s.reqWriteback, s.caches.setEntry p id (e.settled type)⟩ := by
  have hnum : s.sentInvs = ((s.caches p).tcc id).numSharers := by
    rw [hentry]
    exact hsent
  rw [settle, assertThat_true hnum, hentry]
  cases type with
  | inv =>
    have hall : (e.told .inv (range n)).sharers = fun _ => false := by
      funext c
      by_cases hc : e.sharers c = true
      · simp [Entry.told, hbound c hc]
      · simp [Entry.told, hc]
    rw [hall]
    rfl
  | invx =>
    have hx := hexcl rfl
    rw [Entry.isExclusive, Bool.and_eq_true, beq_iff_eq] at hx
    have hold : e.told .invx (range n) = e := by simp [Entry.told]
    rw [assertThat_true ⟨hx.2, hx.1⟩]
    rfl
  | fwd => exact absurd rfl hfwd

section

variable (hdown : ChildrenSpec t down type p a) (wb : Bool) (cycle : Nat) (hl : t.lookup p (h p).array a = some id)
  (hfwd : type ≠ .fwd)
include hdown wb cycle hl hfwd

/-- The sharers of the entry are told, whether or not they are all that hold the line. -/
theorem sendInvalidates_told (hexcl : type = .invx → ((h p).tcc id).isExclusive = true)
    (hsh : ∀ c, ((h p).tcc id).sharers c = true → c < t.numChildren p ∧
      type.Reaches (stateAt t h (c :: p) a) ∧ ∀ q, (c :: p) <:+ q → Consistent t h a q)
    (hcount : ((range (t.numChildren p)).filter ((h p).tcc id).sharers).length = ((h p).tcc id).numSharers) :
    ∃ r, sendInvalidates t down p a id type wb cycle h = some r ∧
      Swept t type p a (fun c => ((h p).tcc id).sharers c = true) h r.caches ∧
      (r.caches p).tcc id = ((h p).tcc id).settled type ∧ cycle ≤ r.cycle ∧
      (r.reqWriteback = true → wb = true ∨
        ∃ c, ((h p).tcc id).sharers c = true ∧ (stateAt t h (c :: p) a).Excl) := by
  rw [sendInvalidates, if_neg fun hc => by rw [hexcl hc.1] at hc; exact Bool.noConfusion hc.2]
  by_cases hempty : ((h p).tcc id).isEmpty = true
  · have hnone : ∀ c, ((h p).tcc id).sharers c = false := by
      intro c
      rw [show ((h p).tcc id).numSharers = 0 from beq_iff_eq.mp hempty, List.length_eq_zero_iff,
        List.filter_eq_nil_iff] at hcount
      rw [← Bool.not_eq_true]
      intro hc
      exact hcount c (mem_range.mpr (hsh c hc).1) hc
    rw [if_pos hempty]
    refine ⟨_, rfl, Swept.refl fun c hc => ?_, (Entry.settled_of_isEmpty hempty hnone hfwd hexcl).symm, le_rfl, .inl⟩
    rw [hnone c] at hc
    exact Bool.noConfusion hc
  · rw [if_neg hempty]
    obtain ⟨s, hs, hloop⟩ := sendLoop_spec hdown cycle (range (t.numChildren p)) ⟨cycle, wb, 0, h⟩
      nodup_range hl fun c _ hc => (hsh c hc).2
    have hswept : Swept t type p a (fun c => ((h p).tcc id).sharers c = true) h s.caches :=
      hloop.swept.congr fun c => ⟨fun hc => ⟨mem_range.mpr (hsh c hc).1, hc⟩, fun hc => hc.2⟩
    have hsent : s.sentInvs = ((h p).tcc id).numSharers := by
      rw [hloop.sentInvs, hcount]
      exact Nat.zero_add _
    rw [hs, bind_some, settle_spec hloop.entry hsent (fun c hc => (hsh c hc).1) hfwd hexcl]
    refine ⟨_, rfl, hswept.setEntry hl _, ?_, hloop.maxCycle, fun hwb => ?_⟩
    · rw [setEntry_tcc_self, update_self]
    · rcases hloop.reqWriteback hwb with hwb | ⟨c, _, hc⟩
      · exact .inl hwb
      · exact .inr ⟨c, hc⟩

/-- `sendInvalidates` in a consistent cache: those children are told that have something to
lose, and the entry agrees with what they keep. -/
theorem sendInvalidates_spec (hsub : ∀ q, p <:+ q → Consistent t h a q) :
    ∃ r, sendInvalidates t down p a id type wb cycle h = some r ∧
      Swept t type p a (fun c => type.Reaches (stateAt t h (c :: p) a)) h r.caches ∧
      Agrees (t.numChildren p) ((r.caches p).tcc id) (stateAt t h p a)
        (fun c => type.after (childStates t h p a c)) ∧
      cycle ≤ r.cycle ∧ (r.reqWriteback = true → wb = true ∨ (stateAt t h p a).Excl) := by
  have hagree : Agrees (t.numChildren p) ((h p).tcc id) (stateAt t h p a) (childStates t h p a) := by
    have := hsub p suffix_rfl
    rwa [Consistent, entryAt_of_lookup hl] at this
  by_cases hstop : type = .invx ∧ ((h p).tcc id).isExclusive = false
  · -- nobody below may write
    obtain ⟨rfl, hnot⟩ := hstop
    have hnone := hagree.not_excl_of_not_isExclusive hnot
    rw [sendInvalidates, if_pos ⟨rfl, hnot⟩]
    refine ⟨_, rfl, Swept.refl hnone, ?_, le_rfl, .inl⟩
    rw [show (fun c => InvType.after .invx (childStates t h p a c)) = childStates t h p a from
      funext fun c => demoted_of_not_excl (hnone c)]
    exact hagree
  · have hexcl : type = .invx → ((h p).tcc id).isExclusive = true := by
      intro htype
      rw [← Bool.not_eq_false]
      exact fun hnot => hstop ⟨htype, hnot⟩
    have hreach : ∀ c, ((h p).tcc id).sharers c = true ↔ type.Reaches (stateAt t h (c :: p) a) := by
      intro c
      rw [hagree.sharers c]
      cases type with
      | inv => exact Iff.rfl
      | invx =>
        have hflag := hexcl rfl
        rw [Entry.isExclusive, Bool.and_eq_true] at hflag
        exact ⟨fun hc => (hagree.exclusive c hc).mpr hflag.2, Excl.ne_I⟩
      | fwd => exact absurd rfl hfwd
    obtain ⟨r, hr, hswept, hentry, hcycle, hwb⟩ := sendInvalidates_told hdown wb cycle hl hfwd hexcl
      (fun c hc => ⟨hagree.bound c ((hagree.sharers c).mp hc), (hreach c).mp hc,
        fun q hq => hsub q (parent_suffix hq)⟩) hagree.length_sharers
    refine ⟨r, hr, hswept.congr fun c => (hreach c).symm, ?_, hcycle, fun h => ?_⟩
    · rw [hentry]
      cases type with
      | inv => exact Agrees.vacant (fun _ => rfl) (fun _ => rfl) rfl
      | invx => exact hagree.demote
      | fwd => exact absurd rfl hfwd
    · rcases hwb h with hwb | ⟨c, _, hc⟩
      · exact .inl hwb
      · exact .inr (hagree.inclx c hc)

end

/-! ### `Cache::invalidate` -/

namespace Lowered

theorem refl (hnot : ¬ type.Reaches (stateAt t h p a)) (hsub : ∀ q, p <:+ q → Consistent t h a q) :
    Lowered t type p a h h where
  only := .refl a h
  outside _ _ := rfl
  states _ hq := (InvType.after_of_not_reaches (not_reaches_below hsub hnot hq)).symm
  consistent := hsub
  filters _ hq _ := (filterAfter_of_not_reaches (not_reaches_below hsub hnot hq)).symm

theorem of_setFilter {f : Nat → FilterEntry} (hlow : Lowered t type p a (h.setFilter p f) h') :
    Lowered t type p a h h' := by
  refine ⟨(OnlyLine.setFilter a h p f).trans hlow.only, ?_, ?_, hlow.consistent, ?_⟩
  · intro q hq
    have hne : q ≠ p := fun hqp => hq (hqp ▸ suffix_rfl)
    rw [hlow.outside q hq, setFilter_of_ne h f hne]
  · intro q hq
    rw [hlow.states q hq, stateAt_setFilter]
  · intro q hq hne
    rw [hlow.filters q hq hne, stateAt_setFilter, setFilter_of_ne h f hne]

end Lowered

theorem Agrees.after_own {n : Nat} {x : MESIState} {s : Nat → MESIState}
    (hA : Agrees n e x fun c => type.after (s c)) : Agrees n e (type.after x) fun c => type.after (s c) := by
  cases type with
  | inv => exact { hA with incl := fun _ hc => absurd rfl hc, inclx := fun _ hc => absurd hc not_excl_I }
  | invx =>
    exact { hA with
      incl := fun c hc => (demoted_eq_I x).not.mpr (hA.incl c hc)
      inclx := fun _ hc => absurd hc (not_excl_demoted _) }
  | fwd => exact hA

theorem Swept.lowered (hs : Swept t type p a (fun c => type.Reaches (stateAt t h (c :: p) a)) h h')
    (hl : t.lookup p (h p).array a = some id) (hsub : ∀ q, p <:+ q → Consistent t h a q)
    (hA : Agrees (t.numChildren p) ((h' p).tcc id) (stateAt t h p a)
      fun c => type.after (childStates t h p a c)) :
    Lowered t type p a h (h'.setState p id (type.after (stateAt t h p a))) := by
  have hl' : t.lookup p (h' p).array a = some id := by rwa [hs.only.array p]
  have hchild : ∀ c q, (c :: p) <:+ q → stateAt t h' q a = type.after (stateAt t h q a) := by
    intro c q hq
    by_cases hc : type.Reaches (stateAt t h (c :: p) a)
    · exact hs.states c hc q hq
    · have hnot := not_reaches_below (fun q hq => hsub q (parent_suffix hq)) hc hq
      rw [InvType.after_of_not_reaches hnot, stateAt, hs.apply_below hc hq]
      rfl
  have hsame : ∀ c q, (c :: p) <:+ q → h'.setState p id (type.after (stateAt t h p a)) q = h' q :=
    fun c q hq => setState_of_ne h' id _ (ne_of_child_suffix hq)
  refine ⟨hs.only.trans (.setState hl' _), ?_, ?_, ?_, ?_⟩
  · intro q hq
    have hne : q ≠ p := fun hqp => hq (hqp ▸ suffix_rfl)
    rw [setState_of_ne h' id _ hne]
    exact hs.outside q hne fun c _ hc => hq (parent_suffix hc)
  · intro q hq
    rw [stateAt_setState hl']
    rcases suffix_cases hq with rfl | ⟨c, hc⟩
    · rw [if_pos rfl]
    · rw [if_neg (ne_of_child_suffix hc)]
      exact hchild c q hc
  · intro q hq
    rcases suffix_cases hq with rfl | ⟨c, hc⟩
    · rw [Consistent, entryAt_setState, entryAt_of_lookup hl', stateAt_setState hl', if_pos rfl,
        childStates_setState_of_ne hl' fun c => cons_ne_self c q,
        show childStates t h' q a = fun c => type.after (childStates t h q a c) from
          funext fun c => hchild c (c :: q) suffix_rfl]
      exact hA.after_own
    · exact (hs.consistent_below (fun q hq => hsub q (parent_suffix hq)) hc).of_below (hsame c) hc
  · intro q hq hne
    rcases suffix_cases hq with rfl | ⟨c, hc⟩
    · exact absurd rfl hne
    · rw [setState_filterArray]
      by_cases hr : type.Reaches (stateAt t h (c :: p) a)
      · exact hs.filters c hr q hc
      · have hnot := not_reaches_below (fun q hq => hsub q (parent_suffix hq)) hr hc
        rw [hs.apply_below hr hc, filterAfter_of_not_reaches hnot]

theorem setState_same (h : Hierarchy) (p : Path) (id : Nat) : h.setState p id ((h p).bcc id) = h := by
  rw [Hierarchy.setState, update_eq_self, update_eq_self]

theorem processInval_bcc (hl : t.lookup p (h p).array a = some id) (hadm : type.Admits (stateAt t h p a)) (wb : Bool) :
    MESIBottomCC.processInval p id type wb h =
      some (wb || stateAt t h p a == .M, h.setState p id (type.after (stateAt t h p a))) := by
  rw [stateAt_of_lookup hl] at hadm ⊢
  unfold MESIBottomCC.processInval
  cases type with
  | fwd => exact absurd hadm not_false
  | inv =>
    by_cases hs : (h p).bcc id = .I
    · rw [if_pos hs]
      have hsame := setState_same h p id
      rw [hs] at hsame ⊢
      rw [InvType.after, hsame]
      simp
    · rw [if_neg hs]
      rfl
  | invx =>
    by_cases hs : (h p).bcc id = .I
    · rw [if_pos hs]
      have hsame := setState_same h p id
      rw [hs] at hsame ⊢
      rw [InvType.after_I, hsame]
      simp
    · have hx : (h p).bcc id = .E ∨ (h p).bcc id = .M := hadm hs
      rw [if_neg hs]
      simp only
      rw [assertThat_true hx]
      rcases hx with hx | hx <;> rw [hx] <;> rfl

section

variable (hdown : ¬ t.isTerminal p → ChildrenSpec t down type p a) (wb : Bool) (cycle : Nat)
include hdown wb cycle

theorem processInv_spec (hl : t.lookup p (h p).array a = some id) (hsub : ∀ q, p <:+ q → Consistent t h a q)
    (hadm : type.Admits (stateAt t h p a)) :
    ∃ r, processInv t down p a id type wb cycle h = some r ∧ Lowered t type p a h r.caches ∧
      (r.caches p).filterArray = (h p).filterArray ∧ cycle ≤ r.cycle ∧
      (r.reqWriteback = true → wb = true ∨ (stateAt t h p a).Excl) := by
  have hwb : ∀ wb', (wb' = true → wb = true ∨ (stateAt t h p a).Excl) →
      (wb' || stateAt t h p a == .M) = true → wb = true ∨ (stateAt t h p a).Excl := by
    intro wb' himp hor
    rcases Bool.or_eq_true_iff.mp hor with hor | hor
    · exact himp hor
    · exact .inr (.inr (beq_iff_eq.mp hor))
  by_cases hterm : t.isTerminal p
  · have hnone : ∀ c, childStates t h p a c = .I := by
      intro c
      by_contra hc
      have := (hsub p suffix_rfl).bound c hc
      rw [show t.numChildren p = 0 from hterm] at this
      omega
    have hswept : Swept t type p a (fun c => type.Reaches (stateAt t h (c :: p) a)) h h :=
      Swept.refl fun c hc => hc.ne_I (hnone c)
    have hagree := hsub p suffix_rfl
    rw [Consistent, entryAt_of_lookup hl] at hagree
    rw [processInv, if_pos hterm, processInval_bcc hl hadm]
    refine ⟨_, rfl, hswept.lowered hl hsub ?_, setState_filterArray _ _ _ _ _, le_rfl, hwb wb .inl⟩
    rw [show (fun c => type.after (childStates t h p a c)) = childStates t h p a from
      funext fun c => by rw [hnone c, InvType.after_I]]
    exact hagree
  · have hfwd : type ≠ .fwd := by
      intro htype
      rw [htype] at hadm
      exact hadm
    obtain ⟨r, hr, hswept, hA, hcycle, hrwb⟩ := sendInvalidates_spec (hdown hterm) wb cycle hl hfwd hsub
    have hl' : t.lookup p (r.caches p).array a = some id := by rwa [hswept.only.array p]
    rw [← hswept.stateAt_self] at hadm
    rw [processInv, if_neg hterm, MESITopCC.processInval, if_neg hfwd, hr, bind_some,
      processInval_bcc hl' hadm, hswept.stateAt_self]
    exact ⟨_, rfl, hswept.lowered hl hsub hA, (setState_filterArray _ _ _ _ _).trans hswept.filterArray, hcycle,
      hwb _ hrwb⟩

theorem cacheInvalidate_spec (hsub : ∀ q, p <:+ q → Consistent t h a q) (hadm : type.Admits (stateAt t h p a)) :
    InvSpec t type p a wb cycle h (cacheInvalidate t down p a type wb cycle h) := by
  -- the hierarchy after the filter was looked at
  obtain ⟨h0, hh0, hsub0, hstate, hback, hfilter⟩ : ∃ h0,
      (if t.isTerminal p then h.setFilter p (t.clearFilter p a (h p).filterArray) else h) = h0 ∧
      (∀ q, p <:+ q → Consistent t h0 a q) ∧ stateAt t h0 p a = stateAt t h p a ∧
      (∀ h', Lowered t type p a h0 h' → Lowered t type p a h h') ∧
      (h0 p).filterArray = if t.isTerminal p then t.clearFilter p a (h p).filterArray else (h p).filterArray := by
    by_cases hterm : t.isTerminal p
    · rw [if_pos hterm, if_pos hterm]
      exact ⟨_, rfl, fun q hq => (hsub q hq).setFilter p _, stateAt_setFilter _ p, fun _ => .of_setFilter,
        setFilter_filterArray_self h p _⟩
    · rw [if_neg hterm, if_neg hterm]
      exact ⟨h, rfl, hsub, rfl, fun _ hlow => hlow, rfl⟩
  simp only [cacheInvalidate, hh0]
  rw [← hstate] at hadm
  rw [InvSpec, ← hstate]
  cases hl : t.lookup p (h0 p).array a with
  | none =>
    have hnot : ¬ type.Reaches (stateAt t h0 p a) := fun hr => hr.ne_I (stateAt_of_none hl)
    exact ⟨_, rfl, ⟨hback _ (.refl hnot hsub0), hfilter⟩, le_rfl, .inl⟩
  | some id =>
    obtain ⟨r, hr, hlow, hsame, hcycle, hwb⟩ := processInv_spec hdown wb (cycle + t.invLat p) hl hsub0 hadm
    exact ⟨r, hr, ⟨hback _ hlow, hsame.trans hfilter⟩, by omega, hwb⟩

end

theorem invalidateAt_spec (n : Nat) : ∀ (p : Path) (wb : Bool) (cycle : Nat) (h : Hierarchy),
    t.depth ≤ p.length + n → (∀ q, p <:+ q → Consistent t h a q) → type.Admits (stateAt t h p a) →
    InvSpec t type p a wb cycle h (invalidateAt t n p a type wb cycle h) := by
  induction n with
  | zero =>
    intro p wb cycle h hdepth hsub hadm
    exact cacheInvalidate_spec (fun hterm => absurd (t.terminal_of_depth p hdepth) hterm) wb cycle hsub hadm
  | succ n ih =>
    intro p wb cycle h hdepth hsub hadm
    refine cacheInvalidate_spec (fun _ c wb cycle h hsub hadm => ?_) wb cycle hsub hadm
    refine ih (c :: p) wb cycle h ?_ hsub hadm
    rw [length_cons]
    omega

/-- `invalidate` of the cache at `p` succeeds, and lowers exactly the line's states in it and
below it. -/
theorem invalidate_spec (p : Path) (wb : Bool) (cycle : Nat) (hsub : ∀ q, p <:+ q → Consistent t h a q)
    (hadm : type.Admits (stateAt t h p a)) :
    InvSpec t type p a wb cycle h (invalidate t p a type wb cycle h) :=
  invalidateAt_spec (t.depth - p.length) p wb cycle h (by omega) hsub hadm

theorem childrenSpec_invalidate (type : InvType) (p : Path) (a : Address) : ChildrenSpec t (invalidate t) type p a :=
  fun c wb cycle _ hsub hadm => invalidate_spec (c :: p) wb cycle hsub hadm

end Shma.Cache
