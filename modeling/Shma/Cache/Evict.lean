import Shma.Cache.Leaf

/-!
# Giving a line up

A PUT goes one level up and no further: by inclusion the parent has the line. The
eviction of a line takes it away from all caches below first, and leaves its
place invalid.
-/
namespace Shma.Cache

open Lib.Subtree MESIState
open MESIBottomCC (isExclusive processType request writeBack)

variable {t : Topology} {h h' : Hierarchy} {p q : Path} {a b : Address} {id : Nat}

namespace Coherent

theorem lookup_parent {c : Nat} (hi : Coherent t h) (hs : stateAt t h (c :: p) a ≠ .I) :
    ∃ id, t.lookup p (h p).array a = some id :=
  lookup_of_ne_I ((hi.line a p).incl c hs)

theorem agrees (hi : Coherent t h) (hl : t.lookup p (h p).array a = some id) :
    Agrees (t.numChildren p) ((h p).tcc id) (stateAt t h p a) (childStates t h p a) := by
  have := hi.line a p
  rwa [Consistent, entryAt_of_lookup hl] at this

theorem modify (hi : Coherent t h) (hl : t.lookup p (h p).array a = some id) (hx : (stateAt t h p a).Excl) :
    Coherent t (h.setState p id .M) := by
  refine hi.of_onlyLine (.setState hl .M) (consistent_setState hl (hi.line a) ?_ fun c q hp => ?_)
  · exact (hi.line a p).own (fun _ => by decide) fun _ => excl_M
  · subst hp
    refine (hi.line a q).children (fun d => ?_) fun d => ?_
    · by_cases hd : d = c
      · subst hd
        rw [update_self]
        exact iff_of_false (by decide) hx.ne_I
      · rw [update_of_ne hd]
    · by_cases hd : d = c
      · subst hd
        rw [update_self]
        exact iff_of_true excl_M hx
      · rw [update_of_ne hd]

theorem toModified (hl : t.lookup p (h p).array a = some id) (hx : (stateAt t h p a).Excl) :
    MESIBottomCC.toModified h p id = some (h.setState p id .M) := by
  rw [stateAt_of_lookup hl] at hx
  rw [MESIBottomCC.toModified, assertThat_true (Or.symm hx)]
  rfl

end Coherent

variable (t) in
structure GivenUp (p : Path) (a : Address) (id : Nat) (h h' : Hierarchy) : Prop where
  coherent : Coherent t h'
  only : OnlyLine t a h h'
  self : h' p = h.setState p id .I p
  leaves : LeavesDisturbed t p h h'

variable (t) in
/-- What cache `p` needs of its parent when it gives up a line that no child holds. -/
def PutSpec (p : Path) (up : Upper) : Prop :=
  ∀ h a id type cycle, Coherent t h → t.lookup p (h p).array a = some id →
    (∀ c, stateAt t h (c :: p) a = .I) →
    (type = .puts ∧ stateAt t h p a ≠ .I ∨ type = .putx ∧ stateAt t h p a = .M) →
    ∃ r h', up (request h p a id type cycle {}) h = some (r, h') ∧ GivenUp t p a id h h'

theorem Coherent.swept {type : InvType} (hi : Coherent t h) (hl : t.lookup p (h p).array a = some id)
    (hs : Swept t type p a (fun c => type.Reaches (stateAt t h (c :: p) a)) h h')
    (hA : Agrees (t.numChildren p) ((h' p).tcc id) (stateAt t h p a)
      fun c => type.after (childStates t h p a c)) : Coherent t h' := by
  refine hi.of_onlyLine hs.only fun q => ?_
  by_cases hq : q = p
  · subst hq
    rw [Consistent, entryAt_of_lookup (by rwa [hs.only.array q]), hs.stateAt_self, hs.childStates_self fun _ hc => hc]
    exact hA
  · exact hs.consistent_of_ne (fun q _ => hi.line a q) hq

/-! ### The parent's side -/

theorem putSpec_memAccess : PutSpec t [] (memAccess t) := by
  intro h a id type cycle hi hl hch htype
  have hs : memState (request h [] a id type cycle {}) = some .I := by
    rcases htype with ⟨rfl, _⟩ | ⟨rfl, _⟩ <;> rfl
  have hlat : cycle < cycle + t.minLatency := Nat.lt_add_of_pos_right t.minLatency_pos
  refine ⟨cycle + t.minLatency, h.setState [] id .I, ?_, ?_, .setState hl .I, rfl, ?_⟩
  · rw [memAccess, hs]
    exact congrArg (Option.map _) (assertThat_true hlat)
  · refine hi.of_onlyLine (.setState hl .I) (consistent_setState hl (hi.line a) ?_ fun c q hp => ?_)
    · exact (hi.line a []).own_of_children_invalid hch
    · exact absurd hp (cons_ne_nil c q).symm
  · exact .of_update fun q hq => setState_of_ne h id .I hq

theorem not_terminal_of_child {c : Nat} (hi : Coherent t h) (hs : stateAt t h (c :: p) a ≠ .I) : ¬ t.isTerminal p := by
  intro hterm
  have hlt := (hi.line a p).bound c hs
  rw [show t.numChildren p = 0 from hterm] at hlt
  omega

variable {type : AccessType} {cycle : Nat}

theorem startAccess_request {flags : Flags} (hterm : ¬ t.isTerminal p)
    (htype : type = .gets ∨ type = .getx ∨ type = .puts ∨ type = .putx) :
    startAccess t p (request h q a id type cycle flags) h = some (false, type) := by
  rw [startAccess, if_neg hterm]
  have : assertThat (type = .gets ∨ type = .getx ∨ type = .puts ∨ type = .putx) = some () :=
    assertThat_true htype
  rw [show (request h q a id type cycle flags).type = type from rfl, this]
  exact if_pos rfl

variable {up : Upper}

theorem cacheAccess_eq {victim : Path → Nat} {req : Request} (hs : startAccess t p req h = some (false, req.type)) :
    cacheAccess t victim p up req h =
      ((findLine t victim up p req.lineAddr req.type (req.cycle + t.accLat p) h).bind fun l =>
        processAccess t up p req l.1 (req.cycle + t.accLat p) l.2).bind fun r =>
      (assertThat (req.cycle ≤ r.1)).map fun _ => r := by
  rw [cacheAccess, hs]
  rfl

theorem findLine_hit {victim : Path → Nat} (hl : t.lookup p (h p).array a = some id) :
    findLine t victim up p a type cycle h = some (id, h) := by
  rw [findLine, hl]

theorem processAccess_put {flags : Flags} (hi : Coherent t h)
    (hl : t.lookup p (h p).array a = some id) (hne : stateAt t h p a ≠ .I)
    (htype : type = .puts ∨ type = .putx ∧ (stateAt t h p a).Excl) :
    ∃ h1, MESIBottomCC.processAccess t up p a id type cycle flags h = some (cycle, h1) ∧ Coherent t h1 ∧
      OnlyLine t a h h1 ∧ ∀ q, q ≠ p → h1 q = h q := by
  rcases htype with rfl | ⟨rfl, hx⟩
  · rw [stateAt_of_lookup hl] at hne
    refine ⟨h, ?_, hi, .refl a h, fun _ _ => rfl⟩
    rw [MESIBottomCC.processAccess, processType, assertThat_true hne, map_some,
      bind_some, assertThat_true le_rfl, map_some]
  · refine ⟨h.setState p id .M, ?_, hi.modify hl hx, .setState hl .M, fun q hq => setState_of_ne h id .M hq⟩
    rw [MESIBottomCC.processAccess, processType, Coherent.toModified hl hx, map_some,
      bind_some, assertThat_true le_rfl, map_some]

theorem serveChild_put {c idc cycle resp : Nat} (hi : Coherent t h') (hl : t.lookup p (h' p).array a = some id)
    (htype : type = .puts ∧ stateAt t h' (c :: p) a ≠ .I ∨ type = .putx ∧ stateAt t h' (c :: p) a = .M) :
    serveChild t p (request h (c :: p) a idc type cycle {}) id resp h' =
      some (resp, (h'.setEntry p id (((h' p).tcc id).drop c)).setState (c :: p) idc .I) := by
  have hA := hi.agrees hl
  have hne : childStates t h' p a c ≠ .I := by
    rcases htype with ⟨-, hs⟩ | ⟨-, hs⟩
    · exact hs
    · rw [childStates, hs]
      decide
  have hrelease : MESITopCC.release p id c (.line (c :: p) idc) false resp h' =
      some ⟨resp, false, (h'.setEntry p id (((h' p).tcc id).drop c)).setState (c :: p) idc .I⟩ := by
    rw [MESITopCC.release, assertThat_true ((hA.sharers c).mpr hne)]
    rfl
  have htcc : MESITopCC.processAccess t (invalidate t) p a id type c (isExclusive h' p id)
      (.line (c :: p) idc) false resp {} h' =
      some ⟨resp, false, (h'.setEntry p id (((h' p).tcc id).drop c)).setState (c :: p) idc .I⟩ := by
    rcases htype with ⟨rfl, -⟩ | ⟨rfl, hs⟩
    · exact hrelease
    · have hexcl : ((h' p).tcc id).isExclusive = true := hA.isExclusive_iff.mpr ⟨c, .inr hs⟩
      rw [MESITopCC.processAccess, assertThat_true hexcl]
      exact hrelease
  exact bind_eq_some_iff.mpr ⟨_, htcc, rfl⟩

/-- The sharer bit and the child's state go together; the parent's own state may have become M
before. -/
theorem GivenUp.release {h1 : Hierarchy} {c idc : Nat} (hi : Coherent t h1) (ho : OnlyLine t a h h1)
    (hsame : ∀ q, q ≠ p → h1 q = h q) (hterm : ¬ t.isTerminal p) (hl : t.lookup p (h p).array a = some id)
    (hlc : t.lookup (c :: p) (h (c :: p)).array a = some idc) (hne : stateAt t h (c :: p) a ≠ .I)
    (hch : ∀ d, stateAt t h (d :: c :: p) a = .I) :
    GivenUp t (c :: p) a idc h ((h1.setEntry p id (((h1 p).tcc id).drop c)).setState (c :: p) idc .I) := by
  have hcp : h1 (c :: p) = h (c :: p) := hsame (c :: p) (cons_ne_self c p)
  have hl1 : t.lookup p (h1 p).array a = some id := by rwa [ho.array p]
  have hlc1 : t.lookup (c :: p) (h1 (c :: p)).array a = some idc := by rwa [hcp]
  have hlc2 : t.lookup (c :: p) (h1.setEntry p id (((h1 p).tcc id).drop c) (c :: p)).array a = some idc := by
    rwa [setEntry_array]
  have hne1 : childStates t h1 p a c ≠ .I := by
    rw [childStates, stateAt, hcp]
    exact hne
  have hch1 : ∀ d, childStates t h1 (c :: p) a d = .I := by
    intro d
    rw [childStates, stateAt, hsame (d :: c :: p) (ne_of_child_suffix (List.suffix_cons d (c :: p)))]
    exact hch d
  have ho1 := (OnlyLine.setEntry hl1 (((h1 p).tcc id).drop c)).trans (.setState hlc2 .I)
  refine ⟨hi.of_onlyLine ho1 ?_, ho.trans ho1, ?_, fun q hq hqc => .of_eq ?_⟩
  · exact consistent_setEntry_setState hl1 hlc1 (fun q _ => hi.line a q) ((hi.agrees hl1).drop hne1)
      ((hi.line a (c :: p)).own_of_children_invalid hch1)
  · exact setState_congr _ _ _ ((setEntry_of_ne h1 id _ (cons_ne_self c p)).trans hcp)
  · have hqp : q ≠ p := fun hqp => hterm (hqp ▸ hq)
    rw [setState_of_ne _ idc .I hqc, setEntry_of_ne h1 id _ hqp, hsame q hqp]

theorem putSpec_cacheAccess (victim : Path → Nat) (up : Upper) (c : Nat) (p : Path) :
    PutSpec t (c :: p) (cacheAccess t victim p up) := by
  intro h a idc type cycle hi hlc hch htype
  have hne : stateAt t h (c :: p) a ≠ .I := by
    rcases htype with ⟨-, hs⟩ | ⟨-, hs⟩
    · exact hs
    · rw [hs]
      decide
  obtain ⟨id, hl⟩ := hi.lookup_parent hne
  have hterm := not_terminal_of_child hi hne
  have hA := hi.agrees hl
  obtain ⟨h1, hbcc, hi1, ho1, hsame1⟩ := @processAccess_put t h p a id type (cycle + t.accLat p) up {} hi hl
    (hA.incl c hne) (htype.imp (fun h => h.1) fun h => ⟨h.1, hA.inclx c (.inr h.2)⟩)
  have hl1 : t.lookup p (h1 p).array a = some id := by rwa [ho1.array p]
  have hstate : stateAt t h1 (c :: p) a = stateAt t h (c :: p) a := by
    rw [stateAt, stateAt, hsame1 (c :: p) (cons_ne_self c p)]
  have hserve := @serveChild_put t h h1 p a id type c idc cycle (cycle + t.accLat p) hi1 hl1 (by rwa [hstate])
  refine ⟨cycle + t.accLat p, _, ?_, .release hi1 ho1 hsame1 hterm hl hlc hne hch⟩
  have hstart := @startAccess_request t h p (c :: p) a idc type cycle {} hterm (by
    rcases htype with ⟨rfl, _⟩ | ⟨rfl, _⟩ <;> simp)
  have hvalid : (type = .puts ∨ type = .putx) → (h p).bcc id ≠ .I := by
    intro _
    rw [← stateAt_of_lookup hl]
    exact hA.incl c hne
  have hproc : processAccess t up p (request h (c :: p) a idc type cycle {}) id
      (cycle + t.accLat p) h = some
        (cycle + t.accLat p, (h1.setEntry p id (((h1 p).tcc id).drop c)).setState (c :: p) idc .I) := by
    rw [processAccess, if_neg hterm]
    refine bind_eq_some_iff.mpr ⟨(), assertThat_true hvalid, ?_⟩
    refine bind_eq_some_iff.mpr ⟨(), assertThat_true Bool.noConfusion, ?_⟩
    exact bind_eq_some_iff.mpr ⟨_, hbcc, hserve⟩
  rw [cacheAccess_eq hstart]
  refine bind_eq_some_iff.mpr ⟨_, bind_eq_some_iff.mpr ⟨_, findLine_hit hl, hproc⟩, ?_⟩
  exact congrArg (Option.map _) (assertThat_true (Nat.le_add_right cycle (t.accLat p)))

/-! ### The eviction -/

theorem Coherent.vacant_of_invalid (hi : Coherent t h) (hl : t.lookup p (h p).array a = some id)
    (hs : stateAt t h p a = .I) : ((h p).tcc id).Vacant := by
  have hA := hi.agrees hl
  have hnone := hA.children_of_invalid hs
  exact ⟨fun c => hA.not_sharer (hnone c), beq_iff_eq.mp (hA.isEmpty_iff.mpr hnone)⟩

variable (t) in
/-- What the eviction from line id `v` of cache `p` leaves: the id is free, and only the line it
held was touched. -/
structure Evicted (p : Path) (v : Nat) (h h' : Hierarchy) : Prop where
  coherent : Coherent t h'
  only : OnlyLine t ((h p).array v) h h'
  bcc : (h' p).bcc v = .I
  tcc : ((h' p).tcc v).Vacant
  filterArray : (h' p).filterArray = (h p).filterArray
  leaves : LeavesDisturbed t p h h'

section

variable (hput : PutSpec t p up) (hi : Coherent t h) (hl : t.lookup p (h p).array a = some id)
  (hch : ∀ c, stateAt t h (c :: p) a = .I)
include hput hi hl hch

theorem writeBack_spec (cycle : Nat) : ∃ r h', writeBack up p a id cycle h = some (r, h') ∧ GivenUp t p a id h h' := by
  have hstate := stateAt_of_lookup hl
  rw [writeBack]
  cases hs : (h p).bcc id with
  | I =>
    have hself : h.setState p id .I = h := by
      rw [← hs]
      exact setState_same h p id
    exact ⟨cycle, h, rfl, hi, .refl a h, (congrFun hself p).symm, .refl p h⟩
  | S | E => exact hput h a id .puts cycle hi hl hch (.inl ⟨rfl, by rw [hstate, hs]; decide⟩)
  | M => exact hput h a id .putx cycle hi hl hch (.inr ⟨rfl, by rw [hstate, hs]⟩)

theorem bccEviction_spec (wb : Bool) (hwb : wb = true → (stateAt t h p a).Excl) (cycle : Nat) :
    ∃ r h', MESIBottomCC.processEviction up p a id wb cycle h = some (r, h') ∧ Coherent t h' ∧
      OnlyLine t a h h' ∧ (h' p).bcc id = .I ∧ (h' p).filterArray = (h p).filterArray ∧
      LeavesDisturbed t p h h' := by
  -- the state in which the PUT is sent
  obtain ⟨h1, hh1, hi1, ho1, hfilter1, hsame1⟩ : ∃ h1,
      (if wb = true then MESIBottomCC.toModified h p id else some h) = some h1 ∧ Coherent t h1 ∧
        OnlyLine t a h h1 ∧ (h1 p).filterArray = (h p).filterArray ∧ ∀ q, q ≠ p → h1 q = h q := by
    by_cases hw : wb = true
    · rw [if_pos hw]
      exact ⟨_, Coherent.toModified hl (hwb hw), hi.modify hl (hwb hw), .setState hl .M,
        setState_filterArray h p id .M p, fun q hq => setState_of_ne h id .M hq⟩
    · rw [if_neg hw]
      exact ⟨h, rfl, hi, .refl a h, rfl, fun _ _ => rfl⟩
  have hch1 : ∀ c, stateAt t h1 (c :: p) a = .I := by
    intro c
    rw [stateAt, hsame1 (c :: p) (cons_ne_self c p)]
    exact hch c
  obtain ⟨r, h', hr, hgone⟩ := writeBack_spec hput hi1 (by rwa [ho1.array p]) hch1 cycle
  have hstate : (h' p).bcc id = .I := by
    rw [hgone.self, setState_bcc_self, update_self]
  refine ⟨r, h', ?_, hgone.coherent, ho1.trans hgone.only, hstate,
    by rw [hgone.self, setState_filterArray, hfilter1], (LeavesDisturbed.of_update hsame1).trans hgone.leaves⟩
  refine bind_eq_some_iff.mpr ⟨h1, hh1, bind_eq_some_iff.mpr ⟨_, hr, ?_⟩⟩
  exact congrArg (Option.map _) (assertThat_true hstate)

end

theorem children_of_terminal (hi : Coherent t h) (hterm : t.isTerminal p) (c : Nat) : stateAt t h (c :: p) a = .I := by
  by_contra hc
  exact not_terminal_of_child hi hc hterm

/-- `processEviction` of a line id whose line, if any, lookup finds elsewhere. -/
theorem processEviction_hidden {v : Nat} (hbcc : (h p).bcc v = .I) (htcc : ((h p).tcc v).Vacant)
    (w : Address) (cycle : Nat) : processEviction t up p w v cycle h = some (cycle, h) := by
  have hbottom : MESIBottomCC.processEviction up p w v false cycle h = some (cycle, h) := by
    have hput : writeBack up p w v cycle h = some (cycle, h) := by
      rw [writeBack, hbcc]
    refine bind_eq_some_iff.mpr ⟨h, rfl, bind_eq_some_iff.mpr ⟨_, hput, ?_⟩⟩
    exact congrArg (Option.map _) (assertThat_true hbcc)
  rw [processEviction]
  split
  · exact hbottom
  · have hempty : ((h p).tcc v).isEmpty = true := beq_iff_eq.mpr htcc.2
    rw [MESITopCC.processEviction, MESITopCC.sendInvalidates, if_pos hempty]
    exact hbottom

theorem processEviction_spec (hput : PutSpec t p up) (hi : Coherent t h) (v cycle : Nat) :
    ∃ r h', processEviction t up p ((h p).array v) v cycle h = some (r, h') ∧ Evicted t p v h h' := by
  by_cases hl : t.lookup p (h p).array ((h p).array v) = some v
  · by_cases hterm : t.isTerminal p
    · obtain ⟨r, h', hr, hi', ho, hs, hfilter, hleaves⟩ :=
        bccEviction_spec hput hi hl (children_of_terminal hi hterm) false Bool.noConfusion cycle
      have hl' := (ho.lookup p _).trans hl
      refine ⟨r, h', ?_, hi', ho, hs, hi'.vacant_of_invalid hl' ((stateAt_of_lookup hl').trans hs), hfilter,
        hleaves⟩
      rw [processEviction, if_pos hterm]
      exact hr
    · -- first the copies below go
      obtain ⟨e, he, hswept, hA, -, hwb⟩ := sendInvalidates_spec (childrenSpec_invalidate .inv p _) false cycle hl
        (by decide) fun q _ => hi.line _ q
      have hi1 := hi.swept hl hswept hA
      have hl1 := (hswept.only.lookup p _).trans hl
      have hch : ∀ c, stateAt t e.caches (c :: p) ((h p).array v) = .I :=
        fun c => congrFun (hswept.childStates_self fun _ hc => hc) c
      obtain ⟨r, h', hr, hi', ho, hs, hfilter, hleaves⟩ := bccEviction_spec hput hi1 hl1 hch e.reqWriteback
        (fun h => by rw [hswept.stateAt_self]; exact (hwb h).resolve_left Bool.noConfusion) e.cycle
      have hl' := (ho.lookup p _).trans hl1
      refine ⟨r, h', ?_, hi', hswept.only.trans ho, hs,
        hi'.vacant_of_invalid hl' ((stateAt_of_lookup hl').trans hs), hfilter.trans hswept.filterArray,
        hswept.leaves.trans hleaves⟩
      rw [processEviction, if_neg hterm, MESITopCC.processEviction, he]
      exact hr
  · obtain ⟨hbcc, htcc⟩ := hi.hidden p v hl
    exact ⟨cycle, h, processEviction_hidden hbcc htcc _ cycle, hi, .refl _ h, hbcc, htcc, rfl, .refl p h⟩

end Shma.Cache
