import Shma.Cache.Evict

/-!
# Asking for a line

A GET goes up until a cache has what is asked for, and makes room for the line in
every cache on its way. Each level keeps the invariant, gives the line to the
child that asked, and disturbs the caches below that child only by taking other
lines away.
-/
namespace Shma.Cache

open Lib.Subtree MESIState
open MESIBottomCC (fetch isExclusive processGetx processType request)
open List (suffix_rfl)
open MESITopCC (dropRequester grant own sendInvalidates share)

variable {t : Topology} {h h' h'' : Hierarchy} {p q : Path} {a : Address} {id : Nat} {x : MESIState}

variable (t) in
/-- What a GET of cache `p` for line `a` leaves of `p` and the caches below. -/
structure Fetched (p : Path) (a : Address) (h h' : Hierarchy) : Prop where
  coherent : Coherent t h'
  array : ∀ q, p <:+ q → (h' q).array = (h q).array
  below : ∀ c q, (c :: p) <:+ q → stateAt t h' q a = stateAt t h q a
  writesReads : t.isTerminal p → WritesReads (h p).filterArray → WritesReads (h' p).filterArray
  leaves : LeavesDisturbed t p h h'

def Asks (type : AccessType) (x : MESIState) : Prop :=
  type = .gets ∧ x = .I ∨ type = .getx ∧ ¬ x.Excl

def Answers (type : AccessType) (x : MESIState) : Prop :=
  type = .gets ∧ x ≠ .I ∨ type = .getx ∧ x = .M

variable {type : AccessType}

theorem Asks.not_excl (hasks : Asks type x) : ¬ x.Excl := by
  rcases hasks with ⟨-, rfl⟩ | ⟨-, hx⟩
  · exact not_excl_I
  · exact hx

theorem Answers.ne_I (hans : Answers type x) : x ≠ .I := by
  rcases hans with ⟨-, hx⟩ | ⟨-, rfl⟩
  · exact hx
  · decide

variable (t) in
/-- What cache `p` needs of its parent when it asks for line `a`. -/
def GetSpec (p : Path) (a : Address) (up : Upper) : Prop :=
  ∀ h id type cycle flags, Coherent t h → t.lookup p (h p).array a = some id → flags.prefetch = false →
    Asks type (stateAt t h p a) →
    ∃ r h', up (request h p a id type cycle flags) h = some (r, h') ∧ Fetched t p a h h' ∧
      Answers type (stateAt t h' p a)

namespace Fetched

theorem refl (hi : Coherent t h) (p : Path) (a : Address) : Fetched t p a h h :=
  ⟨hi, fun _ _ => rfl, fun _ _ _ => rfl, fun _ hw => hw, .refl p h⟩

theorem trans (hf : Fetched t p a h h') (hf' : Fetched t p a h' h'') : Fetched t p a h h'' where
  coherent := hf'.coherent
  array q hq := (hf'.array q hq).trans (hf.array q hq)
  below c q hq := (hf'.below c q hq).trans (hf.below c q hq)
  writesReads hp hw := hf'.writesReads hp (hf.writesReads hp hw)
  leaves := hf.leaves.trans hf'.leaves

theorem modify (hi : Coherent t h) (hl : t.lookup p (h p).array a = some id) (hx : (stateAt t h p a).Excl) :
    Fetched t p a h (h.setState p id .M) where
  coherent := hi.modify hl hx
  array q _ := setState_array h p id .M q
  below c q hq := by rw [stateAt_setState hl, if_neg (ne_of_child_suffix hq)]
  writesReads _ hw := by rwa [setState_filterArray]
  leaves := .of_update fun q hq => setState_of_ne h id .M hq

end Fetched

/-! ### The memory -/

theorem getSpec_memAccess (a : Address) : GetSpec t [] a (memAccess t) := by
  intro h id type cycle flags hi hl _ hasks
  obtain ⟨x, hx, hans⟩ : ∃ x, memState (request h [] a id type cycle flags) = some x ∧
      Answers type x := by
    rcases hasks with ⟨rfl, -⟩ | ⟨rfl, -⟩
    · refine ⟨_, rfl, .inl ⟨rfl, ?_⟩⟩
      split <;> decide
    · exact ⟨.M, rfl, .inr ⟨rfl, rfl⟩⟩
  have hlat : cycle < cycle + t.minLatency := Nat.lt_add_of_pos_right t.minLatency_pos
  have hstate : stateAt t (h.setState [] id x) [] a = x := by rw [stateAt_setState hl, if_pos rfl]
  refine ⟨cycle + t.minLatency, h.setState [] id x, ?_, ⟨?_, ?_, ?_, ?_, ?_⟩, by rwa [hstate]⟩
  · rw [memAccess, hx]
    exact congrArg (Option.map _) (assertThat_true hlat)
  · refine hi.of_onlyLine (.setState hl x) (consistent_setState hl (hi.line a) ?_ fun c q hp => ?_)
    · exact (hi.line a []).own (fun _ => hans.ne_I) fun hexcl => absurd hexcl hasks.not_excl
    · exact absurd hp (cons_ne_nil c q).symm
  · exact fun q _ => setState_array h [] id x q
  · intro c q hq
    rw [stateAt_setState hl, if_neg (ne_of_child_suffix hq)]
  · intro _ hw
    rwa [setState_filterArray]
  · exact .of_update fun q hq => setState_of_ne h id x hq

/-! ### Room for the line -/

variable (t) in
/-- What `findLine` leaves: the line is in the array of cache `p`, in the state it was in. -/
structure Found (p : Path) (a : Address) (id : Nat) (h h' : Hierarchy) : Prop where
  coherent : Coherent t h'
  lookup : t.lookup p (h' p).array a = some id
  array : ∀ q, q ≠ p → (h' q).array = (h q).array
  states : ∀ q, stateAt t h' q a = stateAt t h q a
  filterArray : (h' p).filterArray = (h p).filterArray
  leaves : LeavesDisturbed t p h h'

variable {victim : Path → Nat} {up : Upper} {cycle : Nat}

theorem findLine_get (hput : PutSpec t p up)
    (hv : victim p ∈ t.ways p a) (hi : Coherent t h) (htype : type = .gets ∨ type = .getx) :
    ∃ id h', findLine t victim up p a type cycle h = some (id, h') ∧ Found t p a id h h' := by
  cases hl : t.lookup p (h p).array a with
  | some id => exact ⟨id, h, findLine_hit hl, hi, hl, fun _ _ => rfl, fun _ => rfl, rfl, .refl p h⟩
  | none =>
    obtain ⟨r, h1, hr, hev⟩ := processEviction_spec hput hi (victim p) cycle
    have hl1 := (hev.only.lookup p a).trans hl
    have hne : a ≠ (h p).array (victim p) := by
      intro htag
      exact List.find?_eq_none.mp hl (victim p) hv (beq_iff_eq.mpr htag.symm)
    refine ⟨victim p, h1.setTag p (victim p) a, ?_, hev.coherent.insert hv hl1 hev.bcc hev.tcc, ?_, ?_, ?_, ?_,
      ?_⟩
    · rw [findLine, hl]
      refine bind_eq_some_iff.mpr ⟨(), assertThat_true htype, ?_⟩
      rw [hr]
      rfl
    · rw [setTag_array_self]
      exact lookup_insert_self hv hl1
    · intro q hq
      rw [setTag_of_ne h1 _ hq, hev.only.array q]
    · intro q
      rw [hev.coherent.stateAt_insert hv hl1 hev.bcc hev.tcc, hev.only.stateAt_of_ne hne]
    · rw [setTag_filterArray, hev.filterArray]
    · exact hev.leaves.trans (.of_update fun q hq => setTag_of_ne h1 _ hq)

/-! ### The cache's own state -/

variable {flags : Flags}

section Own

variable (hget : GetSpec t p a up) (hi : Coherent t h) (hl : t.lookup p (h p).array a = some id)
  (hflags : flags.prefetch = false)
include hget hi hl hflags

theorem fetch_spec (hasks : Asks type (stateAt t h p a)) (cycle : Nat) :
    ∃ r h', fetch t up p a id type cycle flags h = some (r, h') ∧ cycle ≤ r ∧ Fetched t p a h h' ∧
      Answers type (stateAt t h' p a) := by
  obtain ⟨r, h', hr, hf, hans⟩ := hget h id type cycle flags hi hl hflags hasks
  refine ⟨cycle + (subU64 r cycle % 2^32 + t.parentRTT p) % 2^32, h', ?_, Nat.le_add_right cycle _,
    hf, hans⟩
  rw [fetch, hr]
  rfl

theorem processGetx_spec (cycle : Nat) :
    ∃ r h', processGetx t up p a id cycle flags h = some (r, h') ∧ cycle ≤ r ∧ Fetched t p a h h' ∧
      stateAt t h' p a = .M := by
  have hstate := stateAt_of_lookup hl
  have hmod : ∀ h' : Hierarchy, t.lookup p (h' p).array a = some id → stateAt t (h'.setState p id .M) p a = .M := by
    intro h' hl'
    rw [stateAt_setState hl', if_pos rfl]
  have hfetch : ¬ (stateAt t h p a).Excl → ∃ r h',
      ((fetch t up p a id .getx cycle flags h).map fun r => (r.1, r.2.setState p id .M)) =
        some (r, h') ∧ cycle ≤ r ∧ Fetched t p a h h' ∧ stateAt t h' p a = .M := by
    intro hx
    obtain ⟨r, h1, hr, hcycle, hf, hans⟩ := fetch_spec hget hi hl hflags (.inr ⟨rfl, hx⟩) cycle
    have hl1 : t.lookup p (h1 p).array a = some id := by rwa [hf.array p suffix_rfl]
    have hM : (stateAt t h1 p a).Excl := by
      rcases hans with ⟨htype, -⟩ | ⟨-, hM⟩
      · exact absurd htype (by decide)
      · exact .inr hM
    refine ⟨r, h1.setState p id .M, ?_, hcycle, hf.trans (.modify hf.coherent hl1 hM), hmod h1 hl1⟩
    rw [hr]
    rfl
  rw [processGetx]
  rw [hstate] at hfetch
  cases hs : (h p).bcc id with
  | I => exact hfetch (by rw [hs]; exact not_excl_I)
  | S => exact hfetch (by rw [hs]; exact not_excl_S)
  | E => exact ⟨cycle, _, rfl, le_rfl, .modify hi hl (by rw [hstate, hs]; exact excl_E), hmod h hl⟩
  | M => exact ⟨cycle, h, rfl, le_rfl, .refl hi p a, by rw [hstate, hs]⟩

theorem bccGet_spec (htype : type = .gets ∨ type = .getx) (cycle : Nat) :
    ∃ r h', MESIBottomCC.processAccess t up p a id type cycle flags h = some (r, h') ∧ cycle ≤ r ∧
      Fetched t p a h h' ∧ Answers type (stateAt t h' p a) := by
  have hstate := stateAt_of_lookup hl
  obtain ⟨r, h', hr, hcycle, hf, hans⟩ : ∃ r h',
      processType t up p a id type cycle flags h = some (r, h') ∧ cycle ≤ r ∧ Fetched t p a h h' ∧
        Answers type (stateAt t h' p a) := by
    rcases htype with rfl | rfl
    · rw [processType]
      by_cases hs : (h p).bcc id = .I
      · rw [if_pos hs]
        exact fetch_spec hget hi hl hflags (.inl ⟨rfl, hstate.trans hs⟩) cycle
      · rw [if_neg hs]
        exact ⟨cycle, h, rfl, le_rfl, .refl hi p a, .inl ⟨rfl, by rwa [hstate]⟩⟩
    · obtain ⟨r, h', hr, hcycle, hf, hM⟩ := processGetx_spec hget hi hl hflags cycle
      have hl' : t.lookup p (h' p).array a = some id := by rwa [hf.array p suffix_rfl]
      refine ⟨r, h', ?_, hcycle, hf, .inr ⟨rfl, hM⟩⟩
      rw [processType, hr, bind_some, assertThat_true ((stateAt_of_lookup hl').symm.trans hM)]
      rfl
  refine ⟨r, h', ?_, hcycle, hf, hans⟩
  rw [MESIBottomCC.processAccess, hr, bind_some, assertThat_true hcycle]
  rfl

end Own

/-! ### The directory -/

variable (t) in
/-- What the directory of the parent leaves when it gives line `a` to its child `p` in state `x`. -/
structure Granted (p : Path) (a : Address) (id : Nat) (x : MESIState) (h h' : Hierarchy) : Prop where
  coherent : Coherent t h'
  only : OnlyLine t a h h'
  self : h' p = h.setState p id x p
  below : ∀ c q, (c :: p) <:+ q → h' q = h q
  leaves : LeavesDisturbed t p h h'

variable {c idc : Nat}

theorem Granted.stateAt (hg : Granted t (c :: p) a idc x h h')
    (hlc : t.lookup (c :: p) (h (c :: p)).array a = some idc) : stateAt t h' (c :: p) a = x := by
  rw [stateAt_of_lookup (by rwa [hg.only.array]), hg.self, setState_bcc_self, update_self]

/-- Other children may have been told before; then entry and state are written. -/
theorem Swept.granted {type : InvType} {told : Nat → Prop} {e : Entry} (hi : Coherent t h)
    (hs : Swept t type p a told h h') (hterm : ¬ t.isTerminal p) (hc : ¬ told c)
    (hl : t.lookup p (h p).array a = some id) (hlc : t.lookup (c :: p) (h (c :: p)).array a = some idc)
    (hdir : Agrees (t.numChildren p) e (stateAt t h p a) (update (childStates t h' p a) c x))
    (hx : x ≠ .I) (hold : (stateAt t h (c :: p) a).Excl → x.Excl) :
    Granted t (c :: p) a idc x h ((h'.setEntry p id e).setState (c :: p) idc x) := by
  have hcp : h' (c :: p) = h (c :: p) := hs.apply_below hc suffix_rfl
  have hl' : t.lookup p (h' p).array a = some id := by rwa [hs.only.array p]
  have hlc' : t.lookup (c :: p) (h' (c :: p)).array a = some idc := by rwa [hcp]
  have hlc2 : t.lookup (c :: p) (h'.setEntry p id e (c :: p)).array a = some idc := by rwa [setEntry_array]
  have ho := hs.only.trans ((OnlyLine.setEntry hl' e).trans (.setState hlc2 x))
  have hcons : ∀ q, q ≠ p → Consistent t h' a q := fun q hq => hs.consistent_of_ne (fun q _ => hi.line a q) hq
  refine ⟨hi.of_onlyLine ho ?_, ho, ?_, fun d q hq => ?_, ?_⟩
  · refine consistent_setEntry_setState hl' hlc' hcons ?_ ?_
    · rwa [hs.stateAt_self]
    · refine (hcons (c :: p) (cons_ne_self c p)).own (fun _ => hx) fun hexcl => hold ?_
      rwa [Cache.stateAt, hcp] at hexcl
  · exact setState_congr _ _ _ ((setEntry_of_ne h' id e (cons_ne_self c p)).trans hcp)
  · have hcq := parent_suffix hq
    rw [setState_of_ne _ idc x (ne_of_child_suffix hq), setEntry_of_ne h' id e (ne_of_child_suffix hcq),
      hs.apply_below hc hcq]
  · intro q hq hqc
    have hqp : q ≠ p := fun hqp => hterm (hqp ▸ hq)
    rw [setState_of_ne _ idc x hqc, setEntry_of_ne h' id e hqp]
    exact hs.leaves q hq hqp

theorem Granted.modify (hg : Granted t (c :: p) a idc x h h') (hterm : ¬ t.isTerminal p)
    (hl : t.lookup p (h p).array a = some id) (hx : (Cache.stateAt t h' p a).Excl) :
    Granted t (c :: p) a idc x h (h'.setState p id .M) := by
  have hl' : t.lookup p (h' p).array a = some id := by rwa [hg.only.array p]
  refine ⟨hg.coherent.modify hl' hx, hg.only.trans (.setState hl' .M), ?_, fun d q hq => ?_, fun q hq hqc => ?_⟩
  · rw [setState_of_ne h' id .M (cons_ne_self c p), hg.self]
  · rw [setState_of_ne h' id .M (ne_of_child_suffix (parent_suffix hq)), hg.below d q hq]
  · have hqp : q ≠ p := fun hqp => hterm (hqp ▸ hq)
    rw [setState_of_ne h' id .M hqp]
    exact hg.leaves q hq hqc

theorem stateAt_grant {e : Entry} :
    stateAt t ((h'.setEntry p id e).setState (c :: p) idc x) p a = stateAt t h' p a := by
  rw [stateAt, setState_of_ne _ idc x (cons_ne_self c p).symm]
  exact stateAt_setEntry p

section Directory

variable {c idc resp : Nat}

theorem dropRequester_spec (hA : Agrees (t.numChildren p) ((h p).tcc id) (stateAt t h p a) (childStates t h p a))
    (hx : ¬ (stateAt t h (c :: p) a).Excl) :
    ∃ e, dropRequester p id c h = some (h.setEntry p id e) ∧
      Agrees (t.numChildren p) e (stateAt t h p a) (update (childStates t h p a) c .I) := by
  rw [dropRequester]
  by_cases hc : ((h p).tcc id).sharers c = true
  · have hne := (hA.sharers c).mp hc
    have hnot : ((h p).tcc id).isExclusive = false := by
      rw [← Bool.not_eq_true, hA.isExclusive_iff]
      intro ⟨d, hd⟩
      by_cases hdc : d = c
      · exact hx (hdc ▸ hd)
      · exact hne (hA.single hd (Ne.symm hdc))
    refine ⟨((h p).tcc id).drop c, ?_, hA.drop hne⟩
    simp only [if_pos hc]
    rw [assertThat_true hnot]
    rfl
  · have hI : childStates t h p a c = .I := by
      by_contra hne
      exact hc ((hA.sharers c).mpr hne)
    refine ⟨(h p).tcc id, ?_, ?_⟩
    · simp only [if_neg hc]
      rw [Hierarchy.setEntry, update_eq_self, update_eq_self]
    · rw [← hI, update_eq_self]
      exact hA

theorem isExclusive_iff (hl : t.lookup p (h p).array a = some id) :
    isExclusive h p id = true ↔ (stateAt t h p a).Excl := by
  rw [isExclusive, stateAt_of_lookup hl, Bool.or_eq_true, beq_iff_eq, beq_iff_eq]
  rfl

variable (hi : Coherent t h) (hterm : ¬ t.isTerminal p) (hl : t.lookup p (h p).array a = some id)
  (hlc : t.lookup (c :: p) (h (c :: p)).array a = some idc) (hc : c < t.numChildren p)
include hi hterm hl hlc hc

theorem share_spec (hown : stateAt t h p a ≠ .I) (hI : stateAt t h (c :: p) a = .I) :
    ∃ r, share t (invalidate t) p a id c (.line (c :: p) idc) false resp h = some r ∧ resp ≤ r.cycle ∧
      Granted t (c :: p) a idc .S h r.caches ∧ stateAt t r.caches p a = stateAt t h p a ∧
      (r.reqWriteback = true → (stateAt t h p a).Excl) := by
  have hA := hi.agrees hl
  obtain ⟨r, hr, hswept, hA', hcycle, hwb⟩ := sendInvalidates_spec (childrenSpec_invalidate .invx p a) false resp hl
    (by decide) fun q _ => hi.line a q
  have hnone : ∀ d, ¬ (InvType.after .invx (childStates t h p a d)).Excl := fun d => not_excl_demoted _
  have hnot : ((r.caches p).tcc id).isExclusive = false := by
    rw [← Bool.not_eq_true, hA'.isExclusive_iff]
    exact fun ⟨d, hd⟩ => hnone d hd
  have hc' : ¬ InvType.Reaches .invx (stateAt t h (c :: p) a) := by
    rw [hI]
    exact not_excl_I
  have hIc : InvType.after .invx (childStates t h p a c) = .I := by
    rw [childStates, hI]
    rfl
  -- without an exclusive sharer `sendInvalidates` would have nothing to do
  have hif : (if ((h p).tcc id).isExclusive = true then
      sendInvalidates t (invalidate t) p a id .invx false resp h
      else some ⟨resp, false, h⟩) = some r := by
    by_cases hexcl : ((h p).tcc id).isExclusive = true
    · rw [if_pos hexcl, hr]
    · rw [if_neg hexcl, ← hr, sendInvalidates, if_pos ⟨rfl, eq_false_iff.mpr hexcl⟩]
  have hgrant := hswept.granted hi hterm hc' hl hlc
    (by rw [hswept.childStates_self fun _ hd => hd]; exact hA'.share hc hown hIc hnone) (by decide)
    (fun hexcl => absurd hexcl (by rw [hI]; exact not_excl_I))
  refine ⟨grant p id (.line (c :: p) idc) { ((r.caches p).tcc id).add c with exclusive := false } .S r,
    ?_, hcycle, hgrant, stateAt_grant.trans hswept.stateAt_self, fun h => (hwb h).resolve_left Bool.noConfusion⟩
  refine bind_eq_some_iff.mpr ⟨(), assertThat_true (hA.not_sharer hI), ?_⟩
  refine bind_eq_some_iff.mpr ⟨r, hif, ?_⟩
  exact congrArg (Option.map _) (assertThat_true hnot)

theorem own_spec (hown : (stateAt t h p a).Excl) (hx : ¬ (stateAt t h (c :: p) a).Excl) :
    ∃ r, own t (invalidate t) p a id c (.line (c :: p) idc) false resp h = some r ∧ resp ≤ r.cycle ∧
      Granted t (c :: p) a idc .M h r.caches ∧ stateAt t r.caches p a = stateAt t h p a := by
  obtain ⟨e, he, hA⟩ := @dropRequester_spec t h p a id c (hi.agrees hl) hx
  have hl1 : t.lookup p (h.setEntry p id e p).array a = some id := by rwa [setEntry_array]
  have htcc : (h.setEntry p id e p).tcc id = e := by rw [setEntry_tcc_self, update_self]
  -- the other sharers are told
  have hreach : ∀ d, e.sharers d = true → d ≠ c ∧ childStates t h p a d ≠ .I := by
    intro d hd
    have hne := (hA.sharers d).mp hd
    by_cases hdc : d = c
    · rw [hdc, update_self] at hne
      exact absurd rfl hne
    · rw [update_of_ne hdc] at hne
      exact ⟨hdc, hne⟩
  have hbelow : ∀ d q, (d :: p) <:+ q → Consistent t (h.setEntry p id e) a q := by
    intro d q hq
    exact (hi.line a q).of_below (fun q hq => setEntry_of_ne h id e (ne_of_child_suffix hq)) hq
  obtain ⟨r, hr, hswept, hentry, hcycle, -⟩ := sendInvalidates_told (h := h.setEntry p id e)
    (childrenSpec_invalidate .inv p a) false resp hl1 (by decide) (fun htype => nomatch htype)
    (by
      rw [htcc]
      intro d hd
      refine ⟨hA.bound d ((hA.sharers d).mp hd), ?_, hbelow d⟩
      rw [stateAt_setEntry]
      exact (hreach d hd).2)
    (by rw [htcc]; exact hA.length_sharers)
  rw [htcc] at hswept hentry
  have hswept := hswept.of_setEntry hl
  have hothers : ∀ d, d ≠ c → update (childStates t r.caches p a) c .M d = .I := by
    intro d hdc
    rw [update_of_ne hdc, childStates]
    by_cases hd : e.sharers d = true
    · exact hswept.states d hd (d :: p) suffix_rfl
    · rw [stateAt, hswept.apply_below hd suffix_rfl]
      have hI := not_not.mp (mt (hA.sharers d).mpr hd)
      rwa [update_of_ne hdc] at hI
  have hdir : Agrees (t.numChildren p) { ((r.caches p).tcc id).add c with exclusive := true } (stateAt t h p a)
      (update (childStates t r.caches p a) c .M) := by
    refine .sole hc hown hothers (by rw [update_self]; exact excl_M) (fun d => ?_) ?_ rfl
    · rw [hentry]
      by_cases hdc : d = c <;> simp [Entry.add, Entry.settled, hdc]
    · rw [hentry]
      rfl
  have hone : (((r.caches p).tcc id).add c).numSharers = 1 := by
    rw [hentry]
    rfl
  refine ⟨grant p id (.line (c :: p) idc) { ((r.caches p).tcc id).add c with exclusive := true } .M r,
    ?_, hcycle, hswept.granted hi hterm (fun hd => (hreach c hd).1 rfl) hl hlc hdir (by decide)
      (fun hexcl => absurd hexcl hx), stateAt_grant.trans hswept.stateAt_self⟩
  refine bind_eq_some_iff.mpr ⟨_, he, bind_eq_some_iff.mpr ⟨r, hr, ?_⟩⟩
  exact congrArg (Option.map _) (assertThat_true hone)

theorem tccGet_spec (hans : Answers type (stateAt t h p a)) (hasks : Asks type (stateAt t h (c :: p) a)) :
    ∃ r x, MESITopCC.processAccess t (invalidate t) p a id type c (isExclusive h p id)
        (.line (c :: p) idc) false resp flags h = some r ∧ resp ≤ r.cycle ∧
      Granted t (c :: p) a idc x h r.caches ∧ Answers type x ∧ stateAt t r.caches p a = stateAt t h p a ∧
      (r.reqWriteback = true → (stateAt t h p a).Excl) := by
  have hA := hi.agrees hl
  rcases hasks with ⟨rfl, hI⟩ | ⟨rfl, hx⟩
  · have hown : stateAt t h p a ≠ .I := hans.ne_I
    rw [MESITopCC.processAccess]
    by_cases hcond : ((h p).tcc id).isEmpty = true ∧ isExclusive h p id = true ∧ flags.noExcl = false
    · rw [if_pos hcond]
      have hnone := hA.isEmpty_iff.mp hcond.1
      have hdir : Agrees (t.numChildren p) ⟨1, update ((h p).tcc id).sharers c true, true⟩ (stateAt t h p a)
          (update (childStates t h p a) c .E) := by
        refine .sole hc ((isExclusive_iff hl).mp hcond.2.1) (fun d hd => ?_) ?_ (fun d => ?_) rfl rfl
        · rw [update_of_ne hd]
          exact hnone d
        · rw [update_self]
          exact excl_E
        · by_cases hd : d = c
          · simp [hd]
          · simp [hd, hA.not_sharer (hnone d)]
      have hswept : Swept t .inv p a (fun _ => False) h h := .refl fun _ => not_false
      refine ⟨_, .E, rfl, le_rfl, hswept.granted hi hterm not_false hl hlc hdir (by decide) fun _ => excl_E,
        .inl ⟨rfl, by decide⟩, stateAt_grant, Bool.noConfusion⟩
    · rw [if_neg hcond]
      obtain ⟨r, hr, hcycle, hgrant, hstate, hwb⟩ := @share_spec t h p a id c idc resp hi hterm hl hlc hc hown hI
      exact ⟨r, .S, hr, hcycle, hgrant, .inl ⟨rfl, by decide⟩, hstate, hwb⟩
  · have hown : (stateAt t h p a).Excl := by
      rcases hans with ⟨htype, -⟩ | ⟨-, hM⟩
      · exact absurd htype (by decide)
      · exact .inr hM
    obtain ⟨r, hr, hcycle, hgrant, hstate⟩ := @own_spec t h p a id c idc resp hi hterm hl hlc hc hown hx
    refine ⟨r, .M, ?_, hcycle, hgrant, .inr ⟨rfl, rfl⟩, hstate, fun _ => hown⟩
    exact bind_eq_some_iff.mpr ⟨(), assertThat_true ((isExclusive_iff hl).mpr hown), hr⟩

theorem serveChild_get {h0 : Hierarchy} (hans : Answers type (stateAt t h p a))
    (hasks : Asks type (stateAt t h (c :: p) a)) :
    ∃ r h' x, serveChild t p (request h0 (c :: p) a idc type cycle flags) id resp h = some (r, h') ∧
      resp ≤ r ∧ Granted t (c :: p) a idc x h h' ∧ Answers type x := by
  obtain ⟨r, x, hr, hcycle, hgrant, hansx, hstate, hwb⟩ := @tccGet_spec t h p a id type
    { flags with prefetch := false } c idc resp hi hterm hl hlc hc hans hasks
  by_cases hw : r.reqWriteback = true
  · have hx := hwb hw
    rw [← hstate] at hx
    have hl' : t.lookup p (r.caches p).array a = some id := by rwa [hgrant.only.array p]
    refine ⟨r.cycle, r.caches.setState p id .M, x, ?_, hcycle, hgrant.modify hterm hl hx, hansx⟩
    refine bind_eq_some_iff.mpr ⟨r, hr, ?_⟩
    rw [if_pos hw, MESIBottomCC.processWritebackOnAccess, Coherent.toModified hl' hx]
    rfl
  · refine ⟨r.cycle, r.caches, x, ?_, hcycle, hgrant, hansx⟩
    refine bind_eq_some_iff.mpr ⟨r, hr, ?_⟩
    rw [if_neg hw]
    rfl

end Directory

/-! ### All levels -/

/-- Three stages of a GET of child `c`: room, the cache's own state, the directory. -/
theorem Fetched.of_stages {c id idc : Nat} {h1 h2 h3 : Hierarchy} (hterm : ¬ t.isTerminal p)
    (hlc : t.lookup (c :: p) (h (c :: p)).array a = some idc) (hfound : Found t p a id h h1)
    (hf : Fetched t p a h1 h2) (hg : Granted t (c :: p) a idc x h2 h3) :
    Fetched t (c :: p) a h h3 ∧ stateAt t h3 (c :: p) a = x := by
  have harr : ∀ q, (c :: p) <:+ q → (h2 q).array = (h q).array := by
    intro q hq
    rw [hf.array q (parent_suffix hq), hfound.array q (ne_of_child_suffix hq)]
  have hlc2 : t.lookup (c :: p) (h2 (c :: p)).array a = some idc := by rwa [harr (c :: p) suffix_rfl]
  have hleaves : LeavesDisturbed t p h h2 := hfound.leaves.trans hf.leaves
  refine ⟨⟨hg.coherent, ?_, ?_, ?_, (hleaves.of_not_terminal hterm (c :: p)).trans hg.leaves⟩, hg.stateAt hlc2⟩
  · intro q hq
    rw [hg.only.array q, harr q hq]
  · intro d q hq
    rw [stateAt, hg.below d q hq]
    exact (hf.below c q (parent_suffix hq)).trans (hfound.states q)
  · intro hleaf hw
    rw [hg.self, setState_filterArray]
    exact (hleaves (c :: p) hleaf (cons_ne_self c p)).writesReads hw

theorem getSpec_cacheAccess {c : Nat} (hput : PutSpec t p up)
    (hget : GetSpec t p a up) (hv : victim p ∈ t.ways p a) (hc : c < t.numChildren p) :
    GetSpec t (c :: p) a (cacheAccess t victim p up) := by
  intro h idc type cycle flags hi hlc hflags hasks
  have hterm : ¬ t.isTerminal p := by
    intro hterm
    rw [show t.numChildren p = 0 from hterm] at hc
    omega
  have htype : type = .gets ∨ type = .getx := hasks.imp And.left And.left
  obtain ⟨id, h1, hfind, hfound⟩ := @findLine_get t h p a type victim up (cycle + t.accLat p) hput hv hi htype
  obtain ⟨r2, h2, hbcc, hcycle2, hf, hans⟩ := @bccGet_spec t h1 p a id type up { flags with prefetch := false }
    hget hfound.coherent hfound.lookup rfl htype (cycle + t.accLat p)
  have hlc2 : t.lookup (c :: p) (h2 (c :: p)).array a = some idc := by
    rwa [hf.array (c :: p) (List.suffix_cons c p), hfound.array (c :: p) (cons_ne_self c p)]
  have hasks2 : Asks type (stateAt t h2 (c :: p) a) := by
    rwa [hf.below c (c :: p) suffix_rfl, hfound.states]
  obtain ⟨r3, h3, x, hserve, hcycle3, hg, hansx⟩ := @serveChild_get t h2 p a id type cycle flags c idc r2
    hf.coherent hterm (by rw [hf.array p suffix_rfl]; exact hfound.lookup) hlc2 hc h hans hasks2
  obtain ⟨hdone, hstate⟩ := Fetched.of_stages hterm hlc hfound hf hg
  refine ⟨r3, h3, ?_, hdone, by rwa [hstate]⟩
  have hstart := @startAccess_request t h p (c :: p) a idc type cycle flags hterm (by
    rcases htype with rfl | rfl <;> simp)
  have hnoput : (type = .puts ∨ type = .putx) → (h1 p).bcc id ≠ .I := by
    intro hput
    rcases htype with rfl | rfl <;> simp at hput
  have hproc : processAccess t up p (request h (c :: p) a idc type cycle flags) id
      (cycle + t.accLat p) h1 = some (r3, h3) := by
    rw [processAccess, if_neg hterm]
    refine bind_eq_some_iff.mpr ⟨(), assertThat_true hnoput, ?_⟩
    refine bind_eq_some_iff.mpr ⟨(), assertThat_true fun hpre => ?_, ?_⟩
    · exact absurd (hflags.symm.trans hpre) Bool.false_ne_true
    · refine bind_eq_some_iff.mpr ⟨_, hbcc, ?_⟩
      have hnot : ¬ flags.prefetch = true := by
        rw [hflags]
        exact Bool.false_ne_true
      exact (if_neg hnot).trans hserve
  rw [cacheAccess_eq hstart]
  refine bind_eq_some_iff.mpr ⟨_, bind_eq_some_iff.mpr ⟨_, hfind, hproc⟩, ?_⟩
  have hle : cycle ≤ r3 := by omega
  exact congrArg (Option.map _) (assertThat_true hle)

theorem putSpec_parent (victim : Path → Nat) (p : Path) : PutSpec t p (parent t victim p) := by
  cases p with
  | nil => exact putSpec_memAccess
  | cons c p =>
    rw [parent, access_eq]
    exact putSpec_cacheAccess victim _ c p

/-- Every cache of the tree serves a GET of its children. -/
theorem getSpec_parent (hnode : t.Node p) (hv : ∀ q, q <:+ p → victim q ∈ t.ways q a) :
    GetSpec t p a (parent t victim p) := by
  induction p with
  | nil => exact getSpec_memAccess a
  | cons c p ih =>
    have hsuf : ∀ q, q <:+ p → q <:+ c :: p := fun q hq => hq.trans (List.suffix_cons c p)
    rw [parent, access_eq]
    exact getSpec_cacheAccess (putSpec_parent victim p) (ih hnode.2 fun q hq => hv q (hsuf q hq))
      (hv p (hsuf p suffix_rfl)) hnode.1

theorem startAccess_coreRequest (hleaf : t.isTerminal p) (htype : type = .gets ∨ type = .getx) :
    startAccess t p (coreRequest a type cycle flags) h = some (false, type) := by
  rw [startAccess, if_pos hleaf]
  refine bind_eq_some_iff.mpr ⟨(), assertThat_true htype, ?_⟩
  exact if_pos rfl

/-- An access of a terminal cache succeeds, keeps the invariant, and leaves the line there as
asked. -/
theorem access_terminal
    (hleaf : t.isTerminal p) (hnode : t.Node p) (hv : ∀ q, q <:+ p → victim q ∈ t.ways q a) (hi : Coherent t h)
    (htype : type = .gets ∨ type = .getx) (hflags : flags.prefetch = false) :
    ∃ r h', access t victim p (coreRequest a type cycle flags) h = some (r, h') ∧ Coherent t h' ∧
      (WritesReads (h p).filterArray → WritesReads (h' p).filterArray) ∧ LeavesDisturbed t p h h' ∧
      Answers type (stateAt t h' p a) := by
  obtain ⟨id, h1, hfind, hfound⟩ := @findLine_get t h p a type victim (parent t victim p) (cycle + t.accLat p)
    (putSpec_parent victim p) (hv p suffix_rfl) hi htype
  obtain ⟨r, h2, hbcc, hcycle, hf, hans⟩ := bccGet_spec (getSpec_parent hnode hv) hfound.coherent
    hfound.lookup hflags htype (cycle + t.accLat p)
  refine ⟨r, h2, ?_, hf.coherent, fun hw => hf.writesReads hleaf ?_, hfound.leaves.trans hf.leaves, hans⟩
  case refine_2 => rwa [hfound.filterArray]
  have hstart := @startAccess_coreRequest t h p a type cycle flags hleaf htype
  have hproc : processAccess t (parent t victim p) p (coreRequest a type cycle flags) id (cycle + t.accLat p) h1 =
      some (r, h2) := by
    rw [processAccess, if_pos hleaf]
    exact hbcc
  rw [access_eq, cacheAccess_eq hstart]
  refine bind_eq_some_iff.mpr ⟨_, bind_eq_some_iff.mpr ⟨_, hfind, hproc⟩, ?_⟩
  have hle : cycle ≤ r := by omega
  exact congrArg (Option.map _) (assertThat_true hle)

end Shma.Cache
