import Shma.Cache.Line

/-!
# The coherence invariant

In every cache the directory entry of every line agrees with the line's states
there and in the children, and line ids that no lookup finds are invalid. The
invariant is kept by an update of one line that keeps that line's agreements,
and by the insertion of a line in the place of an invalid one.
-/
namespace Shma.Cache

variable {t : Topology} {h h' : Hierarchy} {p q : Path} {a b : Address} {id : Nat} {x : MESIState} {e : Entry}

variable (t) in
/-- The entry of line `a` in cache `p` agrees with the states of the line there and below. -/
def Consistent (h : Hierarchy) (a : Address) (p : Path) : Prop :=
  Agrees (t.numChildren p) (entryAt t h p a) (stateAt t h p a) (childStates t h p a)

/-- An entry without sharers; `exclusive` may be left over. -/
def Entry.Vacant (e : Entry) : Prop := (∀ c, e.sharers c = false) ∧ e.numSharers = 0

theorem Entry.vacant_clear : Entry.clear.Vacant := ⟨fun _ => rfl, rfl⟩

variable (t) in
structure Coherent (h : Hierarchy) : Prop where
  line : ∀ a p, Consistent t h a p
  /-- Several ids may carry one tag: a new array is zeroed. Lookup finds the first of
  them; the others are invalid. -/
  hidden : ∀ p id, t.lookup p (h p).array ((h p).array id) ≠ some id →
    (h p).bcc id = .I ∧ ((h p).tcc id).Vacant

/-! ### One line -/

theorem Consistent.congr (hc : Consistent t h a p) (he : entryAt t h' p a = entryAt t h p a)
    (hs : stateAt t h' p a = stateAt t h p a) (hcs : childStates t h' p a = childStates t h p a) :
    Consistent t h' a p := by
  rw [Consistent, he, hs, hcs]
  exact hc

theorem Consistent.of_apply_eq (hc : Consistent t h a p) (hp : h' p = h p) (hch : ∀ c, h' (c :: p) = h (c :: p)) :
    Consistent t h' a p := by
  refine hc.congr ?_ ?_ (funext fun c => ?_)
  · rw [entryAt, entryAt, hp]
  · rw [stateAt, stateAt, hp]
  · rw [childStates, childStates, stateAt, stateAt, hch c]

theorem Consistent.setFilter (hc : Consistent t h a q) (p : Path) (f : Nat → FilterEntry) :
    Consistent t (h.setFilter p f) a q :=
  hc.congr (entryAt_setFilter f q) (stateAt_setFilter f q) (funext fun c => stateAt_setFilter f (c :: q))

theorem consistent_setState (hl : t.lookup p (h p).array a = some id) (hc : ∀ q, Consistent t h a q)
    (hown : Agrees (t.numChildren p) (entryAt t h p a) x (childStates t h p a)) (hparent : ∀ c q, p = c :: q →
      Agrees (t.numChildren q) (entryAt t h q a) (stateAt t h q a) (update (childStates t h q a) c x))
    (q : Path) : Consistent t (h.setState p id x) a q := by
  rw [Consistent, entryAt_setState, stateAt_setState hl]
  by_cases hq : q = p
  · subst q
    rw [if_pos rfl, childStates_setState_of_ne hl fun c => cons_ne_self c p]
    exact hown
  · rw [if_neg hq]
    by_cases hch : ∃ c, p = c :: q
    · obtain ⟨c, rfl⟩ := hch
      rw [childStates_setState_self hl]
      exact hparent c q rfl
    · rw [childStates_setState_of_ne hl fun c hp => hch ⟨c, hp.symm⟩]
      exact hc q

theorem consistent_setEntry_setState {c : Nat} {id' : Nat} (hl : t.lookup p (h p).array a = some id)
    (hlc : t.lookup (c :: p) (h (c :: p)).array a = some id') (hc : ∀ q, q ≠ p → Consistent t h a q)
    (hdir : Agrees (t.numChildren p) e (stateAt t h p a) (update (childStates t h p a) c x))
    (hown : Agrees (t.numChildren (c :: p)) (entryAt t h (c :: p) a) x (childStates t h (c :: p) a))
    (q : Path) : Consistent t ((h.setEntry p id e).setState (c :: p) id' x) a q := by
  have hlc' : t.lookup (c :: p) (h.setEntry p id e (c :: p)).array a = some id' := by rwa [setEntry_array]
  rw [Consistent, entryAt_setState, entryAt_setEntry hl, stateAt_setState hlc', stateAt_setEntry]
  by_cases hq : q = p
  · subst q
    rw [if_pos rfl, if_neg (cons_ne_self c p).symm, childStates_setState_self hlc', childStates_setEntry]
    exact hdir
  · rw [if_neg hq]
    have hne : ∀ d, d :: q ≠ c :: p := fun d hd => hq (List.cons.inj hd).2
    rw [childStates_setState_of_ne hlc' hne, childStates_setEntry]
    by_cases hqc : q = c :: p
    · subst q
      rw [if_pos rfl]
      exact hown
    · rw [if_neg hqc]
      exact hc q hq

namespace Coherent

theorem new : Coherent t Hierarchy.new where
  line a p := by
    have hs : ∀ q, stateAt t Hierarchy.new q a = .I := by
      intro q
      rw [stateAt, Topology.stateOf]
      cases t.lookup q (Hierarchy.new q).array a <;> rfl
    have he : entryAt t Hierarchy.new p a = .clear := by
      rw [entryAt]
      cases t.lookup p (Hierarchy.new p).array a <;> rfl
    rw [Consistent, he]
    exact Agrees.vacant (fun c => hs (c :: p)) (fun _ => rfl) rfl
  hidden _ _ _ := ⟨rfl, Entry.vacant_clear⟩

/-- An operation on line `a` keeps the invariant if it keeps it for that line. -/
theorem of_onlyLine (hi : Coherent t h) (ho : OnlyLine t a h h') (hc : ∀ q, Consistent t h' a q) : Coherent t h' where
  line b p := by
    by_cases hb : b = a
    · subst b
      exact hc p
    · exact (hi.line b p).congr (ho.entryAt_of_ne hb p) (ho.stateAt_of_ne hb p)
        (funext fun c => ho.stateAt_of_ne hb (c :: p))
  hidden p id hid := by
    rw [ho.array p] at hid
    have hne : t.lookup p (h p).array a ≠ some id := by
      intro hl
      rw [lookup_tag hl] at hid
      exact hid hl
    rw [ho.bcc p id hne, ho.tcc p id hne]
    exact hi.hidden p id hid

theorem below_invalid (hi : Coherent t h) (hs : stateAt t h p a = .I) (c : Nat) : stateAt t h (c :: p) a = .I :=
  (hi.line a p).children_of_invalid hs c

end Coherent

/-! ### Insertion of a line -/

theorem find?_of_imp {α : Type*} {f g : α → Bool} {l : List α} {y : α} (hf : l.find? f = some y)
    (hgy : g y = true) (hgf : ∀ z ∈ l, g z = true → f z = true) : l.find? g = some y := by
  induction l with
  | nil => simp at hf
  | cons z l ih =>
    rw [List.find?_cons] at hf ⊢
    cases hg : g z with
    | true =>
      rw [hgf z mem_cons_self hg] at hf
      exact hf
    | false =>
      cases hfz : f z with
      | true =>
        rw [hfz] at hf
        rw [some_inj.mp hf, hgy] at hg
        exact Bool.noConfusion hg
      | false =>
        rw [hfz] at hf
        exact ih hf fun w hw => hgf w (mem_cons_of_mem z hw)

section Insert

variable {array : Nat → Address} {v : Nat}

theorem lookup_insert_self (hv : v ∈ t.ways p a) (hl : t.lookup p array a = none) :
    t.lookup p (update array v a) a = some v := by
  have hnone : ∀ id ∈ t.ways p a, array id ≠ a := by
    intro id hid heq
    have := List.find?_eq_none.mp hl id hid
    exact this (beq_iff_eq.mpr heq)
  obtain ⟨id, hid⟩ : ∃ id, t.lookup p (update array v a) a = some id := by
    refine isSome_iff_exists.mp (List.find?_isSome.mpr ⟨v, hv, ?_⟩)
    rw [update_self, beq_iff_eq]
  have htag := lookup_tag hid
  by_cases hidv : id = v
  · rw [← hidv] at hid ⊢
    exact hid
  · rw [update_of_ne hidv] at htag
    exact absurd htag (hnone id (List.mem_of_find?_eq_some hid))

theorem lookup_insert_of_some (hb : b ≠ a) (hl : t.lookup p array b = some id) (hid : id ≠ v) :
    t.lookup p (update array v a) b = some id := by
  refine find?_of_imp hl ?_ fun z _ hz => ?_
  · rw [update_of_ne hid, beq_iff_eq]
    exact lookup_tag hl
  · by_cases hzv : z = v
    · rw [hzv, update_self, beq_iff_eq] at hz
      exact absurd hz.symm hb
    · rwa [update_of_ne hzv] at hz

theorem lookup_insert_of_none (hb : b ≠ a) (hl : t.lookup p array b = none) :
    t.lookup p (update array v a) b = none := by
  refine List.find?_eq_none.mpr fun z hz htag => ?_
  by_cases hzv : z = v
  · rw [hzv, update_self, beq_iff_eq] at htag
    exact hb htag.symm
  · rw [update_of_ne hzv] at htag
    exact List.find?_eq_none.mp hl z hz htag

end Insert

namespace Coherent

variable {v : Nat}

section

variable (hi : Coherent t h) (hv : v ∈ t.ways p a) (hl : t.lookup p (h p).array a = none) (hs : (h p).bcc v = .I)
  (he : ((h p).tcc v).Vacant)
include hi hv hl hs he

/-- The view of line `b` in cache `p` after an insertion: as before, or invalid and vacant
before and after. -/
theorem insert_view (b : Address) :
    (stateAt t (h.setTag p v a) p b = stateAt t h p b ∧ entryAt t (h.setTag p v a) p b = entryAt t h p b) ∨
      stateAt t (h.setTag p v a) p b = .I ∧ stateAt t h p b = .I ∧ (entryAt t (h.setTag p v a) p b).Vacant := by
  have harr : (h.setTag p v a p).array = update (h p).array v a := setTag_array_self h p v
  by_cases hb : b = a
  · subst b
    have hl' : t.lookup p (h.setTag p v a p).array a = some v := by rw [harr, lookup_insert_self hv hl]
    right
    rw [stateAt_of_lookup hl', entryAt_of_lookup hl', setTag_bcc, setTag_tcc]
    exact ⟨hs, stateAt_of_none hl, he⟩
  · cases hlb : t.lookup p (h p).array b with
    | none =>
      have hl' : t.lookup p (h.setTag p v a p).array b = none := by rw [harr, lookup_insert_of_none hb hlb]
      left
      rw [stateAt_of_none hl', stateAt_of_none hlb, entryAt_of_none hl', entryAt_of_none hlb]
      exact ⟨rfl, rfl⟩
    | some id =>
      by_cases hid : id = v
      · subst id
        right
        rw [stateAt_of_lookup hlb]
        cases hl' : t.lookup p (h.setTag p v a p).array b with
        | none =>
          rw [stateAt_of_none hl', entryAt_of_none hl']
          exact ⟨rfl, hs, Entry.vacant_clear⟩
        | some id =>
          -- another id with the tag, which lookup did not find before
          have htag := lookup_tag hl'
          rw [harr] at htag
          have hne : id ≠ v := by
            intro hid
            rw [hid, update_self] at htag
            exact hb htag.symm
          rw [update_of_ne hne] at htag
          have hvac := hi.hidden p id (by rw [htag, hlb]; exact fun h => hne (some_inj.mp h).symm)
          rw [stateAt_of_lookup hl', entryAt_of_lookup hl', setTag_bcc, setTag_tcc]
          exact ⟨hvac.1, hs, hvac.2⟩
      · have hl' : t.lookup p (h.setTag p v a p).array b = some id := by
          rw [harr, lookup_insert_of_some hb hlb hid]
        left
        rw [stateAt_of_lookup hl', stateAt_of_lookup hlb, entryAt_of_lookup hl', entryAt_of_lookup hlb, setTag_bcc,
          setTag_tcc]
        exact ⟨rfl, rfl⟩

theorem stateAt_insert (q : Path) (b : Address) : stateAt t (h.setTag p v a) q b = stateAt t h q b := by
  by_cases hq : q = p
  · subst q
    rcases hi.insert_view hv hl hs he b with hsame | hI
    · exact hsame.1
    · rw [hI.1, hI.2.1]
  · rw [stateAt, stateAt, setTag_of_ne h v hq]

theorem insert : Coherent t (h.setTag p v a) where
  line b q := by
    have hstate := hi.stateAt_insert hv hl hs he
    have hcs : childStates t (h.setTag p v a) q b = childStates t h q b := funext fun c => hstate (c :: q) b
    by_cases hq : q = p
    · subst q
      rcases hi.insert_view hv hl hs he b with hsame | hI
      · exact (hi.line b p).congr hsame.2 hsame.1 hcs
      · rw [Consistent, hcs]
        exact Agrees.vacant (hi.below_invalid hI.2.1) hI.2.2.1 hI.2.2.2
    · refine (hi.line b q).congr ?_ (hstate q b) hcs
      rw [entryAt, entryAt, setTag_of_ne h v hq]
  hidden q id hid := by
    rw [setTag_bcc, setTag_tcc]
    by_cases hq : q = p
    · subst q
      by_cases hidv : id = v
      · exact hidv ▸ ⟨hs, he⟩
      · refine hi.hidden p id fun hfound => hid ?_
        rw [setTag_array_self, update_of_ne hidv]
        refine lookup_insert_of_some ?_ hfound hidv
        intro htag
        rw [htag, hl] at hfound
        cases hfound
    · rw [setTag_of_ne h v hq] at hid
      exact hi.hidden q id hid

end

end Coherent

end Shma.Cache
