import Shma.Nvmain.FlatDecoder

/-!
# Exchanges of rows in the flat memory

Runs of the decoder under the calls that the migrator makes: one migration at a time, between a
slow and a fast row, with the states of the two set in any order.
-/
namespace Shma.Nvmain

open Lib Lib.Run

namespace FlatDecoder

inductive Op where
  | start (promotee demotee : Place)
  | set (page : Place) (newState : MigrationState)

variable (L : FlatLayout) (d : FlatDecoder)

def address (p : Place) : NVMAddress := ⟨L.addr p, L.addr p, p.row⟩

def step : Op → Option FlatDecoder
  | .start promotee demotee => d.startMigration L (address L promotee) (address L demotee)
  | .set page newState => d.setMigrationState L (address L page) newState

/-- A slow row is exchanged with a fast one, and while this goes on states are set for the two. -/
def Allowed : Op → Prop
  | .start promotee demotee =>
    L.Has promotee ∧ L.Has demotee ∧ promotee.media = .slow ∧ demotee.media = .fast
  | .set page _ =>
    L.Has page ∧ d.migrating = true ∧ (L.rowKey page = d.inputPage ∨ L.rowKey page = d.outputPage)

def Fresh : Op → Prop
  | .start promotee demotee =>
    d.migrationState (L.rowKey promotee) = none ∧ d.migrationState (L.rowKey demotee) = none
  | .set _ _ => True

instance : ∀ op, Decidable (Allowed L d op)
  | .start promotee demotee => inferInstanceAs (Decidable (L.Has promotee ∧ L.Has demotee ∧ _ ∧ _))
  | .set page _ => inferInstanceAs (Decidable (L.Has page ∧ _ ∧ (_ ∨ _)))

instance : ∀ op, Decidable (Fresh L d op)
  | .start _ _ => inferInstanceAs (Decidable (_ ∧ _))
  | .set _ _ => isTrue trivial

def Op.swap : Op → Equiv.Perm Place
  | .start promotee demotee => Equiv.swap promotee demotee
  | .set _ _ => Equiv.refl Place

def swaps (ops : List Op) : Equiv.Perm Place := composed Op.swap ops

def Distinct : Prop :=
  ∀ x y, L.Has x → L.Has y → d.resolve L (L.addr x) = d.resolve L (L.addr y) → x = y

def HalfDone : Prop :=
  d.migrating = true ∧ (d.migrationState d.inputPage = some .done ∨ d.migrationState d.outputPage = some .done)

structure Pair (σ : Equiv.Perm Place) (d : FlatDecoder) (p q : Place) : Prop where
  hasInput : L.Has p
  hasOutput : L.Has q
  inputPage : d.inputPage = L.rowKey p
  outputPage : d.outputPage = L.rowKey q
  input : σ p = q
  output : σ q = p
  ne : p ≠ q
  notBoth : ¬(d.migrationState (L.rowKey p) = some .done ∧ d.migrationState (L.rowKey q) = some .done)

/-- After migrations of which none reused a location, `σ` being their composition. -/
structure Swapped (σ : Equiv.Perm Place) (d : FlatDecoder) : Prop where
  has : ∀ x, L.Has x → L.Has (σ x)
  untouched : ∀ x, L.Has x → d.migrationState (L.rowKey x) = none → σ x = x ∧ d.paToVa (L.rowKey x) = none
  touched : ∀ x, L.Has x → d.migrationState (L.rowKey x) ≠ none →
    (σ x).media = x.media.other ∧ d.migrationMap (L.rowKey x) = some (σ x).row
  finished : ∀ x, L.Has x → d.migrationState (L.rowKey x) ≠ none →
    d.migrationState (L.rowKey x) = some .done ∨
      d.migrating = true ∧ (L.rowKey x = d.inputPage ∨ L.rowKey x = d.outputPage)
  pair : d.migrating = true → ∃ p q, Pair L σ d p q

section Swapped

variable {L : FlatLayout} {σ : Equiv.Perm Place} {d d' : FlatDecoder} {p q x y : Place}

theorem swapped_new (L : FlatLayout) : Swapped L (Equiv.refl Place) new where
  has _ hx := hx
  untouched _ _ _ := ⟨rfl, rfl⟩
  touched _ _ h := absurd rfl h
  finished _ _ h := absurd rfl h
  pair h := nomatch h

namespace Swapped

theorem resolve_done (h : Swapped L σ d) (hx : L.Has x) (hdone : d.migrationState (L.rowKey x) = some .done) :
    d.resolve L (L.addr x) = L.addr (σ x) := by
  have htouched : d.migrationState (L.rowKey x) ≠ none := by
    rw [hdone]
    exact some_ne_none _
  obtain ⟨hmedia, hmap⟩ := h.touched x hx htouched
  rw [resolve_of_done hx hdone hmap, ← hmedia]

theorem touched_apply (h : Swapped L σ d) (hx : L.Has x) (htouched : d.migrationState (L.rowKey x) ≠ none) :
    d.migrationState (L.rowKey (σ x)) ≠ none := by
  intro hnone
  have hfix := (h.untouched (σ x) (h.has x hx) hnone).1
  have hmedia := (h.touched x hx htouched).1
  rw [σ.injective hfix] at hmedia
  exact x.media.other_ne hmedia.symm

/-- Unless a migration is half done, the two rows of an exchange are done together. -/
theorem done_apply (hkeys : L.KeysUnique) (h : Swapped L σ d) (hhalf : ¬d.HalfDone) (hx : L.Has x)
    (hdone : d.migrationState (L.rowKey x) = some .done) : d.migrationState (L.rowKey (σ x)) = some .done := by
  have htouched : d.migrationState (L.rowKey x) ≠ none := by
    rw [hdone]
    exact some_ne_none _
  obtain hfin | ⟨hmig, hpage⟩ := h.finished (σ x) (h.has x hx) (h.touched_apply hx htouched)
  · exact hfin
  · -- the other row of the pair would be the only one that is done
    obtain ⟨p, q, hpair⟩ := h.pair hmig
    exfalso
    apply hhalf
    refine ⟨hmig, ?_⟩
    rw [hpair.inputPage, hpair.outputPage] at hpage ⊢
    rcases hpage with hp | hq
    · have hσ := hkeys _ _ (h.has x hx) hpair.hasInput hp
      have hxq : x = q := σ.injective (hσ.trans hpair.output.symm)
      exact .inr (hxq ▸ hdone)
    · have hσ := hkeys _ _ (h.has x hx) hpair.hasOutput hq
      have hxp : x = p := σ.injective (hσ.trans hpair.input.symm)
      exact .inl (hxp ▸ hdone)

theorem distinct (hkeys : L.KeysUnique) (h : Swapped L σ d) (hhalf : ¬d.HalfDone) : Distinct L d := by
  -- a page that is done and one that is not are found in places of the same two kinds
  have hmixed : ∀ x y, L.Has x → L.Has y → d.migrationState (L.rowKey x) = some .done →
      d.migrationState (L.rowKey y) ≠ some .done → d.resolve L (L.addr x) ≠ d.resolve L (L.addr y) := by
    intro x y hx hy hdone hnot he
    rw [h.resolve_done hx hdone, resolve_of_not_done hy hnot] at he
    have hσ := FlatLayout.addr_injOn (h.has x hx) hy he
    exact hnot (hσ ▸ h.done_apply hkeys hhalf hx hdone)
  intro x y hx hy he
  by_cases hdx : d.migrationState (L.rowKey x) = some .done
  · by_cases hdy : d.migrationState (L.rowKey y) = some .done
    · rw [h.resolve_done hx hdx, h.resolve_done hy hdy] at he
      exact σ.injective (FlatLayout.addr_injOn (h.has x hx) (h.has y hy) he)
    · exact absurd he (hmixed x y hx hy hdx hdy)
  · by_cases hdy : d.migrationState (L.rowKey y) = some .done
    · exact absurd he.symm (hmixed y x hy hx hdy hdx)
    · rw [resolve_of_not_done hx hdx, resolve_of_not_done hy hdy] at he
      exact FlatLayout.addr_injOn hx hy he

/-- Half way, both pages are found in the place that the finished one was moved to. -/
theorem not_distinct (h : Swapped L σ d) (hhalf : d.HalfDone) : ¬Distinct L d := by
  obtain ⟨hmig, hdone⟩ := hhalf
  obtain ⟨p, q, hpair⟩ := h.pair hmig
  rw [hpair.inputPage, hpair.outputPage] at hdone
  intro hdist
  rcases hdone with hp | hq
  · have hq : d.migrationState (L.rowKey q) ≠ some .done := fun hq => hpair.notBoth ⟨hp, hq⟩
    apply hpair.ne
    apply hdist p q hpair.hasInput hpair.hasOutput
    rw [h.resolve_done hpair.hasInput hp, hpair.input, resolve_of_not_done hpair.hasOutput hq]
  · have hp : d.migrationState (L.rowKey p) ≠ some .done := fun hp => hpair.notBoth ⟨hp, hq⟩
    apply hpair.ne
    apply hdist p q hpair.hasInput hpair.hasOutput
    rw [h.resolve_done hpair.hasOutput hq, hpair.output, resolve_of_not_done hpair.hasInput hp]

/-- Between migrations every page is found where the exchanges have put it. -/
theorem resolve_eq (h : Swapped L σ d) (hidle : d.migrating = false) (hx : L.Has x) :
    d.resolve L (L.addr x) = L.addr (σ x) := by
  by_cases hnone : d.migrationState (L.rowKey x) = none
  · rw [resolve_of_not_done hx (by rw [hnone]; exact some_ne_none _ |>.symm), (h.untouched x hx hnone).1]
  · obtain hdone | ⟨hmig, _⟩ := h.finished x hx hnone
    · exact h.resolve_done hx hdone
    · rw [hidle] at hmig
      cases hmig

end Swapped

theorem startMigration_own (hp : L.Has p) (hq : L.Has q) (hkey : L.rowKey q ≠ L.rowKey p)
    (hpa : d.paToVa (L.rowKey p) = none) (hqa : d.paToVa (L.rowKey q) = none) (h : step L d (.start p q) = some d') :
    d.migrating = false ∧ d' =
      { migrationMap := update (update d.migrationMap (L.rowKey p) (some q.row)) (L.rowKey q)
          (some p.row)
        paToVa := update (update d.paToVa (L.rowKey q) (some ⟨L.rowKey p, p.row, false⟩))
          (L.rowKey p) (some ⟨L.rowKey q, q.row, true⟩)
        migrationState := update (update d.migrationState (L.rowKey p) (some .reading))
          (L.rowKey q) (some .reading)
        migrating := true
        inputPage := L.rowKey p
        outputPage := L.rowKey q } := by
  obtain ⟨hidle, rfl⟩ := assertThat_map_eq_some.mp h
  refine ⟨hidle, ?_⟩
  simp only [address, hp.getAddressKey_addr, hq.getAddressKey_addr, if_neg hkey, pageAt, hpa, hqa, Option.getD_none]

theorem swap_cases (hσp : σ p = p) (hσq : σ q = q) (x : Place) :
    x = p ∧ (σ.trans (Equiv.swap p q)) x = q ∨ x = q ∧ (σ.trans (Equiv.swap p q)) x = p ∨
      (x ≠ p ∧ x ≠ q) ∧ (σ.trans (Equiv.swap p q)) x = σ x := by
  by_cases hxp : x = p
  · subst hxp
    exact .inl ⟨rfl, by rw [Equiv.trans_apply, hσp, Equiv.swap_apply_left]⟩
  · by_cases hxq : x = q
    · subst hxq
      exact .inr (.inl ⟨rfl, by rw [Equiv.trans_apply, hσq, Equiv.swap_apply_right]⟩)
    · refine .inr (.inr ⟨⟨hxp, hxq⟩, Equiv.swap_apply_of_ne_of_ne ?_ ?_⟩)
      · exact fun he => hxp (σ.injective (he.trans hσp.symm))
      · exact fun he => hxq (σ.injective (he.trans hσq.symm))

namespace Swapped

theorem start (hkeys : L.KeysUnique) (h : Swapped L σ d) (hp : L.Has p) (hq : L.Has q) (hslow : p.media = .slow)
    (hfast : q.media = .fast) (hfresh : Fresh L d (.start p q)) (hs : step L d (.start p q) = some d') :
    Swapped L (σ.trans (Equiv.swap p q)) d' := by
  have hne : p ≠ q := by
    rintro rfl
    rw [hslow] at hfast
    cases hfast
  have hkey : L.rowKey q ≠ L.rowKey p := fun he => hne (hkeys q p hq hp he).symm
  obtain ⟨hσp, hpa⟩ := h.untouched p hp hfresh.1
  obtain ⟨hσq, hqa⟩ := h.untouched q hq hfresh.2
  obtain ⟨hidle, rfl⟩ := startMigration_own hp hq hkey hpa hqa hs
  have hcases := swap_cases hσp hσq
  have hkeyOther : ∀ x, L.Has x → x ≠ p → x ≠ q → L.rowKey x ≠ L.rowKey p ∧ L.rowKey x ≠ L.rowKey q :=
    fun x hx hxp hxq => ⟨fun he => hxp (hkeys x p hx hp he), fun he => hxq (hkeys x q hx hq he)⟩
  constructor
  case has =>
    intro x hx
    obtain ⟨rfl, hσx⟩ | ⟨rfl, hσx⟩ | ⟨⟨hxp, hxq⟩, hσx⟩ := hcases x
    · rw [hσx]
      exact hq
    · rw [hσx]
      exact hp
    · rw [hσx]
      exact h.has x hx
  case untouched =>
    intro x hx hnone
    obtain ⟨rfl, hσx⟩ | ⟨rfl, hσx⟩ | ⟨⟨hxp, hxq⟩, hσx⟩ := hcases x
    · simp [update_of_ne hkey.symm] at hnone
    · simp at hnone
    · obtain ⟨hkp, hkq⟩ := hkeyOther x hx hxp hxq
      simp only [update_of_ne hkp, update_of_ne hkq] at hnone ⊢
      rw [hσx]
      exact h.untouched x hx hnone
  case touched =>
    intro x hx hsome
    obtain ⟨rfl, hσx⟩ | ⟨rfl, hσx⟩ | ⟨⟨hxp, hxq⟩, hσx⟩ := hcases x
    · rw [hσx, hslow, hfast]
      simp [update_of_ne hkey.symm, Media.other]
    · rw [hσx, hslow, hfast]
      simp [Media.other]
    · obtain ⟨hkp, hkq⟩ := hkeyOther x hx hxp hxq
      simp only [update_of_ne hkp, update_of_ne hkq] at hsome ⊢
      rw [hσx]
      exact h.touched x hx hsome
  case finished =>
    intro x hx hsome
    obtain ⟨rfl, hσx⟩ | ⟨rfl, hσx⟩ | ⟨⟨hxp, hxq⟩, hσx⟩ := hcases x
    · exact .inr ⟨rfl, .inl rfl⟩
    · exact .inr ⟨rfl, .inr rfl⟩
    · obtain ⟨hkp, hkq⟩ := hkeyOther x hx hxp hxq
      simp only [update_of_ne hkp, update_of_ne hkq] at hsome ⊢
      obtain hdone | ⟨hmig, _⟩ := h.finished x hx hsome
      · exact .inl hdone
      · rw [hidle] at hmig
        cases hmig
  case pair =>
    intro _
    refine ⟨p, q, hp, hq, rfl, rfl, ?_, ?_, hne, fun hboth => ?_⟩
    · rw [Equiv.trans_apply, hσp, Equiv.swap_apply_left]
    · rw [Equiv.trans_apply, hσq, Equiv.swap_apply_right]
    · simp at hboth

theorem set (h : Swapped L σ d) {newState : MigrationState}
    (hallowed : Allowed L d (.set x newState)) (hs : step L d (.set x newState) = some d') : Swapped L σ d' := by
  obtain ⟨hx, hmig, hpage⟩ := hallowed
  obtain ⟨hsome, hs⟩ := assertThat_bind_eq_some.mp hs
  obtain ⟨_, rfl⟩ := assertThat_map_eq_some.mp hs
  simp only [address, hx.getAddressKey_addr] at hsome ⊢
  obtain ⟨p, q, hpair⟩ := h.pair hmig
  have hstate : ∀ y, (d.putState (L.rowKey x) newState).migrationState (L.rowKey y) =
      if L.rowKey y = L.rowKey x then some newState else d.migrationState (L.rowKey y) := fun y =>
    update_apply _ _ _ _
  have htouched : ∀ y, (d.putState (L.rowKey x) newState).migrationState (L.rowKey y) ≠ none →
      d.migrationState (L.rowKey y) ≠ none := fun y hy => by
    rw [hstate] at hy
    split at hy
    next he => exact he ▸ hsome
    next => exact hy
  constructor
  case has => exact h.has
  case untouched =>
    intro y hy hnone
    rw [hstate] at hnone
    split at hnone
    · cases hnone
    · exact h.untouched y hy hnone
  case touched =>
    intro y hy hne
    exact h.touched y hy (htouched y hne)
  case finished =>
    intro y hy hne
    by_cases hcur : L.rowKey y = d.inputPage ∨ L.rowKey y = d.outputPage
    · cases hmig' : (d.putState (L.rowKey x) newState).migrating with
      | true => exact .inr ⟨rfl, hcur⟩
      | false =>
        obtain ⟨hin, hout⟩ := done_of_ended hmig hmig'
        left
        rcases hcur with he | he
        · rw [he]
          exact hin
        · rw [he]
          exact hout
    · have hyx : L.rowKey y ≠ L.rowKey x := fun he => hcur (he ▸ hpage)
      obtain hdone | ⟨_, hcur'⟩ := h.finished y hy (htouched y hne)
      · left
        rw [hstate, if_neg hyx, hdone]
      · exact absurd hcur' hcur
  case pair =>
    intro hmig'
    refine ⟨p, q, { hpair with notBoth := fun hboth => ?_ }⟩
    rw [← hpair.inputPage, ← hpair.outputPage] at hboth
    have hover : (d.putState (L.rowKey x) newState).migrating = false := if_pos hboth
    rw [hover] at hmig'
    cases hmig'

end Swapped

theorem run_swapped (hkeys : L.KeysUnique) {ops : List Op} (hallowed : AllSteps (step L) (Allowed L) new ops)
    (hfresh : AllSteps (step L) (Fresh L) new ops) (hrun : run (step L) new ops = some d) :
    Swapped L (swaps ops) d := by
  have hstep : ∀ hist d op d', Swapped L (swaps hist) d → (Allowed L d op ∧ Fresh L d op) →
      step L d op = some d' → Swapped L (swaps (hist ++ [op])) d' ∧ True := by
    rintro hist d op d' h ⟨hallowed, hfresh⟩ hs
    rw [swaps, composed_snoc]
    cases op with
    | start p q =>
      obtain ⟨hp, hq, hslow, hfast⟩ := hallowed
      exact ⟨h.start hkeys hp hq hslow hfast hfresh hs, trivial⟩
    | set x newState => exact ⟨h.set hallowed hs, trivial⟩
  exact (run_history_of_some (step L) hstep ops (swapped_new L) (hallowed.and (step L) ops hfresh) hrun).1

/-- In a run of migrations that use no location for the second time, distinct pages are found in
distinct places exactly if the state is not one in which one of two pages is done and the other
one is not. Between migrations every page is where the exchanges have put it. -/
theorem resolve_distinct_iff (L : FlatLayout) (hkeys : L.KeysUnique) (ops : List Op) (d : FlatDecoder)
    (hallowed : AllSteps (step L) (Allowed L) new ops) (hfresh : AllSteps (step L) (Fresh L) new ops)
    (hrun : run (step L) new ops = some d) :
    (Distinct L d ↔ ¬d.HalfDone) ∧
    (d.migrating = false → ∀ x, L.Has x → d.resolve L (L.addr x) = L.addr (swaps ops x)) := by
  have h := run_swapped hkeys hallowed hfresh hrun
  constructor
  · exact ⟨fun hdist hhalf => h.not_distinct hhalf hdist, h.distinct hkeys⟩
  · intro hidle x hx
    exact h.resolve_eq hidle hx

end Swapped

section TwoRows

def exchange (p q : Place) : List Op :=
  [.start p q, .set p .buffered, .set q .buffered, .set p .writing, .set q .writing, .set p .done, .set q .done]

theorem resolve_distinct_iff_exchange :
    ∃ d, run (step twoRows) new (exchange (slowRow 0) (fastRow 0)) = some d ∧ Distinct twoRows d ∧
      ∀ x, twoRows.Has x →
        d.resolve twoRows (twoRows.addr x) = twoRows.addr (swaps (exchange (slowRow 0) (fastRow 0)) x) := by
  have hrun : ∃ d, run (step twoRows) new (exchange (slowRow 0) (fastRow 0)) = some d ∧ d.migrating = false := by
    decide +kernel
  obtain ⟨d, hrun, hidle⟩ := hrun
  obtain ⟨hdist, hswaps⟩ := resolve_distinct_iff twoRows twoRows_keysUnique _ d (by decide +kernel)
    (by decide +kernel) hrun
  refine ⟨d, hrun, hdist.mpr fun hhalf => ?_, hswaps hidle⟩
  rw [hhalf.1] at hidle
  cases hidle

/-- When the first of two pages is done, both are found in its new place. And when a slow page that
was swapped in is swapped out again, it is looked for in the fast device. -/
theorem exchange_loses_page :
    twoRows.KeysUnique ∧
    (let ops := (exchange (slowRow 0) (fastRow 0)).take 6
     AllSteps (step twoRows) (Allowed twoRows) new ops ∧
     ∃ d, run (step twoRows) new ops = some d ∧ twoRows.Has (slowRow 0) ∧ twoRows.Has (fastRow 0) ∧
       d.resolve twoRows (twoRows.addr (slowRow 0)) = d.resolve twoRows (twoRows.addr (fastRow 0))) ∧
    (let ops := exchange (slowRow 0) (fastRow 0) ++ exchange (slowRow 1) (fastRow 0)
     AllSteps (step twoRows) (Allowed twoRows) new ops ∧
     ∃ d, run (step twoRows) new ops = some d ∧ d.migrating = false ∧ swaps ops (slowRow 0) = slowRow 1 ∧
       d.resolve twoRows (twoRows.addr (slowRow 0)) = twoRows.addr (fastRow 1) ∧
       d.resolve twoRows (twoRows.addr (fastRow 1)) = twoRows.addr (fastRow 1)) := by
  refine ⟨twoRows_keysUnique, ?_, ?_⟩
  · decide +kernel
  · decide +kernel

end TwoRows

end FlatDecoder

end Shma.Nvmain
