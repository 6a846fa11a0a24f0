import Mathlib.Data.Option.Basic
import Mathlib.Logic.Equiv.Defs

/-!
# Runs of a partial step function

A step either yields the next state or fails (`none`). A run feeds a list of
actions to the step function and fails as soon as one step does, so the states
reached by runs are exactly the final states of successful runs.
-/
namespace Shma.Lib.Run

variable {σ α : Type*} (step : σ → α → Option σ)

def run : σ → List α → Option σ
  | s, [] => some s
  | s, a :: as => (step s a).bind fun t => run t as

/-- Every step actually taken along the run meets a condition on the state
before it and on its action. -/
def AllSteps (ok : σ → α → Prop) : σ → List α → Prop
  | _, [] => True
  | s, a :: as => ok s a ∧ ∀ t, step s a = some t → AllSteps ok t as

/-- What a partial step or run reaches can be evaluated. -/
instance decidableExistsSome {β : Type*} (o : Option β) (p : β → Prop) [DecidablePred p] :
    Decidable (∃ b, o = some b ∧ p b) :=
  match o with
  | none => isFalse fun ⟨_, h, _⟩ => nomatch h
  | some b => decidable_of_iff (p b) ⟨fun h => ⟨b, rfl, h⟩, fun ⟨_, hb, h⟩ => Option.some.inj hb ▸ h⟩

instance AllSteps.decidable (ok : σ → α → Prop) [∀ s a, Decidable (ok s a)] :
    ∀ s as, Decidable (AllSteps step ok s as)
  | _, [] => isTrue trivial
  | s, a :: as =>
    have : ∀ t, Decidable (AllSteps step ok t as) := fun t => AllSteps.decidable ok t as
    inferInstanceAs (Decidable (ok s a ∧ ∀ t ∈ step s a, AllSteps step ok t as))

@[simp] theorem run_nil (s : σ) : run step s [] = some s := rfl

theorem run_cons (s : σ) (a : α) (as : List α) :
    run step s (a :: as) = (step s a).bind fun t => run step t as := rfl

variable {s t : σ}

theorem run_cons_eq_some {a : α} {as : List α} :
    run step s (a :: as) = some t ↔ ∃ u, step s a = some u ∧ run step u as = some t := by
  simp [run_cons, Option.bind_eq_some_iff]

theorem run_append (s : σ) (as bs : List α) : run step s (as ++ bs) = (run step s as).bind fun t => run step t bs := by
  induction as generalizing s with
  | nil => rfl
  | cons a as ih =>
    rw [List.cons_append, run_cons, run_cons]
    cases step s a with
    | none => rfl
    | some t => exact ih t

variable {ok : σ → α → Prop} {inv : σ → Prop}

/-- The invariant rule: what holds at the start and is kept by every step that
meets the condition holds in every state reached. -/
theorem run_invariant (hstep : ∀ s a t, inv s → ok s a → step s a = some t → inv t) :
    ∀ (as : List α) {s t : σ}, inv s → AllSteps step ok s as → run step s as = some t → inv t := by
  intro as
  induction as with
  | nil =>
    intro s t hs _ hr
    cases hr
    exact hs
  | cons a as ih =>
    intro s t hs hok hr
    obtain ⟨u, hu, hr⟩ := (run_cons_eq_some step).mp hr
    exact ih (hstep s a u hs hok.1 hu) (hok.2 u hu) hr

theorem allSteps_of_forall (h : ∀ s a, ok s a) (s : σ) (as : List α) : AllSteps step ok s as := by
  induction as generalizing s with
  | nil => trivial
  | cons a as ih => exact ⟨h s a, fun t _ => ih t⟩

/-- Steps that meet a condition in states of an invariant set meet what follows from
both. -/
theorem AllSteps.imp {ok ok' : σ → α → Prop}
    (hstep : ∀ s a t, inv s → ok s a → step s a = some t → inv t) (himp : ∀ s a, inv s → ok s a → ok' s a) :
    ∀ (as : List α) {s : σ}, inv s → AllSteps step ok s as → AllSteps step ok' s as := by
  intro as
  induction as with
  | nil => exact fun _ _ => trivial
  | cons a as ih =>
    intro s hs hok
    exact ⟨himp s a hs hok.1, fun t ht => ih (hstep s a t hs hok.1 ht) (hok.2 t ht)⟩

theorem AllSteps.and {ok ok' : σ → α → Prop} :
    ∀ (as : List α) {s : σ}, AllSteps step ok s as → AllSteps step ok' s as →
      AllSteps step (fun s a => ok s a ∧ ok' s a) s as := by
  intro as
  induction as with
  | nil => exact fun _ _ => trivial
  | cons a as ih =>
    intro s h h'
    exact ⟨⟨h.1, h'.1⟩, fun t ht => ih (h.2 t ht) (h'.2 t ht)⟩

theorem AllSteps.congr_of {may ok ok' : σ → α → Prop} (h : ∀ s a, may s a → (ok s a ↔ ok' s a)) :
    ∀ (as : List α) {s : σ}, AllSteps step may s as → (AllSteps step ok s as ↔ AllSteps step ok' s as) := by
  intro as
  induction as with
  | nil => exact fun _ => Iff.rfl
  | cons a as ih =>
    intro s hmay
    exact and_congr (h s a hmay.1) (forall_congr' fun t => forall_congr' fun ht => ih (hmay.2 t ht))

theorem AllSteps.of_forall_mem {ok : α → Prop} :
    ∀ (as : List α) (s : σ), (∀ a ∈ as, ok a) → AllSteps step (fun _ a => ok a) s as := by
  intro as
  induction as with
  | nil => exact fun _ _ => trivial
  | cons a as ih =>
    intro s h
    exact ⟨h a List.mem_cons_self, fun t _ => ih t fun b hb => h b (List.mem_cons_of_mem a hb)⟩

/-- A property of states that each allowed step keeps exactly under a condition holds all
along a run of allowed steps exactly if all its steps meet the condition. -/
theorem forall_run_iff_allSteps_of {inv P : σ → Prop} {may ok : σ → α → Prop}
    (hstep : ∀ s a t, inv s → P s → may s a → step s a = some t → inv t ∧ (P t ↔ ok s a)) :
    ∀ (as : List α) {s t : σ}, inv s → P s → AllSteps step may s as → run step s as = some t →
      ((∀ pre, pre <+: as → ∀ u, run step s pre = some u → P u) ↔ AllSteps step ok s as) := by
  intro as
  induction as with
  | nil =>
    intro s t _ hP _ _
    refine iff_of_true (fun pre hpre u hu => ?_) trivial
    rw [List.prefix_nil.mp hpre] at hu
    exact Option.some.inj hu ▸ hP
  | cons a as ih =>
    intro s t hi hP hmay hr
    obtain ⟨u, hu, hrest⟩ := (run_cons_eq_some step).mp hr
    obtain ⟨hiu, hiff⟩ := hstep s a u hi hP hmay.1 hu
    have hlater := hmay.2 u hu
    constructor
    · intro hall
      have hPu : P u := hall [a] ⟨as, rfl⟩ u ((run_cons_eq_some step).mpr ⟨u, hu, rfl⟩)
      refine ⟨hiff.mp hPu, fun v hv => ?_⟩
      obtain rfl : u = v := Option.mem_unique hu hv
      refine (ih hiu hPu hlater hrest).mp fun pre hpre w hw => ?_
      exact hall (a :: pre) (List.cons_prefix_cons.mpr ⟨rfl, hpre⟩) w ((run_cons_eq_some step).mpr ⟨u, hu, hw⟩)
    · intro hok pre hpre w hw
      cases pre with
      | nil => exact Option.some.inj hw ▸ hP
      | cons b pre =>
        obtain ⟨rfl, htail⟩ := List.cons_prefix_cons.mp hpre
        obtain ⟨v, hv, hvw⟩ := (run_cons_eq_some step).mp hw
        obtain rfl : u = v := Option.mem_unique hu hv
        exact (ih hiu (hiff.mpr hok.1) hlater hrest).mpr (hok.2 u hu) pre htail w hvw

theorem forall_run_iff_allSteps {inv P : σ → Prop}
    (hstep : ∀ s a t, inv s → P s → step s a = some t → inv t ∧ (P t ↔ ok s a)) (as : List α)
    (hi : inv s) (hP : P s) (hr : run step s as = some t) :
    (∀ pre, pre <+: as → ∀ u, run step s pre = some u → P u) ↔ AllSteps step ok s as := by
  have hall := allSteps_of_forall step (fun (_ : σ) (_ : α) => trivial) s as
  exact forall_run_iff_allSteps_of step (fun s a t hi hP _ h => hstep s a t hi hP h) as hi hP hall hr

theorem allSteps_of_run :
    ∀ (as : List α) {s t : σ}, run step s as = some t → AllSteps step (fun s a => (step s a).isSome) s as := by
  intro as
  induction as with
  | nil => exact fun _ => trivial
  | cons a as ih =>
    intro s t hr
    obtain ⟨u, hu, hr⟩ := Option.bind_eq_some_iff.mp hr
    refine ⟨Option.isSome_of_eq_some hu, fun v hv => ?_⟩
    obtain rfl : u = v := Option.mem_unique hu hv
    exact ih hr

/-- The same rule when every step is allowed. -/
theorem run_invariant_of_step (hstep : ∀ s a t, inv s → step s a = some t → inv t) (as : List α)
    (hs : inv s) (hr : run step s as = some t) : inv t := by
  have hall := allSteps_of_forall step (fun (_ : σ) (_ : α) => trivial) s as
  exact run_invariant step (fun s a t hi _ h => hstep s a t hi h) as hs hall hr

/-- A run of steps that never fail from states of an invariant set succeeds. -/
theorem run_isSome (hstep : ∀ s a, inv s → ok s a → ∃ t, step s a = some t ∧ inv t) :
    ∀ (as : List α) {s : σ}, inv s → AllSteps step ok s as → ∃ t, run step s as = some t ∧ inv t := by
  intro as
  induction as with
  | nil => exact fun {s} hs _ => ⟨s, rfl, hs⟩
  | cons a as ih =>
    intro s hs hok
    obtain ⟨u, hu, hi⟩ := hstep s a hs hok.1
    obtain ⟨t, ht, hit⟩ := ih hi (hok.2 u hu)
    exact ⟨t, (run_cons_eq_some step).mpr ⟨u, hu, ht⟩, hit⟩

theorem allSteps_append {s : σ} {as bs : List α} :
    AllSteps step ok s (as ++ bs) ↔
      AllSteps step ok s as ∧ ∀ t, run step s as = some t → AllSteps step ok t bs := by
  induction as generalizing s with
  | nil => simp [AllSteps]
  | cons a as ih =>
    constructor
    · intro h
      refine ⟨⟨h.1, fun t ht => (ih.mp (h.2 t ht)).1⟩, fun t ht => ?_⟩
      obtain ⟨u, hu, ht⟩ := (run_cons_eq_some step).mp ht
      exact (ih.mp (h.2 u hu)).2 t ht
    · rintro ⟨h, hb⟩
      refine ⟨h.1, fun t ht => ih.mpr ⟨h.2 t ht, fun u hu => ?_⟩⟩
      exact hb u ((run_cons_eq_some step).mpr ⟨t, ht, hu⟩)

/-- What holds of an action if it holds of all before it holds of all actions. -/
theorem forall_mem_of_before {P : α → Prop} {as : List α}
    (h : ∀ pre a post, as = pre ++ a :: post → (∀ b ∈ pre, P b) → P a) : ∀ a ∈ as, P a := by
  suffices hgen : ∀ post pre, as = pre ++ post → (∀ b ∈ pre, P b) → ∀ b ∈ post, P b from
    hgen as [] rfl (List.forall_mem_nil _)
  intro post
  induction post with
  | nil => exact fun _ _ _ => List.forall_mem_nil _
  | cons a post ih =>
    intro pre has hpre
    have ha : P a := h pre a post has hpre
    have hsplit : as = (pre ++ [a]) ++ post := by rw [has, List.append_assoc, List.singleton_append]
    have hlonger : ∀ b ∈ pre ++ [a], P b := List.forall_mem_append.mpr ⟨hpre, List.forall_mem_singleton.mpr ha⟩
    exact List.forall_mem_cons.mpr ⟨ha, ih (pre ++ [a]) hsplit hlonger⟩

section

variable {P : List α → σ → Prop} {may : List α → α → Prop}

/-- The invariant rule with a view of the actions taken so far: a run that meets
the conditions succeeds, and what each step establishes of the longer history
holds at the end. `ok` is a condition on the state, `may` one on the history. -/
theorem run_history
    (hstep : ∀ hist s a, P hist s → ok s a → may hist a → ∃ t, step s a = some t ∧ P (hist ++ [a]) t)
    (as : List α) {s : σ} (hs : P [] s) (hok : AllSteps step ok s as)
    (hmay : ∀ pre a post, as = pre ++ a :: post → may pre a) :
    ∃ t, run step s as = some t ∧ P as t := by
  -- the history of the state the remaining actions start from
  suffices hgen : ∀ as hist s, P hist s → AllSteps step ok s as →
      (∀ pre a post, as = pre ++ a :: post → may (hist ++ pre) a) →
      ∃ t, run step s as = some t ∧ P (hist ++ as) t from hgen as [] s hs hok hmay
  intro as
  induction as with
  | nil => exact fun hist s hs _ _ => ⟨s, rfl, by rwa [List.append_nil]⟩
  | cons a as ih =>
    intro hist s hs hok hmay
    obtain ⟨u, hu, hP⟩ := hstep hist s a hs hok.1 (by simpa using hmay [] a as rfl)
    obtain ⟨t, ht, hPt⟩ := ih (hist ++ [a]) u hP (hok.2 u hu) fun pre b post he => by
      simpa using hmay (a :: pre) b post (by rw [he, List.cons_append])
    exact ⟨t, (run_cons_eq_some step).mpr ⟨u, hu, ht⟩, by simpa using hPt⟩

/-- The converse reading: in a run that succeeds, every step met the condition on
the history that its success implies. -/
theorem run_history_of_some
    (hstep : ∀ hist s a t, P hist s → ok s a → step s a = some t → P (hist ++ [a]) t ∧ may hist a)
    (as : List α) (hs : P [] s) (hok : AllSteps step ok s as) (hr : run step s as = some t) :
    P as t ∧ ∀ pre a post, as = pre ++ a :: post → may pre a := by
  suffices hgen : ∀ as hist s, P hist s → AllSteps step ok s as → run step s as = some t →
      P (hist ++ as) t ∧ ∀ pre a post, as = pre ++ a :: post → may (hist ++ pre) a from
    hgen as [] s hs hok hr
  intro as
  induction as with
  | nil =>
    intro hist s hs _ hr
    cases hr
    exact ⟨by rwa [List.append_nil], fun pre a post he => by simp at he⟩
  | cons a as ih =>
    intro hist s hs hok hr
    obtain ⟨u, hu, hr⟩ := (run_cons_eq_some step).mp hr
    obtain ⟨hP, hmay⟩ := hstep hist s a u hs hok.1 hu
    obtain ⟨hPt, hrest⟩ := ih (hist ++ [a]) u hP (hok.2 u hu) hr
    refine ⟨by simpa using hPt, fun pre b post he => ?_⟩
    cases pre with
    | nil =>
      obtain ⟨rfl, -⟩ := List.cons.inj he
      rwa [List.append_nil]
    | cons c pre =>
      obtain ⟨rfl, htail⟩ := List.cons.inj he
      simpa using hrest pre b post htail

end

section

variable {β : Type*} (swap : α → Equiv.Perm β) (as : List α)

/-- The composition of what each action of a history exchanges, the first one first. -/
def composed : Equiv.Perm β :=
  as.foldl (fun σ a => σ.trans (swap a)) (Equiv.refl β)

theorem composed_snoc (a : α) : composed swap (as ++ [a]) = (composed swap as).trans (swap a) :=
  List.foldl_append

end

end Shma.Lib.Run
