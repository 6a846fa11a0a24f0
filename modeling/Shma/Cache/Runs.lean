import Shma.Cache.Access
import Shma.Lib.Run

/-!
# Runs of the hierarchy

Cores access their terminal caches, and lines are flushed from the root down. From
the empty hierarchy no such run meets a failing assertion, and in every state it
reaches each line has at most one writer, every cache holds what its children
hold, and every directory entry is exact.
-/
namespace Shma.Cache

open Lib.Run MESIState

variable {t : Topology} {h : Hierarchy}

structure LeafAccess (t : Topology) where
  leaf : Path
  lineAddr : Address
  isLoad : Bool
  cycle : Nat
  noExcl : Bool
  victim : Path → Nat
  node : t.Node leaf
  terminal : t.isTerminal leaf
  victim_mem : ∀ q, q <:+ leaf → victim q ∈ t.ways q lineAddr

namespace LeafAccess

variable (r : LeafAccess t)

def type : AccessType := if r.isLoad then .gets else .getx

theorem type_cases : r.type = .gets ∨ r.type = .getx := gets_or_getx r.isLoad

def request : Request := coreRequest r.lineAddr r.type r.cycle { noExcl := r.noExcl }

end LeafAccess

inductive Op (t : Topology) where
  | access (r : LeafAccess t)
  | flush (a : Address) (cycle : Nat)

def step (t : Topology) (h : Hierarchy) : Op t → Option Hierarchy
  | .access r => (access t r.victim r.leaf r.request h).map Prod.snd
  | .flush a cycle => (invalidate t [] a .inv true cycle h).map InvReply.caches

theorem Invalidated.coherent {a : Address} {h' : Hierarchy} {type : InvType} (hi : Coherent t h)
    (hinv : Invalidated t type [] a h h') : Coherent t h' :=
  hi.of_onlyLine hinv.only fun q => hinv.consistent q List.nil_suffix

theorem step_coherent (hi : Coherent t h) (op : Op t) : ∃ h', step t h op = some h' ∧ Coherent t h' := by
  cases op with
  | access r =>
    obtain ⟨c, h', hr, hi', -⟩ := @access_terminal t h r.leaf r.lineAddr r.type r.victim r.cycle
      { noExcl := r.noExcl } r.terminal r.node r.victim_mem hi r.type_cases rfl
    refine ⟨h', ?_, hi'⟩
    rw [step, LeafAccess.request, hr]
    rfl
  | flush a cycle =>
    obtain ⟨r, hr, hinv, -⟩ := @invalidate_spec t h a .inv [] true cycle (fun q _ => hi.line a q) trivial
    refine ⟨r.caches, ?_, hinv.coherent hi⟩
    rw [step, hr]
    rfl

/-- No assertion fails in any run, and every state it reaches is coherent: one writer,
inclusion, exact directories. -/
theorem run_coherent (t : Topology) (ops : List (Op t)) :
    ∃ h, run (step t) Hierarchy.new ops = some h ∧ ∀ a p,
      (∀ c d, (stateAt t h (c :: p) a).Excl → d ≠ c → stateAt t h (d :: p) a = .I) ∧
      (∀ c, stateAt t h (c :: p) a ≠ .I → stateAt t h p a ≠ .I) ∧
      (∀ c, (stateAt t h (c :: p) a).Excl → (stateAt t h p a).Excl) ∧
      (∀ c, (entryAt t h p a).sharers c = true ↔ stateAt t h (c :: p) a ≠ .I) ∧
      (entryAt t h p a).numSharers = {c ∈ Finset.range (t.numChildren p) | stateAt t h (c :: p) a ≠ .I}.card := by
  obtain ⟨h, hr, hi⟩ := run_isSome (step t) (fun h op hi _ => step_coherent hi op) ops Coherent.new
    (allSteps_of_forall (step t) (fun _ _ => trivial) Hierarchy.new ops)
  refine ⟨h, hr, fun a p => ?_⟩
  have hc := hi.line a p
  exact ⟨fun c d hx hd => hc.single hx hd, hc.incl, hc.inclx, hc.sharers, hc.count⟩

/-- `n` terminal caches below a shared cache; every line has two places in each cache. -/
def sharedCache (n : Nat) : Topology where
  numChildren p := if p = [] then n else 0
  depth := 1
  terminal_of_depth p hp := if_neg (by rintro rfl; simp at hp)
  ways _ _ := [0, 1]
  numSets _ := 1
  accLat _ := 1
  invLat _ := 1
  parentRTT _ := 0
  childRTT _ := 0
  minLatency := 10
  minLatency_pos := by decide

theorem mem_ways_sharedCache {n : Nat} (v : Fin 2) (p : Path) (a : Address) : (v : Nat) ∈ (sharedCache n).ways p a := by
  show (v : Nat) ∈ [0, 1]
  simp only [mem_cons, not_mem_nil, or_false]
  omega

def twoCores : Topology := sharedCache 2

def twoCores.ask (c : Fin 2) (a : Address) (isLoad : Bool) (v : Fin 2) : Op twoCores :=
  .access
    { leaf := [c], lineAddr := a, isLoad := isLoad, cycle := 0, noExcl := false, victim := fun _ => v
      node := ⟨c.isLt, trivial⟩, terminal := rfl
      victim_mem := fun q _ => mem_ways_sharedCache v q a }

-- a store of core 0, then a load of core 1, which takes the right to write away from core 0
example :
    ((run (step twoCores) Hierarchy.new [twoCores.ask 0 5 false 0, twoCores.ask 1 5 true 1]).map fun h =>
      (stateAt twoCores h [] 5, stateAt twoCores h [0] 5, stateAt twoCores h [1] 5)) = some (.M, .S, .S) := by
  decide +kernel

end Shma.Cache
