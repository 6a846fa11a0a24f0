import Shma.Mmu.FrameSupply

/-!
# Frames handed out are frames of the node

With several zones the free lists share their links, so that neither their contents nor
their sizes can be relied on. But whatever is put into a list has been asked of
`get_page_ptr`, which accepts frames of the node only. So nothing else is ever found at the
head of a list or behind a link.
-/
namespace Shma

open Option (mem_some_iff)

namespace FlexiList

variable {α : Type} [DecidableEq α] {P : α → Prop} {next : α → Option α} {l : FlexiList α}

theorem pushBlockBack_all {a : α} {r : (α → Option α) × FlexiList α} (h : l.pushBlockBack next a = some r) (ha : P a)
    (hnext : ∀ b, ∀ c ∈ next b, P c) (hhead : ∀ b ∈ l.head, P b) :
    (∀ b, ∀ c ∈ r.1 b, P c) ∧ ∀ b ∈ r.2.head, P b := by
  have hput : ∀ {f : α → Option α} (b : α) {o : Option α}, (∀ b, ∀ c ∈ f b, P c) → (∀ c ∈ o, P c) →
      ∀ d, ∀ c ∈ update f b o d, P c :=
    fun b _ hf ho => (forall_update_iff _ fun _ (o : Option α) => ∀ c ∈ o, P c).mpr ⟨ho, fun d _ => hf d⟩
  have hnone : ∀ c ∈ (none : Option α), P c := fun c hc => nomatch hc
  have hsome : ∀ c ∈ some a, P c := fun c hc => mem_some_iff.mp hc ▸ ha
  unfold pushBlockBack at h
  split at h
  · cases h
    exact ⟨hput a hnext hnone, hsome⟩
  · next first hfirst =>
    dsimp only at h
    split at h
    · cases h
    · cases h
      refine ⟨hput a (hput _ ?_ hsome) hnone, fun b hb => hhead b hb⟩
      split
      · exact hput first hnext hsome
      · exact hnext

theorem fetchHead_all {r : α × (α → Option α) × FlexiList α} (h : l.fetchHead next = some r)
    (hnext : ∀ b, ∀ c ∈ next b, P c) (hhead : ∀ b ∈ l.head, P b) :
    P r.1 ∧ (∀ b, ∀ c ∈ r.2.1 b, P c) ∧ ∀ b ∈ r.2.2.head, P b := by
  unfold fetchHead at h
  split at h
  · cases h
  · next first hfirst =>
    have hP : P first := hhead first hfirst
    split at h
    · cases h
      exact ⟨hP, hnext, fun b hb => nomatch hb⟩
    · next second hsecond =>
      cases h
      refine ⟨hP, ?_, fun b hb => mem_some_iff.mp hb ▸ hnext first second hsecond⟩
      exact (forall_update_iff _ fun _ (o : Option α) => ∀ c ∈ o, P c).mpr
        ⟨fun c hc => (nomatch hc), fun d _ => hnext d⟩

end FlexiList

namespace Mmu

open Lib.Dyadic Lib.Run

def HeadsBelow (n : Nat) (area : Nat → FreeArea) : Prop := ∀ k, ∀ p ∈ (area k).blockList.head, p < n

def MemMap.LinksBelow (n : Nat) (m : MemMap) : Prop := m.nodePageNum = n ∧ ∀ p, ∀ q ∈ m.next p, q < n

/-- Neither a link nor the head of a list of a zone leads out of the node. -/
def ListsBelow (n : Nat) (m : MemMap) (area : Nat → FreeArea) : Prop := m.LinksBelow n ∧ HeadsBelow n area

variable {n : Nat} {m m' : MemMap} {area area' : Nat → FreeArea} {k : Nat}

theorem HeadsBelow.update (h : HeadsBelow n area) {a : FreeArea} (ha : ∀ p ∈ a.blockList.head, p < n) :
    HeadsBelow n (update area k a) :=
  (forall_update_iff _ fun _ (a : FreeArea) => ∀ p ∈ a.blockList.head, p < n).mpr ⟨ha, fun j _ => h j⟩

theorem MemMap.getPagePtr_lt {p q : Address} (h : m.getPagePtr p = some q) : q < m.nodePageNum := by
  unfold getPagePtr at h
  split at h
  · next hlt => exact some_inj.mp h ▸ hlt
  · cases h

theorem ListsBelow.push (h : ListsBelow n m area) {l : FlexiList Address} {p page : Address} {nrFree : Nat}
    (hpage : m.getPagePtr p = some page) (hr : m.pushBlockBack (area k).blockList page = some (m', l)) :
    ListsBelow n m' (update area k { blockList := l, nrFree }) := by
  obtain ⟨r, hpush, he⟩ := map_eq_some_iff.mp hr
  cases he
  have hlt : page < n := h.1.1 ▸ MemMap.getPagePtr_lt hpage
  obtain ⟨hnext, hhead⟩ := FlexiList.pushBlockBack_all (P := (· < n)) hpush hlt h.1.2 (h.2 k)
  exact ⟨⟨h.1.1, hnext⟩, h.2.update hhead⟩

variable {idx : Nat}

theorem pushBlocks_below {order idx' : Nat} (hb : ListsBelow n m area)
    (h : pushBlocks order k m area idx = some (m', area', idx')) : ListsBelow n m' area' := by
  induction k generalizing m area idx with
  | zero =>
    cases h
    exact hb
  | succ k ih =>
    obtain ⟨page, hpage, h⟩ := bind_eq_some_iff.mp h
    obtain ⟨⟨m1, l⟩, hpush, h⟩ := bind_eq_some_iff.mp h
    exact ih (hb.push hpage hpush) h

theorem freeAreaInitLoop_below {i pageNumber : Nat} (hb : ListsBelow n m area)
    (h : freeAreaInitLoop i m area pageNumber idx = some (m', area')) : ListsBelow n m' area' := by
  induction i generalizing m area pageNumber idx with
  | zero =>
    cases h
    exact hb
  | succ i ih =>
    unfold freeAreaInitLoop at h
    split at h
    · cases h
      exact hb
    · dsimp only at h
      split at h
      · obtain ⟨⟨m1, area1, idx1⟩, hpush, h⟩ := bind_eq_some_iff.mp h
        have hcount : HeadsBelow n (update area (i + 1)
            { area (i + 1) with nrFree := pageNumber / 2^(i + 1) }) := hb.2.update (hb.2 (i + 1))
        exact ih (pushBlocks_below ⟨hb.1, hcount⟩ hpush) h
      · exact ih hb h

structure MemoryNode.Below (n : Nat) (m : MemMap) (zones : ZoneType → Option Zone) : Prop where
  links : m.LinksBelow n
  heads : ∀ zt, ∀ z ∈ zones zt, HeadsBelow n z.freeArea

variable {zt : ZoneType} {oz : Option Zone} {zones zones' : ZoneType → Option Zone}

theorem MemoryNode.Below.update (hb : Below n m zones) (hm : m'.LinksBelow n)
    (hoz : ∀ z ∈ oz, HeadsBelow n z.freeArea) : Below n m' (update zones zt oz) := by
  refine ⟨hm, ?_⟩
  exact (forall_update_iff _ fun _ (oz : Option Zone) => ∀ z ∈ oz, HeadsBelow n z.freeArea).mpr
    ⟨hoz, fun j _ => hb.heads j⟩

variable {lowest highest : ZoneType → Nat}

theorem initZone_below (hm : m.LinksBelow n)
    (h : initZone lowest highest zt m = some (m', oz)) : m'.LinksBelow n ∧ ∀ z ∈ oz, HeadsBelow n z.freeArea := by
  unfold initZone at h
  split at h
  · obtain ⟨zone, -, h⟩ := bind_eq_some_iff.mp h
    obtain ⟨⟨m1, z⟩, hinit, he⟩ := map_eq_some_iff.mp h
    cases he
    obtain ⟨⟨m2, area⟩, hloop, he⟩ := map_eq_some_iff.mp hinit
    cases he
    obtain ⟨hm2, ha⟩ := freeAreaInitLoop_below ⟨hm, fun _ p hp => absurd hp (Option.not_mem_none p)⟩ hloop
    exact ⟨hm2, fun z hz => mem_some_iff.mp hz ▸ ha⟩
  · cases h
    exact ⟨hm, fun z hz => nomatch hz⟩

theorem initZones_below {zts : List ZoneType} (hb : MemoryNode.Below n m zones)
    (h : initZones lowest highest m zts zones = some (m', zones')) : MemoryNode.Below n m' zones' := by
  induction zts generalizing m zones with
  | nil =>
    cases h
    exact hb
  | cons zt zts ih =>
    obtain ⟨⟨m1, oz⟩, hz, h⟩ := bind_eq_some_iff.mp h
    obtain ⟨hm1, hoz⟩ := initZone_below hb.links hz
    exact ih (hb.update hm1 hoz) h

variable {pfns : ZoneType → Nat} {node : MemoryNode}

theorem MemoryNode.below_new (h : MemoryNode.new 0 pfns = some node) :
    Below (zoneHighest pfns .highMem) node.mem node.nodeZones := by
  rw [MemoryNode.new, calculateTotalPages_eq, bind_some] at h
  obtain ⟨⟨m, zones⟩, hinit, h⟩ := bind_eq_some_iff.mp h
  split at h
  · cases h
    refine initZones_below ⟨⟨rfl, ?_⟩, ?_⟩ hinit
    · intro _ _ hq
      cases hq
    · intro _ _ hz
      cases hz
  · cases h

section Allocation

variable {s s' : Alloc}

theorem expand_below {pageId low high size : Nat} (hb : ListsBelow n s.mem s.zone.freeArea)
    (h : expand pageId low high size s = some s') : ListsBelow n s'.mem s'.zone.freeArea := by
  induction high generalizing size s with
  | zero =>
    cases h
    exact hb
  | succ high ih =>
    unfold expand at h
    split at h
    · obtain ⟨page, hpage, h⟩ := bind_eq_some_iff.mp h
      obtain ⟨⟨m1, l⟩, hpush, h⟩ := bind_eq_some_iff.mp h
      exact ih (hb.push hpage hpush) h
    · cases h
      exact hb

variable {order : Nat}

theorem takeBlock_below {cur : Nat} {p : Address} (hb : ListsBelow n s.mem s.zone.freeArea)
    (h : takeBlock s order cur = some (p, s')) : p < n ∧ ListsBelow n s'.mem s'.zone.freeArea := by
  obtain ⟨⟨page, mem, rest⟩, hfetch, h⟩ := bind_eq_some_iff.mp h
  obtain ⟨s1, hexp, he⟩ := map_eq_some_iff.mp h
  cases he
  obtain ⟨r, hhead, hparts⟩ := map_eq_some_iff.mp hfetch
  obtain ⟨rfl, hrest⟩ := Prod.mk.inj hparts
  cases hrest
  obtain ⟨hp, hnext, hhead⟩ := FlexiList.fetchHead_all (P := (· < n)) hhead hb.1.2 (hb.2 cur)
  have hdetach : (s.detach order cur r.1 { s.mem with next := r.2.1 } r.2.2).mem.LinksBelow n := ⟨hb.1.1, hnext⟩
  exact ⟨hp, expand_below ⟨hdetach, hb.2.update hhead⟩ hexp⟩

variable {o : Option Address}

theorem rmqueueLoop_below {orders : List Nat} (hb : ListsBelow n s.mem s.zone.freeArea)
    (h : rmqueueLoop s order orders = some (o, s')) : (∀ p ∈ o, p < n) ∧ ListsBelow n s'.mem s'.zone.freeArea := by
  induction orders with
  | nil =>
    cases h
    exact ⟨fun p hp => (nomatch hp), hb⟩
  | cons cur orders ih =>
    unfold rmqueueLoop at h
    split at h
    · exact ih h
    · obtain ⟨⟨p, s1⟩, htake, he⟩ := map_eq_some_iff.mp h
      cases he
      obtain ⟨hp, hrest⟩ := takeBlock_below hb htake
      exact ⟨fun q hq => mem_some_iff.mp hq ▸ hp, hrest⟩

theorem BuddyAllocator.allocatePages_below {b b' : BuddyAllocator} {gfpMask : Nat}
    (hb : MemoryNode.Below n b.node.mem b.node.nodeZones) (h : b.allocatePages gfpMask order = some (o, b')) :
    (∀ p ∈ o, p < n) ∧ MemoryNode.Below n b'.node.mem b'.node.nodeZones := by
  unfold allocatePages at h
  split at h
  · cases h
    exact ⟨fun p hp => (nomatch hp), hb⟩
  · obtain ⟨zt, -, h⟩ := bind_eq_some_iff.mp h
    obtain ⟨zone, hzone, h⟩ := bind_eq_some_iff.mp h
    obtain ⟨⟨o1, s⟩, halloc, he⟩ := map_eq_some_iff.mp h
    cases he
    obtain ⟨ho, hm, ha⟩ := rmqueueLoop_below ⟨hb.links, hb.heads zt zone hzone⟩ halloc
    exact ⟨ho, hb.update hm fun z hz => mem_some_iff.mp hz ▸ ha⟩

end Allocation

theorem NodeLog.step_below {l l' : NodeLog} {req : Nat × Nat}
    (hb : MemoryNode.Below n l.buddy.node.mem l.buddy.node.nodeZones ∧ ∀ e ∈ l.handed, e.2.start < n)
    (h : l.step req = some l') :
    MemoryNode.Below n l'.buddy.node.mem l'.buddy.node.nodeZones ∧ ∀ e ∈ l'.handed, e.2.start < n := by
  obtain ⟨⟨o, b⟩, halloc, rfl⟩ := map_eq_some_iff.mp h
  obtain ⟨ho, hb'⟩ := BuddyAllocator.allocatePages_below hb.1 halloc
  refine ⟨hb', ?_⟩
  dsimp only
  split
  · next _ _ p zt hzt =>
    intro e he
    rcases mem_cons.mp he with rfl | he
    · exact ho p rfl
    · exact hb.2 e he
  · exact hb.2

theorem NodeLog.run_below (h : MemoryNode.new 0 pfns = some node)
    {freePageNum : Nat} {reqs : List (Nat × Nat)} {l : NodeLog}
    (hr : run NodeLog.step ⟨⟨node, freePageNum⟩, []⟩ reqs = some l) :
    ∀ e ∈ l.handed, e.2.start < zoneHighest pfns .highMem :=
  (run_invariant_of_step NodeLog.step (fun _ _ _ => NodeLog.step_below) reqs
    ⟨MemoryNode.below_new h, fun _ he => absurd he not_mem_nil⟩ hr).2

end Mmu

end Shma
