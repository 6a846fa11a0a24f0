import Shma.Common.TrieInsert
import Shma.Common.TrieRemove
import Shma.Lib.Run

/-!
# The trie as a map

Next to the trie runs the map that it stands for, from keys to values: an insertion gives its value
to all keys with the same top `w` bits, and a removal takes it from them.
-/
namespace Shma

open Lib.PathTrie Lib.Run
open BitVec (ofNat)

namespace Trie

variable {n : Nat} {V : Type} {w id : Nat} {t : Trie n V} {node : TrieNode n V}

/-- The node has two children, whose masks and keys extend its own and whose keys differ in the next
bit. -/
def Splits (t : Trie n V) (node : TrieNode n V) : Prop :=
  ∃ len left right l r, node.mask = leadingMask n len ∧
    node.child false = some left ∧ t.nodes left = some l ∧
    node.child true = some right ∧ t.nodes right = some r ∧
    (∃ len', len < len' ∧ len' ≤ n ∧ l.mask = leadingMask n len') ∧ Agree topBit len node.key l.key ∧
    (∃ len', len < len' ∧ len' ≤ n ∧ r.mask = leadingMask n len') ∧ Agree topBit len node.key r.key ∧
    topBit l.key len ≠ topBit r.key len

/-- Every child points back to its parent, every parent has the node among its children, and only
the root has none. -/
structure ParentsConsistent (t : Trie n V) : Prop where
  down : ∀ id node i kid, t.nodes id = some node → node.child i = some kid →
    ∃ kidNode, t.nodes kid = some kidNode ∧ kidNode.parent = some id
  up : ∀ id node p, t.nodes id = some node → node.parent = some p → ∃ up i, t.nodes p = some up ∧ up.child i = some id
  root : ∀ id node, t.nodes id = some node → (node.parent = none ↔ id = trieHead)

theorem Sound.splits (h : Sound w t) (hw : w ≤ n) (hnode : t.nodes id = some node) (hid : id ≠ trieHead)
    (hvalue : node.value = none) : t.Splits node := by
  have hfits := h.shape.fits hnode
  have hedge : ∀ i, ∃ kid K, Edge t.nodes id node i kid K := fun i => by
    obtain ⟨kid, hkid⟩ := isSome_iff_exists.mp (h.full.middle id node hnode hid hvalue i)
    exact ⟨kid, hfits.down i kid hkid⟩
  have hmask : ∀ {i kid K}, Edge t.nodes id node i kid K →
      ∃ len', node.len < len' ∧ len' ≤ n ∧ K.mask = leadingMask n len' := fun he =>
    ⟨_, he.lt, (h.shape.fits he.below).len_le.trans hw, (h.shape.fits he.below).mask⟩
  obtain ⟨left, l, hl⟩ := hedge false
  obtain ⟨right, r, hr⟩ := hedge true
  exact ⟨node.len, left, right, l, r, hfits.mask, hl.child, hl.below, hr.child, hr.below, hmask hl, hl.agree, hmask hr,
    hr.agree, hfits.parts _ _ _ _ hl hr⟩

theorem Shape.parentsConsistent (h : Shape w t.nodes) : t.ParentsConsistent where
  down id node i kid hnode hkid := by
    obtain ⟨K, he⟩ := (h.fits hnode).down i kid hkid
    exact ⟨K, he.below, he.parent⟩
  up id node p hnode hp := by
    have hid : id ≠ trieHead := (h.parent_isSome_iff hnode).mp (isSome_of_eq_some hp)
    obtain ⟨p', P, i, he⟩ := (h.fits hnode).up hid
    obtain rfl : p' = p := mem_unique he.parent hp
    exact ⟨P, i, he.above, he.child⟩
  root id node hnode := by
    rw [← not_iff_not, ← ne_eq, ← ne_eq, ← h.parent_isSome_iff hnode, isSome_iff_ne_none]

theorem sound_new : Sound w (new : Trie n V) := by
  have hcell : ∀ {id node}, (new : Trie n V).nodes id = some node → id = trieHead ∧ node = .new 0 0 none := by
    intro id node hnode
    by_cases hid : id = trieHead
    · subst hid
      exact ⟨rfl, (some_inj.mp hnode).symm⟩
    · simp [new, update_of_ne hid] at hnode
  have hlen : (TrieNode.new 0 0 none : TrieNode n V).len = 0 := len_of_mask (Nat.zero_le n) leadingMask_zero.symm
  have hlt : ∀ {id}, ((new : Trie n V).nodes id).isSome → id < (new : Trie n V).fresh := by
    intro id hsome
    obtain ⟨node, hnode⟩ := isSome_iff_exists.mp hsome
    rw [(hcell hnode).1]
    exact lt_succ_self _
  refine ⟨⟨⟨_, rfl⟩, fun {id node} hnode => ?_⟩, ⟨?_, ?_⟩, hlt, ?_⟩
  · obtain ⟨rfl, rfl⟩ := hcell hnode
    refine ⟨?_, ?_, fun hv => absurd rfl hv, fun _ => ⟨hlen, rfl, rfl⟩, nofun, fun hne => absurd rfl hne,
      fun a A b B ha => nomatch ha.child⟩
    · rw [hlen]
      exact leadingMask_zero.symm
    · rw [hlen]
      exact Nat.zero_le w
  · intro R hR hright
    rw [(hcell hR).2] at hright
    cases hright
  · exact fun id node hnode hid => absurd (hcell hnode).1 hid
  · rfl

end Trie

inductive TrieOp (n : Nat) (V : Type) where
  | insert (key : BitVec n) (value : V)
  | remove (key : BitVec n)

structure TrieLog (n : Nat) (V : Type) where
  trie : Trie n V
  live : BitVec n → Option V

namespace TrieLog

open Trie

variable {n : Nat} {V : Type} {w : Nat} {s : TrieLog n V}

def new : TrieLog n V := ⟨.new, fun _ => none⟩

def step (w : Nat) (s : TrieLog n V) : TrieOp n V → Option (TrieLog n V)
  | .insert key value =>
    (s.trie.insertNode key w (some value)).map fun r =>
      ⟨r.1, fun q => if Agree topBit w key q then some value else s.live q⟩
  | .remove key =>
    (s.trie.removeKey key).map fun r => ⟨r.1, fun q => if Agree topBit w key q then none else s.live q⟩

/-- A key is only inserted while it is not live. -/
def Allowed (s : TrieLog n V) : TrieOp n V → Prop
  | .insert key _ => s.live key = none
  | .remove _ => True

instance [DecidableEq V] (s : TrieLog n V) : DecidablePred s.Allowed
  | .insert key _ => inferInstanceAs (Decidable (s.live key = none))
  | .remove _ => inferInstanceAs (Decidable True)

/-- The trie answers searches like the map, and is a path-compressed trie that counts its nodes. -/
structure Refines (w : Nat) (s : TrieLog n V) : Prop where
  hit : ∀ q v, s.live q = some v → ∃ id node, s.trie.search q = some (some id) ∧ s.trie.nodes id = some node ∧
    node.value = some v ∧ Agree topBit w node.key q
  miss : ∀ q, s.live q = none → s.trie.search q = some none
  middle : ∀ id node, s.trie.nodes id = some node → id ≠ trieHead → node.value = none → s.trie.Splits node
  parents : s.trie.ParentsConsistent
  nodeNum : s.trie.nodeNum = s.trie.nonRoot.card % 2^32

structure Inv (w : Nat) (s : TrieLog n V) : Prop where
  sound : Sound w s.trie
  live : ∀ q v, s.live q = some v ↔ Stores w s.trie q v

theorem new_inv : Inv w (new : TrieLog n V) := by
  refine ⟨sound_new, fun q v => iff_of_false nofun ?_⟩
  rintro ⟨e, E, hE, hv, -⟩
  by_cases he : e = trieHead
  · subst he
    cases hE
    cases hv
  · simp [TrieLog.new, Trie.new, update_of_ne he] at hE

theorem Inv.insert (h : Inv w s) (hpos : 0 < w) (hw : w ≤ n) (key : BitVec n) (value : V) (hkey : s.live key = none) :
    ∃ s', s.step w (.insert key value) = some s' ∧ Inv w s' := by
  have hnew : ∀ u, ¬ Stores w s.trie key u := by
    intro u hu
    have hsome := (h.live key u).mpr hu
    rw [hkey] at hsome
    cases hsome
  obtain ⟨t', id, hrun, hsound, hstores⟩ := h.sound.insertNode hpos hw key value hnew
  refine ⟨_, by rw [step, hrun, map_some], hsound, fun q v => ?_⟩
  rw [hstores, ← h.live]
  by_cases hq : Agree topBit w key q
  · have hnone : s.live q = none := by
      rw [Option.eq_none_iff_forall_ne_some]
      intro u hu
      obtain ⟨e, E, hE, hv, ha⟩ := (h.live q u).mp hu
      exact hnew u ⟨e, E, hE, hv, ha.trans hq.symm⟩
    simp [hq, hnone]
  · simp [hq]

theorem Inv.remove (h : Inv w s) (hw : w ≤ n) (key : BitVec n) : ∃ s', s.step w (.remove key) = some s' ∧ Inv w s' := by
  obtain ⟨t', r, hrun, hsound, hstores⟩ := h.sound.removeKey hw key
  refine ⟨_, by rw [step, hrun, map_some], hsound, fun q v => ?_⟩
  rw [hstores, ← h.live]
  by_cases hq : Agree topBit w key q <;> simp [hq]

theorem Inv.step (h : Inv w s) (hpos : 0 < w) (hw : w ≤ n) {op : TrieOp n V} (hop : s.Allowed op) :
    ∃ s', s.step w op = some s' ∧ Inv w s' := by
  cases op with
  | insert key value => exact h.insert hpos hw key value hop
  | remove key => exact h.remove hw key

theorem Inv.refines (h : Inv w s) (hw : w ≤ n) : Refines w s := by
  refine ⟨fun q v hv => ?_, fun q hq => ?_, fun id node hnode hid hvalue => h.sound.splits hw hnode hid hvalue,
    h.sound.shape.parentsConsistent, h.sound.nodeNum⟩
  · obtain ⟨e, E, hE, hvalue, ha⟩ := (h.live q v).mp hv
    obtain ⟨x, X, -, hX, hsearch, -, -, hone⟩ := h.sound.shape.walk hw q
    obtain rfl := hone e E hE (by rw [hvalue]; exact nofun) ha
    obtain rfl := mem_unique hE hX
    refine ⟨e, E, ?_, hE, hvalue, ha⟩
    rw [hsearch, hvalue]
    rfl
  · obtain ⟨x, X, -, hX, hsearch, ha, -⟩ := h.sound.shape.walk hw q
    cases hvalue : X.value with
    | none =>
      rw [hsearch, hvalue]
      rfl
    | some v =>
      have hlen := ((h.sound.shape.fits hX).leaf (by rw [hvalue]; exact nofun)).1
      have hsome := (h.live q v).mpr ⟨x, X, hX, hvalue, hlen ▸ ha⟩
      rw [hq] at hsome
      cases hsome

/-- Whatever the width, and whatever is inserted while it is not live and removed, the trie refines
the map. The count of nodes is that of the nodes modulo the width of an `unsigned`. -/
theorem trie_refines_map (w : Nat) (hpos : 1 ≤ w) (hw : w ≤ n) (ops : List (TrieOp n V))
    (hops : AllSteps (step w) Allowed new ops) : ∃ s, run (step w) new ops = some s ∧ Refines w s := by
  obtain ⟨s, hs, hinv⟩ := run_isSome (step w) (fun s op h hop => h.step hpos hw hop) ops new_inv hops
  exact ⟨s, hs, hinv.refines hw⟩

/-- Keys of eight bits, of which five are looked at. -/
theorem trie_refines_map_five :
    ∃ s, run (step 5) (new : TrieLog 8 Nat)
        [.insert 0x10 1, .insert 0x18 2, .insert 0xf0 3, .remove 0x17, .insert 0x20 4] = some s ∧
      Refines 5 s :=
  trie_refines_map 5 (by decide) (by decide) _ (by decide +kernel)

/-! ### Too many nodes to count -/

theorem agree_full {a b : BitVec n} : Agree topBit n a b ↔ a = b :=
  ⟨fun h => BitVec.eq_of_getMsbD_eq h, fun h => h ▸ .refl _ _⟩

/-- When all bits are looked at, every live key has a node of its own. -/
theorem Inv.card_le (h : Inv n s) {keys : Finset (BitVec n)} (hkeys : ∀ key ∈ keys, s.live key ≠ none) :
    keys.card ≤ s.trie.nonRoot.card := by
  have hleaf : ∀ key ∈ keys, ∃ e E, s.trie.nodes e = some E ∧ E.value ≠ none ∧ E.key = key := by
    intro key hkey
    obtain ⟨v, hv⟩ := ne_none_iff_exists'.mp (hkeys key hkey)
    obtain ⟨e, E, hE, hvalue, ha⟩ := (h.live key v).mp hv
    exact ⟨e, E, hE, by rw [hvalue]; exact nofun, agree_full.mp ha⟩
  choose! e E hE hvalue hkey using hleaf
  refine Finset.card_le_card_of_injOn e (fun key hmem => ?_) fun a ha b hb heq => ?_
  · refine (mem_nonRoot h.sound.lt_fresh).mpr ⟨fun hid => ?_, isSome_of_eq_some (hE key hmem)⟩
    exact hvalue key hmem ((h.sound.shape.fits (hE key hmem)).root hid).2.1
  · have hb' := hE b hb
    rw [← heq, hE a ha] at hb'
    rw [← hkey a ha, ← hkey b hb, some_inj.mp hb']

def countUp (m : Nat) : List (TrieOp 64 Unit) := (List.range m).map fun i => .insert (ofNat 64 i) ()

theorem countUp_succ (m : Nat) : countUp (m + 1) = countUp m ++ [.insert (ofNat 64 m) ()] := by
  unfold countUp
  rw [List.range_succ, map_append, List.map_singleton]

theorem countUp_live {m : Nat} (hm : m ≤ 2^64) :
    AllSteps (step 64) Allowed new (countUp m) ∧
      ∀ s, run (step 64) new (countUp m) = some s → ∀ q, s.live q = if q.toNat < m then some () else none := by
  induction m with
  | zero =>
    refine ⟨trivial, fun s hs q => ?_⟩
    cases hs
    exact (if_neg (Nat.not_lt_zero _)).symm
  | succ m ih =>
    obtain ⟨hall, hlive⟩ := ih (by omega)
    have hword : (ofNat 64 m).toNat = m := by
      exact mod_eq_of_lt (by omega)
    rw [countUp_succ]
    constructor
    · refine (allSteps_append (step 64)).mpr ⟨hall, fun t ht => ⟨?_, fun _ _ => trivial⟩⟩
      show t.live (ofNat 64 m) = none
      rw [hlive t ht, hword, if_neg (Nat.lt_irrefl m)]
    · intro s hs q
      rw [run_append] at hs
      obtain ⟨t, ht, hs⟩ := bind_eq_some_iff.mp hs
      obtain ⟨u, hu, hs⟩ := (run_cons_eq_some (step 64)).mp hs
      cases hs
      obtain ⟨r, -, rfl⟩ := map_eq_some_iff.mp hu
      show (if Agree topBit 64 (ofNat 64 m) q then some () else t.live q) = _
      rw [hlive t ht]
      by_cases hq : ofNat 64 m = q
      · rw [if_pos (agree_full.mpr hq), ← hq, hword, if_pos (lt_succ_self m)]
      · have hne : q.toNat ≠ m := fun he => hq (BitVec.eq_of_toNat_eq (hword.trans he.symm))
        rw [if_neg (mt agree_full.mp hq)]
        exact if_congr (by omega) rfl rfl

/-- With one key more than an `unsigned` can count there are more nodes than `node_num` says. -/
theorem node_num_wraps :
    ∃ ops s, AllSteps (step 64) Allowed (new : TrieLog 64 Unit) ops ∧ run (step 64) new ops = some s ∧
      s.trie.nodeNum ≠ s.trie.nonRoot.card := by
  have hle : (2^32 : Nat) ≤ 2^64 := Nat.pow_le_pow_right (by omega) (by omega)
  generalize hm : (2^32 : Nat) = m at hle
  obtain ⟨hall, hlive⟩ := countUp_live hle
  obtain ⟨s, hs, hinv⟩ := run_isSome (step 64) (fun s op h hop => h.step (by omega) (by omega) hop) (countUp m) new_inv hall
  refine ⟨countUp m, s, hall, hs, fun heq => ?_⟩
  have hkeys : ((Finset.range m).image (ofNat 64)).card ≤ s.trie.nonRoot.card := by
    refine hinv.card_le fun key hkey => ?_
    obtain ⟨i, hi, rfl⟩ := Finset.mem_image.mp hkey
    have hi' : (ofNat 64 i).toNat < m := by
      exact Nat.lt_of_le_of_lt (Nat.mod_le _ _) (Finset.mem_range.mp hi)
    rw [hlive s hs, if_pos hi']
    exact nofun
  rw [Finset.card_image_of_injOn, Finset.card_range] at hkeys
  · have hnum := (hinv.refines (Nat.le_refl 64)).nodeNum
    omega
  · intro a ha b hb hab
    have hword := congrArg BitVec.toNat hab
    have ha' := Finset.mem_range.mp (Finset.mem_coe.mp ha)
    have hb' := Finset.mem_range.mp (Finset.mem_coe.mp hb)
    rw [BitVec.toNat_ofNat, BitVec.toNat_ofNat, mod_eq_of_lt (by omega), mod_eq_of_lt (by omega)] at hword
    exact hword

end TrieLog

end Shma
