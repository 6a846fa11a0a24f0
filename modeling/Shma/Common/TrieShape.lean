import Shma.Common.TrieMasks

/-!
# The shape of a trie

A node and its neighbours: a child points back to its parent, looks at more bits and has its
parent's key in those that the parent looks at, and two children part at the next bit. Searching and
the first loop of `insert_node` follow one key down, and come past every node that the key agrees
with.
-/
namespace Shma

open Lib.PathTrie

def TrieNode.len {n : Nat} {V : Type} (node : TrieNode n V) : Nat :=
  parting Trie.topBit n node.mask (BitVec.allOnes n)

namespace Trie

variable {n : Nat} {V : Type} {w id p a b : Nat} {i j : Bool} {q : BitVec n} {t : Trie n V}
  {nodes nodes' : Nat → Option (TrieNode n V)} {node P A B : TrieNode n V}

theorem len_of_mask {l : Nat} (hl : l ≤ n) (h : node.mask = leadingMask n l) : node.len = l := by
  have hones : ∀ i, i < n → topBit (BitVec.allOnes n) i = true := fun i hi => by
    unfold topBit
    rw [BitVec.getMsbD_allOnes, decide_eq_true hi]
  unfold TrieNode.len
  rw [h]
  have hle : l ≤ parting topBit n (leadingMask n l) (BitVec.allOnes n) := by
    refine le_parting (fun i hi => ?_) hl
    rw [topBit_leadingMask hl, decide_eq_true hi, hones i (by omega)]
  by_cases hlast : l = n
  · have hle' : parting topBit n (leadingMask n l) (BitVec.allOnes n) ≤ n := parting_le _ _ _
    omega
  · have hlt : parting topBit n (leadingMask n l) (BitVec.allOnes n) < l + 1 := by
      refine parting_lt_of_not_agree fun ha => ?_
      have hbit := ha l (lt_succ_self l)
      rw [topBit_leadingMask hl, hones l (by omega)] at hbit
      simp at hbit
    omega

def leafCell (w : Nat) (key : BitVec n) (value : V) (p : Nat) : TrieNode n V where
  key := key
  mask := leadingMask n w
  value := some value
  parent := some p
  child := fun _ => none

def innerCell (key : BitVec n) (len : Nat) (p left right : Nat) : TrieNode n V where
  key := key
  mask := leadingMask n len
  value := none
  parent := some p
  child := fun i => some (bif i then right else left)

/-- The node `id` is the child on one side of the node `p`. -/
structure Edge (nodes : Nat → Option (TrieNode n V)) (p : Nat) (P : TrieNode n V) (i : Bool) (id : Nat)
    (node : TrieNode n V) : Prop where
  above : nodes p = some P
  child : P.child i = some id
  below : nodes id = some node
  parent : node.parent = some p
  lt : P.len < node.len
  agree : Agree topBit P.len P.key node.key

theorem ne_of_len_lt (ha : nodes a = some A) (hb : nodes b = some B) (h : A.len < B.len) : a ≠ b := by
  rintro rfl
  rw [mem_unique ha hb] at h
  omega

theorem Edge.irrefl (he : Edge nodes p P i a A) : p ≠ a := ne_of_len_lt he.above he.below he.lt

/-- What a node and its neighbours are like. -/
structure Fits (w : Nat) (nodes : Nat → Option (TrieNode n V)) (id : Nat) (node : TrieNode n V) : Prop where
  mask : node.mask = leadingMask n node.len
  len_le : node.len ≤ w
  leaf : node.value ≠ none → node.len = w ∧ ∀ i, node.child i = none
  root : id = trieHead → node.len = 0 ∧ node.value = none ∧ node.parent = none
  down : ∀ i kid, node.child i = some kid → ∃ K, Edge nodes id node i kid K
  up : id ≠ trieHead → ∃ p P i, Edge nodes p P i id node
  parts : ∀ a A b B, Edge nodes id node false a A → Edge nodes id node true b B →
    topBit A.key node.len ≠ topBit B.key node.len

structure Shape (w : Nat) (nodes : Nat → Option (TrieNode n V)) : Prop where
  head : ∃ node, nodes trieHead = some node
  fits : ∀ {id node}, nodes id = some node → Fits w nodes id node

/-- A middle node has two children, and the right child of the root comes with a left one. -/
structure Full (nodes : Nat → Option (TrieNode n V)) : Prop where
  root : ∀ R, nodes trieHead = some R → (R.child true).isSome → (R.child false).isSome
  middle : ∀ id node, nodes id = some node → id ≠ trieHead → node.value = none → ∀ i, (node.child i).isSome

theorem Full.left (h : Full nodes) (hnode : nodes id = some node) (hvalue : node.value = none)
    (hright : (node.child true).isSome) : (node.child false).isSome := by
  by_cases hid : id = trieHead
  · subst hid
    exact h.root node hnode hright
  · exact h.middle id node hnode hid hvalue false

variable (h : Shape w nodes)
include h

theorem Shape.value_eq_none (he : Edge nodes p P i a A) : P.value = none := by
  by_contra hvalue
  have hchild := he.child
  rw [((h.fits he.above).leaf hvalue).2] at hchild
  cases hchild

theorem Shape.ne_head (he : Edge nodes p P i a A) : a ≠ trieHead := by
  intro hhead
  have hparent := he.parent
  rw [((h.fits he.below).root hhead).2.2] at hparent
  cases hparent

/-- The children of a node that agree with one key as far as the next bit are one. -/
theorem Shape.side_eq (ha : Edge nodes p P i a A) (hb : Edge nodes p P j b B)
    (hbit : topBit A.key P.len = topBit B.key P.len) : i = j := by
  have hparts := (h.fits ha.above).parts
  cases i <;> cases j
  · rfl
  · exact absurd hbit (hparts _ _ _ _ ha hb)
  · exact absurd hbit.symm (hparts _ _ _ _ hb ha)
  · rfl

theorem Shape.edge_unique {p' : Nat} {P' : TrieNode n V} (ha : Edge nodes p P i a A) (hb : Edge nodes p' P' j a B) :
    p = p' ∧ i = j := by
  obtain rfl : A = B := mem_unique ha.below hb.below
  obtain rfl : p = p' := mem_unique ha.parent hb.parent
  obtain rfl : P = P' := mem_unique ha.above hb.above
  exact ⟨rfl, h.side_eq ha hb rfl⟩

omit h

/-! ### Following a key -/

theorem Fits.isMatch_iff (h : Fits w nodes id node) (hw : w ≤ n) :
    node.isMatch q = true ↔ Agree topBit node.len node.key q := by
  unfold TrieNode.isMatch
  rw [h.mask, beq_iff_eq, and_leadingMask_eq_iff (h.len_le.trans hw)]
  exact ⟨Agree.symm, Agree.symm⟩

theorem Shape.passing (h : Shape w t.nodes) (hw : w ≤ n) (hnode : t.nodes id = some node) (i : Bool) :
    ∃ o, t.passing (·.isMatch q) (node.child i) = some o ∧ t.goThrough q (leadingMask n w) (node.child i) = some o ∧
      (∀ kid, o = some kid → ∃ K, Edge t.nodes id node i kid K ∧ Agree topBit K.len K.key q) ∧
      (o = none → ∀ kid K, Edge t.nodes id node i kid K → ¬ Agree topBit K.len K.key q) := by
  cases hchild : node.child i with
  | none =>
    refine ⟨none, rfl, rfl, nofun, fun _ kid K he => ?_⟩
    have hkid := he.child
    rw [hchild] at hkid
    cases hkid
  | some kid =>
    obtain ⟨K, he⟩ := (h.fits hnode).down i kid hchild
    have hK := h.fits he.below
    have hmatch : K.isMatch q = true ↔ Agree topBit K.len K.key q := hK.isMatch_iff hw
    have hshorter : K.mask &&& leadingMask n w = K.mask := by
      rw [hK.mask]
      exact (leadingMask_and_eq_iff (hK.len_le.trans hw) hw).mpr hK.len_le
    refine ⟨if Agree topBit K.len K.key q then some kid else none, ?_, ?_, fun kid' hsome => ?_, fun hnone kid' K' he' => ?_⟩
    · simp only [Trie.passing, he.below, map_some, hmatch]
    · simp only [Trie.goThrough, Trie.passing, he.below, map_some, hshorter, BEq.rfl, Bool.and_true, hmatch]
    · split at hsome
      · next ha =>
        cases hsome
        exact ⟨K, he, ha⟩
      · cases hsome
    · obtain rfl : kid = kid' := mem_unique hchild he'.child
      obtain rfl : K = K' := mem_unique he.below he'.below
      intro ha
      rw [if_pos ha] at hnone
      cases hnone

theorem Shape.next (h : Shape w t.nodes) (hw : w ≤ n) (hnode : t.nodes id = some node) (q : BitVec n) :
    (∃ i kid K, Edge t.nodes id node i kid K ∧ Agree topBit K.len K.key q ∧ ∀ fuel,
      t.searchFrom q (fuel + 1) id = t.searchFrom q fuel kid ∧
      t.descend q (leadingMask n w) (fuel + 1) id = t.descend q (leadingMask n w) fuel kid) ∨
    (∀ i kid K, Edge t.nodes id node i kid K → ¬ Agree topBit K.len K.key q) ∧ ∀ fuel,
      t.searchFrom q (fuel + 1) id = some (if node.value.isSome then some id else none) ∧
      t.descend q (leadingMask n w) (fuel + 1) id = some id := by
  obtain ⟨l, hl, hl', hlsome, hlnone⟩ := h.passing (q := q) hw hnode false
  obtain ⟨r, hr, hr', hrsome, hrnone⟩ := h.passing (q := q) hw hnode true
  cases l with
  | some kid =>
    obtain ⟨K, he, ha⟩ := hlsome kid rfl
    refine .inl ⟨false, kid, K, he, ha, fun fuel => ⟨?_, ?_⟩⟩
    · simp [searchFrom, hnode, h.value_eq_none he, hl]
    · simp [descend, hnode, hl']
  | none =>
    cases r with
    | some kid =>
      obtain ⟨K, he, ha⟩ := hrsome kid rfl
      refine .inl ⟨true, kid, K, he, ha, fun fuel => ⟨?_, ?_⟩⟩
      · simp [searchFrom, hnode, h.value_eq_none he, hl, hr]
      · simp [descend, hnode, hl', hr']
    | none =>
      refine .inr ⟨fun i kid K he => ?_, fun fuel => ⟨?_, ?_⟩⟩
      · cases i with
        | false => exact hlnone rfl kid K he
        | true => exact hrnone rfl kid K he
      · cases hvalue : node.value <;> simp [searchFrom, hnode, hvalue, hl, hr]
      · simp [descend, hnode, hl', hr']

theorem Shape.walk_from (h : Shape w t.nodes) (hw : w ≤ n) {fuel : Nat} (hfuel : w < fuel + node.len)
    (hnode : t.nodes id = some node) (hq : Agree topBit node.len node.key q) :
    ∃ x X, t.descend q (leadingMask n w) fuel id = some x ∧ t.nodes x = some X ∧
      t.searchFrom q fuel id = some (if X.value.isSome then some x else none) ∧ Agree topBit X.len X.key q ∧
      ∀ i kid K, Edge t.nodes x X i kid K → ¬ Agree topBit K.len K.key q := by
  induction fuel generalizing id node with
  | zero =>
    have hle := (h.fits hnode).len_le
    omega
  | succ fuel ih =>
    rcases h.next hw hnode q with ⟨i, kid, K, he, ha, hstep⟩ | ⟨hnone, hstop⟩
    · have hlt := he.lt
      rw [(hstep fuel).1, (hstep fuel).2]
      exact ih (by omega) he.below ha
    · exact ⟨id, node, (hstop fuel).2, hnode, (hstop fuel).1, hq, hnone⟩

/-- The first loop of `insert_node` comes past every node that the key agrees with. -/
theorem Shape.passes (h : Shape w t.nodes) (hw : w ≤ n) {m : Nat} (hm : w < m) (hnode : t.nodes id = some node)
    (hq : Agree topBit node.len node.key q) :
    ∃ f, m ≤ f + node.len ∧
      t.descend q (leadingMask n w) m trieHead = t.descend q (leadingMask n w) f id := by
  induction hlen : node.len using Nat.strong_induction_on generalizing id node with
  | _ len ih =>
    subst hlen
    by_cases hid : id = trieHead
    · subst hid
      exact ⟨m, Nat.le_add_right _ _, rfl⟩
    · obtain ⟨p, P, i, he⟩ := (h.fits hnode).up hid
      have hlt := he.lt
      have hle := (h.fits hnode).len_le
      obtain ⟨f, hf, heq⟩ := ih P.len he.lt he.above (he.agree.trans (hq.mono he.lt.le)) rfl
      obtain ⟨f, rfl⟩ : ∃ g, f = g + 1 := ⟨f - 1, by omega⟩
      rcases h.next hw he.above q with ⟨j, kid, K, he', ha, hstep⟩ | ⟨hnone, -⟩
      · -- the child that the loop moves to is this one
        obtain rfl : i = j := h.side_eq he he' ((hq _ he.lt).trans (ha _ he'.lt).symm)
        obtain rfl : id = kid := mem_unique he.child he'.child
        exact ⟨f, by omega, heq.trans (hstep f).2⟩
      · exact absurd hq (hnone i id node he)

/-- Searching and the first loop of `insert_node` end at the same node, which is the leaf of the key
if there is one. -/
theorem Shape.walk (h : Shape w t.nodes) (hw : w ≤ n) (q : BitVec n) :
    ∃ x X, t.descend q (leadingMask n w) (n + 2) trieHead = some x ∧ t.nodes x = some X ∧
      t.search q = some (if X.value.isSome then some x else none) ∧ Agree topBit X.len X.key q ∧
      (∀ i kid K, Edge t.nodes x X i kid K → ¬ Agree topBit K.len K.key q) ∧
      ∀ e E, t.nodes e = some E → E.value ≠ none → Agree topBit w E.key q → e = x := by
  obtain ⟨r, hr⟩ := h.head
  have hroot : Agree topBit r.len r.key q := by
    rw [((h.fits hr).root rfl).1]
    exact .zero _ _
  obtain ⟨x, X, hx, hX, hs, hq, hend⟩ := h.walk_from hw (show w < n + 2 + r.len by omega) hr hroot
  refine ⟨x, X, hx, hX, hs, hq, hend, fun e E hE hvalue ha => ?_⟩
  obtain ⟨hlen, hchild⟩ := (h.fits hE).leaf hvalue
  obtain ⟨f, hf, heq⟩ := h.passes hw (show w < n + 2 by omega) hE (hlen ▸ ha)
  obtain ⟨f, rfl⟩ : ∃ g, f = g + 1 := ⟨f - 1, by omega⟩
  rcases h.next hw hE q with ⟨i, kid, K, he, -⟩ | ⟨-, hstop⟩
  · have hkid := he.child
    rw [hchild] at hkid
    cases hkid
  · rw [hx, (hstop f).2] at heq
    exact (some_inj.mp heq).symm

/-! ### Changing pointers -/

structure Kept (A A' : TrieNode n V) : Prop where
  key : A'.key = A.key
  mask : A'.mask = A.mask
  value : A'.value = A.value

/-- A node that keeps what it is for and has a child where it had one. -/
def Stays (nodes' : Nat → Option (TrieNode n V)) (y : Nat) (Y : TrieNode n V) : Prop :=
  ∃ Y', nodes' y = some Y' ∧ Kept Y Y' ∧ ∀ j, (Y.child j).isSome → (Y'.child j).isSome

variable {P' A' node' : TrieNode n V}

theorem Kept.refl (A : TrieNode n V) : Kept A A := ⟨rfl, rfl, rfl⟩

theorem Kept.len (h : Kept A A') : A'.len = A.len := by
  unfold TrieNode.len
  rw [h.mask]

theorem Edge.kept (he : Edge nodes p P i a A) (hP : Kept P P') (hA : Kept A A') (hp : nodes' p = some P')
    (ha : nodes' a = some A') (hchild : P'.child j = some a) (hparent : A'.parent = some p) :
    Edge nodes' p P' j a A' := by
  refine ⟨hp, hchild, ha, hparent, ?_, ?_⟩
  · rw [hP.len, hA.len]
    exact he.lt
  · rw [hP.len, hP.key, hA.key]
    exact he.agree

/-- A node whose pointers have changed. The cells at the other ends of its edges are whatever they
have become. -/
theorem Fits.kept (h : Fits w nodes id node) (hcell : nodes' id = some node') (hk : Kept node node')
    (hleaf : node.value ≠ none → ∀ i, node'.child i = none) (hroot : id = trieHead → node'.parent = node.parent)
    (hdown : ∀ i kid, node'.child i = some kid → ∃ P K, Edge nodes' id P i kid K)
    (hup : id ≠ trieHead → ∃ p P i A, Edge nodes' p P i id A)
    (hparts : ∀ a A b B, Edge nodes' id node' false a A → Edge nodes' id node' true b B →
      topBit A.key node.len ≠ topBit B.key node.len) : Fits w nodes' id node' := by
  refine ⟨?_, ?_, fun hvalue => ?_, fun hid => ?_, fun i kid hkid => ?_, fun hid => ?_, fun a A b B => ?_⟩
  · rw [hk.len, hk.mask]
    exact h.mask
  · rw [hk.len]
    exact h.len_le
  · rw [hk.value] at hvalue
    rw [hk.len]
    exact ⟨(h.leaf hvalue).1, hleaf hvalue⟩
  · rw [hk.len, hk.value, hroot hid]
    exact h.root hid
  · obtain ⟨P, K, he⟩ := hdown i kid hkid
    obtain rfl : P = node' := mem_unique he.above hcell
    exact ⟨K, he⟩
  · obtain ⟨p, P, i, A, he⟩ := hup hid
    obtain rfl : A = node' := mem_unique he.below hcell
    exact ⟨p, P, i, he⟩
  · rw [hk.len]
    exact hparts a A b B

theorem Fits.same_children (h : Fits w nodes id node) (hcell : nodes' id = some node') (hk : Kept node node')
    (hchild : node'.child = node.child) (hroot : id = trieHead → node'.parent = node.parent)
    (hdown : ∀ i kid K, Edge nodes id node i kid K → ∃ P' K', Edge nodes' id P' i kid K' ∧ Kept K K')
    (hup : id ≠ trieHead → ∃ p P i A, Edge nodes' p P i id A) : Fits w nodes' id node' := by
  have hold : ∀ i kid K', Edge nodes' id node' i kid K' → ∃ K, Edge nodes id node i kid K ∧ Kept K K' := by
    intro i kid K' he'
    obtain ⟨K, he⟩ := h.down i kid (hchild ▸ he'.child)
    obtain ⟨P', K'', he'', hK⟩ := hdown i kid K he
    obtain rfl : K'' = K' := mem_unique he''.below he'.below
    exact ⟨K, he, hK⟩
  refine h.kept hcell hk (fun hvalue => hchild ▸ (h.leaf hvalue).2) hroot (fun i kid hkid => ?_) hup fun a A b B ha hb => ?_
  · obtain ⟨K, he⟩ := h.down i kid (hchild ▸ hkid)
    obtain ⟨P', K', he', -⟩ := hdown i kid K he
    exact ⟨P', K', he'⟩
  · obtain ⟨A0, ha0, hA⟩ := hold false a A ha
    obtain ⟨B0, hb0, hB⟩ := hold true b B hb
    rw [hA.key, hB.key]
    exact h.parts a A0 b B0 ha0 hb0

theorem setChild_child (node : TrieNode n V) (i j : Bool) (kid : Option Nat) :
    (node.setChild i kid).child j = if j = i then kid else node.child j := by
  exact update_apply ..

theorem isSome_setChild {kid : Nat} (h : (node.child j).isSome) : ((node.setChild i (some kid)).child j).isSome := by
  rw [setChild_child]
  split
  · rfl
  · exact h

theorem Full.root_setChild (hfull : Full nodes) (he : Edge nodes p P i a A)
    (hp : nodes' p = some (P.setChild i (some b))) (hhead : trieHead ≠ p → nodes' trieHead = nodes trieHead) :
    ∀ R, nodes' trieHead = some R → (R.child true).isSome → (R.child false).isSome := by
  intro R hR hright
  by_cases hroot : trieHead = p
  · subst hroot
    obtain rfl := mem_unique hp hR
    cases i with
    | false => exact isSome_setChild (isSome_of_eq_some he.child)
    | true => exact isSome_setChild (hfull.root P he.above (isSome_of_eq_some he.child))
  · rw [hhead hroot] at hR
    exact hfull.root R hR hright

theorem Fits.setChild (h : Fits w nodes id node) (hcell : nodes' id = some (node.setChild i (some b)))
    (hvalue : node.value = none) (hnew : Edge nodes' id (node.setChild i (some b)) i b B)
    (hold : ∀ a A, Edge nodes id node (!i) a A →
      (∃ P' A', Edge nodes' id P' (!i) a A' ∧ Kept A A') ∧ topBit A.key node.len ≠ topBit B.key node.len)
    (hup : id ≠ trieHead → ∃ p P j A, Edge nodes' p P j id A) : Fits w nodes' id (node.setChild i (some b)) := by
  have hside : ∀ j kid, (node.setChild i (some b)).child j = some kid →
      (j = i ∧ kid = b) ∨ j = !i ∧ ∃ A, Edge nodes id node (!i) kid A := by
    intro j kid hkid
    rw [setChild_child] at hkid
    by_cases hj : j = i
    · rw [if_pos hj] at hkid
      exact .inl ⟨hj, (some_inj.mp hkid).symm⟩
    · rw [if_neg hj] at hkid
      obtain rfl : j = !i := Bool.eq_not_of_ne hj
      exact .inr ⟨rfl, h.down _ _ hkid⟩
  have hparts : ∀ a A, Edge nodes' id (node.setChild i (some b)) (!i) a A →
      topBit A.key node.len ≠ topBit B.key node.len := by
    intro a A ha
    rcases hside _ _ ha.child with ⟨hi, -⟩ | ⟨-, A0, ha0⟩
    · exact absurd hi (Bool.not_ne_self i)
    · obtain ⟨⟨P', A', ha', hA⟩, hbit⟩ := hold a A0 ha0
      obtain rfl : A' = A := mem_unique ha'.below ha.below
      rw [hA.key]
      exact hbit
  refine h.kept hcell ⟨rfl, rfl, rfl⟩ (absurd hvalue) (fun _ => rfl) (fun j kid hkid => ?_) hup fun a A c C ha hc => ?_
  · rcases hside j kid hkid with ⟨rfl, rfl⟩ | ⟨rfl, A, ha⟩
    · exact ⟨_, B, hnew⟩
    · obtain ⟨⟨P', A', ha', -⟩, -⟩ := hold kid A ha
      exact ⟨P', A', ha'⟩
  · cases i with
    | false =>
      obtain rfl : a = b := mem_unique ha.child hnew.child
      obtain rfl : A = B := mem_unique ha.below hnew.below
      exact (hparts c C hc).symm
    | true =>
      obtain rfl : c = b := mem_unique hc.child hnew.child
      obtain rfl : C = B := mem_unique hc.below hnew.below
      exact hparts a A ha

/-- One side of `x` has a new child. Of the nodes `S` around it only those that are left have to be
looked at: no edge comes to them from elsewhere, apart from the one that is replaced, and those that
leave them stay. -/
theorem Shape.reslot {x : Nat} {X : TrieNode n V} {S : Nat → Prop} (h : Shape w nodes) (hx : nodes x = some X)
    (hvalue : X.value = none) (hxS : ¬ S x) (hhead : ¬ S trieHead) (hx' : nodes' x = some (X.setChild i (some b)))
    (hnew : Edge nodes' x (X.setChild i (some b)) i b B)
    (hparts : ∀ a A, Edge nodes x X (!i) a A → topBit A.key X.len ≠ topBit B.key X.len)
    (hother : ∀ y, y ≠ x → ¬ S y → nodes' y = nodes y) (hS : ∀ y Y, S y → nodes' y = some Y → Fits w nodes' y Y)
    (hslot : ∀ a, X.child i = some a → S a) (hto : ∀ {p P j a A}, Edge nodes p P j a A → S a → S p ∨ p = x ∧ j = i)
    (hfrom : ∀ {p P j a A}, Edge nodes p P j a A → S p → ¬ S a → ∃ P', Edge nodes' p P' j a A) :
    Shape w nodes' ∧ ∀ y Y, nodes y = some Y → ¬ S y → Stays nodes' y Y := by
  have hcell : ∀ {y Y}, nodes y = some Y → ¬ S y → ∃ Y', nodes' y = some Y' ∧ Kept Y Y' ∧ Y'.parent = Y.parent ∧
      (∀ j a, Y.child j = some a → ¬ S a → Y'.child j = some a) ∧ ∀ j, (Y.child j).isSome → (Y'.child j).isSome := by
    intro y Y hy hyS
    by_cases hyx : y = x
    · subst hyx
      obtain rfl : X = Y := mem_unique hx hy
      refine ⟨_, hx', ⟨rfl, rfl, rfl⟩, rfl, fun j a ha haS => ?_, fun j => isSome_setChild⟩
      rw [setChild_child, if_neg, ha]
      rintro rfl
      exact haS (hslot a ha)
    · exact ⟨Y, (hother y hyx hyS).trans hy, .refl Y, rfl, fun _ _ ha _ => ha, fun _ => id⟩
  have hedge : ∀ {p P j a A}, Edge nodes p P j a A → ¬ S a → ∃ P' A', Edge nodes' p P' j a A' ∧ Kept A A' := by
    intro p P j a A he haS
    by_cases hpS : S p
    · obtain ⟨P', he'⟩ := hfrom he hpS haS
      exact ⟨P', A, he', .refl A⟩
    · obtain ⟨P', hP', hPk, -, hchild, -⟩ := hcell he.above hpS
      obtain ⟨A', hA', hAk, hparent, -⟩ := hcell he.below haS
      exact ⟨P', A', he.kept hPk hAk hP' hA' (hchild j a he.child haS) (hparent.trans he.parent), hAk⟩
  have hup : ∀ {id node}, nodes id = some node → ¬ S id → id ≠ trieHead → ∃ p P j A, Edge nodes' p P j id A := by
    intro id node hid hidS hne
    obtain ⟨p, P, j, he⟩ := (h.fits hid).up hne
    obtain ⟨P', A', he', -⟩ := hedge he hidS
    exact ⟨p, P', j, A', he'⟩
  refine ⟨⟨?_, fun {id node} hid => ?_⟩, fun y Y hy hyS => ?_⟩
  · obtain ⟨r, hr⟩ := h.head
    obtain ⟨r', hr', -⟩ := hcell hr hhead
    exact ⟨r', hr'⟩
  · by_cases hidS : S id
    · exact hS id node hidS hid
    by_cases hidx : id = x
    · subst hidx
      obtain rfl := mem_unique hx' hid
      refine (h.fits hx).setChild hx' hvalue hnew (fun a A he => ⟨hedge he fun haS => ?_, hparts a A he⟩) (hup hx hxS)
      rcases hto he haS with hx | ⟨-, hi⟩
      · exact hxS hx
      · exact Bool.not_ne_self i hi
    · have hid' : nodes id = some node := (hother id hidx hidS) ▸ hid
      refine (h.fits hid').same_children hid (.refl node) rfl (fun _ => rfl) (fun j kid K he => hedge he fun hkS => ?_)
        (hup hid' hidS)
      rcases hto he hkS with hidS' | ⟨hx, -⟩
      · exact hidS hidS'
      · exact hidx hx
  · obtain ⟨Y', hY', hk, -, -, hchild⟩ := hcell hy hyS
    exact ⟨Y', hY', hk, hchild⟩

/-! ### Writing cells -/

structure Modified (t t' : Trie n V) (id : Nat) (node : TrieNode n V) : Prop where
  self : t'.nodes id = some node
  other : ∀ y, y ≠ id → t'.nodes y = t.nodes y
  fresh : t'.fresh = t.fresh
  nodeNum : t'.nodeNum = t.nodeNum

theorem modify_eq_some (h : t.nodes id = some node) (f : TrieNode n V → TrieNode n V) :
    ∃ t', t.modify id f = some t' ∧ Modified t t' id (f node) := by
  refine ⟨{ t with nodes := update t.nodes id (some (f node)) }, ?_, ?_⟩
  · unfold modify
    rw [h, map_some]
  · exact ⟨update_self .., fun y hy => update_of_ne hy .., rfl, rfl⟩

/-! ### The whole trie -/

def nonRoot (t : Trie n V) : Finset Nat := (Finset.range t.fresh).filter fun id => id ≠ trieHead ∧ (t.nodes id).isSome

/-- A key that agrees with `q` on the first `w` bits has the value `v`. -/
def Stores (w : Nat) (t : Trie n V) (q : BitVec n) (v : V) : Prop :=
  ∃ e E, t.nodes e = some E ∧ E.value = some v ∧ Agree topBit w E.key q

structure Sound (w : Nat) (t : Trie n V) : Prop where
  shape : Shape w t.nodes
  full : Full t.nodes
  lt_fresh : ∀ {id}, (t.nodes id).isSome → id < t.fresh
  nodeNum : t.nodeNum = t.nonRoot.card % 2^32

theorem mem_nonRoot (h : ∀ {id}, (t.nodes id).isSome → id < t.fresh) :
    id ∈ t.nonRoot ↔ id ≠ trieHead ∧ (t.nodes id).isSome := by
  rw [nonRoot, Finset.mem_filter, Finset.mem_range]
  exact ⟨And.right, fun hid => ⟨h hid.2, hid⟩⟩

theorem nonRoot_card_add {t' : Trie n V} {N : Finset Nat} (h : ∀ {id}, (t.nodes id).isSome → id < t.fresh)
    (h' : ∀ {id}, (t'.nodes id).isSome → id < t'.fresh) (hN : ∀ y ∈ N, y ≠ trieHead ∧ t.nodes y = none)
    (hcells : ∀ y, (t'.nodes y).isSome ↔ y ∈ N ∨ (t.nodes y).isSome) :
    t'.nonRoot.card = t.nonRoot.card + N.card := by
  have hunion : t'.nonRoot = t.nonRoot ∪ N := by
    ext y
    rw [Finset.mem_union, mem_nonRoot h', mem_nonRoot h, hcells]
    have hy := hN y
    tauto
  rw [hunion]
  refine Finset.card_union_of_disjoint (Finset.disjoint_left.mpr fun y hy hyN => ?_)
  have hsome := ((mem_nonRoot h).mp hy).2
  rw [(hN y hyN).2] at hsome
  cases hsome

end Trie

end Shma
