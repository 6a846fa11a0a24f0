import Shma.Common.TrieShape

/-!
# Inserting into a trie

The first loop of `insert_node` ends at the last node that the key agrees with. The second puts a
middle node between it and the child on the key's side, or a leaf into an empty child of the root.
-/
namespace Shma.Trie

open Lib.PathTrie

variable {n : Nat} {V : Type} {w x kid d f f' : Nat} {t : Trie n V} {k : BitVec n} {v : V} {i : Bool}
  {X K : TrieNode n V} {nodes nodes' : Nat → Option (TrieNode n V)}

/-! ### The second loop -/

theorem insertBelow_child (hw : w ≤ n) (h : Shape w t.nodes) (he : Edge t.nodes x X i kid K)
    (hk : Agree topBit X.len X.key k) (is : List Bool) :
    t.insertBelow x k (leadingMask n w) (some v) (i :: is) X.mask =
      if topBit K.key X.len = topBit k X.len then
        t.splitChild x i kid k (leadingMask n (parting topBit w k K.key)) (leadingMask n w) (some v)
      else t.insertBelow x k (leadingMask n w) (some v) is X.mask := by
  have hX := h.fits he.above
  have hlt : X.len < w := Nat.lt_of_lt_of_le he.lt (h.fits he.below).len_le
  have hagree : Agree topBit X.len k K.key := hk.symm.trans he.agree
  have hle : parting topBit w k K.key ≤ w := parting_le w k K.key
  have hge : X.len ≤ parting topBit w k K.key := le_parting hagree hlt.le
  have hextend : extendMask k K.key (leadingMask n w) (n + 1) X.mask =
      some (leadingMask n (parting topBit w k K.key)) := by
    rw [hX.mask]
    exact extendMask_eq hw hagree hlt.le (by omega)
  have hsame : leadingMask n (parting topBit w k K.key) = X.mask ↔ parting topBit w k K.key = X.len := by
    nth_rewrite 1 [hX.mask]
    exact leadingMask_inj (hle.trans hw) (hX.len_le.trans hw)
  rw [insertBelow, he.above, bind_eq_bind]
  simp only [he.child, he.below, bind_eq_bind, bind_some, hextend]
  by_cases hbit : topBit K.key X.len = topBit k X.len
  · have hdeeper : X.len + 1 ≤ parting topBit w k K.key :=
      le_parting (agree_succ_iff.mpr ⟨hagree, hbit.symm⟩) hlt
    rw [if_pos hbit, if_neg (mt hsame.mp (by omega))]
  · have hhere : parting topBit w k K.key < X.len + 1 :=
      parting_lt_of_not_agree fun ha => hbit (ha X.len (lt_succ_self _)).symm
    have hmask := hsame.mpr (by omega)
    rw [if_neg hbit, if_pos hmask, hmask]

theorem insertBelow_empty (is : List Bool) (mask k newMask : BitVec n) (v : V) (hcell : t.nodes x = some X)
    (hx : x ≠ t.fresh) (hchild : X.child i = none) :
    ∃ t', t.insertBelow x k newMask (some v) (i :: is) mask = some (t', some t.fresh) ∧
      Modified (t.newNode { TrieNode.new k newMask (some v) with parent := some x }) t' x
        (X.setChild i (some t.fresh)) := by
  have hcell' : (t.newNode { TrieNode.new k newMask (some v) with parent := some x }).nodes x = some X :=
    (update_of_ne hx ..).trans hcell
  obtain ⟨t', ht', hmod⟩ := modify_eq_some hcell' fun node => node.setChild i (some t.fresh)
  refine ⟨t', ?_, hmod⟩
  rw [insertBelow, hcell, bind_eq_bind]
  simp only [hchild, ht', bind_eq_bind, bind_some]
  rfl

/-- The child on the key's side is split off, or there is none. -/
theorem Shape.insertAt (h : Shape w t.nodes) (hfull : Full t.nodes) (hw : w ≤ n) (hx : t.nodes x = some X)
    (hvalue : X.value = none) (hlt : X.len < w) (hk : Agree topBit X.len X.key k) :
    (∃ i kid K, Edge t.nodes x X i kid K ∧ topBit K.key X.len = topBit k X.len ∧
      t.insertAt x k (leadingMask n w) (some v) =
        t.splitChild x i kid k (leadingMask n (parting topBit w k K.key)) (leadingMask n w) (some v)) ∨
    ∃ i is, X.child i = none ∧ (i = true → (X.child false).isSome) ∧
      (∀ kid K, Edge t.nodes x X (!i) kid K → topBit K.key X.len ≠ topBit k X.len) ∧
      t.insertAt x k (leadingMask n w) (some v) =
        t.insertBelow x k (leadingMask n w) (some v) (i :: is) X.mask := by
  have hX := h.fits hx
  have hmask : X.mask ≠ leadingMask n w := by
    rw [hX.mask, ne_eq, leadingMask_inj (hX.len_le.trans hw) hw]
    omega
  have hloop : t.insertAt x k (leadingMask n w) (some v) =
      t.insertBelow x k (leadingMask n w) (some v) [false, true] X.mask := by
    rw [Trie.insertAt, hx, bind_eq_bind, bind_some, if_neg hmask]
  cases hl : X.child false with
  | none =>
    refine .inr ⟨false, [true], hl, nofun, fun kid K he => ?_, hloop⟩
    have hleft := hfull.left hx hvalue (isSome_of_eq_some he.child)
    rw [hl] at hleft
    cases hleft
  | some l =>
    obtain ⟨L, hL⟩ := hX.down false l hl
    by_cases hbit : topBit L.key X.len = topBit k X.len
    · refine .inl ⟨false, l, L, hL, hbit, ?_⟩
      rw [hloop, insertBelow_child hw h hL hk, if_pos hbit]
    · rw [insertBelow_child hw h hL hk, if_neg hbit] at hloop
      cases hr : X.child true with
      | none =>
        refine .inr ⟨true, [], hr, fun _ => rfl, fun kid K he => ?_, hloop⟩
        obtain rfl : l = kid := mem_unique hl he.child
        obtain rfl : L = K := mem_unique hL.below he.below
        exact hbit
      | some r =>
        obtain ⟨R, hR⟩ := hX.down true r hr
        have hbit' : topBit R.key X.len = topBit k X.len := other_side (hX.parts _ _ _ _ hL hR) hbit
        refine .inl ⟨true, r, R, hR, hbit', ?_⟩
        rw [hloop, insertBelow_child hw h hR hk, if_pos hbit']

theorem splitChild_cells {a : Nat} {A : TrieNode n V} (hmask : leadingMask n d ≠ leadingMask n w)
    (hcell : t.nodes x = some X) (hkid : t.nodes a = some A) (hxa : x ≠ a) (hx : x < t.fresh) (ha : a < t.fresh) :
    ∃ t', t.splitChild x i a k (leadingMask n d) (leadingMask n w) (some v) = some (t', some (t.fresh + 1)) ∧
      t'.nodes t.fresh = some (innerCell k d x a (t.fresh + 1)) ∧
      t'.nodes (t.fresh + 1) = some (leafCell w k v t.fresh) ∧
      t'.nodes x = some (X.setChild i (some t.fresh)) ∧ t'.nodes a = some { A with parent := some t.fresh } ∧
      (∀ y, y ≠ x → y ≠ t.fresh → y ≠ t.fresh + 1 → y ≠ a → t'.nodes y = t.nodes y) ∧
      t'.fresh = t.fresh + 2 ∧ t'.nodeNum = (t.nodeNum + 2) % 2^32 := by
  have hself : ∀ (t : Trie n V) node, (t.newNode node).nodes t.fresh = some node := fun _ _ => update_self ..
  have hother : ∀ (t : Trie n V) node y, y ≠ t.fresh → (t.newNode node).nodes y = t.nodes y := fun _ _ _ hy =>
    update_of_ne hy ..
  have hkid1 := (hother t { TrieNode.new k (leadingMask n d) none with
    parent := some x, child := update (fun _ => none) false (some a) } a ha.ne).trans hkid
  obtain ⟨t2, ht2, h2⟩ := modify_eq_some hkid1 fun node => { node with parent := some t.fresh }
  have hx2 := ((h2.other x hxa).trans (hother t _ x hx.ne)).trans hcell
  obtain ⟨t3, ht3, h3⟩ := modify_eq_some hx2 fun node => node.setChild i (some t.fresh)
  have hfresh3 : t3.fresh = t.fresh + 1 := h3.fresh.trans h2.fresh
  have hmid4 : (t3.newNode { TrieNode.new k (leadingMask n w) (some v) with parent := some t.fresh }).nodes t.fresh = _ :=
    (hother t3 _ _ (by omega)).trans ((h3.other _ hx.ne').trans ((h2.other _ ha.ne').trans (hself t _)))
  obtain ⟨t5, ht5, h5⟩ := modify_eq_some hmid4 fun node => node.setChild true (some (t.fresh + 1))
  have hbefore : ∀ y, y ≠ t.fresh → y ≠ t.fresh + 1 → t5.nodes y = t3.nodes y := fun y hy hy' =>
    (h5.other y hy).trans (hother t3 _ y (by omega))
  refine ⟨t5, ?_, ?_, ?_, ?_, ?_, fun y hyx hyf hyf' hya => ?_, ?_, ?_⟩
  · unfold splitChild
    simp only [ht2, ht3, ht5, hmask, bind_eq_bind, bind_some, if_false, hfresh3]
    rfl
  · rw [h5.self]
    refine congrArg some (TrieNode.ext rfl rfl rfl rfl (funext fun j => ?_))
    cases j <;> rfl
  · rw [h5.other _ (by omega), ← hfresh3, hself]
    rfl
  · rw [hbefore x hx.ne (by omega), h3.self]
  · rw [hbefore a ha.ne (by omega), h3.other _ hxa.symm, h2.self]
  · rw [hbefore y hyf hyf', h3.other y hyx, h2.other y hya, hother t _ y hyf]
  · rw [h5.fresh]
    show t3.fresh + 1 = _
    omega
  · rw [h5.nodeNum]
    show (t3.nodeNum + 1) % 2^32 = _
    rw [h3.nodeNum, h2.nodeNum]
    show ((t.nodeNum + 1) % 2^32 + 1) % 2^32 = _
    omega

/-! ### New nodes -/

theorem leafCell_len (hw : w ≤ n) (k : BitVec n) (v : V) (p : Nat) : (leafCell w k v p).len = w := len_of_mask hw rfl

theorem fits_leaf (hw : w ≤ n) (hf : f ≠ trieHead) {P : TrieNode n V} (he : Edge nodes x P i f (leafCell w k v x)) :
    Fits w nodes f (leafCell w k v x) := by
  have hlen : (leafCell w k v x).len = w := leafCell_len hw k v x
  refine ⟨?_, hlen.le, fun _ => ⟨hlen, fun _ => rfl⟩, fun hid => absurd hid hf, nofun, fun _ => ⟨x, P, i, he⟩, ?_⟩
  · rw [hlen]
    rfl
  · exact fun a A b B ha => nomatch ha.child

theorem Shape.attach (h : Shape w nodes) (hw : w ≤ n) (hx : nodes x = some X) (hvalue : X.value = none)
    (hslot : X.child i = none) (hlt : X.len < w) (hk : Agree topBit X.len X.key k)
    (hsib : ∀ a A, Edge nodes x X (!i) a A → topBit A.key X.len ≠ topBit k X.len) (hf : nodes f = none)
    (hx' : nodes' x = some (X.setChild i (some f))) (hf' : nodes' f = some (leafCell w k v x))
    (hframe : ∀ y, y ≠ x → y ≠ f → nodes' y = nodes y) :
    Shape w nodes' ∧ ∀ y Y, nodes y = some Y → y ≠ f → Stays nodes' y Y := by
  have hne : ∀ {y Y}, nodes y = some Y → y ≠ f := by
    rintro y Y hy rfl
    rw [hf] at hy
    cases hy
  obtain ⟨r, hr⟩ := h.head
  have hnew : Edge nodes' x (X.setChild i (some f)) i f (leafCell w k v x) :=
    ⟨hx', by rw [setChild_child, if_pos rfl], hf', rfl, (leafCell_len hw k v x).symm ▸ hlt, hk⟩
  refine h.reslot (S := (· = f)) hx hvalue (hne hx) (hne hr) hx' hnew hsib hframe (fun y Y hy hY => ?_) (fun a ha => ?_)
    (fun he ha => absurd ha (hne he.below)) fun he hp => absurd hp (hne he.above)
  · subst hy
    obtain rfl := mem_unique hf' hY
    exact fits_leaf hw (hne hr).symm hnew
  · rw [hslot] at ha
    cases ha

/-- A middle node above the child on the key's side, with a new leaf next to it. -/
theorem Shape.split (h : Shape w nodes) (hw : w ≤ n) (he : Edge nodes x X i kid K) (hxd : X.len < d) (hd : d < K.len)
    (hk : Agree topBit d k K.key) (hbit : topBit k d ≠ topBit K.key d) (hf : nodes f = none) (hf' : nodes f' = none)
    (hx' : nodes' x = some (X.setChild i (some f))) (hmid : nodes' f = some (innerCell k d x kid f'))
    (hleaf : nodes' f' = some (leafCell w k v f)) (hkid : nodes' kid = some { K with parent := some f })
    (hframe : ∀ y, y ≠ x → y ≠ f → y ≠ f' → y ≠ kid → nodes' y = nodes y) :
    Shape w nodes' ∧ ∀ y Y, nodes y = some Y → ¬ (y = f ∨ y = f' ∨ y = kid) → Stays nodes' y Y := by
  have hK := h.fits he.below
  have hdw : d < w := Nat.lt_of_lt_of_le hd hK.len_le
  have hlen : (innerCell k d x kid f' : TrieNode n V).len = d := len_of_mask (by omega) rfl
  have hne : ∀ {y Y}, nodes y = some Y → y ≠ f ∧ y ≠ f' := by
    intro y Y hy
    constructor <;> rintro rfl
    · rw [hf] at hy
      cases hy
    · rw [hf'] at hy
      cases hy
  have hxk : x ≠ kid := he.irrefl
  obtain ⟨r, hr⟩ := h.head
  have hrk : trieHead ≠ kid := (h.ne_head he).symm
  have hnew : Edge nodes' x (X.setChild i (some f)) i f (innerCell k d x kid f') :=
    ⟨hx', by rw [setChild_child, if_pos rfl], hmid, rfl, hlen.symm ▸ hxd, he.agree.trans (hk.mono hxd.le).symm⟩
  have hleft : Edge nodes' f (innerCell k d x kid f') false kid { K with parent := some f } :=
    ⟨hmid, rfl, hkid, rfl, hlen.symm ▸ hd, hlen.symm ▸ hk⟩
  have hright : Edge nodes' f (innerCell k d x kid f') true f' (leafCell w k v f) :=
    ⟨hmid, rfl, hleaf, rfl, by rw [hlen, leafCell_len hw]; exact hdw, .refl _ _⟩
  have hfrom : ∀ {j a A}, Edge nodes kid K j a A → Edge nodes' kid { K with parent := some f } j a A := by
    intro j a A ha
    have hxa : x ≠ a := ne_of_len_lt he.above ha.below (he.lt.trans ha.lt)
    have ha' : nodes' a = some A :=
      (hframe a hxa.symm (hne ha.below).1 (hne ha.below).2 fun heq => ha.irrefl heq.symm).trans ha.below
    exact { ha with above := hkid, below := ha' }
  refine h.reslot (S := fun y => y = f ∨ y = f' ∨ y = kid) he.above (h.value_eq_none he) ?_ ?_ hx' hnew
    (fun a A ha heq => ?_) (fun y hyx hyS => ?_) (fun y Y hy hY => ?_) (fun a ha => ?_) (fun ha haS => ?_)
    fun ha haS haS' => ?_
  · simp [hne he.above, hxk]
  · simp [hne hr, hrk]
  · -- the new node is on the side of the child that it is put above
    have hside : topBit A.key X.len = topBit K.key X.len := heq.trans (hk _ hxd)
    exact Bool.not_ne_self i (h.side_eq ha he hside)
  · simp only [not_or] at hyS
    exact hframe y hyx hyS.1 hyS.2.1 hyS.2.2
  · rcases hy with rfl | rfl | rfl
    · obtain rfl := mem_unique hmid hY
      refine ⟨?_, ?_, fun hv => absurd rfl hv, fun hid => absurd hid (hne hr).1.symm, fun j a ha => ?_,
        fun _ => ⟨x, _, i, hnew⟩, fun a A b B ha hb => ?_⟩
      · rw [hlen]
        rfl
      · rw [hlen]
        exact hdw.le
      · cases j with
        | false =>
          cases ha
          exact ⟨_, hleft⟩
        | true =>
          cases ha
          exact ⟨_, hright⟩
      · obtain rfl := some_inj.mp ha.child
        obtain rfl := some_inj.mp hb.child
        obtain rfl := mem_unique hkid ha.below
        obtain rfl := mem_unique hleaf hb.below
        rw [hlen]
        exact hbit.symm
    · obtain rfl := mem_unique hleaf hY
      exact fits_leaf hw (hne hr).2.symm hright
    · obtain rfl := mem_unique hkid hY
      exact hK.same_children hkid ⟨rfl, rfl, rfl⟩ rfl (fun hid => absurd hid hrk.symm)
        (fun j a A ha => ⟨_, A, hfrom ha, .refl A⟩) fun _ => ⟨f, _, false, _, hleft⟩
  · exact .inr (.inr (mem_unique ha he.child))
  · rcases haS with rfl | rfl | rfl
    · exact absurd rfl (hne ha.below).1
    · exact absurd rfl (hne ha.below).2
    · exact .inr ((h.edge_unique ha he))
  · rcases haS with rfl | rfl | rfl
    · exact absurd rfl (hne ha.above).1
    · exact absurd rfl (hne ha.above).2
    · obtain rfl := mem_unique he.below ha.above
      exact ⟨_, hfrom ha⟩

/-! ### The whole function -/

theorem Sound.nodes_fresh (h : Sound w t) {y : Nat} (hy : t.fresh ≤ y) : t.nodes y = none := by
  by_contra hsome
  have hlt := h.lt_fresh (isSome_iff_ne_none.mpr hsome)
  omega

def Inserted (w : Nat) (t : Trie n V) (k : BitVec n) (v : V) (r : Option (Trie n V × Option Nat)) : Prop :=
  ∃ t' id, r = some (t', some id) ∧ Sound w t' ∧
    ∀ q u, Stores w t' q u ↔ (Agree topBit w k q ∧ v = u) ∨ Stores w t q u

/-- New nodes of which one is a leaf and any other a middle node. Those that were there stay. -/
theorem Sound.grow {t' : Trie n V} {N : Finset Nat} {p : Nat} (h : Sound w t) (hshape : Shape w t'.nodes)
    (hleaf : t'.nodes f = some (leafCell w k v p)) (hf : f ∈ N)
    (hold : ∀ y Y, t.nodes y = some Y → Stays t'.nodes y Y) (hnew : ∀ y Y', t'.nodes y = some Y' → t.nodes y = none →
      y ∈ N ∧ (y = f ∨ Y'.value = none ∧ ∀ i, (Y'.child i).isSome))
    (hroot : ∀ R, t'.nodes trieHead = some R → (R.child true).isSome → (R.child false).isSome)
    (hN : ∀ y ∈ N, t.fresh ≤ y ∧ y < t'.fresh ∧ (t'.nodes y).isSome) (hfresh : t.fresh ≤ t'.fresh)
    (hnum : t'.nodeNum = (t.nodeNum + N.card) % 2^32) :
    Sound w t' ∧ ∀ q u, Stores w t' q u ↔ (Agree topBit w k q ∧ v = u) ∨ Stores w t q u := by
  have hcells : ∀ y, (t'.nodes y).isSome ↔ y ∈ N ∨ (t.nodes y).isSome := by
    intro y
    constructor
    · intro hsome
      cases hy : t.nodes y with
      | some Y => exact .inr rfl
      | none =>
        obtain ⟨Y', hY'⟩ := isSome_iff_exists.mp hsome
        exact .inl (hnew y Y' hY' hy).1
    · rintro (hy | hsome)
      · exact (hN y hy).2.2
      · obtain ⟨Y, hY⟩ := isSome_iff_exists.mp hsome
        obtain ⟨Y', hY', -⟩ := hold y Y hY
        exact isSome_of_eq_some hY'
  have hlt : ∀ {y}, (t'.nodes y).isSome → y < t'.fresh := by
    intro y hsome
    rcases (hcells y).mp hsome with hy | hy
    · exact (hN y hy).2.1
    · exact Nat.lt_of_lt_of_le (h.lt_fresh hy) hfresh
  obtain ⟨r, hr⟩ := h.shape.head
  have hhead := h.lt_fresh (isSome_of_eq_some hr)
  refine ⟨⟨hshape, ⟨hroot, fun y Y' hY' hne hvalue => ?_⟩, hlt, ?_⟩, fun q u => ⟨?_, ?_⟩⟩
  · cases hy : t.nodes y with
    | none =>
      rcases (hnew y Y' hY' hy).2 with rfl | ⟨-, hchild⟩
      · obtain rfl := mem_unique hleaf hY'
        cases hvalue
      · exact hchild
    | some Y =>
      obtain ⟨Y'', hY'', hk, hchild⟩ := hold y Y hy
      obtain rfl := mem_unique hY'' hY'
      exact fun i => hchild i (h.full.middle y Y hy hne (hk.value ▸ hvalue) i)
  · rw [hnum, h.nodeNum, nonRoot_card_add h.lt_fresh hlt (fun y hy => ?_) hcells]
    · omega
    · have hle := (hN y hy).1
      exact ⟨by omega, h.nodes_fresh hle⟩
  · rintro ⟨e, E, hE, hu, ha⟩
    cases he : t.nodes e with
    | none =>
      rcases (hnew e E hE he).2 with rfl | ⟨hvalue, -⟩
      · obtain rfl := mem_unique hleaf hE
        exact .inl ⟨ha, some_inj.mp hu⟩
      · rw [hvalue] at hu
        cases hu
    | some E0 =>
      obtain ⟨E', hE', hk, -⟩ := hold e E0 he
      obtain rfl := mem_unique hE' hE
      exact .inr ⟨e, E0, he, hk.value ▸ hu, hk.key ▸ ha⟩
  · rintro (⟨ha, rfl⟩ | ⟨e, E, hE, hu, ha⟩)
    · exact ⟨f, _, hleaf, rfl, ha⟩
    · obtain ⟨E', hE', hk, -⟩ := hold e E hE
      exact ⟨e, E', hE', hk.value.trans hu, hk.key.symm ▸ ha⟩

theorem Sound.split (h : Sound w t) (hw : w ≤ n) (he : Edge t.nodes x X i kid K)
    (hbit : topBit K.key X.len = topBit k X.len) (hk : Agree topBit X.len X.key k)
    (hend : ¬ Agree topBit K.len K.key k) :
    Inserted w t k v
      (t.splitChild x i kid k (leadingMask n (parting topBit w k K.key)) (leadingMask n w) (some v)) := by
  have hKw := (h.shape.fits he.below).len_le
  have hlt := he.lt
  have hd : parting topBit w k K.key < K.len := parting_lt_of_not_agree fun ha => hend ha.symm
  have hxd : X.len + 1 ≤ parting topBit w k K.key :=
    le_parting (agree_succ_iff.mpr ⟨hk.symm.trans he.agree, hbit.symm⟩) (by omega)
  have hmask : leadingMask n (parting topBit w k K.key) ≠ leadingMask n w := by
    rw [ne_eq, leadingMask_inj (by omega) hw]
    omega
  have hx := h.lt_fresh (isSome_of_eq_some he.above)
  have hkid := h.lt_fresh (isSome_of_eq_some he.below)
  obtain ⟨t', hrun, hmid, hleaf, hx', hkid', hframe, hfresh, hnum⟩ :=
    splitChild_cells (v := v) (k := k) (i := i) hmask he.above he.below he.irrefl hx hkid
  obtain ⟨hshape, hold⟩ := h.shape.split hw he hxd hd (agree_parting _ _ _) (bit_parting (by omega))
    (h.nodes_fresh le_rfl) (h.nodes_fresh (Nat.le_succ _)) hx' hmid hleaf hkid' hframe
  have hhead : trieHead < t.fresh := by
    obtain ⟨r, hr⟩ := h.shape.head
    exact h.lt_fresh (isSome_of_eq_some hr)
  refine ⟨t', _, hrun, h.grow (N := {t.fresh, t.fresh + 1}) hshape hleaf (by simp) (fun y Y hy => ?_)
    (fun y Y' hY' hy => ?_) (h.full.root_setChild he hx' fun hne => ?_) (fun y hy => ?_) (by omega) ?_⟩
  · have hlt := h.lt_fresh (isSome_of_eq_some hy)
    by_cases hyk : y = kid
    · subst hyk
      obtain rfl := mem_unique hy he.below
      exact ⟨_, hkid', ⟨rfl, rfl, rfl⟩, fun _ hj => hj⟩
    · refine hold y Y hy ?_
      rintro (hyf | hyf | hyk')
      · omega
      · omega
      · exact hyk hyk'
  · by_cases hyf : y = t.fresh
    · subst hyf
      obtain rfl := mem_unique hmid hY'
      exact ⟨by simp, .inr ⟨rfl, fun _ => rfl⟩⟩
    by_cases hyf' : y = t.fresh + 1
    · exact ⟨by simp [hyf'], .inl hyf'⟩
    · rw [hframe y ?_ hyf hyf' ?_, hy] at hY'
      · cases hY'
      all_goals rintro rfl; simp [he.above, he.below] at hy
  · exact hframe _ hne (by omega) (by omega) (h.shape.ne_head he).symm
  · simp only [Finset.mem_insert, Finset.mem_singleton] at hy
    rcases hy with rfl | rfl
    · exact ⟨le_rfl, by omega, isSome_of_eq_some hmid⟩
    · exact ⟨Nat.le_succ _, by omega, isSome_of_eq_some hleaf⟩
  · rw [hnum, Finset.card_pair (by omega)]

theorem Sound.attach (h : Sound w t) (hw : w ≤ n) (hx : t.nodes trieHead = some X) (hslot : X.child i = none)
    (hleft : i = true → (X.child false).isSome) (hlt : X.len < w) (hk : Agree topBit X.len X.key k)
    (hsib : ∀ a A, Edge t.nodes trieHead X (!i) a A → topBit A.key X.len ≠ topBit k X.len) (is : List Bool)
    (mask : BitVec n) :
    Inserted w t k v (t.insertBelow trieHead k (leadingMask n w) (some v) (i :: is) mask) := by
  have hvalue : X.value = none := ((h.shape.fits hx).root rfl).2.1
  have hhead : trieHead ≠ t.fresh := (h.lt_fresh (isSome_of_eq_some hx)).ne
  obtain ⟨t', hrun, hmod⟩ := insertBelow_empty is mask k (leadingMask n w) v hx hhead hslot
  have hf : t'.nodes t.fresh = some (leafCell w k v trieHead) :=
    (hmod.other _ hhead.symm).trans (update_self ..)
  have hframe : ∀ y, y ≠ trieHead → y ≠ t.fresh → t'.nodes y = t.nodes y := fun y hy hyf =>
    (hmod.other y hy).trans (update_of_ne hyf ..)
  obtain ⟨hshape, hold⟩ := h.shape.attach hw hx hvalue hslot hlt hk hsib (h.nodes_fresh le_rfl) hmod.self hf hframe
  have hfresh : t'.fresh = t.fresh + 1 := hmod.fresh
  refine ⟨t', _, hrun, h.grow (N := {t.fresh}) hshape hf (by simp)
    (fun y Y hy => hold y Y hy (h.lt_fresh (isSome_of_eq_some hy)).ne) (fun y Y' hY' hy => ?_)
    (fun R hR hright => ?_) (fun y hy => ?_) (by omega) hmod.nodeNum⟩
  · by_cases hyf : y = t.fresh
    · exact ⟨Finset.mem_singleton.mpr hyf, .inl hyf⟩
    · rw [hframe y ?_ hyf, hy] at hY'
      · cases hY'
      · rintro rfl
        simp [hx] at hy
  · obtain rfl := mem_unique hmod.self hR
    rw [setChild_child]
    split
    · rfl
    · next hi => exact hleft (Bool.eq_true_of_not_eq_false (Ne.symm hi))
  · obtain rfl := Finset.mem_singleton.mp hy
    exact ⟨le_rfl, by omega, isSome_of_eq_some hf⟩

theorem Sound.insertNode (h : Sound w t) (hpos : 0 < w) (hw : w ≤ n) (key : BitVec n) (v : V)
    (hnew : ∀ u, ¬ Stores w t key u) : Inserted w t key v (t.insertNode key w (some v)) := by
  have hmask : Agree topBit w (key &&& leadingMask n w) key := agree_and_leadingMask hw key
  suffices hins : Inserted w t (key &&& leadingMask n w) v (t.insertNode key w (some v)) by
    obtain ⟨t', id, hrun, hsound, hstores⟩ := hins
    refine ⟨t', id, hrun, hsound, fun q u => ?_⟩
    rw [hstores]
    have hsame : Agree topBit w (key &&& leadingMask n w) q ↔ Agree topBit w key q := ⟨hmask.symm.trans, hmask.trans⟩
    rw [hsame]
  unfold Trie.insertNode
  rw [widthMask_eq hw]
  dsimp only
  generalize hk : key &&& leadingMask n w = k at hmask ⊢
  obtain ⟨x, X, hx, hX, -, ha, hend, -⟩ := h.shape.walk hw k
  have hfits := h.shape.fits hX
  have hvalue : X.value = none := by
    by_contra hvalue
    obtain ⟨u, hu⟩ := ne_none_iff_exists'.mp hvalue
    have hlen := (hfits.leaf hvalue).1
    exact hnew u ⟨x, X, hX, hu, (hlen ▸ ha).trans hmask⟩
  have hlt : X.len < w := by
    refine Nat.lt_of_le_of_ne hfits.len_le fun hlen => ?_
    by_cases hhead : x = trieHead
    · have hzero := (hfits.root hhead).1
      omega
    · obtain ⟨kid, hkid⟩ := isSome_iff_exists.mp (h.full.middle x X hX hhead hvalue false)
      obtain ⟨K, he⟩ := hfits.down false kid hkid
      have hle := (h.shape.fits he.below).len_le
      have hlt := he.lt
      omega
  rw [hx, bind_eq_bind, bind_some]
  rcases h.shape.insertAt (v := v) h.full hw hX hvalue hlt ha with ⟨i, kid, K, he, hbit, hrun⟩ |
    ⟨i, is, hslot, hleft, hsib, hrun⟩
  · rw [hrun]
    exact h.split hw he hbit ha (hend i kid K he)
  · have hhead : x = trieHead := by
      by_contra hhead
      have hsome := h.full.middle x X hX hhead hvalue i
      rw [hslot] at hsome
      cases hsome
    subst hhead
    rw [hrun]
    exact h.attach hw hX hslot hleft hlt ha hsib is X.mask

end Shma.Trie
