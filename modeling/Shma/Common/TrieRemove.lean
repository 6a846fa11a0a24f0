import Shma.Common.TrieShape

/-!
# Removing from a trie

`remove_node` takes out a leaf and then, through its call on the parent, the middle node above it,
whose other child takes its place. The root is left alone.
-/
namespace Shma

open Lib.PathTrie
open Finset (mem_insert)

namespace Trie

variable {n : Nat} {V : Type} {w p e g s fuel : Nat} {t t' : Trie n V} {k : BitVec n} {v : V} {i j : Bool}
  {P E G S node : TrieNode n V} {nodes nodes' : Nat → Option (TrieNode n V)}

def keep (node : TrieNode n V) (i : Bool) : TrieNode n V :=
  { node with child := fun j => bif j then none else node.child i }

theorem shift_setChild_none (node : TrieNode n V) (i : Bool) : (node.setChild i none).shift = keep node (!i) := by
  unfold TrieNode.shift
  cases i with
  | false =>
    cases hright : node.child true with
    | none =>
      rw [if_neg (by simp [TrieNode.setChild, hright])]
      refine TrieNode.ext rfl rfl rfl rfl (funext fun j => ?_)
      cases j
      · exact hright.symm
      · exact hright
    | some r =>
      rw [if_pos (by simp [TrieNode.setChild, hright])]
      refine TrieNode.ext rfl rfl rfl rfl (funext fun j => ?_)
      cases j <;> rfl
  | true =>
    refine TrieNode.ext rfl rfl rfl rfl (funext fun j => ?_)
    cases j <;> rfl

theorem unlink_eq {id : Nat} (hchild : node.child i = some id) (hother : node.child (!i) ≠ some id) (kid : Option Nat) :
    node.unlink id kid = some (node.setChild i kid) := by
  unfold TrieNode.unlink
  cases i with
  | false => rw [if_pos hchild]
  | true =>
    rw [Bool.not_true] at hother
    rw [if_neg hother, if_pos hchild]

section

variable (h : Shape w nodes)
include h

theorem Shape.unlink_eq (he : Edge nodes p P i e E) (kid : Option Nat) : P.unlink e kid = some (P.setChild i kid) := by
  refine Trie.unlink_eq he.child (fun hother => ?_) kid
  obtain ⟨E', he'⟩ := (h.fits he.above).down _ _ hother
  exact Bool.not_ne_self i (h.edge_unique he' he).2

theorem Shape.parent_isSome_iff (hnode : nodes p = some P) : P.parent.isSome ↔ p ≠ trieHead := by
  constructor
  · rintro hsome rfl
    rw [((h.fits hnode).root rfl).2.2] at hsome
    cases hsome
  · intro hp
    obtain ⟨g, G, i, he⟩ := (h.fits hnode).up hp
    exact isSome_of_eq_some he.parent

omit h in
theorem Shape.removeNode_leaf (h : Shape w t.nodes) (he : Edge t.nodes p P i e E) (hv : E.value = some v) (fuel : Nat) :
    ∃ t1, Modified t t1 p (keep P (!i)) ∧ removeNode (fuel + 1) t e =
      if p = trieHead then some (t1.delete e, some v)
      else (removeNode fuel t1 p).map fun r => (r.1.delete e, some v) := by
  have hchild := ((h.fits he.below).leaf (by rw [hv]; exact nofun)).2
  obtain ⟨t1, ht1, h1⟩ := modify_eq_some he.above fun _ => keep P (!i)
  refine ⟨t1, h1, ?_⟩
  have hagain : ((keep P (!i)).child true).isNone ∧ (keep P (!i)).value.isNone ∧ (keep P (!i)).parent.isSome ↔
      p ≠ trieHead := by
    have hvalue : (keep P (!i)).value = none := show P.value = none from h.value_eq_none he
    rw [hvalue, ← h.parent_isSome_iff he.above]
    exact ⟨fun hall => hall.2.2, fun hp => ⟨rfl, rfl, hp⟩⟩
  rw [removeNode, he.below, bind_eq_bind, bind_some, hchild]
  simp only [hchild, he.parent, he.above, h.unlink_eq he, shift_setChild_none, ht1, hagain, hv, bind_eq_bind,
    bind_some]
  by_cases hp : p = trieHead
  · rw [if_neg (not_not_intro hp), if_pos hp]
    rfl
  · rw [if_pos hp, if_neg hp]
    cases removeNode fuel t1 p <;> rfl

theorem setChild_left (hfull : Full nodes) (he : Edge nodes p P i e E) (kid : Nat) :
    ((P.setChild i (some kid)).child false).isSome := by
  have hi := isSome_of_eq_some he.child
  cases i with
  | false => exact isSome_setChild hi
  | true => exact isSome_setChild (hfull.left he.above (h.value_eq_none he) hi)

omit h in
theorem Shape.removeNode_middle {t1 : Trie n V} (h : Shape w t.nodes) (hfull : Full t.nodes)
    (hg : Edge t.nodes g G i p P) (hs : Edge t.nodes p P j s S) (h1 : Modified t t1 p (keep P j)) (fuel : Nat) :
    ∃ t', removeNode (fuel + 1) t1 p = some (t', none) ∧ t'.nodes g = some (G.setChild i (some s)) ∧
      t'.nodes s = some { S with parent := some g } ∧ t'.nodes p = none ∧
      (∀ y, y ≠ g → y ≠ s → y ≠ p → t'.nodes y = t.nodes y) ∧ t'.fresh = t.fresh ∧
      t'.nodeNum = (t.nodeNum + (2^32 - 1)) % 2^32 := by
  have hgs : g ≠ s := ne_of_len_lt hg.above hs.below (hg.lt.trans hs.lt)
  obtain ⟨t2, ht2, h2⟩ := modify_eq_some ((h1.other s hs.irrefl.symm).trans hs.below) fun node =>
    { node with parent := some g }
  have hg2 : t2.nodes g = some G := (h2.other g hgs).trans ((h1.other g hg.irrefl).trans hg.above)
  obtain ⟨t3, ht3, h3⟩ := modify_eq_some hg2 fun _ => G.setChild i (some s)
  have hshift : (G.setChild i (some s)).shift = G.setChild i (some s) := by
    refine if_neg fun hall => ?_
    have hsome := setChild_left h hfull hg s
    rw [Option.isNone_iff_eq_none.mp hall.2] at hsome
    cases hsome
  have hstop : ¬ (((G.setChild i (some s)).child true).isNone ∧ (G.setChild i (some s)).value.isNone ∧
      (G.setChild i (some s)).parent.isSome) := by
    rintro ⟨hnone, -, hparent⟩
    have hne := (h.parent_isSome_iff hg.above).mp hparent
    have hsome : ((G.setChild i (some s)).child true).isSome :=
      isSome_setChild (hfull.middle g G hg.above hne (h.value_eq_none hg) true)
    rw [Option.isNone_iff_eq_none.mp hnone] at hsome
    cases hsome
  have hother : ∀ y, y ≠ p → (t3.delete p).nodes y = t3.nodes y := fun y hy => update_of_ne hy ..
  refine ⟨t3.delete p, ?_, ?_, ?_, update_self .., fun y hyg hys hyp => ?_, ?_, ?_⟩
  · have hkeep : (keep P j).child true = none ∧ (keep P j).child false = some s ∧ (keep P j).parent = some g ∧
        (keep P j).value = none := ⟨rfl, hs.child, hg.parent, show P.value = none from h.value_eq_none hs⟩
    rw [removeNode, h1.self, bind_eq_bind, bind_some, hkeep.1]
    simp only [hkeep, bind_eq_bind, bind_some, ht2, hg2, h.unlink_eq hg, hshift, ht3, if_neg hstop]
    rfl
  · rw [hother g hg.irrefl, h3.self]
  · rw [hother s hs.irrefl.symm, h3.other s hgs.symm, h2.self]
  · rw [hother y hyp, h3.other y hyg, h2.other y hys, h1.other y hyp]
  · exact h3.fresh.trans (h2.fresh.trans h1.fresh)
  · show (t3.nodeNum + (2^32 - 1)) % 2^32 = _
    rw [h3.nodeNum, h2.nodeNum, h1.nodeNum]

/-! ### What is left -/

theorem Shape.contract (hg : Edge nodes g G i p P) (he : Edge nodes p P j e E)
    (hs : Edge nodes p P (!j) s S) (hleaf : E.value ≠ none) (hg' : nodes' g = some (G.setChild i (some s)))
    (hs' : nodes' s = some { S with parent := some g }) (hp' : nodes' p = none) (he' : nodes' e = none)
    (hframe : ∀ y, y ≠ g → y ≠ s → y ≠ p → y ≠ e → nodes' y = nodes y) :
    Shape w nodes' ∧ ∀ y Y, nodes y = some Y → ¬ (y = p ∨ y = e ∨ y = s) → Stays nodes' y Y := by
  have hlt := hg.lt.trans hs.lt
  have hnew : Edge nodes' g (G.setChild i (some s)) i s { S with parent := some g } :=
    ⟨hg', by rw [setChild_child, if_pos rfl], hs', rfl, hlt, hg.agree.trans (hs.agree.mono hg.lt.le)⟩
  have hfrom : ∀ {j' a A}, Edge nodes s S j' a A → Edge nodes' s { S with parent := some g } j' a A := by
    intro j' a A ha
    have ha' : nodes' a = some A := by
      have hga : g ≠ a := ne_of_len_lt hg.above ha.below (hlt.trans ha.lt)
      have hpa : p ≠ a := ne_of_len_lt hs.above ha.below (hs.lt.trans ha.lt)
      refine (hframe a hga.symm ha.irrefl.symm hpa.symm ?_).trans ha.below
      rintro rfl
      exact hs.irrefl (h.edge_unique he ha).1
    exact { ha with above := hs', below := ha' }
  have hkids : ∀ {j' a A}, Edge nodes p P j' a A → a = e ∨ a = s := by
    intro j' a A ha
    by_cases hj : j' = j
    · subst hj
      exact .inl (mem_unique ha.child he.child)
    · obtain rfl : j' = !j := Bool.eq_not_of_ne hj
      exact .inr (mem_unique ha.child hs.child)
  refine h.reslot (S := fun y => y = p ∨ y = e ∨ y = s) hg.above (h.value_eq_none hg) ?_ ?_ hg' hnew
    (fun a A ha heq => ?_) (fun y hyg hyS => ?_) (fun y Y hy hY => ?_) (fun a ha => ?_) (fun ha haS => ?_)
    fun ha haS haS' => ?_
  · simp [hg.irrefl, ne_of_len_lt hg.above he.below (hg.lt.trans he.lt), ne_of_len_lt hg.above hs.below hlt]
  · simp [(h.ne_head hg).symm, (h.ne_head he).symm, (h.ne_head hs).symm]
  · -- the child that moves up is on the side of the node that goes
    have hside : topBit A.key G.len = topBit P.key G.len := heq.trans (hs.agree _ hg.lt).symm
    exact Bool.not_ne_self i (h.side_eq ha hg hside)
  · simp only [not_or] at hyS
    exact hframe y hyg hyS.2.2 hyS.1 hyS.2.1
  · rcases hy with rfl | rfl | rfl
    · rw [hp'] at hY
      cases hY
    · rw [he'] at hY
      cases hY
    · obtain rfl := mem_unique hs' hY
      exact (h.fits hs.below).same_children hs' ⟨rfl, rfl, rfl⟩ rfl (fun hid => absurd hid (h.ne_head hs))
        (fun j' a A ha => ⟨_, A, hfrom ha, .refl A⟩) fun _ => ⟨g, _, i, _, hnew⟩
  · exact .inl (mem_unique ha hg.child)
  · rcases haS with rfl | rfl | rfl
    · exact .inr (h.edge_unique ha hg)
    · exact .inl (.inl (h.edge_unique ha he).1)
    · exact .inl (.inl (h.edge_unique ha hs).1)
  · rcases haS with rfl | rfl | rfl
    · obtain rfl := mem_unique hs.above ha.above
      rcases hkids ha with rfl | rfl
      · exact absurd (.inr (.inl rfl)) haS'
      · exact absurd (.inr (.inr rfl)) haS'
    · have hvalue := h.value_eq_none ha
      rw [← mem_unique he.below ha.above] at hvalue
      exact absurd hvalue hleaf
    · obtain rfl := mem_unique hs.below ha.above
      exact ⟨_, hfrom ha⟩

theorem Shape.detach (he : Edge nodes trieHead P i e E) (hleaf : E.value ≠ none)
    (hp' : nodes' trieHead = some (keep P (!i))) (he' : nodes' e = none)
    (hframe : ∀ y, y ≠ trieHead → y ≠ e → nodes' y = nodes y) : Shape w nodes' := by
  have hother : ∀ {p P j a A}, Edge nodes p P j a A → a ≠ e → nodes' a = some A := fun ha hae =>
    (hframe _ (h.ne_head ha) hae).trans ha.below
  have hroot : ∀ {j a A}, Edge nodes trieHead P j a A → a ≠ e → Edge nodes' trieHead (keep P (!i)) false a A := by
    intro j a A ha hae
    obtain rfl : j = !i := by
      refine Bool.eq_not_of_ne fun hj => hae ?_
      subst hj
      exact mem_unique ha.child he.child
    exact { ha with above := hp', below := hother ha hae }
  have hstays : ∀ {p Q j a A}, Edge nodes p Q j a A → p ≠ trieHead → Edge nodes' p Q j a A := by
    intro p Q j a A ha hp
    have hpe : p ≠ e := by
      rintro rfl
      rw [mem_unique he.below ha.above] at hleaf
      exact hleaf (h.value_eq_none ha)
    have hae : a ≠ e := by
      rintro rfl
      exact hp (h.edge_unique ha he).1
    exact { ha with above := (hframe p hp hpe).trans ha.above, below := hother ha hae }
  refine ⟨⟨_, hp'⟩, fun {id node} hid => ?_⟩
  by_cases hhead : id = trieHead
  · subst hhead
    obtain rfl := mem_unique hp' hid
    refine (h.fits he.above).kept hp' ⟨rfl, rfl, rfl⟩ (absurd (h.value_eq_none he)) (fun _ => rfl) (fun j a ha => ?_)
      (fun hne => absurd rfl hne) fun a A b B _ hb => nomatch hb.child
    cases j with
    | false =>
      obtain ⟨A, hA⟩ := (h.fits he.above).down (!i) a ha
      refine ⟨_, A, hroot hA ?_⟩
      rintro rfl
      exact Bool.not_ne_self i (h.edge_unique hA he).2
    | true => cases ha
  · have hide : id ≠ e := by
      rintro rfl
      rw [he'] at hid
      cases hid
    have hid0 : nodes id = some node := hframe id hhead hide ▸ hid
    refine (h.fits hid0).same_children hid (.refl node) rfl (fun _ => rfl)
      (fun j a A ha => ⟨node, A, hstays ha hhead, .refl A⟩) fun _ => ?_
    obtain ⟨p, Q, j, hup⟩ := (h.fits hid0).up hhead
    by_cases hp : p = trieHead
    · subst hp
      obtain rfl := mem_unique hup.above he.above
      exact ⟨_, _, _, _, hroot hup hide⟩
    · exact ⟨p, Q, j, node, hstays hup hp⟩

end

/-! ### The whole function -/

/-- Some nodes are gone, and one of them was a leaf. Middle nodes that are left keep their
children. -/
theorem Sound.shrink {N : Finset Nat} (h : Sound w t) (hw : w ≤ n) (hshape : Shape w t'.nodes)
    (he : t.nodes e = some E) (hv : E.value ≠ none) (heN : e ∈ N)
    (hgone : ∀ y ∈ N, y ≠ trieHead ∧ (t.nodes y).isSome ∧ t'.nodes y = none)
    (hvalue : ∀ y ∈ N, ∀ Y, t.nodes y = some Y → y = e ∨ Y.value = none)
    (hold : ∀ y Y, t.nodes y = some Y → y ∉ N → ∃ Y', t'.nodes y = some Y' ∧ Kept Y Y' ∧
      (y ≠ trieHead → ∀ i, (Y.child i).isSome → (Y'.child i).isSome))
    (hnone : ∀ y, t.nodes y = none → t'.nodes y = none)
    (hroot : ∀ R, t'.nodes trieHead = some R → (R.child true).isSome → (R.child false).isSome)
    (hfresh : t'.fresh = t.fresh) (hnum : t'.nodeNum = (t.nodeNum + (2^32 - N.card)) % 2^32) (hcard : N.card ≤ 2) :
    Sound w t' ∧ ∀ q u, Stores w t' q u ↔ Stores w t q u ∧ ¬ Agree topBit w E.key q := by
  have hback : ∀ {y Y'}, t'.nodes y = some Y' → ∃ Y, t.nodes y = some Y ∧ y ∉ N ∧ Kept Y Y' ∧
      (y ≠ trieHead → ∀ i, (Y.child i).isSome → (Y'.child i).isSome) := by
    intro y Y' hY'
    have hyN : y ∉ N := by
      intro hyN
      rw [(hgone y hyN).2.2] at hY'
      cases hY'
    cases hy : t.nodes y with
    | none =>
      rw [hnone y hy] at hY'
      cases hY'
    | some Y =>
      obtain ⟨Y'', hY'', hk, hchild⟩ := hold y Y hy hyN
      obtain rfl := mem_unique hY'' hY'
      exact ⟨Y, rfl, hyN, hk, hchild⟩
  have hcells : ∀ y, (t.nodes y).isSome ↔ y ∈ N ∨ (t'.nodes y).isSome := by
    intro y
    constructor
    · intro hsome
      obtain ⟨Y, hY⟩ := isSome_iff_exists.mp hsome
      refine or_iff_not_imp_left.mpr fun hyN => ?_
      obtain ⟨Y', hY', -⟩ := hold y Y hY hyN
      exact isSome_of_eq_some hY'
    · rintro (hyN | hsome)
      · exact (hgone y hyN).2.1
      · obtain ⟨Y', hY'⟩ := isSome_iff_exists.mp hsome
        obtain ⟨Y, hY, -⟩ := hback hY'
        exact isSome_of_eq_some hY
  have hlt : ∀ {y}, (t'.nodes y).isSome → y < t'.fresh := fun hy => hfresh ▸ h.lt_fresh ((hcells _).mpr (.inr hy))
  refine ⟨⟨hshape, ⟨hroot, fun y Y' hY' hne hvalue' => ?_⟩, hlt, ?_⟩, fun q u => ⟨?_, ?_⟩⟩
  · obtain ⟨Y, hY, -, hk, hchild⟩ := hback hY'
    exact fun i => hchild hne i (h.full.middle y Y hY hne (hk.value ▸ hvalue') i)
  · have hadd : t.nonRoot.card = t'.nonRoot.card + N.card :=
      nonRoot_card_add hlt h.lt_fresh (fun y hy => ⟨(hgone y hy).1, (hgone y hy).2.2⟩) hcells
    rw [hnum, h.nodeNum]
    omega
  · rintro ⟨y, Y', hY', hu, ha⟩
    obtain ⟨Y, hY, hyN, hk, -⟩ := hback hY'
    rw [hk.value] at hu
    rw [hk.key] at ha
    refine ⟨⟨y, Y, hY, hu, ha⟩, fun hae => hyN ?_⟩
    -- a key has one leaf
    obtain ⟨x, -, -, -, -, -, -, hone⟩ := h.shape.walk hw q
    rw [hone y Y hY (by rw [hu]; exact nofun) ha, ← hone e E he hv hae]
    exact heN
  · rintro ⟨⟨y, Y, hY, hu, ha⟩, hne⟩
    have hyN : y ∉ N := by
      intro hyN
      rcases hvalue y hyN Y hY with rfl | hnone
      · obtain rfl := mem_unique he hY
        exact hne ha
      · rw [hnone] at hu
        cases hu
    obtain ⟨Y', hY', hk, -⟩ := hold y Y hY hyN
    exact ⟨y, Y', hY', hk.value.trans hu, hk.key.symm ▸ ha⟩

/-- The outcome of removing a leaf with the value `v`. -/
def Taken (w : Nat) (t : Trie n V) (k : BitVec n) (v : V) (r : Option (Trie n V × Option V)) : Prop :=
  ∃ t', r = some (t', some v) ∧ Sound w t' ∧ ∀ q u, Stores w t' q u ↔ Stores w t q u ∧ ¬ Agree topBit w k q

theorem delete_self (t : Trie n V) (e : Nat) : (t.delete e).nodes e = none := update_self ..

theorem delete_other (t : Trie n V) {y : Nat} (hy : y ≠ e) : (t.delete e).nodes y = t.nodes y :=
  update_of_ne hy ..

theorem Sound.detach (h : Sound w t) (hw : w ≤ n) (he : Edge t.nodes trieHead P j e E) (hv : E.value = some v)
    (fuel : Nat) : Taken w t E.key v (removeNode (fuel + 1) t e) := by
  have hleaf : E.value ≠ none := by
    rw [hv]
    exact nofun
  obtain ⟨t1, h1, hrun⟩ := h.shape.removeNode_leaf he hv fuel
  have hframe : ∀ y, y ≠ trieHead → y ≠ e → (t1.delete e).nodes y = t.nodes y := fun y hy hye =>
    (delete_other t1 hye).trans (h1.other y hy)
  have hp' : (t1.delete e).nodes trieHead = some (keep P (!j)) := (delete_other t1 he.irrefl).trans h1.self
  have hshape := h.shape.detach he hleaf hp' (delete_self t1 e) hframe
  refine ⟨_, hrun, h.shrink (N := {e}) hw hshape he.below hleaf (Finset.mem_singleton_self e) (fun y hy => ?_)
    (fun y hy _ _ => .inl (Finset.mem_singleton.mp hy)) (fun y Y hY hy => ?_) (fun y hy => ?_) (fun R hR hright => ?_)
    h1.fresh ?_ (by simp)⟩
  · obtain rfl := Finset.mem_singleton.mp hy
    exact ⟨h.shape.ne_head he, isSome_of_eq_some he.below, delete_self t1 y⟩
  · by_cases hyh : y = trieHead
    · subst hyh
      obtain rfl := mem_unique he.above hY
      exact ⟨_, hp', ⟨rfl, rfl, rfl⟩, fun hne => absurd rfl hne⟩
    · exact ⟨Y, (hframe y hyh (mt Finset.mem_singleton.mpr hy)).trans hY, .refl Y, fun _ _ => id⟩
  · rw [hframe y ?_ ?_, hy]
    all_goals rintro rfl; simp [he.above, he.below] at hy
  · obtain rfl := mem_unique hp' hR
    cases hright
  · show (t1.nodeNum + (2^32 - 1)) % 2^32 = _
    rw [h1.nodeNum, Finset.card_singleton]

theorem Sound.contract (h : Sound w t) (hw : w ≤ n) (hp : p ≠ trieHead) (he : Edge t.nodes p P j e E)
    (hv : E.value = some v) (fuel : Nat) : Taken w t E.key v (removeNode (fuel + 2) t e) := by
  have hleaf : E.value ≠ none := by
    rw [hv]
    exact nofun
  have hvalue := h.shape.value_eq_none he
  obtain ⟨g, G, i, hg⟩ := (h.shape.fits he.above).up hp
  obtain ⟨s, hs⟩ := isSome_iff_exists.mp (h.full.middle p P he.above hp hvalue (!j))
  obtain ⟨S, hs⟩ := (h.shape.fits he.above).down _ s hs
  obtain ⟨t1, h1, hrun⟩ := h.shape.removeNode_leaf he hv (fuel + 1)
  obtain ⟨t2, hrun', hg2, hs2, hp2, hframe2, hfresh, hnum⟩ := h.shape.removeNode_middle h.full hg hs h1 fuel
  rw [if_neg hp, hrun'] at hrun
  have hse : s ≠ e := by
    rintro rfl
    exact Bool.not_ne_self j (h.shape.edge_unique hs he).2
  have hge : g ≠ e := by
    rintro rfl
    exact hleaf (mem_unique he.below hg.above ▸ h.shape.value_eq_none hg)
  have hg' : (t2.delete e).nodes g = some (G.setChild i (some s)) := (delete_other t2 hge).trans hg2
  have hs' : (t2.delete e).nodes s = some { S with parent := some g } := (delete_other t2 hse).trans hs2
  have hp' : (t2.delete e).nodes p = none := (delete_other t2 he.irrefl).trans hp2
  have hframe : ∀ y, y ≠ g → y ≠ s → y ≠ p → y ≠ e → (t2.delete e).nodes y = t.nodes y := fun y hyg hys hyp hye =>
    (delete_other t2 hye).trans (hframe2 y hyg hys hyp)
  obtain ⟨hshape, hold⟩ := h.shape.contract hg he hs hleaf hg' hs' hp' (delete_self t2 e) hframe
  refine ⟨_, hrun, h.shrink (N := {p, e}) hw hshape he.below hleaf (by simp) (fun y hy => ?_) (fun y hy Y hY => ?_)
    (fun y Y hY hy => ?_) (fun y hy => ?_) (h.full.root_setChild hg hg' fun hne => ?_) hfresh ?_ Finset.card_le_two⟩
  · rcases mem_insert.mp hy with rfl | hy
    · exact ⟨hp, isSome_of_eq_some he.above, hp'⟩
    · obtain rfl := Finset.mem_singleton.mp hy
      exact ⟨h.shape.ne_head he, isSome_of_eq_some he.below, delete_self t2 y⟩
  · rcases mem_insert.mp hy with rfl | hy
    · exact .inr (mem_unique he.above hY ▸ hvalue)
    · exact .inl (Finset.mem_singleton.mp hy)
  · simp only [mem_insert, Finset.mem_singleton, not_or] at hy
    by_cases hys : y = s
    · subst hys
      obtain rfl := mem_unique hs.below hY
      exact ⟨_, hs', ⟨rfl, rfl, rfl⟩, fun _ _ => id⟩
    · obtain ⟨Y', hY', hk, hchild⟩ := hold y Y hY (by simp [hy, hys])
      exact ⟨Y', hY', hk, fun _ => hchild⟩
  · rw [hframe y ?_ ?_ ?_ ?_, hy]
    all_goals rintro rfl; simp [hg.above, hs.below, he.above, he.below] at hy
  · exact hframe _ hne (h.shape.ne_head hs).symm (Ne.symm hp) (h.shape.ne_head he).symm
  · show (t2.nodeNum + (2^32 - 1)) % 2^32 = _
    rw [Finset.card_pair he.irrefl]
    omega

theorem Sound.removeKey (h : Sound w t) (hw : w ≤ n) (k : BitVec n) :
    ∃ t' r, t.removeKey k = some (t', r) ∧ Sound w t' ∧
      ∀ q u, Stores w t' q u ↔ Stores w t q u ∧ ¬ Agree topBit w k q := by
  obtain ⟨x, X, -, hX, hsearch, hk, -, hone⟩ := h.shape.walk hw k
  cases hvalue : X.value with
  | none =>
    refine ⟨t, none, ?_, h, fun q u => ⟨fun hq => ⟨hq, fun ha => ?_⟩, And.left⟩⟩
    · rw [Trie.removeKey, hsearch, hvalue]
      rfl
    · obtain ⟨e, E, hE, hu, ha'⟩ := hq
      have hne : E.value ≠ none := by
        rw [hu]
        exact nofun
      obtain rfl := hone e E hE hne (ha'.trans ha.symm)
      obtain rfl := mem_unique hE hX
      exact hne hvalue
  | some v =>
    have hleaf : X.value ≠ none := by
      rw [hvalue]
      exact nofun
    have hlen := ((h.shape.fits hX).leaf hleaf).1
    obtain ⟨p, P, j, he⟩ := (h.shape.fits hX).up fun hid => hleaf ((h.shape.fits hX).root hid).2.1
    have htaken : Taken w t X.key v (removeNode (n + 2) t x) := by
      by_cases hp : p = trieHead
      · subst hp
        exact h.detach hw he hvalue (n + 1)
      · exact h.contract hw hp he hvalue n
    obtain ⟨t', hrun, hsound, hstores⟩ := htaken
    rw [hlen] at hk
    refine ⟨t', some v, ?_, hsound, fun q u => ?_⟩
    · rw [Trie.removeKey, hsearch, hvalue]
      exact hrun
    · have hsame : Agree topBit w X.key q ↔ Agree topBit w k q := ⟨hk.symm.trans, hk.trans⟩
      rw [hstores, hsame]

end Trie

end Shma
