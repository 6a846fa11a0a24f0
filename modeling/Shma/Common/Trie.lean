import Shma.Common.Const

/-!
# The trie of TLB keys

`common/trie.h`. Nodes are allocated cells that refer to one another by number; `new` hands out a
number that no node has had before. Keys are words of `n` bits, `max_bit_` in the source, which is
at most 64. A null pointer is `none`, and so is a pointer to a value. The functions fail (`none`)
where the source follows a dangling pointer, fails an assertion, or panics; a loop also fails when
its bound runs out.
-/
namespace Shma

@[ext] structure TrieNode (n : Nat) (V : Type) where
  (key mask : BitVec n)
  value : Option V
  parent : Option Nat
  child : Bool → Option Nat

namespace TrieNode

variable {n : Nat} {V : Type}

def new (key mask : BitVec n) (value : Option V) : TrieNode n V where
  key := key
  mask := mask
  value := value
  parent := none
  child := fun _ => none

variable (node : TrieNode n V)

def isMatch (searchKey : BitVec n) : Bool := searchKey &&& node.mask == node.key &&& node.mask

def setChild (i : Bool) (kid : Option Nat) : TrieNode n V :=
  { node with child := update node.child i kid }

/-- A removed child gives way to what was below it; a node that is not a child here is fatal. -/
def unlink (id : Nat) (kid : Option Nat) : Option (TrieNode n V) :=
  if node.child false = some id then some (node.setChild false kid)
  else if node.child true = some id then some (node.setChild true kid)
  else none

def shift : TrieNode n V :=
  if (node.child true).isSome ∧ (node.child false).isNone then
    (node.setChild false (node.child true)).setChild true none
  else node

end TrieNode

structure Trie (n : Nat) (V : Type) where
  nodes : Nat → Option (TrieNode n V)
  (fresh nodeNum : Nat)

namespace Trie

variable {n : Nat} {V : Type}

def trieHead : Nat := 0

def new : Trie n V where
  nodes := update (fun _ => none) trieHead (some (.new 0 0 none))
  fresh := trieHead + 1
  nodeNum := 0

variable (t : Trie n V) (tmp : Nat) (key newMask : BitVec n)

/-- A new node, counted by the `unsigned` `node_num`. -/
def newNode (node : TrieNode n V) : Trie n V where
  nodes := update t.nodes t.fresh (some node)
  fresh := t.fresh + 1
  nodeNum := (t.nodeNum + 1) % 2^32

def modify (id : Nat) (f : TrieNode n V → TrieNode n V) : Option (Trie n V) :=
  (t.nodes id).map fun node => { t with nodes := update t.nodes id (some (f node)) }

def delete (id : Nat) : Trie n V where
  nodes := update t.nodes id none
  fresh := t.fresh
  nodeNum := (t.nodeNum + (2^32 - 1)) % 2^32

def passing (test : TrieNode n V → Bool) (kid : Option Nat) : Option (Option Nat) :=
  match kid with
  | none => some none
  | some kid => (t.nodes kid).map fun node => if test node then some kid else none

def goThrough (kid : Option Nat) : Option (Option Nat) :=
  t.passing (fun node => node.isMatch key && node.mask &&& newMask == node.mask) kid

def extendOneBit (mask : BitVec n) : BitVec n := mask ||| mask >>> 1 ||| 1#n <<< (n - 1)

def searchFrom (t : Trie n V) (key : BitVec n) : Nat → Nat → Option (Option Nat)
  | 0, _ => none
  | fuel + 1, id => do
    let node ← t.nodes id
    if node.value.isSome then return some id
    match ← t.passing (·.isMatch key) (node.child false) with
    | some kid => t.searchFrom key fuel kid
    | none =>
      match ← t.passing (·.isMatch key) (node.child true) with
      | some kid => t.searchFrom key fuel kid
      | none => return none

/-- A path has at most one node for each length of a mask. -/
def search (key : BitVec n) : Option (Option Nat) := t.searchFrom key (n + 2) trieHead

/-- The first loop of `insert_node`. -/
def descend (t : Trie n V) (key newMask : BitVec n) : Nat → Nat → Option Nat
  | 0, _ => none
  | fuel + 1, id => do
    let node ← t.nodes id
    match ← t.goThrough key newMask (node.child false) with
    | some kid => t.descend key newMask fuel kid
    | none =>
      match ← t.goThrough key newMask (node.child true) with
      | some kid => t.descend key newMask fuel kid
      | none => return id

/-- The `do` loop of `insert_node`, which gives the last mask under which the two keys are the
same. -/
def extendMask (key kidKey newMask : BitVec n) : Nat → BitVec n → Option (BitVec n)
  | 0, _ => none
  | fuel + 1, lastMask =>
    let curMask := extendOneBit lastMask
    if lastMask = newMask ∨ key &&& curMask ≠ kidKey &&& curMask then some lastMask
    else extendMask key kidKey newMask fuel curMask

/-- A middle node above a child of `tmp`, with the inserted node as its right child unless it is
itself the inserted one. -/
def splitChild (i : Bool) (kid : Nat) (key curMask newMask : BitVec n) (value : Option V) :
    Option (Trie n V × Option Nat) := do
  let mid := t.fresh
  let t := t.newNode { TrieNode.new key curMask none with
    parent := some tmp, child := update (fun _ => none) false (some kid) }
  let t ← t.modify kid fun node => { node with parent := some mid }
  let t ← t.modify tmp fun node => node.setChild i (some mid)
  if curMask = newMask then
    let t ← t.modify mid fun node => { node with value := value }
    return (t, some mid)
  let newId := t.fresh
  let t := t.newNode { TrieNode.new key newMask value with parent := some mid }
  let t ← t.modify mid fun node => node.setChild true (some newId)
  return (t, some newId)

/-- The loop over the children of `tmp`; the mask is carried from one to the next. -/
def insertBelow (t : Trie n V) (tmp : Nat) (key newMask : BitVec n) (value : Option V) :
    List Bool → BitVec n → Option (Trie n V × Option Nat)
  | [], _ => some (t, none)
  | i :: is, curMask => do
    let node ← t.nodes tmp
    match node.child i with
    | none =>
      let newId := t.fresh
      let t := t.newNode { TrieNode.new key newMask value with parent := some tmp }
      let t ← t.modify tmp fun node => node.setChild i (some newId)
      return (t, some newId)
    | some kid =>
      let kidNode ← t.nodes kid
      let curMask ← extendMask key kidNode.key newMask (n + 1) curMask
      if curMask = node.mask then t.insertBelow tmp key newMask value is curMask
      else t.splitChild tmp i kid key curMask newMask value

def widthMask (n width : Nat) : BitVec n :=
  if width < n then BitVec.allOnes n <<< (n - width) else BitVec.allOnes n

def insertAt (value : Option V) :
    Option (Trie n V × Option Nat) := do
  let node ← t.nodes tmp
  if node.mask = newMask then
    assertThat (node.value = none)
    let t ← t.modify tmp fun node => { node with value := value }
    return (t, some tmp)
  t.insertBelow tmp key newMask value [false, true] node.mask

def insertNode (key : BitVec n) (width : Nat) (value : Option V) :
    Option (Trie n V × Option Nat) := do
  let newMask := widthMask n width
  let key := key &&& newMask
  let tmp ← t.descend key newMask (n + 2) trieHead
  t.insertAt tmp key newMask value

def removeNode : Nat → Trie n V → Nat → Option (Trie n V × Option V)
  | 0, _, _ => none
  | fuel + 1, t, id => do
    let node ← t.nodes id
    if (node.child true).isSome then
      assertThat (node.value.isSome)
      let t ← t.modify id fun node => { node with value := none }
      return (t, node.value)
    let parent ← node.parent
    let t ← match node.child false with
      | none => some t
      | some kid => t.modify kid fun kidNode => { kidNode with parent := some parent }
    let up ← t.nodes parent
    let up ← up.unlink id (node.child false)
    let up := up.shift
    let t ← t.modify parent fun _ => up
    let t ← if (up.child true).isNone ∧ up.value.isNone ∧ up.parent.isSome then
        (removeNode fuel t parent).map Prod.fst
      else some t
    return (t.delete id, node.value)

def removeKey (key : BitVec n) : Option (Trie n V × Option V) := do
  match ← t.search key with
  | some id => removeNode (n + 2) t id
  | none => return (t, none)

end Trie

end Shma
