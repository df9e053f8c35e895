import GoEntropy.Merkle.Node

/-!
# Stack tries

`StackTrie` builds the root hash of a trie from keys in increasing order. A subtree is hashed as soon
as a later sibling arrives: its node is replaced by its hash, or by its encoding if that is short,
and nothing can be inserted into it any more.

The node types of the code are the constructors here, each with the fields that it uses. `nil` stands
for a nil pointer, which is what the missing children of a branch are.
-/

namespace GoEntropy.Merkle

/-- `StackTrie`, by its `nodeType`. -/
inductive StackTrie where
  | nil
  | empty
  | branch (children : Nibble → StackTrie)
  | ext (key : List Nibble) (child : StackTrie)
  | leaf (key : List Nibble) (val : Bytes)
  | hashed (val : Bytes)

namespace StackTrie

/-- The panics of a stack trie, and those of the runtime. -/
inductive Panic where
  | deletionNotSupported
  | insertIntoExistingKey
  | insertIntoHash
  | runtime
  deriving DecidableEq

def isNil : StackTrie → Bool
  | nil => true
  | _ => false

/-! ## Hashing -/

section Hash

variable (C : Crypto)

/-- The key of a node, compacted in place. -/
def compactKey (key : List Nibble) : Bytes :=
  let (buf, sz) := hexToCompactInPlace (key.map fun x ↦ UInt8.ofNat x.val)
  buf.take sz

/-- What a child that was hashed is in its parent: a `rawNode` or a `hashNode`. -/
def childRef (val : Bytes) : Collapsed :=
  if val.length < 32 then .raw val else .hash (bytesToHash val)

/-- The end of `hashRec`: the value of a node with the given encoding. -/
def hashedVal (encodedNode : Bytes) : Bytes :=
  if encodedNode.length < 32 then encodedNode else hashBytes (C.keccak256 encodedNode)

/-- The children of a branch as they are encoded: `nilValueNode` for the missing ones among the first
sixteen, and nothing for the last. -/
def branchRef (i : Nibble) (child : StackTrie) (val : Option Bytes) : Collapsed :=
  if i = term then .nil else if child.isNil then .value [] else childRef (val.getD [])

/-- `hashRec`: the value of the node once it is hashed. There is none for a nil pointer. -/
def hashRec : StackTrie → Option Bytes
  | hashed val => some val
  | empty => some (hashBytes emptyRoot)
  | branch children =>
    let vals := fun i ↦ (children i).hashRec
    if ∀ i, (children i).isNil = true ∨ (vals i).isSome = true then
      some (hashedVal C (Collapsed.full fun i ↦ branchRef i (children i) (vals i)).encode)
    else none
  | ext key child =>
    child.hashRec.map fun val ↦
      hashedVal C (Collapsed.short (compactKey key) (childRef val)).encode
  | leaf key val => some (hashedVal C (Collapsed.short (compactKey (key ++ [term])) (.value val)).encode)
  | nil => none

/-- `hash`: the node turned into a hashed one. -/
def hash (st : StackTrie) : Except Panic StackTrie :=
  match st.hashRec C with
  | some val => .ok (hashed val)
  | none => .error .runtime

/-! ## Insertion -/

/-- `getDiffIndex`; the index runs out of range if the key is shorter than the one of the node. -/
def getDiffIndex : (stKey key : List Nibble) → Except Panic Nat
  | [], _ => .ok 0
  | _ :: _, [] => .error .runtime
  | x :: stKey, y :: key => if x ≠ y then .ok 0 else (getDiffIndex stKey key).map (· + 1)

/-- The elder sibling that is unresolved when a child is inserted. -/
def elder (children : Nibble → StackTrie) (idx : Nibble) : Option Nibble :=
  ((List.finRange 17).filter fun i ↦ decide (i < idx) && !(children i).isNil).getLast?

/-- The children of a branch with the elder sibling hashed. -/
def unresolve (children : Nibble → StackTrie) (idx : Nibble) : Except Panic (Nibble → StackTrie) :=
  match elder children idx with
  | none => .ok children
  | some i => ((children i).hash C).map fun st ↦ Function.update children i st

/-- A branch with two children below the common part of their keys. -/
def split (common : List Nibble) (origIdx : Nibble) (n : StackTrie) (newIdx : Nibble) (o : StackTrie) :
    StackTrie :=
  let p := branch (Function.update (Function.update (fun _ ↦ nil) origIdx n) newIdx o)
  if common = [] then p else ext common p

/-- The part of an extension below the index where a key parts from it. -/
def original (key : List Nibble) (child : StackTrie) (diffidx : Nat) : StackTrie :=
  if diffidx + 1 < key.length then ext (key.drop (diffidx + 1)) child else child

/-- `insert`. -/
def insert (value : Bytes) : StackTrie → (key : List Nibble) → Except Panic StackTrie
  | branch _, [] => .error .runtime
  | branch children, idx :: key =>
    if idx = term then .error .runtime
    else
      match unresolve C children idx with
      | .error err => .error err
      | .ok cs =>
        -- the elder siblings are other nodes than the one that is inserted into
        if (children idx).isNil then .ok (branch (Function.update cs idx (leaf key value)))
        else ((children idx).insert value key).map fun st ↦ branch (Function.update cs idx st)
  | ext stKey child, key =>
    match getDiffIndex stKey key with
    | .error err => .error err
    | .ok diffidx =>
      if diffidx = stKey.length then (child.insert value (key.drop diffidx)).map (ext stKey)
      else
        match (original stKey child diffidx).hash C, stKey.drop diffidx, key.drop diffidx with
        | .ok n, origIdx :: _, newIdx :: rest =>
          .ok (split (stKey.take diffidx) origIdx n newIdx (leaf rest value))
        | .error err, _, _ => .error err
        | _, _, _ => .error .runtime
  | leaf stKey val, key =>
    match getDiffIndex stKey key with
    | .error err => .error err
    | .ok diffidx =>
      if stKey.length ≤ diffidx then .error .insertIntoExistingKey
      else
        match stKey.drop diffidx, key.drop diffidx with
        | origIdx :: origRest, newIdx :: rest =>
          ((leaf origRest val).hash C).map fun n ↦
            split (stKey.take diffidx) origIdx n newIdx (leaf rest value)
        | _, _ => .error .runtime
  | empty, key => .ok (leaf key value)
  | hashed _, _ => .error .insertIntoHash
  | nil, _ => .error .runtime

end Hash

/-! ## The interface -/

section Interface

variable (C : Crypto)

/-- `NewStackTrie` without a database to commit to. -/
def new : StackTrie := empty

/-- `TryUpdate`. -/
def tryUpdate (st : StackTrie) (key value : Bytes) : Except Panic StackTrie :=
  if value.length = 0 then .error .deletionNotSupported
  else st.insert C value (keybytesToHex key).dropLast

def tryUpdates (st : StackTrie) : List (Bytes × Bytes) → Except Panic StackTrie
  | [] => .ok st
  | (key, value) :: pairs =>
    match st.tryUpdate C key value with
    | .error err => .error err
    | .ok st => st.tryUpdates pairs

/-- `Hash`. -/
def rootHash (st : StackTrie) : Except Panic Hash :=
  match st.hashRec C with
  | none => .error .runtime
  | some val => if val.length = 32 then .ok (bytesToHash val) else .ok (C.keccak256 val)

end Interface

end StackTrie

end GoEntropy.Merkle
