import GoEntropy.Merkle.Node

/-!
# Reading and writing a trie

The operations of `Trie`. They walk down a key, and where the walk meets a hash node they load the
node from the database and go on with it.

A walk inside a node recurses on the node. What it does at a hash node is a parameter of that
recursion, `onHash`, which loads the node and starts a walk in it. The number of loads is bounded
here; a load takes the walk to a node that reads at least one digit, so a walk along a key of a trie
needs no more loads than the key has digits.
-/

namespace GoEntropy.Merkle

open GoEntropy.Container.Patricia (prefixLen)

/-- `TrieDatabase.node`. -/
abbrev NodeReader := Hash → Option Node

/-- What an operation on a trie can end with. `panic` is a panic of the runtime or of the code, and
`outOfLoads` stands for an exhausted bound on loads. -/
inductive TrieError where
  | missingNode (owner nodeHash : Hash) (path : List Nibble)
  | panic
  | outOfLoads

/-- `Trie`. -/
structure Trie where
  db : NodeReader
  owner : Hash
  root : Node
  unhashed : Nat

section Walks

/-- A walk that goes on with a node it loads: `walk` is what it does with the node, from the path and
the rest of the key on. -/
def load {α : Type} (db : NodeReader) (owner : Hash)
    (walk : Option (Node → List Nibble → List Nibble → Except TrieError α))
    (h : Hash) (path key : List Nibble) : Except TrieError α :=
  match db h with
  | none => .error (.missingNode owner h path)
  | some n =>
    match walk with
    | none => .error .outOfLoads
    | some walk => walk n path key

/-! ## Reading -/

/-- `tryGet` in a node: the value, the node with what was loaded, and whether something was. -/
def tryGetFrom (onHash : Hash → List Nibble → List Nibble → Except TrieError (Option Bytes × Node × Bool)) :
    Node → (path key : List Nibble) → Except TrieError (Option Bytes × Node × Bool)
  | .nil, _, _ => .ok (none, .nil, false)
  | .value v, _, _ => .ok (some v, .value v, false)
  | .short k val flags, path, key =>
    if k <+: key then
      match tryGetFrom onHash val (path ++ k) (key.drop k.length) with
      | .error err => .error err
      | .ok (value, newnode, didResolve) =>
        .ok (value, .short k (if didResolve then newnode else val) flags, didResolve)
    else .ok (none, .short k val flags, false)
  | .full _ _, _, [] => .error .panic
  | .full cs flags, path, a :: key =>
    match tryGetFrom onHash (cs a) (path ++ [a]) key with
    | .error err => .error err
    | .ok (value, newnode, didResolve) =>
      .ok (value, .full (if didResolve then Function.update cs a newnode else cs) flags, didResolve)
  | .hash h, path, key => onHash h path key

/-- The result of reading on in a node that was loaded. -/
def resolvedGet (r : Except TrieError (Option Bytes × Node × Bool)) :
    Except TrieError (Option Bytes × Node × Bool) :=
  r.map fun (value, newnode, _) ↦ (value, newnode, true)

/-- `tryGet`. -/
def tryGet (db : NodeReader) (owner : Hash) :
    (loads : Nat) → Node → (path key : List Nibble) → Except TrieError (Option Bytes × Node × Bool)
  | 0 => tryGetFrom (load db owner none)
  | loads + 1 => tryGetFrom (load db owner (some fun n path key ↦
      resolvedGet (tryGet db owner loads n path key)))

/-! ## Insertion -/

/-- `insert` into nothing. -/
def insertNil (key : List Nibble) (value : Node) : Node :=
  if key = [] then value else .short key value .new

/-- `insert` at the end of the key. -/
def insertHere (n value : Node) : Except TrieError (Bool × Node) :=
  match n, value with
  | .value v, .value w => .ok (v != w, value)
  | .value _, _ => .error .panic
  | _, _ => .ok (true, value)

/-- The full node at which two keys part. -/
def branchOut (a : Nibble) (n : Node) (b : Nibble) (m : Node) : Node :=
  .full (Function.update (Function.update (fun _ ↦ .nil) a n) b m) .new

/-- `insert` in a node: whether it changed, and the node. -/
def insertFrom (onHash : Hash → List Nibble → List Nibble → Except TrieError (Bool × Node))
    (value : Node) : Node → (path key : List Nibble) → Except TrieError (Bool × Node)
  | n, _, [] => insertHere n value
  | .short k val flags, path, key =>
    let matchlen := prefixLen key k
    if matchlen = k.length then
      match insertFrom onHash value val (path ++ key.take matchlen) (key.drop matchlen) with
      | .error err => .error err
      | .ok (false, _) => .ok (false, .short k val flags)
      | .ok (true, nn) => .ok (true, .short k nn .new)
    else
      -- branch out at the index where they differ
      match k.drop matchlen, key.drop matchlen with
      | a :: k', b :: key' =>
        let branch := branchOut a (insertNil k' val) b (insertNil key' value)
        .ok (true, if matchlen = 0 then branch else .short (key.take matchlen) branch .new)
      | _, _ => .error .panic
  | .full cs flags, path, a :: key =>
    match insertFrom onHash value (cs a) (path ++ [a]) key with
    | .error err => .error err
    | .ok (false, _) => .ok (false, .full cs flags)
    | .ok (true, nn) => .ok (true, .full (Function.update cs a nn) .new)
  | .nil, _, key => .ok (true, .short key value .new)
  | .hash h, path, key => onHash h path key
  | .value _, _, _ => .error .panic

/-- The result of a change in a node that was loaded. -/
def resolvedChange (rn : Node) (r : Except TrieError (Bool × Node)) : Except TrieError (Bool × Node) :=
  r.map fun (dirty, nn) ↦ if dirty then (true, nn) else (false, rn)

/-- `insert`. -/
def insert (db : NodeReader) (owner : Hash) (value : Node) :
    (loads : Nat) → Node → (path key : List Nibble) → Except TrieError (Bool × Node)
  | 0 => insertFrom (load db owner none) value
  | loads + 1 => insertFrom (load db owner (some fun rn path key ↦
      resolvedChange rn (insert db owner value loads rn path key))) value

/-! ## Deletion -/

def Node.isNil : Node → Bool
  | .nil => true
  | _ => false

/-- The index of the child of a full node that has one child only. -/
def onlyChild (cs : Nibble → Node) : Option Nibble :=
  match (List.finRange 17).filter fun i ↦ !(cs i).isNil with
  | [pos] => some pos
  | _ => none

/-- A full node with one child left, as a short node. -/
def reduceFull (resolve : Node → List Nibble → Except TrieError Node) (cs : Nibble → Node)
    (path : List Nibble) (pos : Nibble) : Except TrieError (Bool × Node) :=
  if pos = term then .ok (true, .short [pos] (cs pos) .new)
  else
    match resolve (cs pos) path with
    | .error err => .error err
    | .ok (.short k val _) => .ok (true, .short (pos :: k) val .new)
    | .ok _ => .ok (true, .short [pos] (cs pos) .new)

/-- A short node whose child was changed by a deletion. -/
def mergeShort (k : List Nibble) (child : Node) : Node :=
  match child with
  | .short k' val _ => .short (k ++ k') val .new
  | _ => .short k child .new

/-- `delete` in a node. -/
def deleteFrom (onHash : Hash → List Nibble → List Nibble → Except TrieError (Bool × Node))
    (resolve : Node → List Nibble → Except TrieError Node) :
    Node → (path key : List Nibble) → Except TrieError (Bool × Node)
  | .short k val flags, path, key =>
    let matchlen := prefixLen key k
    if matchlen < k.length then .ok (false, .short k val flags)
    else if matchlen = key.length then .ok (true, .nil)
    else
      match deleteFrom onHash resolve val (path ++ key.take k.length) (key.drop k.length) with
      | .error err => .error err
      | .ok (false, _) => .ok (false, .short k val flags)
      | .ok (true, child) => .ok (true, mergeShort k child)
  | .full _ _, _, [] => .error .panic
  | .full cs flags, path, a :: key =>
    match deleteFrom onHash resolve (cs a) (path ++ [a]) key with
    | .error err => .error err
    | .ok (false, _) => .ok (false, .full cs flags)
    | .ok (true, nn) =>
      if nn.isNil then
        -- reduce the full node to a short node if only one entry is left
        match onlyChild (Function.update cs a nn) with
        | some pos => reduceFull resolve (Function.update cs a nn) path pos
        | none => .ok (true, .full (Function.update cs a nn) .new)
      else .ok (true, .full (Function.update cs a nn) .new)
  | .value _, _, _ => .ok (true, .nil)
  | .nil, _, _ => .ok (false, .nil)
  | .hash h, path, key => onHash h path key

/-- `resolve`. -/
def resolve (db : NodeReader) (owner : Hash) (n : Node) (path : List Nibble) : Except TrieError Node :=
  match n with
  | .hash h =>
    match db h with
    | none => .error (.missingNode owner h path)
    | some n => .ok n
  | n => .ok n

/-- `delete`. -/
def delete (db : NodeReader) (owner : Hash) :
    (loads : Nat) → Node → (path key : List Nibble) → Except TrieError (Bool × Node)
  | 0 => deleteFrom (load db owner none) (resolve db owner)
  | loads + 1 => deleteFrom (load db owner (some fun rn path key ↦
      resolvedChange rn (delete db owner loads rn path key))) (resolve db owner)

end Walks

/-! ## The interface -/

namespace Trie

/-- `NewEmpty`. -/
def newEmpty (db : NodeReader) : Trie := ⟨db, 0, .nil, 0⟩

/-- `newWithRootNode`, with an empty database. -/
def newWithRootNode (root : Node) : Trie := ⟨fun _ ↦ none, 0, root, 0⟩

/-- `TryGet`. -/
def tryGet (t : Trie) (key : Bytes) : Except TrieError (Option Bytes × Trie) :=
  let k := keybytesToHex key
  (Merkle.tryGet t.db t.owner k.length t.root [] k).map fun (value, newroot, didResolve) ↦
    (value, if didResolve then { t with root := newroot } else t)

/-- `TryDelete`. -/
def tryDelete (t : Trie) (key : Bytes) : Except TrieError Trie :=
  let k := keybytesToHex key
  (delete t.db t.owner k.length t.root [] k).map fun (_, n) ↦
    { t with root := n, unhashed := t.unhashed + 1 }

/-- `TryUpdate`. -/
def tryUpdate (t : Trie) (key value : Bytes) : Except TrieError Trie :=
  let k := keybytesToHex key
  if value.length ≠ 0 then
    (insert t.db t.owner (.value value) k.length t.root [] k).map fun (_, n) ↦
      { t with root := n, unhashed := t.unhashed + 1 }
  else t.tryDelete key

/-- `Hash`. -/
def hash (C : Crypto) (t : Trie) : Except TrieError (Hash × Trie) :=
  match t.root with
  | .nil => .ok (emptyRoot, t)
  | root =>
    match root.hashed C true with
    | (.hash h, cached) => .ok (h, { t with root := cached, unhashed := 0 })
    | _ => .error .panic

end Trie

end GoEntropy.Merkle
