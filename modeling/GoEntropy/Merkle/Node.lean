import GoEntropy.Rlp.Raw
import GoEntropy.Merkle.Encoding

/-!
# Trie nodes

The nodes of a trie in memory, their RLP form, and the hasher between the two.

A node that is hashed is first *collapsed*: its key is written in compact form and every child is
replaced by its hash, or by its own collapsed form if that has less than 32 bytes. The code uses the
types of nodes for both; here a collapsed node is of a type of its own, since its keys are byte
strings and no longer digits.
-/

namespace GoEntropy.Merkle

/-- `emptyRoot`, the known root hash of an empty trie. -/
def emptyRoot : Hash := 0x56e81f171bcc55a6ff8345e692c0f86e5b48e01b996cadc001622fb5e363b421

/-- `nodeFlag`. -/
structure NodeFlag where
  hash : Option Hash
  dirty : Bool
  deriving DecidableEq

/-- `nodeFlag{dirty: true}`. -/
def NodeFlag.new : NodeFlag := ⟨none, true⟩

/-- `node`, with the nil interface. -/
inductive Node where
  | nil
  | short (key : List Nibble) (val : Node) (flags : NodeFlag)
  | full (children : Nibble → Node) (flags : NodeFlag)
  | hash (h : Hash)
  | value (v : Bytes)

/-- A collapsed node; `raw` is a `rawNode`, which holds an encoding. -/
inductive Collapsed where
  | nil
  | short (key : Bytes) (val : Collapsed)
  | full (children : Nibble → Collapsed)
  | hash (h : Hash)
  | value (v : Bytes)
  | raw (b : Bytes)

/-- `rlp.EmptyString`. -/
def emptyString : Bytes := [0x80]

/-- `encode` of `node_enc.go`. -/
def Collapsed.encode : Collapsed → Bytes
  | nil => emptyString
  | short key val => Rlp.list [Rlp.bytes key, val.encode]
  | full children => Rlp.list (List.ofFn fun i ↦ (children i).encode)
  | hash h => Rlp.bytes (hashBytes h)
  | value v => Rlp.bytes v
  | raw b => b

/-! ## The hasher -/

section Hasher

variable (C : Crypto)

/-- `shortnodeToHash` and `fullnodeToHash`. -/
def toHash (n : Collapsed) (force : Bool) : Collapsed :=
  if n.encode.length < 32 ∧ force = false then n
  else .hash (C.keccak256 n.encode)

/-- The hash a node was collapsed to, if it was. -/
def Collapsed.hash? : Collapsed → Option Hash
  | hash h => some h
  | _ => none

/-- The child of a full node, hashed. A missing child among the first sixteen is collapsed to
`nilValueNode`. -/
def hashChild (i : Nibble) (child : Node) (hashed : Collapsed × Node) : Collapsed × Node :=
  match child with
  | .nil => (if i = term then .nil else .value [], .nil)
  | _ => hashed

/-- `hasher.hash`: the hashed node and a copy of the node that holds the hash. The goroutines of the
parallel hasher compute the children of a full node, each its own. -/
def Node.hashed (force : Bool) : Node → Collapsed × Node
  | nil => (.nil, nil)
  | value v => (.value v, value v)
  | hash h => (.hash h, hash h)
  | short key val flags =>
    match flags.hash with
    | some h => (.hash h, short key val flags)
    | none =>
      let child := val.hashed false
      let collapsed := toHash C (.short (hexToCompact key) child.1) force
      (collapsed, short key child.2 { flags with hash := collapsed.hash? })
  | full children flags =>
    match flags.hash with
    | some h => (.hash h, full children flags)
    | none =>
      let child := fun i ↦ hashChild i (children i) ((children i).hashed false)
      let collapsed := toHash C (.full fun i ↦ (child i).1) force
      (collapsed, full (fun i ↦ (child i).2) { flags with hash := collapsed.hash? })

/-- `proofHash`: the collapsed node, and its hash unless it is small. -/
def proofHash : Node → Collapsed × Collapsed
  | .short key val _ =>
    let collapsed := Collapsed.short (hexToCompact key) (val.hashed C false).1
    (collapsed, toHash C collapsed false)
  | .full children _ =>
    let collapsed := Collapsed.full fun i ↦ (hashChild i (children i) ((children i).hashed C false)).1
    (collapsed, toHash C collapsed false)
  | .nil => (.nil, .nil)
  | .hash h => (.hash h, .hash h)
  | .value v => (.value v, .value v)

end Hasher

/-! ## Decoding -/

/-- The parts of a node that `decodeError` names. -/
inductive DecodeContext where
  | short
  | full
  | val
  | child (i : Nat)

/-- The causes of decoding errors. The recursion into embedded nodes is bounded by the length of the
input in this model; `outOfFuel` stands for an exhausted bound. -/
inductive DecodeCause where
  | unexpectedEOF
  | decode (err : Rlp.RlpError)
  | elements (count : Nat)
  | rlp (err : Rlp.RlpError)
  | invalidValue (err : Rlp.RlpError)
  | oversized (size : Nat)
  | stringSize (size : Nat)
  | outOfFuel

/-- `decodeError`; an error that was not wrapped has an empty stack. -/
structure DecodeError where
  what : DecodeCause
  stack : List DecodeContext

def DecodeCause.bare (what : DecodeCause) : DecodeError := ⟨what, []⟩

/-- `wrapError`. -/
def wrapError {α : Type} (ctx : DecodeContext) (r : Except DecodeError α) : Except DecodeError α :=
  r.mapError fun err ↦ { err with stack := err.stack ++ [ctx] }

section Decode

open Rlp (RlpError)

/-- `rlp.SplitString`, with the error as the decoder reports it. -/
def splitStringOr (cause : RlpError → DecodeCause) (b : Bytes) : Except DecodeError (Bytes × Bytes) :=
  (Rlp.Raw.splitString b).mapError fun err ↦ (cause err).bare

variable (decodeNode : Option Hash → Bytes → Except DecodeError Node)

/-- `decodeRef`. -/
def decodeRef (buf : Bytes) : Except DecodeError (Node × Bytes) :=
  match Rlp.Raw.split buf with
  | .error err => .error (DecodeCause.rlp err).bare
  | .ok (.list, _, rest) =>
    if 32 < buf.length - rest.length then .error (DecodeCause.oversized (buf.length - rest.length)).bare
    else (decodeNode none buf).map fun n ↦ (n, rest)
  | .ok (.string, val, rest) =>
    if val.length = 0 then .ok (.nil, rest)
    else if val.length = 32 then .ok (.hash (bytesToHash val), rest)
    else .error (DecodeCause.stringSize val.length).bare
  | .ok (.byte, val, _) => .error (DecodeCause.stringSize val.length).bare

/-- `decodeShort`. -/
def decodeShort (hash : Option Hash) (elems : Bytes) : Except DecodeError Node :=
  match splitStringOr .rlp elems with
  | .error err => .error err
  | .ok (kbuf, rest) =>
    let key := compactToHex kbuf
    if hasTerm key then
      match splitStringOr .invalidValue rest with
      | .error err => .error err
      | .ok (val, _) => .ok (.short key (.value val) ⟨hash, false⟩)
    else
      match wrapError .val (decodeRef decodeNode rest) with
      | .error err => .error err
      | .ok (r, _) => .ok (.short key r ⟨hash, false⟩)

/-- The loop of `decodeFull`, from the child with the given index on. -/
def decodeRefs : (count i : Nat) → (elems : Bytes) → Except DecodeError (List Node × Bytes)
  | 0, _, elems => .ok ([], elems)
  | count + 1, i, elems =>
    match wrapError (.child i) (decodeRef decodeNode elems) with
    | .error err => .error err
    | .ok (cld, rest) =>
      match decodeRefs count (i + 1) rest with
      | .error err => .error err
      | .ok (clds, rest) => .ok (cld :: clds, rest)

def fullChildren (clds : List Node) (val : Bytes) (i : Nibble) : Node :=
  if i = term then if val.length = 0 then .nil else .value val
  else clds[i.val]?.getD .nil

/-- `decodeFull`. -/
def decodeFull (hash : Option Hash) (elems : Bytes) : Except DecodeError Node :=
  match decodeRefs decodeNode 16 0 elems with
  | .error err => .error err
  | .ok (clds, elems) =>
    match splitStringOr .rlp elems with
    | .error err => .error err
    | .ok (val, _) => .ok (.full (fullChildren clds val) ⟨hash, false⟩)

end Decode

/-- `decodeNode` with a bound on the nesting. -/
def decodeNodeFrom : (fuel : Nat) → (hash : Option Hash) → (buf : Bytes) → Except DecodeError Node
  | 0, _, _ => .error DecodeCause.outOfFuel.bare
  | fuel + 1, hash, buf =>
    if buf.length = 0 then .error DecodeCause.unexpectedEOF.bare
    else
      match Rlp.Raw.splitList buf with
      | .error err => .error (DecodeCause.decode err).bare
      | .ok (elems, _) =>
        match Rlp.Raw.countValues elems with
        | .ok 2 => wrapError .short (decodeShort (decodeNodeFrom fuel) hash elems)
        | .ok 17 => wrapError .full (decodeFull (decodeNodeFrom fuel) hash elems)
        | .ok c => .error (DecodeCause.elements c).bare
        | .error _ => .error (DecodeCause.elements 0).bare

/-- `decodeNode`. An embedded node is shorter than the list it stands in. -/
def decodeNode (hash : Option Hash) (buf : Bytes) : Except DecodeError Node :=
  decodeNodeFrom (buf.length + 1) hash buf

end GoEntropy.Merkle
