import GoEntropy.Merkle.StackTrie
import GoEntropy.Merkle.Trie

/-!
# Merkle proofs

The prover and the verifiers of `proof.go`. A proof is a database of encoded nodes by hash. The
verifier of a single key walks down the nodes; the verifier of a range builds a partial trie from the
nodes on the paths of the two edge keys, removes what lies between them, puts the given pairs in and
compares the root hash.

The code links and unsets nodes in place. No node is shared here, so a function that changes a node in
place is one that returns the changed node, and one that removes a node from its parent returns
nothing.
-/

namespace GoEntropy.Merkle

abbrev ProofDb := Hash → Option Bytes

/-- What a verification can end with. `panic` is a panic of the runtime or of the code; the loops that
load proof nodes are bounded here, and `outOfRounds` stands for an exhausted bound. -/
inductive ProofError where
  | missing (i : Nat) (hash : Hash)
  | bad (i : Nat) (err : DecodeError)
  | pathMissing (hash : Hash)
  | pathBad (err : DecodeError)
  | notContained
  | inconsistentData (keys values : Nat)
  | notIncreasing
  | deletion
  | invalidProof (want have_ : Hash)
  | moreEntries
  | invalidKey
  | invalidData
  | invalidEdgeKeys
  | inconsistentEdgeKeys
  | emptyRange
  | panic
  | outOfRounds

/-! ## Proofs of a single key -/

/-- The nodes `Prove` collects on the way along a key, in a node. -/
def pathFrom (onHash : Hash → List Nibble → Except TrieError (List Node)) :
    Node → (key : List Nibble) → Except TrieError (List Node)
  | _, [] => .ok []
  | .nil, _ => .ok []
  | .short k val flags, key =>
    if k <+: key then (pathFrom onHash val (key.drop k.length)).map (.short k val flags :: ·)
    else .ok [.short k val flags]
  | .full cs flags, a :: key => (pathFrom onHash (cs a) key).map (.full cs flags :: ·)
  | .hash h, key => onHash h key
  | .value _, _ => .error .panic

/-- The nodes `Prove` collects on the way along a key. -/
def pathNodes (db : NodeReader) (owner : Hash) :
    (loads : Nat) → Node → (key : List Nibble) → Except TrieError (List Node)
  | 0 => pathFrom fun h ↦ load db owner none h []
  | loads + 1 => pathFrom fun h ↦ load db owner (some fun n _ key ↦ pathNodes db owner loads n key) h []

section Prove

variable (C : Crypto)

/-- One node of a proof: it becomes an element if it is hashed or the root. -/
def putNode (i : Nat) (n : Node) (proofDb : ProofDb) : ProofDb :=
  let enc := (proofHash C n).1.encode
  match (proofHash C n).2.hash? with
  | some h => Function.update proofDb h (some enc)
  | none => if i = 0 then Function.update proofDb (C.keccak256 enc) (some enc) else proofDb

/-- The loop of `Prove` over the nodes, the first one having the given index. -/
def putNodes (fromLevel : Nat) : (i : Nat) → List Node → ProofDb → ProofDb
  | _, [], proofDb => proofDb
  | i, n :: nodes, proofDb =>
    putNodes fromLevel (i + 1) nodes (if i < fromLevel then proofDb else putNode C i n proofDb)

/-- `Prove`. -/
def Trie.prove (t : Trie) (key : Bytes) (fromLevel : Nat) (proofDb : ProofDb) : Except TrieError ProofDb :=
  let k := keybytesToHex key
  (pathNodes t.db t.owner k.length t.root k).map fun nodes ↦ putNodes C fromLevel 0 nodes proofDb

end Prove

/-- `get`. -/
def get (skipResolved : Bool) : Node → (key : List Nibble) → Except ProofError (List Nibble × Node)
  | .short k val _, key =>
    if k <+: key then
      if skipResolved then get skipResolved val (key.drop k.length) else .ok (key.drop k.length, val)
    else .ok ([], .nil)
  | .full _ _, [] => .error .panic
  | .full cs _, a :: key => if skipResolved then get skipResolved (cs a) key else .ok (key, cs a)
  | .hash h, key => .ok (key, .hash h)
  | .nil, key => .ok (key, .nil)
  | .value v, _ => .ok ([], .value v)

/-- The loop of `VerifyProof`, with a bound on the rounds. -/
def verifyProofFrom (proofDb : ProofDb) :
    (rounds i : Nat) → (wantHash : Hash) → (key : List Nibble) → Except ProofError (Option Bytes)
  | 0, _, _, _ => .error .outOfRounds
  | rounds + 1, i, wantHash, key =>
    match proofDb wantHash with
    | none => .error (.missing i wantHash)
    | some buf =>
      match decodeNode (some wantHash) buf with
      | .error err => .error (.bad i err)
      | .ok n =>
        match get true n key with
        | .error err => .error err
        -- the trie doesn't contain the key
        | .ok (_, .nil) => .ok none
        | .ok (keyrest, .hash h) => verifyProofFrom proofDb rounds (i + 1) h keyrest
        | .ok (_, .value v) => .ok (some v)
        | .ok _ => verifyProofFrom proofDb rounds (i + 1) wantHash key

/-- `VerifyProof`. -/
def verifyProof (rounds : Nat) (rootHash : Hash) (key : Bytes) (proofDb : ProofDb) :
    Except ProofError (Option Bytes) :=
  verifyProofFrom proofDb rounds 0 rootHash (keybytesToHex key)

/-! ## Edge paths -/

/-- `resolveNode`. -/
def resolveNode (proofDb : ProofDb) (hash : Hash) : Except ProofError Node :=
  match proofDb hash with
  | none => .error (.pathMissing hash)
  | some buf => (decodeNode (some hash) buf).mapError .pathBad

/-- The loop of `proofToPath` in a node: the node with the nodes on the path linked, and the value at
the end of it. -/
def linkFrom (onHash : Hash → List Nibble → Except ProofError (Node × Option Bytes))
    (allowNonExistent : Bool) : Node → (key : List Nibble) → Except ProofError (Node × Option Bytes)
  | .nil, _ => if allowNonExistent then .ok (.nil, none) else .error .notContained
  | .short k val flags, key =>
    if k <+: key then
      (linkFrom onHash allowNonExistent val (key.drop k.length)).map fun (n, v) ↦ (.short k n flags, v)
    else if allowNonExistent then .ok (.short k val flags, none)
    else .error .notContained
  | .full _ _, [] => .error .panic
  | .full cs flags, a :: key =>
    (linkFrom onHash allowNonExistent (cs a) key).map fun (n, v) ↦
      (.full (Function.update cs a n) flags, v)
  | .hash h, key => onHash h key
  -- the loop goes on at an empty value, which is no parent
  | .value v, _ => if v.length = 0 then .error .panic else .ok (.value v, some v)

/-- The loop of `proofToPath`, with a bound on the nodes that are resolved. -/
def linkPath (proofDb : ProofDb) (allowNonExistent : Bool) :
    (rounds : Nat) → Node → (key : List Nibble) → Except ProofError (Node × Option Bytes)
  | 0 => linkFrom (fun _ _ ↦ .error .outOfRounds) allowNonExistent
  | rounds + 1 => linkFrom (fun h key ↦
      match resolveNode proofDb h with
      | .error err => .error err
      | .ok n => linkPath proofDb allowNonExistent rounds n key) allowNonExistent

/-- `proofToPath`. -/
def proofToPath (rounds : Nat) (rootHash : Hash) (root : Option Node) (key : Bytes) (proofDb : ProofDb)
    (allowNonExistent : Bool) : Except ProofError (Node × Option Bytes) :=
  match root with
  | some root => linkPath proofDb allowNonExistent rounds root (keybytesToHex key)
  | none =>
    match resolveNode proofDb rootHash with
    | .error err => .error err
    | .ok root => linkPath proofDb allowNonExistent rounds root (keybytesToHex key)

/-! ## Unsetting -/

/-- A child that is removed from its parent, which must be a full node. -/
def removeChild (parentFull : Bool) : Except ProofError Node :=
  if parentFull then .ok .nil else .error .panic

/-- `unset`: the child after it. -/
def unset (removeLeft : Bool) : (child : Node) → (parentFull : Bool) → (key : List Nibble) →
    Except ProofError Node
  | .full _ _, _, [] => .error .panic
  | .full cs _, _, a :: key =>
    let clds := fun i ↦
      if removeLeft then if i < a then .nil else cs i
      else if a < i ∧ i < term then .nil else cs i
    (unset removeLeft (cs a) true key).map fun n ↦ .full (Function.update clds a n) .new
  | .short k val flags, parentFull, key =>
    if k <+: key then
      match val with
      | .value _ => removeChild parentFull
      | _ => (unset removeLeft val false (key.drop k.length)).map fun n ↦ .short k n .new
    -- the fork point, it's a non-existent branch
    else if (removeLeft = true ∧ k < key) ∨ (removeLeft = false ∧ key < k) then removeChild parentFull
    else .ok (.short k val flags)
  | .nil, _, _ => .ok .nil
  | .hash _, _, _ => .error .panic
  | .value _, _, _ => .error .panic

/-- The comparison of the children of a full node on the two paths, by identity. Hash nodes and value
nodes are slices, and comparing two of them is a panic. -/
def samePath (cs : Nibble → Node) (l r : Nibble) : Except ProofError Bool :=
  match cs l, cs r with
  | .nil, _ => .ok false
  | _, .nil => .ok false
  | .hash _, .hash _ => .error .panic
  | .value _, .value _ => .error .panic
  | _, _ => .ok (l == r)

/-- `bytes.Compare` on hex keys. -/
def hexCompare (x y : List Nibble) : Ordering := if x < y then .lt else if x = y then .eq else .gt

/-- `unsetInternal` in a node: the node after it, or nothing if it is to be removed. -/
def unsetInternal : Node → (left right : List Nibble) → Except ProofError (Option Node)
  | .short k val _, left, right =>
    let shortForkLeft := hexCompare (left.take k.length) k
    let shortForkRight := hexCompare (right.take k.length) k
    match shortForkLeft, shortForkRight with
    | .eq, .eq =>
      match unsetInternal val (left.drop k.length) (right.drop k.length) with
      | .error err => .error err
      | .ok (some n) => .ok (some (.short k n .new))
      -- the parent of a node that is removed must be a full node
      | .ok none => .error .panic
    | .lt, .lt => .error .emptyRange
    | .gt, .gt => .error .emptyRange
    | .eq, _ =>
      match val with
      | .value _ => .ok none
      | _ => (unset false val false (left.drop k.length)).map fun n ↦ some (.short k n .new)
    | _, .eq =>
      match val with
      | .value _ => .ok none
      | _ => (unset true val false (right.drop k.length)).map fun n ↦ some (.short k n .new)
    | _, _ => .ok none
  | .full cs _, l :: left, r :: right =>
    match samePath cs l r with
    | .error err => .error err
    | .ok true =>
      match unsetInternal (cs l) left right with
      | .error err => .error err
      | .ok (some n) => .ok (some (.full (Function.update cs l n) .new))
      | .ok none => .ok (some (.full (Function.update cs l .nil) .new))
    | .ok false =>
      -- unset all internal nodes in the fork point
      let clds := fun i ↦ if l < i ∧ i < r then .nil else cs i
      match unset false (clds l) true left with
      | .error err => .error err
      | .ok n =>
        let clds := Function.update clds l n
        match unset true (clds r) true right with
        | .error err => .error err
        | .ok n => .ok (some (.full (Function.update clds r n) .new))
  | _, _, _ => .error .panic

/-! ## Range proofs -/

/-- `hasRightElement`. -/
def hasRightElement : Node → (key : List Nibble) → Except ProofError Bool
  | .nil, _ => .ok false
  | .full _ _, [] => .error .panic
  | .full cs _, a :: key =>
    if ∃ i, a < i ∧ i < term ∧ (cs i).isNil = false then .ok true else hasRightElement (cs a) key
  | .short k val _, key =>
    if k <+: key then hasRightElement val (key.drop k.length) else .ok (decide (key < k))
  | .value _, _ => .ok false
  | .hash _, _ => .error .panic

/-- The loop that rebuilds the trie. The error of `TryUpdate` is discarded. -/
def rebuild (tr : Trie) : List (Bytes × Bytes) → Except ProofError Trie
  | [] => .ok tr
  | (key, value) :: pairs =>
    match tr.tryUpdate key value with
    | .ok tr => rebuild tr pairs
    | .error .panic => .error .panic
    | .error _ => rebuild { tr with unhashed := tr.unhashed + 1 } pairs

section Range

variable (C : Crypto) (rounds : Nat) (rootHash : Hash)

/-- `VerifyRangeProof` without an edge proof. -/
def verifyAll (pairs : List (Bytes × Bytes)) : Except ProofError Bool :=
  match (StackTrie.new.tryUpdates C pairs).bind (·.rootHash C) with
  | .error _ => .error .panic
  | .ok hash => if hash ≠ rootHash then .error (.invalidProof rootHash hash) else .ok false

/-- `VerifyRangeProof` without pairs. -/
def verifyNone (firstKey : Bytes) (proof : ProofDb) : Except ProofError Bool :=
  match proofToPath rounds rootHash none firstKey proof true with
  | .error err => .error err
  | .ok (_, some _) => .error .moreEntries
  | .ok (root, none) =>
    match hasRightElement root (keybytesToHex firstKey) with
    | .error err => .error err
    | .ok true => .error .moreEntries
    | .ok false => .ok false

/-- `VerifyRangeProof` with one pair and the two edge keys the same. -/
def verifyOne (firstKey key value : Bytes) (proof : ProofDb) : Except ProofError Bool :=
  match proofToPath rounds rootHash none firstKey proof false with
  | .error err => .error err
  | .ok (root, val) =>
    if firstKey ≠ key then .error .invalidKey
    else if val.getD [] ≠ value then .error .invalidData
    else hasRightElement root (keybytesToHex firstKey)

/-- The partial trie of `VerifyRangeProof`: the two edge paths with what lies between them removed. -/
def edgeTrie (firstKey lastKey : Bytes) (proof : ProofDb) : Except ProofError Trie :=
  match proofToPath rounds rootHash none firstKey proof true with
  | .error err => .error err
  | .ok (root, _) =>
    match proofToPath rounds rootHash (some root) lastKey proof true with
    | .error err => .error err
    | .ok (root, _) =>
      (unsetInternal root (keybytesToHex firstKey) (keybytesToHex lastKey)).map fun n ↦
        Trie.newWithRootNode (n.getD .nil)

/-- `VerifyRangeProof` with two edge paths. -/
def verifyEdges (firstKey lastKey : Bytes) (pairs : List (Bytes × Bytes)) (lastGiven : Bytes)
    (proof : ProofDb) : Except ProofError Bool :=
  match (edgeTrie rounds rootHash firstKey lastKey proof).bind (rebuild · pairs) with
  | .error err => .error err
  | .ok tr =>
    match tr.hash C with
    | .error _ => .error .panic
    | .ok (hash, tr) =>
      if hash ≠ rootHash then .error (.invalidProof rootHash hash)
      else hasRightElement tr.root (keybytesToHex lastGiven)

/-- `VerifyRangeProof`. -/
def verifyRangeProof (firstKey lastKey : Bytes) (keys values : List Bytes) (proof : Option ProofDb) :
    Except ProofError Bool :=
  if keys.length ≠ values.length then .error (.inconsistentData keys.length values.length)
  -- ensure the received batch is monotonic increasing and contains no deletions
  else if ¬ keys.IsChain (· < ·) then .error .notIncreasing
  else if ∃ value ∈ values, value.length = 0 then .error .deletion
  else
    match proof with
    | none => verifyAll C rootHash (keys.zip values)
    | some proof =>
      match keys.getLast? with
      | none => verifyNone rounds rootHash firstKey proof
      | some lastGiven =>
        -- there is only one element and two edge keys are same
        if keys.length = 1 ∧ firstKey = lastKey then
          verifyOne rounds rootHash firstKey (keys.headD []) (values.headD []) proof
        else if ¬ firstKey < lastKey then .error .invalidEdgeKeys
        else if firstKey.length ≠ lastKey.length then .error .inconsistentEdgeKeys
        else verifyEdges C rounds rootHash firstKey lastKey (keys.zip values) lastGiven proof

end Range

end GoEntropy.Merkle
