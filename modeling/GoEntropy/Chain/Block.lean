import GoEntropy.Model.Message
import GoEntropy.State.StateDB

/-!
# Headers, receipts and blocks

A block carries three commitments to what its transactions did: the root of the list of receipts, the
bloom filter of their logs, and the gas they used. The fourth one, the state root, comes from the
state itself.

The root of a list is computed with a hasher that is fed the elements under their encoded indices. The
hasher is a parameter, of which only the answer for an empty list is fixed.
-/

namespace GoEntropy.Chain

open State

/-! ## Bloom filters -/

/-- `Bloom`: the 2048 bits of a filter. -/
abbrev Bloom := BitVec 2048

/-- `Bloom.Bytes`. -/
def bloomBytes (b : Bloom) : Bytes := beBytes 256 b.toNat

/-- Evaluating the bytes of an empty filter is quadratic in their number, these are not. -/
theorem bloomBytes_zero : bloomBytes 0 = .replicate 256 0 := by
  rw [bloomBytes, BitVec.ofNat_eq_ofNat, BitVec.toNat_zero, beBytes_zero]

/-- The bits `bloomValues` sets: the low eleven bits of the first three byte pairs of the hash. -/
def bloomValues (C : Crypto) (d : Bytes) : List Nat :=
  let hashbuf := hashBytes (C.keccak256 d)
  [0, 2, 4].map fun i ↦ setBytes ((hashbuf.drop i).take 2) &&& 0x7ff

/-- `Bloom.add`. -/
def bloomAdd (C : Crypto) (b : Bloom) (d : Bytes) : Bloom :=
  (bloomValues C d).foldl (fun b i ↦ b ||| (1 <<< i)) b

/-- The two inner loops of `CreateBloom`, over the logs of one receipt. -/
def bloomAddLogs (C : Crypto) (b : Bloom) (logs : List StateLog) : Bloom :=
  logs.foldl (fun b l ↦
    l.log.topics.foldl (fun b t ↦ bloomAdd C b (hashBytes t)) (bloomAdd C b (addressBytes l.log.address)))
    b

/-! ## Headers -/

/-- `Header`. -/
structure Header where
  parentHash : Hash
  uncleHash : Hash
  coinbase : Address
  root : Hash
  txHash : Hash
  receiptHash : Hash
  bloom : Bloom
  difficulty : Nat
  number : Nat
  gasLimit : UInt64
  gasUsed : UInt64
  time : UInt64
  extra : Bytes
  mixDigest : Hash
  nonce : BitVec 64
  baseFee : Option Nat
  deriving Repr, DecidableEq

namespace Header

/-- The encoding of a header, where a missing base fee is left out. -/
def encode (h : Header) : Bytes :=
  Rlp.list ([Rlp.bytes (hashBytes h.parentHash), Rlp.bytes (hashBytes h.uncleHash),
    Rlp.bytes (addressBytes h.coinbase), Rlp.bytes (hashBytes h.root), Rlp.bytes (hashBytes h.txHash),
    Rlp.bytes (hashBytes h.receiptHash), Rlp.bytes (bloomBytes h.bloom), Rlp.uint h.difficulty,
    Rlp.uint h.number, Rlp.uint h.gasLimit.toNat, Rlp.uint h.gasUsed.toNat, Rlp.uint h.time.toNat,
    Rlp.bytes h.extra, Rlp.bytes (hashBytes h.mixDigest), Rlp.bytes (beBytes 8 h.nonce.toNat)] ++
    h.baseFee.toList.map Rlp.uint)

/-- `Header.Hash`. -/
def hash (C : Crypto) (h : Header) : Hash := C.keccak256 h.encode

end Header

/-- `EmptyRootHash`. -/
def emptyRootHash : Hash := 0x56e81f171bcc55a6ff8345e692c0f86e5b48e01b996cadc001622fb5e363b421

/-- `EmptyUncleHash`. -/
def emptyUncleHash (C : Crypto) : Hash := C.rlpHash []

/-- `CalcUncleHash`. -/
def calcUncleHash (C : Crypto) (uncles : List Header) : Hash := C.rlpHash (uncles.map Header.encode)

/-! ## Receipts -/

/-- The values of `Receipt.Status`. -/
inductive ReceiptStatus where
  | failed
  | successful
  deriving Repr, DecidableEq

/-- `Receipt`. -/
structure Receipt where
  txType : TxType
  postState : Hash
  status : ReceiptStatus
  cumulativeGasUsed : UInt64
  bloom : Bloom
  logs : List StateLog
  txHash : Hash
  contractAddress : Address
  gasUsed : Nat
  blockHash : Hash
  blockNumber : Nat
  transactionIndex : Nat
  deriving DecidableEq

/-- `CreateBloom`. -/
def createBloom (C : Crypto) (receipts : List Receipt) : Bloom :=
  receipts.foldl (fun b r ↦ bloomAddLogs C b r.logs) 0

/-- `Log.EncodeRLP`. -/
def encodeLog (l : StateLog) : Bytes :=
  Rlp.list [Rlp.bytes (addressBytes l.log.address),
    Rlp.list (l.log.topics.map fun t ↦ Rlp.bytes (hashBytes t)), Rlp.bytes l.log.data]

/-- `Receipts.EncodeIndex`. A receipt with a state root is encoded with it in place of its status, and
every receipt made by the state processor has one. -/
def Receipt.encode (r : Receipt) : Bytes :=
  let data := Rlp.list [Rlp.bytes (hashBytes r.postState), Rlp.uint r.cumulativeGasUsed.toNat,
    Rlp.bytes (bloomBytes r.bloom), Rlp.list (r.logs.map encodeLog)]
  match r.txType with
  | .legacy => data
  | ty => ty.toByte :: data

/-- `Transactions.EncodeIndex`. -/
def encodeTx {C : Crypto} (tx : Transaction C) : Bytes :=
  match tx.inner.txType with
  | .legacy => tx.inner.encode
  | ty => ty.toByte :: tx.inner.encode

/-! ## Roots of lists -/

/-- `TrieHasher`, by its states. The hasher used throughout answers `EmptyRootHash` when nothing was
added to it. -/
structure TrieHasher (σ : Type) where
  reset : σ
  update : σ → Bytes → Bytes → σ
  hash : σ → Hash
  hash_reset : hash reset = emptyRootHash

/-- The order in which `DeriveSha` adds the elements of a list, which is that of their encoded
indices. -/
def deriveOrder (n : Nat) : List Nat :=
  (List.range n).filter (fun i ↦ 1 ≤ i ∧ i ≤ 0x7f) ++ (List.range n).filter (· = 0) ++
    (List.range n).filter (0x80 ≤ ·)

/-- `DeriveSha`, of the encoded elements. -/
def deriveSha {σ : Type} (hasher : TrieHasher σ) (list : List Bytes) : Hash :=
  hasher.hash ((deriveOrder list.length).foldl
    (fun st i ↦ hasher.update st (Rlp.uint i) (list.getD i [])) hasher.reset)

theorem deriveSha_nil {σ : Type} (hasher : TrieHasher σ) : deriveSha hasher [] = emptyRootHash :=
  hasher.hash_reset

/-! ## Blocks -/

/-- `Block`. -/
structure Block (C : Crypto) where
  header : Header
  uncles : List Header
  transactions : List (Transaction C)

/-- `Block.Hash`. -/
def Block.hash {C : Crypto} (block : Block C) : Hash := block.header.hash C

/-- `NewBlock`: the commitments of the header are derived from what the block is given, but without
receipts the bloom filter stays as it was. -/
def newBlock {C : Crypto} {σ : Type} (hasher : TrieHasher σ) (header : Header)
    (txs : List (Transaction C)) (uncles : List Header) (receipts : List Receipt) : Block C where
  header :=
    { header with
      txHash := if txs = [] then emptyRootHash else deriveSha hasher (txs.map encodeTx)
      receiptHash :=
        if receipts = [] then emptyRootHash else deriveSha hasher (receipts.map Receipt.encode)
      bloom := if receipts = [] then header.bloom else createBloom C receipts
      uncleHash := if uncles = [] then emptyUncleHash C else calcUncleHash C uncles }
  uncles := uncles
  transactions := txs

end GoEntropy.Chain
