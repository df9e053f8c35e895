import GoEntropy.Common.Bytes

/-!
# Transactions

The three transaction payloads and the accessors the rest of the code reads them through.

The `big.Int` fields of a payload are natural numbers. The RLP codec has no encoding for a negative
number, so no transaction of a block or of the network carries one; the places that compute with
signature values and may go below zero convert to `ℤ` first. The `uint64` fields keep their width.
-/

namespace GoEntropy

/-- `AccessTuple`. -/
structure AccessTuple where
  address : Address
  storageKeys : List Hash
  deriving Repr, DecidableEq

/-- `AccessList`. -/
abbrev AccessList := List AccessTuple

/-- `AccessList.StorageKeys`: the total number of storage keys. -/
def AccessList.numStorageKeys (al : AccessList) : Nat :=
  al.foldl (fun sum tuple ↦ sum + tuple.storageKeys.length) 0

def AccessList.encode (al : AccessList) : Bytes :=
  Rlp.list (al.map fun tuple ↦
    Rlp.list [Rlp.bytes (addressBytes tuple.address),
      Rlp.list (tuple.storageKeys.map fun k ↦ Rlp.bytes (hashBytes k))])

/-- `LegacyTx`. -/
structure LegacyTx where
  nonce : UInt64
  gasPrice : Nat
  gas : UInt64
  toAddr : Option Address
  value : Nat
  data : Bytes
  v : Nat
  r : Nat
  s : Nat
  deriving Repr, DecidableEq

/-- `AccessListTx`. -/
structure AccessListTx where
  chainID : Nat
  nonce : UInt64
  gasPrice : Nat
  gas : UInt64
  toAddr : Option Address
  value : Nat
  data : Bytes
  accessList : AccessList
  v : Nat
  r : Nat
  s : Nat
  deriving Repr, DecidableEq

/-- `DynamicFeeTx`. -/
structure DynamicFeeTx where
  chainID : Nat
  nonce : UInt64
  gasTipCap : Nat
  gasFeeCap : Nat
  gas : UInt64
  toAddr : Option Address
  value : Nat
  data : Bytes
  accessList : AccessList
  v : Nat
  r : Nat
  s : Nat
  deriving Repr, DecidableEq

inductive TxType where
  | legacy
  | accessList
  | dynamicFee
  deriving Repr, DecidableEq

/-- The type byte of a typed transaction envelope. -/
def TxType.toByte : TxType → UInt8
  | legacy => 0
  | accessList => 1
  | dynamicFee => 2

/-- `TxData`: the underlying data of a transaction. -/
inductive TxData where
  | legacy (tx : LegacyTx)
  | accessList (tx : AccessListTx)
  | dynamicFee (tx : DynamicFeeTx)
  deriving Repr, DecidableEq

/-- `isProtectedV`. -/
def isProtectedV (v : Nat) : Bool :=
  if bitLen v ≤ 8 then v != 27 && v != 28 && v != 1 && v != 0 else true

/-- `deriveChainId`: the chain identifier an EIP-155 `v` was made with. A short `v` below 35 wraps
around in 64 bits. -/
def deriveChainId (v : Nat) : Nat :=
  if bitLen v ≤ 64 then
    if v = 27 ∨ v = 28 then 0 else wrap64 (v + (2 ^ 64 - 35)) / 2
  else (v - 35) / 2

/-- The encoding of a recipient, the empty string for a contract creation. -/
def encodeTo (addr : Option Address) : Bytes := Rlp.bytes ((addr.map addressBytes).getD [])

namespace TxData

/-- `txType`. -/
def txType : TxData → TxType
  | legacy _ => .legacy
  | accessList _ => .accessList
  | dynamicFee _ => .dynamicFee

/-- `chainID`. -/
def chainID : TxData → Nat
  | legacy tx => deriveChainId tx.v
  | accessList tx => tx.chainID
  | dynamicFee tx => tx.chainID

/-- `accessList`; a legacy transaction has a nil one. -/
def accesses : TxData → Option AccessList
  | legacy _ => none
  | accessList tx => some tx.accessList
  | dynamicFee tx => some tx.accessList

/-- `data`. -/
def data : TxData → Bytes
  | legacy tx => tx.data
  | accessList tx => tx.data
  | dynamicFee tx => tx.data

/-- `gas`. -/
def gas : TxData → UInt64
  | legacy tx => tx.gas
  | accessList tx => tx.gas
  | dynamicFee tx => tx.gas

/-- `gasPrice`. -/
def gasPrice : TxData → Nat
  | legacy tx => tx.gasPrice
  | accessList tx => tx.gasPrice
  | dynamicFee tx => tx.gasFeeCap

/-- `gasTipCap`. -/
def gasTipCap : TxData → Nat
  | legacy tx => tx.gasPrice
  | accessList tx => tx.gasPrice
  | dynamicFee tx => tx.gasTipCap

/-- `gasFeeCap`. -/
def gasFeeCap : TxData → Nat
  | legacy tx => tx.gasPrice
  | accessList tx => tx.gasPrice
  | dynamicFee tx => tx.gasFeeCap

/-- `value`. -/
def value : TxData → Nat
  | legacy tx => tx.value
  | accessList tx => tx.value
  | dynamicFee tx => tx.value

/-- `nonce`. -/
def nonce : TxData → UInt64
  | legacy tx => tx.nonce
  | accessList tx => tx.nonce
  | dynamicFee tx => tx.nonce

/-- `to`. -/
def toAddr : TxData → Option Address
  | legacy tx => tx.toAddr
  | accessList tx => tx.toAddr
  | dynamicFee tx => tx.toAddr

/-- `rawSignatureValues`. -/
def rawSignatureValues : TxData → Nat × Nat × Nat
  | legacy tx => (tx.v, tx.r, tx.s)
  | accessList tx => (tx.v, tx.r, tx.s)
  | dynamicFee tx => (tx.v, tx.r, tx.s)

/-- `Transaction.Protected`: whether the transaction is replay-protected. Every typed transaction
is. -/
def isProtected : TxData → Bool
  | legacy tx => isProtectedV tx.v
  | _ => true

/-- `Transaction.Cost`: `gas * gasPrice + value`. -/
def cost (tx : TxData) : Nat := tx.gasPrice * tx.gas.toNat + tx.value

def encode : TxData → Bytes
  | legacy tx =>
    Rlp.list [Rlp.uint tx.nonce.toNat, Rlp.uint tx.gasPrice, Rlp.uint tx.gas.toNat, encodeTo tx.toAddr,
      Rlp.uint tx.value, Rlp.bytes tx.data, Rlp.uint tx.v, Rlp.uint tx.r, Rlp.uint tx.s]
  | accessList tx =>
    Rlp.list [Rlp.uint tx.chainID, Rlp.uint tx.nonce.toNat, Rlp.uint tx.gasPrice, Rlp.uint tx.gas.toNat,
      encodeTo tx.toAddr, Rlp.uint tx.value, Rlp.bytes tx.data, tx.accessList.encode, Rlp.uint tx.v,
      Rlp.uint tx.r, Rlp.uint tx.s]
  | dynamicFee tx =>
    Rlp.list [Rlp.uint tx.chainID, Rlp.uint tx.nonce.toNat, Rlp.uint tx.gasTipCap, Rlp.uint tx.gasFeeCap,
      Rlp.uint tx.gas.toNat, encodeTo tx.toAddr, Rlp.uint tx.value, Rlp.bytes tx.data, tx.accessList.encode,
      Rlp.uint tx.v, Rlp.uint tx.r, Rlp.uint tx.s]

/-- `Transaction.Hash`. -/
def hash (C : Crypto) : TxData → Hash
  | legacy tx => C.keccak256 (legacy tx).encode
  | accessList tx => C.keccak256 (TxType.accessList.toByte :: (accessList tx).encode)
  | dynamicFee tx => C.keccak256 (TxType.dynamicFee.toByte :: (dynamicFee tx).encode)

end TxData

/-- A `v` is unprotected exactly when it is 0, 1, 27 or 28. -/
theorem isProtectedV_eq_false {v : Nat} :
    isProtectedV v = false ↔ v = 27 ∨ v = 28 ∨ v = 1 ∨ v = 0 := by
  unfold isProtectedV
  by_cases hb : bitLen v ≤ 8
  · rw [if_pos hb]
    simp only [Bool.and_eq_false_iff, bne_eq_false_iff_eq]
    tauto
  · rw [if_neg hb]
    refine ⟨fun h ↦ absurd h (by decide), fun h ↦ (hb ?_).elim⟩
    rcases h with rfl | rfl | rfl | rfl <;> decide

end GoEntropy
