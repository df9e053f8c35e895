import GoEntropy.Model.Message

/-!
# Admission to the transaction pool

`validateTx` decides whether a transaction may enter the pool. It recovers the sender with the pool's
own signer, the most permissive one of the chain configuration, and refuses by fork only dynamic-fee
transactions. A block at the next height recovers senders with the signer of its own fork.

The two agree on a transaction the pool accepted exactly when London is active at the next block or
the transaction is an unprotected legacy one: `validateTx_agrees_iff`. Before London the pool also
lets in replay-protected legacy transactions and access-list transactions, and the signer of the next
block has no sender for either.
-/

namespace GoEntropy

open Signer

/-- The errors `validateTx` returns. -/
inductive TxPoolError where
  | txTypeNotSupported
  | oversizedData
  | negativeValue
  | gasLimit
  | feeCapVeryHigh
  | tipVeryHigh
  | tipAboveFeeCap
  | invalidSender
  | underpriced
  | nonceTooLow
  | insufficientFunds
  | gasUintOverflow
  | intrinsicGas
  deriving Repr, DecidableEq

/-- `txMaxSize`: four slots of 32 KB. -/
def txMaxSize : Nat := 4 * (32 * 1024)

structure HeadState where
  getNonce : Address → UInt64
  getBalance : Address → ℤ

/-- The part of `TxPool` that admission reads. The signer is fixed when the pool is made. -/
structure TxPool where
  chainconfig : ChainConfig
  signer : Signer
  signer_eq : signer = latestSigner chainconfig
  gasPrice : Nat
  eip1559 : Bool
  currentMaxGas : Nat
  currentState : HeadState

namespace TxPool

/-- `NewTxPool`, before its first reset. -/
def newTxPool (chainconfig : ChainConfig) (priceLimit : Nat) : TxPool where
  chainconfig := chainconfig
  signer := latestSigner chainconfig
  signer_eq := rfl
  gasPrice := priceLimit
  eip1559 := false
  currentMaxGas := 0
  currentState := ⟨fun _ ↦ 0, fun _ ↦ 0⟩

/-- What `reset` leaves behind once the state of the new head is available: the head's state and gas
limit, and the fork indicator of the next pending block. -/
def reset (pool : TxPool) (number gasLimit : Nat) (statedb : HeadState) : TxPool :=
  { pool with
    currentState := statedb
    currentMaxGas := gasLimit
    eip1559 := pool.chainconfig.isLondon (number + 1) }

variable {C : Crypto}

/-- `validateTx`. On acceptance the transaction is returned with its sender cached. -/
def validateTx (pool : TxPool) (tx : Transaction C) (isLocal : Bool) :
    Except TxPoolError (Transaction C) :=
  -- dynamic-fee transactions are the only kind that is refused by fork
  if !pool.eip1559 && tx.inner.txType = .dynamicFee then .error .txTypeNotSupported
  else if tx.txSize > txMaxSize then .error .oversizedData
  else if (tx.inner.value : ℤ) < 0 then .error .negativeValue
  else if pool.currentMaxGas < tx.inner.gas.toNat then .error .gasLimit
  else if bitLen tx.inner.gasFeeCap > 256 then .error .feeCapVeryHigh
  else if bitLen tx.inner.gasTipCap > 256 then .error .tipVeryHigh
  else if tx.inner.gasFeeCap < tx.inner.gasTipCap then .error .tipAboveFeeCap
  else
    match tx.sender pool.signer with
    | .error _ => .error .invalidSender
    | .ok (addr, tx') =>
      if !isLocal && tx.inner.gasTipCap < pool.gasPrice then .error .underpriced
      else if pool.currentState.getNonce addr > tx.inner.nonce then .error .nonceTooLow
      else if pool.currentState.getBalance addr < tx.inner.cost then .error .insufficientFunds
      else
        match intrinsicGas tx.inner.data tx.inner.accesses tx.inner.toAddr.isNone true with
        | none => .error .gasUintOverflow
        | some intrGas =>
          if tx.inner.gas.toNat < intrGas then .error .intrinsicGas else .ok tx'

theorem sender_of_validateTx {pool : TxPool} {tx tx' : Transaction C} {isLocal : Bool}
    (h : pool.validateTx tx isLocal = .ok tx') :
    ∃ addr, pool.signer.sender C tx.inner = .ok addr := by
  cases hs : tx.sender pool.signer with
  | ok p => exact ⟨p.1, Transaction.sender_eq_ok.1 ⟨p.2, hs⟩⟩
  | error e =>
    simp only [validateTx, hs] at h
    split_ifs at h

/-- The two signers agree on a transaction: both find a sender, and the same one. -/
def Agree (s s' : Signer) (tx : Transaction C) : Prop :=
  ∃ addr, s.sender C tx.inner = .ok addr ∧ ∃ tx', tx.sender s' = .ok (addr, tx')

end TxPool

section Agreement

variable {C : Crypto} {config : ChainConfig} {tx : TxData} {addr : Address} {next : Nat}

/-- Once London is active, the signer of the block finds the sender the latest signer finds. -/
private theorem makeSigner_london (hl : config.isLondon next = true)
    (h : (latestSigner config).sender C tx = .ok addr) :
    (makeSigner config next).sender C tx = .ok addr := by
  rw [makeSigner, if_pos hl]
  obtain ⟨london, hlondon⟩ : ∃ london, config.londonBlock = some london :=
    Option.ne_none_iff_exists'.1 fun h ↦ by simp [ChainConfig.isLondon, isForked, h] at hl
  cases hid : config.chainID with
  | some chainId => simpa [latestSigner, hid, hlondon] using h
  | none =>
    -- without a chain identifier the latest signer is the Homestead one
    have hh : homesteadSender C tx = .ok addr := by
      simpa [latestSigner, hid, sender] using h
    obtain ⟨hty, hp⟩ := not_isProtected_of_plainSender hh
    exact (londonSender_of_not_isProtected hty hp).trans hh

/-- On an unprotected legacy transaction every signer of a configuration finds the sender the latest
signer finds. -/
private theorem makeSigner_unprotected (hty : tx.txType = .legacy) (hp : tx.isProtected = false)
    (h : (latestSigner config).sender C tx = .ok addr) :
    (makeSigner config next).sender C tx = .ok addr := by
  have hh : homesteadSender C tx = .ok addr := by
    unfold latestSigner at h
    split at h
    · exact (londonSender_of_not_isProtected hty hp).symm.trans h
    · exact h
  unfold makeSigner
  split
  · exact (londonSender_of_not_isProtected hty hp).trans hh
  · split
    · exact hh
    · exact frontierSender_of_homesteadSender hh

/-- Before London the signer of a block only finds senders of unprotected legacy transactions. -/
private theorem legacy_of_makeSigner (hl : config.isLondon next = false)
    (h : (makeSigner config next).sender C tx = .ok addr) :
    tx.txType = .legacy ∧ tx.isProtected = false := by
  rw [makeSigner, if_neg (by simp [hl])] at h
  split at h
  · exact not_isProtected_of_plainSender h
  · exact not_isProtected_of_plainSender h

end Agreement

/-- **Admission and the next block.** For a transaction the pool accepts, whatever its head and fork
indicator are, the signer of the block after `head` and the pool's signer derive the same sender
exactly when London is active at that block or the transaction is legacy and unprotected. -/
theorem validateTx_agrees_iff {C : Crypto} {pool : TxPool} {tx tx' : Transaction C} {isLocal : Bool}
    (h : pool.validateTx tx isLocal = .ok tx') (head : Nat) :
    TxPool.Agree (makeSigner pool.chainconfig (head + 1)) pool.signer tx ↔
      pool.chainconfig.isLondon (head + 1) = true ∨
        (tx.inner.txType = .legacy ∧ tx.inner.isProtected = false) := by
  obtain ⟨addr, haddr⟩ := TxPool.sender_of_validateTx h
  constructor
  · rintro ⟨a, ha, -⟩
    by_cases hl : pool.chainconfig.isLondon (head + 1) = true
    · exact .inl hl
    · exact .inr (legacy_of_makeSigner (Bool.not_eq_true _ ▸ hl) ha)
  · intro hc
    have hlatest := haddr
    rw [pool.signer_eq] at hlatest
    refine ⟨addr, ?_, Transaction.sender_eq_ok.2 haddr⟩
    rcases hc with hl | ⟨hty, hp⟩
    · exact makeSigner_london hl hlatest
    · exact makeSigner_unprotected hty hp hlatest

/-! ## A configuration with London ahead -/

namespace TxPool.Sample

/-- Primitives under which every well-formed signature recovers to one key. -/
def crypto : Crypto where
  keccak256 _ := 0xbeef
  ecrecover _ _ := some [4, 1]
  sha256 b := b
  ripemd160 b := b

def config : ChainConfig := ⟨some 1, some 0, some 0, some 100⟩

def pool : TxPool :=
  (newTxPool config 1).reset 0 8000000 ⟨fun _ ↦ 0, fun _ ↦ 10 ^ 18⟩

def accessListTx : TxData :=
  .accessList ⟨1, 0, 1, 21000, some 7, 5, [], [], 0, 1, 1⟩

/-- A legacy transaction with the given `v`. -/
def legacyTx (v : Nat) : TxData := .legacy ⟨0, 1, 21000, some 7, 5, [], v, 1, 1⟩

end TxPool.Sample

open TxPool.Sample in
/-- With London at block 100 and the head at block 0, the pool admits an access-list transaction and
a protected legacy one (`v = 37` on chain 1), and the signer of block 1 refuses both. -/
theorem validateTx_admits_refused :
    (∃ tx', pool.validateTx (Transaction.newTx (C := crypto) accessListTx 0) false = .ok tx') ∧
      ¬ TxPool.Agree (makeSigner pool.chainconfig 1) pool.signer
          (Transaction.newTx (C := crypto) accessListTx 0) ∧
      (∃ tx', pool.validateTx (Transaction.newTx (C := crypto) (legacyTx 37) 0) false = .ok tx') ∧
      ¬ TxPool.Agree (makeSigner pool.chainconfig 1) pool.signer
          (Transaction.newTx (C := crypto) (legacyTx 37) 0) := by
  refine ⟨⟨_, rfl⟩, ?_, ⟨_, rfl⟩, ?_⟩
  · rintro ⟨addr, h, -⟩
    cases h
  · rintro ⟨addr, h, -⟩
    cases h

open TxPool.Sample in
/-- The unprotected legacy transaction of the same account is admitted, and block 1 derives its
sender. -/
theorem validateTx_agrees_unprotected :
    (∃ tx', pool.validateTx (Transaction.newTx (C := crypto) (legacyTx 27) 0) false = .ok tx') ∧
      TxPool.Agree (makeSigner pool.chainconfig 1) pool.signer
        (Transaction.newTx (C := crypto) (legacyTx 27) 0) :=
  ⟨⟨_, rfl⟩,
    (@validateTx_agrees_iff crypto pool (.newTx (legacyTx 27) 0) _ false rfl 0).2 (.inr ⟨rfl, rfl⟩)⟩

end GoEntropy
