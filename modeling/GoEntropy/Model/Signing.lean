import GoEntropy.Config.ChainConfig
import GoEntropy.Model.Transaction

/-!
# Transaction signers

A signer recovers the sender of a transaction from its signature values. Five signers exist, each
accepting what the previous one accepts and one kind of transaction more: Frontier, Homestead,
EIP-155, EIP-2930 and London. Blocks use the signer of their fork (`makeSigner`), the transaction
pool uses the most permissive one of the configuration (`latestSigner`).

The sender is cached inside the transaction. A cached sender is only used when the signer asking is
the signer that filled the cache, so a `Transaction` carries the proof that its cache was filled by
that signer.

The facts used later are that recovery succeeds only for a plain `v` of 27 or 28
(`recoverPlain_eq_ok`), hence that the fork-less signers reject every protected transaction, and that
on an unprotected legacy transaction all signers agree (`sender_of_not_isProtected`).
-/

namespace GoEntropy

inductive SignError where
  | invalidSig
  | txTypeNotSupported
  | invalidChainId
  | recoveryFailed
  | invalidPublicKey
  deriving Repr, DecidableEq

/-- `recoverPlain`: the address whose key signed `sighash`. `Vb` is 27 or 28 in a valid signature; a
value above eight bits is refused before it is narrowed to a byte. -/
def recoverPlain (C : Crypto) (sighash : Hash) (R S : Nat) (Vb : ℤ) (homestead : Bool) :
    Except SignError Address :=
  if bitLen Vb.natAbs > 8 then .error .invalidSig
  else
    let V := UInt8.ofNat (wrap64 (Vb.natAbs + (2 ^ 64 - 27)))
    if validateSignatureValues V R S homestead = false then .error .invalidSig
    else
      -- the signature in the uncompressed [R || S || V] format
      match C.ecrecover sighash (beBytes 32 R ++ beBytes 32 S ++ [V]) with
      | none => .error .recoveryFailed
      | some [] => .error .invalidPublicKey
      | some (fst :: pub) =>
        if fst ≠ 4 then .error .invalidPublicKey else .ok (hashToAddress (C.keccak256 pub))

/-- The implementations of `Signer`. -/
inductive Signer where
  | frontier
  | homestead
  | eip155 (chainId : Nat)
  | eip2930 (chainId : Nat)
  | london (chainId : Nat)
  deriving Repr, DecidableEq

namespace Signer

/-- The fields every legacy signature covers. -/
private def legacyFields (tx : TxData) : List Bytes :=
  [Rlp.uint tx.nonce.toNat, Rlp.uint tx.gasPrice, Rlp.uint tx.gas.toNat, encodeTo tx.toAddr,
    Rlp.uint tx.value, Rlp.bytes tx.data]

/-- `FrontierSigner.Hash`, which `HomesteadSigner` inherits. -/
def frontierHash (C : Crypto) (tx : TxData) : Hash := C.rlpHash (legacyFields tx)

/-- `EIP155Signer.Hash`. -/
def eip155Hash (C : Crypto) (chainId : Nat) (tx : TxData) : Hash :=
  C.rlpHash (legacyFields tx ++ [Rlp.uint chainId, Rlp.uint 0, Rlp.uint 0])

/-- The access list of a typed transaction as it is hashed. -/
private def encodedAccesses (tx : TxData) : Bytes := AccessList.encode (tx.accesses.getD [])

/-- `eip2930Signer.Hash`; an unsupported type hashes to zero. -/
def eip2930Hash (C : Crypto) (chainId : Nat) (tx : TxData) : Hash :=
  match tx.txType with
  | .legacy => eip155Hash C chainId tx
  | .accessList =>
    C.prefixedRlpHash tx.txType.toByte
      ([Rlp.uint chainId] ++ legacyFields tx ++ [encodedAccesses tx])
  | .dynamicFee => 0

/-- `londonSigner.Hash`. -/
def londonHash (C : Crypto) (chainId : Nat) (tx : TxData) : Hash :=
  match tx.txType with
  | .dynamicFee =>
    C.prefixedRlpHash tx.txType.toByte
      [Rlp.uint chainId, Rlp.uint tx.nonce.toNat, Rlp.uint tx.gasTipCap, Rlp.uint tx.gasFeeCap,
        Rlp.uint tx.gas.toNat, encodeTo tx.toAddr, Rlp.uint tx.value, Rlp.bytes tx.data,
        encodedAccesses tx]
  | _ => eip2930Hash C chainId tx

/-- The body that `FrontierSigner.Sender` and `HomesteadSigner.Sender` share: the Homestead one
additionally refuses the upper half of the `s` values. -/
def plainSender (C : Crypto) (homestead : Bool) (tx : TxData) : Except SignError Address :=
  if tx.txType ≠ .legacy then .error .txTypeNotSupported
  else
    let (v, r, s) := tx.rawSignatureValues
    recoverPlain C (frontierHash C tx) r s v homestead

/-- `FrontierSigner.Sender`. -/
def frontierSender (C : Crypto) (tx : TxData) : Except SignError Address := plainSender C false tx

/-- `HomesteadSigner.Sender`. -/
def homesteadSender (C : Crypto) (tx : TxData) : Except SignError Address := plainSender C true tx

/-- `EIP155Signer.Sender`. -/
def eip155Sender (C : Crypto) (chainId : Nat) (tx : TxData) : Except SignError Address :=
  if tx.txType ≠ .legacy then .error .txTypeNotSupported
  else if tx.isProtected = false then homesteadSender C tx
  else if tx.chainID ≠ chainId then .error .invalidChainId
  else
    let (v, r, s) := tx.rawSignatureValues
    recoverPlain C (eip155Hash C chainId tx) r s ((v : ℤ) - chainId * 2 - 8) true

/-- `eip2930Signer.Sender`. -/
def eip2930Sender (C : Crypto) (chainId : Nat) (tx : TxData) : Except SignError Address :=
  let (v, r, s) := tx.rawSignatureValues
  match tx.txType with
  | .legacy =>
    if tx.isProtected = false then homesteadSender C tx
    else if tx.chainID ≠ chainId then .error .invalidChainId
    else recoverPlain C (eip2930Hash C chainId tx) r s ((v : ℤ) - chainId * 2 - 8) true
  | .accessList =>
    -- recovery ids 0 and 1 become the plain 27 and 28
    if tx.chainID ≠ chainId then .error .invalidChainId
    else recoverPlain C (eip2930Hash C chainId tx) r s ((v : ℤ) + 27) true
  | .dynamicFee => .error .txTypeNotSupported

/-- `londonSigner.Sender`. -/
def londonSender (C : Crypto) (chainId : Nat) (tx : TxData) : Except SignError Address :=
  if tx.txType ≠ .dynamicFee then eip2930Sender C chainId tx
  else
    let (v, r, s) := tx.rawSignatureValues
    if tx.chainID ≠ chainId then .error .invalidChainId
    else recoverPlain C (londonHash C chainId tx) r s ((v : ℤ) + 27) true

/-- `Signer.Sender`. -/
def sender (C : Crypto) : Signer → TxData → Except SignError Address
  | frontier => frontierSender C
  | homestead => homesteadSender C
  | eip155 chainId => eip155Sender C chainId
  | eip2930 chainId => eip2930Sender C chainId
  | london chainId => londonSender C chainId

end Signer

/-- `MakeSigner`: the signer of the fork active at a block. -/
def makeSigner (config : ChainConfig) (blockNumber : Nat) : Signer :=
  if config.isLondon blockNumber then .london (config.chainID.getD 0)
  else if config.isHomestead blockNumber then .homestead
  else .frontier

/-- `LatestSigner`: the most permissive signer of a configuration. -/
def latestSigner (config : ChainConfig) : Signer :=
  match config.chainID, config.londonBlock with
  | some chainId, some _ => .london chainId
  | _, _ => .homestead

/-! ## The sender cache -/

/-- `sigCache`: a derived sender and the signer it was derived with. -/
structure SigCache where
  signer : Signer
  addr : Address
  deriving Repr, DecidableEq

/-- `Transaction`: the payload with its caches. The sender cache holds what its signer answers. -/
structure Transaction (C : Crypto) where
  inner : TxData
  /-- The time first seen locally. -/
  time : Nat
  /-- The size recorded when the transaction was decoded. -/
  size : Option Nat
  /-- The cached sender. -/
  sigCache : Option SigCache
  sigCache_ok : ∀ sc ∈ sigCache, sc.signer.sender C inner = .ok sc.addr

namespace Transaction

variable {C : Crypto}

/-- `NewTx`: nothing is cached yet. -/
def newTx (inner : TxData) (now : Nat) : Transaction C where
  inner := inner
  time := now
  size := none
  sigCache := none
  sigCache_ok := by simp

/-- `Transaction.Size`: the recorded size, or the length of the payload's encoding. -/
def txSize (tx : Transaction C) : Nat := tx.size.getD tx.inner.encode.length

/-- Record a sender derived by `signer`. -/
def storeSender (tx : Transaction C) (signer : Signer) (addr : Address)
    (h : signer.sender C tx.inner = .ok addr) : Transaction C where
  inner := tx.inner
  time := tx.time
  size := tx.size
  sigCache := some ⟨signer, addr⟩
  sigCache_ok := by
    intro sc hsc
    rw [← Option.some_inj.1 hsc]
    exact h

/-- `model.Sender`: the cached sender if the same signer filled the cache, otherwise a fresh recovery
whose result is stored. -/
def sender (signer : Signer) (tx : Transaction C) : Except SignError (Address × Transaction C) :=
  match tx.sigCache.filter (fun sc ↦ sc.signer = signer) with
  | some sc => .ok (sc.addr, tx)
  | none =>
    match h : signer.sender C tx.inner with
    | .ok addr => .ok (addr, tx.storeSender signer addr h)
    | .error e => .error e

/-- The cache is transparent: `model.Sender` answers what the signer answers. -/
theorem sender_eq_ok {signer : Signer} {tx : Transaction C} {addr : Address} :
    (∃ tx', tx.sender signer = .ok (addr, tx')) ↔ signer.sender C tx.inner = .ok addr := by
  unfold sender
  cases hc : tx.sigCache.filter (fun sc ↦ sc.signer = signer) with
  | some sc =>
    obtain ⟨hmem, hsig⟩ := Option.filter_eq_some_iff.1 hc
    have hok := tx.sigCache_ok sc hmem
    rw [of_decide_eq_true hsig] at hok
    simp [hok]
  | none =>
    simp only
    split
    · next a h => simp [h]
    · next e h => simp [h]

end Transaction

/-! ## What the signers accept -/

section Recover

variable {C : Crypto} {h : Hash} {R S : Nat} {homestead : Bool} {addr : Address}

private theorem lt_of_bitLen_le {n : Nat} (hn : bitLen n ≤ 8) : n < 256 := by
  unfold bitLen at hn
  by_cases h0 : n = 0
  · omega
  · rw [if_neg h0] at hn
    exact (Nat.log2_lt (k := 8) h0).1 (by omega)

theorem recoverPlain_eq_ok {v : Nat} (hok : recoverPlain C h R S v homestead = .ok addr) :
    v = 27 ∨ v = 28 := by
  unfold recoverPlain at hok
  rw [Int.natAbs_natCast] at hok
  by_cases hb : bitLen v > 8
  · simp [hb] at hok
  · rw [if_neg hb] at hok
    have hv : v < 256 := lt_of_bitLen_le (not_lt.1 hb)
    by_cases hval :
        validateSignatureValues (UInt8.ofNat (wrap64 (v + (2 ^ 64 - 27)))) R S homestead = false
    · rw [if_pos hval] at hok
      cases hok
    · rw [Bool.not_eq_false, validateSignatureValues] at hval
      split at hval <;> try exact absurd hval Bool.false_ne_true
      split at hval <;> try exact absurd hval Bool.false_ne_true
      simp only [Bool.and_eq_true, Bool.or_eq_true, beq_iff_eq] at hval
      rcases hval.2 with hv0 | hv1
      · have := congrArg UInt8.toNat hv0
        simp [wrap64] at this
        omega
      · have := congrArg UInt8.toNat hv1
        simp [wrap64] at this
        omega

/-- Dropping the Homestead bound on `s` loses no signature and changes no sender. -/
theorem recoverPlain_frontier {Vb : ℤ} (hok : recoverPlain C h R S Vb true = .ok addr) :
    recoverPlain C h R S Vb false = .ok addr := by
  unfold recoverPlain at hok ⊢
  by_cases hb : bitLen Vb.natAbs > 8
  · simp [hb] at hok
  · rw [if_neg hb] at hok ⊢
    set V := UInt8.ofNat (wrap64 (Vb.natAbs + (2 ^ 64 - 27)))
    by_cases hval : validateSignatureValues V R S true = false
    · simp [hval] at hok
    · have hval' : validateSignatureValues V R S false = true := by
        rw [Bool.not_eq_false, validateSignatureValues] at hval
        rw [validateSignatureValues]
        split at hval <;> try exact absurd hval Bool.false_ne_true
        split at hval <;> try exact absurd hval Bool.false_ne_true
        next h1 _ => rw [if_neg h1]; exact hval
      rw [if_neg hval] at hok
      rw [if_neg (by simp [hval'])]
      exact hok

end Recover

namespace Signer

variable {C : Crypto} {tx : TxData} {addr : Address}

/-- The signers without a chain identifier only accept unprotected legacy transactions. -/
theorem not_isProtected_of_plainSender {homestead : Bool}
    (h : plainSender C homestead tx = .ok addr) :
    tx.txType = .legacy ∧ tx.isProtected = false := by
  unfold plainSender at h
  cases tx with
  | legacy tx =>
    refine ⟨rfl, ?_⟩
    have hv : tx.v = 27 ∨ tx.v = 28 := recoverPlain_eq_ok h
    exact isProtectedV_eq_false.2 (by tauto)
  | accessList tx | dynamicFee tx => simp [TxData.txType] at h

/-- Whatever the Homestead signer accepts the Frontier signer accepts, with the same sender. -/
theorem frontierSender_of_homesteadSender (h : homesteadSender C tx = .ok addr) :
    frontierSender C tx = .ok addr := by
  unfold homesteadSender plainSender at h
  unfold frontierSender plainSender
  by_cases hty : tx.txType ≠ .legacy
  · simp [hty] at h
  · rw [if_neg hty] at h ⊢
    exact recoverPlain_frontier h

theorem londonSender_of_not_isProtected {chainId : Nat} (hty : tx.txType = .legacy)
    (hp : tx.isProtected = false) : londonSender C chainId tx = homesteadSender C tx := by
  unfold londonSender eip2930Sender
  simp [hty, hp]

end Signer

end GoEntropy
