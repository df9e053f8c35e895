import GoEntropy.Model.Signing

/-!
# Messages and intrinsic gas

A message is a transaction with its sender recovered and its gas price resolved against the base fee
of the block. Both the transaction pool and the state transition charge the same intrinsic gas for
it before any code runs.
-/

namespace GoEntropy

/-- `model.Message`. A message need not have a fee cap; those made from transactions do. -/
structure Message where
  toAddr : Option Address
  sender : Address
  nonce : UInt64
  amount : Nat
  gasLimit : UInt64
  gasPrice : Nat
  gasFeeCap : Option Nat
  gasTipCap : Nat
  data : Bytes
  accessList : Option AccessList
  isFake : Bool
  deriving Repr, DecidableEq

/-- The price a transaction pays per gas: `gasPrice` without a base fee, and otherwise the tip on top
of the base fee, capped by the fee cap. -/
def effectiveGasPrice (tx : TxData) : Option Nat → Nat
  | none => tx.gasPrice
  | some baseFee => min (tx.gasTipCap + baseFee) tx.gasFeeCap

/-- `Transaction.AsMessage`. -/
def Transaction.asMessage {C : Crypto} (tx : Transaction C) (s : Signer) (baseFee : Option Nat) :
    Except SignError Message :=
  match tx.sender s with
  | .error e => .error e
  | .ok (sender, _) =>
    .ok {
      toAddr := tx.inner.toAddr
      sender := sender
      nonce := tx.inner.nonce
      amount := tx.inner.value
      gasLimit := tx.inner.gas
      gasPrice := effectiveGasPrice tx.inner baseFee
      gasFeeCap := some tx.inner.gasFeeCap
      gasTipCap := tx.inner.gasTipCap
      data := tx.inner.data
      accessList := tx.inner.accesses
      isFake := false }

/-- `IntrinsicGas`, or `none` where the code returns `ErrGasUintOverflow`. Data bytes are charged at
the Frontier price whatever the fork. -/
def intrinsicGas (data : Bytes) (accessList : Option AccessList) (isContractCreation : Bool)
    (isHomestead : Bool) : Option Nat := do
  let base := if isContractCreation && isHomestead then Params.txGasContractCreation
    else Params.txGas
  let gas ←
    if data.length > 0 then do
      let nz := data.countP (· ≠ 0)
      if (maxUint64 - base) / Params.txDataNonZeroGasFrontier < nz then none
      else do
        let gas := base + nz * Params.txDataNonZeroGasFrontier
        let z := data.length - nz
        if (maxUint64 - gas) / Params.txDataZeroGas < z then none
        else some (gas + z * Params.txDataZeroGas)
    else some base
  match accessList with
  | none => some gas
  | some al =>
    let gas := wrap64 (gas + al.length * Params.txAccessListAddressGas)
    some (wrap64 (gas + al.numStorageKeys * Params.txAccessListStorageKeyGas))

end GoEntropy
