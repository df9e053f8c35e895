import GoEntropy.Evm.Interpreter
import GoEntropy.Model.Message

/-!
# The state transition of a message

`TransitionDb` applies a message to the state: it checks the message, buys the gas, charges the
intrinsic gas, runs the call or the creation, refunds what is left and pays the coinbase.

It is a program over the state, and where it executes also over the registers of the virtual machine.
The gas pool is shared with the transactions around it, and a message that is refused after
its gas was bought leaves the pool short; so the pool is returned with either outcome.
-/

namespace GoEntropy.Chain

open Evm

/-- The errors of `TransitionDb`, with what their texts mention. -/
inductive TransitionError where
  | nonceTooHigh (addr : Address) (tx state : UInt64)
  | nonceTooLow (addr : Address) (tx state : UInt64)
  | nonceMax (addr : Address) (nonce : UInt64)
  | senderNoEOA (addr : Address) (codeHash : Hash)
  | feeCapVeryHigh (addr : Address) (bitLen : Nat)
  | tipVeryHigh (addr : Address) (bitLen : Nat)
  | tipAboveFeeCap (addr : Address) (tip feeCap : Nat)
  | feeCapTooLow (addr : Address) (feeCap baseFee : Nat)
  | insufficientFunds (addr : Address) (balance : ℤ) (required : Nat)
  | gasLimitReached
  | gasUintOverflow
  | intrinsicGas (available required : Nat)
  | insufficientFundsForTransfer (addr : Address)
  deriving Repr, DecidableEq

/-- `ExecutionResult`. -/
structure ExecutionResult where
  usedGas : Nat
  err : Option VmError
  returnData : Bytes
  deriving Repr, DecidableEq

abbrev GasPool := Nat

/-- `GasPool.AddGas`, which panics where the pool would overflow. -/
def GasPool.addGas (gp : GasPool) (amount : Nat) : Except Fault GasPool :=
  if gp > maxUint64 - amount then .error .gasPoolAboveUint64 else .ok (gp + amount)

/-- `GasPool.SubGas`. -/
def GasPool.subGas (gp : GasPool) (amount : Nat) : Option GasPool :=
  if gp < amount then none else some (gp - amount)

/-- A computation that may crash, as a program. -/
def orCrash {α : Type} : Except Fault α → StateM α
  | .ok a => return a
  | .error e => .fault e

section Transition

variable (evm : EVM) (msg : Message)

/-! ## Checks -/

/-- The part of `preCheck` about the sender, which is skipped for a fake message. -/
def checkSender : StateM (Option TransitionError) :=
  if msg.isFake then return none
  else do
    let stNonce ← ask (.getNonce msg.sender)
    if stNonce < msg.nonce then return some (.nonceTooHigh msg.sender msg.nonce stNonce)
    else if stNonce > msg.nonce then return some (.nonceTooLow msg.sender msg.nonce stNonce)
    else if stNonce + 1 < stNonce then return some (.nonceMax msg.sender stNonce)
    else do
      let codeHash ← ask (.getCodeHash msg.sender)
      if codeHash ≠ evm.crypto.emptyCodeHash ∧ codeHash ≠ 0 then
        return some (.senderNoEOA msg.sender codeHash)
      else return none

/-- The checks of the fee fields against each other and against the base fee. -/
def checkFeeCap (gasFeeCap : Nat) : Except Fault (Option TransitionError) :=
  if bitLen gasFeeCap > 256 then .ok (some (.feeCapVeryHigh msg.sender (bitLen gasFeeCap)))
  else if bitLen msg.gasTipCap > 256 then
    .ok (some (.tipVeryHigh msg.sender (bitLen msg.gasTipCap)))
  else if gasFeeCap < msg.gasTipCap then
    .ok (some (.tipAboveFeeCap msg.sender msg.gasTipCap gasFeeCap))
  else
    match evm.context.baseFee with
    | none => .error .nilPointer
    | some baseFee =>
      if gasFeeCap < baseFee then .ok (some (.feeCapTooLow msg.sender gasFeeCap baseFee))
      else .ok none

/-- The part of `preCheck` about fees, made since London unless the base fee is disabled and no fees
are given. -/
def checkFees : Except Fault (Option TransitionError) :=
  if !evm.chainConfig.isLondon evm.context.blockNumber then .ok none
  else
    match msg.gasFeeCap with
    | none => .error .nilPointer
    | some gasFeeCap =>
      if !evm.config.noBaseFee ∨ bitLen gasFeeCap > 0 ∨ bitLen msg.gasTipCap > 0 then
        checkFeeCap evm msg gasFeeCap
      else .ok none

/-- What the sender must own: the gas at the highest price it may cost, and the value. -/
def balanceCheck : Nat :=
  match msg.gasFeeCap with
  | none => msg.gasLimit.toNat * msg.gasPrice
  | some gasFeeCap => msg.gasLimit.toNat * gasFeeCap + msg.amount

/-- `buyGas`: the pool that is left. -/
def buyGas (gp : GasPool) : StateM (Except TransitionError GasPool) := do
  let balance ← ask (.getBalance msg.sender)
  if balance < balanceCheck msg then
    return .error (.insufficientFunds msg.sender balance (balanceCheck msg))
  else
    match gp.subGas msg.gasLimit.toNat with
    | none => return .error .gasLimitReached
    | some gp => do
      ask (.subBalance msg.sender (msg.gasLimit.toNat * msg.gasPrice : Nat))
      return .ok gp

/-- `preCheck`. -/
def preCheck (gp : GasPool) : StateM (Except TransitionError GasPool) := do
  match ← checkSender evm msg with
  | some e => return .error e
  | none => do
    match ← orCrash (checkFees evm msg) with
    | some e => return .error e
    | none => buyGas msg gp

/-! ## Execution -/

/-- Run the message on the gas that is left: a creation, or a call after the sender's nonce has been
raised. -/
def executeWith (jt : JumpTable) (gas : Nat) : EvmM CallResult :=
  match msg.toAddr with
  | none => do
    let r ← evm.create (evm.interpreterWith jt) msg.sender msg.data gas msg.amount
    return ⟨r.ret, r.leftOverGas, r.err⟩
  | some toAddr => do
    let nonce ← query (.getNonce msg.sender)
    query (.setNonce msg.sender (nonce + 1))
    evm.call (evm.interpreterWith jt) msg.sender toAddr msg.data gas msg.amount

/-- Run the message by the instruction set that the interpreter selects. -/
def execute (gas : Nat) : EvmM CallResult := executeWith evm msg (selectJumpTable evm.chainRules) gas

/-- The gas that `refundGas` returns on top of what is left: the refund counter, capped to a quotient
of the gas used. -/
def cappedRefund (gasUsed refund quotient : Nat) : Nat :=
  if gasUsed / quotient > refund then refund else gasUsed / quotient

/-- `refundGas`: the gas left after the refund, and the pool it was returned to. -/
def refundGas (gp : GasPool) (gas quotient : Nat) : StateM (Nat × GasPool) := do
  let refund ← ask .getRefund
  let gas := add64 gas (cappedRefund (sub64 msg.gasLimit.toNat gas) refund quotient)
  ask (.addBalance msg.sender (gas * msg.gasPrice : Nat))
  let gp ← orCrash (gp.addGas gas)
  return (gas, gp)

def refundQuotient : Nat :=
  if evm.chainRules.isLondon then Params.refundQuotientEIP3529 else Params.refundQuotient

/-- What the coinbase receives per gas. -/
def effectiveTip : Except Fault ℤ :=
  if evm.chainRules.isLondon then
    match msg.gasFeeCap, evm.context.baseFee with
    | some gasFeeCap, some baseFee => .ok (min (msg.gasTipCap : ℤ) (gasFeeCap - baseFee))
    | _, _ => .error .nilPointer
  else .ok msg.gasPrice

/-- The part of `TransitionDb` after the execution. -/
def settle (gp : GasPool) (r : CallResult) : StateM (GasPool × ExecutionResult) := do
  let (gas, gp) ← refundGas msg gp r.leftOverGas (refundQuotient evm)
  let tip ← orCrash (effectiveTip evm msg)
  let usedGas := sub64 msg.gasLimit.toNat gas
  ask (.addBalance evm.context.coinbase (usedGas * tip))
  return (gp, ⟨usedGas, r.err, r.ret⟩)

/-- The part of `TransitionDb` after `preCheck`. -/
def transitionCheckedWith (jt : JumpTable) (gp : GasPool) :
    EvmM (GasPool × Except TransitionError ExecutionResult) :=
  match GoEntropy.intrinsicGas msg.data msg.accessList msg.toAddr.isNone
      evm.chainRules.isHomestead with
  | none => return (gp, .error .gasUintOverflow)
  | some gas =>
    if msg.gasLimit.toNat < gas then
      return (gp, .error (.intrinsicGas msg.gasLimit.toNat gas))
    else do
      let ok ← lift (canPay msg.sender msg.amount)
      if ok then do
        let r ← executeWith evm msg jt (msg.gasLimit.toNat - gas)
        let (gp, result) ← lift (settle evm msg gp r)
        return (gp, .ok result)
      else return (gp, .error (.insufficientFundsForTransfer msg.sender))

/-- `TransitionDb` by an instruction set that the configuration gives. -/
def transitionDbWith (jt : JumpTable) (gp : GasPool) :
    EvmM (GasPool × Except TransitionError ExecutionResult) := do
  match ← lift (preCheck evm msg gp) with
  | .error e => return (gp, .error e)
  | .ok gp => transitionCheckedWith evm msg jt gp

/-- `TransitionDb`, which is `ApplyMessage`, by the instruction set that the interpreter selects. -/
def transitionDb (gp : GasPool) : EvmM (GasPool × Except TransitionError ExecutionResult) :=
  transitionDbWith evm msg (selectJumpTable evm.chainRules) gp

end Transition

/-! ## A block and a message for it -/

namespace Sample

/-- A virtual machine for block 1 of a chain on which every fork is active, with the given random
value. -/
def evm (C : Crypto) (random : Option Hash) : EVM where
  crypto := C
  context :=
    { getHash := fun _ ↦ 0
      coinbase := 0x30
      gasLimit := 8000000
      blockNumber := 1
      time := 0
      difficulty := 0
      baseFee := some 7
      random := random }
  txContext := ⟨0x10, 7⟩
  chainConfig := ⟨some 1, some 0, some 0, some 0⟩
  config := ⟨false, false⟩
  abort := false

/-- A call of the contract at `0x20` by the account at `0x10`. -/
def message : Message where
  toAddr := some 0x20
  sender := 0x10
  nonce := 0
  amount := 0
  gasLimit := 100000
  gasPrice := 7
  gasFeeCap := some 7
  gasTipCap := 7
  data := []
  accessList := none
  isFake := false

def faults {α : Type} (e : Fault) : Except Fault α → Bool
  | .error e' => decide (e' = e)
  | .ok _ => false

theorem eq_error_of_faults {α : Type} {e : Fault} {x : Except Fault α} (h : faults e x = true) :
    x = .error e := by
  cases x with
  | error e' => rw [of_decide_eq_true h]
  | ok a => cases h

def applies {σ : Type} :
    Except Fault (((GasPool × Except TransitionError ExecutionResult) × Machine) × σ) → Bool
  | .ok (((_, .ok _), _), _) => true
  | _ => false

theorem exists_of_applies {σ : Type}
    {x : Except Fault (((GasPool × Except TransitionError ExecutionResult) × Machine) × σ)}
    (h : applies x = true) : ∃ gp result m s, x = .ok (((gp, .ok result), m), s) := by
  unfold applies at h
  split at h
  · exact ⟨_, _, _, _, rfl⟩
  · cases h

end Sample

end GoEntropy.Chain
