import GoEntropy.Evm.OpCode
import GoEntropy.Interaction.Prog

/-!
# The interface between the virtual machine and the state

The virtual machine reaches the state only through the methods of the `StateDB` interface, and
reports what it does to a tracer. Both are operations of one `Interaction.Interface` here, so that an
execution is a program over it and can be run on any implementation of the state.

The tracer's hooks are part of the interface although they change nothing: they are the events that
statements about an execution speak about (which code starts running where, which instruction a
frame executes, which account destroys itself). Hooks that only close a frame are left out.
-/

namespace GoEntropy.Evm

open Interaction

/-- The fields of `model.Log` that the virtual machine fills in. -/
structure Log where
  address : Address
  topics : List Hash
  data : Bytes
  blockNumber : Nat
  deriving Repr, DecidableEq

/-- The methods of `StateDB` the virtual machine calls, and the hooks of its tracer. -/
inductive StateOp where
  | createAccount (addr : Address)
  | subBalance (addr : Address) (amount : ℤ)
  | addBalance (addr : Address) (amount : ℤ)
  | getBalance (addr : Address)
  | getNonce (addr : Address)
  | setNonce (addr : Address) (nonce : UInt64)
  | getCodeHash (addr : Address)
  | getCode (addr : Address)
  | setCode (addr : Address) (code : Bytes)
  | getCodeSize (addr : Address)
  | addRefund (gas : Nat)
  | subRefund (gas : Nat)
  | getRefund
  | getCommittedState (addr : Address) (key : Hash)
  | getState (addr : Address) (key : Hash)
  | setState (addr : Address) (key value : Hash)
  | suicide (addr : Address)
  | hasSuicided (addr : Address)
  | exist (addr : Address)
  | empty (addr : Address)
  | addressInAccessList (addr : Address)
  | slotInAccessList (addr : Address) (slot : Hash)
  | addAddressToAccessList (addr : Address)
  | addSlotToAccessList (addr : Address) (slot : Hash)
  | revertToSnapshot (id : Nat)
  | snapshot
  | addLog (log : Log)
  | addPreimage (hash : Hash) (preimage : Bytes)
  /-- `CaptureStart`: the outermost call or creation starts running code at `dest`. -/
  | captureStart (src dest : Address) (create : Bool) (value : Nat)
  /-- `CaptureEnter`: an inner frame of kind `typ` starts. -/
  | captureEnter (typ : OpCode) (src dest : Address) (value : ℤ)
  /-- `CaptureState`: a frame running as `addr` is about to execute `op`. -/
  | captureState (op : OpCode) (addr : Address)

/-- What each method answers. -/
@[reducible] def StateOp.Res : StateOp → Type
  | getBalance _ => ℤ
  | getNonce _ => UInt64
  | getCodeHash _ => Hash
  | getCode _ => Bytes
  | getCodeSize _ => Nat
  | getRefund => Nat
  | getCommittedState _ _ => Hash
  | getState _ _ => Hash
  | suicide _ => Bool
  | hasSuicided _ => Bool
  | exist _ => Bool
  | empty _ => Bool
  | addressInAccessList _ => Bool
  | slotInAccessList _ _ => Bool × Bool
  | snapshot => Nat
  | _ => Unit

/-- The `StateDB` interface. -/
@[reducible] def StateInterface : Interface := ⟨StateOp, StateOp.Res⟩

/-- The ways an execution can crash: the panics of the code, and the runtime's own. -/
inductive Fault where
  /-- "impossible case: address was not present in access list during sstore op". -/
  | sstoreAddressNotPresent
  /-- "Refund counter below zero". -/
  | refundCounterBelowZero
  /-- "revision id cannot be reverted". -/
  | revisionCannotBeReverted
  /-- "invalid memory: store empty", and reads outside the store. -/
  | invalidMemory
  /-- A nil pointer is dereferenced. -/
  | nilPointer
  /-- A slice is indexed outside its range. -/
  | indexOutOfRange
  /-- "gas pool pushed above uint64". -/
  | gasPoolAboveUint64
  /-- The model's own bound on steps is exhausted. -/
  | outOfFuel
  deriving Repr, DecidableEq

/-- The crashes that code can run into by itself, without the state or the transaction. -/
@[simp] def Fault.isLocal : Fault → Bool
  | invalidMemory => true
  | nilPointer => true
  | indexOutOfRange => true
  | outOfFuel => true
  | _ => false

abbrev StateM := Prog StateInterface Fault

def ask (o : StateOp) : StateM o.Res := Prog.perform (I := StateInterface) o

/-- `Context.CanTransfer`: whether the account has the amount. -/
def canTransfer (addr : Address) (amount : Nat) : StateM Bool := do
  let balance ← ask (.getBalance addr)
  return decide ((amount : ℤ) ≤ balance)

/-- Whether the account can pay the amount, which is only asked for if there is one. -/
def canPay (addr : Address) (amount : Nat) : StateM Bool :=
  if amount ≠ 0 then canTransfer addr amount else return true

/-- `Context.Transfer`: move the amount. -/
def transfer (sender recipient : Address) (amount : Nat) : StateM Unit := do
  ask (.subBalance sender amount)
  ask (.addBalance recipient amount)

inductive VmError where
  | outOfGas
  | codeStoreOutOfGas
  | depth
  | insufficientBalance
  | contractAddressCollision
  | executionReverted
  | maxCodeSizeExceeded
  | invalidJump
  | writeProtection
  | returnDataOutOfBounds
  | gasUintOverflow
  | invalidCode
  | nonceUintOverflow
  | stackUnderflow (stackLen required : Nat)
  | stackOverflow (stackLen limit : Nat)
  | invalidOpCode (b : UInt8)
  deriving Repr, DecidableEq

end GoEntropy.Evm
