import GoEntropy.Config.ChainConfig
import GoEntropy.Evm.Interface

/-!
# The virtual machine's data

`EVM` is the part of the virtual machine that stays fixed while a message runs: the block and
transaction contexts, the chain rules and the configuration. `Machine` is the part that every frame
of the call stack shares and changes. A `Scope` is one frame: program counter, stack, memory and
contract.

An instruction is a program over the state with access to the shared machine, `EvmM`.
-/

namespace GoEntropy.Evm

open Interaction

/-! ## Fixed context -/

/-- `BlockContext`, with the standard transfer functions. -/
structure BlockContext where
  getHash : Nat → Hash
  coinbase : Address
  gasLimit : Nat
  blockNumber : Nat
  time : Nat
  difficulty : Nat
  baseFee : Option Nat
  random : Option Hash

/-- `TxContext`. -/
structure TxContext where
  origin : Address
  gasPrice : Nat

/-- The options of `Config` that change what an execution does. -/
structure VmConfig where
  noBaseFee : Bool
  enablePreimageRecording : Bool

/-- The fields of `EVM` that no instruction changes. -/
structure EVM where
  crypto : Crypto
  context : BlockContext
  txContext : TxContext
  chainConfig : ChainConfig
  config : VmConfig
  /-- Whether `Cancel` has been called. -/
  abort : Bool

/-- `chainRules`: the merge is announced by the presence of a random value. -/
def EVM.chainRules (evm : EVM) : Rules :=
  evm.chainConfig.rules evm.context.blockNumber evm.context.random.isSome

/-! ## Shared registers -/

/-- The mutable fields of `EVM` and `EVMInterpreter`. -/
structure Machine where
  depth : Nat
  readOnly : Bool
  returnData : Bytes
  callGasTemp : Nat
  deriving Repr, DecidableEq

/-- The registers of a new virtual machine. -/
def Machine.init : Machine := ⟨0, false, [], 0⟩

/-- A program over the state and the shared registers. -/
abbrev EvmM := StateT Machine StateM

def query (o : StateOp) : EvmM o.Res := fun m ↦ (fun r ↦ (r, m)) <$> ask o

def readRegister {α : Type} (f : Machine → α) : EvmM α := fun m ↦ pure (f m, m)

theorem readRegister_bind {α β : Type} (f : Machine → α) (k : α → EvmM β) (m : Machine) :
    (readRegister f >>= k) m = k (f m) m := rfl

def setReturnData (data : Bytes) : EvmM Unit := fun m ↦ pure ((), { m with returnData := data })

def crash {α : Type} (e : Fault) : EvmM α := fun _ ↦ Prog.fault e

/-! ## Contracts -/

/-- `Contract`. The jump destination analysis is a function of the code (`codeBitmap`) and is not
cached here. -/
structure Contract where
  callerAddress : Address
  self : Address
  code : Bytes
  codeHash : Hash
  codeAddr : Option Address
  input : Bytes
  gas : Nat
  value : Nat
  deriving Repr, DecidableEq

/-- `UseGas`: the contract with the gas deducted, if it has as much. -/
def Contract.useGas (c : Contract) (gas : Nat) : Option Contract :=
  if c.gas < gas then none else some { c with gas := c.gas - gas }

/-- `GetOp`: code is followed by an infinite run of `STOP`. -/
def Contract.getOp (c : Contract) (n : Nat) : OpCode :=
  match c.code[n]? with
  | some b => OpCode.ofByte b
  | none => .stop

/-- `codeBitmap`: which bytes are instructions rather than the data of a preceding push, of which
`skip` bytes are still ahead. -/
def codeBitmap : Bytes → Nat → List Bool
  | [], _ => []
  | b :: code, 0 =>
    true :: codeBitmap code (if 0x60 ≤ b.toNat ∧ b.toNat ≤ 0x7f then b.toNat - 0x5f else 0)
  | _ :: code, skip + 1 => false :: codeBitmap code skip

/-- `validJumpdest`. -/
def Contract.validJumpdest (c : Contract) (dest : Word) : Bool :=
  if 2 ^ 64 ≤ dest.toNat then false
  else
    match c.code[dest.toNat]? with
    | none => false
    | some b => b == 0x5b && (codeBitmap c.code 0).getD dest.toNat false

/-! ## Memory -/

/-- `Memory`. -/
structure Memory where
  store : Bytes
  lastGasCost : Nat
  deriving Repr, DecidableEq

namespace Memory

/-- `NewMemory`. -/
def empty : Memory := ⟨[], 0⟩

/-- `Len`. -/
def len (m : Memory) : Nat := m.store.length

/-- Overwrite the bytes from `offset` on, as far as `value` reaches. -/
def overwrite (store : Bytes) (offset : Nat) (value : Bytes) : Bytes :=
  store.take offset ++ value ++ store.drop (offset + value.length)

/-- `Set`: copy at most `size` bytes of `value`; `none` where the code panics. A sum that wraps passes
the code's own check, and then the slice expression panics. -/
def set (m : Memory) (offset size : Nat) (value : Bytes) : Option Memory :=
  if size = 0 then some m
  else if offset + size > m.len then none
  else some { m with store := overwrite m.store offset (value.take size) }

/-- `Resize`. -/
def resize (m : Memory) (size : Nat) : Memory :=
  if m.len < size then { m with store := m.store ++ List.replicate (size - m.len) 0 } else m

/-- `GetPtr` and `GetCopy`: `size` bytes from `offset`, nothing if the offset is past the end;
`none` where the slice expression panics. The parameters of the code are `int64`, so an offset of
more than 63 bits is negative. -/
def getPtr (m : Memory) (offset size : Nat) : Option Bytes :=
  if size = 0 then some []
  else if 2 ^ 63 ≤ offset then none
  else if offset < m.len then
    if offset + size ≤ m.len then some ((m.store.drop offset).take size) else none
  else some []

end Memory

/-- `getData`: `size` bytes of `data` from `start`, padded with zeros on the right. -/
def getData (data : Bytes) (start size : Nat) : Bytes :=
  rightPadBytes ((data.drop start).take size) size

/-- `toWordSize`: the ceiled number of words. -/
def toWordSize (size : Nat) : Nat :=
  if size > maxUint64 - 31 then maxUint64 / 32 + 1 else (size + 31) / 32

/-! ## Frames -/

/-- The operand stack, top first. -/
abbrev Stack := List Word

/-- `stack.Back`: the `n`-th word from the top. The stack depth has been validated before any
operand is read. -/
def Stack.back (s : Stack) (n : Nat) : Word := s.getD n 0

/-- The low 64 bits of a word. -/
def uint64 (w : Word) : Nat := wrap64 w.toNat

/-- `Uint64WithOverflow`, with `none` for an overflow. -/
def uint64WithOverflow (w : Word) : Option Nat :=
  if w.toNat < 2 ^ 64 then some w.toNat else none

/-- `ScopeContext` with the program counter: one frame of the call stack. -/
structure Scope where
  pc : Nat
  stack : Stack
  memory : Memory
  contract : Contract

/-- What an instruction leaves behind: the frame goes on, or it halts with data and an error (`none`
for the stop token). -/
inductive ExecResult where
  | next (scope : Scope)
  | halt (scope : Scope) (res : Bytes) (err : Option VmError)

/-- The outcome of a call: the returned data, the gas left and the error. -/
structure CallResult where
  ret : Bytes
  leftOverGas : Nat
  err : Option VmError
  deriving Repr, DecidableEq

structure CreateResult where
  ret : Bytes
  contractAddr : Address
  leftOverGas : Nat
  err : Option VmError
  deriving Repr, DecidableEq

/-- The entry points of the virtual machine that instructions call back into. -/
structure Callees where
  /-- `EVM.Call` of a caller's address. -/
  call : Address → Address → Bytes → Nat → Nat → EvmM CallResult
  /-- `EVM.CallCode`. -/
  callCode : Address → Address → Bytes → Nat → Nat → EvmM CallResult
  /-- `EVM.DelegateCall`, which inherits caller and value of the calling contract. -/
  delegateCall : Contract → Address → Bytes → Nat → EvmM CallResult
  /-- `EVM.StaticCall`. -/
  staticCall : Address → Address → Bytes → Nat → EvmM CallResult
  /-- `EVM.Create`. -/
  create : Address → Bytes → Nat → Nat → EvmM CreateResult
  /-- `EVM.Create2`. -/
  create2 : Address → Bytes → Nat → Nat → Word → EvmM CreateResult

end GoEntropy.Evm
