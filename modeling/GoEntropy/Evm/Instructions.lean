import GoEntropy.Evm.Scope

/-!
# Instructions

The execution functions of `instructions.go` and `eips.go`. Most instructions only rearrange their
own frame and are given as functions on scopes; `localOp` turns such a function into an instruction.
The rest are programs over the state, and the call and create instructions call back into the
virtual machine through `Callees`.

Reading an operand that is not there and writing outside the memory crash, as they do in the code;
the interpreter has validated the stack depth and resized the memory before it executes an
instruction.
-/

namespace GoEntropy.Evm

open Interaction

/-- `executionFunc`. -/
abbrev ExecutionFunc := EVM → Callees → Scope → EvmM ExecResult

/-- An instruction that only changes its own frame. -/
def localOp (f : EVM → Scope → Except Fault Scope) : ExecutionFunc := fun evm _ scope ↦
  match f evm scope with
  | .ok scope => return .next scope
  | .error e => crash e

/-! ## Arithmetic and logic -/

def unaryOp (f : Word → Word) : ExecutionFunc := localOp fun _ scope ↦
  match scope.stack with
  | x :: st => .ok { scope with stack := f x :: st }
  | _ => .error .indexOutOfRange

/-- Replace the two topmost words; the first argument is the top. -/
def binaryOp (f : Word → Word → Word) : ExecutionFunc := localOp fun _ scope ↦
  match scope.stack with
  | x :: y :: st => .ok { scope with stack := f x y :: st }
  | _ => .error .indexOutOfRange

def ternaryOp (f : Word → Word → Word → Word) : ExecutionFunc := localOp fun _ scope ↦
  match scope.stack with
  | x :: y :: z :: st => .ok { scope with stack := f x y z :: st }
  | _ => .error .indexOutOfRange

def boolWord (b : Bool) : Word := if b then 1 else 0

/-- `Exp`: the power of the `n` leading bits of the exponent, by repeated squaring. -/
def expWord (base exponent : Word) : Nat → Word
  | 0 => 1
  | n + 1 =>
    let r := expWord base exponent n
    r * r * (if exponent.getLsbD (255 - n) then base else 1)

/-- `ExtendSign`: extend the sign of the byte `back`. -/
def extendSign (num back : Word) : Word :=
  if back.toNat > 31 then num
  else
    let t := 248 - back.toNat * 8
    (num <<< t).sshiftRight t

def opAdd : ExecutionFunc := binaryOp fun x y ↦ x + y
def opSub : ExecutionFunc := binaryOp fun x y ↦ x - y
def opMul : ExecutionFunc := binaryOp fun x y ↦ x * y
def opDiv : ExecutionFunc := binaryOp fun x y ↦ if y = 0 then 0 else x.udiv y
def opSdiv : ExecutionFunc := binaryOp fun x y ↦ if y = 0 then 0 else x.sdiv y
def opMod : ExecutionFunc := binaryOp fun x y ↦ if y = 0 then 0 else x.umod y
def opSmod : ExecutionFunc := binaryOp fun x y ↦ if y = 0 then 0 else x.srem y
def opExp : ExecutionFunc := binaryOp fun base exponent ↦ expWord base exponent 256
def opSignExtend : ExecutionFunc := binaryOp fun back num ↦ extendSign num back
def opNot : ExecutionFunc := unaryOp fun x ↦ ~~~x
def opLt : ExecutionFunc := binaryOp fun x y ↦ boolWord (x.ult y)
def opGt : ExecutionFunc := binaryOp fun x y ↦ boolWord (y.ult x)
def opSlt : ExecutionFunc := binaryOp fun x y ↦ boolWord (x.slt y)
def opSgt : ExecutionFunc := binaryOp fun x y ↦ boolWord (y.slt x)
def opEq : ExecutionFunc := binaryOp fun x y ↦ boolWord (x == y)
def opIszero : ExecutionFunc := unaryOp fun x ↦ boolWord (x == 0)
def opAnd : ExecutionFunc := binaryOp fun x y ↦ x &&& y
def opOr : ExecutionFunc := binaryOp fun x y ↦ x ||| y
def opXor : ExecutionFunc := binaryOp fun x y ↦ x ^^^ y

/-- `opByte`: the `th`-th byte of `val`, most significant first. -/
def opByte : ExecutionFunc := binaryOp fun th val ↦
  if th.toNat < 32 then (val >>> (8 * (31 - th.toNat))) &&& 0xff else 0

def opAddmod : ExecutionFunc := ternaryOp fun x y z ↦
  if z = 0 then 0 else BitVec.ofNat 256 ((x.toNat + y.toNat) % z.toNat)

def opMulmod : ExecutionFunc := ternaryOp fun x y z ↦
  if z = 0 then 0 else BitVec.ofNat 256 (x.toNat * y.toNat % z.toNat)

def opSHL : ExecutionFunc := binaryOp fun shift value ↦
  if shift.toNat < 256 then value <<< shift.toNat else 0

def opSHR : ExecutionFunc := binaryOp fun shift value ↦
  if shift.toNat < 256 then value >>> shift.toNat else 0

def opSAR : ExecutionFunc := binaryOp fun shift value ↦
  if shift.toNat > 256 then (if value.msb then BitVec.allOnes 256 else 0)
  else value.sshiftRight shift.toNat

/-! ## Reading the environment -/

/-- Push a word read from the frame and the context. -/
def pushOp (f : EVM → Scope → Word) : ExecutionFunc := localOp fun evm scope ↦
  .ok { scope with stack := f evm scope :: scope.stack }

/-- Push a number behind a pointer that may be nil. -/
def pushPtrOp (f : EVM → Option Nat) : ExecutionFunc := localOp fun evm scope ↦
  match f evm with
  | some n => .ok { scope with stack := BitVec.ofNat 256 n :: scope.stack }
  | none => .error .nilPointer

def addressWord (a : Address) : Word := a.setWidth 256

def opAddress : ExecutionFunc := pushOp fun _ scope ↦ addressWord scope.contract.self
def opOrigin : ExecutionFunc := pushOp fun evm _ ↦ addressWord evm.txContext.origin
def opCaller : ExecutionFunc := pushOp fun _ scope ↦ addressWord scope.contract.callerAddress
def opCallValue : ExecutionFunc := pushOp fun _ scope ↦ BitVec.ofNat 256 scope.contract.value
def opCallDataSize : ExecutionFunc :=
  pushOp fun _ scope ↦ BitVec.ofNat 256 scope.contract.input.length
def opCodeSize : ExecutionFunc := pushOp fun _ scope ↦ BitVec.ofNat 256 scope.contract.code.length
def opGasprice : ExecutionFunc := pushOp fun evm _ ↦ BitVec.ofNat 256 evm.txContext.gasPrice
def opCoinbase : ExecutionFunc := pushOp fun evm _ ↦ addressWord evm.context.coinbase
def opTimestamp : ExecutionFunc := pushOp fun evm _ ↦ BitVec.ofNat 256 evm.context.time
def opNumber : ExecutionFunc := pushOp fun evm _ ↦ BitVec.ofNat 256 evm.context.blockNumber
def opDifficulty : ExecutionFunc := pushOp fun evm _ ↦ BitVec.ofNat 256 evm.context.difficulty
def opRandom : ExecutionFunc := pushPtrOp fun evm ↦ evm.context.random.map BitVec.toNat
def opGasLimit : ExecutionFunc := pushOp fun evm _ ↦ BitVec.ofNat 256 evm.context.gasLimit
def opBaseFee : ExecutionFunc := pushPtrOp fun evm ↦ evm.context.baseFee
def opChainID : ExecutionFunc := pushPtrOp fun evm ↦ evm.chainConfig.chainID
def opPc : ExecutionFunc := pushOp fun _ scope ↦ BitVec.ofNat 256 scope.pc
def opMsize : ExecutionFunc := pushOp fun _ scope ↦ BitVec.ofNat 256 scope.memory.len
def opGas : ExecutionFunc := pushOp fun _ scope ↦ BitVec.ofNat 256 scope.contract.gas

def opCallDataLoad : ExecutionFunc := localOp fun _ scope ↦
  match scope.stack with
  | x :: st =>
    let w := match uint64WithOverflow x with
      | some offset => bytesToHash (getData scope.contract.input offset 32)
      | none => 0
    .ok { scope with stack := w :: st }
  | _ => .error .indexOutOfRange

/-- `opBlockhash`: the hash of one of the 256 most recent blocks. -/
def opBlockhash : ExecutionFunc := localOp fun evm scope ↦
  match scope.stack with
  | num :: st =>
    let upper := wrap64 evm.context.blockNumber
    let lower := if upper < 257 then 0 else upper - 256
    let w := match uint64WithOverflow num with
      | some num64 => if lower ≤ num64 ∧ num64 < upper then evm.context.getHash num64 else 0
      | none => 0
    .ok { scope with stack := w :: st }
  | _ => .error .indexOutOfRange

/-! ## Stack, memory and control flow -/

def opPop : ExecutionFunc := localOp fun _ scope ↦
  match scope.stack with
  | _ :: st => .ok { scope with stack := st }
  | _ => .error .indexOutOfRange

/-- Write to the frame's memory. -/
def Scope.setMemory (scope : Scope) (st : Stack) (offset size : Nat) (value : Bytes) :
    Except Fault Scope :=
  match scope.memory.set offset size value with
  | some memory => .ok { scope with stack := st, memory := memory }
  | none => .error .invalidMemory

/-- The offset into a source of data; one that does not fit is past every end. -/
def dataOffset64 (w : Word) : Nat := (uint64WithOverflow w).getD maxUint64

def opCallDataCopy : ExecutionFunc := localOp fun _ scope ↦
  match scope.stack with
  | memOffset :: dataOffset :: length :: st =>
    scope.setMemory st (uint64 memOffset) (uint64 length)
      (getData scope.contract.input (dataOffset64 dataOffset) (uint64 length))
  | _ => .error .indexOutOfRange

def opCodeCopy : ExecutionFunc := localOp fun _ scope ↦
  match scope.stack with
  | memOffset :: codeOffset :: length :: st =>
    scope.setMemory st (uint64 memOffset) (uint64 length)
      (getData scope.contract.code (dataOffset64 codeOffset) (uint64 length))
  | _ => .error .indexOutOfRange

def opMload : ExecutionFunc := localOp fun _ scope ↦
  match scope.stack with
  | v :: st =>
    match scope.memory.getPtr (uint64 v) 32 with
    | some data => .ok { scope with stack := bytesToHash data :: st }
    | none => .error .invalidMemory
  | _ => .error .indexOutOfRange

/-- `opMstore`. `Set32` requires all thirty-two bytes to lie inside the store. -/
def opMstore : ExecutionFunc := localOp fun _ scope ↦
  match scope.stack with
  | mStart :: val :: st => scope.setMemory st (uint64 mStart) 32 (hashBytes val)
  | _ => .error .indexOutOfRange

def opMstore8 : ExecutionFunc := localOp fun _ scope ↦
  match scope.stack with
  | off :: val :: st => scope.setMemory st (uint64 off) 1 [UInt8.ofNat val.toNat]
  | _ => .error .indexOutOfRange

def opJumpdest : ExecutionFunc := localOp fun _ scope ↦ .ok scope

/-- `opPush1`. -/
def opPush1 : ExecutionFunc := localOp fun _ scope ↦
  let pc := add64 scope.pc 1
  let w : Word := match scope.contract.code[pc]? with
    | some b => BitVec.ofNat 256 b.toNat
    | none => 0
  .ok { scope with pc := pc, stack := w :: scope.stack }

/-- `makePush`: code that ends early is padded with zeros. -/
def makePush (size : Nat) : ExecutionFunc := localOp fun _ scope ↦
  let data := (scope.contract.code.drop (scope.pc + 1)).take size
  .ok { scope with
    pc := add64 scope.pc size
    stack := bytesToHash (rightPadBytes data size) :: scope.stack }

/-- `makeDup`. -/
def makeDup (size : Nat) : ExecutionFunc := localOp fun _ scope ↦
  match scope.stack[size - 1]? with
  | some w => .ok { scope with stack := w :: scope.stack }
  | none => .error .indexOutOfRange

/-- `makeSwap`: exchange the top with the word `size` below it. -/
def makeSwap (size : Nat) : ExecutionFunc := localOp fun _ scope ↦
  match scope.stack, scope.stack[size]? with
  | x :: _, some y => .ok { scope with stack := (scope.stack.set size x).set 0 y }
  | _, _ => .error .indexOutOfRange

/-- Jump to `pos` if it is a valid destination. The interpreter loop increments the counter. -/
def Scope.jumpTo (scope : Scope) (pos : Word) : EvmM ExecResult :=
  if scope.contract.validJumpdest pos then
    return .next { scope with pc := sub64 (uint64 pos) 1 }
  else
    return .halt scope [] (some .invalidJump)

def opJump : ExecutionFunc := fun evm _ scope ↦
  if evm.abort then return .halt scope [] none
  else
    match scope.stack with
    | pos :: st => Scope.jumpTo { scope with stack := st } pos
    | _ => crash .indexOutOfRange

def opJumpi : ExecutionFunc := fun evm _ scope ↦
  if evm.abort then return .halt scope [] none
  else
    match scope.stack with
    | pos :: cond :: st =>
      let scope := { scope with stack := st }
      if cond ≠ 0 then scope.jumpTo pos else return .next scope
    | _ => crash .indexOutOfRange

/-- Halt with a region of memory as the result. -/
def Scope.haltWith (scope : Scope) (offset size : Word) (err : Option VmError) : EvmM ExecResult :=
  match scope.memory.getPtr (uint64 offset) (uint64 size) with
  | some ret => return .halt scope ret err
  | none => crash .invalidMemory

def opStop : ExecutionFunc := fun _ _ scope ↦ return .halt scope [] none

def opReturn : ExecutionFunc := fun _ _ scope ↦
  match scope.stack with
  | offset :: size :: st => Scope.haltWith { scope with stack := st } offset size none
  | _ => crash .indexOutOfRange

def opRevert : ExecutionFunc := fun _ _ scope ↦
  match scope.stack with
  | offset :: size :: st =>
    match scope.memory.getPtr (uint64 offset) (uint64 size) with
    | some ret => do
      setReturnData ret
      return .halt { scope with stack := st } ret (some .executionReverted)
    | none => crash .invalidMemory
  | _ => crash .indexOutOfRange

/-- `opUndefined`. -/
def opUndefined : ExecutionFunc := fun _ _ scope ↦
  return .halt scope [] (some (.invalidOpCode (scope.contract.code.getD scope.pc 0)))

/-! ## Reading the state -/

/-- Replace the top of the stack by what the state answers about it. -/
def stateOp (f : Scope → Word → EvmM Word) : ExecutionFunc := fun _ _ scope ↦
  match scope.stack with
  | x :: st => do
    let w ← f scope x
    return .next { scope with stack := w :: st }
  | _ => crash .indexOutOfRange

def opBalance : ExecutionFunc := stateOp fun _ slot ↦ do
  let balance ← query (.getBalance (hashToAddress slot))
  return BitVec.ofInt 256 balance

def opExtCodeSize : ExecutionFunc := stateOp fun _ slot ↦ do
  let size ← query (.getCodeSize (hashToAddress slot))
  return BitVec.ofNat 256 size

def opExtCodeHash : ExecutionFunc := stateOp fun _ slot ↦ do
  let isEmpty ← query (.empty (hashToAddress slot))
  if isEmpty then return 0 else query (.getCodeHash (hashToAddress slot))

def opSload : ExecutionFunc := stateOp fun scope loc ↦ query (.getState scope.contract.self loc)

def opSelfBalance : ExecutionFunc := fun _ _ scope ↦ do
  let balance ← query (.getBalance scope.contract.self)
  return .next { scope with stack := BitVec.ofInt 256 balance :: scope.stack }

def opExtCodeCopy : ExecutionFunc := fun _ _ scope ↦
  match scope.stack with
  | a :: memOffset :: codeOffset :: length :: st => do
    let code ← query (.getCode (hashToAddress a))
    match scope.setMemory st (uint64 memOffset) (uint64 length)
        (getData code (dataOffset64 codeOffset) (uint64 length)) with
    | .ok scope => return .next scope
    | .error e => crash e
  | _ => crash .indexOutOfRange

/-- `opKeccak256`, which records the preimage if configured. -/
def opKeccak256 : ExecutionFunc := fun evm _ scope ↦
  match scope.stack with
  | offset :: size :: st =>
    match scope.memory.getPtr (uint64 offset) (uint64 size) with
    | some data => do
      let hash := evm.crypto.keccak256 data
      if evm.config.enablePreimageRecording then
        query (.addPreimage hash data)
      return .next { scope with stack := hash :: st }
    | none => crash .invalidMemory
  | _ => crash .indexOutOfRange

def opReturnDataSize : ExecutionFunc := fun _ _ scope ↦ do
  let returnData ← readRegister (·.returnData)
  return .next { scope with stack := BitVec.ofNat 256 returnData.length :: scope.stack }

def opReturnDataCopy : ExecutionFunc := fun _ _ scope ↦
  match scope.stack with
  | memOffset :: dataOffset :: length :: st => do
    let returnData ← readRegister (·.returnData)
    match uint64WithOverflow dataOffset, uint64WithOverflow (dataOffset + length) with
    | some offset64, some end64 =>
      if returnData.length < end64 then
        return .halt { scope with stack := st } [] (some .returnDataOutOfBounds)
      else if end64 < offset64 then
        crash .indexOutOfRange
      else
        match scope.setMemory st (uint64 memOffset) (uint64 length)
            ((returnData.drop offset64).take (end64 - offset64)) with
        | .ok scope => return .next scope
        | .error e => crash e
    | _, _ => return .halt { scope with stack := st } [] (some .returnDataOutOfBounds)
  | _ => crash .indexOutOfRange

/-! ## Changing the state -/

/-- An instruction that fails in a read-only frame. -/
def writeOp (f : ExecutionFunc) : ExecutionFunc := fun evm callees scope ↦ do
  let readOnly ← readRegister (·.readOnly)
  if readOnly then return .halt scope [] (some .writeProtection) else f evm callees scope

def opSstore : ExecutionFunc := writeOp fun _ _ scope ↦
  match scope.stack with
  | loc :: val :: st => do
    query (.setState scope.contract.self loc val)
    return .next { scope with stack := st }
  | _ => crash .indexOutOfRange

/-- `makeLog`. -/
def makeLog (size : Nat) : ExecutionFunc := writeOp fun evm _ scope ↦
  match scope.stack with
  | mStart :: mSize :: st =>
    if st.length < size then crash .indexOutOfRange
    else
      match scope.memory.getPtr (uint64 mStart) (uint64 mSize) with
      | some d => do
        query (.addLog ⟨scope.contract.self, st.take size, d, wrap64 evm.context.blockNumber⟩)
        return .next { scope with stack := st.drop size }
      | none => crash .invalidMemory
  | _ => crash .indexOutOfRange

/-- The effect of `SELFDESTRUCT`: the balance is credited to the beneficiary before the account is
emptied. -/
def destruct (self beneficiary : Address) : EvmM Unit := do
  let balance ← query (.getBalance self)
  query (.addBalance beneficiary balance)
  let _ ← query (.suicide self)
  query (.captureEnter .selfdestruct self beneficiary balance)

def opSelfdestruct : ExecutionFunc := writeOp fun _ _ scope ↦
  match scope.stack with
  | beneficiary :: st => do
    destruct scope.contract.self (hashToAddress beneficiary)
    return .halt { scope with stack := st } [] none
  | _ => crash .indexOutOfRange

/-! ## Calls and creations -/

/-- The last part of every call instruction: push whether it succeeded, copy the returned data, take
back the gas left over and remember the data. -/
def finishCall (scope : Scope) (st : Stack) (retOffset retSize : Word) (r : CallResult) :
    EvmM ExecResult :=
  let memory :=
    if r.err = none ∨ r.err = some .executionReverted then
      scope.memory.set (uint64 retOffset) (uint64 retSize) r.ret
    else some scope.memory
  match memory with
  | none => crash .invalidMemory
  | some memory => do
    setReturnData r.ret
    return .next { scope with
      stack := boolWord r.err.isNone :: st
      memory := memory
      contract := { scope.contract with gas := add64 scope.contract.gas r.leftOverGas } }

/-- The stipend added to the gas of a call that sends value. -/
def withStipend (gas : Nat) (value : Word) : Nat :=
  if value ≠ 0 then add64 gas Params.callStipend else gas

/-- A call instruction starts by reading the gas that its gas function has stored. -/
def callOp (f : Nat → Callees → Scope → EvmM ExecResult) : ExecutionFunc := fun _ callees scope ↦ do
  let gas ← readRegister (·.callGasTemp)
  f gas callees scope

/-- `opCall`, once the gas is known. -/
def callWithGas (gas : Nat) (callees : Callees) (scope : Scope) : EvmM ExecResult :=
  match scope.stack with
  | _ :: addr :: value :: inOffset :: inSize :: retOffset :: retSize :: st =>
    match scope.memory.getPtr (uint64 inOffset) (uint64 inSize) with
    | none => crash .invalidMemory
    | some args => do
      let readOnly ← readRegister (·.readOnly)
      if readOnly ∧ value ≠ 0 then
        return .halt { scope with stack := st } [] (some .writeProtection)
      else do
        let r ← callees.call scope.contract.self (hashToAddress addr) args (withStipend gas value)
          value.toNat
        finishCall scope st retOffset retSize r
  | _ => crash .indexOutOfRange

def opCall : ExecutionFunc := callOp callWithGas

/-- `opCallCode`, once the gas is known. -/
def callCodeWithGas (gas : Nat) (callees : Callees) (scope : Scope) : EvmM ExecResult :=
  match scope.stack with
  | _ :: addr :: value :: inOffset :: inSize :: retOffset :: retSize :: st =>
    match scope.memory.getPtr (uint64 inOffset) (uint64 inSize) with
    | none => crash .invalidMemory
    | some args => do
      let r ← callees.callCode scope.contract.self (hashToAddress addr) args
        (withStipend gas value) value.toNat
      finishCall scope st retOffset retSize r
  | _ => crash .indexOutOfRange

def opCallCode : ExecutionFunc := callOp callCodeWithGas

/-- `opDelegateCall`, once the gas is known. -/
def delegateCallWithGas (gas : Nat) (callees : Callees) (scope : Scope) : EvmM ExecResult :=
  match scope.stack with
  | _ :: addr :: inOffset :: inSize :: retOffset :: retSize :: st =>
    match scope.memory.getPtr (uint64 inOffset) (uint64 inSize) with
    | none => crash .invalidMemory
    | some args => do
      let r ← callees.delegateCall scope.contract (hashToAddress addr) args gas
      finishCall scope st retOffset retSize r
  | _ => crash .indexOutOfRange

def opDelegateCall : ExecutionFunc := callOp delegateCallWithGas

/-- `opStaticCall`, once the gas is known. -/
def staticCallWithGas (gas : Nat) (callees : Callees) (scope : Scope) : EvmM ExecResult :=
  match scope.stack with
  | _ :: addr :: inOffset :: inSize :: retOffset :: retSize :: st =>
    match scope.memory.getPtr (uint64 inOffset) (uint64 inSize) with
    | none => crash .invalidMemory
    | some args => do
      let r ← callees.staticCall scope.contract.self (hashToAddress addr) args gas
      finishCall scope st retOffset retSize r
  | _ => crash .indexOutOfRange

def opStaticCall : ExecutionFunc := callOp staticCallWithGas

/-- The last part of both create instructions; only the data of a reverted creation is kept. -/
def finishCreate (scope : Scope) (st : Stack) (ok : Bool) (r : CreateResult) : EvmM ExecResult := do
  setReturnData (if r.err = some .executionReverted then r.ret else [])
  return .next { scope with
    stack := (if ok then addressWord r.contractAddr else 0) :: st
    contract := { scope.contract with gas := add64 scope.contract.gas r.leftOverGas } }

def Scope.deductGas (scope : Scope) (gas : Nat) : Scope :=
  { scope with contract := { scope.contract with gas := scope.contract.gas - gas } }

/-- `opCreate`. Before Homestead running out of gas while storing the code counts as success. -/
def opCreate : ExecutionFunc := writeOp fun evm callees scope ↦
  match scope.stack with
  | value :: offset :: size :: st =>
    match scope.memory.getPtr (uint64 offset) (uint64 size) with
    | none => crash .invalidMemory
    | some input => do
      let available := scope.contract.gas
      let gas := if evm.chainRules.isEIP150 then available - available / 64 else available
      let r ← callees.create scope.contract.self input gas value.toNat
      let ok := r.err = none ∨ (!evm.chainRules.isHomestead ∧ r.err = some .codeStoreOutOfGas)
      finishCreate (scope.deductGas gas) st (decide ok) r
  | _ => crash .indexOutOfRange

/-- `opCreate2`. -/
def opCreate2 : ExecutionFunc := writeOp fun _ callees scope ↦
  match scope.stack with
  | endowment :: offset :: size :: salt :: st =>
    match scope.memory.getPtr (uint64 offset) (uint64 size) with
    | none => crash .invalidMemory
    | some input => do
      let available := scope.contract.gas
      let gas := available - available / 64
      let r ← callees.create2 scope.contract.self input gas endowment.toNat salt
      finishCreate (scope.deductGas gas) st r.err.isNone r
  | _ => crash .indexOutOfRange

end GoEntropy.Evm
