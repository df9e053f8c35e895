import GoEntropy.Evm.JumpTable

/-!
# The interpreter and the entry points

The interpreter's loop, and the five ways into it: `Call`, `CallCode`, `DelegateCall`, `StaticCall`
and `create`. Instructions call back into these, so the definitions are tied together by a bound on
nesting (`runner`): code at the call depth limit cannot enter another frame, and `CallCreateDepth + 1`
levels are all there are. The loop of one frame is bounded by its gas, of which every instruction
that does not halt uses some.
-/

namespace GoEntropy.Evm

open Interaction

/-! ## Precompiled contracts -/

/-- `PrecompiledContract`. None of the four contracts returns an error. -/
structure PrecompiledContract where
  requiredGas : Bytes → Nat
  run : Bytes → Bytes

/-- The price of a contract that is charged per word of its input. -/
def perWordGas (perWord base : Nat) (input : Bytes) : Nat :=
  (input.length + 31) / 32 * perWord + base

/-- `ecrecover.Run`. -/
def ecrecoverRun (C : Crypto) (input : Bytes) : Bytes :=
  let input := rightPadBytes input 128
  let slice (i j : Nat) : Bytes := (input.drop i).take (j - i)
  let r := setBytes (slice 64 96)
  let s := setBytes (slice 96 128)
  let v := input.getD 63 0 - 27
  if !(slice 32 63).all (· == 0) || !validateSignatureValues v r s false then []
  else
    match C.ecrecover (bytesToHash (slice 0 32)) (slice 64 128 ++ [v]) with
    | none => []
    | some pubKey =>
      leftPadBytes (addressBytes (hashToAddress (C.keccak256 (pubKey.drop 1)))) 32

/-- `precompile`: the contracts of `PrecompiledContractsHomestead`, whatever the fork. -/
def EVM.precompile (evm : EVM) (addr : Address) : Option PrecompiledContract :=
  match addr.toNat with
  | 1 => some ⟨fun _ ↦ Params.ecrecoverGas, ecrecoverRun evm.crypto⟩
  | 2 => some ⟨perWordGas Params.sha256PerWordGas Params.sha256BaseGas, evm.crypto.sha256⟩
  | 3 =>
    some ⟨perWordGas Params.ripemd160PerWordGas Params.ripemd160BaseGas,
      fun input ↦ leftPadBytes (evm.crypto.ripemd160 input) 32⟩
  | 4 => some ⟨perWordGas Params.identityPerWordGas Params.identityBaseGas, fun input ↦ input⟩
  | _ => none

/-- `RunPrecompiledContract`. -/
def runPrecompiledContract (p : PrecompiledContract) (input : Bytes) (suppliedGas : Nat) :
    CallResult :=
  if suppliedGas < p.requiredGas input then ⟨[], 0, some .outOfGas⟩
  else ⟨p.run input, suppliedGas - p.requiredGas input, none⟩

/-! ## The interpreter loop -/

/-- The memory an instruction needs, in bytes of whole words; `none` for an overflow. -/
def Operation.requiredMemory (operation : Operation) (stack : Stack) : Option Nat :=
  match operation.memorySize with
  | none => some 0
  | some memorySize => do
    let memSize ← memorySize stack
    safeMul (toWordSize memSize) 32

def Operation.traceExecute (operation : Operation) (evm : EVM) (callees : Callees) (op : OpCode)
    (scope : Scope) : EvmM ExecResult := do
  query (.captureState op scope.contract.self)
  operation.execute evm callees scope

/-- Charge the dynamic price, if there is one, expand the memory and execute. -/
def Operation.payDynamic (operation : Operation) (evm : EVM) (callees : Callees) (op : OpCode)
    (scope : Scope) (memorySize : Nat) : Option (Nat × Memory) → EvmM ExecResult
  | none => return .halt scope [] (some .outOfGas)
  | some (dynamicCost, memory) =>
    match scope.contract.useGas dynamicCost with
    | none => return .halt scope [] (some .outOfGas)
    | some contract =>
      operation.traceExecute evm callees op
        { scope with contract := contract, memory := memory.resize memorySize }

/-- Compute the dynamic price and charge it. -/
def Operation.executeDynamic (operation : Operation) (dynamicGas : GasFunc) (evm : EVM)
    (callees : Callees) (op : OpCode) (scope : Scope) : EvmM ExecResult :=
  match operation.requiredMemory scope.stack with
  | none => return .halt scope [] (some .gasUintOverflow)
  | some memorySize => do
    let cost ← dynamicGas evm scope.contract scope.stack scope.memory memorySize
    operation.payDynamic evm callees op scope memorySize cost

/-- The rest of an iteration, after the constant price has been paid. -/
def Operation.executePaid (operation : Operation) (evm : EVM) (callees : Callees) (op : OpCode)
    (scope : Scope) : EvmM ExecResult :=
  match operation.dynamicGas with
  | some dynamicGas => operation.executeDynamic dynamicGas evm callees op scope
  | none => operation.traceExecute evm callees op scope

/-- One iteration of the loop in `Run`. -/
def step (evm : EVM) (jt : JumpTable) (callees : Callees) (scope : Scope) : EvmM ExecResult :=
  let op := scope.contract.getOp scope.pc
  let operation := jt op
  let sLen := scope.stack.length
  if sLen < operation.minStack then
    return .halt scope [] (some (.stackUnderflow sLen operation.minStack))
  else if sLen > operation.maxStack then
    return .halt scope [] (some (.stackOverflow sLen operation.maxStack))
  else
    match scope.contract.useGas operation.constantGas with
    | none => return .halt scope [] (some .outOfGas)
    | some contract => operation.executePaid evm callees op { scope with contract := contract }

/-- The main loop: step until the frame halts. The number of steps is bounded so that the loop is a
function. -/
def runLoop (evm : EVM) (jt : JumpTable) (callees : Callees) : Nat → Scope → EvmM CallResult
  | 0, _ => crash .outOfFuel
  | fuel + 1, scope => do
    match ← step evm jt callees scope with
    | .next scope => runLoop evm jt callees fuel { scope with pc := add64 scope.pc 1 }
    | .halt scope res err => return ⟨res, scope.contract.gas, err⟩

/-- What `Run` does before the loop: one frame deeper, read-only if asked for, no returned data. The
answer is whether this frame entered read-only mode. -/
def enterFrame (readOnly : Bool) : EvmM Bool := fun m ↦
  pure (readOnly && !m.readOnly,
    { m with depth := m.depth + 1, readOnly := m.readOnly || readOnly, returnData := [] })

/-- What `Run` does after the loop: read-only mode is left by the frame that entered it. -/
def leaveFrame (entered : Bool) : EvmM Unit := fun m ↦
  pure ((), { m with depth := m.depth - 1, readOnly := if entered then false else m.readOnly })

/-- A bound on the steps of one loop. Every step that does not end the loop costs gas, and gas is a
64-bit number. -/
def maxSteps : Nat := 2 ^ 64

/-- What `Run` does inside the frame: nothing if there is no code. -/
def EVM.frameCode (evm : EVM) (jt : JumpTable) (callees : Callees) (contract : Contract)
    (input : Bytes) : EvmM CallResult :=
  if contract.code.length = 0 then return ⟨[], contract.gas, none⟩
  else runLoop evm jt callees maxSteps ⟨0, [], Memory.empty, { contract with input := input }⟩

/-- `EVMInterpreter.Run`: enter a frame, run its code, leave it. -/
def run (evm : EVM) (jt : JumpTable) (callees : Callees) (contract : Contract) (input : Bytes)
    (readOnly : Bool) : EvmM CallResult := do
  let entered ← enterFrame readOnly
  let r ← evm.frameCode jt callees contract input
  leaveFrame entered
  return r

/-! ## Entering frames -/

/-- How an entry point runs code: `EVMInterpreter.Run`. -/
abbrev Runner := Contract → Bytes → Bool → EvmM CallResult

/-- A program over the state, as one over the state and the registers. -/
def lift {α : Type} (x : StateM α) : EvmM α := fun m ↦ (fun a ↦ (a, m)) <$> x

/-- What every call does with a failed frame: undo its effects, and take its gas unless it reverted
on purpose. -/
def settleCall (snapshot : Nat) (r : CallResult) : EvmM CallResult :=
  match r.err with
  | none => return r
  | some err => do
    query (.revertToSnapshot snapshot)
    return { r with leftOverGas := if err = .executionReverted then r.leftOverGas else 0 }

/-- The tracer event for a frame that starts at `dest`. -/
def captureFrame (typ : OpCode) (create : Bool) (src dest : Address) (value : Nat) :
    EvmM Unit := do
  let depth ← readRegister (·.depth)
  if depth = 0 then query (.captureStart src dest create value)
  else query (.captureEnter typ src dest value)

/-- The code part of a call: a precompiled contract, nothing, or the callee's code. -/
def EVM.callBody (evm : EVM) (runner : Runner) (caller addr : Address) (input : Bytes)
    (gas value : Nat) : EvmM CallResult :=
  match evm.precompile addr with
  | some p => return runPrecompiledContract p input gas
  | none => do
    let code ← query (.getCode addr)
    if code.length = 0 then return ⟨[], gas, none⟩
    else do
      let codeHash ← query (.getCodeHash addr)
      runner ⟨caller, addr, code, codeHash, some addr, [], gas, value⟩ input false

/-- The part of `Call` after the checks. A call without value to an account that does not exist does
nothing at all. -/
def EVM.enterCall (evm : EVM) (runner : Runner) (caller addr : Address) (input : Bytes)
    (gas value : Nat) : EvmM CallResult := do
  let snapshot ← query .snapshot
  let present ← query (.exist addr)
  if !present ∧ (evm.precompile addr).isNone ∧ value = 0 then do
    captureFrame .call false caller addr value
    return ⟨[], gas, none⟩
  else do
    if !present then
      query (.createAccount addr)
    lift (transfer caller addr value)
    captureFrame .call false caller addr value
    let r ← evm.callBody runner caller addr input gas value
    settleCall snapshot r

/-- `EVM.Call`. -/
def EVM.call (evm : EVM) (runner : Runner) (caller addr : Address) (input : Bytes)
    (gas value : Nat) : EvmM CallResult := do
  let depth ← readRegister (·.depth)
  if depth > Params.callCreateDepth then return ⟨[], gas, some .depth⟩
  else do
    let ok ← lift (canPay caller value)
    if ok then evm.enterCall runner caller addr input gas value
    else return ⟨[], gas, some .insufficientBalance⟩

/-- The code part of the calls that always run the callee's code in a frame, be it empty. -/
def EVM.frameBody (evm : EVM) (runner : Runner) (addr : Address) (contract : Contract)
    (input : Bytes) (readOnly : Bool) : EvmM CallResult :=
  match evm.precompile addr with
  | some p => return runPrecompiledContract p input contract.gas
  | none => do
    let codeHash ← query (.getCodeHash addr)
    let code ← query (.getCode addr)
    runner { contract with code := code, codeHash := codeHash, codeAddr := some addr } input readOnly

/-- `EVM.CallCode`: the callee's code in the caller's context. -/
def EVM.callCode (evm : EVM) (runner : Runner) (caller addr : Address) (input : Bytes)
    (gas value : Nat) : EvmM CallResult := do
  let depth ← readRegister (·.depth)
  if depth > Params.callCreateDepth then return ⟨[], gas, some .depth⟩
  else do
    let ok ← lift (canTransfer caller value)
    if ok then do
      let snapshot ← query .snapshot
      query (.captureEnter .callCode caller addr value)
      let r ← evm.frameBody runner addr ⟨caller, caller, [], 0, none, [], gas, value⟩ input false
      settleCall snapshot r
    else return ⟨[], gas, some .insufficientBalance⟩

/-- `EVM.DelegateCall`: the callee's code as if the caller's own code continued. -/
def EVM.delegateCall (evm : EVM) (runner : Runner) (parent : Contract) (addr : Address)
    (input : Bytes) (gas : Nat) : EvmM CallResult := do
  let depth ← readRegister (·.depth)
  if depth > Params.callCreateDepth then return ⟨[], gas, some .depth⟩
  else do
    let snapshot ← query .snapshot
    query (.captureEnter .delegateCall parent.self addr 0)
    let r ← evm.frameBody runner addr
      ⟨parent.callerAddress, parent.self, [], 0, none, [], gas, parent.value⟩ input false
    settleCall snapshot r

/-- `EVM.StaticCall`: a call that may not change the state; the callee is touched by adding nothing
to its balance. -/
def EVM.staticCall (evm : EVM) (runner : Runner) (caller addr : Address) (input : Bytes)
    (gas : Nat) : EvmM CallResult := do
  let depth ← readRegister (·.depth)
  if depth > Params.callCreateDepth then return ⟨[], gas, some .depth⟩
  else do
    let snapshot ← query .snapshot
    query (.addBalance addr 0)
    query (.captureEnter .staticCall caller addr 0)
    let r ← evm.frameBody runner addr ⟨caller, addr, [], 0, none, [], gas, 0⟩ input true
    settleCall snapshot r

/-! ## Creating contracts -/

/-- The checks on the code a constructor returned. -/
def EVM.checkCode (evm : EVM) (r : CallResult) : Option VmError :=
  match r.err with
  | some err => some err
  | none =>
    if r.ret.length > Params.maxCodeSize then some .maxCodeSizeExceeded
    else if r.ret.head? = some 0xEF ∧ evm.chainRules.isLondon then some .invalidCode
    else none

/-- Pay for and store the code a constructor returned. -/
def EVM.storeCode (evm : EVM) (address : Address) (r : CallResult) : EvmM CallResult :=
  match evm.checkCode r with
  | some err => return { r with err := some err }
  | none =>
    let createDataGas := wrap64 (r.ret.length * Params.createDataGas)
    if r.leftOverGas < createDataGas then return { r with err := some .codeStoreOutOfGas }
    else do
      query (.setCode address r.ret)
      return { r with leftOverGas := r.leftOverGas - createDataGas }

/-- What a creation does with a failed constructor. Before Homestead, running out of gas while
storing the code is not undone. -/
def EVM.settleCreate (evm : EVM) (snapshot : Nat) (r : CallResult) : EvmM CallResult :=
  match r.err with
  | none => return r
  | some err =>
    if evm.chainRules.isHomestead ∨ err ≠ .codeStoreOutOfGas then settleCall snapshot r
    else return r

/-- The part of `create` after the checks. -/
def EVM.enterCreate (evm : EVM) (runner : Runner) (caller : Address) (code : Bytes) (codeHash : Hash)
    (gas value : Nat) (address : Address) (typ : OpCode) : EvmM CreateResult := do
  let snapshot ← query .snapshot
  query (.createAccount address)
  lift (transfer caller address value)
  captureFrame typ true caller address value
  let r ← runner ⟨caller, address, code, codeHash, some address, [], gas, value⟩ [] false
  let r ← evm.storeCode address r
  let r ← evm.settleCreate snapshot r
  return ⟨r.ret, address, r.leftOverGas, r.err⟩

/-- `EVM.create`. The caller's nonce is raised even if the address turns out to be taken, and a taken
address consumes all gas. -/
def EVM.createAt (evm : EVM) (runner : Runner) (caller : Address) (code : Bytes) (codeHash : Hash)
    (gas value : Nat) (address : Address) (typ : OpCode) : EvmM CreateResult := do
  let depth ← readRegister (·.depth)
  if depth > Params.callCreateDepth then return ⟨[], 0, gas, some .depth⟩
  else do
    let ok ← lift (canTransfer caller value)
    if !ok then return ⟨[], 0, gas, some .insufficientBalance⟩
    else do
      let nonce ← query (.getNonce caller)
      if nonce + 1 < nonce then return ⟨[], 0, gas, some .nonceUintOverflow⟩
      else do
        query (.setNonce caller (nonce + 1))
        let contractHash ← query (.getCodeHash address)
        let taken ← query (.getNonce address)
        if taken ≠ 0 ∨ (contractHash ≠ 0 ∧ contractHash ≠ evm.crypto.emptyCodeHash) then
          return ⟨[], 0, 0, some .contractAddressCollision⟩
        else evm.enterCreate runner caller code codeHash gas value address typ

/-- `EVM.Create`. -/
def EVM.create (evm : EVM) (runner : Runner) (caller : Address) (code : Bytes) (gas value : Nat) :
    EvmM CreateResult := do
  let nonce ← query (.getNonce caller)
  let contractAddr := evm.crypto.createAddress caller nonce.toNat
  evm.createAt runner caller code 0 gas value contractAddr .create

/-- `EVM.Create2`. -/
def EVM.create2 (evm : EVM) (runner : Runner) (caller : Address) (code : Bytes)
    (gas endowment : Nat) (salt : Word) : EvmM CreateResult :=
  let codeHash := evm.crypto.keccak256 code
  evm.createAt runner caller code codeHash gas endowment
    (evm.crypto.createAddress2 caller salt codeHash) .create2

/-! ## Tying the knot -/

/-- The entry points over a given way of running code. -/
def EVM.callees (evm : EVM) (runner : Runner) : Callees where
  call := evm.call runner
  callCode := evm.callCode runner
  delegateCall := evm.delegateCall runner
  staticCall := evm.staticCall runner
  create := evm.create runner
  create2 := evm.create2 runner

/-- Run code with an instruction set, nesting at most `depth` frames. -/
def EVM.runnerWith (evm : EVM) (jt : JumpTable) : Nat → Runner
  | 0 => fun _ _ _ ↦ crash .outOfFuel
  | depth + 1 => run evm jt (evm.callees (evm.runnerWith jt depth))

/-- The deepest nesting the call depth limit allows. -/
def maxNesting : Nat := Params.callCreateDepth + 1

/-- The interpreter of a virtual machine that is configured with an instruction set. -/
def EVM.interpreterWith (evm : EVM) (jt : JumpTable) : Runner := evm.runnerWith jt maxNesting

/-- Run code with the instruction set of the rules. -/
def EVM.runner (evm : EVM) : Nat → Runner := evm.runnerWith (selectJumpTable evm.chainRules)

def EVM.interpreter (evm : EVM) : Runner := evm.runner maxNesting

end GoEntropy.Evm
