import GoEntropy.Evm.Scope

/-!
# Gas and memory-size functions

The dynamic gas functions of the instructions, from `gas_table.go` and `operations_acl.go`, and the
memory sizes they are charged for, from `memory_table.go`.

A gas function returns `none` where the code returns an error: the interpreter turns every error of a
gas function into an out-of-gas failure of the frame. Besides the cost it returns the memory, whose
last charged total it updates.
-/

namespace GoEntropy.Evm

open Interaction

/-! ## Step costs -/

def gasQuickStep : Nat := 2
def gasFastestStep : Nat := 3
def gasFastStep : Nat := 5
def gasMidStep : Nat := 8
def gasSlowStep : Nat := 10
def gasExtStep : Nat := 20

/-! ## Memory sizes -/

/-- `memorySizeFunc`: the required size, or `none` for an overflow. -/
abbrev MemorySizeFunc := Stack → Option Nat

/-- `calcMemSize64WithUint`. -/
def calcMemSize64WithUint (off : Word) (length64 : Nat) : Option Nat :=
  if length64 = 0 then some 0
  else do
    let offset64 ← uint64WithOverflow off
    safeAdd offset64 length64

/-- `calcMemSize64`. -/
def calcMemSize64 (off l : Word) : Option Nat := do
  let length64 ← uint64WithOverflow l
  calcMemSize64WithUint off length64

/-- The size of one region, given the stack positions of its offset and length. -/
def memoryRegion (off l : Nat) : MemorySizeFunc := fun stack ↦
  calcMemSize64 (stack.back off) (stack.back l)

/-- The larger of an input and an output region. -/
def memoryInOut (inOff inSize retOff retSize : Nat) : MemorySizeFunc := fun stack ↦ do
  let x ← memoryRegion retOff retSize stack
  let y ← memoryRegion inOff inSize stack
  return max x y

def memoryKeccak256 : MemorySizeFunc := memoryRegion 0 1
def memoryCallDataCopy : MemorySizeFunc := memoryRegion 0 2
def memoryReturnDataCopy : MemorySizeFunc := memoryRegion 0 2
def memoryCodeCopy : MemorySizeFunc := memoryRegion 0 2
def memoryExtCodeCopy : MemorySizeFunc := memoryRegion 1 3
def memoryMLoad : MemorySizeFunc := fun stack ↦ calcMemSize64WithUint (stack.back 0) 32
def memoryMStore8 : MemorySizeFunc := fun stack ↦ calcMemSize64WithUint (stack.back 0) 1
def memoryMStore : MemorySizeFunc := fun stack ↦ calcMemSize64WithUint (stack.back 0) 32
def memoryCreate : MemorySizeFunc := memoryRegion 1 2
def memoryCreate2 : MemorySizeFunc := memoryRegion 1 2
def memoryCall : MemorySizeFunc := memoryInOut 3 4 5 6
def memoryDelegateCall : MemorySizeFunc := memoryInOut 2 3 4 5
def memoryStaticCall : MemorySizeFunc := memoryInOut 2 3 4 5
def memoryReturn : MemorySizeFunc := memoryRegion 0 1
def memoryRevert : MemorySizeFunc := memoryRegion 0 1
def memoryLog : MemorySizeFunc := memoryRegion 0 1

/-! ## Gas functions without state -/

/-- `gasFunc`: the cost and the memory, from the contract, the stack, the memory and the requested
memory size. -/
abbrev GasFunc := EVM → Contract → Stack → Memory → Nat → EvmM (Option (Nat × Memory))

/-- `memoryGasCost`: the quadratic cost of expanding the memory. -/
def memoryGasCost (mem : Memory) (newMemSize : Nat) : Option (Nat × Memory) :=
  if newMemSize = 0 then some (0, mem)
  else if newMemSize > 0x1FFFFFFFE0 then none
  else
    let newMemSizeWords := toWordSize newMemSize
    if wrap64 (newMemSizeWords * 32) > mem.len then
      let square := wrap64 (newMemSizeWords * newMemSizeWords)
      let linCoef := wrap64 (newMemSizeWords * Params.memoryGas)
      let quadCoef := square / Params.quadCoeffDiv
      let newTotalFee := add64 linCoef quadCoef
      some (sub64 newTotalFee mem.lastGasCost, { mem with lastGasCost := newTotalFee })
    else some (0, mem)

/-- A gas function that looks at the stack and the memory only. -/
def localGas (f : Stack → Memory → Nat → Option (Nat × Memory)) : GasFunc :=
  fun _ _ stack mem memorySize ↦ pure (f stack mem memorySize)

/-- The cost of expanding the memory plus `perWord` for every word of the operand at `stackpos`. -/
def wordGas (stackpos perWord : Nat) (stack : Stack) (mem : Memory) (memorySize : Nat) :
    Option (Nat × Memory) := do
  let (gas, mem) ← memoryGasCost mem memorySize
  let words ← uint64WithOverflow (stack.back stackpos)
  let words ← safeMul (toWordSize words) perWord
  let gas ← safeAdd gas words
  return (gas, mem)

/-- `memoryCopierGas`. -/
def memoryCopierGas (stackpos : Nat) : GasFunc := localGas (wordGas stackpos Params.copyGas)

def gasCallDataCopy : GasFunc := memoryCopierGas 2
def gasCodeCopy : GasFunc := memoryCopierGas 2
def gasExtCodeCopy : GasFunc := memoryCopierGas 3
def gasReturnDataCopy : GasFunc := memoryCopierGas 2
def gasKeccak256 : GasFunc := localGas (wordGas 1 Params.keccak256WordGas)
def gasCreate2 : GasFunc := localGas (wordGas 2 Params.keccak256WordGas)

/-- `makeGasLog`. -/
def makeGasLog (n : Nat) : GasFunc := localGas fun stack mem memorySize ↦ do
  let requestedSize ← uint64WithOverflow (stack.back 1)
  let (gas, mem) ← memoryGasCost mem memorySize
  let gas ← safeAdd gas Params.logGas
  let gas ← safeAdd gas (n * Params.logTopicGas)
  let memorySizeGas ← safeMul requestedSize Params.logDataGas
  let gas ← safeAdd gas memorySizeGas
  return (gas, mem)

/-- `pureMemoryGascost`. -/
def pureMemoryGascost : GasFunc := localGas fun _ mem memorySize ↦ memoryGasCost mem memorySize

def gasReturn : GasFunc := pureMemoryGascost
def gasRevert : GasFunc := pureMemoryGascost
def gasMLoad : GasFunc := pureMemoryGascost
def gasMStore8 : GasFunc := pureMemoryGascost
def gasMStore : GasFunc := pureMemoryGascost
def gasCreate : GasFunc := pureMemoryGascost

/-- The cost of an exponentiation, `perByte` for every byte of the exponent. -/
def expGas (perByte : Nat) : GasFunc := localGas fun stack mem _ ↦ do
  let expByteLen := (bitLen (stack.back 1).toNat + 7) / 8
  let gas ← safeAdd (expByteLen * perByte) Params.expGas
  return (gas, mem)

def gasExpFrontier : GasFunc := expGas Params.expByteFrontier
def gasExpEIP158 : GasFunc := expGas Params.expByteEIP158

/-! ## Storage writes -/

structure NetSstore where
  noop : Nat
  init : Nat
  clean : Nat
  dirty : Nat
  clearRefund : Nat
  resetClearRefund : Nat
  resetRefund : Nat

/-- The net metering every variant of `SSTORE` shares: the price of writing `value` over `current`,
and the refunds granted or taken back on the way. -/
def netSstore (p : NetSstore) (addr : Address) (slot value current : Hash) : EvmM Nat := do
  if current = value then
    return p.noop
  let original ← query (.getCommittedState addr slot)
  if original = current then
    if original = 0 then
      return p.init
    if value = 0 then
      query (.addRefund p.clearRefund)
    return p.clean
  if original ≠ 0 then
    if current = 0 then
      query (.subRefund p.clearRefund)
    else if value = 0 then
      query (.addRefund p.clearRefund)
  if original = value then
    if original = 0 then
      query (.addRefund p.resetClearRefund)
    else
      query (.addRefund p.resetRefund)
  return p.dirty

/-- `gasSStore` (EIP-1283). -/
def gasSStore : GasFunc := fun _ contract stack mem _ ↦ do
  let slot := stack.back 0
  let current ← query (.getState contract.self slot)
  let gas ← netSstore
    { noop := Params.netSstoreNoopGas
      init := Params.netSstoreInitGas
      clean := Params.netSstoreCleanGas
      dirty := Params.netSstoreDirtyGas
      clearRefund := Params.netSstoreClearRefund
      resetClearRefund := Params.netSstoreResetClearRefund
      resetRefund := Params.netSstoreResetRefund }
    contract.self slot (stack.back 1) current
  return some (gas, mem)

/-- `gasSStoreEIP2200`, which also refuses to run on the gas of a stipend. -/
def gasSStoreEIP2200 : GasFunc := fun _ contract stack mem _ ↦ do
  if contract.gas ≤ Params.sstoreSentryGasEIP2200 then
    return none
  let slot := stack.back 0
  let current ← query (.getState contract.self slot)
  let gas ← netSstore
    { noop := Params.sloadGasEIP2200
      init := Params.sstoreSetGasEIP2200
      clean := Params.sstoreResetGasEIP2200
      dirty := Params.sloadGasEIP2200
      clearRefund := Params.sstoreClearsScheduleRefundEIP2200
      resetClearRefund := Params.sstoreSetGasEIP2200 - Params.sloadGasEIP2200
      resetRefund := Params.sstoreResetGasEIP2200 - Params.sloadGasEIP2200 }
    contract.self slot (stack.back 1) current
  return some (gas, mem)

/-- The access-list part of `makeGasSStoreFunc`: the surcharge for a cold slot. A slot that is absent
together with its address is where the code panics, after it has added the slot. -/
def sstoreSlotCost (addr : Address) (slot : Hash) : EvmM Nat := do
  let (addrPresent, slotPresent) ← query (.slotInAccessList addr slot)
  if slotPresent then
    return 0
  query (.addSlotToAccessList addr slot)
  if addrPresent then
    return Params.coldSloadCostEIP2929
  else
    crash .sstoreAddressNotPresent

/-- `makeGasSStoreFunc`. -/
def makeGasSStoreFunc (clearingRefund : Nat) : GasFunc := fun _ contract stack mem _ ↦ do
  if contract.gas ≤ Params.sstoreSentryGasEIP2200 then
    return none
  let slot := stack.back 0
  let current ← query (.getState contract.self slot)
  let cost ← sstoreSlotCost contract.self slot
  let resetGas := Params.sstoreResetGasEIP2200 - Params.coldSloadCostEIP2929
  let gas ← netSstore
    { noop := cost + Params.warmStorageReadCostEIP2929
      init := cost + Params.sstoreSetGasEIP2200
      clean := cost + resetGas
      dirty := cost + Params.warmStorageReadCostEIP2929
      clearRefund := clearingRefund
      resetClearRefund := Params.sstoreSetGasEIP2200 - Params.warmStorageReadCostEIP2929
      resetRefund := resetGas - Params.warmStorageReadCostEIP2929 }
    contract.self slot (stack.back 1) current
  return some (gas, mem)

def gasSStoreEIP2929 : GasFunc := makeGasSStoreFunc Params.sstoreClearsScheduleRefundEIP2200
def gasSStoreEIP3529 : GasFunc := makeGasSStoreFunc Params.sstoreClearsScheduleRefundEIP3529

/-! ## Calls -/

/-- `callGas`: the gas handed to the callee. Since EIP-150 at most all but one 64th of what is left
after `base`; before it exactly what was asked for. -/
def callGas (isEip150 : Bool) (availableGas base : Nat) (callCost : Word) : Option Nat :=
  let capped := sub64 availableGas base
  let gas := capped - capped / 64
  if isEip150 ∧ (2 ^ 64 ≤ callCost.toNat ∨ gas < callCost.toNat) then some gas
  else uint64WithOverflow callCost

def setCallGasTemp (gas : Nat) : EvmM Unit := fun m ↦ pure ((), { m with callGasTemp := gas })

/-- The last part of every call's gas function: store the gas for the callee and add it to the
cost. -/
def chargeCallGas (evm : EVM) (contract : Contract) (stack : Stack) (mem : Memory) (gas : Nat) :
    EvmM (Option (Nat × Memory)) := do
  let temp := callGas evm.chainRules.isEIP150 contract.gas gas (stack.back 0)
  setCallGasTemp (temp.getD 0)
  return do
    let temp ← temp
    let gas ← safeAdd gas temp
    return (gas, mem)

/-- `gasCall`. A callee that does not exist costs extra whether or not value is sent. -/
def gasCall : GasFunc := fun evm contract stack mem memorySize ↦ do
  let addressExists ← query (.exist (hashToAddress (stack.back 1)))
  let gas := (if addressExists then 0 else Params.callNewAccountGas) +
    (if stack.back 2 ≠ 0 then Params.callValueTransferGas else 0)
  match memoryGasCost mem memorySize with
  | none => return none
  | some (memoryGas, mem) =>
    match safeAdd gas memoryGas with
    | none => return none
    | some gas => chargeCallGas evm contract stack mem gas

/-- `gasCallCode`. -/
def gasCallCode : GasFunc := fun evm contract stack mem memorySize ↦
  match memoryGasCost mem memorySize with
  | none => return none
  | some (memoryGas, mem) =>
    let gas := if stack.back 2 ≠ 0 then Params.callValueTransferGas else 0
    match safeAdd gas memoryGas with
    | none => return none
    | some gas => chargeCallGas evm contract stack mem gas

/-- `gasDelegateCall`. -/
def gasDelegateCall : GasFunc := fun evm contract stack mem memorySize ↦
  match memoryGasCost mem memorySize with
  | none => return none
  | some (gas, mem) => chargeCallGas evm contract stack mem gas

/-- `gasStaticCall`. -/
def gasStaticCall : GasFunc := fun evm contract stack mem memorySize ↦
  match memoryGasCost mem memorySize with
  | none => return none
  | some (gas, mem) => chargeCallGas evm contract stack mem gas

/-- The refund for the first self-destruction of an account. -/
def refundSelfdestruct (self : Address) : EvmM Unit := do
  let suicided ← query (.hasSuicided self)
  if suicided then return () else query (.addRefund Params.selfdestructRefundGas)

/-- The price of `SELFDESTRUCT` before EIP-2929; before EIP-150 there is none. -/
def selfdestructCost (isEip150 : Bool) (address : Address) : EvmM Nat :=
  if isEip150 then do
    let addressExists ← query (.exist address)
    return Params.selfdestructGasEIP150 +
      (if addressExists then 0 else Params.createBySelfdestructGas)
  else return 0

/-- `gasSelfdestruct`. -/
def gasSelfdestruct : GasFunc := fun evm contract stack mem _ ↦ do
  let gas ← selfdestructCost evm.chainRules.isEIP150 (hashToAddress (stack.back 0))
  refundSelfdestruct contract.self
  return some (gas, mem)

/-! ## Access lists (EIP-2929) -/

/-- `gasSLoadEIP2929`. -/
def gasSLoadEIP2929 : GasFunc := fun _ contract stack mem _ ↦ do
  let slot := stack.back 0
  let (_, slotPresent) ← query (.slotInAccessList contract.self slot)
  if slotPresent then
    return some (Params.warmStorageReadCostEIP2929, mem)
  query (.addSlotToAccessList contract.self slot)
  return some (Params.coldSloadCostEIP2929, mem)

/-- Whether an address is in the access list. It is afterwards. -/
def accessAddress (addr : Address) : EvmM Bool := do
  let present ← query (.addressInAccessList addr)
  if present then return true
  else do
    query (.addAddressToAccessList addr)
    return false

/-- `gasExtCodeCopyEIP2929`. -/
def gasExtCodeCopyEIP2929 : GasFunc := fun evm contract stack mem memorySize ↦ do
  match ← gasExtCodeCopy evm contract stack mem memorySize with
  | none => return none
  | some (gas, mem) =>
    let present ← accessAddress (hashToAddress (stack.back 0))
    if present then
      return some (gas, mem)
    else
      return do
        let gas ← safeAdd gas
          (Params.coldAccountAccessCostEIP2929 - Params.warmStorageReadCostEIP2929)
        return (gas, mem)

/-- `gasEip2929AccountCheck`. -/
def gasEip2929AccountCheck : GasFunc := fun _ _ stack mem _ ↦ do
  let present ← accessAddress (hashToAddress (stack.back 0))
  let gas := if present then 0
    else Params.coldAccountAccessCostEIP2929 - Params.warmStorageReadCostEIP2929
  return some (gas, mem)

/-- `makeCallVariantGasCallEIP2929`. The cold surcharge is taken off the contract's gas while the old
calculator runs, and then added to the returned cost without an overflow check. -/
def makeCallVariantGasCallEIP2929 (oldCalculator : GasFunc) : GasFunc :=
  fun evm contract stack mem memorySize ↦ do
    let warmAccess ← accessAddress (hashToAddress (stack.back 1))
    let coldCost := Params.coldAccountAccessCostEIP2929 - Params.warmStorageReadCostEIP2929
    if warmAccess then
      oldCalculator evm contract stack mem memorySize
    else
      match contract.useGas coldCost with
      | none => return none
      | some reduced => do
        match ← oldCalculator evm reduced stack mem memorySize with
        | none => return none
        | some (gas, mem) => return some (add64 gas coldCost, mem)

def gasCallEIP2929 : GasFunc := makeCallVariantGasCallEIP2929 gasCall
def gasDelegateCallEIP2929 : GasFunc := makeCallVariantGasCallEIP2929 gasDelegateCall
def gasStaticCallEIP2929 : GasFunc := makeCallVariantGasCallEIP2929 gasStaticCall
def gasCallCodeEIP2929 : GasFunc := makeCallVariantGasCallEIP2929 gasCallCode

/-- The surcharge of a `SELFDESTRUCT` that brings value to an empty account. -/
def selfdestructSurcharge (self address : Address) : EvmM Nat := do
  let isEmpty ← query (.empty address)
  if isEmpty then do
    let balance ← query (.getBalance self)
    return if balance ≠ 0 then Params.createBySelfdestructGas else 0
  else return 0

/-- `makeSelfdestructGasFn`. -/
def makeSelfdestructGasFn (refundsEnabled : Bool) : GasFunc := fun _ contract stack mem _ ↦ do
  let address := hashToAddress (stack.back 0)
  let present ← accessAddress address
  let surcharge ← selfdestructSurcharge contract.self address
  if refundsEnabled then refundSelfdestruct contract.self
  return some ((if present then 0 else Params.coldAccountAccessCostEIP2929) + surcharge, mem)

def gasSelfdestructEIP2929 : GasFunc := makeSelfdestructGasFn true
def gasSelfdestructEIP3529 : GasFunc := makeSelfdestructGasFn false

end GoEntropy.Evm
