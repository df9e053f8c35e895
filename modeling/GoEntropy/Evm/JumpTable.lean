import GoEntropy.Evm.Gas
import GoEntropy.Evm.Instructions

/-!
# Jump tables

The instruction set of every fork, built as the code builds it: each fork copies the table of the
previous one and replaces some entries. Which table runs is decided by the chain rules alone
(`selectJumpTable`); the forks between EIP-150 and London have tables but are never selected.
-/

namespace GoEntropy.Evm

/-- `operation`. -/
structure Operation where
  execute : ExecutionFunc
  constantGas : Nat
  dynamicGas : Option GasFunc
  minStack : Nat
  maxStack : Nat
  memorySize : Option MemorySizeFunc

/-- `JumpTable`. -/
abbrev JumpTable := OpCode → Operation

/-- `maxStack`: how full the stack may be before an instruction that pops and pushes as given. -/
def maxStack (pops pushes : Nat) : Nat := Params.stackLimit + pops - pushes

def operation (execute : ExecutionFunc) (constantGas pops pushes : Nat) : Operation where
  execute := execute
  constantGas := constantGas
  dynamicGas := none
  minStack := pops
  maxStack := maxStack pops pushes
  memorySize := none

def dynamicOperation (execute : ExecutionFunc) (constantGas : Nat) (dynamicGas : GasFunc)
    (pops pushes : Nat) : Operation :=
  { operation execute constantGas pops pushes with dynamicGas := some dynamicGas }

def memoryOperation (execute : ExecutionFunc) (constantGas : Nat) (dynamicGas : GasFunc)
    (pops pushes : Nat) (memorySize : MemorySizeFunc) : Operation :=
  { dynamicOperation execute constantGas dynamicGas pops pushes with
    memorySize := some memorySize }

def undefinedOperation : Operation := operation opUndefined 0 0 0

/-- `newFrontierInstructionSet`. -/
def newFrontierInstructionSet : JumpTable
  | .stop => operation opStop 0 0 0
  | .add => operation opAdd gasFastestStep 2 1
  | .mul => operation opMul gasFastStep 2 1
  | .sub => operation opSub gasFastestStep 2 1
  | .div => operation opDiv gasFastStep 2 1
  | .sdiv => operation opSdiv gasFastStep 2 1
  | .mod => operation opMod gasFastStep 2 1
  | .smod => operation opSmod gasFastStep 2 1
  | .addmod => operation opAddmod gasMidStep 3 1
  | .mulmod => operation opMulmod gasMidStep 3 1
  | .exp => dynamicOperation opExp 0 gasExpFrontier 2 1
  | .signExtend => operation opSignExtend gasFastStep 2 1
  | .lt => operation opLt gasFastestStep 2 1
  | .gt => operation opGt gasFastestStep 2 1
  | .slt => operation opSlt gasFastestStep 2 1
  | .sgt => operation opSgt gasFastestStep 2 1
  | .eq => operation opEq gasFastestStep 2 1
  | .isZero => operation opIszero gasFastestStep 1 1
  | .and => operation opAnd gasFastestStep 2 1
  | .xor => operation opXor gasFastestStep 2 1
  | .or => operation opOr gasFastestStep 2 1
  | .not => operation opNot gasFastestStep 1 1
  | .byte => operation opByte gasFastestStep 2 1
  | .keccak256 => memoryOperation opKeccak256 Params.keccak256Gas gasKeccak256 2 1 memoryKeccak256
  | .address => operation opAddress gasQuickStep 0 1
  | .balance => operation opBalance Params.balanceGasFrontier 1 1
  | .origin => operation opOrigin gasQuickStep 0 1
  | .caller => operation opCaller gasQuickStep 0 1
  | .callValue => operation opCallValue gasQuickStep 0 1
  | .callDataLoad => operation opCallDataLoad gasFastestStep 1 1
  | .callDataSize => operation opCallDataSize gasQuickStep 0 1
  | .callDataCopy =>
    memoryOperation opCallDataCopy gasFastestStep gasCallDataCopy 3 0 memoryCallDataCopy
  | .codeSize => operation opCodeSize gasQuickStep 0 1
  | .codeCopy => memoryOperation opCodeCopy gasFastestStep gasCodeCopy 3 0 memoryCodeCopy
  | .gasPrice => operation opGasprice gasQuickStep 0 1
  | .extCodeSize => operation opExtCodeSize Params.extcodeSizeGasFrontier 1 1
  | .extCodeCopy =>
    memoryOperation opExtCodeCopy Params.extcodeCopyBaseFrontier gasExtCodeCopy 4 0
      memoryExtCodeCopy
  | .blockHash => operation opBlockhash gasExtStep 1 1
  | .coinbase => operation opCoinbase gasQuickStep 0 1
  | .timestamp => operation opTimestamp gasQuickStep 0 1
  | .number => operation opNumber gasQuickStep 0 1
  | .difficulty => operation opDifficulty gasQuickStep 0 1
  | .gasLimit => operation opGasLimit gasQuickStep 0 1
  | .pop => operation opPop gasQuickStep 1 0
  | .mload => memoryOperation opMload gasFastestStep gasMLoad 1 1 memoryMLoad
  | .mstore => memoryOperation opMstore gasFastestStep gasMStore 2 0 memoryMStore
  | .mstore8 => memoryOperation opMstore8 gasFastestStep gasMStore8 2 0 memoryMStore8
  | .sload => operation opSload Params.sloadGasFrontier 1 1
  | .sstore => dynamicOperation opSstore 0 gasSStore 2 0
  | .jump => operation opJump gasMidStep 1 0
  | .jumpi => operation opJumpi gasSlowStep 2 0
  | .pc => operation opPc gasQuickStep 0 1
  | .msize => operation opMsize gasQuickStep 0 1
  | .gas => operation opGas gasQuickStep 0 1
  | .jumpdest => operation opJumpdest Params.jumpdestGas 0 0
  | .create => memoryOperation opCreate Params.createGas gasCreate 3 1 memoryCreate
  | .call => memoryOperation opCall Params.callGasFrontier gasCall 7 1 memoryCall
  | .callCode => memoryOperation opCallCode Params.callGasFrontier gasCallCode 7 1 memoryCall
  | .returnOp => memoryOperation opReturn 0 gasReturn 2 0 memoryReturn
  | .selfdestruct => dynamicOperation opSelfdestruct 0 gasSelfdestruct 1 0
  | .push n =>
    operation (if n.val = 0 then opPush1 else makePush (n.val + 1)) gasFastestStep 0 1
  | .dup n => operation (makeDup (n.val + 1)) gasFastestStep (n.val + 1) (n.val + 2)
  | .swap n => operation (makeSwap (n.val + 1)) gasFastestStep (n.val + 2) (n.val + 2)
  | .log n => memoryOperation (makeLog n.val) 0 (makeGasLog n.val) (n.val + 2) 0 memoryLog
  | _ => undefinedOperation

/-- `newHomesteadInstructionSet`. -/
def newHomesteadInstructionSet : JumpTable
  | .delegateCall =>
    memoryOperation opDelegateCall Params.callGasFrontier gasDelegateCall 6 1 memoryDelegateCall
  | op => newFrontierInstructionSet op

/-- `newTangerineWhistleInstructionSet` (EIP-150). -/
def newTangerineWhistleInstructionSet : JumpTable := fun op ↦
  let entry := newHomesteadInstructionSet op
  match op with
  | .balance => { entry with constantGas := Params.balanceGasEIP150 }
  | .extCodeSize => { entry with constantGas := Params.extcodeSizeGasEIP150 }
  | .sload => { entry with constantGas := Params.sloadGasEIP150 }
  | .extCodeCopy => { entry with constantGas := Params.extcodeCopyBaseEIP150 }
  | .call => { entry with constantGas := Params.callGasEIP150 }
  | .callCode => { entry with constantGas := Params.callGasEIP150 }
  | .delegateCall => { entry with constantGas := Params.callGasEIP150 }
  | _ => entry

/-- `newSpuriousDragonInstructionSet` (EIP-158). -/
def newSpuriousDragonInstructionSet : JumpTable := fun op ↦
  let entry := newTangerineWhistleInstructionSet op
  match op with
  | .exp => { entry with dynamicGas := some gasExpEIP158 }
  | _ => entry

/-- `newByzantiumInstructionSet`. -/
def newByzantiumInstructionSet : JumpTable
  | .staticCall =>
    memoryOperation opStaticCall Params.callGasEIP150 gasStaticCall 6 1 memoryStaticCall
  | .returnDataSize => operation opReturnDataSize gasQuickStep 0 1
  | .returnDataCopy =>
    memoryOperation opReturnDataCopy gasFastestStep gasReturnDataCopy 3 0 memoryReturnDataCopy
  | .revert => memoryOperation opRevert 0 gasRevert 2 0 memoryRevert
  | op => newSpuriousDragonInstructionSet op

/-- `newConstantinopleInstructionSet`. -/
def newConstantinopleInstructionSet : JumpTable
  | .shl => operation opSHL gasFastestStep 2 1
  | .shr => operation opSHR gasFastestStep 2 1
  | .sar => operation opSAR gasFastestStep 2 1
  | .extCodeHash => operation opExtCodeHash Params.extcodeHashGasConstantinople 1 1
  | .create2 => memoryOperation opCreate2 Params.create2Gas gasCreate2 4 1 memoryCreate2
  | op => newByzantiumInstructionSet op

/-- `enable1344`: the chain identifier opcode. -/
def enable1344 (jt : JumpTable) : JumpTable
  | .chainID => operation opChainID gasQuickStep 0 1
  | op => jt op

/-- `enable1884`: repriced reads and the self-balance opcode. -/
def enable1884 (jt : JumpTable) : JumpTable := fun op ↦
  match op with
  | .sload => { jt op with constantGas := Params.sloadGasEIP1884 }
  | .balance => { jt op with constantGas := Params.balanceGasEIP1884 }
  | .extCodeHash => { jt op with constantGas := Params.extcodeHashGasEIP1884 }
  | .selfBalance => operation opSelfBalance gasFastStep 0 1
  | _ => jt op

/-- `enable2200`: net-metered storage writes. -/
def enable2200 (jt : JumpTable) : JumpTable := fun op ↦
  match op with
  | .sload => { jt op with constantGas := Params.sloadGasEIP2200 }
  | .sstore => { jt op with dynamicGas := some gasSStoreEIP2200 }
  | _ => jt op

/-- `newIstanbulInstructionSet`. -/
def newIstanbulInstructionSet : JumpTable :=
  enable2200 (enable1884 (enable1344 newConstantinopleInstructionSet))

/-- An entry repriced by EIP-2929: the warm price is constant, the rest depends on the access
list. -/
def Operation.warm (entry : Operation) (dynamicGas : GasFunc) : Operation :=
  { entry with
    constantGas := Params.warmStorageReadCostEIP2929
    dynamicGas := some dynamicGas }

/-- `enable2929`: access lists. -/
def enable2929 (jt : JumpTable) : JumpTable := fun op ↦
  match op with
  | .sstore => { jt op with dynamicGas := some gasSStoreEIP2929 }
  | .sload => { jt op with constantGas := 0, dynamicGas := some gasSLoadEIP2929 }
  | .extCodeCopy => (jt op).warm gasExtCodeCopyEIP2929
  | .extCodeSize => (jt op).warm gasEip2929AccountCheck
  | .extCodeHash => (jt op).warm gasEip2929AccountCheck
  | .balance => (jt op).warm gasEip2929AccountCheck
  | .call => (jt op).warm gasCallEIP2929
  | .callCode => (jt op).warm gasCallCodeEIP2929
  | .staticCall => (jt op).warm gasStaticCallEIP2929
  | .delegateCall => (jt op).warm gasDelegateCallEIP2929
  | .selfdestruct =>
    { jt op with
      constantGas := Params.selfdestructGasEIP150
      dynamicGas := some gasSelfdestructEIP2929 }
  | _ => jt op

/-- `newBerlinInstructionSet`. -/
def newBerlinInstructionSet : JumpTable := enable2929 newIstanbulInstructionSet

/-- `enable3529`: reduced refunds. -/
def enable3529 (jt : JumpTable) : JumpTable := fun op ↦
  match op with
  | .sstore => { jt op with dynamicGas := some gasSStoreEIP3529 }
  | .selfdestruct => { jt op with dynamicGas := some gasSelfdestructEIP3529 }
  | _ => jt op

/-- `enable3198`: the base fee opcode. -/
def enable3198 (jt : JumpTable) : JumpTable
  | .baseFee => operation opBaseFee gasQuickStep 0 1
  | op => jt op

/-- `newLondonInstructionSet`. -/
def newLondonInstructionSet : JumpTable := enable3198 (enable3529 newBerlinInstructionSet)

/-- `newMergeInstructionSet`: `RANDOM` takes the byte of `DIFFICULTY`. -/
def newMergeInstructionSet : JumpTable
  | .difficulty => operation opRandom gasQuickStep 0 1
  | op => newLondonInstructionSet op

/-- The table `NewEVMInterpreter` chooses for the chain rules. -/
def selectJumpTable (rules : Rules) : JumpTable :=
  if rules.isMerge then newMergeInstructionSet
  else if rules.isLondon then newLondonInstructionSet
  else if rules.isEIP150 then newTangerineWhistleInstructionSet
  else if rules.isHomestead then newHomesteadInstructionSet
  else newFrontierInstructionSet

end GoEntropy.Evm
