import GoEntropy.Common.Bytes

/-!
# Opcodes

The instruction set, decoded from its byte encoding. The numbered families (`PUSH`, `DUP`, `SWAP`,
`LOG`) are one constructor each. `RANDOM` shares its byte with `DIFFICULTY` and is told apart by the
jump table.
-/

namespace GoEntropy.Evm

/-- `OpCode`. A byte that encodes no instruction is kept as `invalid`. -/
inductive OpCode where
  | stop | add | mul | sub | div | sdiv | mod | smod | addmod | mulmod | exp | signExtend
  | lt | gt | slt | sgt | eq | isZero | and | or | xor | not | byte | shl | shr | sar
  | keccak256
  | address | balance | origin | caller | callValue | callDataLoad | callDataSize | callDataCopy
  | codeSize | codeCopy | gasPrice | extCodeSize | extCodeCopy | returnDataSize | returnDataCopy
  | extCodeHash
  | blockHash | coinbase | timestamp | number | difficulty | gasLimit | chainID | selfBalance
  | baseFee
  | pop | mload | mstore | mstore8 | sload | sstore | jump | jumpi | pc | msize | gas | jumpdest
  | push0
  | create | call | callCode | returnOp | delegateCall | create2 | staticCall | revert
  | selfdestruct
  /-- `PUSH1` to `PUSH32`, numbered from zero. -/
  | push (n : Fin 32)
  /-- `DUP1` to `DUP16`, numbered from zero. -/
  | dup (n : Fin 16)
  /-- `SWAP1` to `SWAP16`, numbered from zero. -/
  | swap (n : Fin 16)
  /-- `LOG0` to `LOG4`. -/
  | log (n : Fin 5)
  | invalid (b : UInt8)
  deriving Repr, DecidableEq

/-- The opcode a byte of code encodes. -/
def OpCode.ofByte (b : UInt8) : OpCode :=
  let n := b.toNat
  if 0x60 ≤ n ∧ n ≤ 0x7f then .push (Fin.ofNat 32 (n - 0x60))
  else if 0x80 ≤ n ∧ n ≤ 0x8f then .dup (Fin.ofNat 16 (n - 0x80))
  else if 0x90 ≤ n ∧ n ≤ 0x9f then .swap (Fin.ofNat 16 (n - 0x90))
  else if 0xa0 ≤ n ∧ n ≤ 0xa4 then .log (Fin.ofNat 5 (n - 0xa0))
  else
    match n with
    | 0x00 => .stop
    | 0x01 => .add
    | 0x02 => .mul
    | 0x03 => .sub
    | 0x04 => .div
    | 0x05 => .sdiv
    | 0x06 => .mod
    | 0x07 => .smod
    | 0x08 => .addmod
    | 0x09 => .mulmod
    | 0x0a => .exp
    | 0x0b => .signExtend
    | 0x10 => .lt
    | 0x11 => .gt
    | 0x12 => .slt
    | 0x13 => .sgt
    | 0x14 => .eq
    | 0x15 => .isZero
    | 0x16 => .and
    | 0x17 => .or
    | 0x18 => .xor
    | 0x19 => .not
    | 0x1a => .byte
    | 0x1b => .shl
    | 0x1c => .shr
    | 0x1d => .sar
    | 0x20 => .keccak256
    | 0x30 => .address
    | 0x31 => .balance
    | 0x32 => .origin
    | 0x33 => .caller
    | 0x34 => .callValue
    | 0x35 => .callDataLoad
    | 0x36 => .callDataSize
    | 0x37 => .callDataCopy
    | 0x38 => .codeSize
    | 0x39 => .codeCopy
    | 0x3a => .gasPrice
    | 0x3b => .extCodeSize
    | 0x3c => .extCodeCopy
    | 0x3d => .returnDataSize
    | 0x3e => .returnDataCopy
    | 0x3f => .extCodeHash
    | 0x40 => .blockHash
    | 0x41 => .coinbase
    | 0x42 => .timestamp
    | 0x43 => .number
    | 0x44 => .difficulty
    | 0x45 => .gasLimit
    | 0x46 => .chainID
    | 0x47 => .selfBalance
    | 0x48 => .baseFee
    | 0x50 => .pop
    | 0x51 => .mload
    | 0x52 => .mstore
    | 0x53 => .mstore8
    | 0x54 => .sload
    | 0x55 => .sstore
    | 0x56 => .jump
    | 0x57 => .jumpi
    | 0x58 => .pc
    | 0x59 => .msize
    | 0x5a => .gas
    | 0x5b => .jumpdest
    | 0x5f => .push0
    | 0xf0 => .create
    | 0xf1 => .call
    | 0xf2 => .callCode
    | 0xf3 => .returnOp
    | 0xf4 => .delegateCall
    | 0xf5 => .create2
    | 0xfa => .staticCall
    | 0xfd => .revert
    | 0xff => .selfdestruct
    | _ => .invalid b

end GoEntropy.Evm
