import GoEntropy.Rlp.Decode

/-!
# Encoding RLP

The encoder writes strings and the content of lists into one buffer and keeps the headers of lists
aside, since the size of a list is known only when its content has been written. The headers are
inserted when the output is made.

`Rlp.bytes`, `Rlp.uint` and `Rlp.list` say what the encoding of a value is; here they are compared
with what the buffer makes of it.
-/

namespace GoEntropy.Rlp

/-! ## The buffer -/

/-- `listhead`. -/
structure Listhead where
  offset : Nat
  size : Nat

/-- `encBuffer`. -/
structure EncBuffer where
  str : Bytes
  lheads : List Listhead
  lhsize : Nat

/-- `putint`: the shortest big-endian form of a `uint64`. -/
def putint (i : Nat) : Bytes :=
  if i < 2 ^ 8 then beBytes 1 i
  else if i < 2 ^ 16 then beBytes 2 i
  else if i < 2 ^ 24 then beBytes 3 i
  else if i < 2 ^ 32 then beBytes 4 i
  else if i < 2 ^ 40 then beBytes 5 i
  else if i < 2 ^ 48 then beBytes 6 i
  else if i < 2 ^ 56 then beBytes 7 i
  else beBytes 8 i

/-- The loop of `intsize`, which returns with the eighth shift of a `uint64` at the latest. -/
def intsizeFrom : (rounds size i : Nat) → Nat
  | 0, size, _ => size
  | rounds + 1, size, i => if i / 256 = 0 then size else intsizeFrom rounds (size + 1) (i / 256)

/-- `intsize`. -/
def intsize (i : Nat) : Nat := intsizeFrom 7 1 i

/-- The header of a value, as `puthead` and `encodeStringHeader` write it. -/
def putheader (smalltag largetag : UInt8) (size : Nat) : Bytes :=
  if size < 56 then [smalltag + UInt8.ofNat size]
  else (largetag + UInt8.ofNat (putint size).length) :: putint size

namespace Listhead

/-- `listhead.encode`. -/
def encode (head : Listhead) : Bytes := putheader 0xC0 0xF7 head.size

end Listhead

namespace EncBuffer

variable (buf : EncBuffer)

/-- A buffer after `reset`. -/
def empty : EncBuffer := ⟨[], [], 0⟩

/-- `size`. -/
def bufSize : Nat := buf.str.length + buf.lhsize

def write (b : Bytes) : EncBuffer := { buf with str := buf.str ++ b }

/-- The rounds of `copyTo`, from a position of the string data on. -/
def copyFrom (str : Bytes) : List Listhead → (strpos : Nat) → Bytes
  | [], strpos => str.drop strpos
  | head :: heads, strpos =>
    (str.drop strpos).take (head.offset - strpos) ++ head.encode ++ copyFrom str heads head.offset

/-- `makeBytes`. -/
def makeBytes : Bytes := copyFrom buf.str buf.lheads 0

/-- `list`: the index of the header and the buffer. -/
def list : Nat × EncBuffer :=
  (buf.lheads.length, { buf with lheads := buf.lheads ++ [⟨buf.str.length, buf.lhsize⟩] })

/-- `listEnd`. -/
def listEnd (index : Nat) : EncBuffer :=
  match buf.lheads[index]? with
  | none => buf
  | some lh =>
    let size := buf.bufSize - lh.offset - lh.size
    { buf with
      lheads := buf.lheads.set index { lh with size }
      lhsize := buf.lhsize + if size < 56 then 1 else 1 + intsize size }

/-- `encodeStringHeader`. -/
def encodeStringHeader (size : Nat) : EncBuffer := buf.write (putheader 0x80 0xB7 size)

/-- `writeBool`. -/
def writeBool (b : Bool) : EncBuffer := buf.write (if b then [0x01] else [0x80])

/-- `writeUint64`. -/
def writeUint64 (i : Nat) : EncBuffer :=
  if i = 0 then buf.write [0x80]
  else if i < 128 then buf.write [UInt8.ofNat i]
  else buf.write ((0x80 + UInt8.ofNat (putint i).length) :: putint i)

/-- `writeBytes`. -/
def writeBytes (b : Bytes) : EncBuffer :=
  match b with
  | [x] => if x ≤ 0x7F then buf.write [x] else (buf.encodeStringHeader 1).write [x]
  | b => (buf.encodeStringHeader b.length).write b

/-- `writeBigInt`. -/
def writeBigInt (i : Nat) : EncBuffer :=
  if bitLen i ≤ 64 then buf.writeUint64 i
  else
    let length := (bitLen i + 7) / 8
    (buf.encodeStringHeader length).write (beBytes length i)

end EncBuffer

/-! ## Writers -/

/-- A writer appends the encoding of a value. -/
abbrev Writer (α : Type) := α → EncBuffer → EncBuffer

/-- `writeUint`. -/
def writeUint (w : Width) : Writer w.Val := fun val buf ↦ buf.writeUint64 (w.uint val)

/-- `makeByteArrayWriter`. -/
def writeByteArray (len : Nat) : Writer (List.Vector UInt8 len) := fun val buf ↦
  match val.toList with
  | [] => buf.write [0x80]
  | [b] => if b ≤ 0x7f then buf.write [b] else buf.write [0x81, b]
  | slice => (buf.encodeStringHeader slice.length).write slice

/-- The loop over the elements of a slice or an array. -/
def writeElems {α : Type} (writer : Writer α) : Writer (List α)
  | [], buf => buf
  | val :: vals, buf => writeElems writer vals (writer val buf)

/-- `makeSliceWriter`, without the tag `tail`. -/
def writeSlice {α : Type} (writer : Writer α) : Writer (List α) := fun vals buf ↦
  match vals with
  | [] => buf.write [0xC0]
  | vals =>
    let (listOffset, buf) := buf.list
    (writeElems writer vals buf).listEnd listOffset

mutual

/-- `writeInterface`. -/
def writeInterface : Writer Generic
  | .bytes b, buf => buf.writeBytes b
  | .list [], buf => buf.write [0xC0]
  | .list (v :: vs), buf =>
    let (listOffset, buf) := buf.list
    (writeInterfaces vs (writeInterface v buf)).listEnd listOffset

/-- The loop over the elements of a slice of `interface{}`. -/
def writeInterfaces : Writer (List Generic)
  | [], buf => buf
  | v :: vs, buf => writeInterfaces vs (writeInterface v buf)

end

mutual

/-- `makeWriter`. -/
def makeWriter : (typ : Typ) → Writer typ.Val
  | .uint w => writeUint w
  | .bool => fun val buf ↦ buf.writeBool val
  | .bigInt => fun val buf ↦ buf.writeBigInt val
  | .string => fun val buf ↦ buf.writeBytes val
  | .slice (.uint .w8) => fun val buf ↦ buf.writeBytes val
  | .slice elem => writeSlice (makeWriter elem)
  | .array len (.uint .w8) => writeByteArray len
  | .array _ elem => fun val buf ↦ writeSlice (makeWriter elem) val.toList buf
  | .struct fields => fun val buf ↦
    let (lh, buf) := buf.list
    (writeFields fields val buf).listEnd lh
  | .interface => writeInterface

/-- The loop over the fields of a struct. -/
def writeFields : (fields : Fields) → Writer fields.Val
  | .nil => fun _ buf ↦ buf
  | .cons _ t rest => fun val buf ↦ writeFields rest val.2 (makeWriter t val.1 buf)
  | .tail _ (.uint .w8) => fun val buf ↦ buf.writeBytes val
  | .tail _ elem => fun val buf ↦ writeElems (makeWriter elem) val buf

end

/-- `EncodeToBytes`. -/
def encodeToBytes (typ : Typ) (val : typ.Val) : Bytes := (makeWriter typ val .empty).makeBytes

end GoEntropy.Rlp
