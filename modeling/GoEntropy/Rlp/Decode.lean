import GoEntropy.Rlp.Stream

/-!
# Decoding RLP

A decoder for every type, as `makeDecoder` assembles it. The value of a type is of a Lean type of its
own, so a decoder of a struct returns one value for each field and one of an array returns as many as
the array has.

Lists end with the error `EOL`, which the first call of `Kind` at the end of a list returns. The loops
over the elements of a list take it as their end, whatever decoder it comes from.
-/

namespace GoEntropy.Rlp

/-! ## Values -/

/-- A value that is held by an `interface{}`: a byte slice, or a slice of such values. -/
inductive Generic where
  | bytes (b : Bytes)
  | list (elems : List Generic)

def Width.Val : Width → Type
  | w8 => UInt8
  | w16 => UInt16
  | w32 => UInt32
  | w64 => UInt64

/-- `Value.Uint`. -/
def Width.uint : (w : Width) → w.Val → Nat
  | w8, v => UInt8.toNat v
  | w16, v => UInt16.toNat v
  | w32, v => UInt32.toNat v
  | w64, v => UInt64.toNat v

/-- `Value.SetUint`. -/
def Width.setUint : (w : Width) → Nat → w.Val
  | w8, n => UInt8.ofNat n
  | w16, n => UInt16.ofNat n
  | w32, n => UInt32.ofNat n
  | w64, n => UInt64.ofNat n

mutual

/-- The values of a type. A string is a sequence of bytes, and a big integer is not negative. -/
def Typ.Val : Typ → Type
  | .uint w => w.Val
  | .bool => Bool
  | .bigInt => Nat
  | .string => Bytes
  | .slice elem => List elem.Val
  | .array len elem => List.Vector elem.Val len
  | .struct fields => fields.Val
  | .interface => Generic

def Fields.Val : Fields → Type
  | .nil => Unit
  | .cons _ typ rest => typ.Val × rest.Val
  | .tail _ elem => List elem.Val

end

/-! ## Decoders -/

def mapError {α : Type} (f : RlpError → RlpError) (dec : Decoder α) : Decoder α :=
  tryCatch dec fun err ↦ throw (f err)

/-- `decodeUint`. -/
def decodeUint (w : Width) : Decoder w.Val := do
  let num ← mapError (wrapStreamError · (.uint w)) (getUint w.bits)
  return w.setUint num

/-- `decodeBool`. -/
def decodeBool : Decoder Bool := mapError (wrapStreamError · .bool) getBool

/-- `decodeString`. -/
def decodeString : Decoder Bytes := mapError (wrapStreamError · .string) getBytes

/-- `decodeBigInt`. -/
def decodeBigInt : Decoder Nat := mapError (wrapStreamError · .bigInt) getBigInt

/-- `decodeByteSlice`. -/
def decodeByteSlice : Decoder Bytes := mapError (wrapStreamError · (.slice (.uint .w8))) getBytes

def fillArray (len : Nat) (slice : Bytes) : Decoder (List.Vector UInt8 len) :=
  if h : slice.length = len then pure (⟨slice, h⟩ : List.Vector UInt8 len) else throw .unexpectedEOF

def byteArrayAhead (len : Nat) : Kind × Nat → Decoder (List.Vector UInt8 len)
  | (.byte, _) =>
    if len = 0 then throw (.decodeError "input string too long" (.array len (.uint .w8)) [])
    else if len > 1 then throw (.decodeError "input string too short" (.array len (.uint .w8)) [])
    else do
      let b ← takeByte
      fillArray len [b]
  | (.string, size) =>
    if len < size then throw (.decodeError "input string too long" (.array len (.uint .w8)) [])
    else if len > size then throw (.decodeError "input string too short" (.array len (.uint .w8)) [])
    else do
      let slice ← readFull len
      if overlong slice then throw (wrapStreamError .canonSize (.array len (.uint .w8)))
      else fillArray len slice
  | (.list, _) => throw (wrapStreamError .expectedString (.array len (.uint .w8)))

/-- `decodeByteArray`. -/
def decodeByteArray (len : Nat) : Decoder (List.Vector UInt8 len) := do
  let ahead ← getKind
  byteArrayAhead len ahead

/-- The loop of `decodeSliceElems`, from the given index on. -/
def decodeElemsFrom {α : Type} (elemdec : Decoder α) : (fuel i : Nat) → Decoder (List α)
  | 0, _ => throw .outOfFuel
  | fuel + 1, i => fun s ↦
    match elemdec s with
    | (.ok v, s) => (List.cons v <$> decodeElemsFrom elemdec fuel (i + 1)) s
    | (.error .eol, s) => (.ok [], s)
    | (.error err, s) => (.error (addErrorContext err (.index i)), s)

/-- `decodeSliceElems`. Every element takes at least one byte. -/
def decodeSliceElems {α : Type} (elemdec : Decoder α) : Decoder (List α) := do
  let s ← get
  decodeElemsFrom elemdec (s.input.length + 1) 0

/-- `decodeListSlice`. -/
def decodeListSlice {α : Type} (elem : Typ) (elemdec : Decoder α) : Decoder (List α) := do
  let size ← mapError (wrapStreamError · (.slice elem)) openList
  if size = 0 then
    listEnd
    return []
  else
    let vals ← decodeSliceElems elemdec
    listEnd
    return vals

/-- The loop of `decodeListArray`: the elements that are left, from the given index on. -/
def decodeArrayFrom {α : Type} (typ : Typ) (elemdec : Decoder α) :
    (len i : Nat) → Decoder (List.Vector α len)
  | 0, _ => return .nil
  | len + 1, i => fun s ↦
    match elemdec s with
    | (.ok v, s) => (List.Vector.cons v <$> decodeArrayFrom typ elemdec len (i + 1)) s
    | (.error .eol, s) => (.error (.decodeError "input list has too few elements" typ []), s)
    | (.error err, s) => (.error (addErrorContext err (.index i)), s)

/-- `decodeListArray`. -/
def decodeListArray {α : Type} (elem : Typ) (elemdec : Decoder α) (len : Nat) :
    Decoder (List.Vector α len) := do
  let typ := Typ.array len elem
  let _ ← mapError (wrapStreamError · typ) openList
  let vals ← decodeArrayFrom typ elemdec len 0
  mapError (wrapStreamError · typ) listEnd
  return vals

/-- `decodeInterface`, with a bound on the depth of the lists. -/
def decodeInterfaceTo : (depth : Nat) → Decoder Generic
  | 0 => throw .outOfFuel
  | depth + 1 => do
    match ← getKind with
    | (.list, _) => .list <$> decodeListSlice .interface (decodeInterfaceTo depth)
    | _ => .bytes <$> getBytes

/-- `decodeInterface`. Every list takes at least one byte. -/
def decodeInterface : Decoder Generic := do
  let s ← get
  decodeInterfaceTo (s.input.length + 1)

/-- One round of the loop over the fields of a struct. -/
def decodeField {α : Type} (typ : Typ) (name : String) (dec : Decoder α) : Decoder α :=
  mapError (fun err ↦ match err with
    | .eol => .decodeError "too few elements" typ []
    | err => addErrorContext err (.field name)) dec

mutual

/-- `makeDecoder`. -/
def makeDecoder : (typ : Typ) → Decoder typ.Val
  | .uint w => decodeUint w
  | .bool => decodeBool
  | .bigInt => decodeBigInt
  | .string => decodeString
  | .slice (.uint .w8) => decodeByteSlice
  | .slice elem => decodeListSlice elem (makeDecoder elem)
  | .array len (.uint .w8) => decodeByteArray len
  | .array len elem => decodeListArray elem (makeDecoder elem) len
  | .struct fields => do
    let _ ← mapError (wrapStreamError · (.struct fields)) openList
    let vals ← decodeFields (.struct fields) fields
    mapError (wrapStreamError · (.struct fields)) listEnd
    return vals
  | .interface => decodeInterface

/-- The loop over the fields of a struct. A slice with the tag `tail` takes all elements that are left,
unless it is a byte slice, for which the tag is ignored. -/
def decodeFields (typ : Typ) : (fields : Fields) → Decoder fields.Val
  | .nil => return ()
  | .cons name t rest => do
    let v ← decodeField typ name (makeDecoder t)
    let vs ← decodeFields typ rest
    return (v, vs)
  | .tail name (.uint .w8) => decodeField typ name decodeByteSlice
  | .tail name elem => decodeField typ name (decodeSliceElems (makeDecoder elem))

end

/-- Add the type of the target to an error with a context. -/
def addTarget (typ : Typ) : RlpError → RlpError
  | .decodeError msg t (c :: ctx) => .decodeError msg t (c :: ctx ++ [.target typ])
  | err => err

/-- `Stream.Decode`. -/
def decode (typ : Typ) : Decoder typ.Val := mapError (addTarget typ) (makeDecoder typ)

/-- `DecodeBytes`. -/
def decodeBytes (typ : Typ) (b : Bytes) : Except RlpError typ.Val :=
  match decode typ (.reset b) with
  | (.error err, _) => .error err
  | (.ok v, s) => if s.input.length > 0 then .error .moreThanOneValue else .ok v

end GoEntropy.Rlp
