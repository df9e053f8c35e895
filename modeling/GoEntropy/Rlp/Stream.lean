import GoEntropy.Common.Bytes

/-!
# The RLP input stream

`Stream` reads values from an input of known length. It holds the sizes of the lists it is in, each
reduced by what has been read, and caches the header of the value ahead until the value is taken.

All sizes are `uint64`s. The size of an inner list is subtracted from the enclosing one when the list
is entered, and that subtraction is not guarded: `Kind` compares the size with the limit from before
the header was read. So a list that is up to nine bytes too long for the enclosing one is entered and
the limit wraps around. Nothing can be read up to such a limit, which is why the decoder rejects these
inputs in the end.
-/

namespace GoEntropy.Rlp

/-! ## Types -/

inductive Width where
  | w8 | w16 | w32 | w64
  deriving DecidableEq

/-- `Type.Bits`. -/
def Width.bits : Width → Nat
  | w8 => 8
  | w16 => 16
  | w32 => 32
  | w64 => 64

mutual

/-- The types of the values that are encoded. A byte slice is a slice of `uint8`, and a byte array an
array of it. -/
inductive Typ where
  | uint (width : Width)
  | bool
  | bigInt
  | string
  | slice (elem : Typ)
  | array (len : Nat) (elem : Typ)
  | struct (fields : Fields)
  | interface

/-- The exported fields of a struct; the last one can be a slice with the tag `tail`. -/
inductive Fields where
  | nil
  | cons (name : String) (typ : Typ) (rest : Fields)
  | tail (name : String) (elem : Typ)

end

/-! ## Errors -/

/-- Where in the target of the decoder an error occurred. -/
inductive Context where
  | index (i : Nat)
  | field (name : String)
  | target (typ : Typ)

/-- The errors of the decoder. The recursion into lists is bounded by the length of the input in this
model; `outOfFuel` stands for an exhausted bound and is never returned (`decodeBytes_ne_outOfFuel`). -/
inductive RlpError where
  | eol
  | expectedString
  | expectedList
  | canonInt
  | canonSize
  | elemTooLarge
  | valueTooLarge
  | moreThanOneValue
  | notInList
  | notAtEOL
  | uintOverflow
  | eof
  | unexpectedEOF
  | invalidBoolean (num : Nat)
  | decodeError (msg : String) (typ : Typ) (ctx : List Context)
  | outOfFuel

/-- `wrapStreamError`. -/
def wrapStreamError (err : RlpError) (typ : Typ) : RlpError :=
  match err with
  | .canonInt => .decodeError "non-canonical integer (leading zero bytes)" typ []
  | .canonSize => .decodeError "non-canonical size information" typ []
  | .expectedList => .decodeError "expected input list" typ []
  | .expectedString => .decodeError "expected input string or byte" typ []
  | .uintOverflow => .decodeError "input string too long" typ []
  | .notAtEOL => .decodeError "input list has too many elements" typ []
  | err => err

/-- `addErrorContext`. -/
def addErrorContext (err : RlpError) (ctx : Context) : RlpError :=
  match err with
  | .decodeError msg typ c => .decodeError msg typ (c ++ [ctx])
  | err => err

/-! ## The stream -/

/-- `Kind`. -/
inductive Kind where
  | byte | string | list
  deriving DecidableEq

/-- `Stream`, with what its reader has left. The innermost list is the first one of the stack, and no
kind stands for the value -1. -/
structure Stream where
  input : Bytes
  remaining : Nat
  limited : Bool
  stack : List Nat
  kind : Option Kind
  size : Nat
  kinderr : Option RlpError
  byteval : UInt8

/-- A computation on the stream. The stream is mutable, so its state is kept when an error is
returned. -/
def Decoder (α : Type) : Type := Stream → Except RlpError α × Stream

namespace Decoder

instance : Monad Decoder where
  pure a := fun s ↦ (.ok a, s)
  bind x f := fun s ↦
    match x s with
    | (.ok a, s) => f a s
    | (.error e, s) => (.error e, s)

instance : MonadExceptOf RlpError Decoder where
  throw e := fun s ↦ (.error e, s)
  tryCatch x h := fun s ↦
    match x s with
    | (.ok a, s) => (.ok a, s)
    | (.error e, s) => h e s

instance : MonadStateOf Stream Decoder where
  get := fun s ↦ (.ok s, s)
  set s := fun _ ↦ (.ok (), s)
  modifyGet f := fun s ↦ (.ok (f s).1, (f s).2)

variable {α β : Type} {x : Decoder α} {f : α → Decoder β} {s s' s'' : Stream}

theorem bind_assoc {γ : Type} (x : Decoder α) (f : α → Decoder β) (g : β → Decoder γ) :
    x >>= f >>= g = x >>= fun a ↦ f a >>= g := by
  funext s
  show (match (match x s with
    | (.ok a, s) => f a s
    | (.error e, s) => (.error e, s)) with
    | (.ok b, s) => g b s
    | (.error e, s) => (.error e, s)) = (match x s with
    | (.ok a, s) => (f a >>= g) s
    | (.error e, s) => (.error e, s))
  rcases x s with ⟨e | a, s'⟩ <;> rfl

@[simp] theorem pure_apply (a : α) (s : Stream) : (pure a : Decoder α) s = (.ok a, s) := rfl

@[simp] theorem throw_apply (e : RlpError) (s : Stream) : (throw e : Decoder α) s = (.error e, s) := rfl

theorem error_eq_ok {a : α} {e : RlpError} : ((.error e, s) : Except RlpError α × Stream) = (.ok a, s') ↔ False := by
  simp

@[simp] theorem get_apply (s : Stream) : (get : Decoder Stream) s = (.ok s, s) := rfl

theorem bind_ok {a : α} (h : x s = (.ok a, s')) : (x >>= f) s = f a s' := by
  show (match x s with
    | (.ok a, s) => f a s
    | (.error e, s) => (.error e, s)) = _
  rw [h]

variable {e : RlpError}

theorem bind_error (h : x s = (.error e, s')) : (x >>= f) s = (.error e, s') := by
  show (match x s with
    | (.ok a, s) => f a s
    | (.error e, s) => (.error e, s)) = _
  rw [h]

theorem bind_congr {y : Decoder α} (h : y s' = x s) : (y >>= f) s' = (x >>= f) s := by
  rcases hx : x s with ⟨e | a, t⟩
  · rw [bind_error (h.trans hx), bind_error hx]
  · rw [bind_ok (h.trans hx), bind_ok hx]

theorem bind_eq_ok {b : β} : (x >>= f) s = (.ok b, s'') ↔
    ∃ a s', x s = (.ok a, s') ∧ f a s' = (.ok b, s'') := by
  rcases hx : x s with ⟨_ | a, s'⟩
  · simp [bind_error hx]
  · simp [bind_ok hx]

theorem bind_check_eq_ok {c : α → Prop} [DecidablePred c] {g : α → β} {b : β} {e : RlpError} :
    (x >>= fun a ↦ if c a then throw e else pure (g a)) s = (.ok b, s') ↔
      ∃ a, x s = (.ok a, s') ∧ ¬ c a ∧ g a = b := by
  rcases hx : x s with ⟨_ | a, s'⟩
  · simp [bind_error hx]
  · by_cases hc : c a
    · simp [bind_ok hx, hc]
    · simp [bind_ok hx, hc, and_comm]

theorem bind_eq_error : (x >>= f) s = (.error e, s'') ↔
    x s = (.error e, s'') ∨ ∃ a s', x s = (.ok a, s') ∧ f a s' = (.error e, s'') := by
  rcases hx : x s with ⟨_ | a, s'⟩
  · simp [bind_error hx]
  · simp [bind_ok hx]

theorem tryCatch_ok {h : RlpError → Decoder α} {a : α} (hx : x s = (.ok a, s')) :
    tryCatch x h s = (.ok a, s') := by
  show (match x s with
    | (.ok a, s) => (Except.ok a, s)
    | (.error e, s) => h e s) = _
  rw [hx]

theorem tryCatch_error {h : RlpError → Decoder α} (hx : x s = (.error e, s')) :
    tryCatch x h s = h e s' := by
  show (match x s with
    | (.ok a, s) => (Except.ok a, s)
    | (.error e, s) => h e s) = _
  rw [hx]

end Decoder

/-- `Reset`, with a reader of a byte slice. -/
def Stream.reset (b : Bytes) : Stream where
  input := b
  remaining := wrap64 b.length
  limited := true
  stack := []
  kind := none
  size := 0
  kinderr := none
  byteval := 0

/-- Rearm `Kind`: the next call of it reads a header. -/
def rearm : Decoder Unit := modify fun s ↦ { s with kind := none }

@[simp] theorem rearm_apply (s : Stream) : rearm s = (.ok (), { s with kind := none }) := rfl

/-- `listLimit`. -/
def Stream.listLimit (s : Stream) : Option Nat := s.stack.head?

def Stream.setLimit (s : Stream) (limit : Nat) : Stream := { s with stack := limit :: s.stack.tail }

/-- Subtract what is about to be read from the limit of the innermost list. -/
def takeFromList (n : Nat) : Decoder Unit := fun s ↦
  match s.listLimit with
  | none => (.ok (), s)
  | some limit => if n > limit then (.error .elemTooLarge, s) else (.ok (), s.setLimit (limit - n))

/-- Subtract what is about to be read from the length of the input. -/
def takeFromInput (n : Nat) : Decoder Unit := fun s ↦
  if s.limited then
    if n > s.remaining then (.error .valueTooLarge, s)
    else (.ok (), { s with remaining := s.remaining - n })
  else (.ok (), s)

/-- `willRead`. -/
def willRead (n : Nat) : Decoder Unit := do
  rearm
  takeFromList n
  takeFromInput n

/-- The loop of `readFull` over the reader's `Read`. -/
def fillBuffer (n : Nat) : Decoder Bytes := fun s ↦
  if s.input.length < n then (.error .unexpectedEOF, { s with input := [] })
  else (.ok (s.input.take n), { s with input := s.input.drop n })

/-- `readFull`: the bytes that the buffer holds afterwards. -/
def readFull (n : Nat) : Decoder Bytes := do
  willRead n
  fillBuffer n

/-- The reader's `ReadByte`. -/
def nextByte : Decoder UInt8 := fun s ↦
  match s.input with
  | [] => (.error .unexpectedEOF, s)
  | b :: rest => (.ok b, { s with input := rest })

/-- `readByte`. -/
def readByte : Decoder UInt8 := do
  willRead 1
  nextByte

/-- `readUint`. -/
def readUint : (size : Nat) → Decoder Nat
  | 0 => do
    rearm
    return 0
  | 1 => do
    let b ← readByte
    return b.toNat
  | size => do
    let buffer ← readFull size
    if buffer.head? = some 0 then throw .canonSize else return setBytes buffer

/-- The size that follows a header byte, which is not to be a small one. -/
def readSize (size : Nat) : Decoder Nat := do
  let size ← readUint size
  if size < 56 then throw .canonSize else return size

/-- At the top level the end of the input is reported as such. -/
def headerError (s : Stream) (err : RlpError) : RlpError :=
  match s.stack, err with
  | [], .unexpectedEOF => .eof
  | [], .valueTooLarge => .eof
  | _, err => err

/-- Note the value of a byte that is its own encoding. -/
def setByteval (b : UInt8) : Decoder Unit := modify fun s ↦ { s with byteval := b }

/-- What a header that starts with the given byte announces. -/
def kindOfByte (b : UInt8) : Decoder (Kind × Nat) := do
  setByteval 0
  if b < 0x80 then
    setByteval b
    return (.byte, 0)
  else if b < 0xB8 then return (.string, (b - 0x80).toNat)
  else if b < 0xC0 then
    let size ← readSize (b - 0xB7).toNat
    return (.string, size)
  else if b < 0xF8 then return (.list, (b - 0xC0).toNat)
  else
    let size ← readSize (b - 0xF7).toNat
    return (.list, size)

/-- `readKind`. -/
def readKind : Decoder (Kind × Nat) := do
  let s ← get
  let b ← tryCatch readByte fun err ↦ throw (headerError s err)
  kindOfByte b

/-- Check the size of the value ahead against the limit of the list, as it was before the header was
read, and against the length of the input. -/
def checkSize (listLimit : Option Nat) (s : Stream) (size : Nat) : Option RlpError :=
  if listLimit.any (size > ·) then some .elemTooLarge
  else if s.limited ∧ size > s.remaining then some .valueTooLarge
  else none

/-- `Kind`. An error that `readKind` returns is cached like a kind. -/
def getKind : Decoder (Kind × Nat) := fun s ↦
  match s.kind with
  | some kind => (match s.kinderr with
    | some err => .error err
    | none => .ok (kind, s.size), s)
  | none =>
    if s.listLimit = some 0 then (.error .eol, s)
    else
      match readKind s with
      | (.error err, s') =>
        (.error err, { s' with kind := some .byte, size := 0, kinderr := some err })
      | (.ok (kind, size), s') =>
        match checkSize s.listLimit s' size with
        | some err => (.error err, { s' with kind := some kind, size, kinderr := some err })
        | none => (.ok (kind, size), { s' with kind := some kind, size, kinderr := none })

def takeByte : Decoder UInt8 := do
  let s ← get
  rearm
  return s.byteval

/-- A string that is a single byte below 128 is not to have a header. -/
def overlong (b : Bytes) : Bool := b.length = 1 && b.head?.any (· < 128)

/-- Read a string, which is not to be overlong. -/
def readString (size : Nat) : Decoder Bytes := do
  let b ← readFull size
  if overlong b then throw .canonSize else return b

def stringAhead : Kind × Nat → Decoder Bytes
  | (.byte, _) => do
    let b ← takeByte
    return [b]
  | (.string, size) => readString size
  | (.list, _) => throw .expectedString

/-- `Bytes`. -/
def getBytes : Decoder Bytes := do
  let ahead ← getKind
  stringAhead ahead

/-- The error of a size that was read as an integer. -/
def integerError : RlpError → RlpError
  | .canonSize => .canonInt
  | err => err

/-- Read an integer, which is not to be overlong. -/
def readInteger (size : Nat) : Decoder Nat := do
  let v ← tryCatch (readUint size) fun err ↦ throw (integerError err)
  if size > 0 ∧ v < 128 then throw .canonSize else return v

def uintAhead (maxbits : Nat) : Kind × Nat → Decoder Nat
  | (.byte, _) => do
    let s ← get
    if s.byteval = 0 then throw .canonInt
    else
      rearm
      return s.byteval.toNat
  | (.string, size) => if size > maxbits / 8 then throw .uintOverflow else readInteger size
  | (.list, _) => throw .expectedString

/-- `uint`. -/
def getUint (maxbits : Nat) : Decoder Nat := do
  let ahead ← getKind
  uintAhead maxbits ahead

def boolOfUint : Nat → Decoder Bool
  | 0 => return false
  | 1 => return true
  | num => throw (.invalidBoolean num)

/-- `Bool`. -/
def getBool : Decoder Bool := do
  let num ← getUint 8
  boolOfUint num

/-- The bytes of the integer ahead. An empty string is not read. -/
def integerBytes : Kind × Nat → Decoder Bytes
  | (.list, _) => throw .expectedString
  | (.byte, _) => do
    let b ← takeByte
    return [b]
  | (.string, 0) => do
    rearm
    return []
  | (.string, size) => readString size

def bigIntAhead (ahead : Kind × Nat) : Decoder Nat := do
  let buffer ← integerBytes ahead
  if buffer.head? = some 0 then throw .canonInt else return setBytes buffer

/-- `decodeBigInt`. -/
def getBigInt : Decoder Nat := do
  let ahead ← getKind
  bigIntAhead ahead

/-- Enter a list. Its size is removed from the enclosing one without a check. -/
def Stream.enter (s : Stream) (size : Nat) : Stream :=
  let s := match s.listLimit with
    | some limit => s.setLimit (sub64 limit size)
    | none => s
  { s with stack := size :: s.stack, kind := none, size := 0 }

def listAhead : Kind × Nat → Decoder Nat
  | (.list, size) => do
    modify fun s ↦ s.enter size
    return size
  | _ => throw .expectedList

/-- `List`. -/
def openList : Decoder Nat := do
  let ahead ← getKind
  listAhead ahead

/-- `ListEnd`. -/
def listEnd : Decoder Unit := fun s ↦
  match s.listLimit with
  | none => (.error .notInList, s)
  | some limit =>
    if limit > 0 then (.error .notAtEOL, s)
    else (.ok (), { s with stack := s.stack.tail, kind := none, size := 0 })

end GoEntropy.Rlp
