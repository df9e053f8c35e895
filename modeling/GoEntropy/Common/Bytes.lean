import Mathlib

/-!
# Bytes, words and their encodings

The fixed-width types of the code base, the big-endian conversions between them, and the RLP
encoder.

Addresses and hashes are bit vectors rather than byte arrays: they are compared, stored in maps and
converted to words far more often than they are indexed. `Bytes` is a list because nothing in the
development depends on constant-time access. A `uint64` is a natural number, and the operations that
can leave the range wrap explicitly.
-/

namespace GoEntropy

/-- A byte slice. A nil slice and an empty one are the same value here; the places where the code
tells them apart carry an `Option`. -/
abbrev Bytes := List UInt8

/-- `common.Address`. -/
abbrev Address := BitVec 160

/-- `common.Hash`. -/
abbrev Hash := BitVec 256

/-- `uint256.Int`, a word of the virtual machine. -/
abbrev Word := BitVec 256

/-- `math.MaxUint64`. -/
def maxUint64 : Nat := 2 ^ 64 - 1

/-- Reduction to the range of a `uint64`. -/
def wrap64 (n : Nat) : Nat := n % 2 ^ 64

/-- Addition of `uint64` values. -/
def add64 (x y : Nat) : Nat := wrap64 (x + y)

/-- Subtraction of `uint64` values. -/
def sub64 (x y : Nat) : Nat := wrap64 (x + (2 ^ 64 - y))

/-- `mathutil.SafeAdd`, with `none` for an overflow. -/
def safeAdd (x y : Nat) : Option Nat := if x + y < 2 ^ 64 then some (x + y) else none

/-- `mathutil.SafeMul`, with `none` for an overflow. -/
def safeMul (x y : Nat) : Option Nat := if x * y < 2 ^ 64 then some (x * y) else none

theorem wrap64_of_lt {n : Nat} (h : n < 2 ^ 64) : wrap64 n = n := Nat.mod_eq_of_lt h

theorem wrap64_lt (n : Nat) : wrap64 n < 2 ^ 64 := Nat.mod_lt _ (by decide)

theorem add64_of_lt {x y : Nat} (h : x + y < 2 ^ 64) : add64 x y = x + y := wrap64_of_lt h

theorem sub64_of_le {x y : Nat} (hy : y ≤ x) (hx : x < 2 ^ 64) : sub64 x y = x - y := by
  unfold sub64 wrap64
  omega

theorem safeAdd_eq_some {x y z : Nat} : safeAdd x y = some z ↔ x + y = z ∧ z < 2 ^ 64 := by
  unfold safeAdd
  split
  · simp only [Option.some.injEq]
    omega
  · simp only [reduceCtorEq, false_iff]
    omega

/-! ## Big-endian conversions -/

/-- The `w` low bytes of `n`, most significant first. -/
def beBytes : Nat → Nat → Bytes
  | 0, _ => []
  | w + 1, n => beBytes w (n / 256) ++ [UInt8.ofNat n]

@[simp] theorem length_beBytes (w n : Nat) : (beBytes w n).length = w := by
  induction w generalizing n with
  | zero => rfl
  | succ w ih => simp [beBytes, ih]

theorem beBytes_zero (w : Nat) : beBytes w 0 = List.replicate w 0 := by
  induction w with
  | zero => rfl
  | succ w ih =>
    rw [beBytes, Nat.zero_div, ih, List.replicate_succ']
    rfl

/-- `big.Int.SetBytes`: the number a byte string denotes, most significant byte first. -/
def setBytes (b : Bytes) : Nat := b.foldl (fun acc x ↦ acc * 256 + x.toNat) 0

theorem setBytes_concat (b : Bytes) (x : UInt8) :
    setBytes (b ++ [x]) = setBytes b * 256 + x.toNat := by
  simp [setBytes]

theorem setBytes_beBytes (w n : Nat) : setBytes (beBytes w n) = n % 256 ^ w := by
  induction w generalizing n with
  | zero => simp [beBytes, setBytes, Nat.mod_one]
  | succ w ih =>
    rw [beBytes, setBytes_concat, ih, Nat.pow_succ', Nat.mod_mul]
    simp only [UInt8.toNat_ofNat']
    omega

/-- `big.Int.Bytes`: the shortest byte string denoting `n`. -/
def minBytes (n : Nat) : Bytes := if n = 0 then [] else beBytes (n.log2 / 8 + 1) n

/-- `big.Int.BitLen` of a non-negative number. -/
def bitLen (n : Nat) : Nat := if n = 0 then 0 else n.log2 + 1

/-- `Address.Bytes`. -/
def addressBytes (a : Address) : Bytes := beBytes 20 a.toNat

/-- `Hash.Bytes`, also the 32-byte form of a word. -/
def hashBytes (h : Hash) : Bytes := beBytes 32 h.toNat

/-- `common.BytesToAddress`: the last twenty bytes. -/
def bytesToAddress (b : Bytes) : Address := BitVec.ofNat 160 (setBytes b)

/-- `common.BytesToHash`: the last thirty-two bytes. -/
def bytesToHash (b : Bytes) : Hash := BitVec.ofNat 256 (setBytes b)

@[simp] theorem bytesToHash_hashBytes (h : Hash) : bytesToHash (hashBytes h) = h := by
  unfold bytesToHash hashBytes
  rw [setBytes_beBytes, Nat.mod_eq_of_lt (lt_of_lt_of_eq h.isLt (by decide))]
  simp

/-- The address made of the last twenty bytes of a hash or a word. -/
def hashToAddress (h : Hash) : Address := h.setWidth 160

/-- `common.RightPadBytes`. -/
def rightPadBytes (b : Bytes) (l : Nat) : Bytes := b ++ List.replicate (l - b.length) 0

/-- `common.LeftPadBytes`. -/
def leftPadBytes (b : Bytes) (l : Nat) : Bytes := List.replicate (l - b.length) 0 ++ b

/-! ## RLP encoding

The encoder is compositional: a value's writer appends its encoding, and a list is its header
followed by the encodings of its items. -/

namespace Rlp

/-- `puthead`: the header of a string or list of the given size. -/
def puthead (smalltag largetag : UInt8) (size : Nat) : Bytes :=
  if size < 56 then [smalltag + UInt8.ofNat size]
  else (largetag + UInt8.ofNat (minBytes size).length) :: minBytes size

/-- `writeBytes`. -/
def bytes (b : Bytes) : Bytes :=
  match b with
  | [x] => if x ≤ 0x7F then [x] else puthead 0x80 0xB7 1 ++ [x]
  | _ => puthead 0x80 0xB7 b.length ++ b

/-- `writeUint64` and `writeBigInt`: an unsigned integer is the string of its minimal bytes. -/
def uint (n : Nat) : Bytes := bytes (minBytes n)

def list (items : List Bytes) : Bytes :=
  puthead 0xC0 0xF7 items.flatten.length ++ items.flatten

end Rlp

/-! ## Hash functions and signature recovery -/

/-- The cryptographic primitives the code imports. They are uninterpreted: a result of the
development holds for every choice of them, and says so where it needs more. -/
structure Crypto where
  /-- `crypto.Keccak256`. -/
  keccak256 : Bytes → Hash
  /-- `crypto.Ecrecover`: the uncompressed public key a signature was made with. -/
  ecrecover : Hash → Bytes → Option Bytes
  /-- `sha256.Sum256`. -/
  sha256 : Bytes → Bytes
  /-- `ripemd160`. -/
  ripemd160 : Bytes → Bytes

namespace Crypto

variable (C : Crypto)

/-- `rlpHash` of a list of encoded items. -/
def rlpHash (items : List Bytes) : Hash := C.keccak256 (Rlp.list items)

/-- `prefixedRlpHash`, used for typed transactions. -/
def prefixedRlpHash (tag : UInt8) (items : List Bytes) : Hash :=
  C.keccak256 (tag :: Rlp.list items)

/-- `crypto.CreateAddress`. -/
def createAddress (b : Address) (nonce : Nat) : Address :=
  hashToAddress (C.keccak256 (Rlp.list [Rlp.bytes (addressBytes b), Rlp.uint nonce]))

/-- `crypto.CreateAddress2`. -/
def createAddress2 (b : Address) (salt inithash : Hash) : Address :=
  hashToAddress (C.keccak256 (0xff :: (addressBytes b ++ hashBytes salt ++ hashBytes inithash)))

/-- `emptyCodeHash`. -/
def emptyCodeHash : Hash := C.keccak256 []

end Crypto

/-- `secp256k1N`, the order of the curve. -/
def secp256k1N : Nat := 0xfffffffffffffffffffffffffffffffebaaedce6af48a03bbfd25e8cd0364141

/-- `secp256k1halfN`. -/
def secp256k1halfN : Nat := secp256k1N / 2

/-- `crypto.ValidateSignatureValues`. -/
def validateSignatureValues (v : UInt8) (r s : Nat) (homestead : Bool) : Bool :=
  if r < 1 ∨ s < 1 then false
  else if homestead ∧ s > secp256k1halfN then false
  else decide (r < secp256k1N) && decide (s < secp256k1N) && (v == 0 || v == 1)

end GoEntropy
