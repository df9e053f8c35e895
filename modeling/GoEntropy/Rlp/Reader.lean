import GoEntropy.Rlp.Buffer

/-!
# Reading the encoder's buffer

String data and list headers are kept apart in the buffer, and are put together when it is read: by
`copyTo` into a slice that is long enough, by `writeTo` piece by piece, or by an `encReader` in calls
that take whatever fits. A reader writes a header to the scratch space of the buffer and keeps a slice
of it from call to call, so what a piece holds depends on what the space holds when it is copied.

All of them give the encoding of the nested structure that was written (`buffer_readings_agree`).
-/

namespace GoEntropy.Rlp

open EncBuffer List

/-! ## What is written -/

/-- Properly nested operations. `list` stands for `list` and `listEnd` around its content. -/
inductive Ops
  | done
  | seq (x y : Ops)
  | write (b : Bytes)
  | writeBytes (b : Bytes)
  | writeUint64 (i : UInt64)
  | writeBool (b : Bool)
  | writeBigInt (i : ℤ)
  | list (content : Ops)

namespace Ops

/-- The buffer after the operations. `writeBigInt` ignores the sign. -/
def run : Ops → EncBuffer → EncBuffer
  | done, buf => buf
  | seq x y, buf => y.run (x.run buf)
  | write b, buf => buf.write b
  | writeBytes b, buf => buf.writeBytes b
  | writeUint64 i, buf => buf.writeUint64 i.toNat
  | writeBool b, buf => buf.writeBool b
  | writeBigInt i, buf => buf.writeBigInt i.natAbs
  | list content, buf =>
    let (index, buf) := buf.list
    (content.run buf).listEnd index

/-- The encoding of the nested structure, by recursion. -/
def encode : Ops → Bytes
  | done => []
  | seq x y => x.encode ++ y.encode
  | write b => b
  | writeBytes b => bytes b
  | writeUint64 i => uint i.toNat
  | writeBool b => uint b.toNat
  | writeBigInt i => uint i.natAbs
  | list content => framed content.encode

theorem writes_run : (ops : Ops) → Writes ops.run ops.encode
  | done => writes_id
  | seq x y => x.writes_run.comp y.writes_run
  | write b => writes_write b
  | writeBytes b => writes_writeBytes b
  | writeUint64 i => writes_writeUint64 i.toNat_lt
  | writeBool true | writeBool false => writes_write _
  | writeBigInt i => writes_writeBigInt i.natAbs
  | list content => content.writes_run.inList

end Ops

/-! ## Copying -/

/-- `copy(dst[pos:], src)`, which copies what fits. -/
def copyAt (dst : Bytes) (pos : Nat) (src : Bytes) : Bytes :=
  dst.take pos ++ src.take (dst.length - pos) ++ dst.drop (pos + src.length)

namespace EncBuffer

/-- The rounds of `copyTo`. A slice with bounds out of range is a panic, and so is a header that is
written past the end. -/
def copyRounds (str : Bytes) : List Listhead → (dst : Bytes) → (pos strpos : Nat) → Option Bytes
  | [], dst, pos, strpos => if str.length < strpos then none else some (copyAt dst pos (str.drop strpos))
  | head :: heads, dst, pos, strpos =>
    if head.offset < strpos ∨ str.length < head.offset then none
    else
      let src := (str.take head.offset).drop strpos
      let n := min (dst.length - pos) src.length
      let enc := head.encode
      if dst.length < pos + n + enc.length then none
      else
        copyRounds str heads (copyAt (copyAt dst pos src) (pos + n) enc) (pos + n + enc.length) (strpos + n)

/-- `copyTo`. -/
def copyTo (buf : EncBuffer) (dst : Bytes) : Option Bytes := copyRounds buf.str buf.lheads dst 0 0

/-- `AppendToBytes`. -/
def appendToBytes (buf : EncBuffer) (dst : Bytes) : Option Bytes :=
  let out := dst ++ List.replicate buf.bufSize 0
  (buf.copyTo (out.drop dst.length)).map (out.take dst.length ++ ·)

/-- The rounds of `writeTo`: what is written, to a writer that does not fail. -/
def writeRounds (str : Bytes) : List Listhead → (strpos : Nat) → List Bytes
  | [], strpos => if strpos < str.length then [str.drop strpos] else []
  | head :: heads, strpos =>
    if strpos < head.offset then
      (str.take head.offset).drop strpos :: head.encode :: writeRounds str heads head.offset
    else head.encode :: writeRounds str heads strpos

/-- `writeTo`. -/
def writeTo (buf : EncBuffer) : List Bytes := writeRounds buf.str buf.lheads 0

end EncBuffer

section Copying

variable {off : Nat} {str x out : Bytes} {heads : List Listhead}

theorem copyAt_append (a : Bytes) {b src : Bytes} (h : src.length ≤ b.length) :
    copyAt (a ++ b) a.length src = a ++ src ++ b.drop src.length := by
  rw [copyAt, take_left, length_append, Nat.add_sub_cancel_left, take_of_length_le h,
    drop_length_add_append]

theorem drop_take_append (str y z : Bytes) (h : str.length = off) :
    ((str ++ (y ++ z)).take (off + y.length)).drop off = y := by
  subst h
  rw [← append_assoc, take_left' length_append, drop_left]

theorem Renders.copyRounds (h : Renders off x heads out) (hstr : str.length = off) (a : Bytes)
    {b : Bytes} (hb : b.length = out.length) :
    copyRounds (str ++ x) heads (a ++ b) a.length off = some (a ++ out) := by
  induction h generalizing str a b with
  | nil off x =>
    rw [copyRounds, if_neg (by rw [length_append]; omega), ← hstr, drop_left,
      copyAt_append a hb.ge, drop_of_length_le hb.le, append_nil]
  | @cons off n y z out heads h ih =>
    simp only [length_append] at hb
    have hrest := @ih (str ++ y) (by rw [length_append, hstr]) (a ++ y ++ putheader 0xC0 0xF7 n)
      ((b.drop y.length).drop (putheader 0xC0 0xF7 n).length)
      (by rw [length_drop, length_drop]; omega)
    rw [← copyAt_append (a ++ y) (by rw [length_drop]; omega), ← copyAt_append a (by omega)] at hrest
    simp only [length_append, append_assoc] at hrest
    simp only [copyRounds, drop_take_append str y z hstr, Listhead.encode, length_append]
    rw [if_neg (by omega), min_eq_right (by omega), if_neg (by omega), Nat.add_assoc, hrest,
      append_assoc]

theorem Renders.writeRounds (h : Renders off x heads out) (hstr : str.length = off) :
    (writeRounds (str ++ x) heads off).flatten = out := by
  induction h generalizing str with
  | nil off x =>
    rw [writeRounds, ← hstr]
    cases x <;> simp
  | @cons off n y z out heads h ih =>
    have hrest := @ih (str ++ y) (by rw [length_append, hstr])
    simp only [writeRounds, drop_take_append str y z hstr, Listhead.encode]
    cases y with
    | nil | cons => simpa using hrest

end Copying

/-! ## Reading -/

/-- What a reader is about to copy: string data, or a part of the scratch space. -/
inductive Piece
  | data (b : Bytes)
  | scratch (lo hi : Nat)

namespace Piece

/-- The bytes of a piece, when the scratch space holds the given bytes. -/
def content (sizebuf : Bytes) : Piece → Bytes
  | data b => b
  | scratch lo hi => (sizebuf.take hi).drop lo

/-- The slice of a piece from an index on. -/
def sliceFrom (n : Nat) : Piece → Piece
  | data b => data (b.drop n)
  | scratch lo hi => scratch (lo + n) hi

theorem content_sliceFrom (p : Piece) (sizebuf : Bytes) (n : Nat) :
    (p.sliceFrom n).content sizebuf = (p.content sizebuf).drop n := by
  cases p with
  | data b => rfl
  | scratch lo hi => exact drop_drop.symm

end Piece

/-- `encReader`, with the scratch space of its buffer. -/
structure EncReader where
  buf : Option EncBuffer
  lhpos : Nat
  strpos : Nat
  piece : Option Piece
  sizebuf : Bytes

namespace EncReader

/-- The reader of `EncodeToReader`, with what is left in the scratch space. -/
def new (buf : EncBuffer) (sizebuf : Bytes) : EncReader := ⟨some buf, 0, 0, none, sizebuf⟩

/-- `next`. -/
def next (r : EncReader) : Option Piece × EncReader :=
  match r.buf, r.piece with
  | none, _ => (none, r)
  | some _, some p => (some p, r)
  | some buf, none =>
    match buf.lheads[r.lhpos]? with
    | some head =>
      if r.strpos < head.offset then
        (some (.data ((buf.str.take head.offset).drop r.strpos)), { r with strpos := head.offset })
      else
        let enc := head.encode
        (some (.scratch 0 enc.length),
          { r with lhpos := r.lhpos + 1, sizebuf := enc ++ r.sizebuf.drop enc.length })
    | none =>
      if r.strpos < buf.str.length then
        (some (.data (buf.str.drop r.strpos)), { r with strpos := buf.str.length })
      else (none, r)

/-- The rounds of `Read`, with so much room left in the slice: the bytes that are copied to it, and
whether `io.EOF` is returned. -/
def readRounds : (bound : Nat) → EncReader → (room : Nat) → Option (Bytes × Bool × EncReader)
  | 0, _, _ => none
  | bound + 1, r, room =>
    match r.next with
    | (none, r) => some ([], true, { r with buf := none, piece := none })
    | (some p, r) =>
      let b := p.content r.sizebuf
      if room < b.length then some (b.take room, false, { r with piece := some (p.sliceFrom room) })
      else (readRounds bound { r with piece := none } (room - b.length)).map fun q ↦ (b ++ q.1, q.2)

/-- The pieces that are left: the rest of the last one, and those that `writeTo` would still write. -/
def rest (r : EncReader) : List Bytes :=
  match r.buf with
  | none => []
  | some buf => (r.piece.map (·.content r.sizebuf)).toList ++
      EncBuffer.writeRounds buf.str (buf.lheads.drop r.lhpos) r.strpos

/-- `Read`, into a slice of the given length. A round takes a piece, so the bound is not reached. -/
def read (r : EncReader) (len : Nat) : Option (Bytes × Bool × EncReader) :=
  readRounds (r.rest.length + 1) r len

/-- Calls of `Read` with slices of the given lengths: all that they return, and whether `io.EOF` is
returned. -/
def drive : List Nat → EncReader → Option (Bytes × Bool)
  | [], _ => some ([], false)
  | len :: sizes, r => do
    let (b, eof, r) ← r.read len
    let (c, later) ← drive sizes r
    return (b ++ c, eof || later)

/-- `next` takes the first of the pieces. -/
theorem next_spec (r : EncReader) :
    (r.rest = [] ∧ r.next.1 = none) ∨ ∃ p : Piece, r.next.1 = some p ∧ r.next.2.buf.isSome ∧
      r.rest = p.content r.next.2.sizebuf :: ({ r.next.2 with piece := none } : EncReader).rest := by
  obtain ⟨_ | buf, lhpos, strpos, _ | p, sizebuf⟩ := r
  · exact .inl ⟨rfl, rfl⟩
  · exact .inl ⟨rfl, rfl⟩
  · cases hheads : buf.lheads.drop lhpos with
    | nil =>
      have hnone := getElem?_eq_none (drop_eq_nil_iff.1 hheads)
      by_cases hlt : strpos < buf.str.length
      · right
        simp [next, rest, hnone, hheads, writeRounds, hlt, Piece.content]
      · left
        simp [next, rest, hnone, hheads, writeRounds, hlt]
    | cons head heads =>
      have hhead : buf.lheads[lhpos]? = some head := by rw [← head?_drop, hheads, head?_cons]
      have hlater : buf.lheads.drop (lhpos + 1) = heads := by
        rw [← tail_drop, hheads, tail_cons]
      right
      by_cases hlt : strpos < head.offset
      · simp [next, rest, hhead, hheads, writeRounds, hlt, Piece.content]
      · simp [next, rest, hhead, hheads, hlater, writeRounds, hlt, Piece.content]
  · exact .inr ⟨p, rfl, rfl, rfl⟩

/-- The rounds of a call return what fits, and `io.EOF` once nothing is left. -/
theorem readRounds_spec {r : EncReader} {bound : Nat} (room : Nat) (h : r.rest.length < bound) :
    ∃ r', r.readRounds bound room =
        some (r.rest.flatten.take room, decide (r.rest.flatten.length ≤ room), r') ∧
      r'.rest.flatten = r.rest.flatten.drop room := by
  induction bound generalizing r room with
  | zero => omega
  | succ bound ih =>
    rw [readRounds]
    have hspec := r.next_spec
    rcases hnext : r.next with ⟨piece, r'⟩
    rw [hnext] at hspec
    dsimp only at hspec
    obtain ⟨hrest, rfl⟩ | ⟨p, rfl, hbuf, hrest⟩ := hspec
    · rw [hrest]
      simp [rest]
    · rw [hrest] at h
      rw [hrest, flatten_cons, length_append]
      dsimp only
      split
      · next hlt =>
        refine ⟨_, by rw [take_append_of_le_length hlt.le, decide_eq_false (by omega)], ?_⟩
        obtain ⟨buf, hbuf⟩ := Option.isSome_iff_exists.1 hbuf
        rw [drop_append_of_le_length hlt.le, ← Piece.content_sliceFrom]
        simp [rest, hbuf]
      · next hlt =>
        obtain ⟨r'', hread, hleft⟩ :=
          ih (room - (p.content r'.sizebuf).length) (Nat.lt_of_succ_lt_succ h)
        refine ⟨r'', ?_, ?_⟩
        · rw [hread, Option.map_some, take_append, take_of_length_le (i := room) (by omega)]
          simp only [Option.some.injEq, Prod.mk.injEq, decide_eq_decide, true_and, and_true]
          omega
        · rw [hleft, drop_append, drop_of_length_le (i := room) (by omega), nil_append]

/-- Calls return what is left as far as there is room, and `io.EOF` once it is all read. -/
theorem drive_eq (sizes : List Nat) (r : EncReader) : r.drive sizes =
    some (r.rest.flatten.take sizes.sum, decide (sizes ≠ [] ∧ r.rest.flatten.length ≤ sizes.sum)) := by
  induction sizes generalizing r with
  | nil => simp [drive]
  | cons len sizes ih =>
    obtain ⟨r', hread, hleft⟩ := readRounds_spec len (Nat.lt_succ_self r.rest.length)
    have heof : (decide (r.rest.flatten.length ≤ len) ||
        decide (sizes ≠ [] ∧ r.rest.flatten.length - len ≤ sizes.sum)) =
          decide (r.rest.flatten.length ≤ len + sizes.sum) := by
      rw [← Bool.decide_or, decide_eq_decide]
      cases sizes with
      | nil => simp
      | cons => simp; omega
    simp only [drive, read, hread, Option.bind_eq_bind, Option.bind_some, ih, hleft,
      length_drop, heof, ← take_add, ne_eq, reduceCtorEq, not_false_eq_true, true_and]
    rfl

end EncReader

/-! ## The main result -/

/-- **All ways of reading the buffer agree.** After any nested sequence of operations they give the
encoding of the nested structure, whose length is the size of the buffer. Calls of `Read` with slices of
any lengths return as much of it as fits, and `io.EOF` when it is all read. -/
theorem buffer_readings_agree (ops : Ops) (h : ops.encode.length < 2 ^ 63) :
    let buf := ops.run .empty
    buf.bufSize = ops.encode.length ∧ buf.makeBytes = ops.encode ∧
      buf.copyTo (.replicate buf.bufSize 0) = some ops.encode ∧
      (∀ dst, buf.appendToBytes dst = some (dst ++ ops.encode)) ∧ buf.writeTo.flatten = ops.encode ∧
      ∀ sizebuf sizes, (EncReader.new buf sizebuf).drive sizes =
        some (ops.encode.take sizes.sum, decide (sizes ≠ [] ∧ ops.encode.length ≤ sizes.sum)) := by
  intro buf
  obtain ⟨out, happends, hout⟩ := ops.writes_run
  obtain rfl := hout (.inr h)
  obtain ⟨x, heads, hx, hbuf, hrenders⟩ := happends .empty
  replace hbuf : buf = ⟨x, heads, ops.encode.length - x.length⟩ := hbuf.trans (by simp [EncBuffer.empty])
  have hsize : buf.bufSize = ops.encode.length := by
    rw [hbuf]
    exact Nat.add_sub_cancel' hx
  have hcopy : buf.copyTo (.replicate buf.bufSize 0) = some ops.encode := by
    rw [hsize, hbuf]
    exact hrenders.copyRounds length_nil [] length_replicate
  have hwrite : buf.writeTo.flatten = ops.encode := by
    rw [hbuf]
    exact hrenders.writeRounds length_nil
  refine ⟨hsize, happends.makeBytes, hcopy, fun dst ↦ ?_, hwrite, fun sizebuf sizes ↦ ?_⟩
  · simp [EncBuffer.appendToBytes, hcopy]
  · rw [EncReader.drive_eq, show (EncReader.new buf sizebuf).rest = buf.writeTo from rfl, hwrite]

/-- A list that holds a number and a list. -/
theorem buffer_readings_agree_nested :
    (Ops.run (.list (.seq (.writeUint64 7) (.list (.writeBytes [1, 2])))) .empty).makeBytes =
      [0xC5, 0x07, 0xC3, 0x82, 0x01, 0x02] :=
  (buffer_readings_agree (.list (.seq (.writeUint64 7) (.list (.writeBytes [1, 2]))))
    (by decide)).2.1.trans (by decide)

end GoEntropy.Rlp
