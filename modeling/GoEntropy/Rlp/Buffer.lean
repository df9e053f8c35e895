import GoEntropy.Rlp.Encode
import GoEntropy.Rlp.Values

/-!
# What the encoder's buffer makes of a value

A writer appends string data and list headers to the buffer. The headers it appends lie within the data
it appends, in order, so the output of the buffer grows by one piece: the encoding of the value. The
size of a header is computed from the sizes of the buffer before and after its content; that it is the
length of the content rests on `lhsize` being the length of all finished headers.
-/

namespace GoEntropy.Rlp

open EncBuffer List

/-! ## Sizes -/

/-- The loop ends with the shift that leaves nothing, or when all rounds are used up. -/
theorem intsizeFrom_eq {rounds k : Nat} (hk : k ≤ rounds) {size i : Nat} (hlow : k = 0 ∨ 256 ^ k ≤ i)
    (hhigh : k = rounds ∨ i < 256 ^ (k + 1)) : intsizeFrom rounds size i = size + k := by
  induction rounds generalizing k size i with
  | zero =>
    obtain rfl : k = 0 := Nat.le_zero.1 hk
    rfl
  | succ rounds ih =>
    rw [intsizeFrom]
    cases k with
    | zero =>
      have hi : i / 256 = 0 := by omega
      rw [if_pos hi, Nat.add_zero]
    | succ k =>
      have hpos := Nat.pow_pos (n := k) (show 0 < 256 by decide)
      have hi : i / 256 ≠ 0 := by omega
      rw [if_neg hi, ih (Nat.le_of_succ_le_succ hk) (.inr (by omega)) (by omega)]
      omega

/-- `putint` takes as many bytes as a number needs, but no more than eight. -/
theorem putint_cases (i : Nat) : ∃ w ≤ 7, putint i = beBytes (w + 1) i ∧ (w = 0 ∨ 256 ^ w ≤ i) ∧
    (w = 7 ∨ i < 256 ^ (w + 1)) := by
  unfold putint
  split_ifs
  all_goals exact ⟨_, by omega, rfl, by omega, by omega⟩

theorem intsize_eq (i : Nat) : intsize i = (putint i).length := by
  obtain ⟨w, hw, hput, hlow, hhigh⟩ := putint_cases i
  rw [hput, length_beBytes, Nat.add_comm]
  exact intsizeFrom_eq hw hlow hhigh

theorem putint_eq {i : Nat} (hpos : 0 < i) (h : i < 2 ^ 64) : putint i = minBytes i := by
  obtain ⟨w, hw, hput, hlow, hhigh⟩ := putint_cases i
  rw [hput]
  refine (minBytes_eq_beBytes ?_ ?_).symm
  · exact hlow.elim (fun h ↦ h ▸ hpos) id
  · exact hhigh.elim (fun hw ↦ hw ▸ h) id

theorem putheader_eq {small large : UInt8} {n : Nat} (h : n < 2 ^ 64) :
    putheader small large n = puthead small large n := by
  unfold putheader puthead
  split
  · rfl
  · rw [putint_eq (by omega) h]

theorem length_putheader (small large : UInt8) (n : Nat) :
    (putheader small large n).length = if n < 56 then 1 else 1 + intsize n := by
  unfold putheader
  split
  · rfl
  · rw [length_cons, intsize_eq, Nat.add_comm]

/-! ## Rendering headers -/

/-- Inserting the headers into the string data, which starts at the given offset, gives the output. -/
inductive Renders : Nat → Bytes → List Listhead → Bytes → Prop
  | nil (off : Nat) (x : Bytes) : Renders off x [] x
  | cons {off n : Nat} {y z out : Bytes} {heads : List Listhead}
    (h : Renders (off + y.length) z heads out) :
    Renders off (y ++ z) (⟨off + y.length, n⟩ :: heads) (y ++ putheader 0xC0 0xF7 n ++ out)

variable {off : Nat} {x x' out out' : Bytes} {heads heads' : List Listhead}

theorem Renders.prepend (y : Bytes) (h : Renders (off + y.length) x heads out) :
    Renders off (y ++ x) heads (y ++ out) := by
  cases h with
  | nil => exact .nil off _
  | @cons _ n z w out heads h =>
    have h' := @Renders.cons off n (y ++ z) w out heads
      (by rw [length_append, ← Nat.add_assoc]; exact h)
    simpa [Nat.add_assoc] using h'

theorem Renders.append (h : Renders off x heads out) (h' : Renders (off + x.length) x' heads' out') :
    Renders off (x ++ x') (heads ++ heads') (out ++ out') := by
  induction h with
  | nil off x => exact h'.prepend x
  | @cons off n y z out heads h ih =>
    rw [length_append, ← Nat.add_assoc] at h'
    have := Renders.cons (n := n) (ih h')
    simpa using this

/-- `copyTo` inserts the headers. -/
theorem Renders.copyFrom (h : Renders off x heads out) {str : Bytes} (hstr : str.length = off) :
    EncBuffer.copyFrom (str ++ x) heads off = out := by
  induction h generalizing str with
  | nil off x => rw [EncBuffer.copyFrom, ← hstr, drop_left]
  | @cons off n y z out heads h ih =>
    have hrest := @ih (str ++ y) (by rw [length_append, hstr])
    rw [append_assoc] at hrest
    rw [EncBuffer.copyFrom, hrest, ← hstr, drop_left, Nat.add_sub_cancel_left, take_left]
    rfl

/-! ## Writers -/

/-- The function appends a piece to the output of the buffer. -/
def Appends (f : EncBuffer → EncBuffer) (out : Bytes) : Prop := ∀ buf : EncBuffer,
  ∃ (x : Bytes) (heads : List Listhead), x.length ≤ out.length ∧
    f buf = ⟨buf.str ++ x, buf.lheads ++ heads, buf.lhsize + (out.length - x.length)⟩ ∧
    Renders buf.str.length x heads out

variable {f g : EncBuffer → EncBuffer} {b c : Bytes}

theorem Appends.makeBytes (h : Appends f out) : (f .empty).makeBytes = out := by
  obtain ⟨x, heads, _, hf, hrenders⟩ := h .empty
  rw [hf]
  exact @Renders.copyFrom 0 x out heads hrenders [] rfl

theorem appends_id : Appends id [] := fun buf ↦
  ⟨[], [], le_rfl, by simp, .nil _ _⟩

theorem appends_write (b : Bytes) : Appends (·.write b) b := fun buf ↦
  ⟨b, [], le_rfl, by simp [write], .nil _ _⟩

theorem Appends.comp (hf : Appends f out) (hg : Appends g out') :
    Appends (fun buf ↦ g (f buf)) (out ++ out') := by
  intro buf
  obtain ⟨x, heads, hx, hfbuf, hrenders⟩ := hf buf
  obtain ⟨x', heads', hx', hgbuf, hrenders'⟩ := hg (f buf)
  refine ⟨x ++ x', heads ++ heads', ?_, ?_, hrenders.append ?_⟩
  · rw [length_append, length_append]
    omega
  · show g (f buf) = _
    rw [hgbuf, hfbuf]
    simp only [append_assoc, length_append, mk.injEq, true_and]
    omega
  · rwa [hfbuf, length_append] at hrenders'

/-- The content of a list, with a header that is finished afterwards. -/
def inList (f : EncBuffer → EncBuffer) (buf : EncBuffer) : EncBuffer :=
  (f buf.list.2).listEnd buf.list.1

/-- `listEnd` sets the size of its header. -/
theorem listEnd_eq (str : Bytes) (lheads heads : List Listhead) (head : Listhead) (lhsize : Nat) {size : Nat}
    (hsize : str.length + lhsize - head.offset - head.size = size) :
    EncBuffer.listEnd ⟨str, lheads ++ head :: heads, lhsize⟩ lheads.length =
      ⟨str, lheads ++ { head with size } :: heads, lhsize + (putheader 0xC0 0xF7 size).length⟩ := by
  have hhead : (lheads ++ head :: heads)[lheads.length]? = some head := by simp
  have hset (h : Listhead) : (lheads ++ head :: heads).set lheads.length h = lheads ++ h :: heads := by
    simp
  simp only [EncBuffer.listEnd, hhead, EncBuffer.bufSize, hset, hsize, length_putheader]

theorem Appends.inList (hf : Appends f out) :
    Appends (inList f) (putheader 0xC0 0xF7 out.length ++ out) := by
  intro buf
  obtain ⟨x, heads, hx, hfbuf, hrenders⟩ := hf buf.list.2
  refine ⟨x, ⟨buf.str.length, out.length⟩ :: heads, ?_, ?_, ?_⟩
  · rw [length_append]
    omega
  · unfold Rlp.inList
    rw [hfbuf]
    show EncBuffer.listEnd ⟨buf.str ++ x, buf.lheads ++ [⟨buf.str.length, buf.lhsize⟩] ++ heads, _⟩ _ = _
    rw [append_assoc]
    -- The size of the buffer has grown by the length of the content.
    have hsize : (buf.str ++ x).length + (buf.lhsize + (out.length - x.length)) - buf.str.length -
        buf.lhsize = out.length := by
      rw [length_append]
      omega
    refine (listEnd_eq _ buf.lheads heads ⟨buf.str.length, buf.lhsize⟩ _ hsize).trans ?_
    rw [EncBuffer.mk.injEq, length_append]
    exact ⟨rfl, rfl, by omega⟩
  · exact @.cons buf.str.length out.length [] x out heads hrenders

/-- The function appends the given encoding, if either is short enough for the sizes to be `int`s. -/
def Writes (f : EncBuffer → EncBuffer) (b : Bytes) : Prop :=
  ∃ out, Appends f out ∧ (out.length < 2 ^ 63 ∨ b.length < 2 ^ 63 → out = b)

theorem writes_id : Writes id [] := ⟨[], appends_id, fun _ ↦ rfl⟩

theorem writes_write (b : Bytes) : Writes (·.write b) b := ⟨b, appends_write b, fun _ ↦ rfl⟩

theorem Writes.comp (hf : Writes f b) (hg : Writes g c) : Writes (fun buf ↦ g (f buf)) (b ++ c) := by
  obtain ⟨out, hf, hout⟩ := hf
  obtain ⟨out', hg, hout'⟩ := hg
  refine ⟨out ++ out', hf.comp hg, fun h ↦ ?_⟩
  rw [length_append, length_append] at h
  rw [hout (by omega), hout' (by omega)]

theorem Writes.inList (hf : Writes f b) : Writes (inList f) (framed b) := by
  obtain ⟨out, hf, hout⟩ := hf
  refine ⟨_, hf.inList, fun h ↦ ?_⟩
  rw [length_framed, length_append] at h
  obtain rfl := hout (by omega)
  rw [putheader_eq (by omega)]
  rfl

theorem writes_string (b : Bytes) :
    Writes (fun buf ↦ (buf.encodeStringHeader b.length).write b) (puthead 0x80 0xB7 b.length ++ b) := by
  refine ⟨_, (appends_write _).comp (appends_write b), fun h ↦ ?_⟩
  rw [length_append, length_append] at h
  rw [putheader_eq (by omega)]

theorem writes_writeBytes (b : Bytes) : Writes (·.writeBytes b) (bytes b) := by
  match b with
  | [] => exact writes_string []
  | [x] =>
    unfold writeBytes bytes
    by_cases hx : x ≤ 0x7F
    · simp only [if_pos hx]
      exact writes_write [x]
    · simp only [if_neg hx]
      exact writes_string [x]
  | x :: y :: b => exact writes_string (x :: y :: b)

theorem bytes_minBytes {n : Nat} (h : 128 ≤ n) :
    bytes (minBytes n) = puthead 0x80 0xB7 (minBytes n).length ++ minBytes n := by
  refine bytes_eq_puthead.2 ⟨rfl, ?_⟩
  rw [Bool.eq_false_iff, ne_eq, overlong_minBytes (by omega)]
  omega

theorem uint_of_lt {i : Nat} (hzero : i ≠ 0) (h : i < 128) : uint i = [UInt8.ofNat i] := by
  have hmin : minBytes i = [UInt8.ofNat i] := minBytes_eq_beBytes (w := 0) (by omega) (by omega)
  have hlong : overlong (minBytes i) = true := (overlong_minBytes hzero).2 h
  rw [uint, bytes_eq, if_pos hlong, hmin]

theorem uint_of_le {i : Nat} (h : 128 ≤ i) (h64 : i < 2 ^ 64) :
    uint i = (0x80 + UInt8.ofNat (minBytes i).length) :: minBytes i := by
  have hlen := length_minBytes_le (w := 8) (by simpa using h64)
  rw [uint, bytes_minBytes h, puthead, if_pos (by omega)]
  rfl

theorem writes_writeUint64 {i : Nat} (h : i < 2 ^ 64) : Writes (·.writeUint64 i) (uint i) := by
  unfold writeUint64
  by_cases hzero : i = 0
  · subst hzero
    exact writes_write [0x80]
  · by_cases hbyte : i < 128
    · simp only [if_neg hzero, if_pos hbyte, uint_of_lt hzero hbyte]
      exact writes_write [UInt8.ofNat i]
    · simp only [if_neg hzero, if_neg hbyte]
      rw [putint_eq (by omega) h, uint_of_le (by omega) h]
      exact writes_write _

theorem minBytes_of_bitLen {i : Nat} (h : 64 < bitLen i) :
    minBytes i = beBytes ((bitLen i + 7) / 8) i := by
  unfold bitLen at h ⊢
  unfold minBytes
  split
  · rename_i hzero
    rw [if_pos hzero] at h
    omega
  · rename_i hzero
    congr 1
    omega

theorem writes_writeBigInt (i : Nat) : Writes (·.writeBigInt i) (uint i) := by
  unfold writeBigInt
  by_cases hsmall : bitLen i ≤ 64
  · simp only [if_pos hsmall]
    exact writes_writeUint64 (lt_two_pow_of_bitLen_le hsmall)
  · simp only [if_neg hsmall]
    have hlarge : 128 ≤ i := by
      by_contra hlt
      have := (Nat.log2_lt (n := i) (k := 7) (by
        rintro rfl
        exact hsmall (by decide))).2 (by omega)
      unfold bitLen at hsmall
      split at hsmall <;> omega
    have hmin := minBytes_of_bitLen (not_le.1 hsmall)
    have hstring := writes_string (minBytes i)
    rw [uint, bytes_minBytes hlarge]
    rwa [hmin, length_beBytes] at hstring ⊢

theorem writes_writeByteArray {len : Nat} (v : List.Vector UInt8 len) :
    Writes (writeByteArray len v) (bytes v.toList) := by
  unfold writeByteArray
  match hv : v.toList with
  | [] => exact writes_write [0x80]
  | [b] =>
    have hwrite := writes_writeBytes [b]
    unfold writeBytes at hwrite
    by_cases hb : b ≤ 0x7f
    · simp only [if_pos hb] at hwrite ⊢
      exact hwrite
    · simp only [if_neg hb]
      rw [bytes, if_neg hb]
      exact writes_write _
  | x :: y :: b => exact writes_string (x :: y :: b)

theorem writes_writeElems {α : Type} {writer : Writer α} {enc : α → Bytes} {vs : List α}
    (h : ∀ v, Writes (writer v) (enc v)) : Writes (writeElems writer vs) (vs.flatMap enc) := by
  induction vs with
  | nil => exact writes_id
  | cons v vs ih => exact (h v).comp ih

theorem writes_writeSlice {α : Type} {writer : Writer α} {enc : α → Bytes} (vs : List α)
    (h : ∀ v, Writes (writer v) (enc v)) : Writes (writeSlice writer vs) (framed (vs.flatMap enc)) := by
  cases vs with
  | nil => exact writes_write [0xC0]
  | cons v vs => exact (writes_writeElems h).inList

mutual

theorem writes_writeInterface : (v : Generic) → Writes (writeInterface v) v.encode
  | .bytes b => writes_writeBytes b
  | .list [] => writes_write [0xC0]
  | .list (v :: vs) => ((writes_writeInterface v).comp (writes_writeInterfaces vs)).inList

theorem writes_writeInterfaces : (vs : List Generic) → Writes (writeInterfaces vs) (Generic.encodes vs)
  | [] => writes_id
  | v :: vs => (writes_writeInterface v).comp (writes_writeInterfaces vs)

end

theorem makeWriter_elems {elem : Typ} (h : elem ≠ .uint .w8) :
    makeWriter (.slice elem) = writeSlice (makeWriter elem) ∧
    (∀ len, makeWriter (.array len elem) =
      fun val ↦ writeSlice (makeWriter elem) (List.Vector.toList val)) ∧
    ∀ name, writeFields (.tail name elem) = fun val ↦ writeElems (makeWriter elem) val := by
  cases elem with
  | uint w =>
    cases w with
    | w8 => exact absurd rfl h
    | _ => exact ⟨rfl, fun _ ↦ rfl, fun _ ↦ rfl⟩
  | _ => exact ⟨rfl, fun _ ↦ rfl, fun _ ↦ rfl⟩

mutual

/-- **The writer of every type appends the encoding of the value.** -/
theorem writes_makeWriter : (typ : Typ) → (v : typ.Val) → Writes (makeWriter typ v) (typ.encode v)
  | .uint w, v => writes_writeUint64 ((w.uint_lt v).trans_le (by cases w <;> decide))
  | .bool, true => writes_write [0x01]
  | .bool, false => writes_write [0x80]
  | .bigInt, v => writes_writeBigInt v
  | .string, v => writes_writeBytes v
  | .slice elem, v => by
    by_cases h : elem = .uint .w8
    · subst h
      exact writes_writeBytes v
    · rw [(makeWriter_elems h).1, (makeDecoder_elems h).1.2]
      exact writes_writeSlice v (writes_makeWriter elem)
  | .array len elem, v => by
    by_cases h : elem = .uint .w8
    · subst h
      exact writes_writeByteArray v
    · rw [(makeWriter_elems h).2.1 len, ((makeDecoder_elems h).2.1 len).2]
      exact writes_writeSlice _ (writes_makeWriter elem)
  | .struct fields, v => (writes_writeFields fields v).inList
  | .interface, v => writes_writeInterface v

theorem writes_writeFields : (fields : Fields) → (v : fields.Val) →
    Writes (writeFields fields v) (fields.encode v)
  | .nil, _ => writes_id
  | .cons _ t rest, v => (writes_makeWriter t v.1).comp (writes_writeFields rest v.2)
  | .tail name elem, v => by
    by_cases h : elem = .uint .w8
    · subst h
      exact writes_writeBytes v
    · rw [(makeWriter_elems h).2.2 name, ((makeDecoder_elems h).2.2 .bool name).2]
      exact writes_writeElems (writes_makeWriter elem)

end

theorem encodeToBytes_eq {typ : Typ} {v : typ.Val}
    (h : (encodeToBytes typ v).length < 2 ^ 63 ∨ (typ.encode v).length < 2 ^ 63) :
    encodeToBytes typ v = typ.encode v := by
  obtain ⟨out, happends, hout⟩ := writes_makeWriter typ v
  have hmake : encodeToBytes typ v = out := happends.makeBytes
  rw [hmake] at h ⊢
  exact hout h

end GoEntropy.Rlp
