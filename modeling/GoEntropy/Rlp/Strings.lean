import GoEntropy.Rlp.Codec

/-!
# Byte strings and integers

The decoders of strings, byte arrays, integers and booleans all read a byte string. Each of them
accepts the strings that stand for a value of its type in canonical form.
-/

namespace GoEntropy.Rlp

open Decoder List

variable {α : Type} {s s' : Stream} {n m bound : Nat} {e : RlpError}

/-! ## The encoding of a byte string -/

variable {b : Bytes}

theorem overlong_iff : overlong b = true ↔ ∃ x : UInt8, x < 0x80 ∧ b = [x] := by
  unfold overlong
  match b with
  | [] | [x] | _ :: _ :: _ => simp

/-- A string has a header, unless it would be overlong with one. -/
theorem bytes_eq (b : Bytes) :
    bytes b = if overlong b then b else puthead 0x80 0xB7 b.length ++ b := by
  unfold bytes
  split
  · rename_i x
    have hle : x ≤ 0x7F ↔ x < 0x80 := by
      rw [UInt8.le_iff_toNat_le, UInt8.lt_iff_toNat_lt]
      simp only [UInt8.reduceToNat]
      omega
    by_cases hx : x < 0x80
    · rw [if_pos (hle.2 hx), if_pos (overlong_iff.2 ⟨x, hx, rfl⟩)]
    · rw [if_neg (mt hle.1 hx), if_neg]
      · rfl
      · intro hlong
        obtain ⟨y, hy, heq⟩ := overlong_iff.1 hlong
        cases heq
        exact hx hy
  · rename_i hne
    rw [if_neg]
    intro hlong
    obtain ⟨y, _, heq⟩ := overlong_iff.1 hlong
    exact hne y heq

theorem le_length_bytes (b : Bytes) : b.length ≤ (bytes b).length := by
  rw [bytes_eq]
  split
  · rfl
  · rw [length_append]
    omega

theorem length_puthead_mono (small large : UInt8) (h : n ≤ m) :
    (puthead small large n).length ≤ (puthead small large m).length := by
  have hmono := length_minBytes_le (h.trans_lt (length_minBytes_le_iff.1 le_rfl))
  unfold puthead
  split <;> split <;> simp <;> omega

/-- The length of a string is read off its encoding. -/
theorem puthead_append_inj {small large : UInt8} {b c : Bytes}
    (h : puthead small large b.length ++ b = puthead small large c.length ++ c) : b = c := by
  have hlen := congrArg length h
  rw [length_append, length_append] at hlen
  have heq : b.length = c.length := by
    rcases Nat.lt_trichotomy b.length c.length with hlt | heq | hgt
    · have := length_puthead_mono small large hlt.le
      omega
    · exact heq
    · have := length_puthead_mono small large hgt.le
      omega
  rw [heq] at h
  exact append_cancel_left h

theorem puthead_append_ne {x : UInt8} (hx : x < 0x80) :
    puthead 0x80 0xB7 b.length ++ b ≠ [x] := by
  intro h
  cases b with
  | nil =>
    cases h
    exact absurd hx (by decide)
  | cons y b =>
    have hlen := congrArg length h
    have hpos := length_puthead_mono 0x80 0xB7 (Nat.zero_le (y :: b).length)
    simp only [length_append, length_cons, length_nil] at hlen hpos
    have hone : (puthead 0x80 0xB7 0).length = 1 := rfl
    omega

theorem bytes_eq_singleton {x : UInt8} (hx : x < 0x80) : bytes b = [x] ↔ b = [x] := by
  rw [bytes_eq]
  split
  · exact .rfl
  · rename_i hlong
    refine ⟨fun h ↦ absurd h (puthead_append_ne hx), fun h ↦ absurd ?_ hlong⟩
    exact overlong_iff.2 ⟨x, hx, h⟩

theorem bytes_eq_puthead {b c : Bytes} :
    bytes b = puthead 0x80 0xB7 c.length ++ c ↔ b = c ∧ overlong c = false := by
  rw [bytes_eq]
  split
  · rename_i hlong
    obtain ⟨x, hx, rfl⟩ := overlong_iff.1 hlong
    refine ⟨fun h ↦ absurd h.symm (puthead_append_ne hx), ?_⟩
    rintro ⟨rfl, hshort⟩
    rw [hlong] at hshort
    cases hshort
  · rename_i hlong
    refine ⟨fun h ↦ ?_, ?_⟩
    · obtain rfl := puthead_append_inj h
      exact ⟨rfl, by simpa using hlong⟩
    · rintro ⟨rfl, _⟩
      rfl

/-! ## Decoders of byte strings -/

theorem readString_eq_ok :
    readString n s = (.ok b, s') ↔ readFull n s = (.ok b, s') ∧ overlong b = false := by
  unfold readString
  rw [bind_check_eq_ok]
  simp

namespace Meets

variable {P : Stream → Prop} (hP : ∀ s : Stream, s.kind = none → P s)

include hP

theorem readString (n : Nat) : Meets P (readString n) :=
  .bind (readFull hP n) fun _ ↦ .ite (.throw ⟨nofun, nofun⟩) (.pure _)

theorem takeByte : Meets P takeByte :=
  .bind (fun _ hs ↦ ⟨hs, nofun⟩) fun _ ↦ rearm hP fun _ ↦ .pure _

theorem stringAhead : ∀ ahead, Meets P (stringAhead ahead)
  | (.byte, _) => .bind (takeByte hP) fun _ ↦ .pure _
  | (.string, n) => readString hP n
  | (.list, _) => .throw ⟨nofun, nofun⟩

theorem integerBytes : ∀ ahead, Meets P (integerBytes ahead)
  | (.byte, _) => .bind (takeByte hP) fun _ ↦ .pure _
  | (.string, 0) => rearm hP fun _ ↦ .pure _
  | (.string, _ + 1) => readString hP _
  | (.list, _) => .throw ⟨nofun, nofun⟩

theorem bigIntAhead (ahead : Kind × Nat) : Meets P (bigIntAhead ahead) :=
  .bind (integerBytes hP ahead) fun _ ↦ .ite (.throw ⟨nofun, nofun⟩) (.pure _)

theorem readInteger (n : Nat) : Meets P (readInteger n) := by
  refine .bind (mapError (readUint hP n) fun e he ↦ ?_) fun _ ↦ .ite (.throw ⟨nofun, nofun⟩) (.pure _)
  unfold integerError
  split
  · exact ⟨nofun, nofun⟩
  · exact he

theorem uintAhead (maxbits : Nat) : ∀ ahead, Meets P (uintAhead maxbits ahead)
  | (.byte, _) => .bind (fun _ hs ↦ ⟨hs, nofun⟩) fun _ ↦ .ite (.throw ⟨nofun, nofun⟩)
    (rearm hP fun _ ↦ .pure _)
  | (.string, n) => .ite (.throw ⟨nofun, nofun⟩) (readInteger hP n)
  | (.list, _) => .throw ⟨nofun, nofun⟩

end Meets

theorem stringAhead_byte : stringAhead (.byte, n) s = (.ok b, s') ↔
    b = [s.byteval] ∧ s' = { s with kind := none } := by
  show ((.ok [s.byteval], { s with kind := none }) : Except RlpError Bytes × Stream) = _ ↔ _
  simp only [Prod.mk.injEq, Except.ok.injEq]
  exact and_congr eq_comm eq_comm

/-- A decoder that accepts the strings that stand for a value. -/
theorem stringCodec_of_bytes {f : Kind × Nat → Decoder α} {p : α → Bytes}
    (hok : ∀ {k n s s' v}, s.Sized → (k = .byte → s.byteval < 0x80) →
      (f (k, n) s = (.ok v, s') ↔ stringAhead (k, n) s = (.ok (p v), s')))
    (herr : ∀ ahead, Meets (fun _ ↦ True) (f ahead)) :
    StringCodec f fun v ↦ bytes (p v) where
  form v := by
    rw [bytes_eq]
    split
    · next hlong => exact .inl (overlong_iff.1 hlong)
    · exact .inr ⟨p v, rfl⟩
  byte := by
    intro s s' v hs hx
    rw [hok hs fun _ ↦ hx, stringAhead_byte, bytes_eq_singleton hx]
  string := by
    intro s s' v n hs
    rw [hok hs fun h ↦ by cases h]
    show readString n s = _ ↔ _
    rw [readString_eq_ok]
    have hlen {b : Bytes} (hread : readFull n s = (.ok b, s')) : b.length = n := by
      obtain ⟨_, hle, rfl, _⟩ := (readFull_eq_ok hs).1 hread
      exact length_take_of_le hle
    constructor
    · rintro ⟨hread, hlong⟩
      refine ⟨p v, hread, ?_⟩
      rw [← hlen hread]
      exact bytes_eq_puthead.2 ⟨rfl, hlong⟩
    · rintro ⟨b, hread, henc⟩
      rw [← hlen hread] at henc
      obtain ⟨rfl, hlong⟩ := bytes_eq_puthead.1 henc
      exact ⟨hread, hlong⟩
  list := by
    intro s s' v n hs h
    rw [hok hs fun h ↦ by cases h] at h
    cases h
  error _ h := (herr _).plain h

variable {k : Kind}

theorem codec_getBytes : Codec bound getBytes bytes :=
  codec_of_string (stringCodec_of_bytes (fun _ _ ↦ .rfl) (.stringAhead fun _ _ ↦ trivial))

theorem codec_decodeString : Codec bound decodeString bytes :=
  codec_getBytes.mapError (keepsEol_wrapStreamError _)

theorem codec_decodeByteSlice : Codec bound decodeByteSlice bytes :=
  codec_getBytes.mapError (keepsEol_wrapStreamError _)

/-! ## Integers -/

theorem Stream.take_zero_eq (s : Stream) : s.take 0 = { s with kind := none } := by
  cases hs : s.stack <;> simp [Stream.take, hs]

theorem readString_zero (hs : s.Sized) : readString 0 s = (.ok [], { s with kind := none }) := by
  refine readString_eq_ok.2 ⟨(readFull_eq_ok hs).2 ⟨fun l _ ↦ Nat.zero_le l, Nat.zero_le _, ?_, ?_⟩, rfl⟩
  · rw [take_zero]
  · rw [Stream.take_zero_eq]

theorem integerBytes_eq (hs : s.Sized) : integerBytes (k, n) s = stringAhead (k, n) s := by
  match k, n with
  | .byte, _ => rfl
  | .list, _ => rfl
  | .string, 0 => exact (readString_zero hs).symm
  | .string, n + 1 => rfl

variable {v : Nat}

theorem eq_minBytes_iff : b = minBytes v ↔ b.head? ≠ some 0 ∧ v = setBytes b := by
  constructor
  · rintro rfl
    exact ⟨head_minBytes v, (setBytes_minBytes v).symm⟩
  · rintro ⟨hhead, rfl⟩
    exact (minBytes_setBytes hhead).symm

theorem bigIntAhead_eq_ok (hs : s.Sized) : bigIntAhead (k, n) s = (.ok v, s') ↔
    stringAhead (k, n) s = (.ok (minBytes v), s') := by
  unfold bigIntAhead
  rw [bind_check_eq_ok]
  simp only [integerBytes_eq hs]
  constructor
  · rintro ⟨b, hb, hhead, rfl⟩
    rw [hb, ← eq_minBytes_iff.2 ⟨hhead, rfl⟩]
  · exact fun hb ↦ ⟨_, hb, head_minBytes v, setBytes_minBytes v⟩

theorem codec_decodeBigInt : Codec bound decodeBigInt uint :=
  (codec_of_string (stringCodec_of_bytes (fun hs _ ↦ bigIntAhead_eq_ok hs)
    (.bigIntAhead fun _ _ ↦ trivial))).mapError (keepsEol_wrapStreamError _)

theorem setBytes_singleton (x : UInt8) : setBytes [x] = x.toNat := by simp [setBytes]

theorem overlong_minBytes (hv : v ≠ 0) : overlong (minBytes v) = true ↔ v < 128 := by
  rw [overlong_iff]
  constructor
  · rintro ⟨x, hx, hb⟩
    have hv : v = x.toNat := by rw [← setBytes_singleton, ← hb, setBytes_minBytes]
    rw [hv]
    exact UInt8.lt_iff_toNat_lt.1 hx
  · intro hlt
    have hof : (UInt8.ofNat v).toNat = v := by
      rw [UInt8.toNat_ofNat']
      omega
    refine ⟨UInt8.ofNat v, ?_, (eq_minBytes_iff.2 ⟨?_, ?_⟩).symm⟩
    · rw [UInt8.lt_iff_toNat_lt, hof]
      exact hlt
    · intro hzero
      have : UInt8.ofNat v = 0 := by simpa using hzero
      rw [this] at hof
      exact hv hof.symm
    · rw [setBytes_singleton, hof]

theorem readInteger_eq_ok (hs : s.Sized) : readInteger n s = (.ok v, s') ↔
    readString n s = (.ok (minBytes v), s') := by
  have hcatch {t : Stream} {w : Nat} : tryCatch (readUint n) (fun err ↦ throw (integerError err)) s =
      (.ok w, t) ↔ readUint n s = (.ok w, t) := mapError_eq_ok
  unfold readInteger
  rw [bind_check_eq_ok]
  simp only [hcatch]
  rcases Nat.eq_zero_or_pos n with rfl | hn
  · rw [readString_zero hs]
    constructor
    · rintro ⟨w, hread, -, rfl⟩
      cases hread
      rfl
    · intro h
      obtain ⟨hb, rfl⟩ := Prod.mk.inj h
      obtain rfl : v = 0 := by rw [← setBytes_minBytes v, ← Except.ok.inj hb]; rfl
      exact ⟨0, rfl, by omega, rfl⟩
  · simp only [readUint_eq_ok hs hn, readString_eq_ok, readFull_eq_ok hs]
    constructor
    · rintro ⟨w, ⟨hlist, hlen, hzero, rfl, rfl⟩, hlarge, rfl⟩
      have hge : 128 ≤ setBytes (s.input.take n) := not_lt.1 fun h ↦ hlarge ⟨hn, h⟩
      have hhead := head_ne_zero (length_take_of_le hlen) hzero (by omega)
      have hb := eq_minBytes_iff.2 ⟨hhead, rfl⟩
      refine ⟨⟨hlist, hlen, hb.symm, rfl⟩, ?_⟩
      rw [Bool.eq_false_iff, ne_eq, overlong_minBytes (by omega)]
      exact not_lt.2 hge
    · rintro ⟨⟨hlist, hlen, hb, rfl⟩, hlong⟩
      obtain ⟨hhead, rfl⟩ := eq_minBytes_iff.1 hb.symm
      have hpos : setBytes (s.input.take n) ≠ 0 := by
        intro hzero
        rw [hzero] at hb
        have := congrArg length hb
        rw [length_take_of_le hlen] at this
        exact hn.ne this
      rw [Bool.eq_false_iff, ne_eq, overlong_minBytes hpos] at hlong
      exact ⟨_, ⟨hlist, hlen, .inr hhead, rfl, rfl⟩, fun h ↦ hlong h.2, rfl⟩

theorem uintAhead_eq_ok {v maxbits : Nat} (hbits : 8 ≤ maxbits) (hs : s.Sized) :
    uintAhead maxbits (k, n) s = (.ok v, s') ↔
      stringAhead (k, n) s = (.ok (minBytes v), s') ∧ (minBytes v).length ≤ maxbits / 8 := by
  cases k with
  | byte =>
    rw [stringAhead_byte, @eq_comm _ (minBytes v), eq_minBytes_iff]
    show (if s.byteval = 0 then throw .canonInt else do rearm; pure s.byteval.toNat : Decoder Nat) s = _ ↔ _
    by_cases hzero : s.byteval = 0
    · simp [hzero]
    · rw [if_neg hzero]
      show ((.ok s.byteval.toNat, { s with kind := none }) : Except RlpError Nat × Stream) = _ ↔ _
      simp only [Prod.mk.injEq, Except.ok.injEq, head?_cons, ne_eq, Option.some.injEq, hzero,
        not_false_eq_true, true_and, setBytes_singleton]
      constructor
      · rintro ⟨rfl, rfl⟩
        refine ⟨⟨rfl, rfl⟩, (length_minBytes_le (w := 1) ?_).trans (by omega)⟩
        exact s.byteval.toNat_lt
      · rintro ⟨⟨rfl, rfl⟩, _⟩
        exact ⟨rfl, rfl⟩
  | string =>
    show (if n > maxbits / 8 then throw .uintOverflow else readInteger n : Decoder Nat) s = _ ↔
      readString n s = _ ∧ _
    rw [← readInteger_eq_ok hs]
    have hlen (hread : readInteger n s = (.ok v, s')) : (minBytes v).length = n := by
      rw [readInteger_eq_ok hs, readString_eq_ok, readFull_eq_ok hs] at hread
      rw [hread.1.2.2.1]
      exact length_take_of_le hread.1.2.1
    by_cases hlarge : n > maxbits / 8
    · rw [if_pos hlarge]
      rw [throw_apply, error_eq_ok, false_iff]
      rintro ⟨hread, hle⟩
      rw [hlen hread] at hle
      omega
    · rw [if_neg hlarge]
      refine ⟨fun hread ↦ ⟨hread, ?_⟩, fun h ↦ h.1⟩
      rw [hlen hread]
      omega
  | list =>
    show ((.error .expectedString, s) : Except RlpError Nat × Stream) = _ ↔
      ((.error .expectedString, s) : Except RlpError Bytes × Stream) = _ ∧ _
    simp

namespace Width

variable (w : Width)

theorem uint_lt (v : w.Val) : w.uint v < 256 ^ (w.bits / 8) := by
  cases w with
  | w8 => exact UInt8.toNat_lt v
  | w16 => exact UInt16.toNat_lt v
  | w32 => exact UInt32.toNat_lt v
  | w64 => exact UInt64.toNat_lt v

theorem setUint_uint (v : w.Val) : w.setUint (w.uint v) = v := by
  cases w with
  | w8 => exact UInt8.ofNat_toNat
  | w16 => exact UInt16.ofNat_toNat
  | w32 => exact UInt32.ofNat_toNat
  | w64 => exact UInt64.ofNat_toNat

theorem uint_setUint (h : n < 256 ^ (w.bits / 8)) : w.uint (w.setUint n) = n := by
  cases w with
  | w8 => exact UInt8.toNat_ofNat_of_lt' h
  | w16 => exact UInt16.toNat_ofNat_of_lt' h
  | w32 => exact UInt32.toNat_ofNat_of_lt' h
  | w64 => exact UInt64.toNat_ofNat_of_lt' h

theorem eight_le_bits : 8 ≤ w.bits := by cases w <;> decide

end Width

theorem codec_decodeUint (w : Width) : Codec bound (decodeUint w) fun v ↦ uint (w.uint v) := by
  have hstring : StringCodec (fun ahead ↦ uintAhead w.bits ahead >>= fun num ↦ pure (w.setUint num))
      fun v ↦ bytes (minBytes (w.uint v)) := by
    refine stringCodec_of_bytes (fun {k n s s' v} hs _ ↦ ?_) fun ahead ↦
      .bind (.uintAhead (fun _ _ ↦ trivial) _ ahead) fun _ ↦ .pure _
    rw [bind_eq_ok]
    simp only [uintAhead_eq_ok w.eight_le_bits hs, length_minBytes_le_iff]
    constructor
    · rintro ⟨num, t, ⟨hread, hlt⟩, hpure⟩
      cases hpure
      rwa [w.uint_setUint hlt]
    · intro hread
      refine ⟨w.uint v, s', ⟨hread, w.uint_lt v⟩, ?_⟩
      rw [w.setUint_uint]
      rfl
  have hcodec : Codec bound _ _ := (codec_of_string hstring).mapError (keepsEol_wrapStreamError (.uint w))
  rw [← bind_assoc, ← mapError_bind_pure] at hcodec
  exact hcodec

theorem Meets.boolOfUint {P : Stream → Prop} : ∀ num, Meets P (boolOfUint num)
  | 0 | 1 => .pure _
  | _ + 2 => .throw ⟨nofun, nofun⟩

theorem boolOfUint_eq_ok {num : Nat} {b : Bool} :
    boolOfUint num s = (.ok b, s') ↔ num = b.toNat ∧ s' = s := by
  match num with
  | 0 =>
    show ((.ok false, s) : Except RlpError Bool × Stream) = _ ↔ _
    cases b <;> simp [eq_comm]
  | 1 =>
    show ((.ok true, s) : Except RlpError Bool × Stream) = _ ↔ _
    cases b <;> simp [eq_comm]
  | num + 2 =>
    show ((.error (.invalidBoolean (num + 2)), s) : Except RlpError Bool × Stream) = _ ↔ _
    cases b <;> simp

theorem codec_decodeBool : Codec bound decodeBool fun b ↦ uint b.toNat := by
  have hstring : StringCodec (fun ahead ↦ uintAhead 8 ahead >>= boolOfUint)
      fun b ↦ bytes (minBytes b.toNat) := by
    refine stringCodec_of_bytes (fun {k n s s' b} hs _ ↦ ?_) fun ahead ↦
      .bind (.uintAhead (fun _ _ ↦ trivial) _ ahead) .boolOfUint
    rw [bind_eq_ok]
    simp only [uintAhead_eq_ok le_rfl hs, boolOfUint_eq_ok]
    constructor
    · rintro ⟨num, t, ⟨hread, _⟩, rfl, rfl⟩
      exact hread
    · intro hread
      refine ⟨b.toNat, s', ⟨hread, ?_⟩, rfl, rfl⟩
      cases b <;> decide
  have hcodec : Codec bound _ _ := (codec_of_string hstring).mapError (keepsEol_wrapStreamError .bool)
  rw [← bind_assoc] at hcodec
  exact hcodec

/-! ## Byte arrays -/

variable {len : Nat}

theorem fillArray_eq_ok {slice : Bytes} {v : List.Vector UInt8 len} :
    fillArray len slice s = (.ok v, s') ↔ slice = v.toList ∧ s' = s := by
  unfold fillArray
  by_cases hlen : slice.length = len
  · rw [dif_pos hlen, Prod.mk.injEq]
    refine and_congr ⟨fun h ↦ ?_, fun h ↦ congrArg Except.ok (Subtype.ext h)⟩ eq_comm
    exact congrArg List.Vector.toList (Except.ok.inj h)
  · rw [dif_neg hlen]
    rw [throw_apply, error_eq_ok, false_iff]
    rintro ⟨rfl, _⟩
    exact hlen v.toList_length

theorem byteArrayAhead_eq_ok {v : List.Vector UInt8 len} (hs : s.Sized) :
    byteArrayAhead len (k, n) s = (.ok v, s') ↔ stringAhead (k, n) s = (.ok v.toList, s') := by
  have hv := v.toList_length
  cases k with
  | byte =>
    rw [stringAhead_byte, byteArrayAhead]
    split_ifs with hzero hlong
    rotate_left 2
    · rw [bind_ok (show takeByte s = (.ok s.byteval, { s with kind := none }) from rfl),
        fillArray_eq_ok, eq_comm]
    all_goals
      rw [throw_apply, error_eq_ok, false_iff]
      rintro ⟨h, _⟩
      rw [h, length_singleton] at hv
      omega
  | string =>
    show _ ↔ readString n s = _
    rw [readString_eq_ok]
    have hlen (hread : readFull n s = (.ok v.toList, s')) : len = n := by
      rw [readFull_eq_ok hs] at hread
      rw [← hv, hread.2.2.1]
      exact length_take_of_le hread.2.1
    rw [byteArrayAhead]
    split_ifs with hlt hgt
    · rw [throw_apply, error_eq_ok, false_iff]
      exact fun h ↦ hlt.ne (hlen h.1)
    · rw [throw_apply, error_eq_ok, false_iff]
      exact fun h ↦ (Nat.ne_of_gt hgt) (hlen h.1)
    · obtain rfl : len = n := by omega
      rw [bind_eq_ok]
      constructor
      · rintro ⟨slice, t, hread, hcheck⟩
        split at hcheck
        · cases hcheck
        · rename_i hlong
          obtain ⟨rfl, rfl⟩ := fillArray_eq_ok.1 hcheck
          exact ⟨hread, by simpa using hlong⟩
      · rintro ⟨hread, hlong⟩
        refine ⟨_, _, hread, ?_⟩
        rw [if_neg (by simp [hlong])]
        exact fillArray_eq_ok.2 ⟨rfl, rfl⟩
  | list =>
    show ((.error _, s) : Except RlpError _ × Stream) = _ ↔
      ((.error .expectedString, s) : Except RlpError Bytes × Stream) = _
    simp

theorem Meets.byteArrayAhead (ahead : Kind × Nat) : Meets (fun _ ↦ True) (byteArrayAhead len ahead) := by
  have hfill (slice : Bytes) : Meets (fun _ ↦ True) (fillArray len slice) := by
    unfold fillArray
    split
    · exact .pure _
    · exact .throw ⟨nofun, nofun⟩
  obtain ⟨k, n⟩ := ahead
  cases k with
  | byte =>
    exact .ite (.throw ⟨nofun, nofun⟩) <| .ite (.throw ⟨nofun, nofun⟩) <|
      .bind (takeByte fun _ _ ↦ trivial) fun _ ↦ hfill _
  | string =>
    exact .ite (.throw ⟨nofun, nofun⟩) <| .ite (.throw ⟨nofun, nofun⟩) <|
      .bind (readFull (fun _ _ ↦ trivial) _) fun slice ↦ .ite (.throw ⟨nofun, nofun⟩) (hfill slice)
  | list => exact .throw ⟨nofun, nofun⟩

theorem codec_decodeByteArray (len : Nat) : Codec bound (decodeByteArray len) fun v ↦ bytes v.toList :=
  codec_of_string (stringCodec_of_bytes (fun hs _ ↦ byteArrayAhead_eq_ok hs) .byteArrayAhead)

end GoEntropy.Rlp
