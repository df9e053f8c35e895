import GoEntropy.Rlp.Values

/-!
# Structs with pointers

A pointer to a byte array with the tag `nil` is decoded to nil from an empty string, and to the array
otherwise. Structs with such fields, and values that are kept in another form than the decoder returns, are
put together here from the codecs of their parts.
-/

namespace GoEntropy.Rlp

open Decoder

variable {α β : Type} {dec : Decoder α} {enc : α → Bytes} {s s' : Stream} {n bound : Nat} {e : RlpError}

theorem Codec.equiv (h : Codec bound dec enc) (f : α ≃ β) : Codec bound (f <$> dec) fun v ↦ enc (f.symm v) where
  complete := by
    intro s v hs hlen hinput hroom
    obtain ⟨s', hdec, hadv⟩ := h.complete hs hlen hinput hroom
    exact ⟨s', by rw [map_ok hdec, Equiv.apply_symm_apply], hadv⟩
  sound := by
    intro s s' v hs hlen hok
    obtain ⟨w, hdec, rfl⟩ := map_eq_ok.1 hok
    rw [Equiv.symm_apply_apply]
    exact h.sound hs hlen hdec
  eol hs hlen hend := map_eq_error.2 (h.eol hs hlen hend)
  error hs hlen herr := h.error hs hlen (map_eq_error.1 herr)
  pos v := h.pos (f.symm v)

theorem Codec.encode_congr {enc' : α → Bytes} (h : Codec bound dec enc) (heq : ∀ v, enc' v = enc v) :
    Codec bound dec enc' := by
  rwa [show enc' = enc from funext heq]

theorem codec_mapError_getKind {f : Kind × Nat → Decoder α} {g : RlpError → RlpError}
    (h : Codec bound (getKind >>= f) enc) (hg : KeepsEol g) : Codec bound (mapError g getKind >>= f) enc where
  complete := by
    intro s v hs hlen hinput hroom
    obtain ⟨s', hdec, hadv⟩ := h.complete hs hlen hinput hroom
    obtain ⟨ahead, t, hkind, hf⟩ := bind_eq_ok.1 hdec
    exact ⟨s', bind_eq_ok.2 ⟨ahead, t, mapError_eq_ok.2 hkind, hf⟩, hadv⟩
  sound := by
    intro s s' v hs hlen hok
    obtain ⟨ahead, t, hkind, hf⟩ := bind_eq_ok.1 hok
    exact h.sound hs hlen (bind_eq_ok.2 ⟨ahead, t, mapError_eq_ok.1 hkind, hf⟩)
  eol hs _ hend :=
    bind_error (mapError_eq_error.2 ⟨.eol, getKind_eol hs hend, hg.eol.symm⟩)
  error := by
    intro s s' e hs hlen herr
    rcases bind_eq_error.1 herr with hkind | ⟨ahead, t, hkind, hf⟩
    · obtain ⟨e', hread, rfl⟩ := mapError_eq_error.1 hkind
      rcases getKind_error hs hread with hplain | ⟨rfl, hend, rfl⟩
      · exact .inl (hg.plain hplain)
      · exact .inr ⟨hg.eol, hend, rfl⟩
    · exact h.error hs hlen (bind_eq_error.2 (.inr ⟨ahead, t, mapError_eq_ok.1 hkind, hf⟩))
  pos := h.pos

/-! ## Pointers to byte arrays -/

/-- The pointer ahead: an empty string sets it to nil, anything else is left to the decoder of the array. -/
def nilPtrAhead (len : Nat) (elemdec : Decoder (List.Vector UInt8 len)) (ahead : Kind × Nat) :
    Decoder (Option (List.Vector UInt8 len)) :=
  if ahead.1 ≠ .byte ∧ ahead.2 = 0 then
    if ahead.1 ≠ .string then
      throw (.decodeError "wrong kind of empty value (got List, want String)" (.array len (.uint .w8)) [])
    else do
      rearm
      return none
  else some <$> elemdec

/-- `makeNilPtrDecoder`, for a byte array. -/
def decodeNilPtr (len : Nat) : Decoder (Option (List.Vector UInt8 len)) := do
  let ahead ← mapError (wrapStreamError · (.array len (.uint .w8))) getKind
  nilPtrAhead len (decodeByteArray len) ahead

/-- The bytes of a byte array behind a pointer. -/
def ptrBytes {len : Nat} (p : Option (List.Vector UInt8 len)) : Bytes := (p.map List.Vector.toList).getD []

variable {len : Nat}

theorem ptrBytes_eq_nil (hpos : 0 < len) {p : Option (List.Vector UInt8 len)} :
    ptrBytes p = [] ↔ p = none := by
  cases p with
  | none => simp [ptrBytes]
  | some v =>
    have hv := v.toList_length
    refine ⟨fun h ↦ ?_, nofun⟩
    change v.toList = [] at h
    rw [h, List.length_nil] at hv
    omega

theorem nilPtrAhead_eq_ok (hlen : 1 < len) {k : Kind} {p : Option (List.Vector UInt8 len)} (hs : s.Sized) :
    nilPtrAhead len (byteArrayAhead len (k, n)) (k, n) s = (.ok p, s') ↔
      stringAhead (k, n) s = (.ok (ptrBytes p), s') := by
  unfold nilPtrAhead
  split_ifs with hempty hkind
  · -- an empty list
    obtain rfl : k = .list := by
      cases k <;> simp_all
    show ((.error _, s) : Except RlpError _ × Stream) = _ ↔
      ((.error .expectedString, s) : Except RlpError Bytes × Stream) = _
    simp
  · -- an empty string
    obtain ⟨rfl, rfl⟩ : k = .string ∧ n = 0 := ⟨by simpa using hkind, hempty.2⟩
    show ((.ok none, { s with kind := none }) : Except RlpError _ × Stream) = _ ↔ readString 0 s = _
    rw [readString_zero hs]
    simp only [Prod.mk.injEq, Except.ok.injEq]
    refine and_congr_left fun _ ↦ ?_
    rw [eq_comm, ← ptrBytes_eq_nil (by omega : 0 < len), eq_comm]
  · rw [map_eq_ok]
    constructor
    · rintro ⟨v, hv, rfl⟩
      exact (byteArrayAhead_eq_ok hs).1 hv
    · intro h
      cases p with
      | some v => exact ⟨v, (byteArrayAhead_eq_ok hs).2 h, rfl⟩
      | none =>
        -- Only an empty string has no bytes.
        exfalso
        cases k with
        | byte =>
          have := (stringAhead_byte.1 h).1
          simp [ptrBytes] at this
        | string =>
          obtain ⟨hread, -⟩ := readString_eq_ok.1 h
          obtain ⟨-, hle, hb, -⟩ := (readFull_eq_ok hs).1 hread
          have := congrArg List.length hb
          rw [List.length_take_of_le hle] at this
          exact hempty ⟨by simp, this.symm⟩
        | list => cases h

theorem codec_decodeNilPtr (hlen : 1 < len) :
    Codec bound (decodeNilPtr len) fun p ↦ bytes (ptrBytes p) := by
  refine codec_mapError_getKind ?_ (keepsEol_wrapStreamError _)
  have hcodec : Codec bound (getKind >>= fun ahead ↦ nilPtrAhead len (byteArrayAhead len ahead) ahead)
      fun p ↦ bytes (ptrBytes p) :=
    codec_of_string (stringCodec_of_bytes (fun hs _ ↦ nilPtrAhead_eq_ok hlen hs) fun ahead ↦
      .ite (.ite (.throw ⟨nofun, nofun⟩) (.rearm (fun _ _ ↦ trivial) fun _ ↦ .pure _))
        (.bind (.byteArrayAhead ahead) fun _ ↦ .pure _))
  -- The decoder of the array finds the header that was read for the pointer.
  refine hcodec.congr fun s hs _ ↦ ?_
  rcases hkind : getKind s with ⟨e | ahead, s'⟩
  · rw [bind_error hkind, bind_error hkind]
  · rw [bind_ok hkind, bind_ok hkind]
    have hagain : decodeByteArray len s' = byteArrayAhead len ahead s' :=
      (bind_ahead hs hkind).trans (bind_ok hkind)
    unfold nilPtrAhead
    split_ifs
    · rfl
    · rfl
    · exact bind_congr hagain

/-! ## Structs -/

/-- Decode a field and the fields after it. -/
def withField (typ : Typ) (name : String) (dec : Decoder α) (rest : Decoder β) : Decoder (α × β) := do
  let v ← decodeField typ name dec
  let vs ← rest
  return (v, vs)

/-- `makeStructDecoder`, from the decoder of the fields. -/
def decodeStruct (typ : Typ) (fields : Decoder α) : Decoder α := do
  let _ ← mapError (wrapStreamError · typ) openList
  let vals ← fields
  mapError (wrapStreamError · typ) listEnd
  return vals

variable {typ : Typ}

theorem content_withField {name : String} {decs : Decoder β} {encs : β → Bytes}
    (h : Codec bound dec enc) (hs : Content bound decs encs) :
    Content bound (withField typ name dec decs) fun v ↦ enc v.1 ++ encs v.2 :=
  content_cons h hs

theorem codec_decodeStruct (h : Content bound dec enc) :
    Codec bound (decodeStruct typ dec) fun v ↦ framed (enc v) :=
  (codec_of_content h (keepsEol_wrapStreamError _) (keepsEol_wrapStreamError _)).mono (Nat.le_succ bound)

/-! ## Whole inputs -/

/-- `DecodeBytes`, into a target with the given decoder. -/
def decodeBytesInto (typ : Typ) (dec : Decoder α) (b : Bytes) : Except RlpError α :=
  match mapError (addTarget typ) dec (.reset b) with
  | (.error err, _) => .error err
  | (.ok v, s) => if s.input.length > 0 then .error .moreThanOneValue else .ok v

theorem decodeBytesInto_eq_ok {v : α} {b : Bytes} (h : Codec (2 ^ 63) dec enc) (hb : b.length < 2 ^ 63) :
    decodeBytesInto typ dec b = .ok v ↔ enc v = b := by
  have hcodec := h.mapError (keepsEol_addTarget typ)
  rw [← whole_iff (hcodec.sound (ready_reset hb) hb) (hcodec.complete (ready_reset hb) hb), decodeBytesInto]
  rcases mapError (addTarget typ) dec (.reset b) with ⟨e | w, s'⟩ <;> simp [leftover_eq_ok]

/-! ## Bit vectors -/

/-- A byte array as a number of fixed width. -/
def vectorEquiv (w : Nat) : List.Vector UInt8 w ≃ BitVec (8 * w) where
  toFun v := BitVec.ofNat (8 * w) (setBytes v.toList)
  invFun a := ⟨beBytes w a.toNat, length_beBytes w _⟩
  left_inv v := by
    have hlt : setBytes v.toList < 2 ^ (8 * w) := by
      have := setBytes_lt v.toList
      rwa [v.toList_length, show (256 : Nat) = 2 ^ 8 from rfl, ← Nat.pow_mul] at this
    refine Subtype.ext ?_
    show beBytes w (BitVec.ofNat (8 * w) (setBytes v.toList)).toNat = v.toList
    rw [BitVec.toNat_ofNat, Nat.mod_eq_of_lt hlt]
    have := beBytes_setBytes v.toList
    rwa [v.toList_length] at this
  right_inv a := by
    have hlt : a.toNat < 256 ^ w := by
      rw [show (256 : Nat) = 2 ^ 8 from rfl, ← Nat.pow_mul]
      exact a.isLt
    show BitVec.ofNat (8 * w) (setBytes (beBytes w a.toNat)) = a
    rw [setBytes_beBytes, Nat.mod_eq_of_lt hlt]
    simp

end GoEntropy.Rlp
