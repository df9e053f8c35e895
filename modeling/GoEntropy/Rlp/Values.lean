import GoEntropy.Rlp.Lists
import GoEntropy.Rlp.Strings

/-!
# The encoding of values

`Typ.encode` says what the encoding of a value of any type is, by recursion on the type. The decoder of
every type reads exactly these encodings.
-/

namespace GoEntropy.Rlp

open Generic Decoder

/-! ## Encodings -/

mutual

def Generic.encode : Generic → Bytes
  | .bytes b => Rlp.bytes b
  | .list elems => framed (Generic.encodes elems)

def Generic.encodes : List Generic → Bytes
  | [] => []
  | v :: vs => v.encode ++ Generic.encodes vs

end

mutual

def Typ.encode : (typ : Typ) → typ.Val → Bytes
  | .uint w => fun v ↦ Rlp.uint (w.uint v)
  | .bool => fun v ↦ Rlp.uint (Bool.toNat v)
  | .bigInt => fun v ↦ Rlp.uint v
  | .string => fun v ↦ Rlp.bytes v
  | .slice (.uint .w8) => fun v ↦ Rlp.bytes v
  | .slice elem => fun v ↦ framed (List.flatMap elem.encode v)
  | .array _ (.uint .w8) => fun v ↦ Rlp.bytes (List.Vector.toList v)
  | .array _ elem => fun v ↦ framed ((List.Vector.toList v).flatMap elem.encode)
  | .struct fields => fun v ↦ framed (fields.encode v)
  | .interface => Generic.encode

def Fields.encode : (fields : Fields) → fields.Val → Bytes
  | .nil => fun _ ↦ []
  | .cons _ t rest => fun v ↦ t.encode v.1 ++ rest.encode v.2
  | .tail _ (.uint .w8) => fun v ↦ Rlp.bytes v
  | .tail _ elem => fun v ↦ List.flatMap elem.encode v

end

variable {s s' : Stream} {n bound : Nat} {e : RlpError}

/-! ## Generic values -/

theorem Generic.encodes_eq (vs : List Generic) : encodes vs = vs.flatMap encode := by
  induction vs with
  | nil => rfl
  | cons v vs ih => rw [encodes, ih, List.flatMap_cons]

theorem Generic.encode_list (vs : List Generic) :
    (list vs).encode = framed (vs.flatMap encode) := by
  rw [encode, encodes_eq]

/-- The header of the value ahead is read once. -/
theorem bind_ahead {α : Type} {k : Kind} {f : Kind × Nat → Decoder α} (hs : s.Ready)
    (hkind : getKind s = (.ok (k, n), s')) : (getKind >>= f) s' = (getKind >>= f) s := by
  have hagain : getKind s' = (.ok (k, n), s') := by
    obtain ⟨x, hd, _, _, _, _, _, rfl⟩ := (getKind_eq_ok hs).1 hkind
    rfl
  rw [bind_ok hkind, bind_ok hagain]

theorem mapError_congr {α : Type} {dec : Decoder α} {g : RlpError → RlpError} (h : dec s' = dec s) :
    mapError g dec s' = mapError g dec s := by
  rcases hdec : dec s with ⟨e | v, t⟩
  · rw [mapError_eq_error.2 ⟨e, h.trans hdec, rfl⟩, mapError_eq_error.2 ⟨e, hdec, rfl⟩]
  · rw [mapError_eq_ok.2 (h.trans hdec), mapError_eq_ok.2 hdec]

variable {elem : Typ}

theorem decodeInterfaceTo_list {depth : Nat} (hs : s.Ready) (hkind : getKind s = (.ok (.list, n), s')) :
    decodeInterfaceTo (depth + 1) s =
      (Generic.list <$> decodeListSlice .interface (decodeInterfaceTo depth)) s := by
  rw [decodeInterfaceTo, bind_ok hkind]
  exact bind_congr (bind_congr (mapError_congr (bind_ahead hs hkind)))

theorem decodeInterfaceTo_bytes {depth : Nat} {k : Kind} (hs : s.Ready) (hk : k ≠ .list)
    (hkind : getKind s = (.ok (k, n), s')) :
    decodeInterfaceTo (depth + 1) s = (Generic.bytes <$> getBytes) s := by
  have hbytes : getBytes s' = getBytes s := bind_ahead hs hkind
  have hdec : decodeInterfaceTo (depth + 1) s = (.bytes <$> getBytes) s' := by
    rw [decodeInterfaceTo, bind_ok hkind]
    cases k with
    | byte | string => rfl
    | list => exact absurd rfl hk
  rw [hdec]
  exact bind_congr hbytes

variable {b : Bytes}

theorem kind_of_getBytes (hok : getBytes s = (.ok b, s')) :
    ∃ k n t, getKind s = (.ok (k, n), t) ∧ k ≠ .list := by
  obtain ⟨⟨k, n⟩, t, hkind, hahead⟩ := bind_eq_ok.1 hok
  refine ⟨k, n, t, hkind, ?_⟩
  rintro rfl
  cases hahead

theorem kind_of_openList {α : Type} {f : Nat → Decoder α} {g : RlpError → RlpError} {v : α}
    (hok : (mapError g openList >>= f) s = (.ok v, s')) : ∃ n t, getKind s = (.ok (.list, n), t) := by
  obtain ⟨m, t, hopen, _⟩ := bind_eq_ok.1 hok
  obtain ⟨⟨k, n⟩, t', hkind, hahead⟩ := bind_eq_ok.1 (mapError_eq_ok.1 hopen)
  cases k with
  | byte | string => cases hahead
  | list => exact ⟨n, t', hkind⟩

theorem codec_decodeInterfaceTo (depth : Nat) : Codec depth (decodeInterfaceTo depth) encode := by
  have hpos (v : Generic) : 0 < v.encode.length := by
    cases v with
    | bytes b => exact (codec_getBytes : Codec 0 _ _).pos b
    | list vs =>
      rw [encode, length_framed]
      have := length_listHeader_pos (encodes vs).length
      omega
  induction depth with
  | zero =>
    refine ⟨fun _ hlen ↦ ?_, fun _ hlen ↦ ?_, fun _ hlen ↦ ?_, fun _ hlen ↦ ?_, hpos⟩ <;>
      exact absurd hlen (Nat.not_lt_zero _)
  | succ depth ih =>
    have hslice := codec_decodeListSlice .interface ih
    refine ⟨fun {s v} hs hlen hinput hroom ↦ ?_, fun {s s' v} hs hlen hok ↦ ?_,
      fun {s} hs _ hend ↦ bind_error (getKind_eol hs hend), fun {s s' e} hs hlen herr ↦ ?_, hpos⟩
    · cases v with
      | bytes b =>
        obtain ⟨t, hget, hadv⟩ := (codec_getBytes : Codec (depth + 1) _ _).complete hs hlen hinput hroom
        obtain ⟨k, n, s1, hkind, hk⟩ := kind_of_getBytes hget
        refine ⟨t, ?_, hadv⟩
        rw [decodeInterfaceTo_bytes hs hk hkind, map_ok hget]
      | list vs =>
        rw [encode_list] at hinput hroom ⊢
        obtain ⟨t, hget, hadv⟩ := hslice.complete hs hlen hinput hroom
        obtain ⟨n, s1, hkind⟩ := kind_of_openList hget
        refine ⟨t, ?_, hadv⟩
        rw [decodeInterfaceTo_list hs hkind, map_ok hget]
    · obtain ⟨⟨k, n⟩, s1, hkind, _⟩ := bind_eq_ok.1 (show (getKind >>= _) s = _ from hok)
      by_cases hk : k = .list
      · subst hk
        rw [decodeInterfaceTo_list hs hkind] at hok
        obtain ⟨vs, hget, rfl⟩ := map_eq_ok.1 hok
        rw [encode_list]
        exact hslice.sound hs hlen hget
      · rw [decodeInterfaceTo_bytes hs hk hkind] at hok
        obtain ⟨b, hget, rfl⟩ := map_eq_ok.1 hok
        exact codec_getBytes.sound hs hlen hget
    · rcases hkind : getKind s with ⟨e' | ⟨k, n⟩, s1⟩
      · rw [show decodeInterfaceTo (depth + 1) s = (.error e', s1) from bind_error hkind] at herr
        cases herr
        exact getKind_error hs hkind
      · by_cases hk : k = .list
        · subst hk
          rw [decodeInterfaceTo_list hs hkind, map_eq_error] at herr
          exact hslice.error hs hlen herr
        · rw [decodeInterfaceTo_bytes hs hk hkind, map_eq_error] at herr
          exact codec_getBytes.error hs hlen herr

theorem codec_decodeInterface : Codec bound decodeInterface encode := by
  have h (s : Stream) := codec_decodeInterfaceTo (s.input.length + 1)
  exact ⟨fun {s v} hs _ ↦ (h s).complete hs (Nat.lt_succ_self _),
    fun {s s' v} hs _ ↦ (h s).sound hs (Nat.lt_succ_self _),
    fun {s} hs _ ↦ (h s).eol hs (Nat.lt_succ_self _),
    fun {s s' e} hs _ ↦ (h s).error hs (Nat.lt_succ_self _), (codec_decodeInterfaceTo 0).pos⟩

/-! ## Fields -/

section Fields

variable {α β : Type} {typ : Typ} {name : String} {dec : Decoder α} {enc : α → Bytes}

/-- A struct that ends early is an error, like one with a bad field. -/
theorem blames_field : Blames fun err ↦ match err with
    | .eol => .decodeError "too few elements" typ []
    | err => addErrorContext err (.field name) := by
  intro e h
  dsimp only
  split
  · exact ⟨by simp, by simp⟩
  · next hne => exact plain_addErrorContext (h.resolve_right hne) _

theorem content_nil : Content bound (pure ()) fun _ ↦ [] where
  complete hs _ _ _ := ⟨_, rfl, .refl hs⟩
  sound hs _ hok := by
    cases hok
    exact ⟨List.nil_prefix, .refl hs⟩
  error := nofun

theorem content_cons {decs : Decoder β} {encs : β → Bytes} (h : Codec bound dec enc)
    (hs : Content bound decs encs) :
    Content bound (do
      let v ← decodeField typ name dec
      let vs ← decs
      pure (v, vs)) fun v ↦ enc v.1 ++ encs v.2 :=
  content_first Prod.mk h blames_field hs (fun w ↦ ⟨w.1, w.2, rfl⟩) fun _ _ ↦ rfl

theorem content_tail (h : Content bound dec enc) : Content bound (decodeField typ name dec) enc where
  complete := by
    intro s v hs hlen hinput hlist
    obtain ⟨s1, hdec, hadv⟩ := h.complete hs hlen hinput hlist
    exact ⟨s1, mapError_eq_ok.2 hdec, hadv⟩
  sound hs hlen hok := h.sound hs hlen (mapError_eq_ok.1 hok)
  error := by
    intro s s' e hs hlen herr
    obtain ⟨e', hdec, rfl⟩ := mapError_eq_error.1 herr
    exact blames_field e' (.inl (h.error hs hlen hdec))

theorem content_last (h : Codec bound dec enc) : Content bound (decodeField typ name dec) enc where
  complete := by
    intro s v hs hlen hinput hlist
    obtain ⟨s1, hdec, hadv⟩ := h.complete hs hlen hinput
      (fun l hl ↦ by rw [hlist, Option.mem_some_iff] at hl; omega)
    exact ⟨s1, mapError_eq_ok.2 hdec, hadv⟩
  sound hs hlen hok := h.sound hs hlen (mapError_eq_ok.1 hok)
  error := by
    intro s s' e hs hlen herr
    obtain ⟨e', hdec, rfl⟩ := mapError_eq_error.1 herr
    exact blames_field e' ((h.error hs hlen hdec).imp_right And.left)

end Fields

/-! ## All types -/

/-- Only `uint8` makes a slice, an array or a tail one of bytes. -/
theorem makeDecoder_elems (h : elem ≠ .uint .w8) :
    (makeDecoder (.slice elem) = decodeListSlice elem (makeDecoder elem) ∧
      Typ.encode (.slice elem) = fun v ↦ framed (List.flatMap elem.encode v)) ∧
    (∀ len, makeDecoder (.array len elem) = decodeListArray elem (makeDecoder elem) len ∧
      Typ.encode (.array len elem) =
        fun v ↦ framed ((List.Vector.toList v).flatMap elem.encode)) ∧
    ∀ typ name,
      decodeFields typ (.tail name elem) = decodeField typ name (decodeSliceElems (makeDecoder elem)) ∧
        Fields.encode (.tail name elem) = fun v ↦ List.flatMap elem.encode v := by
  cases elem with
  | uint w =>
    cases w with
    | w8 => exact absurd rfl h
    | _ => exact ⟨⟨rfl, rfl⟩, fun _ ↦ ⟨rfl, rfl⟩, fun _ _ ↦ ⟨rfl, rfl⟩⟩
  | _ => exact ⟨⟨rfl, rfl⟩, fun _ ↦ ⟨rfl, rfl⟩, fun _ _ ↦ ⟨rfl, rfl⟩⟩

mutual

/-- **The decoder of every type reads exactly the encodings of its values.** -/
theorem codec_makeDecoder : (typ : Typ) → ∀ bound, Codec bound (makeDecoder typ) typ.encode
  | .uint w, _ => codec_decodeUint w
  | .bool, _ => codec_decodeBool
  | .bigInt, _ => codec_decodeBigInt
  | .string, _ => codec_decodeString
  | .slice elem, bound => by
    by_cases h : elem = .uint .w8
    · subst h
      exact codec_decodeByteSlice
    · obtain ⟨hdec, henc⟩ := (makeDecoder_elems h).1
      rw [hdec, henc]
      exact (codec_decodeListSlice elem (codec_makeDecoder elem bound)).mono (Nat.le_succ bound)
  | .array len elem, bound => by
    by_cases h : elem = .uint .w8
    · subst h
      exact codec_decodeByteArray len
    · obtain ⟨hdec, henc⟩ := (makeDecoder_elems h).2.1 len
      rw [hdec, henc]
      exact (codec_decodeListArray elem (codec_makeDecoder elem bound) len).mono (Nat.le_succ bound)
  | .struct fields, bound => (codec_of_content (content_decodeFields (.struct fields) fields bound)
      (keepsEol_wrapStreamError _) (keepsEol_wrapStreamError _)).mono (Nat.le_succ bound)
  | .interface, _ => codec_decodeInterface

theorem content_decodeFields (typ : Typ) : (fields : Fields) → ∀ bound,
    Content bound (decodeFields typ fields) fields.encode
  | .nil, _ => content_nil
  | .cons _ t rest, bound =>
    content_cons (codec_makeDecoder t bound) (content_decodeFields typ rest bound)
  | .tail name elem, bound => by
    by_cases h : elem = .uint .w8
    · subst h
      exact content_last codec_decodeByteSlice
    · obtain ⟨hdec, henc⟩ := (makeDecoder_elems h).2.2 typ name
      rw [hdec, henc]
      exact content_tail (content_decodeSliceElems (codec_makeDecoder elem bound))

end

/-! ## Whole inputs -/

theorem ready_reset (hb : b.length < 2 ^ 63) : (Stream.reset b).Ready :=
  ⟨rfl, rfl, wrap64_of_lt (hb.trans (by decide)), hb, nofun⟩

theorem keepsEol_addTarget (typ : Typ) : KeepsEol (addTarget typ) where
  eol := rfl
  plain := by
    intro e h
    unfold addTarget
    split
    · exact ⟨by simp, by simp⟩
    · exact h

theorem codec_decode (typ : Typ) (bound : Nat) : Codec bound (decode typ) typ.encode :=
  (codec_makeDecoder typ bound).mapError (keepsEol_addTarget typ)

theorem whole_iff {α ε : Type} {dec : Stream → Except ε α × Stream} {enc : α → Bytes} {v : α}
    (hsound : ∀ {s'}, dec (.reset b) = (.ok v, s') → enc v <+: b ∧ Advanced (.reset b) (enc v).length s')
    (hcomplete : enc v <+: b → (Stream.reset b).Allows (enc v).length →
      ∃ s', dec (.reset b) = (.ok v, s') ∧ Advanced (.reset b) (enc v).length s') :
    (∃ s', dec (.reset b) = (.ok v, s') ∧ s'.input = []) ↔ enc v = b := by
  constructor
  · rintro ⟨s', hdec, hrest⟩
    obtain ⟨hstarts, hadv⟩ := hsound hdec
    -- Nothing is left, so the encoding is all of the input.
    have hlen := hadv.length_le
    rw [hrest] at hlen
    exact hstarts.eq_of_length ((Nat.zero_add _).symm.trans hlen)
  · rintro rfl
    obtain ⟨s', hdec, hadv⟩ := hcomplete List.prefix_rfl nofun
    exact ⟨s', hdec, hadv.input.trans List.drop_length⟩

theorem leftover_eq_ok {α ε : Type} {e : ε} {v w : α} :
    (if b.length > 0 then .error e else .ok w) = Except.ok v ↔ w = v ∧ b = [] := by
  cases b <;> simp

theorem decodeBytes_eq_ok (typ : Typ) (v : typ.Val) (hb : b.length < 2 ^ 63) :
    decodeBytes typ b = .ok v ↔ typ.encode v = b := by
  have hcodec := codec_decode typ (2 ^ 63)
  rw [← whole_iff (hcodec.sound (ready_reset hb) hb) (hcodec.complete (ready_reset hb) hb), decodeBytes]
  rcases decode typ (.reset b) with ⟨e | w, s'⟩ <;> simp [leftover_eq_ok]

/-- The bound on the recursion is never reached. -/
theorem decodeBytes_ne_outOfFuel {typ : Typ} (hb : b.length < 2 ^ 63) :
    decodeBytes typ b ≠ .error .outOfFuel := by
  intro h
  unfold decodeBytes at h
  rcases hdec : decode typ (.reset b) with ⟨e | w, s'⟩
  · simp only [hdec, Except.error.injEq] at h
    rcases (codec_decode typ (2 ^ 63)).error (ready_reset hb) hb hdec with hplain | ⟨heol, _⟩
    · exact hplain.2 h
    · rw [heol] at h
      cases h
  · simp only [hdec] at h
    split at h <;> cases h

end GoEntropy.Rlp
