import GoEntropy.Model.Transaction
import GoEntropy.Rlp.Pointers

/-!
# The encodings of transactions

A transaction has two encodings. `MarshalBinary` writes the list of the fields of a legacy transaction, and
the type byte before the list of a typed one. `EncodeRLP` wraps the latter in a string, so that it can stand in
a list. The decoders tell the two kinds of transactions apart by the first byte or by the kind of the value.

Both decoders accept exactly the encodings (`unmarshalBinary_eq_ok`, `decodeTransaction_eq_ok`), so that no
transaction has two of them, and the hash of a transaction is that of the bytes it was decoded from.
-/

namespace GoEntropy

open Rlp

variable {bound : Nat}

/-! ## The types, as errors name them -/

/-- The type of `common.Address`. -/
def addressTyp : Typ := .array 20 (.uint .w8)

/-- The type of `common.Hash`. -/
def hashTyp : Typ := .array 32 (.uint .w8)

/-- The type of `[]byte`. -/
def bytesTyp : Typ := .slice (.uint .w8)

/-- The type of `AccessTuple`. -/
def accessTupleTyp : Typ := .struct (.cons "Address" addressTyp (.cons "StorageKeys" (.slice hashTyp) .nil))

/-- The type of the signature values and what follows them. -/
def signatureFields : Fields := .cons "V" .bigInt (.cons "R" .bigInt (.cons "S" .bigInt .nil))

/-- The type of `LegacyTx`. -/
def legacyTxTyp : Typ :=
  .struct (.cons "Nonce" (.uint .w64) (.cons "GasPrice" .bigInt (.cons "Gas" (.uint .w64) (.cons "To" addressTyp
    (.cons "Value" .bigInt (.cons "Data" bytesTyp signatureFields))))))

/-- The type of `AccessListTx`. -/
def accessListTxTyp : Typ :=
  .struct (.cons "ChainID" .bigInt (.cons "Nonce" (.uint .w64) (.cons "GasPrice" .bigInt (.cons "Gas" (.uint .w64)
    (.cons "To" addressTyp (.cons "Value" .bigInt (.cons "Data" bytesTyp
      (.cons "AccessList" (.slice accessTupleTyp) signatureFields))))))))

/-- The type of `DynamicFeeTx`. -/
def dynamicFeeTxTyp : Typ :=
  .struct (.cons "ChainID" .bigInt (.cons "Nonce" (.uint .w64) (.cons "GasTipCap" .bigInt (.cons "GasFeeCap" .bigInt
    (.cons "Gas" (.uint .w64) (.cons "To" addressTyp (.cons "Value" .bigInt (.cons "Data" bytesTyp
      (.cons "AccessList" (.slice accessTupleTyp) signatureFields)))))))))

/-! ## The decoders of the fields -/

def addressEquiv : List.Vector UInt8 20 ≃ Address := vectorEquiv 20

def hashEquiv : List.Vector UInt8 32 ≃ Hash := vectorEquiv 32

/-- A `common.Address`. -/
def decodeAddress : Decoder Address := addressEquiv <$> decodeByteArray 20

/-- A `common.Hash`. -/
def decodeHash : Decoder Hash := hashEquiv <$> decodeByteArray 32

/-- A `*common.Address` with the tag `nil`. -/
def decodeTo : Decoder (Option Address) := addressEquiv.optionCongr <$> decodeNilPtr 20

/-- A `uint64`. -/
def decodeUint64 : Decoder UInt64 := decodeUint .w64

theorem codec_decodeAddress : Codec bound decodeAddress fun a ↦ bytes (addressBytes a) :=
  (codec_decodeByteArray 20).equiv addressEquiv

theorem codec_decodeHash : Codec bound decodeHash fun h ↦ bytes (hashBytes h) :=
  (codec_decodeByteArray 32).equiv hashEquiv

theorem codec_decodeTo : Codec bound decodeTo encodeTo := by
  refine ((codec_decodeNilPtr (by decide)).equiv addressEquiv.optionCongr).encode_congr fun p ↦ ?_
  cases p <;> rfl

theorem codec_decodeUint64 : Codec bound decodeUint64 fun n ↦ uint n.toNat := codec_decodeUint .w64

/-! ### Access lists -/

/-- The fields of `AccessTuple`. -/
def accessTupleEquiv : Address × List Hash × Unit ≃ AccessTuple where
  toFun v := ⟨v.1, v.2.1⟩
  invFun t := (t.address, t.storageKeys, ())
  left_inv _ := rfl
  right_inv _ := rfl

/-- An `AccessTuple`. -/
def decodeAccessTuple : Decoder AccessTuple :=
  accessTupleEquiv <$> decodeStruct accessTupleTyp (
    withField accessTupleTyp "Address" decodeAddress <|
    withField accessTupleTyp "StorageKeys" (decodeListSlice hashTyp decodeHash) <|
    pure ())

/-- An `AccessList`. -/
def decodeAccessList : Decoder AccessList := decodeListSlice accessTupleTyp decodeAccessTuple

theorem list_eq_framed (items : List Bytes) : Rlp.list items = framed items.flatten := rfl

theorem codec_decodeKeys : Codec bound (decodeListSlice hashTyp decodeHash)
    fun keys ↦ Rlp.list (keys.map fun k ↦ bytes (hashBytes k)) := by
  refine ((codec_decodeListSlice hashTyp codec_decodeHash).mono (Nat.le_succ bound)).encode_congr fun keys ↦ ?_
  rw [list_eq_framed, List.flatMap_def]

theorem codec_decodeAccessTuple : Codec bound decodeAccessTuple fun t ↦
    Rlp.list [bytes (addressBytes t.address), Rlp.list (t.storageKeys.map fun k ↦ bytes (hashBytes k))] :=
  (codec_decodeStruct (content_withField codec_decodeAddress
    (content_withField codec_decodeKeys content_nil))).equiv accessTupleEquiv

theorem codec_decodeAccessList : Codec bound decodeAccessList AccessList.encode := by
  refine ((codec_decodeListSlice accessTupleTyp codec_decodeAccessTuple).mono (Nat.le_succ bound)).encode_congr
    fun al ↦ ?_
  rw [AccessList.encode, list_eq_framed, List.flatMap_def]

/-! ### Payloads -/

/-- The fields of `LegacyTx`. -/
def legacyTxEquiv :
    UInt64 × Nat × UInt64 × Option Address × Nat × Bytes × Nat × Nat × Nat × Unit ≃ LegacyTx where
  toFun := fun (nonce, gasPrice, gas, toAddr, value, data, v, r, s, ()) ↦
    ⟨nonce, gasPrice, gas, toAddr, value, data, v, r, s⟩
  invFun tx := (tx.nonce, tx.gasPrice, tx.gas, tx.toAddr, tx.value, tx.data, tx.v, tx.r, tx.s, ())
  left_inv _ := rfl
  right_inv _ := rfl

/-- The fields of `AccessListTx`. -/
def accessListTxEquiv :
    Nat × UInt64 × Nat × UInt64 × Option Address × Nat × Bytes × AccessList × Nat × Nat × Nat × Unit ≃
      AccessListTx where
  toFun := fun (chainID, nonce, gasPrice, gas, toAddr, value, data, accessList, v, r, s, ()) ↦
    ⟨chainID, nonce, gasPrice, gas, toAddr, value, data, accessList, v, r, s⟩
  invFun tx := (tx.chainID, tx.nonce, tx.gasPrice, tx.gas, tx.toAddr, tx.value, tx.data, tx.accessList, tx.v, tx.r,
    tx.s, ())
  left_inv _ := rfl
  right_inv _ := rfl

/-- The fields of `DynamicFeeTx`. -/
def dynamicFeeTxEquiv :
    Nat × UInt64 × Nat × Nat × UInt64 × Option Address × Nat × Bytes × AccessList × Nat × Nat × Nat × Unit ≃
      DynamicFeeTx where
  toFun := fun (chainID, nonce, gasTipCap, gasFeeCap, gas, toAddr, value, data, accessList, v, r, s, ()) ↦
    ⟨chainID, nonce, gasTipCap, gasFeeCap, gas, toAddr, value, data, accessList, v, r, s⟩
  invFun tx := (tx.chainID, tx.nonce, tx.gasTipCap, tx.gasFeeCap, tx.gas, tx.toAddr, tx.value, tx.data,
    tx.accessList, tx.v, tx.r, tx.s, ())
  left_inv _ := rfl
  right_inv _ := rfl

/-- The signature values, the last fields of every payload. -/
def decodeSignatureValues (typ : Typ) : Decoder (Nat × Nat × Nat × Unit) :=
  withField typ "V" decodeBigInt <| withField typ "R" decodeBigInt <| withField typ "S" decodeBigInt <| pure ()

/-- A `LegacyTx`. -/
def decodeLegacyTx : Decoder LegacyTx :=
  legacyTxEquiv <$> decodeStruct legacyTxTyp (
    withField legacyTxTyp "Nonce" decodeUint64 <|
    withField legacyTxTyp "GasPrice" decodeBigInt <|
    withField legacyTxTyp "Gas" decodeUint64 <|
    withField legacyTxTyp "To" decodeTo <|
    withField legacyTxTyp "Value" decodeBigInt <|
    withField legacyTxTyp "Data" decodeByteSlice <|
    decodeSignatureValues legacyTxTyp)

/-- An `AccessListTx`. -/
def decodeAccessListTx : Decoder AccessListTx :=
  accessListTxEquiv <$> decodeStruct accessListTxTyp (
    withField accessListTxTyp "ChainID" decodeBigInt <|
    withField accessListTxTyp "Nonce" decodeUint64 <|
    withField accessListTxTyp "GasPrice" decodeBigInt <|
    withField accessListTxTyp "Gas" decodeUint64 <|
    withField accessListTxTyp "To" decodeTo <|
    withField accessListTxTyp "Value" decodeBigInt <|
    withField accessListTxTyp "Data" decodeByteSlice <|
    withField accessListTxTyp "AccessList" decodeAccessList <|
    decodeSignatureValues accessListTxTyp)

/-- A `DynamicFeeTx`. -/
def decodeDynamicFeeTx : Decoder DynamicFeeTx :=
  dynamicFeeTxEquiv <$> decodeStruct dynamicFeeTxTyp (
    withField dynamicFeeTxTyp "ChainID" decodeBigInt <|
    withField dynamicFeeTxTyp "Nonce" decodeUint64 <|
    withField dynamicFeeTxTyp "GasTipCap" decodeBigInt <|
    withField dynamicFeeTxTyp "GasFeeCap" decodeBigInt <|
    withField dynamicFeeTxTyp "Gas" decodeUint64 <|
    withField dynamicFeeTxTyp "To" decodeTo <|
    withField dynamicFeeTxTyp "Value" decodeBigInt <|
    withField dynamicFeeTxTyp "Data" decodeByteSlice <|
    withField dynamicFeeTxTyp "AccessList" decodeAccessList <|
    decodeSignatureValues dynamicFeeTxTyp)

theorem content_decodeSignatureValues (typ : Typ) : Content bound (decodeSignatureValues typ)
    fun v ↦ Rlp.uint v.1 ++ (Rlp.uint v.2.1 ++ (Rlp.uint v.2.2.1 ++ [])) :=
  content_withField codec_decodeBigInt (content_withField codec_decodeBigInt
    (content_withField codec_decodeBigInt content_nil))

theorem codec_decodeLegacyTx : Codec bound decodeLegacyTx fun tx ↦ (TxData.legacy tx).encode :=
  (codec_decodeStruct (
    content_withField codec_decodeUint64 <|
    content_withField codec_decodeBigInt <|
    content_withField codec_decodeUint64 <|
    content_withField codec_decodeTo <|
    content_withField codec_decodeBigInt <|
    content_withField codec_decodeByteSlice <|
    content_decodeSignatureValues legacyTxTyp)).equiv legacyTxEquiv

theorem codec_decodeAccessListTx : Codec bound decodeAccessListTx fun tx ↦ (TxData.accessList tx).encode :=
  (codec_decodeStruct (
    content_withField codec_decodeBigInt <|
    content_withField codec_decodeUint64 <|
    content_withField codec_decodeBigInt <|
    content_withField codec_decodeUint64 <|
    content_withField codec_decodeTo <|
    content_withField codec_decodeBigInt <|
    content_withField codec_decodeByteSlice <|
    content_withField codec_decodeAccessList <|
    content_decodeSignatureValues accessListTxTyp)).equiv accessListTxEquiv

theorem codec_decodeDynamicFeeTx : Codec bound decodeDynamicFeeTx fun tx ↦ (TxData.dynamicFee tx).encode :=
  (codec_decodeStruct (
    content_withField codec_decodeBigInt <|
    content_withField codec_decodeUint64 <|
    content_withField codec_decodeBigInt <|
    content_withField codec_decodeBigInt <|
    content_withField codec_decodeUint64 <|
    content_withField codec_decodeTo <|
    content_withField codec_decodeBigInt <|
    content_withField codec_decodeByteSlice <|
    content_withField codec_decodeAccessList <|
    content_decodeSignatureValues dynamicFeeTxTyp)).equiv dynamicFeeTxEquiv

/-! ## Transactions -/

/-- The errors of decoding a transaction. An error of the RLP decoder may have been given the target
`Transaction`. -/
inductive TxDecodeError where
  | rlp (err : RlpError)
  | inTransaction (err : RlpError)
  | shortTypedTx
  | txTypeNotSupported

/-- Add the target `Transaction` to an error with a context. -/
def TxDecodeError.addTarget : TxDecodeError → TxDecodeError
  | .rlp (.decodeError msg typ (c :: ctx)) => .inTransaction (.decodeError msg typ (c :: ctx))
  | err => err

namespace TxData

/-- `encodeTyped`. -/
def encodeTyped (tx : TxData) : Bytes := tx.txType.toByte :: tx.encode

/-- `MarshalBinary`. -/
def marshalBinary (tx : TxData) : Bytes := if tx.txType = .legacy then tx.encode else tx.encodeTyped

/-- `EncodeRLP`. -/
def encodeRLP (tx : TxData) : Bytes := if tx.txType = .legacy then tx.encode else bytes tx.encodeTyped

/-- The payload of a typed transaction, by its type byte. -/
def decodePayload (typ : UInt8) (payload : Bytes) : Except TxDecodeError TxData :=
  if typ = TxType.accessList.toByte then
    (decodeBytesInto accessListTxTyp decodeAccessListTx payload).map accessList |>.mapError .rlp
  else if typ = TxType.dynamicFee.toByte then
    (decodeBytesInto dynamicFeeTxTyp decodeDynamicFeeTx payload).map dynamicFee |>.mapError .rlp
  else .error .txTypeNotSupported

/-- `decodeTyped`. -/
def decodeTyped (b : Bytes) : Except TxDecodeError TxData :=
  match b with
  | [] | [_] => .error .shortTypedTx
  | typ :: payload => decodePayload typ payload

/-- `UnmarshalBinary`. -/
def unmarshalBinary (b : Bytes) : Except TxDecodeError TxData :=
  match b with
  | [] => decodeTyped b
  | x :: _ =>
    if x > 0x7f then (decodeBytesInto legacyTxTyp decodeLegacyTx b).map legacy |>.mapError .rlp
    else decodeTyped b

/-- `DecodeRLP`. -/
def decodeRLP (s : Stream) : Except TxDecodeError TxData × Stream :=
  match getKind s with
  | (.error err, s) => (.error (.rlp err), s)
  | (.ok (.list, _), s) =>
    match mapError (addTarget legacyTxTyp) decodeLegacyTx s with
    | (.error err, s) => (.error (.rlp err), s)
    | (.ok tx, s) => (.ok (legacy tx), s)
  | (.ok _, s) =>
    match getBytes s with
    | (.error err, s) => (.error (.rlp err), s)
    | (.ok b, s) => (decodeTyped b, s)

/-- `DecodeBytes`, into a transaction. -/
def decodeTransaction (b : Bytes) : Except TxDecodeError TxData :=
  match decodeRLP (.reset b) with
  | (.error err, _) => .error err.addTarget
  | (.ok tx, s) => if s.input.length > 0 then .error (.rlp .moreThanOneValue) else .ok tx

/-! ### Typed transactions -/

variable {tx : TxData} {b : Bytes}

/-- A payload is accepted exactly from its encoding. -/
theorem payload_eq_ok {α : Type} {typ : Typ} {dec : Decoder α} {enc : α → Bytes} {mk : α → TxData}
    (h : Codec (2 ^ 63) dec enc) (hb : b.length < 2 ^ 63) :
    ((decodeBytesInto typ dec b).map mk).mapError .rlp = (.ok tx : Except TxDecodeError TxData) ↔
      ∃ v, mk v = tx ∧ enc v = b := by
  have haccepts (v : α) : decodeBytesInto typ dec b = .ok v ↔ enc v = b := decodeBytesInto_eq_ok h hb
  simp only [← haccepts]
  cases decodeBytesInto typ dec b with
  | error err => simp [Except.map, Except.mapError]
  | ok v =>
    simp only [Except.map, Except.mapError, Except.ok.injEq]
    exact ⟨fun heq ↦ ⟨v, heq, rfl⟩, fun ⟨w, heq, hv⟩ ↦ hv ▸ heq⟩

theorem encode_pos (tx : TxData) : 0 < tx.encode.length := by
  cases tx with
  | legacy tx => exact (codec_decodeLegacyTx : Codec 0 _ _).pos tx
  | accessList tx => exact (codec_decodeAccessListTx : Codec 0 _ _).pos tx
  | dynamicFee tx => exact (codec_decodeDynamicFeeTx : Codec 0 _ _).pos tx

theorem decodePayload_eq_ok {typ : UInt8} {payload : Bytes} (hb : payload.length < 2 ^ 63) :
    decodePayload typ payload = .ok tx ↔ tx.txType ≠ .legacy ∧ tx.txType.toByte = typ ∧ tx.encode = payload := by
  unfold decodePayload
  split_ifs with haccess hdynamic
  · subst haccess
    rw [payload_eq_ok codec_decodeAccessListTx hb]
    cases tx with
    | legacy tx | accessList tx => simp [txType]
    | dynamicFee tx => simp [txType, TxType.toByte]
  · subst hdynamic
    rw [payload_eq_ok codec_decodeDynamicFeeTx hb]
    cases tx with
    | legacy tx => simp [txType]
    | accessList tx => simp [txType, TxType.toByte]
    | dynamicFee tx => simp [txType]
  · refine iff_of_false nofun ?_
    rintro ⟨htyp, rfl, -⟩
    cases tx with
    | legacy tx => exact htyp rfl
    | accessList tx => exact haccess rfl
    | dynamicFee tx => exact hdynamic rfl

theorem decodeTyped_eq_ok (hb : b.length < 2 ^ 63) :
    decodeTyped b = .ok tx ↔ tx.txType ≠ .legacy ∧ tx.encodeTyped = b := by
  match b with
  | [] => simp [decodeTyped, encodeTyped]
  | [x] =>
    have hne : tx.encode ≠ [] := List.ne_nil_of_length_pos tx.encode_pos
    simp [decodeTyped, encodeTyped, hne]
  | x :: y :: tl =>
    show decodePayload x (y :: tl) = .ok tx ↔ _
    rw [decodePayload_eq_ok (Nat.lt_of_succ_lt hb), encodeTyped, List.cons.injEq]

/-! ### The two encodings -/

theorem framed_head {content : Bytes} (h : content.length < 2 ^ 64) :
    ∃ x tl, framed content = x :: tl ∧ x > 0x7f := by
  have hpos := length_listHeader_pos content.length
  rcases hheader : listHeader content.length with _ | ⟨x, tl⟩
  · simp [hheader] at hpos
  · refine ⟨x, tl ++ content, by rw [framed, hheader, List.cons_append], ?_⟩
    obtain ⟨-, hx, -⟩ | ⟨-, hx, -⟩ := puthead_cases hheader h (by decide) (by decide)
    iterate 2 exact UInt8.lt_iff_toNat_lt.2 (by simp [hx]; omega)

theorem unmarshalBinary_eq_ok (hb : b.length < 2 ^ 63) :
    unmarshalBinary b = .ok tx ↔ tx.marshalBinary = b := by
  -- A list is never taken for a typed transaction, nor the other way round.
  have hbyte : tx.txType ≠ .legacy → ¬ tx.txType.toByte > 0x7f := by
    cases tx with
    | legacy tx => exact absurd rfl
    | accessList tx => exact fun _ ↦ (by decide : ¬ TxType.accessList.toByte > 0x7f)
    | dynamicFee tx => exact fun _ ↦ (by decide : ¬ TxType.dynamicFee.toByte > 0x7f)
  have htyped : decodeTyped b = .ok tx ↔ tx.txType ≠ .legacy ∧ tx.encodeTyped = b := decodeTyped_eq_ok hb
  unfold marshalBinary
  cases b with
  | nil =>
    show decodeTyped [] = _ ↔ _
    rw [htyped]
    split_ifs with htyp
    · simp [htyp, List.ne_nil_of_length_pos tx.encode_pos]
    · simp [htyp]
  | cons x tl =>
    show (if x > 0x7f then _ else decodeTyped (x :: tl)) = _ ↔ _
    split_ifs with hx htyp htyp
    · rw [payload_eq_ok codec_decodeLegacyTx hb]
      cases tx with
      | legacy tx => simp
      | accessList tx | dynamicFee tx => cases htyp
    · rw [payload_eq_ok codec_decodeLegacyTx hb]
      refine iff_of_false ?_ fun heq ↦ hbyte htyp ((List.cons.inj heq).1 ▸ hx)
      rintro ⟨v, rfl, -⟩
      exact htyp rfl
    · rw [htyped]
      refine iff_of_false (fun h ↦ h.1 htyp) fun heq ↦ hx ?_
      cases tx with
      | legacy tx =>
        have hlen := (length_framed _).symm.trans_lt (heq ▸ hb)
        obtain ⟨y, tl', hhead, hy⟩ := framed_head ((Nat.le_add_left _ _).trans_lt (hlen.trans (by decide)))
        rwa [← (List.cons.inj (hhead.symm.trans heq)).1]
      | accessList tx | dynamicFee tx => cases htyp
    · rw [htyped, and_iff_right htyp]

variable {s s' : Stream}

/-- The decoder of legacy transactions finds the header that was read before. -/
theorem decodeLegacyTx_ahead {k : Kind} {n : Nat} (hs : s.Ready)
    (hkind : getKind s = (.ok (k, n), s')) : mapError (addTarget legacyTxTyp) decodeLegacyTx s' =
      mapError (addTarget legacyTxTyp) decodeLegacyTx s :=
  mapError_congr (Decoder.bind_congr (Decoder.bind_congr (mapError_congr (bind_ahead hs hkind))))

theorem getKind_of_decodeLegacyTx {v : LegacyTx}
    (h : mapError (addTarget legacyTxTyp) decodeLegacyTx s = (.ok v, s')) :
    ∃ n t, getKind s = (.ok (.list, n), t) := by
  obtain ⟨fields, hfields, -⟩ := map_eq_ok.1 (mapError_eq_ok.1 h)
  exact kind_of_openList hfields

theorem decodeRLP_eq_ok (hs : s.Ready) :
    decodeRLP s = (.ok tx, s') ↔
      (∃ v, legacy v = tx ∧ mapError (addTarget legacyTxTyp) decodeLegacyTx s = (.ok v, s')) ∨
        ∃ b, getBytes s = (.ok b, s') ∧ decodeTyped b = .ok tx := by
  unfold decodeRLP
  rcases hkind : getKind s with ⟨err | ⟨k, n⟩, t⟩
  · refine iff_of_false nofun ?_
    rintro (⟨v, -, hv⟩ | ⟨b, hb, -⟩)
    · obtain ⟨n, t', hlist⟩ := getKind_of_decodeLegacyTx hv
      cases hkind.symm.trans hlist
    · obtain ⟨k, n, t', hstring, -⟩ := kind_of_getBytes hb
      cases hkind.symm.trans hstring
  · have hbytes : getBytes t = getBytes s := bind_ahead hs hkind
    cases k with
    | list =>
      dsimp only
      rw [decodeLegacyTx_ahead hs hkind]
      have hno (b : Bytes) : getBytes s ≠ (.ok b, s') := by
        intro hb
        obtain ⟨k, n, t', hstring, hne⟩ := kind_of_getBytes hb
        cases hkind.symm.trans hstring
        exact hne rfl
      rcases mapError (addTarget legacyTxTyp) decodeLegacyTx s with ⟨err | v, u⟩
      · simp [hno]
      · simp [hno]
    | byte | string =>
      dsimp only
      rw [hbytes]
      have hno (v : LegacyTx) : mapError (addTarget legacyTxTyp) decodeLegacyTx s ≠ (.ok v, s') := by
        intro hv
        obtain ⟨n, t', hlist⟩ := getKind_of_decodeLegacyTx hv
        cases hkind.symm.trans hlist
      rcases getBytes s with ⟨err | b, u⟩
      · simp [hno]
      · simp [hno, and_comm]

theorem decodeRLP_sound (hs : s.Ready) (hlen : s.input.length < 2 ^ 63) (hok : decodeRLP s = (.ok tx, s')) :
    tx.encodeRLP <+: s.input ∧ Advanced s tx.encodeRLP.length s' := by
  rcases (decodeRLP_eq_ok hs).1 hok with ⟨v, rfl, hv⟩ | ⟨b, hb, htyped⟩
  · exact (codec_decodeLegacyTx.mapError (keepsEol_addTarget legacyTxTyp)).sound hs hlen hv
  · obtain ⟨hstarts, hadv⟩ := codec_getBytes.sound hs hlen hb
    have hle := (le_length_bytes b).trans hstarts.length_le
    obtain ⟨htyp, rfl⟩ := (decodeTyped_eq_ok (hle.trans_lt hlen)).1 htyped
    rw [encodeRLP, if_neg htyp]
    exact ⟨hstarts, hadv⟩

theorem decodeRLP_complete {s : Stream} (hs : s.Ready) (hlen : s.input.length < 2 ^ 63)
    (hinput : tx.encodeRLP <+: s.input) (hroom : s.Allows tx.encodeRLP.length) :
    ∃ s', decodeRLP s = (.ok tx, s') ∧ Advanced s tx.encodeRLP.length s' := by
  simp only [decodeRLP_eq_ok hs]
  by_cases htyp : tx.txType = .legacy
  · cases tx with
    | legacy tx =>
      obtain ⟨s', hdec, hadv⟩ :=
        (codec_decodeLegacyTx.mapError (keepsEol_addTarget legacyTxTyp)).complete hs hlen hinput hroom
      exact ⟨s', .inl ⟨tx, rfl, hdec⟩, hadv⟩
    | accessList tx | dynamicFee tx => cases htyp
  · rw [encodeRLP, if_neg htyp] at hinput hroom ⊢
    obtain ⟨s', hdec, hadv⟩ := codec_getBytes.complete hs hlen hinput hroom
    have hle := (le_length_bytes _).trans hinput.length_le
    exact ⟨s', .inr ⟨_, hdec, (decodeTyped_eq_ok (hle.trans_lt hlen)).2 ⟨htyp, rfl⟩⟩, hadv⟩

theorem decodeTransaction_eq_ok (hb : b.length < 2 ^ 63) :
    decodeTransaction b = .ok tx ↔ tx.encodeRLP = b := by
  rw [← whole_iff (decodeRLP_sound (ready_reset hb) hb) (decodeRLP_complete (ready_reset hb) hb),
    decodeTransaction]
  rcases decodeRLP (.reset b) with ⟨err | v, s'⟩ <;> simp [leftover_eq_ok]

/-! ## Hashes -/

theorem hash_eq (C : Crypto) (tx : TxData) : tx.hash C = C.keccak256 tx.marshalBinary := by
  cases tx <;> rfl

theorem marshalBinary_length_le (tx : TxData) : tx.marshalBinary.length ≤ tx.encodeRLP.length := by
  unfold marshalBinary encodeRLP
  split_ifs with htyp
  · exact le_rfl
  · exact le_length_bytes _

variable {tx tx' : TxData}

theorem marshalBinary_inj (h : tx.marshalBinary.length < 2 ^ 63) :
    tx.marshalBinary = tx'.marshalBinary ↔ tx = tx' := by
  refine ⟨fun heq ↦ ?_, fun heq ↦ heq ▸ rfl⟩
  have hok := (unmarshalBinary_eq_ok h).2 rfl
  exact Except.ok.inj (hok.symm.trans ((unmarshalBinary_eq_ok h).2 heq.symm))

theorem encodeRLP_inj (h : tx.encodeRLP.length < 2 ^ 63) :
    tx.encodeRLP = tx'.encodeRLP ↔ tx = tx' := by
  refine ⟨fun heq ↦ ?_, fun heq ↦ heq ▸ rfl⟩
  have hok := (decodeTransaction_eq_ok h).2 rfl
  exact Except.ok.inj (hok.symm.trans ((decodeTransaction_eq_ok h).2 heq.symm))

/-- Without a collision of Keccak256 the hash tells transactions apart. -/
theorem hash_inj {C : Crypto} (hlen : tx.marshalBinary.length < 2 ^ 63)
    (hinj : C.keccak256 tx.marshalBinary = C.keccak256 tx'.marshalBinary → tx.marshalBinary = tx'.marshalBinary) :
    tx.hash C = tx'.hash C ↔ tx = tx' := by
  rw [hash_eq, hash_eq, ← marshalBinary_inj hlen]
  exact ⟨hinj, congrArg _⟩

/-- The encodings of transactions are bijections onto the accepted byte strings. A transaction is decoded from
its encodings, an accepted byte string is the encoding of what was decoded, and the hashes of decoded
transactions agree exactly when the byte strings do, unless Keccak256 collides on the encodings. -/
theorem encoding_bijective (C : Crypto) :
    (∀ tx : TxData, tx.marshalBinary.length < 2 ^ 63 → unmarshalBinary tx.marshalBinary = .ok tx) ∧
    (∀ tx : TxData, tx.encodeRLP.length < 2 ^ 63 →
      decodeTransaction tx.encodeRLP = .ok tx ∧ (decodeRLP (.reset tx.encodeRLP)).1 = .ok tx) ∧
    (∀ (b : Bytes) (tx : TxData), b.length < 2 ^ 63 → unmarshalBinary b = .ok tx → tx.marshalBinary = b) ∧
    (∀ (b : Bytes) (tx : TxData), b.length < 2 ^ 63 → decodeTransaction b = .ok tx → tx.encodeRLP = b) ∧
    (∀ (b b' : Bytes) (tx tx' : TxData), b.length < 2 ^ 63 → b'.length < 2 ^ 63 →
      unmarshalBinary b = .ok tx → unmarshalBinary b' = .ok tx' →
      (C.keccak256 b = C.keccak256 b' → b = b') → (tx.hash C = tx'.hash C ↔ b = b')) ∧
    ∀ (b b' : Bytes) (tx tx' : TxData), b.length < 2 ^ 63 → b'.length < 2 ^ 63 →
      decodeTransaction b = .ok tx → decodeTransaction b' = .ok tx' →
      (C.keccak256 tx.marshalBinary = C.keccak256 tx'.marshalBinary → tx.marshalBinary = tx'.marshalBinary) →
      (tx.hash C = tx'.hash C ↔ b = b') := by
  refine ⟨fun tx h ↦ (unmarshalBinary_eq_ok h).2 rfl, fun tx h ↦ ⟨(decodeTransaction_eq_ok h).2 rfl, ?_⟩,
    fun b tx hb ↦ (unmarshalBinary_eq_ok hb).1, fun b tx hb ↦ (decodeTransaction_eq_ok hb).1, ?_, ?_⟩
  · obtain ⟨s', hdec, -⟩ :=
      decodeRLP_complete (ready_reset h) h List.prefix_rfl nofun
    rw [hdec]
  · intro b b' tx tx' hb hb' hok hok' hinj
    obtain rfl := (unmarshalBinary_eq_ok hb).1 hok
    obtain rfl := (unmarshalBinary_eq_ok hb').1 hok'
    rw [hash_inj hb hinj, marshalBinary_inj hb]
  · intro b b' tx tx' hb hb' hok hok' hinj
    obtain rfl := (decodeTransaction_eq_ok hb).1 hok
    obtain rfl := (decodeTransaction_eq_ok hb').1 hok'
    rw [hash_inj (tx.marshalBinary_length_le.trans_lt hb) hinj, encodeRLP_inj hb]

def sampleTx : TxData :=
  .accessList ⟨1, 7, 1000, 21000, some 0xAA, 5, [], [⟨0xBB, [1, 2]⟩], 1, 3, 4⟩

theorem encoding_bijective_sample : sampleTx.encodeRLP.length < 2 ^ 63 ∧
    decodeTransaction sampleTx.encodeRLP = .ok sampleTx :=
  ⟨by decide +kernel, ((encoding_bijective ⟨fun _ ↦ 0, fun _ _ ↦ none, id, id⟩).2.1 sampleTx (by decide +kernel)).1⟩

end TxData

end GoEntropy
