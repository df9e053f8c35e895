import GoEntropy.Container.Results
import GoEntropy.Model.SignTx
import GoEntropy.Rlp.Buffer
import GoEntropy.Rlp.Raw

/-!
# The size of a transaction

A decoded transaction remembers the number of bytes it was decoded from. The size of any other is computed when
it is asked for, from the payload. The payload of a typed transaction lacks the type byte, so that a typed
transaction is smaller by one where it was made than where it was received (`Obtained.txSize_eq`).
-/

namespace GoEntropy

open Rlp TxData

/-- `headsize`. -/
def headsize (size : Nat) : Nat := if size < 56 then 1 else 1 + intsize size

/-- `ListSize`. -/
def listSize (contentSize : Nat) : Nat := add64 (headsize contentSize) contentSize

theorem listSize_eq {content : Bytes} (h : (framed content).length < 2 ^ 64) :
    listSize content.length = (framed content).length := by
  rw [length_framed] at h ⊢
  have hhead : (listHeader content.length).length = headsize content.length := by
    rw [listHeader, ← putheader_eq (by omega), length_putheader, headsize]
  rw [hhead] at h ⊢
  exact add64_of_lt h

namespace Transaction

variable {C : Crypto}

/-- `WithSignature`: a new transaction, first seen when the old one was. -/
def withSignature (tx : Transaction C) (signer : Signer) (sig : SigBytes) : Except SignError (Transaction C) :=
  (tx.inner.withSignature signer sig).map fun inner ↦ newTx inner tx.time

/-- `setDecoded`, of a new transaction. -/
def setDecoded (inner : TxData) (size now : Nat) : Transaction C :=
  { newTx inner now with size := if 0 < size then some size else none }

/-- `DecodeRLP`. -/
def decodeRLP (now : Nat) (s : Stream) : Except TxDecodeError (Transaction C) × Stream :=
  match getKind s with
  | (.error err, s) => (.error (.rlp err), s)
  | (.ok (.list, size), s) =>
    match mapError (addTarget legacyTxTyp) decodeLegacyTx s with
    | (.error err, s) => (.error (.rlp err), s)
    | (.ok tx, s) => (.ok (setDecoded (.legacy tx) (listSize size) now), s)
  | (.ok _, s) =>
    match getBytes s with
    | (.error err, s) => (.error (.rlp err), s)
    | (.ok b, s) => ((TxData.decodeTyped b).map fun inner ↦ setDecoded inner b.length now, s)

/-- `UnmarshalBinary`. -/
def unmarshalBinary (now : Nat) (b : Bytes) : Except TxDecodeError (Transaction C) :=
  (TxData.unmarshalBinary b).map fun inner ↦ setDecoded inner b.length now

/-- The transaction after `Size`, which stores what it returns. -/
def asked (tx : Transaction C) : Transaction C := { tx with size := some tx.txSize }

/-- The ways to obtain a transaction, and whether it was decoded. -/
inductive Obtained : (decoded : Bool) → Transaction C → Prop
  | newTx (inner : TxData) (now : Nat) : Obtained false (newTx inner now)
  | withSignature {decoded : Bool} {tx tx' : Transaction C} {signer : Signer} {sig : SigBytes}
      (h : Obtained decoded tx) (hok : tx.withSignature signer sig = .ok tx') : Obtained false tx'
  | decodeRLP {now : Nat} {s s' : Stream} {tx : Transaction C} (hs : s.Ready) (hlen : s.input.length < 2 ^ 63)
      (hok : decodeRLP now s = (.ok tx, s')) : Obtained true tx
  | unmarshalBinary {now : Nat} {b : Bytes} {tx : Transaction C} (hlen : b.length < 2 ^ 63)
      (hok : unmarshalBinary now b = .ok tx) : Obtained true tx
  | asked {decoded : Bool} {tx : Transaction C} (h : Obtained decoded tx) : Obtained decoded tx.asked

variable {tx : Transaction C} {now : Nat}

theorem txSize_setDecoded {inner : TxData} {size : Nat} (h : size = inner.marshalBinary.length) :
    (setDecoded inner size now : Transaction C).txSize = inner.marshalBinary.length := by
  have hpos : 0 < size := by
    rw [h, marshalBinary]
    split
    · exact inner.encode_pos
    · exact Nat.succ_pos _
  rw [txSize, setDecoded, if_pos hpos, Option.getD_some, h]

theorem listSize_of_getKind {s t : Stream} {n : Nat} {content : Bytes} (hs : s.Ready)
    (hkind : getKind s = (.ok (.list, n), t)) (hstarts : framed content <+: s.input) :
    listSize n = (framed content).length := by
  obtain ⟨_, _, hheader, ⟨rest, hrest⟩, -⟩ := (getKind_eq_ok hs).1 hkind
  have hfits : (framed content).length < 2 ^ 64 := by
    have hle := hstarts.length_le
    have hshort := hs.short
    omega
  obtain ⟨rest', hrest'⟩ := hstarts
  have hlen := length_framed content
  cases hheader with
  | list hn =>
    -- both headers are read off the same input
    obtain ⟨x, tl, hhead⟩ := puthead_eq_cons 0xC0 0xF7 n
    obtain ⟨y, tl', hhead'⟩ := puthead_eq_cons 0xC0 0xF7 content.length
    have htag := Raw.readTag_list hn hhead rest
    have htag' := Raw.readTag_list (by omega) hhead' (content ++ rest')
    have hinput : x :: (tl ++ rest) = y :: (tl' ++ (content ++ rest')) := by
      rw [← List.cons_append, ← hhead, hrest, ← hrest', framed, listHeader, hhead', List.append_assoc,
        List.cons_append]
    obtain ⟨rfl, htl⟩ := List.cons.inj hinput
    rw [htl, htag'] at htag
    obtain rfl : content.length = n := (Prod.mk.inj (Prod.mk.inj (Except.ok.inj htag)).2).2
    exact listSize_eq hfits

theorem txSize_decodeRLP {s s' : Stream} (hs : s.Ready) (hlen : s.input.length < 2 ^ 63)
    (hok : decodeRLP now s = (.ok tx, s')) : tx.txSize = tx.inner.marshalBinary.length := by
  unfold decodeRLP at hok
  split at hok
  · cases hok
  · next n t hkind =>
    split at hok
    · cases hok
    next tx' t' hdec =>
    cases hok
    rw [decodeLegacyTx_ahead hs hkind] at hdec
    obtain ⟨hstarts, -⟩ := (codec_decodeLegacyTx.mapError (keepsEol_addTarget legacyTxTyp)).sound hs hlen hdec
    exact txSize_setDecoded (listSize_of_getKind hs hkind hstarts)
  · next k t hne hkind =>
    split at hok
    · cases hok
    next b t' hbytes =>
    have hahead : getBytes t = getBytes s := bind_ahead hs hkind
    rw [hahead] at hbytes
    obtain ⟨hstarts, -⟩ := codec_getBytes.sound hs hlen hbytes
    obtain ⟨inner, htyped, rfl⟩ := Container.map_eq_ok.1 (Prod.mk.inj hok).1
    have hle := (le_length_bytes b).trans hstarts.length_le
    obtain ⟨htyp, rfl⟩ := (decodeTyped_eq_ok (hle.trans_lt hlen)).1 htyped
    exact txSize_setDecoded (by rw [marshalBinary, if_neg htyp])

theorem Obtained.txSize_eq {decoded : Bool} (h : Obtained decoded tx) :
    tx.txSize = if decoded then tx.inner.marshalBinary.length else tx.inner.encode.length := by
  induction h with
  | newTx => rfl
  | withSignature h hok ih =>
    obtain ⟨inner, -, rfl⟩ := Container.map_eq_ok.1 hok
    rfl
  | decodeRLP hs hlen hok => exact txSize_decodeRLP hs hlen hok
  | unmarshalBinary hlen hok =>
    obtain ⟨inner, hdec, rfl⟩ := Container.map_eq_ok.1 hok
    exact txSize_setDecoded (congrArg List.length ((unmarshalBinary_eq_ok hlen).1 hdec).symm)
  | asked h ih => exact ih

/-- **Sizes.** The size of a transaction is the length of its canonical encoding exactly for legacy transactions
and for those that were decoded. -/
theorem size_eq_encoded_length_iff {decoded : Bool} (h : Obtained decoded tx) :
    tx.txSize = tx.inner.marshalBinary.length ↔ tx.inner.txType = .legacy ∨ decoded = true := by
  rw [h.txSize_eq]
  cases decoded with
  | true => simp
  | false =>
    rw [if_neg Bool.false_ne_true, marshalBinary]
    split
    · next hlegacy => simp [hlegacy]
    · next htyped => simp [htyped, encodeTyped]

namespace Sample

def crypto : Crypto := ⟨fun _ ↦ 0, fun _ _ ↦ none, id, id⟩

def received : Transaction crypto := setDecoded TxData.sampleTx TxData.sampleTx.marshalBinary.length 0

theorem obtained_received : Obtained true received := by
  have hlen : sampleTx.marshalBinary.length < 2 ^ 63 := by decide +kernel
  have hok : unmarshalBinary 0 sampleTx.marshalBinary = .ok received := by
    rw [Transaction.unmarshalBinary, (unmarshalBinary_eq_ok hlen).2 rfl]
    rfl
  exact .unmarshalBinary hlen hok

end Sample

theorem size_eq_encoded_length_iff_received :
    Sample.received.txSize = TxData.sampleTx.marshalBinary.length :=
  (size_eq_encoded_length_iff Sample.obtained_received).2 (.inr rfl)

/-- A transaction with an access list is one byte shorter before it is sent. -/
theorem size_depends_on_origin : ∃ tx tx' : Transaction Sample.crypto, Obtained false tx ∧ Obtained true tx' ∧
    tx.inner = tx'.inner ∧ tx.txSize + 1 = tx'.txSize :=
  ⟨newTx sampleTx 0, _, .newTx _ _, Sample.obtained_received, rfl, by decide +kernel⟩

end Transaction

end GoEntropy
