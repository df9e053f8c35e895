import GoEntropy.Model.Signing
import GoEntropy.Model.TxEncoding

/-!
# Signing transactions

`SignTx` signs the hash its signer gives the transaction and stores the signature in it; `Sender` recovers the
key from the signature and the hash the signer chooses for the signed transaction. The two hashes are chosen
by different rules: signing looks at the type of the transaction only, recovery of a legacy transaction at
whether its `v` is protected.

They meet except in one case. A signer with chain identifier zero signs the hash of a protected legacy
transaction and leaves `v` unprotected, so that recovery takes the other hash (`sender_signTx_iff`).
-/

namespace GoEntropy

open Signer TxData List

/-- A signature, in the `[R || S || V]` format. -/
abbrev SigBytes := List.Vector UInt8 65

namespace SigBytes

/-- The value `R`. -/
def r (sig : SigBytes) : Nat := setBytes (sig.toList.take 32)

/-- The value `S`. -/
def s (sig : SigBytes) : Nat := setBytes ((sig.toList.drop 32).take 32)

def v (sig : SigBytes) : UInt8 := sig.toList.getD 64 0

theorem bytes_values (sig : SigBytes) : beBytes 32 sig.r ++ beBytes 32 sig.s ++ [sig.v] = sig.toList := by
  have hlen := sig.toList_length
  have hr := beBytes_setBytes (sig.toList.take 32)
  have hs := beBytes_setBytes ((sig.toList.drop 32).take 32)
  rw [length_take_of_le (by omega)] at hr
  rw [length_take_of_le (by rw [length_drop]; omega)] at hs
  have hv : [sig.v] = sig.toList.drop 64 := by
    rw [drop_eq_getElem_cons (by omega), drop_of_length_le (by omega), v, getD_eq_getElem?_getD,
      getElem?_eq_getElem (by omega), Option.getD_some]
  have htail : (sig.toList.drop 32).take 32 ++ sig.toList.drop 64 = sig.toList.drop 32 := by
    rw [show 64 = 32 + 32 from rfl, ← drop_drop, take_append_drop]
  rw [r, s, hr, hs, hv, append_assoc, htail, take_append_drop]

end SigBytes

/-- Keys, with `crypto.Sign` and the public key `crypto.Ecrecover` finds again. A signature has values in the
range that is accepted since Homestead, and the key that made it is recovered. -/
structure KeyScheme (C : Crypto) (Key : Type) where
  /-- The public key of a private key, after the byte that says that it is not compressed. -/
  pub : Key → Bytes
  /-- `crypto.Sign`. -/
  sign : Hash → Key → SigBytes
  sign_valid (h : Hash) (k : Key) : validateSignatureValues (sign h k).v (sign h k).r (sign h k).s true = true
  ecrecover_sign (h : Hash) (k : Key) : C.ecrecover h (sign h k).toList = some (4 :: pub k)

/-- `crypto.PubkeyToAddress`. -/
def KeyScheme.address {C : Crypto} {Key : Type} (K : KeyScheme C Key) (k : Key) : Address :=
  hashToAddress (C.keccak256 (K.pub k))

namespace Signer

/-- `ChainID`. -/
def chainID : Signer → Option Nat
  | frontier | homestead => none
  | eip155 chainId | eip2930 chainId | london chainId => some chainId

/-- `Hash`. -/
def hash (C : Crypto) : Signer → TxData → Hash
  | frontier | homestead => frontierHash C
  | eip155 chainId => eip155Hash C chainId
  | eip2930 chainId => eip2930Hash C chainId
  | london chainId => londonHash C chainId

/-- `decodeSignature`: the values `R`, `S` and `V`. -/
def decodeSignature (sig : SigBytes) : Nat × Nat × Nat := (sig.r, sig.s, (sig.v + 27).toNat)

/-- `FrontierSigner.SignatureValues`, which `HomesteadSigner` calls. -/
def plainValues (tx : TxData) (sig : SigBytes) : Except SignError (Nat × Nat × Nat) :=
  if tx.txType ≠ .legacy then .error .txTypeNotSupported else .ok (decodeSignature sig)

/-- `EIP155Signer.SignatureValues`. -/
def eip155Values (chainId : Nat) (tx : TxData) (sig : SigBytes) : Except SignError (Nat × Nat × Nat) :=
  if tx.txType ≠ .legacy then .error .txTypeNotSupported
  else
    let (r, s, v) := decodeSignature sig
    if chainId ≠ 0 then .ok (r, s, (sig.v + 35).toNat + chainId * 2) else .ok (r, s, v)

/-- The signature values of a typed transaction. The chain identifier zero stands for one that was not given. -/
def typedValues (chainId : Nat) (tx : TxData) (sig : SigBytes) : Except SignError (Nat × Nat × Nat) :=
  if tx.chainID ≠ 0 ∧ tx.chainID ≠ chainId then .error .invalidChainId
  else
    let (r, s, _) := decodeSignature sig
    .ok (r, s, sig.v.toNat)

/-- `eip2930Signer.SignatureValues`. -/
def eip2930Values (chainId : Nat) (tx : TxData) (sig : SigBytes) : Except SignError (Nat × Nat × Nat) :=
  match tx.txType with
  | .legacy => eip155Values chainId tx sig
  | .accessList => typedValues chainId tx sig
  | .dynamicFee => .error .txTypeNotSupported

/-- `londonSigner.SignatureValues`. -/
def londonValues (chainId : Nat) (tx : TxData) (sig : SigBytes) : Except SignError (Nat × Nat × Nat) :=
  if tx.txType ≠ .dynamicFee then eip2930Values chainId tx sig else typedValues chainId tx sig

/-- `SignatureValues`: the values `R`, `S` and `V` of a signature. -/
def signatureValues : Signer → TxData → SigBytes → Except SignError (Nat × Nat × Nat)
  | frontier | homestead => plainValues
  | eip155 chainId => eip155Values chainId
  | eip2930 chainId => eip2930Values chainId
  | london chainId => londonValues chainId

/-- `model.Sender`, with whatever sender the transaction has cached: the sender, and the cache afterwards. -/
def cachedSender (C : Crypto) (signer : Signer) (cache : Option SigCache) (tx : TxData) :
    Except SignError Address × Option SigCache :=
  match cache.filter (fun sc ↦ sc.signer = signer) with
  | some sc => (.ok sc.addr, cache)
  | none =>
    match signer.sender C tx with
    | .ok addr => (.ok addr, some ⟨signer, addr⟩)
    | .error e => (.error e, cache)

end Signer

namespace TxData

/-- `setSignatureValues`. A signer without a chain identifier gives values to legacy transactions only, which
do not keep it. -/
def setSignatureValues (chainID : Option Nat) (v r s : Nat) : TxData → TxData
  | legacy tx => legacy { tx with v, r, s }
  | accessList tx => accessList { tx with chainID := chainID.getD 0, v, r, s }
  | dynamicFee tx => dynamicFee { tx with chainID := chainID.getD 0, v, r, s }

/-- `WithSignature`. -/
def withSignature (tx : TxData) (signer : Signer) (sig : SigBytes) : Except SignError TxData :=
  match signer.signatureValues tx sig with
  | .error err => .error err
  | .ok (r, s, v) => .ok (tx.setSignatureValues signer.chainID v r s)

/-- `SignTx`. -/
def signTx {C : Crypto} {Key : Type} (K : KeyScheme C Key) (tx : TxData) (signer : Signer) (k : Key) :
    Except SignError TxData :=
  tx.withSignature signer (K.sign (signer.hash C tx) k)

end TxData

/-! ## Signatures are accepted -/

namespace Signer

variable {C : Crypto} {tx : TxData} {signer : Signer} {sig : SigBytes}

/-- The signer signs the transaction: it knows the type, and a typed transaction is for its chain, or for
none yet. -/
def Signs (signer : Signer) (tx : TxData) : Prop :=
  match tx.txType with
  | .legacy => True
  | .accessList =>
    match signer with
    | eip2930 chainId | london chainId => tx.chainID = 0 ∨ tx.chainID = chainId
    | _ => False
  | .dynamicFee =>
    match signer with
    | london chainId => tx.chainID = 0 ∨ tx.chainID = chainId
    | _ => False

/-- The signed value `V`: typed transactions keep the recovery identifier. -/
def vValue (signer : Signer) (tx : TxData) (v : UInt8) : Nat :=
  match tx.txType with
  | .legacy => if signer.chainID.getD 0 ≠ 0 then (v + 35).toNat + signer.chainID.getD 0 * 2 else (v + 27).toNat
  | _ => v.toNat

theorem eip155Values_legacy (chainId : Nat) (tx : LegacyTx) :
    eip155Values chainId (.legacy tx) sig = .ok (sig.r, sig.s, (eip155 chainId).vValue (.legacy tx) sig.v) := by
  by_cases hzero : chainId = 0
  · subst hzero
    rfl
  · simp [eip155Values, vValue, txType, chainID, decodeSignature, hzero]

theorem typedValues_eq {chainId : Nat} (h : tx.chainID = 0 ∨ tx.chainID = chainId) :
    typedValues chainId tx sig = .ok (sig.r, sig.s, sig.v.toNat) :=
  if_neg fun hne ↦ h.elim hne.1 hne.2

theorem signatureValues_eq (h : signer.Signs tx) :
    signer.signatureValues tx sig = .ok (sig.r, sig.s, signer.vValue tx sig.v) := by
  cases tx with
  | legacy tx =>
    cases signer with
    | frontier | homestead => rfl
    | eip155 chainId | eip2930 chainId | london chainId => exact eip155Values_legacy chainId tx
  | accessList tx =>
    cases signer with
    | frontier | homestead | eip155 chainId => exact h.elim
    | eip2930 chainId | london chainId => exact typedValues_eq h
  | dynamicFee tx =>
    cases signer with
    | frontier | homestead | eip155 chainId | eip2930 chainId => exact h.elim
    | london chainId => exact typedValues_eq h

theorem signatureValues_ne_ok (h : ¬ signer.Signs tx) (values : Nat × Nat × Nat) :
    signer.signatureValues tx sig ≠ .ok values := by
  have htyped {chainId : Nat} (hchain : ¬ (tx.chainID = 0 ∨ tx.chainID = chainId)) :
      typedValues chainId tx sig ≠ .ok values := by
    rw [typedValues, if_pos (not_or.1 hchain)]
    exact nofun
  cases tx with
  | legacy tx => exact absurd trivial h
  | accessList tx =>
    cases signer with
    | frontier | homestead | eip155 chainId => exact nofun
    | eip2930 chainId | london chainId => exact htyped h
  | dynamicFee tx =>
    cases signer with
    | frontier | homestead | eip155 chainId | eip2930 chainId => exact nofun
    | london chainId => exact htyped h

end Signer

namespace TxData

variable {C : Crypto} {Key : Type} {K : KeyScheme C Key} {k : Key} {tx : TxData} {signer : Signer}

theorem signTx_eq (h : signer.Signs tx) :
    tx.signTx K signer k = .ok (tx.setSignatureValues signer.chainID
      (signer.vValue tx (K.sign (signer.hash C tx) k).v) (K.sign (signer.hash C tx) k).r
      (K.sign (signer.hash C tx) k).s) := by
  unfold signTx withSignature
  rw [signatureValues_eq h]

/-- `SignTx` succeeds exactly on the transactions the signer signs. -/
theorem exists_signTx_iff : (∃ signed, tx.signTx K signer k = .ok signed) ↔ signer.Signs tx := by
  refine ⟨?_, fun h ↦ ⟨_, signTx_eq h⟩⟩
  rintro ⟨signed, hok⟩
  by_contra hno
  unfold signTx withSignature at hok
  split at hok
  · cases hok
  · next hvalues => exact signatureValues_ne_ok hno _ hvalues

end TxData

section Recover

variable {C : Crypto} {Key : Type} {K : KeyScheme C Key} {k : Key} {h : Hash}

theorem KeyScheme.v_sign : (K.sign h k).v = 0 ∨ (K.sign h k).v = 1 := by
  have hvalid := K.sign_valid h k
  unfold validateSignatureValues at hvalid
  split_ifs at hvalid
  simpa using (Bool.and_eq_true_iff.1 hvalid).2

theorem recoverPlain_sign :
    recoverPlain C h (K.sign h k).r (K.sign h k).s (((K.sign h k).v.toNat : ℤ) + 27) true = .ok (K.address k) := by
  have hbyte : UInt8.ofNat (wrap64 ((((K.sign h k).v.toNat : ℤ) + 27).natAbs + (2 ^ 64 - 27))) = (K.sign h k).v := by
    rcases K.v_sign with hv | hv <;> rw [hv] <;> decide
  have hshort : ¬ bitLen (((K.sign h k).v.toNat : ℤ) + 27).natAbs > 8 := by
    rcases K.v_sign with hv | hv <;> rw [hv] <;> decide
  unfold recoverPlain
  rw [if_neg hshort]
  simp only [hbyte, K.sign_valid, SigBytes.bytes_values, K.ecrecover_sign]
  rfl

theorem toNat_add_of_le_one {v : UInt8} (hv : v = 0 ∨ v = 1) {n : UInt8} (hn : n.toNat < 255) :
    (v + n).toNat = v.toNat + n.toNat := by
  refine Nat.mod_eq_of_lt ?_
  rcases hv with rfl | rfl
  · simpa using hn.trans (by decide)
  · show 1 + n.toNat < 256
    omega

theorem deriveChainId_protected {v n : Nat} (hv : v ≤ 1) : deriveChainId (v + 35 + n * 2) = n := by
  unfold deriveChainId
  split_ifs with hshort hplain
  · omega
  · have hlt : v + 35 + n * 2 < 2 ^ 64 := by
      unfold bitLen at hshort
      rw [if_neg (by omega)] at hshort
      exact (Nat.log2_lt (by omega)).1 hshort
    have hwrap : wrap64 (v + 35 + n * 2 + (2 ^ 64 - 35)) = v + n * 2 := by
      unfold wrap64
      omega
    omega
  · omega

theorem isProtectedV_protected (v n : Nat) : isProtectedV (v + 35 + n * 2) = true := by
  rw [← Bool.not_eq_false, isProtectedV_eq_false]
  omega

end Recover

/-! ## Senders of signed transactions -/

/-- The signer signs a legacy transaction for the chain identifier zero. -/
def Signer.Mismatched (signer : Signer) (tx : TxData) : Prop := tx.txType = .legacy ∧ signer.chainID = some 0

instance (signer : Signer) (tx : TxData) : Decidable (signer.Mismatched tx) := inferInstanceAs (Decidable (_ ∧ _))

namespace Signer

variable {C : Crypto} {Key : Type} {K : KeyScheme C Key} {k : Key}

theorem plainSender_signed {tx : LegacyTx} {homestead : Bool} :
    plainSender C homestead (.legacy { tx with
      v := ((K.sign (frontierHash C (.legacy tx)) k).v + 27).toNat
      r := (K.sign (frontierHash C (.legacy tx)) k).r
      s := (K.sign (frontierHash C (.legacy tx)) k).s }) = .ok (K.address k) := by
  show recoverPlain C (frontierHash C (.legacy tx)) _ _ (((K.sign _ k).v + 27).toNat : ℤ) homestead = _
  rw [toNat_add_of_le_one K.v_sign (by decide)]
  cases homestead with
  | false => exact recoverPlain_frontier recoverPlain_sign
  | true => exact recoverPlain_sign

variable {chainId : Nat}

theorem recoverPlain_protected {h : Hash} :
    recoverPlain C h (K.sign h k).r (K.sign h k).s
      ((((K.sign h k).v + 35).toNat + chainId * 2 : ℕ) - chainId * 2 - 8) true = .ok (K.address k) := by
  have hplain : ((((K.sign h k).v + 35).toNat + chainId * 2 : ℕ) : ℤ) - chainId * 2 - 8 =
      (K.sign h k).v.toNat + 27 := by
    rw [toNat_add_of_le_one K.v_sign (by decide), show (35 : UInt8).toNat = 35 from rfl]
    omega
  rw [hplain]
  exact recoverPlain_sign

/-- A legacy transaction that was signed for a chain is protected, for that chain. -/
theorem protected_sign (K : KeyScheme C Key) (k : Key) (h : Hash) (chainId : Nat) :
    isProtectedV (((K.sign h k).v + 35).toNat + chainId * 2) = true ∧
      deriveChainId (((K.sign h k).v + 35).toNat + chainId * 2) = chainId := by
  have hv : (K.sign h k).v.toNat ≤ 1 := by
    rcases K.v_sign with hv | hv <;> rw [hv] <;> decide
  rw [toNat_add_of_le_one K.v_sign (by decide)]
  exact ⟨isProtectedV_protected _ _, deriveChainId_protected hv⟩

theorem eip155Sender_signed {tx : LegacyTx} :
    eip155Sender C chainId (.legacy { tx with
      v := ((K.sign (eip155Hash C chainId (.legacy tx)) k).v + 35).toNat + chainId * 2
      r := (K.sign (eip155Hash C chainId (.legacy tx)) k).r
      s := (K.sign (eip155Hash C chainId (.legacy tx)) k).s }) = .ok (K.address k) := by
  obtain ⟨hprotected, hchain⟩ := protected_sign K k (eip155Hash C chainId (.legacy tx)) chainId
  unfold eip155Sender
  rw [if_neg (by simp [TxData.txType]), if_neg (by simpa [TxData.isProtected] using hprotected),
    if_neg (by simpa [TxData.chainID] using hchain)]
  exact recoverPlain_protected

theorem sender_signTx {signer : Signer} {tx signed : TxData} (hsigns : signer.Signs tx)
    (hmatch : ¬ signer.Mismatched tx) (hok : tx.signTx K signer k = .ok signed) :
    signer.sender C signed = .ok (K.address k) := by
  rw [signTx_eq hsigns] at hok
  cases hok
  cases tx with
  | legacy tx =>
    have hvalue {chainId : Nat} (hchain : signer.chainID = some chainId) (v : UInt8) :
        signer.vValue (.legacy tx) v = (v + 35).toNat + chainId * 2 := by
      have hzero : chainId ≠ 0 := fun hzero ↦ hmatch ⟨rfl, hchain.trans (congrArg some hzero)⟩
      simp [vValue, txType, hchain, hzero]
    cases signer with
    | frontier | homestead => exact plainSender_signed
    | eip155 chainId | eip2930 chainId | london chainId =>
      rw [hvalue rfl]
      exact eip155Sender_signed
  | accessList tx =>
    cases signer with
    | frontier | homestead | eip155 chainId => exact hsigns.elim
    | eip2930 chainId | london chainId =>
      exact (if_neg (fun h ↦ h rfl)).trans (@recoverPlain_sign _ _ K k (eip2930Hash C chainId (.accessList tx)))
  | dynamicFee tx =>
    cases signer with
    | frontier | homestead | eip155 chainId | eip2930 chainId => exact hsigns.elim
    | london chainId => exact (if_neg (fun h ↦ h rfl)).trans recoverPlain_sign

/-- The London signer accepts a protected transaction only for its own chain. -/
theorem chainID_of_londonSender {tx : TxData} {addr : Address} (hprotected : tx.isProtected = true)
    (hok : londonSender C chainId tx = .ok addr) : tx.chainID = chainId := by
  by_contra hne
  cases tx with
  | legacy tx =>
    have hrejected : eip155Sender C chainId (.legacy tx) = .error .invalidChainId := by
      rw [eip155Sender, if_neg (by simp [txType]), if_neg (by simp [hprotected]), if_pos hne]
    cases hrejected.symm.trans hok
  | accessList tx | dynamicFee tx =>
    exact absurd (hok.symm.trans (if_pos hne)) (by simp)

/-- A sender that was cached for another signer is not used. -/
theorem cachedSender_eq {signer : Signer} {cache : Option SigCache} {tx : TxData} {addr : Address}
    (hsender : signer.sender C tx = .ok addr) (hcache : ∀ sc ∈ cache, sc.signer = signer → sc.addr = addr) :
    (signer.cachedSender C cache tx).1 = .ok addr := by
  unfold cachedSender
  cases hfilter : cache.filter fun sc ↦ sc.signer = signer with
  | none => simp [hsender]
  | some sc =>
    obtain ⟨hmem, hsigner⟩ := Option.filter_eq_some_iff.1 hfilter
    exact congrArg Except.ok (hcache sc hmem (of_decide_eq_true hsigner))

end Signer

variable {signer : Signer}

/-- A transaction whose cache holds what its signer answered asks the cache in the same way. -/
theorem Transaction.cachedSender_sigCache {C : Crypto} {t : Transaction C} :
    (signer.cachedSender C t.sigCache t.inner).1 = (t.sender signer).map Prod.fst := by
  unfold cachedSender Transaction.sender
  cases t.sigCache.filter fun sc ↦ sc.signer = signer with
  | some sc => rfl
  | none =>
    dsimp only
    split
    · next addr hok =>
      split
      · next addr' hok' =>
        cases hok.symm.trans hok'
        rfl
      · next e herr => cases hok.symm.trans herr
    · next e herr =>
      split
      · next addr' hok' => cases herr.symm.trans hok'
      · next e' herr' =>
        cases herr.symm.trans herr'
        rfl

/-! ## Where signing and recovery part -/

namespace Mismatch

def signatureOf (v : UInt8) : SigBytes := ⟨beBytes 32 1 ++ beBytes 32 1 ++ [v], by simp⟩

def signature (h : Hash) : SigBytes := if h = 1 then signatureOf 1 else signatureOf 0

/-- A hash that tells one preimage from all others, with those signatures. -/
def crypto (preimage : Bytes) : Crypto where
  keccak256 b := if b = preimage then 1 else 0
  ecrecover h sig := if sig = (signature h).toList then some [4] else none
  sha256 b := b
  ripemd160 b := b

def keys (preimage : Bytes) : KeyScheme (crypto preimage) Unit where
  pub _ := []
  sign h _ := signature h
  sign_valid h _ := by
    unfold signature
    split_ifs <;> decide +kernel
  ecrecover_sign _ _ := if_pos rfl

/-- The fields every legacy signature covers. -/
def plainFields (tx : LegacyTx) : List Bytes :=
  [Rlp.uint tx.nonce.toNat, Rlp.uint tx.gasPrice, Rlp.uint tx.gas.toNat, encodeTo tx.toAddr, Rlp.uint tx.value,
    Rlp.bytes tx.data]

/-- What a signer with chain identifier zero signs for a legacy transaction. -/
def protectedPreimage (tx : LegacyTx) : Bytes := Rlp.list (plainFields tx ++ [Rlp.uint 0, Rlp.uint 0, Rlp.uint 0])

/-- The hash of the unprotected transaction covers other bytes. -/
theorem frontierHash_zero (tx : LegacyTx) : frontierHash (crypto (protectedPreimage tx)) (.legacy tx) = 0 := by
  refine if_neg fun heq ↦ ?_
  have hcontent : (plainFields tx).flatten = (plainFields tx ++ [Rlp.uint 0, Rlp.uint 0, Rlp.uint 0]).flatten :=
    Rlp.puthead_append_inj heq
  have hlen := congrArg length hcontent
  rw [flatten_append, length_append] at hlen
  have hzero : (flatten [Rlp.uint 0, Rlp.uint 0, Rlp.uint 0]).length = 3 := by decide
  omega

/-- The signature of one hash is not the signature of the other. -/
theorem recoverPlain_other (preimage : Bytes) :
    recoverPlain (crypto preimage) 0 1 1 (28 : ℕ) true = .error .recoveryFailed := by
  have hne : beBytes 32 1 ++ beBytes 32 1 ++ [1] ≠ (signature 0).toList := by decide
  have hother : (crypto preimage).ecrecover 0 (beBytes 32 1 ++ beBytes 32 1 ++ [1]) = none := by
    simp only [crypto, if_neg hne]
  have hbyte : UInt8.ofNat (wrap64 (((28 : ℕ) : ℤ).natAbs + (2 ^ 64 - 27))) = 1 := by decide
  unfold recoverPlain
  rw [if_neg (by decide)]
  simp only [hbyte]
  rw [if_neg (by decide), hother]

theorem signTx_zero {tx : LegacyTx} (hchain : signer.chainID = some 0) :
    (legacy tx).signTx (keys (protectedPreimage tx)) signer () =
      .ok (.legacy { tx with v := 28, r := 1, s := 1 }) := by
  have hsigns : signer.Signs (.legacy tx) := trivial
  have hhash : signer.hash (crypto (protectedPreimage tx)) (.legacy tx) = 1 := by
    cases signer with
    | frontier | homestead => cases hchain
    | eip155 chainId | eip2930 chainId | london chainId =>
      cases hchain
      exact if_pos rfl
  have hsign : (keys (protectedPreimage tx)).sign 1 () = signatureOf 1 := by
    show signature 1 = _
    rw [signature, if_pos rfl]
  have hvalue : signer.vValue (.legacy tx) (signatureOf 1).v = 28 := by
    rw [vValue, hchain]
    rfl
  rw [signTx_eq hsigns, hhash, hsign, hvalue]
  rfl

theorem eip155Sender_zero (tx : LegacyTx) :
    eip155Sender (crypto (protectedPreimage tx)) 0 (.legacy { tx with v := 28, r := 1, s := 1 }) =
      .error .recoveryFailed := by
  have hplain : homesteadSender (crypto (protectedPreimage tx)) (.legacy { tx with v := 28, r := 1, s := 1 }) =
      recoverPlain (crypto (protectedPreimage tx))
        (frontierHash (crypto (protectedPreimage tx)) (.legacy tx)) 1 1 (28 : ℕ) true := by
    rw [homesteadSender, plainSender, if_neg (by simp [txType])]
    rfl
  have hunprotected : (legacy { tx with v := 28, r := 1, s := 1 }).isProtected = false :=
    (by decide : isProtectedV 28 = false)
  rw [eip155Sender, if_neg (by simp [txType]), if_pos hunprotected, hplain, frontierHash_zero,
    recoverPlain_other]

/-- A legacy transaction signed for the chain identifier zero is not recovered. -/
theorem sender_signed (tx : LegacyTx) (hchain : signer.chainID = some 0) :
    signer.sender (crypto (protectedPreimage tx)) (.legacy { tx with v := 28, r := 1, s := 1 }) =
      .error .recoveryFailed := by
  have hsender (C : Crypto) (tx : LegacyTx) : signer.sender C (.legacy tx) = eip155Sender C 0 (.legacy tx) := by
    cases signer <;> cases hchain <;> rfl
  rw [hsender, eip155Sender_zero]

end Mismatch

/-! ## Signing and recovery -/

/-- Signing succeeds, the sender of the signed transaction is the address of the key whatever other signers have
cached, and both encodings give the signed transaction back. -/
def Recovers {C : Crypto} {Key : Type} (K : KeyScheme C Key) (signer : Signer) (tx : TxData) (k : Key) : Prop :=
  ∃ signed, tx.signTx K signer k = .ok signed ∧
    (∀ cache : Option SigCache, (∀ sc ∈ cache, sc.signer = signer → signer.sender C signed = .ok sc.addr) →
      (signer.cachedSender C cache signed).1 = .ok (K.address k)) ∧
    (signed.encodeRLP.length < 2 ^ 63 →
      TxData.unmarshalBinary signed.marshalBinary = .ok signed ∧
      TxData.decodeTransaction signed.encodeRLP = .ok signed)

theorem recovers_of_not_mismatched {C : Crypto} {Key : Type} {K : KeyScheme C Key} {tx : TxData}
    {k : Key} (hsigns : signer.Signs tx) (hmatch : ¬ signer.Mismatched tx) : Recovers K signer tx k := by
  obtain ⟨signed, hsigned⟩ : ∃ signed, tx.signTx K signer k = .ok signed := exists_signTx_iff.2 hsigns
  refine ⟨signed, hsigned, fun cache hcache ↦ ?_, fun hlen ↦ ⟨?_, ?_⟩⟩
  · have hsender := sender_signTx hsigns hmatch hsigned
    exact cachedSender_eq hsender fun sc hsc hsigner ↦
      Except.ok.inj ((hcache sc hsc hsigner).symm.trans hsender)
  · exact (unmarshalBinary_eq_ok ((marshalBinary_length_le _).trans_lt hlen)).2 rfl
  · exact (decodeTransaction_eq_ok hlen).2 rfl

theorem not_recovers_of_mismatched {tx : LegacyTx} (hchain : signer.chainID = some 0) :
    ¬ Recovers (Mismatch.keys (Mismatch.protectedPreimage tx)) signer (.legacy tx) () := by
  rintro ⟨signed, hsigned, hsender, -⟩
  cases (Mismatch.signTx_zero hchain).symm.trans hsigned
  have hfailed := Mismatch.sender_signed tx hchain
  have hok := hsender none nofun
  unfold cachedSender at hok
  simp [hfailed] at hok

/-- Signing and recovery match exactly where no legacy transaction is signed for the chain identifier zero, for
all transactions that `SignTx` does not refuse, and no protected or typed transaction is accepted for two
chains. -/
theorem sender_signTx_iff (signer : Signer) (tx : TxData) :
    (signer.Signs tx → ((∀ (C : Crypto) (Key : Type) (K : KeyScheme C Key) (k : Key), Recovers K signer tx k) ↔
      ¬ signer.Mismatched tx)) ∧
    (∀ (C : Crypto) (Key : Type) (K : KeyScheme C Key) (k : Key),
      (∃ signed, tx.signTx K signer k = .ok signed) ↔ signer.Signs tx) ∧
    ∀ (C : Crypto) (c d : Nat) (a b : Address), c ≠ d → tx.isProtected = true →
      ¬ ((Signer.london c).sender C tx = .ok a ∧ (Signer.london d).sender C tx = .ok b) := by
  refine ⟨fun hsigns ↦ ⟨?_, fun hmatch C Key K k ↦ recovers_of_not_mismatched hsigns hmatch⟩,
    fun C Key K k ↦ TxData.exists_signTx_iff, ?_⟩
  · rintro hall ⟨hlegacy, hchain⟩
    cases tx with
    | legacy tx => exact not_recovers_of_mismatched hchain (hall _ _ _ _)
    | accessList tx | dynamicFee tx => cases hlegacy
  · rintro C c d a b hne hprotected ⟨hc, hd⟩
    exact hne ((Signer.chainID_of_londonSender hprotected hc).symm.trans
      (Signer.chainID_of_londonSender hprotected hd))

def Mismatch.sampleTx : LegacyTx := ⟨0, 0, 0, none, 0, [], 0, 0, 0⟩

theorem sender_signTx_one : (Signer.london 1).Signs (.legacy Mismatch.sampleTx) ∧
    Recovers (Mismatch.keys []) (.london 1) (.legacy Mismatch.sampleTx) () :=
  ⟨trivial, ((sender_signTx_iff (.london 1) (.legacy Mismatch.sampleTx)).1 trivial).2 (by decide) _ _ _ _⟩

theorem sender_signTx_zero :
    ∃ signed, (TxData.legacy Mismatch.sampleTx).signTx
        (Mismatch.keys (Mismatch.protectedPreimage Mismatch.sampleTx)) (.london 0) () = .ok signed ∧
      (Signer.london 0).sender (Mismatch.crypto (Mismatch.protectedPreimage Mismatch.sampleTx)) signed =
        .error .recoveryFailed :=
  ⟨_, Mismatch.signTx_zero rfl, Mismatch.sender_signed _ rfl⟩

end GoEntropy
