import GoEntropy.Rlp.Buffer

/-!
# RLP is canonical

Decoding inverts encoding, and a decoder accepts nothing but what the encoder returns for the value that
it decodes to: for the generic values that an `interface{}` holds, and for every type. The length of a
byte slice is an `int`, so it is below 2 ^ 63 for every input and output of the code.
-/

namespace GoEntropy.Rlp

theorem decodeBytes_encodeToBytes {typ : Typ} {v : typ.Val} (h : (encodeToBytes typ v).length < 2 ^ 63) :
    decodeBytes typ (encodeToBytes typ v) = .ok v := by
  have heq := encodeToBytes_eq (.inl h)
  rw [heq] at h ⊢
  exact (decodeBytes_eq_ok _ _ h).2 rfl

theorem encodeToBytes_decodeBytes {typ : Typ} {v : typ.Val} {b : Bytes} (hb : b.length < 2 ^ 63)
    (h : decodeBytes typ b = .ok v) : encodeToBytes typ v = b := by
  have henc := (decodeBytes_eq_ok _ _ hb).1 h
  rw [encodeToBytes_eq (.inr (henc ▸ hb)), henc]

/-- **Generic RLP is canonical.** Encoding and decoding into an `interface{}` are inverse to each other,
and the inputs that are accepted are the outputs of the encoder. -/
theorem generic_rlp_canonical :
    (∀ v : Generic, (encodeToBytes .interface v).length < 2 ^ 63 →
      decodeBytes .interface (encodeToBytes .interface v) = .ok v) ∧
    ∀ b : Bytes, b.length < 2 ^ 63 →
      (∀ v : Generic, decodeBytes .interface b = .ok v → encodeToBytes .interface v = b) ∧
      ((∃ v : Generic, decodeBytes .interface b = .ok v) ↔
        ∃ v : Generic, encodeToBytes .interface v = b) := by
  refine ⟨fun v ↦ decodeBytes_encodeToBytes, fun b hb ↦ ?_⟩
  have hencode (v : Generic) (hv : decodeBytes .interface b = .ok v) : encodeToBytes .interface v = b :=
    encodeToBytes_decodeBytes hb hv
  refine ⟨hencode, ?_, ?_⟩
  · rintro ⟨v, hv⟩
    exact ⟨v, hencode v hv⟩
  · rintro ⟨v, rfl⟩
    exact ⟨v, decodeBytes_encodeToBytes hb⟩

/-- A list of a byte, an empty list and a long string, and the same with a size that has a leading
zero. -/
theorem generic_rlp_canonical_list :
    decodeBytes .interface (encodeToBytes .interface
        (.list [.bytes [7], .list [], .bytes (List.replicate 60 0)])) =
      .ok (.list [.bytes [7], .list [], .bytes (List.replicate 60 0)]) ∧
    ¬ ∃ v : Generic, encodeToBytes .interface v = 0xB9 :: 0 :: 60 :: List.replicate 60 0 := by
  refine ⟨generic_rlp_canonical.1 _ (by decide), fun hex ↦ ?_⟩
  obtain ⟨v, hv⟩ := ((generic_rlp_canonical.2 (0xB9 :: 0 :: 60 :: .replicate 60 0)
    (by decide)).2).2 hex
  have hrejected : (decodeBytes .interface (0xB9 :: 0 :: 60 :: .replicate 60 0)).toOption.isNone = true :=
    by decide
  rw [hv] at hrejected
  cases hrejected

/-- **Typed RLP is canonical.** For every type, encoding and decoding are inverse to each other. -/
theorem typed_rlp_canonical (typ : Typ) :
    (∀ v : typ.Val, (encodeToBytes typ v).length < 2 ^ 63 →
      decodeBytes typ (encodeToBytes typ v) = .ok v) ∧
    ∀ (b : Bytes) (v : typ.Val), b.length < 2 ^ 63 → decodeBytes typ b = .ok v →
      encodeToBytes typ v = b :=
  ⟨fun _ ↦ decodeBytes_encodeToBytes, fun _ _ ↦ encodeToBytes_decodeBytes⟩

namespace Sample

/-- A struct with two integers, an array of byte strings, and a tail of structs. -/
def record : Typ := .struct (.cons "Nonce" (.uint .w64) (.cons "Value" .bigInt
  (.cons "Keys" (.array 2 (.slice (.uint .w8))) (.tail "Rest" (.struct (.cons "Ok" .bool .nil))))))

end Sample

open Sample in
/-- A record of that type. -/
theorem typed_rlp_canonical_record :
    decodeBytes record (encodeToBytes record
        ((300 : UInt64), (2 ^ 80 : Nat), (⟨[[1], []], rfl⟩ : List.Vector Bytes 2), [(true, ()), (false, ())])) =
      .ok ((300 : UInt64), (2 ^ 80 : Nat), (⟨[[1], []], rfl⟩ : List.Vector Bytes 2),
        [(true, ()), (false, ())]) :=
  (typed_rlp_canonical record).1 _ (by decide)

end GoEntropy.Rlp
