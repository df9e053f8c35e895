import GoEntropy.Common.Bytes

/-!
# Big-endian numbers

`minBytes` writes a number without leading zeros and `setBytes` reads it back. The two are inverse to
each other on byte strings that do not start with zero, which is what makes the integers and the sizes
of the wire formats canonical.
-/

namespace GoEntropy

theorem setBytes_lt (b : Bytes) : setBytes b < 256 ^ b.length := by
  induction b using List.reverseRecOn with
  | nil => exact Nat.one_pos
  | append_singleton b x ih =>
    have hx := x.toNat_lt
    rw [setBytes_concat, List.length_append, List.length_singleton]
    omega

theorem beBytes_setBytes (b : Bytes) : beBytes b.length (setBytes b) = b := by
  induction b using List.reverseRecOn with
  | nil => rfl
  | append_singleton b x ih =>
    have hx := x.toNat_lt
    have hhigh : (setBytes b * 256 + x.toNat) / 256 = setBytes b := by omega
    have hlow : UInt8.ofNat (setBytes b * 256 + x.toNat) = x := by
      rw [← UInt8.toNat_inj, UInt8.toNat_ofNat']
      omega
    rw [setBytes_concat, List.length_append, List.length_singleton, beBytes, hhigh, ih, hlow]

theorem le_setBytes {x : UInt8} (hx : x ≠ 0) (b : Bytes) : 256 ^ b.length ≤ setBytes (x :: b) := by
  induction b using List.reverseRecOn with
  | nil =>
    have hx : x.toNat ≠ 0 := fun h ↦ hx (UInt8.toNat_inj.1 h)
    simp only [setBytes, List.foldl_cons, List.foldl_nil, List.length_nil]
    omega
  | append_singleton b y ih =>
    rw [← List.cons_append, setBytes_concat, List.length_append, List.length_singleton]
    omega

theorem minBytes_eq_beBytes {w n : Nat} (hlow : 256 ^ w ≤ n) (hhigh : n < 256 ^ (w + 1)) :
    minBytes n = beBytes (w + 1) n := by
  have hn : n ≠ 0 := by
    omega
  have hwidth : n.log2 / 8 = w := by
    rw [show (256 : Nat) = 2 ^ 8 from rfl, ← Nat.pow_mul] at hlow hhigh
    have h1 := (Nat.le_log2 hn).2 hlow
    have h2 := (Nat.log2_lt hn).2 hhigh
    omega
  rw [minBytes, if_neg hn, hwidth]

theorem setBytes_minBytes (n : Nat) : setBytes (minBytes n) = n := by
  unfold minBytes
  split
  · rename_i h
    rw [h]
    rfl
  · rename_i h
    have hlog : n.log2 < 8 * (n.log2 / 8 + 1) := by omega
    rw [setBytes_beBytes, show (256 : Nat) = 2 ^ 8 from rfl, ← Nat.pow_mul,
      Nat.mod_eq_of_lt ((Nat.log2_lt h).1 hlog)]

theorem minBytes_setBytes {b : Bytes} (hb : b.head? ≠ some 0) : minBytes (setBytes b) = b := by
  cases b with
  | nil => rfl
  | cons x b =>
    have hx : x ≠ 0 := fun h ↦ hb (congrArg some h)
    rw [minBytes_eq_beBytes (le_setBytes hx b) (setBytes_lt (x :: b))]
    exact beBytes_setBytes (x :: b)

theorem head_minBytes (n : Nat) : (minBytes n).head? ≠ some 0 := by
  intro h
  cases hb : minBytes n with
  | nil => rw [hb] at h; cases h
  | cons x b =>
    have hx : x = 0 := by simpa [hb] using h
    -- Without the leading zero the number fits into fewer bytes.
    have hn : n = setBytes b := by
      have := setBytes_minBytes n
      rw [hb, hx] at this
      rw [← this]
      simp [setBytes]
    have hlen : (minBytes n).length = b.length + 1 := by rw [hb]; rfl
    have hlt : n < 256 ^ b.length := hn ▸ setBytes_lt b
    have hpos : n ≠ 0 := by
      intro hzero
      rw [hzero] at hb
      cases hb
    rw [minBytes, if_neg hpos, length_beBytes] at hlen
    have hle : 2 ^ n.log2 ≤ n := Nat.log2_self_le hpos
    have hpow : 256 ^ b.length ≤ 2 ^ n.log2 := by
      rw [show (256 : Nat) = 2 ^ 8 from rfl, ← Nat.pow_mul]
      exact Nat.pow_le_pow_right (by decide) (by omega)
    omega

theorem length_minBytes_le {w n : Nat} (h : n < 256 ^ w) : (minBytes n).length ≤ w := by
  by_contra hlt
  cases hb : minBytes n with
  | nil => simp [hb] at hlt
  | cons x b =>
    have hx : x ≠ 0 := by
      intro hx
      have := head_minBytes n
      rw [hb, hx] at this
      exact this rfl
    have hle := le_setBytes hx b
    rw [← hb, setBytes_minBytes] at hle
    have hlen : w ≤ b.length := Nat.lt_succ_iff.1 (by simpa [hb] using hlt)
    have := Nat.pow_le_pow_right (show 0 < 256 by decide) hlen
    omega

theorem lt_two_pow_of_bitLen_le {w n : Nat} (h : bitLen n ≤ w) : n < 2 ^ w := by
  unfold bitLen at h
  split at h
  · rename_i hzero
    rw [hzero]
    exact Nat.two_pow_pos w
  · rename_i hpos
    exact (Nat.log2_lt hpos).1 h

end GoEntropy
