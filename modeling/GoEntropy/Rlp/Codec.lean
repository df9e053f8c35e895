import GoEntropy.Rlp.Header

/-!
# Codecs

A decoder and an encoding form a codec when the decoder reads exactly the encodings. On a stream that is
ready it succeeds where the input starts with the encoding of a value and the list it is in has room for
it, and where it succeeds the input has started with the encoding of the value that it returns. The
second half says nothing about room: the limit of the list is reduced by the length of the encoding, and
may have wrapped around. That is found out at the end of the list, as the input is far too short for a
limit that has wrapped around.

What a codec says of `EOL` keeps it within its list: a decoder returns it at the end of the list it was
called in, having read nothing, and nowhere else.
-/

namespace GoEntropy.Rlp

open Decoder Rlp.Stream

variable {α β : Type} {dec : Decoder α} {enc : α → Bytes} {s s' s'' : Stream} {n m : Nat} {e : RlpError}

/-- So many bytes have been read. -/
structure Advanced (s : Stream) (n : Nat) (s' : Stream) : Prop where
  ready : s'.Ready
  le : n ≤ s.input.length
  input : s'.input = s.input.drop n
  stack : s'.stack = s.stack.modifyHead (sub64 · n)

/-- The decoder reads exactly the encodings, as long as the input is shorter than the bound. -/
structure Codec (bound : Nat) (dec : Decoder α) (enc : α → Bytes) : Prop where
  complete {s : Stream} {v : α} (hs : s.Ready) (hlen : s.input.length < bound)
    (hinput : enc v <+: s.input) (hroom : s.Allows (enc v).length) :
    ∃ s', dec s = (.ok v, s') ∧ Advanced s (enc v).length s'
  sound {s s' : Stream} {v : α} (hs : s.Ready) (hlen : s.input.length < bound)
    (hok : dec s = (.ok v, s')) : enc v <+: s.input ∧ Advanced s (enc v).length s'
  eol {s : Stream} (hs : s.Ready) (hlen : s.input.length < bound) (hend : s.listLimit = some 0) :
    dec s = (.error .eol, s)
  error {s s' : Stream} {e : RlpError} (hs : s.Ready) (hlen : s.input.length < bound)
    (herr : dec s = (.error e, s')) : e.Plain ∨ (e = .eol ∧ s.listLimit = some 0 ∧ s' = s)
  pos (v : α) : 0 < (enc v).length

/-- The decoder reads exactly the contents of lists. -/
structure Content (bound : Nat) (dec : Decoder α) (enc : α → Bytes) : Prop where
  complete {s : Stream} {v : α} (hs : s.Ready) (hlen : s.input.length < bound)
    (hinput : enc v <+: s.input) (hlist : s.listLimit = some (enc v).length) :
    ∃ s', dec s = (.ok v, s') ∧ Advanced s (enc v).length s'
  sound {s s' : Stream} {v : α} (hs : s.Ready) (hlen : s.input.length < bound)
    (hok : dec s = (.ok v, s')) : enc v <+: s.input ∧ Advanced s (enc v).length s'
  error {s s' : Stream} {e : RlpError} (hs : s.Ready) (hlen : s.input.length < bound)
    (herr : dec s = (.error e, s')) : e.Plain

theorem Codec.mono {bound bound' : Nat} (h : Codec bound dec enc) (hle : bound' ≤ bound) :
    Codec bound' dec enc where
  complete hs hlen := h.complete hs (hlen.trans_le hle)
  sound hs hlen := h.sound hs (hlen.trans_le hle)
  eol hs hlen := h.eol hs (hlen.trans_le hle)
  error hs hlen := h.error hs (hlen.trans_le hle)
  pos := h.pos

variable {bound : Nat}

theorem Codec.congr {dec' : Decoder α} (h : Codec bound dec enc)
    (heq : ∀ s : Stream, s.Ready → s.input.length < bound → dec' s = dec s) : Codec bound dec' enc where
  complete hs hlen hinput hroom := heq _ hs hlen ▸ h.complete hs hlen hinput hroom
  sound hs hlen hok := h.sound hs hlen (heq _ hs hlen ▸ hok)
  eol hs hlen hend := (heq _ hs hlen).trans (h.eol hs hlen hend)
  error hs hlen herr := h.error hs hlen (heq _ hs hlen ▸ herr)
  pos := h.pos

/-! ## Advancing -/

theorem sub64_sub64 {l : Nat} (hn : n < 2 ^ 63) (hm : m < 2 ^ 63) :
    sub64 (sub64 l n) m = sub64 l (n + m) := by
  unfold sub64 wrap64
  omega

theorem Advanced.trans (hs : s.Ready) (h : Advanced s n s') (h' : Advanced s' m s'') :
    Advanced s (n + m) s'' := by
  have hshort := hs.short
  have hn := h.le
  have hm := h'.le
  rw [h.input, List.length_drop] at hm
  refine ⟨h'.ready, by omega, by rw [h'.input, h.input, List.drop_drop], ?_⟩
  rw [h'.stack, h.stack, List.modifyHead_modifyHead]
  congr 1
  funext l
  exact sub64_sub64 (by omega) (by omega)

theorem modifyHead_lt (h : ∀ l ∈ s.stack, l < 2 ^ 64) :
    ∀ l ∈ s.stack.modifyHead (sub64 · n), l < 2 ^ 64 := by
  cases hs : s.stack with
  | nil => simp
  | cons l rest =>
    rw [hs] at h
    simp only [List.modifyHead_cons, List.mem_cons, forall_eq_or_imp] at h ⊢
    exact ⟨wrap64_lt _, h.2⟩

/-- Within the limit of the list nothing wraps around. -/
theorem stack_take (hs : s.Ready) (hroom : s.Allows n) :
    (s.take n).stack = s.stack.modifyHead (sub64 · n) := by
  cases hstack : s.stack with
  | nil => simp [take, hstack]
  | cons l rest =>
    have hle : n ≤ l := hroom l (by simp [listLimit, hstack])
    have hlt : l < 2 ^ 64 := hs.limits l (by simp [hstack])
    simp [take, hstack, sub64_of_le hle hlt]

theorem advanced_take (hs : s.Ready) (hroom : s.Allows n) (hn : n ≤ s.input.length) :
    Advanced s n (s.take n) where
  ready := by
    refine ⟨rfl, hs.limited, by simp [take, hs.remaining], ?_, ?_⟩
    · have := hs.short
      simp only [take, List.length_drop]
      omega
    · rw [stack_take hs hroom]
      exact modifyHead_lt hs.limits
  le := hn
  input := rfl
  stack := stack_take hs hroom

/-- The header cache does not matter to a stream that is ready. -/
theorem Advanced.congr (h : Advanced s n s') (hkind : s''.kind = none) (hlimited : s''.limited = s'.limited)
    (hremaining : s''.remaining = s'.remaining) (hinput : s''.input = s'.input)
    (hstack : s''.stack = s'.stack) : Advanced s n s'' where
  ready := ⟨hkind, hlimited.trans h.ready.limited,
    by rw [hremaining, hinput]; exact h.ready.remaining, hinput ▸ h.ready.short, hstack ▸ h.ready.limits⟩
  le := h.le
  input := hinput.trans h.input
  stack := hstack.trans h.stack

/-! ## Strings -/

theorem allows_add (hn : s.Allows n) (hm : (s.take n).Allows m) : s.Allows (n + m) := by
  intro l hl
  obtain ⟨rest, hstack⟩ := List.head?_eq_some_iff.1 hl
  have h1 := hn l hl
  have h2 := hm (l - n) (by simp [listLimit, take, hstack])
  omega

/-- A decoder that goes on from the header of a string. -/
structure StringCodec (f : Kind × Nat → Decoder α) (enc : α → Bytes) : Prop where
  form (v : α) : (∃ x : UInt8, x < 0x80 ∧ enc v = [x]) ∨ ∃ b, enc v = puthead 0x80 0xB7 b.length ++ b
  byte {s s' : Stream} {v : α} (hs : s.Sized) (hx : s.byteval < 0x80) :
    f (.byte, 0) s = (.ok v, s') ↔ enc v = [s.byteval] ∧ s' = { s with kind := none }
  string {s s' : Stream} {v : α} {n : Nat} (hs : s.Sized) :
    f (.string, n) s = (.ok v, s') ↔ ∃ b, readFull n s = (.ok b, s') ∧ enc v = puthead 0x80 0xB7 n ++ b
  list {s s' : Stream} {v : α} {n : Nat} (hs : s.Sized) : f (.list, n) s ≠ (.ok v, s')
  error {s s' : Stream} {k : Kind} {n : Nat} {e : RlpError} (hs : s.Sized)
    (herr : f (k, n) s = (.error e, s')) : e.Plain

theorem sized_ahead (hs : s.Ready) {k : Kind} {x : UInt8} {hd : Bytes} : (s.ahead k n x hd).Sized :=
  ⟨hs.limited, (hs.sized.take hd.length).remaining⟩

theorem advanced_ahead (hs : s.Ready) {k : Kind} {x : UInt8} {hd : Bytes} (hroom : s.Allows hd.length)
    (hlen : hd.length ≤ s.input.length) :
    Advanced s hd.length { s.ahead k n x hd with kind := none } :=
  (advanced_take hs hroom hlen).congr rfl rfl rfl rfl rfl

theorem advanced_ahead_take (hs : s.Ready) {k : Kind} {x : UInt8} {hd : Bytes}
    (hroom : s.Allows (hd.length + m)) (hlen : hd.length + m ≤ s.input.length) :
    Advanced s (hd.length + m) ((s.ahead k n x hd).take m) := by
  have htake : (s.ahead k n x hd).take m =
      { s.take (hd.length + m) with byteval := x, size := n, kinderr := none } := by
    rw [← take_take]
    rfl
  rw [htake]
  exact (advanced_take hs hroom hlen).congr rfl rfl rfl rfl rfl

theorem codec_of_string {f : Kind × Nat → Decoder α} (h : StringCodec f enc) :
    Codec bound (getKind >>= f) enc where
  complete := by
    intro s v hs _ hinput hroom
    rcases h.form v with ⟨x, hx, henc⟩ | ⟨b, henc⟩
    · rw [henc] at hinput hroom ⊢
      have hkind : getKind s = (.ok (.byte, 0), s.ahead .byte 0 x [x]) := (getKind_eq_ok hs).2
        ⟨x, [x], .byte hx, hinput, hroom, fun _ _ ↦ Nat.zero_le _, hinput.length_le, rfl⟩
      refine ⟨{ s.ahead .byte 0 x [x] with kind := none }, ?_,
        advanced_ahead hs hroom hinput.length_le⟩
      rw [bind_ok hkind]
      exact (h.byte (sized_ahead hs) hx).2 ⟨henc, rfl⟩
    · rw [henc] at hinput hroom ⊢
      have hlen := hinput.length_le
      have hshort := hs.short
      rw [List.length_append] at hlen hroom ⊢
      have hkind : getKind s = (.ok (.string, b.length), s.ahead .string b.length 0 _) :=
        (getKind_eq_ok hs).2 ⟨0, _, .string (by omega), (List.prefix_append _ _).trans hinput,
          hroom.mono (by omega), hroom.mono (by omega), hlen, rfl⟩
      obtain ⟨rest, hrest⟩ := hinput
      have hread : readFull b.length (s.ahead .string b.length 0 (puthead 0x80 0xB7 b.length)) =
          (.ok b, _) := (readFull_eq_ok (sized_ahead hs)).2
        ⟨allows_take hroom, by simp [ahead, take]; omega,
          by simp [ahead, take, ← hrest], rfl⟩
      refine ⟨(s.ahead .string b.length 0 (puthead 0x80 0xB7 b.length)).take b.length, ?_,
        advanced_ahead_take hs hroom hlen⟩
      rw [bind_ok hkind]
      exact (h.string (sized_ahead hs)).2 ⟨b, hread, henc⟩
  sound := by
    intro s s' v hs _ hok
    obtain ⟨⟨k, n⟩, s1, hkind, hf⟩ := bind_eq_ok.1 hok
    obtain ⟨x, hd, hheader, hstarts, hroom, _, hlen, rfl⟩ := (getKind_eq_ok hs).1 hkind
    cases hheader with
    | byte hx =>
      obtain ⟨henc, rfl⟩ := (h.byte (sized_ahead hs) hx).1 hf
      rw [henc]
      exact ⟨hstarts, advanced_ahead hs hroom hstarts.length_le⟩
    | string hn =>
      obtain ⟨b, hread, henc⟩ := (h.string (sized_ahead hs)).1 hf
      obtain ⟨hallows, hle, hb, rfl⟩ := (readFull_eq_ok (sized_ahead hs)).1 hread
      have hblen : b.length = n := by rw [hb]; exact List.length_take_of_le hle
      have hroom : s.Allows ((puthead 0x80 0xB7 n).length + n) := allows_add hroom hallows
      rw [henc, List.length_append, hblen]
      refine ⟨?_, advanced_ahead_take hs hroom hlen⟩
      obtain ⟨rest, hrest⟩ := hstarts
      rw [hb]
      simp [ahead, take, ← hrest, List.take_prefix]
    | list => exact absurd hf (h.list (sized_ahead hs))
  eol hs _ hend := bind_error (getKind_eol hs hend)
  error := by
    intro s s' e hs _ herr
    rcases bind_eq_error.1 herr with hkind | ⟨⟨k, n⟩, s1, hkind, hf⟩
    · exact getKind_error hs hkind
    · obtain ⟨x, hd, _, _, _, _, _, rfl⟩ := (getKind_eq_ok hs).1 hkind
      exact .inl (h.error (sized_ahead hs) hf)
  pos := by
    intro v
    rcases h.form v with ⟨x, _, henc⟩ | ⟨b, henc⟩
    · rw [henc]
      exact Nat.one_pos
    · rw [henc, List.length_append]
      unfold puthead
      split <;> simp <;> omega

/-! ## Errors -/

/-- A change of errors that does not touch the end of a list. -/
structure KeepsEol (f : RlpError → RlpError) : Prop where
  eol : f .eol = .eol
  plain {e : RlpError} (h : e.Plain) : (f e).Plain

theorem keepsEol_wrapStreamError (typ : Typ) : KeepsEol (wrapStreamError · typ) where
  eol := rfl
  plain := by
    intro e h
    cases e <;> first | exact h | exact ⟨by simp [wrapStreamError], by simp [wrapStreamError]⟩

variable {f : RlpError → RlpError}

theorem mapError_eq_error :
    mapError f dec s = (.error e, s') ↔ ∃ e', dec s = (.error e', s') ∧ e = f e' := by
  unfold mapError
  rcases hdec : dec s with ⟨e' | a, t⟩
  · rw [tryCatch_error hdec]
    simp only [throw_apply, Prod.mk.injEq, Except.error.injEq]
    constructor
    · rintro ⟨rfl, rfl⟩
      exact ⟨e', ⟨rfl, rfl⟩, rfl⟩
    · rintro ⟨_, ⟨rfl, rfl⟩, rfl⟩
      exact ⟨rfl, rfl⟩
  · rw [tryCatch_ok hdec]
    simp

theorem mapError_bind_pure {g : α → β} :
    (mapError f dec >>= fun a ↦ pure (g a)) = mapError f (dec >>= fun a ↦ pure (g a)) := by
  funext s
  rcases hdec : dec s with ⟨e | a, t⟩
  · rw [bind_error (mapError_eq_error.2 ⟨e, hdec, rfl⟩),
      mapError_eq_error.2 ⟨e, bind_error hdec, rfl⟩]
  · have hpure : (dec >>= fun a ↦ pure (g a)) s = (.ok (g a), t) := bind_ok hdec
    rw [bind_ok (mapError_eq_ok.2 hdec), mapError_eq_ok.2 hpure]
    rfl

theorem Codec.mapError (h : Codec bound dec enc) (hf : KeepsEol f) : Codec bound (mapError f dec) enc where
  complete := by
    intro s v hs hlen hinput hroom
    obtain ⟨s', hdec, hadv⟩ := h.complete hs hlen hinput hroom
    exact ⟨s', mapError_eq_ok.2 hdec, hadv⟩
  sound hs hlen hok := h.sound hs hlen (mapError_eq_ok.1 hok)
  eol hs hlen hend := mapError_eq_error.2 ⟨.eol, h.eol hs hlen hend, hf.eol.symm⟩
  error := by
    intro s s' e hs hlen herr
    obtain ⟨e', hdec, rfl⟩ := mapError_eq_error.1 herr
    rcases h.error hs hlen hdec with hplain | ⟨rfl, hend, rfl⟩
    · exact .inl (hf.plain hplain)
    · exact .inr ⟨hf.eol, hend, rfl⟩
  pos := h.pos

end GoEntropy.Rlp
