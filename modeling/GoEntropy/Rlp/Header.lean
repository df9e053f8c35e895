import GoEntropy.Common.BigEndian
import GoEntropy.Rlp.Decode

/-!
# Reading headers

What the primitives of the stream do to a stream that is ready for a value. `Kind` succeeds exactly
where the input starts with the canonical header of a value that the input is long enough for.
-/

namespace GoEntropy.Rlp

open Decoder Rlp.Stream UInt8
open List hiding take take_take

/-! ## Streams that are ready -/

/-- The stream stands before a header, and its limit is the length of its input. -/
structure Stream.Ready (s : Stream) : Prop where
  kind : s.kind = none
  limited : s.limited = true
  remaining : s.remaining = s.input.length
  short : s.input.length < 2 ^ 63
  limits : ∀ l ∈ s.stack, l < 2 ^ 64

/-- The list allows so many bytes to be read. -/
def Stream.Allows (s : Stream) (n : Nat) : Prop := ∀ l ∈ s.listLimit, n ≤ l

def Stream.take (s : Stream) (n : Nat) : Stream :=
  { s with
    input := s.input.drop n
    remaining := s.remaining - n
    stack := s.stack.modifyHead (· - n)
    kind := none }

namespace Stream

variable {s : Stream} {n m : Nat}

theorem take_take (s : Stream) (n m : Nat) : (s.take n).take m = s.take (n + m) := by
  cases hs : s.stack <;> simp [take, hs, Nat.sub_sub]

theorem allows_take (h : s.Allows (n + m)) : (s.take n).Allows m := by
  intro l hl
  cases hs : s.stack with
  | nil => simp [take, listLimit, hs] at hl
  | cons limit rest =>
    have := h limit (by simp [listLimit, hs])
    simp only [take, listLimit, hs, modifyHead_cons, head?_cons, Option.mem_some_iff] at hl
    omega

theorem Allows.mono (h : s.Allows n) (hm : m ≤ n) : s.Allows m := fun l hl ↦ hm.trans (h l hl)

/-- The parts of `Ready` that do not speak of the header ahead. -/
structure Sized (s : Stream) : Prop where
  limited : s.limited = true
  remaining : s.remaining = s.input.length

theorem Ready.sized (h : s.Ready) : s.Sized := ⟨h.limited, h.remaining⟩

theorem Sized.take (h : s.Sized) (n : Nat) : (s.take n).Sized :=
  ⟨h.limited, by simp [Stream.take, h.remaining]⟩

end Stream

/-! ## Reading bytes -/

def ReadError (e : RlpError) : Prop := e = .elemTooLarge ∨ e = .valueTooLarge

variable {s s' : Stream} {n : Nat} {e : RlpError}

section

variable (h : s.Sized)

include h

theorem willRead_ok (hlist : s.Allows n) (hn : n ≤ s.input.length) :
    willRead n s = (.ok (), { s.take n with input := s.input }) := by
  have hlimited := h.limited
  have hremaining : ¬ n > s.remaining := by rw [h.remaining]; omega
  cases hl : s.listLimit with
  | none =>
    have hstack : s.stack = [] := head?_eq_none_iff.1 hl
    simp [willRead, takeFromList, takeFromInput, bind, take, hlimited, hremaining, hstack,
      listLimit]
  | some limit =>
    have hle : ¬ n > limit := not_lt.2 (hlist limit hl)
    obtain ⟨rest, hstack⟩ := head?_eq_some_iff.1 hl
    simp [willRead, takeFromList, takeFromInput, bind, take, hlimited, hremaining, hstack,
      listLimit, setLimit, hle]

theorem willRead_error (hn : ¬ (s.Allows n ∧ n ≤ s.input.length)) :
    ∃ e s', willRead n s = (.error e, s') ∧ ReadError e := by
  have hlimited := h.limited
  have hremaining : ¬ n ≤ s.input.length → n > s.remaining := by rw [h.remaining]; omega
  cases hl : s.listLimit with
  | none =>
    have hstack : s.stack = [] := head?_eq_none_iff.1 hl
    have hlong : ¬ n ≤ s.input.length := fun hle ↦ hn ⟨fun l h ↦ by simp [hl] at h, hle⟩
    exact ⟨.valueTooLarge, { s with kind := none }, by
      simp [willRead, takeFromList, takeFromInput, bind, hlimited, hremaining hlong, hstack,
        listLimit], .inr rfl⟩
  | some limit =>
    obtain ⟨rest, hstack⟩ := head?_eq_some_iff.1 hl
    by_cases hle : n > limit
    · exact ⟨.elemTooLarge, { s with kind := none }, by
        simp [willRead, takeFromList, bind, hstack, listLimit, hle], .inl rfl⟩
    · have hlong : ¬ n ≤ s.input.length := by
        refine fun hlen ↦ hn ⟨fun l hl' ↦ ?_, hlen⟩
        rw [hl, Option.mem_some_iff] at hl'
        omega
      exact ⟨.valueTooLarge, _, by
        simp [willRead, takeFromList, takeFromInput, bind, hstack, listLimit, hle,
          setLimit, hlimited, hremaining hlong]; rfl, .inr rfl⟩

/-- Bytes are read where the list and the input have them. -/
theorem readFull_eq_ok {b : Bytes} : readFull n s = (.ok b, s') ↔
    s.Allows n ∧ n ≤ s.input.length ∧ b = s.input.take n ∧ s' = s.take n := by
  by_cases hn : s.Allows n ∧ n ≤ s.input.length
  · have hlen : ¬ s.input.length < n := not_lt.2 hn.2
    unfold readFull
    rw [bind_ok (willRead_ok h hn.1 hn.2)]
    unfold fillBuffer
    simp only [hlen, if_false, Prod.mk.injEq, Except.ok.injEq, hn, true_and]
    exact and_congr eq_comm eq_comm
  · obtain ⟨e, s'', hread, _⟩ := willRead_error h hn
    unfold readFull
    rw [bind_error hread]
    rw [error_eq_ok, false_iff]
    exact fun hok ↦ hn ⟨hok.1, hok.2.1⟩

theorem readByte_eq_ok {b : UInt8} : readByte s = (.ok b, s') ↔
    s.Allows 1 ∧ s.input.head? = some b ∧ s' = s.take 1 := by
  by_cases hn : s.Allows 1 ∧ 1 ≤ s.input.length
  · unfold readByte
    rw [bind_ok (willRead_ok h hn.1 hn.2)]
    cases hb : s.input with
    | nil => simp [hb] at hn
    | cons x rest =>
      simp only [hn.1, true_and, head?_cons, Option.some.injEq, Prod.mk.injEq,
        Except.ok.injEq, nextByte, take, hb]
      exact and_congr .rfl eq_comm
  · obtain ⟨e, s'', hread, _⟩ := willRead_error h hn
    unfold readByte
    rw [bind_error hread]
    rw [error_eq_ok, false_iff]
    rintro ⟨hlist, hb, _⟩
    refine hn ⟨hlist, ?_⟩
    cases hs : s.input with
    | nil => simp [hs] at hb
    | cons x rest => simp

theorem readUint_eq_ok (hn : 0 < n) {v : Nat} : readUint n s = (.ok v, s') ↔
    s.Allows n ∧ n ≤ s.input.length ∧ (n = 1 ∨ (s.input.take n).head? ≠ some 0) ∧
      v = setBytes (s.input.take n) ∧ s' = s.take n := by
  match n, hn with
  | 1, _ =>
    show (readByte >>= fun b ↦ pure b.toNat) s = _ ↔ _
    rw [bind_eq_ok]
    simp only [readByte_eq_ok h, pure_apply, Prod.mk.injEq, Except.ok.injEq, true_or, true_and]
    constructor
    · rintro ⟨b, t, ⟨hlist, hb, rfl⟩, rfl, rfl⟩
      obtain ⟨rest, hinput⟩ := head?_eq_some_iff.1 hb
      simp [hlist, hinput, setBytes]
    · rintro ⟨hlist, hlen, rfl, rfl⟩
      cases hinput : s.input with
      | nil => simp [hinput] at hlen
      | cons b rest => exact ⟨b, _, ⟨hlist, rfl, rfl⟩, by simp [setBytes], rfl⟩
  | m + 2, _ =>
    show (readFull (m + 2) >>= fun buffer ↦
      if buffer.head? = some 0 then throw .canonSize else pure (setBytes buffer)) s = _ ↔ _
    rw [bind_check_eq_ok]
    simp only [readFull_eq_ok h]
    constructor
    · rintro ⟨b, ⟨hlist, hlen, rfl, rfl⟩, hzero, rfl⟩
      exact ⟨hlist, hlen, .inr hzero, rfl, rfl⟩
    · rintro ⟨hlist, hlen, hzero, rfl, rfl⟩
      exact ⟨_, ⟨hlist, hlen, rfl, rfl⟩, hzero.resolve_left (by omega), rfl⟩

omit h in
theorem head_ne_zero {b : Bytes} (hlen : b.length = n) (hzero : n = 1 ∨ b.head? ≠ some 0)
    (hlarge : 56 ≤ setBytes b) : b.head? ≠ some 0 := by
  rcases hzero with rfl | hzero
  · obtain ⟨x, rfl⟩ := length_eq_one_iff.1 hlen
    intro hhead
    cases hhead
    exact absurd hlarge (by decide)
  · exact hzero

theorem readSize_eq_ok (hn : 0 < n) {v : Nat} : readSize n s = (.ok v, s') ↔
    s.Allows n ∧ 56 ≤ v ∧ (minBytes v).length = n ∧ minBytes v <+: s.input ∧ s' = s.take n := by
  unfold readSize
  rw [bind_check_eq_ok]
  simp only [readUint_eq_ok h hn]
  constructor
  · rintro ⟨v', ⟨hlist, hlen, hzero, rfl, rfl⟩, hlarge, rfl⟩
    have hlength : (s.input.take n).length = n := length_take_of_le hlen
    rw [minBytes_setBytes (head_ne_zero hlength hzero (not_lt.1 hlarge))]
    exact ⟨hlist, by omega, hlength, List.take_prefix n s.input, rfl⟩
  · rintro ⟨hlist, hlarge, rfl, hstarts, rfl⟩
    have htake : s.input.take (minBytes v).length = minBytes v := (prefix_iff_eq_take.1 hstarts).symm
    refine ⟨v, ⟨hlist, hstarts.length_le, .inr ?_, ?_, rfl⟩, by omega, rfl⟩
    · rw [htake]
      exact head_minBytes v
    · rw [htake, setBytes_minBytes]

end

/-! ## Headers -/

/-- The canonical headers: the kind and the size they announce, and the byte that is its own
encoding. -/
inductive Header : Kind → Nat → UInt8 → Bytes → Prop
  | byte {x : UInt8} (h : x < 0x80) : Header .byte 0 x [x]
  | string {n : Nat} (h : n < 2 ^ 64) : Header .string n 0 (puthead 0x80 0xB7 n)
  | list {n : Nat} (h : n < 2 ^ 64) : Header .list n 0 (puthead 0xC0 0xF7 n)

theorem puthead_eq_cons (small large : UInt8) (n : Nat) :
    ∃ b tl, puthead small large n = b :: tl := by
  unfold puthead
  split <;> exact ⟨_, _, rfl⟩

theorem Header.eq_cons {k : Kind} {n : Nat} {x : UInt8} {hd : Bytes} (h : Header k n x hd) : ∃ b tl, hd = b :: tl := by
  cases h with
  | byte => exact ⟨_, _, rfl⟩
  | string | list => exact puthead_eq_cons _ _ _

theorem toNat_tag {t : UInt8} (h : t.toNat + n < 256) : (t + UInt8.ofNat n).toNat = t.toNat + n := by
  rw [UInt8.toNat_add, UInt8.toNat_ofNat']
  omega

theorem tag_sub {t b : UInt8} (h : t ≤ b) :
    t + UInt8.ofNat (b - t).toNat = b ∧ (b - t).toNat = b.toNat - t.toNat := by
  have hsub : (b - t).toNat = b.toNat - t.toNat := UInt8.toNat_sub_of_le b t h
  refine ⟨?_, hsub⟩
  have hle := le_iff_toNat_le.1 h
  have hb := b.toNat_lt
  rw [← UInt8.toNat_inj, toNat_tag (by omega)]
  omega

theorem tag_distance {t b : UInt8} {k : Nat} (h : b.toNat = t.toNat + k) :
    t ≤ b ∧ (b - t).toNat = k := by
  have hle : t ≤ b := le_iff_toNat_le.2 (by omega)
  exact ⟨hle, by rw [(tag_sub hle).2, h, Nat.add_sub_cancel_left]⟩

theorem length_minBytes_size (hn : 56 ≤ n) (h : n < 2 ^ 64) :
    0 < (minBytes n).length ∧ (minBytes n).length ≤ 8 := by
  refine ⟨?_, length_minBytes_le (by simpa using h)⟩
  rw [minBytes, if_neg (by omega), length_beBytes]
  omega

theorem length_minBytes_le_iff {w v : Nat} : (minBytes v).length ≤ w ↔ v < 256 ^ w := by
  refine ⟨fun h ↦ ?_, length_minBytes_le⟩
  have hlt := setBytes_lt (minBytes v)
  rw [setBytes_minBytes] at hlt
  exact hlt.trans_le (Nat.pow_le_pow_right (by decide) h)

theorem lt_of_length_minBytes (h : (minBytes n).length ≤ 8) : n < 2 ^ 64 := length_minBytes_le_iff.1 h

section Tags

variable {small large b : UInt8} {tl : Bytes}

theorem puthead_short (hlow : small ≤ b) (hhigh : b.toNat < small.toNat + 56) :
    puthead small large (b - small).toNat = [b] := by
  obtain ⟨htag, hsub⟩ := tag_sub hlow
  rw [puthead, if_pos (by omega), htag]

theorem puthead_long (hn : 56 ≤ n) (hlow : large ≤ b) (hlen : (minBytes n).length = (b - large).toNat) :
    puthead small large n = b :: minBytes n := by
  rw [puthead, if_neg (by omega), hlen, (tag_sub hlow).1]

theorem puthead_cases (h : puthead small large n = b :: tl) (hn : n < 2 ^ 64)
    (hsmall : small.toNat + 56 ≤ 256) (hlarge : large.toNat + 8 < 256) :
    (n < 56 ∧ b.toNat = small.toNat + n ∧ tl = []) ∨
      (56 ≤ n ∧ b.toNat = large.toNat + (minBytes n).length ∧ tl = minBytes n) := by
  unfold puthead at h
  split at h
  · rename_i hshort
    obtain ⟨hb, htl⟩ := cons.inj h
    rw [← hb, toNat_tag (by omega)]
    exact .inl ⟨hshort, rfl, htl.symm⟩
  · rename_i hlong
    obtain ⟨hb, htl⟩ := cons.inj h
    have hlen := length_minBytes_size (by omega) hn
    rw [← hb, toNat_tag (by omega)]
    exact .inr ⟨by omega, rfl, htl.symm⟩

end Tags

theorem Stream.take_zero (hkind : s.kind = none) : s.take 0 = s := by
  cases s with
  | mk input remaining limited stack kind size kinderr byteval =>
    obtain rfl : kind = none := hkind
    cases stack <;> simp [take]

variable {m : Nat}

theorem kindOfSize_eq_ok (h : s.Sized) {k kind : Kind} (hn : 0 < n) :
    (readSize n >>= fun size ↦ pure (kind, size)) s = (.ok (k, m), s') ↔
      k = kind ∧ s.Allows n ∧ 56 ≤ m ∧ (minBytes m).length = n ∧ minBytes m <+: s.input ∧ s' = s.take n := by
  rw [bind_eq_ok]
  simp only [readSize_eq_ok h hn, pure_apply, Prod.mk.injEq, Except.ok.injEq]
  constructor
  · rintro ⟨v, t, ⟨hlist, hlarge, hlen, hstarts, rfl⟩, ⟨rfl, rfl⟩, rfl⟩
    exact ⟨rfl, hlist, hlarge, hlen, hstarts, rfl⟩
  · rintro ⟨rfl, hlist, hlarge, hlen, hstarts, rfl⟩
    exact ⟨m, _, ⟨hlist, hlarge, hlen, hstarts, rfl⟩, ⟨rfl, rfl⟩, rfl⟩

variable {k : Kind}

theorem header_of_size {kind : Kind} {small large b : UInt8}
    (hheader : ∀ {n}, n < 2 ^ 64 → Header kind n 0 (puthead small large n)) (hlow : large < b)
    (hhigh : b.toNat ≤ large.toNat + 8) (h : s.Sized)
    (hok : (readSize (b - large).toNat >>= fun size ↦ pure (kind, size)) s = (.ok (k, m), s')) :
    ∃ tl, Header k m 0 (b :: tl) ∧ s.Allows tl.length ∧ tl <+: s.input ∧ s' = s.take tl.length := by
  have hlt := lt_iff_toNat_lt.1 hlow
  have hle : large ≤ b := le_iff_toNat_le.2 hlt.le
  have hsub := (tag_sub hle).2
  obtain ⟨rfl, hlist, hlarge, hlen, hstarts, rfl⟩ := (kindOfSize_eq_ok h (by omega)).1 hok
  have hm : m < 2 ^ 64 := lt_of_length_minBytes (by omega)
  exact ⟨minBytes m, puthead_long hlarge hle hlen ▸ hheader hm, hlen ▸ hlist, hstarts, hlen ▸ rfl⟩

/-- The byte that starts a header decides what follows it. -/
theorem kindOfByte_eq_ok (h : s.Sized) (hkind : s.kind = none) {b : UInt8} :
    kindOfByte b s = (.ok (k, m), s') ↔ ∃ x tl, Header k m x (b :: tl) ∧ s.Allows tl.length ∧
      tl <+: s.input ∧ s' = { s.take tl.length with byteval := x } := by
  have h0 : ({ s with byteval := 0 } : Stream).Sized := ⟨h.limited, h.remaining⟩
  have hzero : s.take 0 = s := take_zero hkind
  have hnone : s.Allows 0 := fun l _ ↦ Nat.zero_le l
  have hb := b.toNat_lt
  unfold kindOfByte
  simp only [lt_iff_toNat_lt, reduceToNat]
  constructor
  · intro hok
    split_ifs at hok with h80 hB8 hC0 hF8
    · cases hok
      exact ⟨b, [], .byte (lt_iff_toNat_lt.2 h80), hnone, List.nil_prefix,
        by rw [length_nil, hzero]⟩
    · cases hok
      have hheader : Header .string (b - 0x80).toNat 0 _ := .string ((toNat_lt _).trans (by decide))
      rw [puthead_short (le_iff_toNat_le.2 (by simpa using h80)) (by simpa using hB8)] at hheader
      exact ⟨0, [], hheader, hnone, List.nil_prefix,
        by rw [length_nil, hzero]⟩
    · obtain ⟨tl, hheader, hlist, hstarts, rfl⟩ := header_of_size (.string)
        (lt_iff_toNat_lt.2 (by simp; omega)) (by simp; omega) h0 hok
      exact ⟨0, tl, hheader, hlist, hstarts, rfl⟩
    · cases hok
      have hheader : Header .list (b - 0xC0).toNat 0 _ := .list ((toNat_lt _).trans (by decide))
      rw [puthead_short (le_iff_toNat_le.2 (by simpa using hC0)) (by simpa using hF8)] at hheader
      exact ⟨0, [], hheader, hnone, List.nil_prefix,
        by rw [length_nil, hzero]⟩
    · obtain ⟨tl, hheader, hlist, hstarts, rfl⟩ := header_of_size (.list)
        (lt_iff_toNat_lt.2 (by simp; omega)) (by simp; omega) h0 hok
      exact ⟨0, tl, hheader, hlist, hstarts, rfl⟩
  · rintro ⟨x, tl, hheader, hlist, hstarts, rfl⟩
    generalize hbytes : b :: tl = bytes at hheader
    cases hheader with
    | byte hx =>
      obtain ⟨rfl, rfl⟩ := cons.inj hbytes
      rw [if_pos (by simpa using lt_iff_toNat_lt.1 hx), length_nil, hzero]
      rfl
    | string hm | list hm =>
      rcases puthead_cases hbytes.symm hm (by decide) (by decide) with
        ⟨hshort, htag, rfl⟩ | ⟨hlong, htag, rfl⟩
      all_goals rw [(tag_distance htag).2]
      all_goals simp only [reduceToNat] at htag
      · rw [length_nil, hzero]
        split_ifs
        all_goals first | omega | rfl
      · have hlen := length_minBytes_size hlong hm
        split_ifs
        all_goals first | omega | exact (kindOfSize_eq_ok h0 hlen.1).2 ⟨rfl, hlist, hlong, rfl, hstarts, rfl⟩

/-- An error other than the end of a list, or a bound of the recursion. -/
def RlpError.Plain (e : RlpError) : Prop := e ≠ .eol ∧ e ≠ .outOfFuel

/-- The decoder keeps a property of the stream, and its errors are plain. -/
def Meets (P : Stream → Prop) {α : Type} (x : Decoder α) : Prop :=
  ∀ s, P s → P (x s).2 ∧ ∀ e, (x s).1 = .error e → e.Plain

namespace Meets

variable {P : Stream → Prop} {α β : Type} {x : Decoder α} {f : α → Decoder β}

theorem plain (h : Meets (fun _ ↦ True) x) (herr : x s = (.error e, s')) : e.Plain :=
  (h s trivial).2 e (by rw [herr])

theorem bind (hx : Meets P x) (hf : ∀ a, Meets P (f a)) : Meets P (x >>= f) := by
  intro s hs
  have h := hx s hs
  rcases hrun : x s with ⟨e | a, t⟩
  · rw [bind_error hrun]
    rw [hrun] at h
    exact ⟨h.1, fun e' he ↦ h.2 e' (Except.error.inj he ▸ rfl)⟩
  · rw [bind_ok hrun]
    rw [hrun] at h
    exact hf a t h.1

theorem pure (a : α) : Meets P (pure a) := fun _ hs ↦ ⟨hs, nofun⟩

theorem throw (he : e.Plain) : Meets P (throw e : Decoder α) :=
  fun _ hs ↦ ⟨hs, fun _ h ↦ Except.error.inj h ▸ he⟩

theorem ite {c : Prop} [Decidable c] {y : Decoder α} (hx : Meets P x) (hy : Meets P y) :
    Meets P (if c then x else y) := by
  split
  · exact hx
  · exact hy

theorem mapError (hx : Meets P x) {g : RlpError → RlpError} (hg : ∀ e, e.Plain → (g e).Plain) :
    Meets P (mapError g x) := by
  intro s hs
  have h := hx s hs
  rcases hrun : x s with ⟨e | a, t⟩
  · rw [Rlp.mapError, tryCatch_error hrun]
    rw [hrun] at h
    exact throw (hg e (h.2 e rfl)) t h.1
  · rw [Rlp.mapError, tryCatch_ok hrun]
    rwa [hrun] at h

section

variable (hP : ∀ s : Stream, s.kind = none → P s)

include hP

/-- After `rearm` nothing is known of the value ahead. -/
theorem rearm {g : Unit → Decoder β} (hg : ∀ a, Meets (·.kind = none) (g a)) :
    Meets P (rearm >>= g) := by
  intro s _
  obtain ⟨hkind, herr⟩ := hg () { s with kind := none } rfl
  exact ⟨hP _ hkind, herr⟩

theorem willRead (n : Nat) {g : Unit → Decoder β} (hg : ∀ a, Meets (·.kind = none) (g a)) :
    Meets P (willRead n >>= g) := by
  unfold Rlp.willRead
  rw [bind_assoc]
  refine rearm hP fun _ ↦ .bind (.bind (fun s hs ↦ ?_) fun _ s hs ↦ ?_) hg
  · unfold takeFromList
    split
    · exact ⟨hs, nofun⟩
    · split
      · exact ⟨hs, by rintro _ ⟨⟩; exact ⟨nofun, nofun⟩⟩
      · exact ⟨hs, nofun⟩
  · unfold takeFromInput
    split
    · split
      · exact ⟨hs, by rintro _ ⟨⟩; exact ⟨nofun, nofun⟩⟩
      · exact ⟨hs, nofun⟩
    · exact ⟨hs, nofun⟩

theorem readFull (n : Nat) : Meets P (readFull n) := by
  refine willRead hP n fun _ s hs ↦ ?_
  unfold fillBuffer
  split
  · exact ⟨hs, by rintro _ ⟨⟩; exact ⟨nofun, nofun⟩⟩
  · exact ⟨hs, nofun⟩

theorem readByte : Meets P readByte := by
  refine willRead hP 1 fun _ s hs ↦ ?_
  unfold nextByte
  split
  · exact ⟨hs, by rintro _ ⟨⟩; exact ⟨nofun, nofun⟩⟩
  · exact ⟨hs, nofun⟩

theorem readUint (n : Nat) : Meets P (readUint n) := by
  match n with
  | 0 => exact rearm hP fun _ ↦ .pure _
  | 1 => exact .bind (readByte hP) fun _ ↦ .pure _
  | n + 2 => exact .bind (readFull hP _) fun _ ↦ .ite (.throw ⟨nofun, nofun⟩) (.pure _)

theorem readSize (n : Nat) : Meets P (readSize n) :=
  .bind (readUint hP n) fun _ ↦ .ite (.throw ⟨nofun, nofun⟩) (.pure _)

end

theorem kindOfByte (b : UInt8) : Meets (fun _ ↦ True) (kindOfByte b) :=
  have hP (s : Stream) (_ : s.kind = none) := trivial
  .bind (fun _ _ ↦ ⟨trivial, nofun⟩) fun _ ↦ .ite (.bind (fun _ _ ↦ ⟨trivial, nofun⟩) fun _ ↦ .pure _) <|
    .ite (.pure _) <| .ite (.bind (readSize hP _) fun _ ↦ .pure _) <| .ite (.pure _) <|
      .bind (readSize hP _) fun _ ↦ .pure _

theorem readKind : Meets (fun _ ↦ True) readKind := by
  refine .bind (fun _ _ ↦ ⟨trivial, nofun⟩) fun s ↦ .bind ?_ kindOfByte
  refine mapError (readByte fun _ _ ↦ trivial) fun e he ↦ ?_
  unfold headerError
  split
  · exact ⟨nofun, nofun⟩
  · exact ⟨nofun, nofun⟩
  · exact he

end Meets

theorem mapError_eq_ok {α : Type} {dec : Decoder α} {f : RlpError → RlpError} {v : α} :
    mapError f dec s = (.ok v, s') ↔ dec s = (.ok v, s') := by
  unfold mapError
  rcases hdec : dec s with ⟨e | a, t⟩
  · rw [tryCatch_error hdec]
    simp
  · rw [tryCatch_ok hdec]

theorem readKind_eq_ok (h : s.Sized) : readKind s = (.ok (k, m), s') ↔
    ∃ x hd, Header k m x hd ∧ s.Allows hd.length ∧ hd <+: s.input ∧
      s' = { s.take hd.length with byteval := x } := by
  have hbyte {b : UInt8} {t : Stream} :
      tryCatch readByte (fun err ↦ throw (headerError s err)) s = (.ok b, t) ↔ readByte s = (.ok b, t) :=
    mapError_eq_ok
  unfold readKind
  rw [bind_ok (get_apply s), bind_eq_ok]
  simp only [hbyte, readByte_eq_ok h]
  constructor
  · rintro ⟨b, t, ⟨hlist, hhead, rfl⟩, hkind⟩
    obtain ⟨rest, hinput⟩ := head?_eq_some_iff.1 hhead
    obtain ⟨x, tl, hheader, hallows, hstarts, rfl⟩ := (kindOfByte_eq_ok (h.take 1) rfl).1 hkind
    have hrest : (s.take 1).input = rest := by simp [take, hinput]
    refine ⟨x, b :: tl, hheader, ?_, ?_, ?_⟩
    · intro l hl
      have h1 := hlist l hl
      have htl := hallows (l - 1) (by
        obtain ⟨r, hr⟩ := head?_eq_some_iff.1 hl
        simp [listLimit, take, hr])
      rw [length_cons]
      omega
    · rw [hinput]
      exact cons_prefix_cons.2 ⟨rfl, hrest ▸ hstarts⟩
    · rw [take_take, length_cons, Nat.add_comm]
  · rintro ⟨x, hd, hheader, hallows, hstarts, rfl⟩
    obtain ⟨b, tl, rfl⟩ := hheader.eq_cons
    obtain ⟨rest, hinput⟩ := hstarts
    rw [length_cons, Nat.add_comm] at hallows
    refine ⟨b, _, ⟨hallows.mono (by omega), by simp [← hinput], rfl⟩, (kindOfByte_eq_ok (h.take 1) rfl).2
      ⟨x, tl, hheader, allows_take hallows, ⟨rest, by simp [take, ← hinput]⟩, ?_⟩⟩
    rw [take_take, length_cons, Nat.add_comm]

/-! ## The value ahead -/

/-- The stream has read the header of the value ahead. -/
def Stream.ahead (s : Stream) (k : Kind) (m : Nat) (x : UInt8) (hd : Bytes) : Stream :=
  { s.take hd.length with byteval := x, kind := some k, size := m, kinderr := none }

theorem checkSize_eq_none {limit : Option Nat} : checkSize limit s m = none ↔
    (∀ l ∈ limit, m ≤ l) ∧ (s.limited = true → m ≤ s.remaining) := by
  unfold checkSize
  cases limit with
  | none => simp
  | some l =>
    by_cases hl : l < m
    · simp [hl]
    · simp [hl, not_lt.1 hl]

/-- `Kind` succeeds exactly where the input starts with the header of a value that it has. -/
theorem getKind_eq_ok (h : s.Ready) : getKind s = (.ok (k, m), s') ↔
    ∃ x hd, Header k m x hd ∧ hd <+: s.input ∧ s.Allows hd.length ∧ s.Allows m ∧
      hd.length + m ≤ s.input.length ∧ s' = s.ahead k m x hd := by
  have hremaining (n : Nat) : (s.take n).remaining = s.input.length - n := by
    simp [take, h.remaining]
  unfold getKind
  simp only [h.kind]
  constructor
  · intro hok
    split at hok
    · cases hok
    · split at hok
      · cases hok
      · rename_i k' m' t hread
        obtain ⟨x, hd, hheader, hallows, hstarts, rfl⟩ := (readKind_eq_ok h.sized).1 hread
        split at hok
        · cases hok
        · rename_i hcheck
          cases hok
          obtain ⟨hlist, hlen⟩ := checkSize_eq_none.1 hcheck
          have hlen := (hlen h.limited).trans (hremaining _).le
          have hle := hstarts.length_le
          exact ⟨x, hd, hheader, hstarts, hallows, hlist, by omega, rfl⟩
  · rintro ⟨x, hd, hheader, hstarts, hallows, hlist, hlen, rfl⟩
    have hend : s.listLimit ≠ some 0 := by
      obtain ⟨b, tl, rfl⟩ := hheader.eq_cons
      exact fun hend ↦ absurd (hallows 0 hend) (by simp)
    have hcheck : checkSize s.listLimit { s.take hd.length with byteval := x } m = none :=
      checkSize_eq_none.2 ⟨hlist, fun _ ↦ (by omega : m ≤ s.input.length - hd.length).trans
        (hremaining _).ge⟩
    rw [if_neg hend, (readKind_eq_ok h.sized).2 ⟨x, hd, hheader, hallows, hstarts, rfl⟩]
    simp only [hcheck]
    rfl

theorem getKind_eol (h : s.Ready) (hend : s.listLimit = some 0) : getKind s = (.error .eol, s) := by
  unfold getKind
  simp only [h.kind, if_pos hend]

theorem getKind_error (h : s.Ready) (hread : getKind s = (.error e, s')) :
    e.Plain ∨ (e = .eol ∧ s.listLimit = some 0 ∧ s' = s) := by
  unfold getKind at hread
  simp only [h.kind] at hread
  split at hread
  · rename_i hend
    cases hread
    exact .inr ⟨rfl, hend, rfl⟩
  · split at hread
    · rename_i hkind
      cases hread
      exact .inl (Meets.readKind.plain hkind)
    · split at hread
      · rename_i hcheck
        cases hread
        unfold checkSize at hcheck
        split_ifs at hcheck <;> cases hcheck <;> exact .inl ⟨by simp, by simp⟩
      · cases hread

end GoEntropy.Rlp
