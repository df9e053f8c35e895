import GoEntropy.Rlp.Encode
import GoEntropy.Rlp.Strings

/-!
# The limits of the lists of a stream

`Kind` compares the size of an element with what the enclosing list had left before the header of the
element was read. A size between this and what is left after the header passes: such a list is entered,
and the limit of the enclosing one wraps around.

What `Kind` has found is kept until the element is taken, over any number of other calls. So the
invariant is about what is kept (`Stream.Honest`): an element that does not fit is kept with the error,
or is a string, which no call takes then.
-/

namespace GoEntropy.Rlp

/-! ## Calls -/

/-- `NewStream`, with the limit that is given or that the reader has. -/
def newStream (input : Bytes) (inputLimit : Option Nat) : Stream where
  input
  remaining := inputLimit.getD 0
  limited := inputLimit.isSome
  stack := []
  kind := none
  size := 0
  kinderr := none
  byteval := 0

/-- `ReadBytes`, for a buffer of the given length. A wrong size is returned with the wanted one. -/
def readBytes (len : Nat) : Decoder (Except (Nat × Nat) Bytes) := do
  let (kind, size) ← getKind
  let size := if kind = .byte then 1 else size
  if kind ≠ .list ∧ len ≠ size then return .error (size, len)
  else
    let b ← stringAhead (kind, size)
    return .ok b

/-- `Raw`. The header is written anew. -/
def getRaw : Decoder Bytes := do
  let (kind, size) ← getKind
  if kind = .byte then
    let b ← takeByte
    return [b]
  else
    let b ← readFull size
    return (if kind = .string then putheader 0x80 0xB7 size else putheader 0xC0 0xF7 size) ++ b

/-- The calls that change a stream. The decoders make no others, but that they skip an empty value for
a nil pointer. -/
inductive Call where
  | kind
  | bytes
  | readBytes (len : Nat)
  | raw
  | uint (maxbits : Nat)
  | bool
  | bigInt
  | skip
  | list
  | listEnd
  | reset (input : Bytes) (inputLimit : Option Nat)

/-- The stream after a call, whether it returned an error or not. -/
def Call.run (s : Stream) : Call → Stream
  | kind => (getKind s).2
  | bytes => (getBytes s).2
  | readBytes len => (Rlp.readBytes len s).2
  | raw => (getRaw s).2
  | uint maxbits => (getUint maxbits s).2
  | bool => (getBool s).2
  | bigInt => (getBigInt s).2
  | skip => (rearm s).2
  | list => (openList s).2
  | listEnd => (Rlp.listEnd s).2
  | reset input inputLimit => newStream input inputLimit

/-! ## Limits -/

/-- An element that does not fit is kept with the error, or is a string that is kept without one. -/
def Fine (limit : Option Nat) (k : Kind) (n : Nat) (err : Option RlpError) : Prop :=
  ∀ l ∈ limit, l < n →
    (k = .list → err = some .elemTooLarge) ∧ (k = .string → ∀ e ∈ err, e = .elemTooLarge)

namespace Stream

variable (s : Stream)

/-- A list that is entered inside another one is not longer than what the other one has left, so the
subtraction does not wrap around. An element that is longer is reported as such when it is taken. -/
structure InLimits : Prop where
  list : ∀ n t, openList s = (.ok n, t) → ∀ l ∈ (getKind s).2.listLimit, n ≤ l
  reported : ∀ l ∈ (getKind s).2.listLimit, l < (getKind s).2.size →
    ((getKind s).2.kind = some .list → (openList s).1 = .error .elemTooLarge) ∧
    ((getKind s).2.kind = some .string → (getBytes s).1 = .error .elemTooLarge)

/-- The header that is read next, if one is, does not announce a list with a size between what the
enclosing list has left after the header and what it had before, nor such a string for which the input is
too short. -/
def Clear : Prop := s.kind = none → ∀ k n t, readKind s = (.ok (k, n), t) →
  (∀ l ∈ s.listLimit, n ≤ l) → ∀ l ∈ t.listLimit, l < n →
    k ≠ .list ∧ (k = .string → t.limited = true → n ≤ t.remaining)

/-- What `Kind` returns and keeps of an element. -/
def found (k : Kind) (n : Nat) (err : Option RlpError) : Except RlpError (Kind × Nat) × Stream :=
  (err.elim (.ok (k, n)) .error, { s with kind := some k, size := n, kinderr := err })

end Stream

variable {s t : Stream} {k : Kind} {n : Nat} {err : Option RlpError}

theorem getKind_read (hkind : s.kind = none) (hend : s.listLimit ≠ some 0)
    (hread : readKind s = (.ok (k, n), t)) : getKind s = t.found k n (checkSize s.listLimit t n) := by
  unfold getKind
  rw [hkind]
  refine (if_neg hend).trans ?_
  rw [hread]
  dsimp only [Stream.found]
  cases checkSize s.listLimit t n <;> rfl

/-- The sizes that pass the check against the limit from before the header. -/
theorem checkSize_eq (limit : Option Nat) : checkSize limit s n =
    if (∀ l ∈ limit, n ≤ l) then if s.limited ∧ n > s.remaining then some .valueTooLarge else none
    else some .elemTooLarge := by
  unfold checkSize
  cases limit with
  | none => simp
  | some l => by_cases h : n ≤ l <;> simp [h]

theorem openList_found (h : getKind s = t.found k n err) :
    (openList s).1 = err.elim (if k = .list then .ok n else .error .expectedList) .error := by
  unfold openList
  cases err with
  | none =>
    rw [Decoder.bind_ok h]
    cases k <;> rfl
  | some e => rw [Decoder.bind_error h]; rfl

theorem getBytes_found {l : Nat} (h : getKind s = t.found .string n err) (hl : l ∈ t.listLimit)
    (hlt : l < n) : (getBytes s).1 = .error (err.getD .elemTooLarge) := by
  unfold getBytes
  cases err with
  | none =>
    rw [Decoder.bind_ok h]
    have hlimit : t.stack.head? = some l := hl
    simp [stringAhead, readString, readFull, willRead, takeFromList, bind, Stream.listLimit, hlimit, hlt]
  | some e => rw [Decoder.bind_error h]; rfl

theorem inLimits_found (h : getKind s = t.found k n err) :
    s.InLimits ↔ Fine t.listLimit k n err := by
  have hlist := openList_found h
  have hopen : k = .list → ((openList s).1 = .error .elemTooLarge ↔ err = some .elemTooLarge) := by
    rintro rfl
    rw [hlist]
    cases err <;> simp
  have hbytes : ∀ l ∈ t.listLimit, l < n → k = .string →
      ((getBytes s).1 = .error .elemTooLarge ↔ ∀ e ∈ err, e = .elemTooLarge) := by
    rintro l hl hlt rfl
    rw [getBytes_found h hl hlt]
    cases err <;> simp
  constructor
  · rintro ⟨-, hrep⟩ l hl hlt
    rw [h] at hrep
    exact (hrep l hl hlt).imp (fun hrep hk ↦ (hopen hk).1 (hrep (congrArg some hk)))
      fun hrep hk ↦ (hbytes l hl hlt hk).1 (hrep (congrArg some hk))
  · refine fun hfine ↦ ⟨fun m u hok l hl ↦ ?_, fun l hl hlt ↦ ?_⟩
    · rw [h] at hl
      rw [hok] at hlist
      by_contra hlt
      cases err with
      | some e => cases hlist
      | none =>
        cases k with
        | byte | string => cases hlist
        | list =>
          cases hlist
          cases (hfine l hl (not_le.1 hlt)).1 rfl
    · rw [h] at hl hlt ⊢
      exact (hfine l hl hlt).imp
        (fun hrep hk ↦ (hopen (Option.some.inj hk)).2 (hrep (Option.some.inj hk)))
        fun hrep hk ↦ (hbytes l hl hlt (Option.some.inj hk)).2 (hrep (Option.some.inj hk))

theorem Stream.InLimits.clear (h : s.InLimits) : s.Clear := by
  intro hkind k n t hread hfits l hl hlt
  have hend : s.listLimit ≠ some 0 := fun h0 ↦
    absurd (hfits 0 h0) (not_le.2 (Nat.zero_lt_of_lt hlt))
  have hget := getKind_read hkind hend hread
  rw [checkSize_eq, if_pos hfits] at hget
  obtain ⟨hlist, hstring⟩ := (inLimits_found hget).1 h l hl hlt
  refine ⟨fun hk ↦ ?_, fun hk hlimited ↦ not_lt.1 fun hlong ↦ ?_⟩
  · have := hlist hk
    split_ifs at this
    cases this
  · rw [if_pos ⟨hlimited, hlong⟩] at hstring
    cases hstring hk _ rfl

/-! ## Runs -/

end GoEntropy.Rlp
