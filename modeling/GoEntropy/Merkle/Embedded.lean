import GoEntropy.Container.Results
import GoEntropy.Merkle.Node

/-!
# The size of embedded nodes

A node whose encoding is shorter than a hash stands in its parent itself. `decodeRef` admits one more byte: an
embedded node of 32 bytes is decoded, and one of more is refused, at any depth (`Embedded.le_of_decoded`).
-/

namespace GoEntropy.Merkle

open Container (mapError_eq_ok)
open Rlp.Raw (split splitString splitList countValues)

/-- The input behind some values. -/
def skipValues : Nat → Bytes → Option Bytes
  | 0, b => some b
  | n + 1, b =>
    match split b with
    | .error _ => none
    | .ok (_, _, rest) => skipValues n rest

/-- The input at a reference to a child: behind the key of a short node that has no terminator, and at one of the
first sixteen items of a full node. -/
inductive Reference (buf : Bytes) : Bytes → Prop
  | short {elems rest kbuf ref : Bytes} (hlist : splitList buf = .ok (elems, rest)) (hcount : countValues elems = .ok 2)
      (hkey : splitString elems = .ok (kbuf, ref)) (hterm : hasTerm (compactToHex kbuf) = false) : Reference buf ref
  | full {elems rest ref : Bytes} {i : Nat} (hlist : splitList buf = .ok (elems, rest))
      (hcount : countValues elems = .ok 17) (hi : i < 16) (hskip : skipValues i elems = some ref) : Reference buf ref

/-- The sizes of the embedded nodes of a blob, at any depth. -/
inductive Embedded : (buf : Bytes) → (size : Nat) → Prop
  | child {buf ref content rest : Bytes} (href : Reference buf ref) (hlist : split ref = .ok (.list, content, rest)) :
      Embedded buf (ref.length - rest.length)
  | inner {buf ref content rest : Bytes} {size : Nat} (href : Reference buf ref)
      (hlist : split ref = .ok (.list, content, rest)) (hsize : Embedded ref size) : Embedded buf size

variable {decode : Option Hash → Bytes → Except DecodeError Node} {buf ref rest elems : Bytes} {n : Node}
  {hash : Option Hash}

theorem decodeRef_ok (h : decodeRef decode buf = .ok (n, rest)) : ∃ k content, split buf = .ok (k, content, rest) ∧
    (k = .list → buf.length - rest.length ≤ 32 ∧ decode none buf = .ok n) := by
  unfold decodeRef at h
  split at h
  · cases h
  · next hsplit =>
    split at h
    · cases h
    next hsize =>
    cases hn : decode none buf with
    | error e =>
      rw [hn] at h
      cases h
    | ok n' =>
      rw [hn] at h
      cases h
      exact ⟨_, _, hsplit, fun _ ↦ ⟨Nat.not_lt.1 hsize, rfl⟩⟩
  · next hsplit =>
    split_ifs at h <;> cases h <;> exact ⟨_, _, hsplit, nofun⟩
  · cases h

theorem decodeRefs_ok {count i j : Nat} {out : List Node × Bytes} (h : decodeRefs decode count i elems = .ok out)
    (hj : j < count) (hskip : skipValues j elems = some ref) : ∃ r, decodeRef decode ref = .ok r := by
  induction count generalizing i j elems out with
  | zero => omega
  | succ count ih =>
    rw [decodeRefs] at h
    split at h
    · cases h
    next cld next hfirst =>
    have hfirst := mapError_eq_ok.1 hfirst
    split at h
    · cases h
    next hrest =>
    cases j with
    | zero =>
      cases hskip
      exact ⟨_, hfirst⟩
    | succ j =>
      obtain ⟨k, content, hsplit, -⟩ := decodeRef_ok hfirst
      rw [skipValues, hsplit] at hskip
      exact ih hrest (Nat.lt_of_succ_lt_succ hj) hskip

theorem Reference.decoded {fuel : Nat} (h : decodeNodeFrom fuel hash buf = .ok n) (href : Reference buf ref) :
    ∃ fuel r, decodeRef (decodeNodeFrom fuel) ref = .ok r := by
  cases fuel with
  | zero => cases h
  | succ fuel =>
    rw [decodeNodeFrom] at h
    split at h
    · cases h
    refine ⟨fuel, ?_⟩
    cases href with
    | short hlist hcount hkey hterm =>
      simp only [hlist, hcount] at h
      have h := mapError_eq_ok.1 h
      rw [decodeShort, splitStringOr, hkey] at h
      simp only [Except.mapError, hterm, Bool.false_eq_true, if_false] at h
      split at h
      · cases h
      · next hval => exact ⟨_, mapError_eq_ok.1 hval⟩
    | full hlist hcount hi hskip =>
      simp only [hlist, hcount] at h
      have h := mapError_eq_ok.1 h
      rw [decodeFull] at h
      split at h
      · cases h
      · next hrefs => exact decodeRefs_ok hrefs hi hskip

theorem Embedded.le_of_decoded {size fuel : Nat} (h : decodeNodeFrom fuel hash buf = .ok n)
    (hsize : Embedded buf size) : size ≤ 32 := by
  induction hsize generalizing fuel hash n with
  | child href hlist =>
    obtain ⟨fuel, ⟨c, rest⟩, hr⟩ := href.decoded h
    obtain ⟨k, content, hsplit, hle⟩ := decodeRef_ok hr
    cases hlist.symm.trans hsplit
    exact (hle rfl).1
  | inner href hlist _ ih =>
    obtain ⟨fuel, ⟨c, rest⟩, hr⟩ := href.decoded h
    obtain ⟨k, content, hsplit, hle⟩ := decodeRef_ok hr
    cases hlist.symm.trans hsplit
    exact ih (hle rfl).2

/-- **Embedded nodes.** The embedded nodes of a blob that is accepted are smaller than a hash, unless one of them is
as large as a hash. -/
theorem embedded_smaller_iff (hash : Option Hash) (blob : Bytes) (n : Node) (h : decodeNode hash blob = .ok n) :
    (∀ size, Embedded blob size → size < 32) ↔ ¬ Embedded blob 32 := by
  constructor
  · exact fun hsmall hlarge ↦ Nat.lt_irrefl _ (hsmall 32 hlarge)
  · intro hnone size hsize
    refine Nat.lt_of_le_of_ne (hsize.le_of_decoded h) ?_
    rintro rfl
    exact hnone hsize

/-- An extension with an embedded leaf of three bytes. -/
theorem embedded_smaller_iff_leaf : Embedded [0xC4, 0x11, 0xC2, 0x20, 0x05] 3 ∧
    ∀ size, Embedded [0xC4, 0x11, 0xC2, 0x20, 0x05] size → size < 32 := by
  have href : Reference [0xC4, 0x11, 0xC2, 0x20, 0x05] [0xC2, 0x20, 0x05] := .short rfl rfl rfl rfl
  refine ⟨.child href rfl, (embedded_smaller_iff none _ _ rfl).2 fun h ↦ ?_⟩
  have hchild : ∀ {ref}, Reference [0xC4, 0x11, 0xC2, 0x20, 0x05] ref → ref = [0xC2, 0x20, 0x05] := by
    rintro ref (⟨hlist, -, hkey, -⟩ | ⟨hlist, hcount, -, -⟩) <;> cases hlist
    · cases hkey
      rfl
    · cases hcount
  have hleaf : ∀ {ref}, ¬ Reference [0xC2, 0x20, 0x05] ref := by
    rintro ref (⟨hlist, -, hkey, hterm⟩ | ⟨hlist, hcount, -, -⟩) <;> cases hlist
    · cases hkey
      cases hterm
    · cases hcount
  generalize hsize : 32 = size at h
  cases h with
  | child href hlist =>
    obtain rfl := hchild href
    cases hlist
    cases hsize
  | inner href _ hinner =>
    obtain rfl := hchild href
    cases hinner <;> exact hleaf ‹_›

/-- A leaf of 32 bytes is embedded, and accepted. -/
theorem embedded_of_hash_size : ∃ blob n, decodeNode none blob = .ok n ∧ Embedded blob 32 := by
  have href : Reference ([0xE1, 0x11, 0xDF, 0x20, 0x9D] ++ List.replicate 29 1)
    ([0xDF, 0x20, 0x9D] ++ List.replicate 29 1) := .short rfl rfl rfl rfl
  exact ⟨_, _, rfl, .child href rfl⟩

end GoEntropy.Merkle
