import GoEntropy.Rlp.Lists
import GoEntropy.Rlp.Strings

/-!
# Splitting encoded RLP values

The functions of `raw.go` that take the first value off a byte string without decoding it. They
check the header of that value only, and leave the content of a list unread.

Each of them is stated on an encoding followed by arbitrary bytes: `split_bytes` and `split_framed`
recover the content and what follows it, and `countValues_flatten` counts the items of a list.
-/

namespace GoEntropy.Rlp.Raw

open List

/-- `readSize`. -/
def readSize (b : Bytes) (slen : Nat) : Except RlpError Nat :=
  if b.length < slen then .error .unexpectedEOF
  else if setBytes (b.take slen) < 56 ∨ b.head? = some 0 then .error .canonSize
  else .ok (setBytes (b.take slen))

/-- The switch of `readKind` on the first byte: the kind, the size of the tag and the size of the
content. -/
def readTag (b : UInt8) (rest : Bytes) : Except RlpError (Kind × Nat × Nat) :=
  if b < 0x80 then .ok (.byte, 0, 1)
  else if b < 0xB8 then
    -- reject strings that should've been single bytes
    if (b - 0x80).toNat = 1 ∧ (∃ x ∈ rest.head?, x < 128) then .error .canonSize
    else .ok (.string, 1, (b - 0x80).toNat)
  else if b < 0xC0 then
    (readSize rest (b - 0xB7).toNat).map fun size ↦ (.string, (b - 0xB7).toNat + 1, size)
  else if b < 0xF8 then .ok (.list, 1, (b - 0xC0).toNat)
  else (readSize rest (b - 0xF7).toNat).map fun size ↦ (.list, (b - 0xF7).toNat + 1, size)

/-- `readKind`. -/
def readKind (buf : Bytes) : Except RlpError (Kind × Nat × Nat) :=
  match buf with
  | [] => .error .unexpectedEOF
  | b :: rest =>
    match readTag b rest with
    | .error e => .error e
    | .ok (k, tagsize, contentsize) =>
      -- reject values larger than the input slice
      if buf.length - tagsize < contentsize then .error .valueTooLarge
      else .ok (k, tagsize, contentsize)

/-- `Split`: the kind and the content of the first value, and what follows it. -/
def split (b : Bytes) : Except RlpError (Kind × Bytes × Bytes) :=
  (readKind b).map fun (k, ts, cs) ↦ (k, (b.drop ts).take cs, b.drop (ts + cs))

/-- `SplitString`. -/
def splitString (b : Bytes) : Except RlpError (Bytes × Bytes) :=
  match split b with
  | .error e => .error e
  | .ok (.list, _, _) => .error .expectedString
  | .ok (_, content, rest) => .ok (content, rest)

/-- `SplitList`. -/
def splitList (b : Bytes) : Except RlpError (Bytes × Bytes) :=
  match split b with
  | .error e => .error e
  | .ok (.list, content, rest) => .ok (content, rest)
  | .ok _ => .error .expectedList

/-- The loop of `CountValues`. A value has at least one byte, so there are no more rounds than
bytes. -/
def countFrom : (rounds : Nat) → (b : Bytes) → (i : Nat) → Except RlpError Nat
  | 0, _, i => .ok i
  | _, [], i => .ok i
  | rounds + 1, b, i =>
    match readKind b with
    | .error e => .error e
    | .ok (_, tagsize, size) => countFrom rounds (b.drop (tagsize + size)) (i + 1)

/-- `CountValues`. -/
def countValues (b : Bytes) : Except RlpError Nat := countFrom b.length b 0

/-! ## Reading headers -/

variable {b c rest content : Bytes} {n : Nat}

theorem readSize_minBytes (hn : 56 ≤ n) (rest : Bytes) :
    readSize (minBytes n ++ rest) (minBytes n).length = .ok n := by
  have hhead : (minBytes n ++ rest).head? ≠ some 0 := by
    have hne : minBytes n ≠ [] := by
      intro hnil
      have := setBytes_minBytes n
      rw [hnil] at this
      have hzero : n = 0 := this.symm
      omega
    rw [head?_append_of_ne_nil _ hne]
    exact head_minBytes n
  rw [readSize, if_neg (by simp), take_left, setBytes_minBytes, if_neg]
  rintro (hlt | hzero)
  · omega
  · exact hhead hzero

theorem readTag_string (hn : n < 2 ^ 64) {x : UInt8} {tl rest : Bytes}
    (h : puthead 0x80 0xB7 n = x :: tl) (hlong : n = 1 → ∀ y ∈ rest.head?, ¬ y < 128) :
    readTag x (tl ++ rest) = .ok (.string, (x :: tl).length, n) := by
  obtain ⟨hshort, hx, rfl⟩ | ⟨hlarge, hx, rfl⟩ :=
    puthead_cases h hn (by decide) (by decide)
  · have hvalid : ¬ (n = 1 ∧ ∃ y ∈ rest.head?, y < 128) := fun ⟨hone, y, hy, hlt⟩ ↦ hlong hone y hy hlt
    rw [readTag, (tag_distance hx).2, nil_append, if_neg hvalid]
    simp only [UInt8.lt_iff_toNat_lt, UInt8.reduceToNat] at hx ⊢
    split_ifs
    all_goals first | omega | rfl
  · have hlen := length_minBytes_size hlarge hn
    rw [readTag, (tag_distance hx).2, readSize_minBytes hlarge]
    simp only [UInt8.lt_iff_toNat_lt, UInt8.reduceToNat] at hx ⊢
    split_ifs
    all_goals first | omega | rfl

theorem readTag_list (hn : n < 2 ^ 64) {x : UInt8} {tl : Bytes} (h : puthead 0xC0 0xF7 n = x :: tl)
    (rest : Bytes) : readTag x (tl ++ rest) = .ok (.list, (x :: tl).length, n) := by
  obtain ⟨hshort, hx, rfl⟩ | ⟨hlarge, hx, rfl⟩ :=
    puthead_cases h hn (by decide) (by decide)
  · rw [readTag, (tag_distance hx).2]
    simp only [UInt8.lt_iff_toNat_lt, UInt8.reduceToNat] at hx ⊢
    split_ifs
    all_goals first | omega | rfl
  · have hlen := length_minBytes_size hlarge hn
    rw [readTag, (tag_distance hx).2, readSize_minBytes hlarge]
    simp only [UInt8.lt_iff_toNat_lt, UInt8.reduceToNat] at hx ⊢
    split_ifs
    all_goals first | omega | rfl

theorem readKind_string (hb : overlong b = false) (hn : b.length < 2 ^ 64) (rest : Bytes) :
    readKind (puthead 0x80 0xB7 b.length ++ b ++ rest) =
      .ok (.string, (puthead 0x80 0xB7 b.length).length, b.length) := by
  obtain ⟨x, tl, h⟩ := puthead_eq_cons 0x80 0xB7 b.length
  have hlong : b.length = 1 → ∀ y ∈ (b ++ rest).head?, ¬ y < 128 := by
    intro hone y hy hlt
    match b, hone with
    | [z], _ =>
      simp only [cons_append, head?_cons, Option.mem_some_iff] at hy
      subst hy
      rw [overlong_iff.2 ⟨z, hlt, rfl⟩] at hb
      cases hb
  rw [append_assoc, h, cons_append, readKind, readTag_string hn h hlong]
  simp only [length_cons, length_append]
  rw [if_neg (by omega)]

theorem readKind_byte {x : UInt8} (hx : x < 0x80) (rest : Bytes) :
    readKind ([x] ++ rest) = .ok (.byte, 0, 1) := by
  have htag : readTag x rest = .ok (.byte, 0, 1) := by rw [readTag, if_pos hx]
  rw [singleton_append, readKind, htag]
  simp only [length_cons]
  rw [if_neg (by omega)]

theorem readKind_framed (hn : content.length < 2 ^ 64) (rest : Bytes) :
    readKind (framed content ++ rest) = .ok (.list, (listHeader content.length).length, content.length) := by
  obtain ⟨x, tl, h⟩ := puthead_eq_cons 0xC0 0xF7 content.length
  have htag := readTag_list hn h (content ++ rest)
  rw [framed, listHeader, append_assoc, h, cons_append, readKind, htag]
  simp only [length_cons, length_append]
  rw [if_neg (by omega)]

/-! ## Splitting -/

theorem split_bytes (hn : b.length < 2 ^ 64) (rest : Bytes) :
    split (bytes b ++ rest) = .ok (if overlong b then .byte else .string, b, rest) := by
  rw [bytes_eq]
  split
  · next hlong =>
    obtain ⟨x, hx, rfl⟩ := overlong_iff.1 hlong
    rw [split, readKind_byte hx]
    rfl
  · next hlong =>
    rw [split, readKind_string (by simpa using hlong) hn]
    simp only [Except.map]
    rw [append_assoc, drop_left, take_left, ← append_assoc, ← length_append,
      drop_left]

theorem split_framed (hn : content.length < 2 ^ 64) (rest : Bytes) :
    split (framed content ++ rest) = .ok (.list, content, rest) := by
  rw [split, readKind_framed hn]
  simp only [Except.map, framed]
  rw [append_assoc, drop_left, take_left, ← append_assoc, ← length_append,
    drop_left]

theorem splitString_bytes (hn : b.length < 2 ^ 64) (rest : Bytes) :
    splitString (bytes b ++ rest) = .ok (b, rest) := by
  rw [splitString, split_bytes hn]
  by_cases hlong : overlong b = true <;> simp [hlong]

theorem splitList_framed (hn : content.length < 2 ^ 64) (rest : Bytes) :
    splitList (framed content ++ rest) = .ok (content, rest) := by
  rw [splitList, split_framed hn]

/-! ## Counting -/

/-- An encoded value, whatever follows it. -/
def IsItem (b : Bytes) : Prop :=
  b ≠ [] ∧ ∀ rest, ∃ k ts cs, readKind (b ++ rest) = .ok (k, ts, cs) ∧ ts + cs = b.length

theorem isItem_bytes (hn : b.length < 2 ^ 64) : IsItem (bytes b) := by
  rw [bytes_eq]
  split
  · next hlong =>
    obtain ⟨x, hx, rfl⟩ := overlong_iff.1 hlong
    exact ⟨by simp, fun rest ↦ ⟨_, _, _, readKind_byte hx rest, rfl⟩⟩
  · next hlong =>
    refine ⟨?_, fun rest ↦ ⟨_, _, _, readKind_string (by simpa using hlong) hn rest,
      (length_append).symm⟩⟩
    obtain ⟨x, tl, h⟩ := puthead_eq_cons 0x80 0xB7 b.length
    simp [h]

theorem isItem_framed (hn : content.length < 2 ^ 64) : IsItem (framed content) := by
  refine ⟨?_, fun rest ↦ ⟨_, _, _, readKind_framed hn rest, (length_framed content).symm⟩⟩
  obtain ⟨x, tl, h⟩ := puthead_eq_cons 0xC0 0xF7 content.length
  simp [framed, h]

theorem countFrom_append (hc : IsItem c) (rounds i : Nat) :
    countFrom (rounds + 1) (c ++ rest) i = countFrom rounds rest (i + 1) := by
  obtain ⟨hne, hread⟩ := hc
  obtain ⟨k, ts, cs, hread, hlen⟩ := hread rest
  obtain ⟨x, c, rfl⟩ := exists_cons_of_ne_nil hne
  rw [countFrom, hread]
  · simp [hlen]
  · exact nofun

theorem countFrom_flatten {items : List Bytes} (h : ∀ b ∈ items, IsItem b) {rounds : Nat}
    (hrounds : items.length ≤ rounds) (i : Nat) :
    countFrom rounds items.flatten i = .ok (i + items.length) := by
  induction items generalizing rounds i with
  | nil => cases rounds <;> rfl
  | cons b items ih =>
    obtain ⟨rounds, rfl⟩ : ∃ r, rounds = r + 1 := ⟨rounds - 1, by simp at hrounds; omega⟩
    rw [flatten_cons, countFrom_append (h b mem_cons_self),
      ih (fun c hc ↦ h c (mem_cons_of_mem _ hc)) (by simpa using hrounds)]
    rw [length_cons]
    congr 1
    omega

theorem countValues_flatten {items : List Bytes} (h : ∀ b ∈ items, IsItem b) :
    countValues items.flatten = .ok items.length := by
  have hle : items.length ≤ items.flatten.length := by
    induction items with
    | nil => simp
    | cons b items ih =>
      have hpos := length_pos_of_ne_nil (h b mem_cons_self).1
      have := ih fun c hc ↦ h c (mem_cons_of_mem _ hc)
      simp only [length_cons, flatten_cons, length_append]
      omega
  rw [countValues, countFrom_flatten h hle, Nat.zero_add]

end GoEntropy.Rlp.Raw
