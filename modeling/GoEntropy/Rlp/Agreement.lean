import GoEntropy.Container.Results
import GoEntropy.Rlp.Canonical
import GoEntropy.Rlp.Raw

/-!
# The two parsers agree

The functions of `raw.go` parse byte slices and the stream parses an input it reads. Both check that
headers are canonical, each in its own way, and they are compared here through the encoder: what the
functions on slices take off is an encoding (`split_sound`), so a walk with them accepts the encodings of
generic values (`walkItem_eq_ok_iff`), and these are the inputs that the stream decodes.
-/

namespace GoEntropy.Rlp.Raw

open GoEntropy.Container Generic List

/-- The switch of `SplitUint64` on the content of the string. -/
def contentUint : Bytes → Except RlpError UInt64
  | [] => .ok 0
  | [x] => if x = 0 then .error .canonInt else .ok x.toUInt64
  | content =>
    if 8 < content.length then .error .uintOverflow
    else
      match readSize content content.length with
      | .error _ => .error .canonInt
      | .ok x => .ok (UInt64.ofNat x)

/-- `SplitUint64`. -/
def splitUint64 (b : Bytes) : Except RlpError (UInt64 × Bytes) := do
  let (content, rest) ← splitString b
  let x ← contentUint content
  return (x, rest)

/-- Take so many values off. -/
def walkItems (item : Bytes → Except RlpError (Generic × Bytes)) :
    (count : Nat) → Bytes → Except RlpError (List Generic)
  | 0, _ => .ok []
  | count + 1, b => do
    let (v, rest) ← item b
    let vs ← walkItems item count rest
    return v :: vs

/-- Take the first value off and walk through its content, with a bound on the depth of the lists. -/
def walkItem : (depth : Nat) → Bytes → Except RlpError (Generic × Bytes)
  | 0, _ => .error .outOfFuel
  | depth + 1, b => do
    match ← split b with
    | (.list, _, _) =>
      let (content, rest) ← splitList b
      let count ← countValues content
      let vs ← walkItems (walkItem depth) count content
      return (.list vs, rest)
    | _ =>
      let (content, rest) ← splitString b
      return (.bytes content, rest)

/-- The recursive walk through a byte slice, which is to hold one value and nothing else. Every list takes
at least one byte. -/
def walk (b : Bytes) : Except RlpError Generic := do
  let (v, rest) ← walkItem (b.length + 1) b
  if rest ≠ [] then throw .moreThanOneValue else return v

variable {b c rest content : Bytes} {n : Nat}

/-! ## What is taken off is an encoding -/

/-- The size in a long header is the shortest form of a number that is not small. -/
theorem readSize_sound {slen : Nat} (hpos : 0 < slen) (h : readSize b slen = .ok n) :
    56 ≤ n ∧ (minBytes n).length = slen ∧ minBytes n <+: b := by
  rw [readSize] at h
  split at h
  · cases h
  next hlen =>
  split at h
  · cases h
  next hcanon =>
  obtain rfl := Except.ok.inj h
  rw [not_or] at hcanon
  have hhead : (b.take slen).head? ≠ some 0 := by
    rw [head?_take, if_neg (by omega)]
    exact hcanon.2
  rw [minBytes_setBytes hhead]
  exact ⟨by omega, length_take_of_le (by omega), take_prefix slen b⟩

theorem readTag_long {small large x : UInt8} {kind k : Kind} {ts cs : Nat} (hlow : large < x)
    (hhigh : x.toNat ≤ large.toNat + 8)
    (h : (readSize rest (x - large).toNat).map (fun size ↦ (kind, (x - large).toNat + 1, size)) =
      .ok (k, ts, cs)) :
    k = kind ∧ 56 ≤ cs ∧ cs < 2 ^ 64 ∧ ts = (puthead small large cs).length ∧
      puthead small large cs <+: x :: rest := by
  have hlt := UInt8.lt_iff_toNat_lt.1 hlow
  have hle : large ≤ x := UInt8.le_iff_toNat_le.2 hlt.le
  have hsub := (tag_sub hle).2
  obtain ⟨size, hsize, heq⟩ := Container.map_eq_ok.1 h
  cases heq
  obtain ⟨hlarge, hlen, hstarts⟩ := readSize_sound (by omega) hsize
  rw [puthead_long hlarge hle hlen, length_cons, hlen]
  exact ⟨rfl, hlarge, lt_of_length_minBytes (by omega), rfl, cons_prefix_cons.2 ⟨rfl, hstarts⟩⟩

/-- The tags that are accepted: a byte that is its own encoding, or a canonical header. -/
theorem readTag_sound {x : UInt8} {k : Kind} {ts cs : Nat} (h : readTag x rest = .ok (k, ts, cs)) :
    (k = .byte ∧ x < 0x80 ∧ ts = 0 ∧ cs = 1) ∨
    (k = .string ∧ cs < 2 ^ 64 ∧ ts = (puthead 0x80 0xB7 cs).length ∧ puthead 0x80 0xB7 cs <+: x :: rest ∧
      (cs = 1 → ∀ y ∈ rest.head?, ¬ y < 128)) ∨
    (k = .list ∧ cs < 2 ^ 64 ∧ ts = (puthead 0xC0 0xF7 cs).length ∧ puthead 0xC0 0xF7 cs <+: x :: rest) := by
  have hx := x.toNat_lt
  rw [readTag] at h
  simp only [UInt8.lt_iff_toNat_lt, UInt8.reduceToNat] at h ⊢
  split_ifs at h with h80 hB8 hone hC0 hF8
  · cases h
    exact .inl ⟨rfl, h80, rfl, rfl⟩
  · cases h
    have hput : puthead 0x80 0xB7 (x - 0x80).toNat = [x] :=
      puthead_short (UInt8.le_iff_toNat_le.2 (by simpa using h80)) (by simpa using hB8)
    refine .inr (.inl ⟨rfl, (UInt8.toNat_lt _).trans (by decide), by rw [hput]; rfl, ?_, ?_⟩)
    · rw [hput]
      exact cons_prefix_cons.2 ⟨rfl, nil_prefix⟩
    · exact fun h1 y hy hlt ↦ hone ⟨h1, y, hy, hlt⟩
  · obtain ⟨rfl, hlarge, hfits, hts, hstarts⟩ := @readTag_long rest 0x80 0xB7 x _ _ _ _
      (UInt8.lt_iff_toNat_lt.2 (by simp; omega)) (by simp; omega) h
    exact .inr (.inl ⟨rfl, hfits, hts, hstarts, by omega⟩)
  · cases h
    have hput : puthead 0xC0 0xF7 (x - 0xC0).toNat = [x] :=
      puthead_short (UInt8.le_iff_toNat_le.2 (by simpa using hC0)) (by simpa using hF8)
    refine .inr (.inr ⟨rfl, (UInt8.toNat_lt _).trans (by decide), by rw [hput]; rfl, ?_⟩)
    rw [hput]
    exact cons_prefix_cons.2 ⟨rfl, nil_prefix⟩
  · obtain ⟨rfl, hlarge, hfits, hts, hstarts⟩ := @readTag_long rest 0xC0 0xF7 x _ _ _ _
      (UInt8.lt_iff_toNat_lt.2 (by simp; omega)) (by simp; omega) h
    exact .inr (.inr ⟨rfl, hfits, hts, hstarts⟩)

theorem append_of_header {hd : Bytes} {cs : Nat} (hstarts : hd <+: b) (hlen : cs ≤ b.length - hd.length) :
    b = hd ++ (b.drop hd.length).take cs ++ b.drop (hd.length + cs) ∧
      ((b.drop hd.length).take cs).length = cs := by
  obtain ⟨t, rfl⟩ := hstarts
  rw [length_append] at hlen
  rw [drop_left, drop_append, length_take_of_le (by omega), append_assoc,
    drop_eq_nil_of_le (by omega), nil_append, Nat.add_sub_cancel_left, take_append_drop]
  exact ⟨rfl, rfl⟩

theorem split_sound {k : Kind} (h : split b = .ok (k, content, rest)) :
    (k ≠ .list ∧ b = bytes content ++ rest) ∨ (k = .list ∧ b = framed content ++ rest) := by
  cases b with
  | nil => cases h
  | cons x r =>
    obtain ⟨⟨k', ts, cs⟩, hread, heq⟩ := Container.map_eq_ok.1 h
    cases heq
    rw [readKind] at hread
    split at hread
    · cases hread
    next htag =>
    split at hread
    · cases hread
    next hlen =>
    cases hread
    obtain ⟨rfl, hx, rfl, rfl⟩ | ⟨rfl, hcs, rfl, hstarts, hlong⟩ | ⟨rfl, hcs, rfl, hstarts⟩ :=
      readTag_sound htag
    · have hbyte : bytes [x] = [x] := by
        rw [bytes_eq, if_pos (overlong_iff.2 ⟨x, hx, rfl⟩)]
      refine .inl ⟨by decide, ?_⟩
      rw [drop_zero, take_succ_cons, take_zero, hbyte]
      rfl
    · obtain ⟨happend, hcontent⟩ := append_of_header hstarts (Nat.not_lt.1 hlen)
      refine .inl ⟨by decide, happend.trans ?_⟩
      congr 1
      generalize ((x :: r).drop (puthead 0x80 0xB7 cs).length).take cs = content at happend hcontent ⊢
      rw [← hcontent]
      refine (bytes_eq_puthead.2 ⟨rfl, Bool.eq_false_iff.2 fun hover ↦ ?_⟩).symm
      -- a byte after a header of one byte
      obtain ⟨y, hy, rfl⟩ := overlong_iff.1 hover
      obtain rfl : 1 = cs := hcontent
      refine hlong rfl y ?_ hy
      obtain ⟨-, hr⟩ := cons.inj (happend.trans (append_assoc ..))
      rw [hr]
      rfl
    · obtain ⟨happend, hcontent⟩ := append_of_header hstarts (Nat.not_lt.1 hlen)
      refine .inr ⟨rfl, happend.trans ?_⟩
      rw [framed, hcontent]

theorem splitString_eq_ok_iff (hb : b.length < 2 ^ 64) :
    splitString b = .ok (content, rest) ↔ b = bytes content ++ rest := by
  constructor
  · intro h
    rw [splitString] at h
    split at h
    · cases h
    · cases h
    · next k c r hne hsplit =>
      cases h
      obtain ⟨-, hb⟩ | ⟨rfl, -⟩ := split_sound hsplit
      · exact hb
      · exact (hne rfl).elim
  · rintro rfl
    have hle := le_length_bytes content
    rw [length_append] at hb
    exact splitString_bytes (by omega) rest

theorem splitList_eq_ok_iff (hb : b.length < 2 ^ 64) :
    splitList b = .ok (content, rest) ↔ b = framed content ++ rest := by
  constructor
  · intro h
    rw [splitList] at h
    split at h
    · cases h
    · next c r hsplit =>
      cases h
      obtain ⟨hne, -⟩ | ⟨-, hb⟩ := split_sound hsplit
      · exact absurd rfl hne
      · exact hb
    · cases h
  · rintro rfl
    rw [length_append, length_framed] at hb
    exact splitList_framed (by omega) rest

/-! ## The walk -/

theorem encode_pos (v : Generic) : 0 < v.encode.length := (codec_decodeInterfaceTo 0).pos v

variable {v : Generic}

theorem isItem_encode (hv : v.encode.length < 2 ^ 64) : IsItem v.encode := by
  cases v with
  | bytes b =>
    have hle := le_length_bytes b
    exact isItem_bytes (by rw [encode] at hv; omega)
  | list vs =>
    rw [encode_list] at hv ⊢
    rw [length_framed] at hv
    exact isItem_framed (by omega)

theorem countFrom_succ (h : b ≠ []) (rounds i : Nat) : countFrom (rounds + 1) b i =
    readKind b >>= fun (_, ts, cs) ↦ countFrom rounds (b.drop (ts + cs)) (i + 1) := by
  rw [countFrom]
  · cases readKind b <;> rfl
  · exact h

theorem le_of_countFrom {rounds i m : Nat} (h : countFrom rounds b i = .ok m) : i ≤ m := by
  induction rounds generalizing b i with
  | zero => exact (Except.ok.inj h).le
  | succ rounds ih =>
    cases b with
    | nil => exact (Except.ok.inj h).le
    | cons x r =>
      rw [countFrom_succ (cons_ne_nil x r)] at h
      obtain ⟨_, -, h⟩ := bind_eq_ok.1 h
      exact (Nat.le_succ i).trans (ih h)

variable {vs : List Generic}

/-- The items that were counted are all there is. -/
theorem flatMap_of_walkItems {item : Bytes → Except RlpError (Generic × Bytes)} {rounds i count : Nat}
    (hitem : ∀ {b v rest}, b.length < 2 ^ 64 → item b = .ok (v, rest) → b = v.encode ++ rest)
    (hb : b.length < 2 ^ 64) (hrounds : b.length ≤ rounds) (hcount : countFrom rounds b i = .ok (i + count))
    (h : walkItems item count b = .ok vs) : b = vs.flatMap encode := by
  induction count generalizing b vs rounds i with
  | zero =>
    cases h
    cases b with
    | nil => rfl
    | cons x r =>
      obtain ⟨rounds, rfl⟩ : ∃ n, rounds = n + 1 := ⟨rounds - 1, by simp at hrounds; omega⟩
      rw [countFrom_succ (cons_ne_nil x r)] at hcount
      obtain ⟨_, -, hcount⟩ := bind_eq_ok.1 hcount
      exact absurd (le_of_countFrom hcount) (Nat.not_succ_le_self i)
  | succ count ih =>
    obtain ⟨⟨v, rest⟩, hv, h⟩ := bind_eq_ok.1 h
    obtain ⟨vs', hvs, h⟩ := bind_eq_ok.1 h
    cases h
    obtain rfl := hitem hb hv
    have hpos := encode_pos v
    rw [length_append] at hb hrounds
    obtain ⟨rounds, rfl⟩ : ∃ n, rounds = n + 1 := ⟨rounds - 1, by omega⟩
    rw [countFrom_append (isItem_encode (by omega)), Nat.add_comm count, ← Nat.add_assoc] at hcount
    rw [flatMap_cons, ← ih (by omega) (by omega) hcount hvs]

theorem walkItem_sound {depth : Nat} (hb : b.length < 2 ^ 64)
    (h : walkItem depth b = .ok (v, rest)) : b = v.encode ++ rest := by
  induction depth generalizing b v rest with
  | zero => cases h
  | succ depth ih =>
    obtain ⟨found, -, h⟩ := bind_eq_ok.1 h
    split at h
    · obtain ⟨⟨content, rest'⟩, hlist, h⟩ := bind_eq_ok.1 h
      obtain ⟨count, hcount, h⟩ := bind_eq_ok.1 h
      obtain ⟨vs, hvs, h⟩ := bind_eq_ok.1 h
      cases h
      obtain rfl := (splitList_eq_ok_iff hb).1 hlist
      rw [length_append, length_framed] at hb
      rw [← Nat.zero_add count] at hcount
      rw [encode_list, ← flatMap_of_walkItems ih (by omega) le_rfl hcount hvs]
    · obtain ⟨⟨content, rest'⟩, hstring, h⟩ := bind_eq_ok.1 h
      cases h
      exact (splitString_eq_ok_iff hb).1 hstring

theorem walkItems_flatMap {item : Bytes → Except RlpError (Generic × Bytes)}
    (hitem : ∀ v ∈ vs, ∀ rest, item (v.encode ++ rest) = .ok (v, rest)) :
    walkItems item vs.length (vs.flatMap encode) = .ok vs := by
  induction vs with
  | nil => rfl
  | cons v vs ih =>
    rw [flatMap_cons, length_cons, walkItems, hitem v mem_cons_self]
    simp only [bind, Except.bind]
    rw [ih fun w hw ↦ hitem w (mem_cons_of_mem v hw)]
    rfl

theorem length_le_flatMap (hv : v ∈ vs) :
    v.encode.length ≤ (vs.flatMap encode).length := by
  obtain ⟨l, l', rfl⟩ := append_of_mem hv
  rw [flatMap_append, flatMap_cons, length_append, length_append]
  omega

theorem walkItem_complete {depth : Nat} (hdepth : v.encode.length < depth)
    (hv : v.encode.length < 2 ^ 64) (rest : Bytes) : walkItem depth (v.encode ++ rest) = .ok (v, rest) := by
  induction depth generalizing v rest with
  | zero => omega
  | succ depth ih =>
    cases v with
    | bytes b =>
      have hle := le_length_bytes b
      rw [encode] at hv ⊢
      rw [walkItem, split_bytes (by omega), splitString_bytes (by omega)]
      cases overlong b <;> rfl
    | list vs =>
      rw [encode_list] at hdepth hv ⊢
      have hpos := length_listHeader_pos (vs.flatMap encode).length
      rw [length_framed] at hdepth hv
      have hitems : countValues (vs.flatMap encode) = .ok vs.length := by
        rw [flatMap_def, countValues_flatten, length_map]
        intro c hc
        obtain ⟨v, hmem, rfl⟩ := mem_map.1 hc
        have := length_le_flatMap hmem
        exact isItem_encode (by omega)
      have hwalk : walkItems (walkItem depth) vs.length (vs.flatMap encode) = .ok vs :=
        walkItems_flatMap fun v hmem rest ↦ by
          have := length_le_flatMap hmem
          exact ih (by omega) (by omega) rest
      rw [walkItem, split_framed (by omega), splitList_framed (by omega)]
      simp only [bind, Except.bind, hitems, hwalk]
      rfl

theorem walk_eq_ok_iff (hb : b.length < 2 ^ 64) : walk b = .ok v ↔ v.encode = b := by
  constructor
  · intro h
    obtain ⟨⟨v', rest⟩, hwalk, h⟩ := bind_eq_ok.1 h
    dsimp only at h
    split at h
    · cases h
    next hnil =>
    cases h
    rw [not_not] at hnil
    rw [walkItem_sound hb hwalk, hnil, append_nil]
  · rintro rfl
    have hwalk := walkItem_complete (Nat.lt_succ_self v.encode.length) hb []
    rw [append_nil] at hwalk
    rw [walk, hwalk]
    rfl

/-! ## Integers -/

theorem contentUint_eq_ok_iff {x : UInt64} : contentUint content = .ok x ↔ minBytes x.toNat = content := by
  rcases content with _ | ⟨y, _ | ⟨z, content⟩⟩
  · rw [contentUint, Except.ok.injEq]
    constructor
    · rintro rfl
      rfl
    · intro h
      have hx := setBytes_minBytes x.toNat
      rw [h] at hx
      exact UInt64.toNat_inj.1 hx
  · rw [contentUint]
    split
    · next hzero =>
      refine iff_of_false (by simp) fun h ↦ head_minBytes x.toNat ?_
      rw [h, hzero]
      rfl
    · next hne =>
      have hset : setBytes [y] = y.toUInt64.toNat := by simp [setBytes]
      rw [Except.ok.injEq]
      constructor
      · rintro rfl
        rw [← hset, minBytes_setBytes (by simpa using hne)]
      · intro h
        rw [← UInt64.toNat_inj, ← hset, ← h, setBytes_minBytes]
  · rw [contentUint]
    · split
      · next hlong =>
        refine iff_of_false (by simp) fun h ↦ ?_
        have hle := length_minBytes_le (show x.toNat < 256 ^ 8 from x.toNat_lt)
        rw [h] at hle
        omega
      · next hshort =>
        constructor
        · intro h
          split at h
          · cases h
          · next n hsize =>
            obtain ⟨-, hlen, hstarts⟩ := readSize_sound (by simp) hsize
            have hmin := hstarts.eq_of_length hlen
            have hn : n < 2 ^ 64 := lt_of_length_minBytes (by omega)
            rw [← Except.ok.inj h, UInt64.toNat_ofNat_of_lt' hn, hmin]
        · intro h
          have hlarge : 56 ≤ x.toNat := by
            -- a number of two bytes does not start with zero
            have hne : y ≠ 0 := fun hzero ↦ head_minBytes x.toNat (by rw [h, hzero]; rfl)
            have hle := le_setBytes hne (z :: content)
            have hpow : 256 ^ 1 ≤ 256 ^ (z :: content).length := Nat.pow_le_pow_right (by decide) (by simp)
            rw [← h, setBytes_minBytes] at hle
            omega
          have hsize := readSize_minBytes hlarge []
          rw [append_nil, h] at hsize
          simp only [hsize, UInt64.ofNat_toNat]
    · simp
    · simp

theorem splitUint64_eq_ok_iff {x : UInt64} (hb : b.length < 2 ^ 64) :
    splitUint64 b = .ok (x, []) ↔ uint x.toNat = b := by
  constructor
  · intro h
    obtain ⟨⟨content, rest⟩, hstring, h⟩ := bind_eq_ok.1 h
    obtain ⟨y, hcontent, h⟩ := bind_eq_ok.1 h
    cases h
    rw [(splitString_eq_ok_iff hb).1 hstring, append_nil, uint, contentUint_eq_ok_iff.1 hcontent]
  · rintro rfl
    have hstring := (splitString_eq_ok_iff hb).2 (append_nil (uint x.toNat)).symm
    exact bind_eq_ok.2 ⟨_, hstring, bind_eq_ok.2 ⟨_, contentUint_eq_ok_iff.2 rfl, rfl⟩⟩

/-! ## The main result -/

/-- **The two parsers agree.** The walk through a byte slice accepts what decoding into an `interface{}`
accepts, with the same value, and so do the two ways of reading an unsigned integer. -/
theorem parsers_agree :
    (∀ (b : Bytes) (v : Generic), b.length < 2 ^ 63 → (walk b = .ok v ↔ decodeBytes .interface b = .ok v)) ∧
    ∀ (b : Bytes) (x : UInt64), b.length < 2 ^ 63 →
      (splitUint64 b = .ok (x, []) ↔ decodeBytes (.uint .w64) b = .ok x) := by
  refine ⟨fun b v hb ↦ ?_, fun b x hb ↦ ?_⟩
  · exact (walk_eq_ok_iff (by omega)).trans (decodeBytes_eq_ok .interface v hb).symm
  · exact (splitUint64_eq_ok_iff (by omega)).trans (decodeBytes_eq_ok (.uint .w64) x hb).symm

/-- A list of a byte and a list, and an integer of two bytes. -/
theorem parsers_agree_list :
    walk [0xC3, 0x07, 0xC1, 0x80] = .ok (.list [.bytes [7], .list [.bytes []]]) ∧
      decodeBytes .interface [0xC3, 0x07, 0xC1, 0x80] = .ok (.list [.bytes [7], .list [.bytes []]]) ∧
      splitUint64 [0x82, 0x01, 0x00] = .ok (256, []) ∧
      decodeBytes (.uint .w64) [0x82, 0x01, 0x00] = .ok (256 : UInt64) := by
  have hwalk : walk [0xC3, 0x07, 0xC1, 0x80] = .ok (.list [.bytes [7], .list [.bytes []]]) := by rfl
  have huint : splitUint64 [0x82, 0x01, 0x00] = .ok (256, []) := by rfl
  exact ⟨hwalk, (parsers_agree.1 _ _ (by decide)).1 hwalk, huint,
    (parsers_agree.2 _ _ (by decide)).1 huint⟩

end GoEntropy.Rlp.Raw
