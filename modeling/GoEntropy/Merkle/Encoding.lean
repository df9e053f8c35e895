import GoEntropy.Common.Bytes
import GoEntropy.Container.Patricia

/-!
# Encodings of trie keys

A key is a byte string, a list of nibbles with a terminator (hex form) or a byte string with a flag
nibble (compact form). The hex form is the one nodes have in memory, the compact form is the one
that is hashed and stored.

A nibble of a hex key is a number up to sixteen, the terminator included, so it is an index of the
children of a full node.
-/

namespace GoEntropy.Merkle

open GoEntropy.Container Patricia List

/-- A digit of a hex key: a nibble, or the terminator sixteen. -/
abbrev Nibble := Fin 17

abbrev term : Nibble := 16

def hi (b : UInt8) : Nibble := ⟨b.toNat / 16, by have := b.toNat_lt; omega⟩

def lo (b : UInt8) : Nibble := ⟨b.toNat % 16, by omega⟩

/-- The byte `b1<<4 | b2` of two digits. -/
def pack (x y : Nibble) : UInt8 := UInt8.ofNat x.val <<< 4 ||| UInt8.ofNat y.val

/-- The loop of `keybytesToHex`. -/
def nibbles (str : Bytes) : List Nibble := str.flatMap fun b ↦ [hi b, lo b]

/-- `keybytesToHex`. -/
def keybytesToHex (str : Bytes) : List Nibble := nibbles str ++ [term]

/-- `hasTerm`. -/
def hasTerm (s : List Nibble) : Bool := s.getLast? == some term

/-- `decodeNibbles`. -/
def decodeNibbles : List Nibble → Bytes
  | x :: y :: rest => pack x y :: decodeNibbles rest
  | _ => []

/-- `hexToCompact` of a key whose terminator, if it had one, has been cut off. -/
def compactBody (terminator : UInt8) (hex : List Nibble) : Bytes :=
  if hex.length % 2 = 1 then
    -- the first nibble is contained in the first byte
    (terminator <<< 5 ||| (1 : UInt8) <<< 4 ||| UInt8.ofNat (hex.headD 0).val) :: decodeNibbles hex.tail
  else terminator <<< 5 :: decodeNibbles hex

/-- `hexToCompact`. -/
def hexToCompact (hex : List Nibble) : Bytes :=
  if hasTerm hex then compactBody 1 hex.dropLast else compactBody 0 hex

/-- `compactToHex`. -/
def compactToHex (compact : Bytes) : List Nibble :=
  match compact with
  | [] => []
  | flag :: _ =>
    let base := keybytesToHex compact
    -- delete terminator flag
    let base := if hi flag < 2 then base.dropLast else base
    -- apply odd flag
    base.drop (2 - (hi flag).val % 2)

/-- The loop of `hexToCompactInPlace`, with the number of rounds left. -/
def packLoop : (rounds : Nat) → (hex : Bytes) → (bi ni : Nat) → Bytes
  | 0, hex, _, _ => hex
  | rounds + 1, hex, bi, ni =>
    packLoop rounds (hex.set bi (hex[ni]?.getD 0 <<< 4 ||| hex[ni + 1]?.getD 0)) (bi + 1) (ni + 2)

/-- `hexToCompactInPlace`: the buffer and the length of the compact key in it. -/
def hexToCompactInPlace (hex : Bytes) : Bytes × Nat :=
  let terminated := hex.getLast? == some 16
  let hexLen := if terminated then hex.length - 1 else hex.length
  let flag : UInt8 := if terminated then (1 : UInt8) <<< 5 else 0
  if hexLen % 2 = 1 then
    let first := flag ||| (1 : UInt8) <<< 4 ||| hex[0]?.getD 0
    ((packLoop (hexLen / 2) hex 1 1).set 0 first, hexLen / 2 + 1)
  else ((packLoop (hexLen / 2) hex 1 0).set 0 flag, hexLen / 2 + 1)

/-! ## Bytes and nibbles -/

variable (b : UInt8)

theorem hi_ne_term : hi b ≠ term := by
  have := b.toNat_lt
  simp only [ne_eq, Fin.ext_iff]
  show ¬ b.toNat / 16 = 16
  omega

theorem lo_ne_term : lo b ≠ term := by
  simp only [ne_eq, Fin.ext_iff]
  show ¬ b.toNat % 16 = 16
  omega

theorem hi_pack : ∀ {x y : Nibble}, x ≠ term → y ≠ term → hi (pack x y) = x := by decide

theorem lo_pack : ∀ {x y : Nibble}, x ≠ term → y ≠ term → lo (pack x y) = y := by decide

theorem pack_hi_lo : pack (hi b) (lo b) = b := by
  have hall : ∀ n : Fin 256, pack (hi (UInt8.ofNat n.val)) (lo (UInt8.ofNat n.val)) = UInt8.ofNat n.val := by
    decide +kernel
  simpa using hall ⟨b.toNat, b.toNat_lt⟩

@[simp] theorem nibbles_nil : nibbles [] = [] := rfl

variable (str : Bytes)

@[simp] theorem nibbles_cons : nibbles (b :: str) = hi b :: lo b :: nibbles str :=
  rfl

theorem nibbles_append (p str : Bytes) : nibbles (p ++ str) = nibbles p ++ nibbles str :=
  flatMap_append

theorem term_notMem_nibbles : term ∉ nibbles str := by
  induction str with
  | nil => simp
  | cons b str ih => simp [ih, (hi_ne_term b).symm, (lo_ne_term b).symm]

theorem before_nibbles {k key : Bytes} (h : Before k key) : Before (nibbles k) (nibbles key) := by
  obtain ⟨p, a, b, s, s', hab, rfl, rfl⟩ := h
  rw [nibbles_append, nibbles_append, nibbles_cons]
  have hlt : a.toNat < b.toNat := hab
  by_cases hhi : hi a = hi b
  · have hlo : lo a < lo b := by
      have hhi' : a.toNat / 16 = b.toNat / 16 := congrArg Fin.val hhi
      show a.toNat % 16 < b.toNat % 16
      omega
    rw [hhi]
    exact ⟨nibbles p ++ [hi b], lo a, lo b, nibbles s, nibbles s', hlo, by simp, by simp⟩
  · have hlt' : hi a < hi b := by
      have hhi' : ¬ a.toNat / 16 = b.toNat / 16 := fun h ↦ hhi (Fin.ext h)
      show a.toNat / 16 < b.toNat / 16
      omega
    exact ⟨_, hi a, hi b, _, _, hlt', rfl, rfl⟩

theorem ends_keybytesToHex : Ends term (keybytesToHex str) :=
  ⟨nibbles str, term_notMem_nibbles str, rfl⟩

theorem decodeNibbles_nibbles : decodeNibbles (nibbles str) = str := by
  induction str with
  | nil => rfl
  | cons b str ih => rw [nibbles_cons, decodeNibbles, pack_hi_lo, ih]

theorem nibbles_injective : Function.Injective nibbles :=
  Function.LeftInverse.injective decodeNibbles_nibbles

theorem keybytesToHex_injective : Function.Injective keybytesToHex := fun _ _ h ↦
  nibbles_injective (append_cancel_right h)

variable {s : List Nibble}

theorem nibbles_decodeNibbles (hs : term ∉ s) (hlen : s.length % 2 = 0) :
    nibbles (decodeNibbles s) = s := by
  induction s using decodeNibbles.induct with
  | case1 x y rest ih =>
    simp only [mem_cons, not_or, length_cons] at hs hlen
    rw [decodeNibbles, nibbles_cons, hi_pack (.symm hs.1) (.symm hs.2.1),
      lo_pack (.symm hs.1) (.symm hs.2.1), ih hs.2.2 (by omega)]
  | case2 s hs' =>
    match s with
    | [] => rfl
    | [x] => simp at hlen
    | x :: y :: rest => exact (hs' x y rest rfl).elim

/-! ## The compact form -/

variable {k : List Nibble}

theorem hasTerm_of_ends (h : Ends term k) : hasTerm k = true := by
  obtain ⟨p, -, rfl⟩ := h
  simp [hasTerm]

theorem hasTerm_of_notMem (h : term ∉ k) : hasTerm k = false := by
  rw [hasTerm, beq_eq_false_iff_ne]
  exact fun hlast ↦ h (mem_of_getLast? hlast)

theorem flag_even : ∀ t : Bool, hi ((if t then 1 else 0 : UInt8) <<< 5) = (if t then 2 else 0) ∧
    lo ((if t then 1 else 0 : UInt8) <<< 5) = 0 := by decide

theorem flag_odd : ∀ (t : Bool) (x : Nibble), x ≠ term →
    hi ((if t then 1 else 0 : UInt8) <<< 5 ||| (1 : UInt8) <<< 4 ||| UInt8.ofNat x.val) = (if t then 3 else 1) ∧
      lo ((if t then 1 else 0 : UInt8) <<< 5 ||| (1 : UInt8) <<< 4 ||| UInt8.ofNat x.val) = x := by decide

/-- Reading a compact key: the nibbles, and the terminator if the flag asks for it. -/
theorem compactToHex_compactBody (t : Bool) {p : List Nibble} (hp : term ∉ p) :
    compactToHex (compactBody (if t then 1 else 0) p) = p ++ if t then [term] else [] := by
  have hcut : ∀ (x : Nibble) (l : List Nibble),
      (if x < 2 then (l ++ [term]).dropLast else l ++ [term]) = l ++ if x < 2 then [] else [term] := by
    intro x l
    split <;> simp
  rw [compactBody]
  split
  · next hodd =>
    cases p with
    | nil => simp at hodd
    | cons x p =>
      simp only [mem_cons, not_or, length_cons] at hp hodd
      obtain ⟨hhi, hlo⟩ := flag_odd t x (.symm hp.1)
      simp only [compactToHex, keybytesToHex, headD_cons, tail_cons, nibbles_cons, hcut,
        nibbles_decodeNibbles hp.2 (by omega), hhi, hlo]
      cases t with
      | false => simp
      | true => rfl
  · next heven =>
    obtain ⟨hhi, hlo⟩ := flag_even t
    simp only [compactToHex, keybytesToHex, nibbles_cons, hcut, nibbles_decodeNibbles hp (by omega), hhi]
    cases t <;> simp

/-- **A key is what its compact form is read as.** -/
theorem compactToHex_hexToCompact (h : term ∉ k ∨ Ends term k) :
    compactToHex (hexToCompact k) = k := by
  obtain hk | hk := h
  · rw [hexToCompact, hasTerm_of_notMem hk]
    simpa using compactToHex_compactBody false hk
  · obtain ⟨p, hp, rfl⟩ := id hk
    rw [hexToCompact, hasTerm_of_ends hk]
    simpa using compactToHex_compactBody true hp

/-! ## Compacting in place -/

/-- The digits of a key as the bytes of a buffer. -/
def digits (s : List Nibble) : Bytes := s.map fun x ↦ UInt8.ofNat x.val

/-- The loop packs two digits into one byte. It writes at `bi` and reads from `ni` on, and since `bi`
is not further than `ni + 1` it writes over no digit that is still to be read. -/
theorem take_packLoop {hex rest : Bytes} {rounds bi ni : Nat} (hbi : bi ≤ ni + 1)
    (hs : s.length = 2 * rounds) (hdrop : hex.drop ni = digits s ++ rest) :
    (packLoop rounds hex bi ni).take (bi + rounds) = hex.take bi ++ decodeNibbles s := by
  induction rounds generalizing s hex bi ni with
  | zero =>
    obtain rfl := length_eq_zero_iff.1 hs
    simp [packLoop, decodeNibbles]
  | succ rounds ih =>
    match s, hs with
    | x :: y :: s, hs =>
      simp only [length_cons] at hs
      have hx : hex[ni]? = some (UInt8.ofNat x.val) := by
        rw [← Nat.add_zero ni, ← getElem?_drop, hdrop]
        rfl
      have hy : hex[ni + 1]? = some (UInt8.ofNat y.val) := by
        rw [← getElem?_drop, hdrop]
        rfl
      have hlt : bi < hex.length := Nat.lt_of_le_of_lt hbi (List.getElem?_eq_some_iff.1 hy).1
      have hrest : (hex.set bi (pack x y)).drop (ni + 2) = digits s ++ rest := by
        rw [drop_set_of_lt (by omega), ← drop_drop, hdrop]
        rfl
      have htake : (hex.set bi (pack x y)).take (bi + 1) = hex.take bi ++ [pack x y] := by
        rw [take_succ_eq_append_getElem (by simpa using hlt), getElem_set_self,
          take_set_of_le le_rfl]
      rw [packLoop, hx, hy]
      have hih := ih (show bi + 1 ≤ ni + 2 + 1 by omega) (by omega) hrest
      rw [htake, append_assoc] at hih
      rw [show bi + (rounds + 1) = bi + 1 + rounds by omega]
      exact hih

theorem take_set_packLoop {hex rest : Bytes} {rounds ni : Nat} (first : UInt8)
    (hs : s.length = 2 * rounds) (hdrop : hex.drop ni = digits s ++ rest) (hne : hex ≠ []) :
    ((packLoop rounds hex 1 ni).set 0 first).take (rounds + 1) = first :: decodeNibbles s := by
  obtain ⟨x, hex, rfl⟩ := exists_cons_of_ne_nil hne
  have htake := take_packLoop (Nat.le_add_left 1 ni) hs hdrop
  rw [Nat.add_comm 1] at htake
  rw [take_set, htake]
  rfl

/-- A terminator that was cut off leaves its byte behind in the buffer. -/
theorem take_hexToCompactInPlace (t : Bool) {p : List Nibble} (hp : term ∉ p) (hne : t = false → p ≠ []) :
    (hexToCompactInPlace (digits p ++ if t then [16] else [])).1.take
        (hexToCompactInPlace (digits p ++ if t then [16] else [])).2 =
      compactBody (if t then 1 else 0) p := by
  generalize hhex : digits p ++ (if t then [16] else []) = hex
  have hdigit : ∀ x : Nibble, UInt8.ofNat x.val = 16 → x = term := by decide
  have hlast : (hex.getLast? == some 16) = t := by
    subst hhex
    cases t with
    | true => simp
    | false =>
      rw [beq_eq_false_iff_ne, if_neg nofun, append_nil]
      intro hlast
      obtain ⟨x, hx, hx16⟩ := mem_map.1 (mem_of_getLast? hlast)
      exact hp (hdigit x hx16 ▸ hx)
  have hlen : (if t then hex.length - 1 else hex.length) = p.length := by
    subst hhex
    cases t <;> simp [digits]
  have hbuf : hex ≠ [] := by
    subst hhex
    cases t with
    | true => simp
    | false => simpa [digits] using hne rfl
  have hflag : (if t then (1 : UInt8) <<< 5 else 0) = (if t then 1 else 0 : UInt8) <<< 5 := by
    cases t <;> rfl
  simp only [hexToCompactInPlace, hlast, hlen, hflag, compactBody]
  split
  · next hodd =>
    cases p with
    | nil => simp at hodd
    | cons x p =>
      subst hhex
      have hp2 : p.length = 2 * ((p.length + 1) / 2) := by
        rw [length_cons] at hodd
        omega
      exact take_set_packLoop _ hp2 rfl hbuf
  · next heven =>
    have hp2 : p.length = 2 * (p.length / 2) := by omega
    exact take_set_packLoop _ hp2 hhex.symm hbuf

/-- **Compacting in place** gives the compact form. -/
theorem hexToCompactInPlace_digits (h : (term ∉ k ∧ k ≠ []) ∨ Ends term k) :
    (hexToCompactInPlace (digits k)).1.take (hexToCompactInPlace (digits k)).2 = hexToCompact k := by
  obtain ⟨hk, hne⟩ | hk := h
  · rw [hexToCompact, hasTerm_of_notMem hk]
    simpa using take_hexToCompactInPlace false hk fun _ ↦ hne
  · obtain ⟨p, hp, rfl⟩ := id hk
    rw [hexToCompact, hasTerm_of_ends hk, dropLast_concat, digits, map_append]
    exact take_hexToCompactInPlace true hp nofun

end GoEntropy.Merkle
