import GoEntropy.Chain.Block
import GoEntropy.Merkle.Decoding

/-!
# Ranges of headers

`GetHeadersFrom` serves headers from a number downwards. It follows the parent hashes through the cache, goes
on through the live headers of the database where the cache ends, and takes the rest from the freezer.

The freezer is asked for 700 bytes a header. It hands out as many items as fit, and if these are fewer than
it was asked for, all of them are dropped. So a range is complete exactly if what it takes from the freezer
fits, or is a single header.

Numbers are `uint64` and may step below zero, behind genesis. A range from there may wrap around and be taken
for one that the freezer has. Then the slices for it cannot be made, and the read panics.
-/

namespace GoEntropy.HeaderRange

open List

open GoEntropy.Chain (Header bloomBytes_zero)

/-- What a table is read with: its compression, and the size of the largest slice that can be made. -/
structure Snappy where
  encode : Bytes → Bytes
  decode : Bytes → Option Bytes
  decodedLen : Bytes → Nat
  maxAlloc : Nat
  decode_encode (b : Bytes) : decode (encode b) = some b
  decodedLen_encode (b : Bytes) : decodedLen (encode b) = b.length

/-! ## Reads of the freezer -/

/-- The items that fit into `maxBytes`, and the first one in any case: the loop of both retrievals, after `i`
items and `total` bytes. -/
def fitting (size : Bytes → Nat) (maxBytes : Nat) : (i total : Nat) → List Bytes → List Bytes
  | _, _, [] => []
  | i, total, x :: xs =>
    if i > 0 ∧ total + size x > maxBytes then []
    else x :: fitting size maxBytes (i + 1) (total + size x) xs

inductive Read
  | items (data : List Bytes)
  | error
  | panic

/-- `retrieveItems`, from a table given as the list of its items. It makes a slice for the data and one for
the indices, six bytes each. -/
def retrieveItems (S : Snappy) (table : List Bytes) (start count maxBytes : Nat) : Read :=
  if table.length ≤ start ∨ count = 0 then .error
  else
    let count := if (start + count) % 2 ^ 64 > table.length then table.length - start else count
    if max maxBytes ((count + 1) * 6 % 2 ^ 64) > S.maxAlloc then .panic
    -- the indices of a range that wraps around are not there
    else if start + count > table.length then .error
    else .items (fitting List.length maxBytes 0 0 ((table.drop start).take count))

/-- `RetrieveItems`. It makes a slice of slices, of 24 bytes each. -/
def ancientRange (S : Snappy) (table : List Bytes) (start count maxBytes : Nat) : Read :=
  match retrieveItems S table start count maxBytes with
  | .items diskData =>
    if count * 24 > S.maxAlloc then .panic
    else
      match (fitting S.decodedLen maxBytes 0 0 diskData).mapM S.decode with
      | some output => .items output
      | none => .error
  | failed => failed

/-! ## Reads of the chain -/

/-- What reads of headers use of `HeaderChain`: entries of the database, where an absent one is empty, tables
of the freezer, the cache, and the head. -/
structure HeaderChain where
  canonicalHash : Nat → Option Hash
  header : Nat → Hash → Bytes
  frozenHashes : List Hash
  frozenHeaders : List Bytes
  headerCache : Hash → Option Header
  currentHeader : Header

/-- `HeaderParentHashFromRLP`. -/
def headerParentHashFromRLP (header : Bytes) : Hash :=
  match Rlp.Raw.splitList header with
  | .error _ => 0
  | .ok (listContent, _) =>
    match Rlp.Raw.splitString listContent with
    | .error _ => 0
    | .ok (parentHash, _) => if parentHash.length ≠ 32 then 0 else bytesToHash parentHash

/-- The loops over cached and over live headers: at most `count` headers, as long as `read` finds one and the
hash of its parent. The headers, where the loop ends, and how many are missing. -/
def descend (read : Nat → Hash → Option (Bytes × Hash)) :
    (count number : Nat) → Hash → List Bytes × Nat × Nat
  | 0, number, _ => ([], number, 0)
  | count + 1, number, hash =>
    match read number hash with
    | none => ([], number, count + 1)
    | some (data, parent) =>
      let rest := descend read count ((number + (2 ^ 64 - 1)) % 2 ^ 64) parent
      (data :: rest.1, rest.2)

variable (S : Snappy) (hc : HeaderChain)

/-- `ReadCanonicalHash`. -/
def readCanonicalHash (number : Nat) : Hash := (hc.frozenHashes[number]?.or (hc.canonicalHash number)).getD 0

def readCached (_ : Nat) (hash : Hash) : Option (Bytes × Hash) :=
  (hc.headerCache hash).map fun h ↦ (h.encode, h.parentHash)

def readLive (i : Nat) (hash : Hash) : Option (Bytes × Hash) :=
  if i < hc.frozenHeaders.length ∨ hc.header i hash = [] then none
  else some (hc.header i hash, headerParentHashFromRLP (hc.header i hash))

/-- `ReadHeaderRange`, unless it panics. -/
def readHeaderRange (number count : Nat) : Option (List Bytes) :=
  let count := if count - 1 > number then number + 1 else count
  let (rlpHeaders, i, count) := descend (readLive hc) count number (readCanonicalHash hc number)
  if count = 0 then some rlpHeaders
  else
    match ancientRange S hc.frozenHeaders ((i + 1 + (2 ^ 64 - count)) % 2 ^ 64) count (count * 700 % 2 ^ 64) with
    | .items data => some (if data.length = count then rlpHeaders ++ data.reverse else rlpHeaders)
    | .error => some rlpHeaders
    | .panic => none

/-- `GetHeadersFrom`, unless it panics. -/
def getHeadersFrom (number count : Nat) : Option (List Bytes) :=
  let current := hc.currentHeader.number % 2 ^ 64
  if current < number ∧ count ≤ number - current then some []
  else
    let count := if current < number then count - (number - current) else count
    let number := min number current
    let hash := readCanonicalHash hc number
    if hash = 0 then some []
    else
      let (headers, number, count) := descend (readCached hc) count number hash
      if count > 0 then (readHeaderRange S hc number count).map (headers ++ ·) else some headers

/-! ## Complete ranges -/

/-- The numbers from `m` downwards, `c` of them or down to genesis. -/
def numbers (m c : Nat) : List Nat := (List.range (min c (m + 1))).map (m - ·)

@[simp] theorem numbers_zero (m : Nat) : numbers m 0 = [] := by simp [numbers]

theorem numbers_succ (m c : Nat) : numbers m (c + 1) = m :: if m = 0 then [] else numbers (m - 1) c := by
  cases m with
  | zero => simp [numbers]
  | succ m =>
    rw [numbers, Nat.add_min_add_right, range_succ_eq_map]
    simp [numbers]

/-- Where a walk along a chain of headers ends: at the first header that `read` does not find, with as many
headers as asked for, or behind genesis. -/
theorem descend_spec {read : Nat → Hash → Option (Bytes × Hash)} {chain : Nat → Header} {hash : Nat → Hash}
    {go : Nat → Bool} (count : Nat) {n : Nat} (hn : n < 2 ^ 64)
    (hread : ∀ k ≤ n, read k (hash k) = if go k then some ((chain k).encode, (chain k).parentHash) else none)
    (hparent : ∀ k < n, (chain (k + 1)).parentHash = hash k)
    (hend : n + 1 < count → read (2 ^ 64 - 1) (chain 0).parentHash = none) :
    ∃ k c, descend read count n (hash n) = (((numbers n count).takeWhile go).map fun k ↦ (chain k).encode, k, c) ∧
      ((numbers n count).dropWhile go = [] ∧ c = count - (n + 1) ∧ (c = 0 ∨ k = 2 ^ 64 - 1) ∨
        (numbers n count).dropWhile go = numbers k c ∧ 0 < c ∧ k ≤ n ∧ go k = false ∧ count + k = c + n) := by
  induction count generalizing n with
  | zero => exact ⟨n, 0, by simp [descend], by simp⟩
  | succ count ih =>
    rw [descend, hread n le_rfl, numbers_succ]
    cases hgo : go n with
    | false => exact ⟨n, count + 1, by simp [hgo], .inr ⟨by simp [hgo, numbers_succ], by simp [hgo]⟩⟩
    | true =>
      cases n with
      | zero =>
        refine ⟨2 ^ 64 - 1, count, ?_, .inl ⟨by simp [hgo], by simp⟩⟩
        cases count with
        | zero => simp [descend, hgo]
        | succ count =>
          have hnone : read 18446744073709551615 (chain 0).parentHash = none := hend (by omega)
          simp [descend, hgo, hnone]
      | succ n =>
        obtain ⟨k, c, hd, hrest⟩ := ih (n := n) (by omega) (fun k hk ↦ hread k (by omega))
          (fun k hk ↦ hparent k (by omega)) (fun hlt ↦ hend (by omega))
        have hstep : (n + 1 + (2 ^ 64 - 1)) % 2 ^ 64 = n := by omega
        refine ⟨k, c, ?_, ?_⟩
        · simp only [if_true, hstep, hparent n (by omega), hd]
          simp [hgo]
        · simp only [hgo, dropWhile_cons_of_pos]
          exact hrest.imp (fun ⟨h, hc, hk⟩ ↦ ⟨h, by omega, hk⟩)
            (fun ⟨h, hc, hk, hg, hsum⟩ ↦ ⟨h, hc, by omega, hg, by omega⟩)

/-- The loop gives all items exactly if it may be at its first one or they fit. -/
theorem fitting_spec {size : Bytes → Nat} {maxBytes : Nat} (i total : Nat) (l : List Bytes) :
    fitting size maxBytes i total l <+: l ∧
      (fitting size maxBytes i total l = l ↔ l.length + min i 1 ≤ 1 ∨ total + (l.map size).sum ≤ maxBytes) := by
  fun_induction fitting size maxBytes i total l with
  | case1 => simp
  | case2 i total x xs hstop => exact ⟨List.nil_prefix, by simp; omega⟩
  | case3 i total x xs hgo ih =>
    refine ⟨cons_prefix_cons.2 ⟨rfl, ih.1⟩, ?_⟩
    rw [cons.injEq, ih.2]
    cases xs <;> simp <;> omega

/-- The slices for a range of the freezer can be made. -/
def Allocates (count : Nat) : Prop := max (count * 700 % 2 ^ 64) ((count + 1) * 6 % 2 ^ 64) ≤ S.maxAlloc

instance (count : Nat) : Decidable (Allocates S count) := inferInstanceAs (Decidable (_ ≤ _))

/-- Items that fit into 700 bytes each, compressed and decompressed, and into memory. A single item fits. -/
def Fits (items : List Bytes) : Prop :=
  items = [] ∨ (Allocates S items.length ∧ items.length * 24 ≤ S.maxAlloc) ∧
    (items.length ≤ 1 ∨ (items.map fun b ↦ (S.encode b).length).sum ≤ items.length * 700 % 2 ^ 64 ∧
      (items.map List.length).sum ≤ items.length * 700 % 2 ^ 64)

variable {S hc}

variable {C : Crypto} {chain : Nat → Header} {head : Nat}

/-- A range of items is read as a whole exactly if it fits. -/
theorem ancientRange_spec {table items : List Bytes} {start : Nat} (hne : items ≠ [])
    (htable : (table.drop start).take items.length = items.map S.encode) :
    ancientRange S table start items.length (items.length * 700 % 2 ^ 64) = .panic ∧ ¬Fits S items ∨
    ∃ data, ancientRange S table start items.length (items.length * 700 % 2 ^ 64) = .items data ∧
      data <+: items ∧ (data = items ↔ Fits S items) := by
  have hlen := congrArg length htable
  have hpos := length_pos_of_ne_nil hne
  simp only [length_take, length_drop, length_map] at hlen
  have hcount : ¬(start + items.length) % 2 ^ 64 > table.length :=
    not_lt.2 ((Nat.mod_le _ _).trans (by omega))
  rw [ancientRange, retrieveItems, if_neg (by omega)]
  dsimp only
  rw [if_neg hcount, if_neg (show ¬start + items.length > table.length by omega), htable]
  by_cases halloc : Allocates S items.length ∧ items.length * 24 ≤ S.maxAlloc
  · right
    rw [if_neg (not_lt.2 halloc.1)]
    dsimp only
    rw [if_neg (not_lt.2 halloc.2)]
    have hread := @fitting_spec length (items.length * 700 % 2 ^ 64) 0 0 (items.map S.encode)
    have hdecode := @fitting_spec S.decodedLen (items.length * 700 % 2 ^ 64) 0 0
    generalize fitting length _ 0 0 _ = disk at hread ⊢
    -- what is left after both loops is a part of the items, and all of them if neither loop stops
    have hall : fitting S.decodedLen (items.length * 700 % 2 ^ 64) 0 0 disk = items.map S.encode ↔ Fits S items := by
      have hsums := (hdecode (items.map S.encode)).2
      simp only [map_map, Function.comp_def, S.decodedLen_encode] at hsums hread
      rw [Fits, or_iff_right hne, and_iff_right halloc, or_and_left]
      constructor
      · intro heq
        have hdisk : disk = items.map S.encode := hread.1.eq_of_length_le (heq ▸ (hdecode disk).1.length_le)
        rw [hdisk] at heq
        simpa using And.intro (hread.2.1 hdisk) (hsums.1 heq)
      · rintro ⟨hsize, hlength⟩
        rw [hread.2.2 (by simpa using hsize), hsums.2 (by simpa using hlength)]
    obtain ⟨rest, hrest⟩ := (hdecode disk).1.trans hread.1
    obtain ⟨data, rest', rfl, hdata, -⟩ := map_eq_append_iff.1 hrest.symm
    have hmap : ∀ l : List Bytes, (l.map S.encode).mapM S.decode = some l := by
      intro l
      induction l <;> simp_all [S.decode_encode]
    refine ⟨data, by rw [← hdata, hmap], prefix_append .., ?_⟩
    rw [← hall, ← hdata]
    constructor
    · exact fun h ↦ h ▸ rfl
    · intro h
      simpa using congrArg length h
  · left
    refine ⟨?_, fun h ↦ halloc (h.resolve_left hne).1⟩
    by_cases hmake : Allocates S items.length
    · rw [if_neg (not_lt.2 hmake)]
      dsimp only
      rw [if_pos (not_le.1 fun houtput ↦ halloc ⟨hmake, houtput⟩)]
    · rw [if_pos (not_le.1 hmake)]

theorem headerParentHashFromRLP_encode (h : Header) (hlen : h.encode.length < 2 ^ 64) :
    headerParentHashFromRLP h.encode = h.parentHash := by
  obtain ⟨rest, hcontent⟩ : ∃ rest, h.encode = Rlp.framed (Rlp.bytes (hashBytes h.parentHash) ++ rest) :=
    ⟨_, rfl⟩
  have hlt := (Merkle.length_le_framed _).trans (hcontent ▸ hlen)
  have hhash := Merkle.length_hashBytes h.parentHash
  rw [headerParentHashFromRLP, hcontent, ← append_nil (Rlp.framed _), Rlp.Raw.splitList_framed hlt]
  simp [Rlp.Raw.splitString_bytes (show (hashBytes h.parentHash).length < 2 ^ 64 by omega), hhash]

/-- A chain of headers down to genesis is canonical up to `head`. The oldest ones are frozen, the others live,
and the cache holds under their hashes no other headers. -/
structure Canonical (C : Crypto) (S : Snappy) (hc : HeaderChain) (chain : Nat → Header) (head : Nat) : Prop where
  current : hc.currentHeader.number = head
  head_lt : head < 2 ^ 64 - 1
  parent : ∀ k < head, (chain (k + 1)).parentHash = (chain k).hash C
  length : ∀ k ≤ head, (chain k).encode.length < 2 ^ 64
  canonical : ∀ k ≤ head, readCanonicalHash hc k = (chain k).hash C
  hash_ne_zero : ∀ k ≤ head, (chain k).hash C ≠ 0
  frozen_le : hc.frozenHeaders.length ≤ head + 1
  frozen : ∀ k < hc.frozenHeaders.length, hc.frozenHeaders[k]? = some (S.encode (chain k).encode)
  live : ∀ k, hc.frozenHeaders.length ≤ k → k ≤ head → hc.header k ((chain k).hash C) = (chain k).encode
  cached : ∀ k ≤ head, ∀ h ∈ hc.headerCache ((chain k).hash C), h = chain k
  /-- There is nothing below genesis, nor at the number its decrement wraps around to. -/
  genesis : hc.headerCache (chain 0).parentHash = none
  last : hc.header (2 ^ 64 - 1) (readCanonicalHash hc (2 ^ 64 - 1)) = []

namespace Canonical

variable (h : Canonical C S hc chain head)

include h

theorem readLive_eq {k : Nat} (hk : k ≤ head) : readLive hc k ((chain k).hash C) =
    if decide (hc.frozenHeaders.length ≤ k) then some ((chain k).encode, (chain k).parentHash) else none := by
  have hne : (chain k).encode ≠ [] := ne_nil_of_length_pos (Nat.zero_lt_of_lt (Merkle.length_le_framed _))
  by_cases hfrozen : hc.frozenHeaders.length ≤ k
  · simp [readLive, h.live k hfrozen hk, hfrozen, hne, headerParentHashFromRLP_encode _ (h.length k hk)]
  · simp [readLive, hfrozen]

/-- The frozen headers from `k` downwards are a part of the table, backwards. -/
theorem frozen_range {k c : Nat} (hk : k < hc.frozenHeaders.length) (hle : c ≤ k + 1) :
    (hc.frozenHeaders.drop (k + 1 - c)).take c =
      (((numbers k c).map fun k ↦ (chain k).encode).reverse.map S.encode) := by
  refine ext_getElem? fun i ↦ ?_
  by_cases hi : i < c
  · have hrange : k - (c - 1 - i) = k + 1 - c + i := by omega
    have hnumber : (numbers k c).reverse[i]? = some (k + 1 - c + i) := by simp [numbers, hi, hle, hrange]
    rw [getElem?_take_of_lt hi, getElem?_drop, h.frozen _ (by omega), getElem?_map, ← map_reverse, getElem?_map,
      hnumber]
    rfl
  · simp [numbers, hi]

/-- A range from the database is complete exactly if what it takes from the freezer fits. -/
theorem readHeaderRange_iff {n : Nat} (hn : n ≤ head) (count : Nat) :
    readHeaderRange S hc n count = some ((numbers n count).map fun k ↦ (chain k).encode) ↔
      Fits S (((numbers n count).dropWhile (hc.frozenHeaders.length ≤ ·)).map fun k ↦ (chain k).encode) := by
  have hclamp : numbers n count = numbers n (if count - 1 > n then n + 1 else count) := by
    rw [numbers]
    congr 2
    split <;> omega
  have hlt := h.head_lt
  rw [readHeaderRange, hclamp, h.canonical n hn]
  have hcount : (if count - 1 > n then n + 1 else count) ≤ n + 1 := by split <;> omega
  generalize (if count - 1 > n then n + 1 else count) = count at hcount ⊢
  obtain ⟨k, c, hd, hrest⟩ := @descend_spec (readLive hc) chain (fun k ↦ (chain k).hash C)
    (hc.frozenHeaders.length ≤ ·) count n (by omega) (fun k hk ↦ h.readLive_eq (hk.trans hn))
    (fun k hk ↦ h.parent k (by omega)) (by omega)
  rw [hd]
  have hsplit := congrArg (map fun k ↦ (chain k).encode)
    (takeWhile_append_dropWhile (p := (hc.frozenHeaders.length ≤ ·)) (l := numbers n count))
  rw [map_append] at hsplit
  dsimp only
  rcases hrest with ⟨hdrop, hc, -⟩ | ⟨hdrop, hpos, hk, hfrozen, hsum⟩
  · obtain rfl : c = 0 := by omega
    rw [hdrop, map_nil, append_nil] at hsplit
    simp [hdrop, hsplit, Fits]
  · have hk' : k < hc.frozenHeaders.length := by simpa using hfrozen
    have hlen : ((numbers k c).map fun k ↦ (chain k).encode).reverse.length = c := by
      simp [numbers]
      omega
    have htable := h.frozen_range hk' (c := c) (by omega)
    rw [hdrop] at hsplit ⊢
    generalize hitems : ((numbers k c).map fun k ↦ (chain k).encode) = items at hlen htable hsplit ⊢
    have hne : items.reverse ≠ [] := fun h0 ↦ by simp [h0] at hlen; omega
    have hfits : Fits S items.reverse ↔ Fits S items := by simp [Fits]
    rw [← hlen] at htable
    have hspec := ancientRange_spec hne htable
    have hstart : (k + 1 + (2 ^ 64 - c)) % 2 ^ 64 = k + 1 - c := by omega
    rw [hlen, hfits] at hspec
    rw [if_neg hpos.ne', hstart, ← hsplit]
    obtain ⟨hpanic, hnot⟩ | ⟨data, hdata, hsub, hiff⟩ := hspec
    · rw [hpanic]
      exact iff_of_false nofun hnot
    rw [hdata, ← hiff]
    dsimp only
    split
    · next hsame =>
      have heq : data = items.reverse := hsub.eq_of_length (hsame.trans hlen.symm)
      simp [heq]
    · next hdiff =>
      have hne' : data ≠ items.reverse := fun heq ↦ hdiff (heq ▸ hlen)
      simp [hne', reverse_eq_nil_iff.not.1 hne]

/-- Behind genesis nothing is read, unless the range wraps around. -/
theorem readHeaderRange_last {c : Nat} (hpos : 0 < c) (hlt : c < 2 ^ 64) :
    readHeaderRange S hc (2 ^ 64 - 1) c = some [] ↔ hc.frozenHeaders.length + c ≤ 2 ^ 64 ∨ Allocates S c := by
  have hhead := h.head_lt
  have hfrozen := h.frozen_le
  obtain ⟨c, rfl⟩ := Nat.exists_eq_succ_of_ne_zero hpos.ne'
  have hlive : ∀ hash, hash = readCanonicalHash hc (2 ^ 64 - 1) → readLive hc (2 ^ 64 - 1) hash = none := by
    rintro _ rfl
    rw [readLive, if_pos (.inr h.last)]
  have hstart : (2 ^ 64 - 1 + 1 + (2 ^ 64 - (c + 1))) % 2 ^ 64 = 2 ^ 64 - (c + 1) := by omega
  have hmod : ¬(2 ^ 64 - (c + 1) + (c + 1)) % 2 ^ 64 > hc.frozenHeaders.length := by omega
  rw [readHeaderRange, if_neg (by omega), descend, hlive _ rfl]
  dsimp only
  rw [if_neg (Nat.succ_ne_zero c), hstart, ancientRange, retrieveItems]
  by_cases hbehind : hc.frozenHeaders.length + (c + 1) ≤ 2 ^ 64
  · rw [if_pos (.inl (by omega))]
    exact iff_of_true rfl (.inl hbehind)
  · rw [if_neg (by omega)]
    rw [if_neg hmod, or_iff_right hbehind]
    by_cases halloc : Allocates S (c + 1)
    · rw [if_neg (not_lt.2 halloc), if_pos (by omega)]
      exact iff_of_true rfl halloc
    · rw [if_pos (not_le.1 halloc)]
      exact iff_of_false nofun halloc

end Canonical

section

variable (C S hc) (chain : Nat → Header) (m c : Nat)

def uncached : List Nat := (numbers m c).dropWhile fun k ↦ (hc.headerCache ((chain k).hash C)).isSome

/-- What a range takes from the freezer: the headers below the cached and the live ones. -/
def frozenPart : List Bytes :=
  ((uncached hc C chain m c).dropWhile (hc.frozenHeaders.length ≤ ·)).map fun k ↦ (chain k).encode

/-- A range that is cached down to genesis goes on behind it, to frozen headers it cannot be read with. -/
def Wraps : Prop :=
  uncached hc C chain m c = [] ∧ m + 1 < c ∧ 2 ^ 64 < hc.frozenHeaders.length + (c - (m + 1)) ∧
    ¬Allocates S (c - (m + 1))

end

/-- **A range of headers is complete exactly if what it takes from the freezer fits** and it does not wrap
around behind genesis. -/
theorem getHeadersFrom_complete_iff (h : Canonical C S hc chain head) (number count : Nat)
    (hnumber : number < 2 ^ 64) (hcount : count < 2 ^ 64) :
    getHeadersFrom S hc number count =
        some ((numbers (min number head) (count - (number - head))).map fun k ↦ (chain k).encode) ↔
      Fits S (frozenPart hc C chain (min number head) (count - (number - head))) ∧
        ¬Wraps S hc C chain (min number head) (count - (number - head)) := by
  have hhead := h.head_lt
  have hcurrent : hc.currentHeader.number % 2 ^ 64 = head := by rw [h.current]; omega
  have hle : min number head ≤ head := min_le_right ..
  have hc' : (if head < number then count - (number - head) else count) = count - (number - head) := by
    split <;> omega
  rw [getHeadersFrom, hcurrent]
  dsimp only
  rw [hc', h.canonical _ hle, if_neg (h.hash_ne_zero _ hle), frozenPart, Wraps]
  generalize hcc : count - (number - head) = count' at *
  split
  · next hnone =>
    obtain rfl : count' = 0 := by omega
    simp [Fits, uncached]
  · have hcached : ∀ k ≤ min number head, readCached hc k ((chain k).hash C) =
        if (hc.headerCache ((chain k).hash C)).isSome then some ((chain k).encode, (chain k).parentHash) else none := by
      intro k hk
      rw [readCached]
      cases hcache : hc.headerCache ((chain k).hash C) with
      | none => rfl
      | some hdr => rw [h.cached k (hk.trans hle) hdr hcache]; rfl
    obtain ⟨k, c, hd, hrest⟩ := @descend_spec (readCached hc) chain (fun k ↦ (chain k).hash C)
      (fun k ↦ (hc.headerCache ((chain k).hash C)).isSome) count' (min number head) (by omega) hcached
      (fun k hk ↦ h.parent k (by omega)) (fun _ ↦ by rw [readCached, h.genesis]; rfl)
    have hsplit := congrArg (map fun k ↦ (chain k).encode) (takeWhile_append_dropWhile
      (p := fun k ↦ (hc.headerCache ((chain k).hash C)).isSome) (l := numbers (min number head) count'))
    rw [map_append] at hsplit
    rw [hd, ← hsplit, uncached]
    generalize (takeWhile _ _).map _ = found
    have hmap : ∀ (x : Option (List Bytes)) l, x.map (found ++ ·) = some (found ++ l) ↔ x = some l := by
      intro x l
      cases x <;> simp
    dsimp only
    rcases hrest with ⟨hdrop, hleft, hc⟩ | ⟨hdrop, hpos, hk, hgo, -⟩
    · rw [hdrop, dropWhile_nil, map_nil, and_iff_right (show Fits S [] from .inl rfl), ← hleft]
      split
      · next hpos =>
        obtain rfl := hc.resolve_left hpos.ne'
        rw [hmap, h.readHeaderRange_last hpos (by omega)]
        constructor
        · rintro hread ⟨-, -, hwrap, halloc⟩
          exact hread.elim (by omega) halloc
        · intro hwrap
          by_contra hread
          rw [not_or, not_le] at hread
          exact hwrap ⟨rfl, by omega, hread⟩
      · exact iff_of_true (by simp) fun ⟨_, hlt, _⟩ ↦ by omega
    · have hne : numbers k c ≠ [] := by
        rw [numbers]
        simp
        omega
      rw [hdrop, if_pos hpos, hmap, h.readHeaderRange_iff (hk.trans hle), and_iff_left fun hwrap ↦ hne hwrap.1]

namespace Sample

/-- Two headers with something extra, the second one on top of the first. -/
def headers (extra : Bytes) : Nat → Header
  | 0 => ⟨0, 0, 0, 0, 0, 0, 0, 0, 0, 0, 0, 0, extra, 0, 1, none⟩
  | n + 1 => { headers extra n with parentHash := (headers extra n).hash State.Sample.crypto, number := n + 1 }

/-- A table that is not compressed. -/
def plain : Snappy := ⟨id, some, List.length, 2 ^ 48, fun _ ↦ rfl, fun _ ↦ rfl⟩

theorem plain_encode (b : Bytes) : plain.encode b = b := rfl

def frozen (extra : Bytes) : HeaderChain where
  canonicalHash _ := none
  header _ _ := []
  frozenHashes := [0, 1].map fun k ↦ (headers extra k).hash State.Sample.crypto
  frozenHeaders := [0, 1].map fun k ↦ (headers extra k).encode
  headerCache _ := none
  currentHeader := headers extra 1

theorem headers_fit {extra : Bytes} (h : extra = [] ∨ extra = replicate 700 0) (k : Nat) (hk : k ≤ 1) :
    (headers extra k).encode.length < 2 ^ 64 ∧ (headers extra k).hash State.Sample.crypto ≠ 0 := by
  obtain rfl | rfl := h <;> obtain rfl | rfl := Nat.le_one_iff_eq_zero_or_eq_one.1 hk <;>
    simp only [headers, Header.hash, Header.encode, bloomBytes_zero] <;> decide +kernel

theorem canonical_frozen {extra : Bytes} (h : extra = [] ∨ extra = replicate 700 0) :
    Canonical State.Sample.crypto plain (frozen extra) (headers extra) 1 where
  current := rfl
  head_lt := by decide
  parent k hk := rfl
  length k hk := (headers_fit h k hk).1
  canonical k hk := by obtain rfl | rfl := Nat.le_one_iff_eq_zero_or_eq_one.1 hk <;> rfl
  hash_ne_zero k hk := (headers_fit h k hk).2
  frozen_le := le_rfl
  frozen k hk := by
    rw [plain_encode]
    obtain rfl | rfl := Nat.le_one_iff_eq_zero_or_eq_one.1 (Nat.le_of_lt_succ hk) <;> rfl
  live k hk hle := by
    have hk' : 2 ≤ k := hk
    omega
  cached k hk hdr hmem := by cases hmem
  genesis := rfl
  last := rfl

end Sample

open Sample

/-- Two headers that fit are served. -/
theorem getHeadersFrom_small_headers : getHeadersFrom plain (frozen []) 1 2 =
    some ([1, 0].map fun k ↦ (headers [] k).encode) := by
  have hfits : Fits plain [(headers [] 1).encode, (headers [] 0).encode] := by
    refine .inr ?_
    simp only [headers, Header.hash, Header.encode, bloomBytes_zero]
    decide +kernel
  exact (getHeadersFrom_complete_iff (canonical_frozen (.inl rfl)) 1 2 (by decide) (by decide)).2
    ⟨hfits, fun h ↦ absurd h.2.1 (by decide)⟩

/-- Two frozen headers of more than 700 bytes are not served together. -/
theorem getHeadersFrom_drops_large_headers :
    Canonical State.Sample.crypto plain (frozen (List.replicate 700 0))
        (headers (List.replicate 700 0)) 1 ∧
      getHeadersFrom plain (frozen (List.replicate 700 0)) 1 2 = some [] := by
  refine ⟨canonical_frozen (.inr rfl), ?_⟩
  simp only [frozen, headers, Header.hash, Header.encode, bloomBytes_zero, map_cons, map_nil]
  decide +kernel

end GoEntropy.HeaderRange
