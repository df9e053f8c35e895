import GoEntropy.Chain.Block

/-!
# The hashes of ancestors

`GetHashFn` returns a closure that looks up the hashes of the ancestors of a block. It keeps the hashes
that it has met: the last of them is where the next walk along the parent links starts. That the answers
do not depend on earlier queries is an invariant of this cache: it has the hashes of the nearest
ancestors (`Cached`).
-/

namespace GoEntropy.Chain

section GetHashFn

variable (getHeader : Hash → Nat → Option Header) (ref : Header)

/-- The loop: the answer and the cache, unless it runs for more than the given rounds. -/
def walkBack (n : Nat) : (rounds : Nat) → (cache : List Hash) → (lastKnownHash : Hash) →
    (lastKnownNumber : Nat) → Option (Hash × List Hash)
  | 0, _, _, _ => none
  | rounds + 1, cache, lastKnownHash, lastKnownNumber =>
    match getHeader lastKnownHash lastKnownNumber with
    | none => some (0, cache)
    | some header =>
      let number := sub64 (wrap64 header.number) 1
      if n = number then some (header.parentHash, cache ++ [header.parentHash])
      else walkBack n rounds (cache ++ [header.parentHash]) header.parentHash number

/-- The closure of `GetHashFn`: the answer and the cache afterwards. -/
def getHashFn (rounds : Nat) (cache : List Hash) (n : Nat) : Option (Hash × List Hash) :=
  if wrap64 ref.number ≤ n then some (0, cache)
  else
    let cache := if cache.length = 0 then [ref.parentHash] else cache
    match cache[wrap64 ref.number - n - 1]? with
    | some hash => some (hash, cache)
    | none =>
      walkBack getHeader n rounds cache (cache.getLastD 0) (sub64 (wrap64 ref.number) cache.length)

def getHashes (rounds : Nat) : (cache : List Hash) → List Nat → Option (List Hash)
  | _, [] => some []
  | cache, n :: ns => do
    let (hash, cache) ← getHashFn getHeader ref rounds cache n
    let hashes ← getHashes rounds cache ns
    return hash :: hashes

/-- The ancestors of a header are available, and have the given hashes by height. -/
structure Ancestry (hashes : Nat → Hash) : Prop where
  /-- Headers are looked up by a `uint64`. -/
  number_lt : ref.number < 2 ^ 64
  parentHash : ∀ n, ref.number = n + 1 → ref.parentHash = hashes n
  header : ∀ n, n + 1 < ref.number → ∃ header, getHeader (hashes (n + 1)) (n + 1) = some header ∧
    header.number = n + 1 ∧ header.parentHash = hashes n

variable {getHeader ref} {hashes : Nat → Hash} {cache : List Hash} {n m rounds : Nat}

/-- The cache has the hashes of the nearest ancestors, the parent first. -/
def Cached (ref : Header) (hashes : Nat → Hash) (cache : List Hash) : Prop :=
  cache.length ≤ ref.number ∧ ∀ i < cache.length, cache[i]? = some (hashes (ref.number - 1 - i))

theorem Cached.nil (ref : Header) (hashes : Nat → Hash) : Cached ref hashes [] :=
  ⟨Nat.zero_le _, by simp⟩

theorem Cached.concat (h : Cached ref hashes cache) (hm : cache.length + m + 1 = ref.number) :
    Cached ref hashes (cache ++ [hashes m]) := by
  refine ⟨by simp; omega, fun i hi ↦ ?_⟩
  rw [List.length_append, List.length_singleton, Nat.lt_succ_iff_lt_or_eq] at hi
  obtain hi | rfl := hi
  · rw [List.getElem?_append_left hi, h.2 i hi]
  · rw [List.getElem?_concat_length, show ref.number - 1 - cache.length = m by omega]

variable (h : Ancestry getHeader ref hashes)

include h

theorem walkBack_eq (hc : Cached ref hashes cache) (hne : cache ≠ [])
    (hm : cache.length + m + 1 = ref.number) (hn : n ≤ m) (hrounds : m < n + rounds) :
    ∃ cache', walkBack getHeader n rounds cache (hashes (m + 1)) (m + 1) = some (hashes n, cache') ∧
      Cached ref hashes cache' := by
  induction rounds generalizing m cache with
  | zero => omega
  | succ rounds ih =>
    have hpos := List.length_pos_iff.2 hne
    have hlt := h.number_lt
    obtain ⟨header, hget, hnumber, hparent⟩ := h.header m (by omega)
    have hstep : sub64 (wrap64 (m + 1)) 1 = m := by
      rw [wrap64_of_lt (by omega), sub64_of_le (by omega) (by omega), Nat.add_sub_cancel]
    have hconcat := hc.concat hm
    simp only [walkBack, hget, hnumber, hparent, hstep]
    split
    · next heq => exact ⟨_, by rw [heq], hconcat⟩
    · obtain ⟨m, rfl⟩ := Nat.exists_eq_succ_of_ne_zero (show m ≠ 0 by omega)
      exact ih hconcat (by simp) (by simp; omega) (by omega) (by omega)

theorem getHashFn_eq (hrounds : ref.number ≤ rounds) (hc : Cached ref hashes cache) (n : Nat) :
    ∃ cache', Cached ref hashes cache' ∧ getHashFn getHeader ref rounds cache n =
      some (if n < ref.number then hashes n else 0, cache') := by
  have hlt := h.number_lt
  unfold getHashFn
  rw [wrap64_of_lt hlt]
  split
  · exact ⟨cache, hc, by rw [if_neg (by omega)]⟩
  next hn =>
  rw [if_pos (Nat.not_le.1 hn)]
  obtain ⟨known, hc, hne, hknown⟩ : ∃ known, Cached ref hashes known ∧ known ≠ [] ∧
      (if cache.length = 0 then [ref.parentHash] else cache) = known := by
    split
    · rw [h.parentHash (ref.number - 1) (by omega)]
      exact ⟨_, Cached.concat (.nil ref hashes) (by simp; omega), by simp, rfl⟩
    · next hlen => exact ⟨cache, hc, by simpa using hlen, rfl⟩
  have hpos := List.length_pos_iff.2 hne
  have hle := hc.1
  simp only [hknown]
  by_cases hcached : ref.number - n - 1 < known.length
  · rw [hc.2 _ hcached, show ref.number - 1 - (ref.number - n - 1) = n by omega]
    exact ⟨known, hc, rfl⟩
  · obtain ⟨m, hm⟩ : ∃ m, known.length + m + 1 = ref.number :=
      ⟨ref.number - 1 - known.length, by omega⟩
    obtain ⟨cache', hwalk, hc'⟩ :=
      walkBack_eq h hc hne hm (show n ≤ m by omega) (show m < n + rounds by omega)
    have hlast : known.getLastD 0 = hashes (m + 1) := by
      rw [List.getLastD_eq_getLast?, List.getLast?_eq_getElem?, hc.2 _ (by omega),
        show ref.number - 1 - (known.length - 1) = m + 1 by omega]
      rfl
    rw [List.getElem?_eq_none (by omega), hlast, sub64_of_le hle hlt,
      show ref.number - known.length = m + 1 by omega]
    exact ⟨cache', hc', hwalk⟩

/-- **Lookups do not depend on earlier ones.** Every sequence of queries is answered, the query for `n`
with the hash of the ancestor at this height, or with zero if the block itself is not higher. -/
theorem getHashes_eq (hrounds : ref.number ≤ rounds) (ns : List Nat) :
    getHashes getHeader ref rounds [] ns =
      some (ns.map fun n ↦ if n < ref.number then hashes n else 0) := by
  have hc := Cached.nil ref hashes
  generalize ([] : List Hash) = cache at hc
  induction ns generalizing cache with
  | nil => rfl
  | cons n ns ih =>
    obtain ⟨cache', hc', hquery⟩ := getHashFn_eq h hrounds hc n
    simp [getHashes, hquery, ih _ hc']

end GetHashFn

/-- A block at height three, whose ancestors have their heights as hashes. -/
theorem getHashes_of_three : ∃ (getHeader : Hash → Nat → Option Header) (ref : Header),
    getHashes getHeader ref 3 [] [1, 0, 2, 3] = some [1, 0, 2, 0] := by
  let header (n : Nat) : Header :=
    ⟨BitVec.ofNat 256 (n - 1), 0, 0, 0, 0, 0, 0, 0, n, 0, 0, 0, [], 0, 0, none⟩
  have h : Ancestry (fun _ n ↦ some (header n)) (header 3) (BitVec.ofNat 256) :=
    ⟨by decide, fun n hn ↦ by cases hn; rfl, fun n _ ↦ ⟨_, rfl, rfl, rfl⟩⟩
  exact ⟨_, _, getHashes_eq h le_rfl [1, 0, 2, 3]⟩

end GoEntropy.Chain
