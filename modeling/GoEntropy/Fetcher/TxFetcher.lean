import GoEntropy.Common.Bytes

/-!
# Announcements of transactions

The transaction fetcher keeps the hashes that its peers have announced: those it waits for, those it may
request and those it has requested. A peer should not be able to announce more than `maxTxAnnounces` of
them. An announcement that goes over the limit is cut, but to the number of hashes that are too many
rather than to the number that there is room for.

The loop over the hashes of a peer visits them in any order, which is an argument here.
-/

namespace GoEntropy.Fetcher

def maxTxAnnounces : Nat := 4096

def maxTxRetrievals : Nat := 256

/-- `TxFetcher`. A missing inner map is a nil map. An entry of `alternates` can be there and be nil. -/
structure TxFetcher where
  waitlist : Hash → Option (Finset String)
  waitslots : String → Option (Finset Hash)
  announces : String → Option (Finset Hash)
  announced : Hash → Option (Finset String)
  fetching : Hash → Option String
  requests : String → Option (List Hash)
  alternates : Hash → Option (Option (Finset String))

section Sets

variable {κ α : Type} [DecidableEq κ] [DecidableEq α]

/-- Add to an inner map, which is made if it is not there. -/
def put (m : κ → Option (Finset α)) (k : κ) (x : α) : κ → Option (Finset α) :=
  Function.update m k (some (insert x ((m k).getD ∅)))

def size (m : κ → Option (Finset α)) (k : κ) : Nat := ((m k).getD ∅).card

theorem size_put_le (m : κ → Option (Finset α)) (k : κ) (x : α) : size (put m k x) k ≤ size m k + 1 := by
  rw [size, put, Function.update_self]
  exact Finset.card_insert_le _ _

end Sets

namespace TxFetcher

variable (f : TxFetcher) (peer : String)

def new : TxFetcher :=
  ⟨fun _ ↦ none, fun _ ↦ none, fun _ ↦ none, fun _ ↦ none, fun _ ↦ none, fun _ ↦ none, fun _ ↦ none⟩

/-- The hashes that a peer has waiting or announced. -/
def used : Nat := size f.waitslots peer + size f.announces peer

/-- A hash of an announcement, by the stage it is in. -/
def schedule (hash : Hash) : TxFetcher :=
  match (f.alternates hash).join with
  | some origins =>
    { f with
      alternates := Function.update f.alternates hash (some (some (insert peer origins)))
      announces := put f.announces peer hash }
  | none =>
    if (f.announced hash).isSome then
      { f with announced := put f.announced hash peer, announces := put f.announces peer hash }
    else { f with waitlist := put f.waitlist hash peer, waitslots := put f.waitslots peer hash }

/-- The rounds of the inner loop of `scheduleFetches`, with the hashes allocated so far. There is no
result if it panics. -/
def allocate : (order hashes : List Hash) → TxFetcher → Option (List Hash × TxFetcher)
  | [], hashes, f => some (hashes, f)
  | hash :: order, hashes, f =>
    if (f.fetching hash).isSome then allocate order hashes f
    else if (f.alternates hash).isSome then none
    else
      let f :=
        { f with
          fetching := Function.update f.fetching hash (some peer)
          alternates := Function.update f.alternates hash (some (f.announced hash))
          announced := Function.update f.announced hash none }
      if maxTxRetrievals ≤ hashes.length + 1 then some (hashes ++ [hash], f)
      else allocate order (hashes ++ [hash]) f

/-- `scheduleFetches` for one peer. -/
def scheduleFetches (order : List Hash) : Option TxFetcher :=
  if (f.requests peer).isSome ∨ size f.announces peer = 0 then some f
  else (allocate peer order [] f).map fun (hashes, f) ↦
    if hashes ≠ [] then { f with requests := Function.update f.requests peer (some hashes) } else f

/-- The hashes of an announcement that are scheduled. -/
def considered (hashes : List Hash) : List Hash :=
  if maxTxAnnounces ≤ f.used peer then []
  else
    let want := f.used peer + hashes.length
    if maxTxAnnounces < want then hashes.take (want - maxTxAnnounces) else hashes

/-- The announcement case of the loop. -/
def announce (hashes order : List Hash) : Option TxFetcher :=
  if maxTxAnnounces ≤ f.used peer then some f
  else
    let f' := (f.considered peer hashes).foldl (fun f hash ↦ f.schedule peer hash) f
    if (f.announces peer).isNone ∧ 0 < size f'.announces peer then f'.scheduleFetches peer order
    else some f'

variable {f peer} {f' : TxFetcher} {hashes order : List Hash}

variable (f peer) in
theorem used_schedule_le (hash : Hash) : (f.schedule peer hash).used peer ≤ f.used peer + 1 := by
  have hannounces := size_put_le f.announces peer hash
  have hwaitslots := size_put_le f.waitslots peer hash
  unfold schedule used
  split
  · dsimp only
    omega
  · split <;> dsimp only <;> omega

theorem used_foldl_le (hashes : List Hash) (f : TxFetcher) :
    (hashes.foldl (fun f hash ↦ f.schedule peer hash) f).used peer ≤ f.used peer + hashes.length := by
  induction hashes generalizing f with
  | nil => exact le_rfl
  | cons hash hashes ih =>
    have hfirst := f.used_schedule_le peer hash
    have hrest := ih (f.schedule peer hash)
    rw [List.foldl_cons, List.length_cons]
    omega

theorem used_allocate {hashes' : List Hash} (h : allocate peer order hashes f = some (hashes', f')) :
    f'.used peer = f.used peer := by
  induction order generalizing hashes f with
  | nil =>
    cases h
    rfl
  | cons hash order ih =>
    unfold allocate at h
    split at h
    · exact ih h
    split at h
    · cases h
    dsimp only at h
    split at h
    · cases h
      rfl
    · exact (ih h).trans rfl

theorem used_scheduleFetches (h : f.scheduleFetches peer order = some f') : f'.used peer = f.used peer := by
  unfold scheduleFetches at h
  split at h
  · cases h
    rfl
  · obtain ⟨⟨hashes, f₁⟩, hallocate, rfl⟩ := Option.map_eq_some_iff.1 h
    rw [← used_allocate hallocate]
    dsimp only
    split <;> rfl

theorem used_announce_le (h : f.announce peer hashes order = some f') :
    f'.used peer ≤ f.used peer + (f.considered peer hashes).length := by
  unfold announce at h
  split at h
  · cases h
    exact Nat.le_add_right _ _
  dsimp only at h
  split at h
  · rw [used_scheduleFetches h]
    exact used_foldl_le _ _
  · cases h
    exact used_foldl_le _ _

/-- The cut leaves as many hashes as there is room for in these cases only. -/
theorem considered_eq_take_iff : f.considered peer hashes = hashes.take (maxTxAnnounces - f.used peer) ↔
    maxTxAnnounces ≤ f.used peer ∨ f.used peer + hashes.length ≤ maxTxAnnounces ∨
      2 * (maxTxAnnounces - f.used peer) = hashes.length := by
  unfold considered
  split
  · next hfull => simp [Nat.sub_eq_zero_of_le hfull, hfull]
  dsimp only
  split
  · constructor
    · intro h
      have hlen := congrArg List.length h
      rw [List.length_take, List.length_take] at hlen
      omega
    · intro h
      rw [show f.used peer + hashes.length - maxTxAnnounces = maxTxAnnounces - f.used peer by omega]
  · rw [List.take_of_length_le (by omega)]
    exact iff_of_true rfl (by omega)

variable (f peer) in
/-- **The limit.** A peer stays within the limit, with as many hashes scheduled as there is room for,
exactly if there is no room, or room for all hashes, or room for half of them. -/
theorem announce_within_limit_iff (hashes : List Hash) :
    ((∀ order f', f.announce peer hashes order = some f' →
          f'.used peer ≤ max (f.used peer) maxTxAnnounces) ∧
        f.considered peer hashes = hashes.take (maxTxAnnounces - f.used peer)) ↔
      maxTxAnnounces ≤ f.used peer ∨ f.used peer + hashes.length ≤ maxTxAnnounces ∨
        2 * (maxTxAnnounces - f.used peer) = hashes.length := by
  rw [← considered_eq_take_iff]
  refine and_iff_right_of_imp fun h order f' hf' ↦ ?_
  have hle := used_announce_le hf'
  rw [h, List.length_take] at hle
  omega

/-- Of 4097 hashes that a new peer announces, all but the first are dropped. -/
theorem announce_keeps_one : ∃ hashes : List Hash,
    hashes.length = 4097 ∧ new.used "" = 0 ∧ (new.considered "" hashes).length = 1 := by
  obtain ⟨hashes, hlen⟩ : ∃ hashes : List Hash, hashes.length = 4097 :=
    ⟨List.replicate 4097 0, List.length_replicate⟩
  exact ⟨hashes, hlen, rfl, by simp [considered, used, size, new, maxTxAnnounces, hlen]⟩

end TxFetcher

end GoEntropy.Fetcher
