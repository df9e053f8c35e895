import GoEntropy.Consensus.Voting

/-!
# The replay of headers

What a snapshot says is the outcome of the headers that were replayed (`Tracks`): its votes are those of
headers of the current epoch, and its recent signers are the signers of the last blocks. One header
keeps that (`Tracks.applyHeader`), and so does every replay (`Reachable.tracks`).

The bound on the recent blocks has to survive a change of the number of signers. The window of a
longer list of signers is the wider one, so nothing has to be done; if the list shrinks the window may
shrink by one block, which is the block that the replay deletes.
-/

namespace GoEntropy.Clique

open GoEntropy.Chain (Header)
open GoEntropy.Container List Voting

variable {C : Crypto} {snap next : Voting} {header : Header} {a : Address} {number : Nat}
  {hs headers : List Header}

/-! ## Recent signers -/

/-- A block is deleted from the recent ones as soon as it falls out of the window. -/
theorem lookup_dropRecent {n : Nat} {x : Address} :
    (snap.dropRecent number).recents.lookup n = some x ↔
      snap.recents.lookup n = some x ∧ n + snap.limit ≠ number := by
  rw [dropRecent]
  split
  · next hle =>
    rw [lookup_erase_eq_ite]
    split
    · next heq =>
      refine iff_of_false (by simp) fun h ↦ h.2 ?_
      omega
    · next hne =>
      refine (and_iff_left ?_).symm
      omega
  · next hlt =>
    refine (and_iff_left ?_).symm
    omega

theorem dropRecent_congr (hsigners : next.signers = snap.signers) (hrecents : next.recents = snap.recents)
    (number : Nat) : (next.dropRecent number).recents = (snap.dropRecent number).recents := by
  by_cases hle : snap.limit ≤ number
  · have hle' : next.limit ≤ number := by rwa [limit, hsigners]
    rw [dropRecent, dropRecent, if_pos hle, if_pos hle', limit, hsigners, hrecents]
    rfl
  · have hle' : ¬ next.limit ≤ number := by rwa [limit, hsigners]
    rw [dropRecent, dropRecent, if_neg hle, if_neg hle', hrecents]

theorem isRecent_iff {x : Address} : snap.isRecent x = true ↔ ∃ n, snap.recents.lookup n = some x := by
  rw [isRecent, any_eq_true]
  constructor
  · rintro ⟨⟨n, y⟩, hmem, heq⟩
    exact ⟨n, eq_of_beq heq ▸ mem_entries_iff.1 hmem⟩
  · rintro ⟨n, hn⟩
    exact ⟨⟨n, x⟩, mem_entries_iff.2 hn, beq_self_eq_true x⟩

/-! ## One header -/

/-- What the replay of one header does, up to the change of the list of signers. -/
theorem Valid.applyHeader (h : Valid snap) (happly : snap.applyHeader C header = .ok next) :
    ∃ signer authorize mid, ecrecover C header = .ok signer ∧ signer ∈ snap.signers ∧
      (snap.dropRecent (wrap64 header.number)).isRecent signer = false ∧
      authorizes header.nonce = some authorize ∧ Valid mid ∧ mid.config = snap.config ∧
      mid.signers = snap.signers ∧
      mid.recents = (snap.dropRecent (wrap64 header.number)).recents.insert (wrap64 header.number) signer ∧
      (∀ v ∈ mid.votes, (v ∈ snap.votes ∧ wrap64 header.number % snap.config.epoch ≠ 0 ∧
          ¬ (v.signer = signer ∧ v.address = header.coinbase)) ∨
        v = ⟨signer, wrap64 header.number, header.coinbase, authorize⟩) ∧
      (snap.validVote header.coinbase authorize = true →
        ⟨signer, wrap64 header.number, header.coinbase, authorize⟩ ∈ mid.votes) ∧
      next = mid.enact (wrap64 header.number) header.coinbase := by
  obtain ⟨votes, tally, hclear, hvalid, hsub, hepoch⟩ := h.clearVotes (wrap64 header.number)
  have hdrop : (snap.clearVotes (wrap64 header.number)).dropRecent (wrap64 header.number) =
      { snap with
        recents := (snap.dropRecent (wrap64 header.number)).recents, votes := votes, tally := tally } := by
    rw [hclear, dropRecent_eq, @dropRecent_congr snap { snap with votes := votes, tally := tally } rfl rfl]
  simp only [Voting.applyHeader, hdrop] at happly
  cases hrecover : ecrecover C header with
  | error err =>
    rw [hrecover] at happly
    cases happly
  | ok signer =>
    rw [hrecover] at happly
    simp only at happly
    split at happly
    · cases happly
    next hsigner =>
    rw [not_not] at hsigner
    split at happly
    · cases happly
    next hrecent =>
    have hsigned : Valid { snap with
        recents := (snap.dropRecent (wrap64 header.number)).recents.insert (wrap64 header.number) signer,
        votes := votes, tally := tally } :=
      ⟨hvalid.counted, hvalid.unique, hvalid.voters, hvalid.meaningful⟩
    obtain ⟨votes', tally', hdiscard, hvalid', hsub', hnone⟩ := hsigned.discardVote signer header.coinbase
    rw [hdiscard] at happly
    cases hauth : authorizes header.nonce with
    | none =>
      rw [hauth] at happly
      cases happly
    | some authorize =>
      simp only [hauth] at happly
      obtain ⟨votes'', tally'', hcast, hvalid'', hsub'', hmem⟩ :=
        @Valid.castVote _ ⟨signer, wrap64 header.number, header.coinbase, authorize⟩ hvalid' hsigner hnone
      rw [hcast] at happly
      refine ⟨signer, authorize, _, rfl, hsigner, ?_, rfl, hvalid'', rfl, rfl, rfl, fun v hv ↦ ?_, hmem,
        (Except.ok.inj happly).symm⟩
      · rwa [Bool.not_eq_true] at hrecent
      · obtain hv | hv := mem_append.1 (hsub'' hv)
        · refine .inl ⟨hsub (hsub' hv), fun hzero ↦ ?_, hnone v hv⟩
          have hv' : v ∈ votes := hsub' hv
          rw [hepoch hzero] at hv'
          cases hv'
        · exact .inr (mem_singleton.1 hv)

/-! ## Histories -/

/-- The header of a block, the first header of a history being that of block one. -/
def headerOf (hs : List Header) : Nat → Option Header
  | 0 => none
  | n + 1 => hs[n]?

theorem headerOf_append {n : Nat} {g : Header} (h : headerOf hs n = some g) (l : List Header) :
    headerOf (hs ++ l) n = some g := by
  cases n with
  | zero => cases h
  | succ n =>
    have hlt := (List.getElem?_eq_some_iff.1 h).1
    exact (getElem?_append_left hlt).trans h

theorem le_length_of_headerOf {n : Nat} {g : Header} (h : headerOf hs n = some g) : n ≤ hs.length := by
  cases n with
  | zero => cases h
  | succ n => exact (List.getElem?_eq_some_iff.1 h).1

/-- A snapshot is the outcome of a history of headers. -/
structure Tracks (C : Crypto) (hs : List Header) (snap : Voting) : Prop where
  valid : Valid snap
  window : ∀ n x, snap.recents.lookup n = some x → hs.length < n + snap.limit
  recent : ∀ n x, snap.recents.lookup n = some x → ∃ g, headerOf hs n = some g ∧ ecrecover C g = .ok x
  distinct : ∀ n m x, snap.recents.lookup n = some x → snap.recents.lookup m = some x → n = m
  cast : ∀ v ∈ snap.votes, v.block / snap.config.epoch = hs.length / snap.config.epoch ∧
    ∃ g, headerOf hs v.block = some g ∧ ecrecover C g = .ok v.signer ∧ g.coinbase = v.address ∧
      Voting.authorizes g.nonce = some v.authorize

/-- More than half of the signers voted, since the last epoch boundary, for a change of an address. -/
def Majority (C : Crypto) (hs : List Header) (snap : Voting) (a : Address) : Prop :=
  ∃ voters ⊆ snap.signers, snap.signers.card < 2 * voters.card ∧
    ∀ x ∈ voters, ∃ n g, headerOf hs n = some g ∧
      hs.length / snap.config.epoch * snap.config.epoch ≤ n ∧ ecrecover C g = .ok x ∧ g.coinbase = a ∧
      Voting.authorizes g.nonce = some (decide (a ∉ snap.signers))

theorem Tracks.majority (h : Tracks C hs snap) (hpassed : snap.Passed a) : Majority C hs snap a := by
  have hmem : ∀ v, v ∈ snap.votes.filter (fun v ↦ v.address == a) ↔ v ∈ snap.votes ∧ v.address = a :=
    fun v ↦ by rw [mem_filter, beq_iff_eq]
  have hnodup : ((snap.votes.filter fun v ↦ v.address == a).map Vote.signer).Nodup := by
    refine pairwise_map.2 ((h.valid.unique.filter _).imp_of_mem ?_)
    intro v w hv hw hne hsame
    exact hne ⟨hsame, ((hmem v).1 hv).2.trans ((hmem w).1 hw).2.symm⟩
  refine ⟨((snap.votes.filter fun v ↦ v.address == a).map Vote.signer).toFinset, ?_, ?_, ?_⟩
  · intro x hx
    obtain ⟨v, hv, rfl⟩ := mem_map.1 (mem_toFinset.1 hx)
    exact h.valid.voters v ((hmem v).1 hv).1
  · rw [Voting.Passed, countP_eq_length_filter] at hpassed
    rw [toFinset_card_of_nodup hnodup, length_map]
    omega
  · intro x hx
    obtain ⟨v, hv, rfl⟩ := mem_map.1 (mem_toFinset.1 hx)
    obtain ⟨hv, hva⟩ := (hmem v).1 hv
    obtain ⟨hepoch, g, hg, hsigner, hcoinbase, hauth⟩ := h.cast v hv
    refine ⟨v.block, g, hg, ?_, hsigner, hcoinbase.trans hva, ?_⟩
    · rw [← hepoch]
      exact Nat.div_mul_le_self _ _
    · rw [hauth, Option.some.injEq, Bool.eq_iff_iff, decide_eq_true_eq, h.valid.meaningful v hv, hva]

/-- The list of signers changes by a majority, and the window with it. -/
theorem Tracks.enact (h : Tracks C hs snap) (a : Address) :
    Tracks C hs (snap.enact hs.length a) ∧ (snap.enact hs.length a).config = snap.config ∧
      ∀ b, ¬ (b ∈ snap.signers ↔ b ∈ (snap.enact hs.length a).signers) → Majority C hs snap b := by
  obtain ⟨hvalid, hvotes, hcases⟩ := h.valid.enact hs.length a
  have hconfig : (snap.enact hs.length a).config = snap.config := enact_config snap hs.length a
  obtain ⟨heq, -⟩ | hcases := hcases
  · rw [heq]
    exact ⟨h, rfl, fun b ↦ absurd .rfl⟩
  have hchange : snap.Passed a ∧ (∀ n x, (snap.enact hs.length a).recents.lookup n = some x →
      snap.recents.lookup n = some x ∧ hs.length < n + (snap.enact hs.length a).limit) ∧
      ∀ b, b ≠ a → (b ∈ snap.signers ↔ b ∈ (snap.enact hs.length a).signers) := by
    obtain ⟨hpassed, -, hsigners, hrecents⟩ | ⟨hpassed, hin, hsigners, hrecents⟩ := hcases
    · -- the window does not shrink
      refine ⟨hpassed, fun n x hn ↦ ?_, fun b hb ↦ by rw [hsigners, Finset.mem_insert, or_iff_right hb]⟩
      rw [hrecents] at hn
      have hbound := h.window n x hn
      have hcard := Finset.card_le_card (Finset.subset_insert a snap.signers)
      rw [limit] at hbound ⊢
      rw [hsigners]
      exact ⟨hn, by omega⟩
    · -- the window shrinks by at most the block that was deleted
      refine ⟨hpassed, fun n x hn ↦ ?_, fun b hb ↦ by rw [hsigners, Finset.mem_erase, and_iff_right hb]⟩
      rw [hrecents] at hn
      obtain ⟨hold, hne⟩ := lookup_dropRecent.1 hn
      have hbound := h.window n x hold
      have hcard := Finset.card_erase_of_mem hin
      rw [limit] at hbound hne ⊢
      rw [hsigners]
      rw [hcard] at hne
      exact ⟨hold, by omega⟩
  obtain ⟨hpassed, hlookup, hsame⟩ := hchange
  refine ⟨⟨hvalid, fun n x hn ↦ (hlookup n x hn).2, fun n x hn ↦ h.recent n x (hlookup n x hn).1,
    fun n m x hn hm ↦ h.distinct n m x (hlookup n x hn).1 (hlookup m x hm).1, fun v hv ↦ ?_⟩, hconfig,
    fun b hb ↦ ?_⟩
  · rw [hconfig]
    exact h.cast v (hvotes hv)
  · obtain rfl : b = a := by_contra fun hne ↦ hb (hsame b hne)
    exact h.majority hpassed

/-- **One header** keeps what a snapshot says about the history, and a signer is added or removed only
by a majority. -/
theorem Tracks.applyHeader (h : Tracks C hs snap) (happly : snap.applyHeader C header = .ok next)
    (hnumber : wrap64 header.number = hs.length + 1) :
    Tracks C (hs ++ [header]) next ∧ next.config = snap.config ∧
      ∀ a, ¬ (a ∈ snap.signers ↔ a ∈ next.signers) → Majority C (hs ++ [header]) snap a := by
  obtain ⟨signer, authorize, mid, hrecover, hsigner, hrecent, hauth, hmid, hconfig, hsigners, hrecents,
    hvotes, -, rfl⟩ := h.valid.applyHeader happly
  rw [hnumber] at hrecent hrecents hvotes
  have hlen : (hs ++ [header]).length = hs.length + 1 := length_append
  -- the recent signers before the list of signers changes
  have hlookup : ∀ n x, mid.recents.lookup n = some x → (n = hs.length + 1 ∧ x = signer) ∨
      (snap.recents.lookup n = some x ∧ n + snap.limit ≠ hs.length + 1 ∧ x ≠ signer) := by
    intro n x hn
    rw [hrecents, lookup_insert_eq_ite] at hn
    split at hn
    · next heq => exact .inl ⟨heq, (Option.some.inj hn).symm⟩
    · have hold := lookup_dropRecent.1 hn
      refine .inr ⟨hold.1, hold.2, ?_⟩
      rintro rfl
      rw [isRecent_iff.2 ⟨n, hn⟩] at hrecent
      cases hrecent
  have htracks : Tracks C (hs ++ [header]) mid := by
    refine ⟨hmid, fun n x hn ↦ ?_, fun n x hn ↦ ?_, fun n m x hn hm ↦ ?_, fun v hv ↦ ?_⟩
    · rw [limit, hsigners]
      obtain ⟨rfl, -⟩ | ⟨hold, hne, -⟩ := hlookup n x hn
      · omega
      · have hbound := h.window n x hold
        rw [limit] at hbound hne
        omega
    · obtain ⟨rfl, rfl⟩ | ⟨hold, -, -⟩ := hlookup n x hn
      · exact ⟨header, getElem?_concat_length, hrecover⟩
      · obtain ⟨g, hg, hx⟩ := h.recent n x hold
        exact ⟨g, headerOf_append hg _, hx⟩
    · obtain ⟨rfl, rfl⟩ | ⟨hn, -, hnx⟩ := hlookup n x hn
      · obtain ⟨rfl, -⟩ | ⟨-, -, hmx⟩ := hlookup m x hm
        · rfl
        · exact absurd rfl hmx
      · obtain ⟨-, hmx⟩ | ⟨hm, -, -⟩ := hlookup m x hm
        · exact absurd hmx hnx
        · exact h.distinct n m x hn hm
    · -- the votes: those of the same epoch, and the new one
      rw [hconfig, hlen]
      obtain ⟨hold, hepoch, -⟩ | rfl := hvotes v hv
      · obtain ⟨hsame, g, hg, hrest⟩ := h.cast v hold
        have hdvd : ¬ snap.config.epoch ∣ hs.length + 1 := fun hd ↦ hepoch (Nat.mod_eq_zero_of_dvd hd)
        rw [Nat.succ_div_of_not_dvd hdvd]
        exact ⟨hsame, g, headerOf_append hg _, hrest⟩
      · exact ⟨rfl, header, getElem?_concat_length, hrecover, rfl, hauth⟩
  obtain ⟨hnext, hconfig', hchange⟩ := htracks.enact header.coinbase
  rw [hlen, ← hnumber] at hnext hconfig' hchange
  refine ⟨hnext, hconfig'.trans hconfig, fun b hb ↦ ?_⟩
  obtain ⟨voters, hsub, hmajority⟩ := hchange b (by rwa [hsigners])
  rw [hsigners] at hsub hmajority
  rw [hconfig] at hmajority
  exact ⟨voters, hsub, hmajority⟩

/-! ## Whole replays -/

section Runs

variable {s s' genesis : Snapshot}

theorem applyHeaders_cons_ok_iff {v v' : Voting} : v.applyHeaders C (header :: headers) = .ok v' ↔
    ∃ next, v.applyHeader C header = .ok next ∧ next.applyHeaders C headers = .ok v' := by
  rw [applyHeaders]
  cases v.applyHeader C header <;> simp

theorem apply_cons_ok_iff : s.apply C (header :: headers) = .ok s' ↔
    (header :: headers).IsChain (fun h h' ↦ wrap64 h'.number = add64 (wrap64 h.number) 1) ∧
      wrap64 header.number = add64 s.number 1 ∧ ∃ next, s.toVoting.applyHeaders C (header :: headers) = .ok next ∧
        s' = ⟨next, add64 s.number (headers.length + 1), (headers.getLast?.getD header).hash C⟩ := by
  rw [Snapshot.apply, head?_cons, getLast?_cons]
  simp only
  by_cases hchain : (header :: headers).IsChain fun h h' ↦ wrap64 h'.number = add64 (wrap64 h.number) 1
  · by_cases hfirst : wrap64 header.number = add64 s.number 1
    · rw [if_neg (not_not.2 hchain), if_neg (not_not.2 hfirst)]
      cases hrun : s.toVoting.applyHeaders C (header :: headers) with
      | error err => exact iff_of_false nofun fun ⟨_, _, next, hnext, _⟩ ↦ by cases hnext
      | ok next =>
        constructor
        · rintro ⟨⟩
          exact ⟨hchain, hfirst, next, rfl, rfl⟩
        · rintro ⟨-, -, next, ⟨⟩, rfl⟩
          rfl
    · rw [if_neg (not_not.2 hchain), if_pos hfirst]
      exact iff_of_false nofun fun h ↦ hfirst h.2.1
  · rw [if_pos hchain]
    exact iff_of_false nofun fun h ↦ hchain h.1

theorem apply_singleton_ok_iff : s.apply C [header] = .ok s' ↔
    wrap64 header.number = add64 s.number 1 ∧ ∃ next, s.toVoting.applyHeader C header = .ok next ∧
      s' = ⟨next, add64 s.number 1, header.hash C⟩ := by
  have hrun : ∀ next, s.toVoting.applyHeaders C [header] = .ok next ↔ s.toVoting.applyHeader C header = .ok next := by
    intro next
    rw [applyHeaders_cons_ok_iff]
    exact ⟨fun ⟨_, hone, hnil⟩ ↦ Except.ok.inj hnil ▸ hone, fun hone ↦ ⟨next, hone, rfl⟩⟩
  simp only [apply_cons_ok_iff, hrun]
  exact and_iff_right (.singleton _)

theorem apply_cons (h : s.apply C (header :: headers) = .ok s') :
    ∃ s₁, s.apply C [header] = .ok s₁ ∧ s₁.apply C headers = .ok s' := by
  obtain ⟨hchain, hfirst, next, hrun, rfl⟩ := apply_cons_ok_iff.1 h
  obtain ⟨one, hone, hrest⟩ := applyHeaders_cons_ok_iff.1 hrun
  refine ⟨⟨one, add64 s.number 1, header.hash C⟩, apply_singleton_ok_iff.2 ⟨hfirst, one, hone, rfl⟩, ?_⟩
  cases headers with
  | nil =>
    cases hrest
    rfl
  | cons second rest =>
    obtain ⟨hsecond, hchain⟩ := isChain_cons_cons.1 hchain
    refine apply_cons_ok_iff.2 ⟨hchain, hfirst ▸ hsecond, next, hrest, ?_⟩
    have hnumber : add64 s.number ((second :: rest).length + 1) = add64 (add64 s.number 1) (rest.length + 1) := by
      simp only [add64, wrap64, length_cons, Nat.mod_add_mod]
      congr 1
      omega
    rw [hnumber, getLast?_cons, Option.getD_some]

theorem apply_of_cons {s₁ : Snapshot} (hone : s.apply C [header] = .ok s₁) (h : s₁.apply C headers = .ok s') :
    s.apply C (header :: headers) = .ok s' := by
  cases headers with
  | nil => exact Except.ok.inj h ▸ hone
  | cons second rest =>
    obtain ⟨hfirst, next, hnext, rfl⟩ := apply_singleton_ok_iff.1 hone
    obtain ⟨hchain, hsecond, last, hrun, rfl⟩ := apply_cons_ok_iff.1 h
    refine apply_cons_ok_iff.2 ⟨isChain_cons_cons.2 ⟨hfirst ▸ hsecond, hchain⟩, hfirst, last,
      applyHeaders_cons_ok_iff.2 ⟨next, hnext, hrun⟩, ?_⟩
    rw [getLast?_cons, Option.getD_some, length_cons]
    simp only [add64, wrap64, Nat.mod_add_mod, Nat.add_assoc, Nat.add_comm 1]

/-- **A replay can be interrupted anywhere**: from a snapshot that was kept, the headers that are left lead to
what all of them lead to. -/
theorem apply_append_ok_iff {headers' : List Header} : s.apply C (headers ++ headers') = .ok s' ↔
    ∃ s₁, s.apply C headers = .ok s₁ ∧ s₁.apply C headers' = .ok s' := by
  induction headers generalizing s with
  | nil => exact ⟨fun h ↦ ⟨s, rfl, h⟩, fun ⟨_, hnil, h⟩ ↦ Except.ok.inj hnil ▸ h⟩
  | cons header headers ih =>
    constructor
    · intro h
      obtain ⟨s₁, hone, hrest⟩ := apply_cons h
      obtain ⟨s₂, hleft, hright⟩ := ih.1 hrest
      exact ⟨s₂, apply_of_cons hone hleft, hright⟩
    · rintro ⟨s₂, hleft, hright⟩
      obtain ⟨s₁, hone, hrest⟩ := apply_cons hleft
      exact apply_of_cons hone (ih.2 ⟨s₂, hrest, hright⟩)

/-- The snapshots that can be reached from another one, with the headers that were replayed: there are
fewer of them than block numbers. -/
inductive Reachable (C : Crypto) (genesis : Snapshot) : List Header → Snapshot → Prop
  | genesis : Reachable C genesis [] genesis
  | apply {hs headers : List Header} {s s' : Snapshot} (h : Reachable C genesis hs s)
      (happly : s.apply C headers = .ok s') (hfits : (hs ++ headers).length < 2 ^ 64) :
      Reachable C genesis (hs ++ headers) s'

/-- It is enough to look at replays of one header. -/
theorem Reachable.cut {motive : List Header → Snapshot → Prop} (h : Reachable C genesis hs s)
    (hgenesis : motive [] genesis)
    (hstep : ∀ hs s header s', Reachable C genesis hs s → motive hs s → s.apply C [header] = .ok s' →
      (hs ++ [header]).length < 2 ^ 64 → motive (hs ++ [header]) s') : motive hs s := by
  induction h with
  | genesis => exact hgenesis
  | @apply hs headers s s' h happly hfits ih =>
    induction headers generalizing hs s with
    | nil =>
      cases happly
      rwa [append_nil]
    | cons header headers ihh =>
      obtain ⟨s₁, hone, hrest⟩ := apply_cons happly
      rw [append_cons] at hfits ⊢
      have hlen : (hs ++ [header]).length < 2 ^ 64 := by
        rw [length_append] at hfits
        omega
      exact ihh (.apply h hone hlen) hrest hfits (hstep hs s header s₁ h ih hone hlen)

theorem Reachable.tracks {config : CliqueConfig} {hash : Hash} {signers : List Address}
    (h : Reachable C (newSnapshot config 0 hash signers) hs s) :
    Tracks C hs s.toVoting ∧ s.number = hs.length ∧ hs.length < 2 ^ 64 ∧ s.config = config := by
  refine Reachable.cut (motive := fun hs s ↦ Tracks C hs s.toVoting ∧ s.number = hs.length ∧
    hs.length < 2 ^ 64 ∧ s.config = config) h ?_ ?_
  · exact ⟨⟨⟨counted_nil, .nil, nofun, nofun⟩, nofun, nofun, nofun, nofun⟩, rfl, by decide, rfl⟩
  · rintro hs s header s' - ⟨htracks, hnumber, -, hconfig⟩ happly hfits
    obtain ⟨hfirst, next, hone, rfl⟩ := apply_singleton_ok_iff.1 happly
    rw [length_append] at hfits
    have hadd : add64 s.number 1 = hs.length + 1 := by
      rw [hnumber]
      exact add64_of_lt hfits
    obtain ⟨hnext, hconfig', -⟩ := htracks.applyHeader hone (hfirst.trans hadd)
    refine ⟨hnext, ?_, ?_, hconfig'.trans hconfig⟩
    · rw [length_append]
      exact hadd
    · rwa [length_append]

theorem Reachable.before {pre post : List Header} (h : Reachable C genesis hs s)
    (hsplit : hs = pre ++ header :: post) : ∃ s₁ s₂, Reachable C genesis pre s₁ ∧
      s₁.apply C [header] = .ok s₂ ∧ Reachable C genesis (pre ++ [header]) s₂ := by
  revert pre header post
  refine Reachable.cut (motive := fun hs _ ↦ ∀ {pre post : List Header} {header : Header},
    hs = pre ++ header :: post → ∃ s₁ s₂, Reachable C genesis pre s₁ ∧
      s₁.apply C [header] = .ok s₂ ∧ Reachable C genesis (pre ++ [header]) s₂) h ?_ ?_
  · intro pre post header hnil
    simp at hnil
  · intro hs s last s' hs' ih happly hfits pre post header hsplit
    -- the header is the last one, or one of those before
    obtain hpost | ⟨post', x, hpost⟩ := eq_nil_or_concat post
    · rw [hpost] at hsplit
      obtain ⟨rfl, hlast⟩ := append_inj' hsplit rfl
      obtain rfl := singleton_injective hlast
      exact ⟨s, s', hs', happly, .apply hs' happly hfits⟩
    · rw [hpost, concat_eq_append, ← cons_append, ← append_assoc] at hsplit
      exact ih (append_inj' hsplit rfl).1

/-- **The bookkeeping of votes.** After any replay the tally counts the votes, one for each signer and
address, all of them meaningful and by current signers; the recent signers are those of the last
blocks, each of them once; and a signer was added or removed by a majority of the signers of the
time. -/
theorem voting_bookkeeping {config : CliqueConfig} {hash : Hash} {signers : List Address}
    (h : Reachable C (newSnapshot config 0 hash signers) hs s) :
    (∀ a, (s.tally.lookup a).isSome ↔ ∃ v ∈ s.votes, v.address = a) ∧
    (∀ a t, s.tally.lookup a = some t → t.votes = (s.votes.countP fun v ↦ v.address == a) ∧
      ∀ v ∈ s.votes, v.address = a → v.authorize = t.authorize) ∧
    (s.votes.Pairwise fun v w ↦ ¬ (v.signer = w.signer ∧ v.address = w.address)) ∧
    (∀ v ∈ s.votes, v.signer ∈ s.signers ∧ (v.authorize = true ↔ v.address ∉ s.signers)) ∧
    (∀ n x, s.recents.lookup n = some x → s.number < n + (s.signers.card / 2 + 1) ∧ n ≤ s.number ∧
      ∃ g, headerOf hs n = some g ∧ ecrecover C g = .ok x) ∧
    (∀ n m x, s.recents.lookup n = some x → s.recents.lookup m = some x → n = m) ∧
    ∀ pre header post, hs = pre ++ header :: post →
      ∃ s₁ s₂, Reachable C (newSnapshot config 0 hash signers) pre s₁ ∧ s₁.apply C [header] = .ok s₂ ∧
        Reachable C (newSnapshot config 0 hash signers) (pre ++ [header]) s₂ ∧
        ∀ a, ¬ (a ∈ s₁.signers ↔ a ∈ s₂.signers) → Majority C (pre ++ [header]) s₁.toVoting a := by
  obtain ⟨htracks, hnumber, -, -⟩ := h.tracks
  have hcounted := htracks.valid.counted
  refine ⟨hcounted.isSome_iff, fun a t ht ↦ ⟨?_, hcounted.direction a t ht⟩, htracks.valid.unique,
    fun v hv ↦ ⟨htracks.valid.voters v hv, htracks.valid.meaningful v hv⟩, fun n x hn ↦ ?_,
    htracks.distinct, fun pre header post hsplit ↦ ?_⟩
  · rw [← hcounted.count, tallied_of_lookup ht]
  · obtain ⟨g, hg, hx⟩ := htracks.recent n x hn
    rw [hnumber]
    exact ⟨htracks.window n x hn, le_length_of_headerOf hg, g, hg, hx⟩
  · obtain ⟨s₁, s₂, h₁, happly, h₂⟩ := h.before hsplit
    obtain ⟨htracks₁, hnumber₁, -, -⟩ := h₁.tracks
    obtain ⟨-, hnumber₂, hfits, -⟩ := h₂.tracks
    refine ⟨s₁, s₂, h₁, happly, h₂, fun a ha ↦ ?_⟩
    obtain ⟨hfirst, next, hone, rfl⟩ := apply_singleton_ok_iff.1 happly
    rw [length_append] at hnumber₂
    exact (htracks₁.applyHeader hone (hfirst.trans hnumber₂)).2.2 a ha

namespace Sample

def crypto : Crypto where
  keccak256 := bytesToHash
  ecrecover _ sig := some (0 :: sig)
  sha256 b := b
  ripemd160 b := b

/-- A header that is sealed by a signer and votes for an address. -/
def sealed (number : Nat) (signer vote : Address) (difficulty : Nat) : Header where
  parentHash := 0
  uncleHash := 0
  coinbase := vote
  root := 0
  txHash := 0
  receiptHash := 0
  bloom := 0
  difficulty := difficulty
  number := number
  gasLimit := 0
  gasUsed := 0
  time := number.toUInt64
  extra := List.replicate 45 0 ++ addressBytes signer
  mixDigest := 0
  nonce := nonceAuthVote
  baseFee := none

def config : CliqueConfig := ⟨30000, by decide⟩

end Sample

open Sample

/-- Two of three signers vote for a fourth one. -/
theorem voting_bookkeeping_sample :
    ∃ s, (newSnapshot config 0 0 [1, 2, 3]).apply crypto
        [sealed 1 1 9 2, sealed 2 2 9 2] = .ok s ∧ s.signers = {1, 2, 3, 9} ∧
      (s.tally.lookup 9).isSome = false ∧ ∃ s₁ s₂,
        Reachable crypto (newSnapshot config 0 0 [1, 2, 3]) [sealed 1 1 9 2] s₁ ∧
        s₁.apply crypto [sealed 2 2 9 2] = .ok s₂ ∧
        ∀ a, ¬ (a ∈ s₁.signers ↔ a ∈ s₂.signers) →
          Majority crypto [sealed 1 1 9 2, sealed 2 2 9 2] s₁.toVoting a := by
  obtain ⟨s, hs, heval⟩ := exists_of_eval (x := (newSnapshot config 0 0 [1, 2, 3]).apply crypto
      [sealed 1 1 9 2, sealed 2 2 9 2]) (f := fun s ↦ (s.signers, s.votes))
    (b := ({1, 2, 3, 9}, [])) (by decide +kernel)
  obtain ⟨hsigners, hvotes⟩ := Prod.mk.inj heval
  obtain ⟨htally, -, -, -, -, -, hmajority⟩ := voting_bookkeeping (.apply .genesis hs (by decide))
  obtain ⟨s₁, s₂, h₁, happly, -, ha⟩ :=
    hmajority [sealed 1 1 9 2] (sealed 2 2 9 2) [] rfl
  refine ⟨s, hs, hsigners, ?_, s₁, s₂, h₁, happly, ha⟩
  rw [Bool.eq_false_iff, ne_eq, htally, hvotes]
  exact fun ⟨v, hv, _⟩ ↦ not_mem_nil hv

end Runs

end GoEntropy.Clique
