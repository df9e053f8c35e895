import GoEntropy.Consensus.Clique

/-!
# The bookkeeping of votes

A snapshot keeps the running votes twice: as a list in the order they were cast, and as a tally by
address. The two agree (`Counted`), whatever the replay does to them. What makes the tally of an
address well defined is that all votes on it point the same way, and they do because a vote is only
kept as long as it is meaningful: it proposes a non-signer or opposes a signer (`Valid`).

The recent signers are those of the last blocks, as many as a signer has to sit out (`Window`).
-/

namespace GoEntropy.Clique

open GoEntropy.Chain (Header)
open GoEntropy.Container List Voting

variable {snap : Voting} {votes kept l r : List Vote} {tally : AList fun _ : Address ↦ Tally}
  {vote v w : Vote} {a : Address} {number : Nat}

/-! ## Tallies -/

def tallied (tally : AList fun _ : Address ↦ Tally) (a : Address) : Nat :=
  (tally.lookup a).elim 0 Tally.votes

/-- A tally counts the votes of a list, and the votes on an address point its way. -/
structure Counted (votes : List Vote) (tally : AList fun _ : Address ↦ Tally) : Prop where
  count : ∀ a, tallied tally a = votes.countP fun v ↦ v.address == a
  pos : ∀ a t, tally.lookup a = some t → 0 < t.votes
  direction : ∀ a t, tally.lookup a = some t → ∀ v ∈ votes, v.address = a → v.authorize = t.authorize

theorem counted_nil : Counted [] ∅ := ⟨fun _ ↦ rfl, nofun, nofun⟩

theorem tallied_of_lookup {t : Tally} (h : tally.lookup a = some t) : tallied tally a = t.votes := by
  rw [tallied, h]
  rfl

theorem Counted.isSome_iff (h : Counted votes tally) (a : Address) :
    (tally.lookup a).isSome ↔ ∃ v ∈ votes, v.address = a := by
  have hcount := h.count a
  constructor
  · intro hsome
    obtain ⟨t, ht⟩ := Option.isSome_iff_exists.1 hsome
    have hpos := h.pos a t ht
    rw [tallied_of_lookup ht] at hcount
    rw [hcount, countP_pos_iff] at hpos
    obtain ⟨v, hv, hva⟩ := hpos
    exact ⟨v, hv, eq_of_beq hva⟩
  · rintro ⟨v, hv, rfl⟩
    by_contra hnone
    rw [Bool.not_eq_true, Option.isSome_eq_false_iff, Option.isNone_iff_eq_none] at hnone
    rw [tallied, hnone, eq_comm] at hcount
    exact countP_eq_zero.1 hcount v hv (beq_self_eq_true _)

/-- The votes on one address change, and its entry with them. -/
theorem Counted.update (h : Counted votes tally) {votes' : List Vote} {tally' : AList fun _ : Address ↦ Tally}
    (htally : ∀ b, b ≠ a → tally'.lookup b = tally.lookup b)
    (hvotes : ∀ b, b ≠ a → votes'.filter (·.address == b) = votes.filter (·.address == b))
    (hcount : tallied tally' a = votes'.countP (·.address == a))
    (hentry : ∀ t, tally'.lookup a = some t →
      0 < t.votes ∧ ∀ v ∈ votes', v.address = a → v.authorize = t.authorize) : Counted votes' tally' := by
  refine ⟨fun b ↦ ?_, fun b t ht ↦ ?_, fun b t ht v hv hvb ↦ ?_⟩
  · by_cases hb : b = a
    · exact hb ▸ hcount
    · rw [tallied, htally b hb, countP_eq_length_filter, hvotes b hb, ← countP_eq_length_filter]
      exact h.count b
  · by_cases hb : b = a
    · exact (hentry t (hb ▸ ht)).1
    · exact h.pos b t (htally b hb ▸ ht)
  · by_cases hb : b = a
    · exact (hentry t (hb ▸ ht)).2 v hv (hvb.trans hb)
    · have hv : v ∈ votes'.filter (·.address == b) := mem_filter.2 ⟨hv, beq_iff_eq.2 hvb⟩
      rw [hvotes b hb] at hv
      exact h.direction b t (htally b hb ▸ ht) v (mem_filter.1 hv).1 hvb

theorem Counted.uncast (h : Counted (l ++ vote :: r) snap.tally) :
    Counted (l ++ r) (snap.uncast vote.address vote.authorize).tally := by
  have hmem : vote ∈ l ++ vote :: r := mem_append_right _ mem_cons_self
  have hsub : ∀ v ∈ l ++ r, v ∈ l ++ vote :: r := fun v hv ↦ by
    rw [mem_append, mem_cons]
    exact (mem_append.1 hv).imp_right .inr
  have hvotes : ∀ b, b ≠ vote.address →
      (l ++ r).filter (·.address == b) = (l ++ vote :: r).filter (·.address == b) := fun b hb ↦ by
    simp [Ne.symm hb]
  obtain ⟨t, ht⟩ := Option.isSome_iff_exists.1 ((h.isSome_iff vote.address).2 ⟨vote, hmem, rfl⟩)
  have hdir := h.direction _ t ht
  have hself := h.count vote.address
  rw [tallied_of_lookup ht, countP_append, countP_cons, beq_self_eq_true, if_pos rfl] at hself
  simp only [Voting.uncast, ht]
  rw [if_neg (not_not.2 (hdir vote hmem rfl).symm)]
  split
  · next hlt =>
    refine h.update (fun b ↦ AList.lookup_insert_ne) hvotes ?_ ?_
    · rw [tallied, AList.lookup_insert, countP_append]
      exact Nat.sub_eq_of_eq_add hself
    · rw [AList.lookup_insert]
      rintro _ ⟨⟩
      exact ⟨Nat.sub_pos_of_lt hlt, fun v hv ↦ hdir v (hsub v hv)⟩
  · next hlt =>
    refine h.update (fun b ↦ AList.lookup_erase_ne) hvotes ?_ ?_
    · rw [tallied, AList.lookup_erase, countP_append]
      show 0 = _
      omega
    · rw [AList.lookup_erase]
      nofun

/-- A new vote on an address is counted, if it points the way of the others. -/
theorem Counted.concat (h : Counted votes tally) {t : Tally}
    (hnew : tally.lookup vote.address = none → t = ⟨vote.authorize, 1⟩)
    (hold : ∀ old, tally.lookup vote.address = some old → t = { old with votes := old.votes + 1 })
    (hdir : ∀ v ∈ votes, v.address = vote.address → v.authorize = vote.authorize) :
    Counted (votes ++ [vote]) (tally.insert vote.address t) := by
  have hvotes : t.votes = tallied tally vote.address + 1 ∧ t.authorize = vote.authorize := by
    cases hlookup : tally.lookup vote.address with
    | none =>
      rw [hnew hlookup, tallied, hlookup]
      exact ⟨rfl, rfl⟩
    | some old =>
      rw [hold old hlookup, tallied_of_lookup hlookup]
      refine ⟨rfl, ?_⟩
      obtain ⟨v, hv, hva⟩ := (h.isSome_iff vote.address).1 (by rw [hlookup]; rfl)
      exact (h.direction _ old hlookup v hv hva).symm.trans (hdir v hv hva)
  refine h.update (fun b ↦ AList.lookup_insert_ne) (fun b hb ↦ by simp [Ne.symm hb]) ?_ ?_
  · rw [tallied, countP_append, ← h.count]
    simpa using hvotes.1
  · rw [AList.lookup_insert]
    rintro _ ⟨⟩
    refine ⟨hvotes.1 ▸ Nat.succ_pos _, fun v hv hva ↦ ?_⟩
    rw [hvotes.2]
    obtain hv | hv := mem_append.1 hv
    · exact hdir v hv hva
    · rw [mem_singleton.1 hv]

/-- The votes on an address are dropped together with its tally. -/
theorem Counted.settle (h : Counted snap.votes snap.tally) (a : Address) :
    Counted (snap.settle a).votes (snap.settle a).tally := by
  refine h.update (fun b ↦ AList.lookup_erase_ne) (fun b hb ↦ ?_) ?_ ?_
  · rw [Voting.settle, filter_filter]
    refine filter_congr fun v _ ↦ ?_
    by_cases hvb : v.address = b <;> simp [hvb, hb]
  · rw [Voting.settle, tallied]
    simp [countP_filter]
  · rw [Voting.settle, AList.lookup_erase]
    nofun

theorem uncast_eq (snap : Voting) (a : Address) (authorize : Bool) :
    snap.uncast a authorize = { snap with tally := (snap.uncast a authorize).tally } := by
  rw [Voting.uncast]
  split
  · rfl
  · split
    · rfl
    · split <;> rfl

/-- The loop over the votes of a signer keeps the others, and reverts its votes. -/
theorem Counted.withdraw (a : Address) (h : Counted (kept ++ votes) snap.tally) :
    (withdraw a votes snap).1 = votes.filter (fun v ↦ !(v.signer == a)) ∧
      (∃ tally, (withdraw a votes snap).2 = { snap with tally := tally } ∧
        Counted (kept ++ votes.filter fun v ↦ !(v.signer == a)) tally) := by
  -- `kept` are the votes that the loop has passed and left in the list
  induction votes generalizing kept snap with
  | nil => exact ⟨rfl, snap.tally, rfl, h⟩
  | cons vote votes ih =>
    rw [withdraw]
    by_cases hv : vote.signer = a
    · obtain ⟨hvotes, tally, hsnap, hcounted⟩ := ih h.uncast
      rw [if_pos hv, filter_cons_of_neg (by simp [hv]), hvotes, hsnap]
      exact ⟨rfl, tally, by rw [uncast_eq], hcounted⟩
    · rw [← singleton_append, ← append_assoc] at h
      obtain ⟨hvotes, tally, hsnap, hcounted⟩ := ih h
      rw [if_neg hv, filter_cons_of_pos (by simp [hv]), hvotes, hsnap]
      refine ⟨rfl, tally, rfl, ?_⟩
      rw [append_assoc] at hcounted
      exact hcounted

/-! ## Valid snapshots -/

/-- The votes of a snapshot: they are counted, a signer has at most one on an address, they were cast
by signers, and they propose a non-signer or oppose a signer. -/
structure Valid (snap : Voting) : Prop where
  counted : Counted snap.votes snap.tally
  unique : snap.votes.Pairwise fun v w ↦ ¬ (v.signer = w.signer ∧ v.address = w.address)
  voters : ∀ v ∈ snap.votes, v.signer ∈ snap.signers
  meaningful : ∀ v ∈ snap.votes, (v.authorize = true ↔ v.address ∉ snap.signers)

theorem Valid.clearVotes (h : Valid snap) (number : Nat) : ∃ votes tally,
    snap.clearVotes number = { snap with votes := votes, tally := tally } ∧
      Valid { snap with votes := votes, tally := tally } ∧ votes ⊆ snap.votes ∧
      (number % snap.config.epoch = 0 → votes = []) := by
  rw [Voting.clearVotes]
  split
  · exact ⟨[], ∅, rfl, ⟨counted_nil, .nil, nofun, nofun⟩, nil_subset _, fun _ ↦ rfl⟩
  · next hne => exact ⟨snap.votes, snap.tally, rfl, h, fun _ ↦ id, fun heq ↦ absurd heq hne⟩

theorem dropRecent_eq (snap : Voting) (number : Nat) :
    snap.dropRecent number = { snap with recents := (snap.dropRecent number).recents } := by
  rw [dropRecent]
  split <;> rfl

theorem Valid.discardVote (h : Valid snap) (signer address : Address) : ∃ votes tally,
    snap.discardVote signer address = { snap with votes := votes, tally := tally } ∧
      Valid { snap with votes := votes, tally := tally } ∧ votes ⊆ snap.votes ∧
      ∀ v ∈ votes, ¬ (v.signer = signer ∧ v.address = address) := by
  have hp : ∀ v : Vote, (v.signer == signer && v.address == address) = true ↔
      v.signer = signer ∧ v.address = address := fun v ↦ by simp
  rw [Voting.discardVote]
  cases hfind : snap.votes.find? fun v ↦ v.signer == signer && v.address == address with
  | none =>
    refine ⟨snap.votes, snap.tally, rfl, h, fun _ ↦ id, fun v hv hsame ↦ ?_⟩
    exact find?_eq_none.1 hfind v hv ((hp v).2 hsame)
  | some vote =>
    obtain ⟨hvote, l, r, hsplit, hbefore⟩ := find?_eq_some_iff_append.1 hfind
    have herase : snap.votes.eraseP (fun v ↦ v.signer == signer && v.address == address) = l ++ r := by
      have hnone : ∀ v ∈ l, ¬ (v.signer == signer && v.address == address) = true := fun v hv ↦ by
        rw [Bool.not_eq_true, ← Bool.not_eq_true']
        exact hbefore v hv
      rw [hsplit, eraseP_append_right _ hnone, eraseP_cons, hvote, cond_true]
    have hsublist : (l ++ r).Sublist (l ++ vote :: r) :=
      (List.Sublist.refl l).append (sublist_cons_self vote r)
    have hsub : l ++ r ⊆ snap.votes := hsplit ▸ hsublist.subset
    have hcounted := h.counted
    have hunique := h.unique
    rw [hsplit] at hcounted hunique
    refine ⟨l ++ r, (snap.uncast vote.address vote.authorize).tally, ?_, ?_, hsub, fun v hv hsame ↦ ?_⟩
    · simp only [herase]
      rw [uncast_eq]
    · exact ⟨hcounted.uncast, hunique.sublist hsublist, fun v hv ↦ h.voters v (hsub hv),
        fun v hv ↦ h.meaningful v (hsub hv)⟩
    · obtain ⟨hsigner, haddress⟩ := (hp vote).1 hvote
      obtain hl | hr := mem_append.1 hv
      · have hfalse := hbefore v hl
        rw [(hp v).2 hsame] at hfalse
        cases hfalse
      · have hlater := (pairwise_append.1 hunique).2.1
        exact (pairwise_cons.1 hlater).1 v hr ⟨hsigner.trans hsame.1.symm, haddress.trans hsame.2.symm⟩

theorem cast_of_validVote {authorize : Bool} (h : snap.validVote a authorize = true) : ∃ t,
    snap.cast a authorize = some { snap with tally := snap.tally.insert a t } ∧
      (snap.tally.lookup a = none → t = ⟨authorize, 1⟩) ∧
      ∀ old, snap.tally.lookup a = some old → t = { old with votes := old.votes + 1 } := by
  rw [Voting.cast, if_pos h]
  cases hlookup : snap.tally.lookup a with
  | none => exact ⟨⟨authorize, 1⟩, rfl, fun _ ↦ rfl, nofun⟩
  | some old =>
    refine ⟨{ old with votes := old.votes + 1 }, rfl, nofun, ?_⟩
    rintro _ ⟨⟩
    rfl

theorem Valid.castVote (h : Valid snap) (hsigner : vote.signer ∈ snap.signers)
    (hnone : ∀ v ∈ snap.votes, ¬ (v.signer = vote.signer ∧ v.address = vote.address)) : ∃ votes tally,
    snap.castVote vote = { snap with votes := votes, tally := tally } ∧
      Valid { snap with votes := votes, tally := tally } ∧ votes ⊆ snap.votes ++ [vote] ∧
      (snap.validVote vote.address vote.authorize = true → vote ∈ votes) := by
  rw [Voting.castVote]
  by_cases hvalid : snap.validVote vote.address vote.authorize = true
  · have hmean : vote.authorize = true ↔ vote.address ∉ snap.signers := by
      simp only [validVote, decide_eq_true_eq] at hvalid
      obtain ⟨hin, hauth⟩ | ⟨hout, hauth⟩ := hvalid
      · exact iff_of_false hauth (not_not.2 hin)
      · exact iff_of_true hauth hout
    have hdir : ∀ v ∈ snap.votes, v.address = vote.address → v.authorize = vote.authorize := by
      intro v hv heq
      rw [Bool.eq_iff_iff, h.meaningful v hv, hmean, heq]
    obtain ⟨t, hcast, hnew, hold⟩ := cast_of_validVote hvalid
    have hcounted := h.counted.concat hnew hold hdir
    rw [hcast]
    refine ⟨snap.votes ++ [vote], snap.tally.insert vote.address t, rfl, ⟨hcounted, ?_, ?_, ?_⟩, fun _ ↦ id,
      fun _ ↦ mem_append_right _ (mem_singleton_self _)⟩
    · refine pairwise_append.2 ⟨h.unique, pairwise_singleton _ _, fun v hv w hw ↦ ?_⟩
      obtain rfl := mem_singleton.1 hw
      exact hnone v hv
    · intro v hv
      obtain hv | hv := mem_append.1 hv
      · exact h.voters v hv
      · exact mem_singleton.1 hv ▸ hsigner
    · intro v hv
      obtain hv | hv := mem_append.1 hv
      · exact h.meaningful v hv
      · exact mem_singleton.1 hv ▸ hmean
  · rw [Voting.cast, if_neg hvalid]
    exact ⟨snap.votes, snap.tally, rfl, h, subset_append_left _ _, fun h ↦ absurd h hvalid⟩

/-! ## Passed votes -/

def Voting.Passed (snap : Voting) (a : Address) : Prop :=
  snap.signers.card / 2 < snap.votes.countP fun v ↦ v.address == a

theorem removeSigner_eq (h : Counted snap.votes snap.tally) (number : Nat) (a : Address) : ∃ recents tally,
    snap.removeSigner number a =
      { snap with
        signers := snap.signers.erase a
        recents := recents
        votes := snap.votes.filter fun v ↦ !(v.signer == a)
        tally := tally } ∧
      recents = (dropRecent { snap with signers := snap.signers.erase a } number).recents ∧
      Counted (snap.votes.filter fun v ↦ !(v.signer == a)) tally := by
  have hwithdraw : Counted ([] ++ snap.votes)
      (dropRecent { snap with signers := snap.signers.erase a } number).tally := by
    rw [dropRecent_eq]
    exact h
  obtain ⟨hvotes, tally, hsnap, hcounted⟩ := hwithdraw.withdraw a
  refine ⟨_, tally, ?_, rfl, hcounted⟩
  simp only [removeSigner]
  rw [dropRecent_eq] at hvotes hsnap ⊢
  simp only [hvotes, hsnap]

theorem withdraw_config (a : Address) (votes : List Vote) (snap : Voting) :
    (withdraw a votes snap).2.config = snap.config := by
  induction votes generalizing snap with
  | nil => rfl
  | cons vote votes ih =>
    rw [withdraw]
    split
    · rw [ih, uncast_eq]
    · exact ih snap

theorem enact_config (snap : Voting) (number : Nat) (a : Address) :
    (snap.enact number a).config = snap.config := by
  rw [Voting.enact]
  split
  · split
    · rfl
    · show (withdraw a _ _).2.config = snap.config
      rw [withdraw_config, dropRecent_eq]
  · rfl

theorem Valid.enact (h : Valid snap) (number : Nat) (a : Address) :
    Valid (snap.enact number a) ∧ (snap.enact number a).votes ⊆ snap.votes ∧
      ((snap.enact number a = snap ∧ ¬ snap.Passed a) ∨
        (snap.Passed a ∧ a ∉ snap.signers ∧ (snap.enact number a).signers = insert a snap.signers ∧
          (snap.enact number a).recents = snap.recents) ∨
        (snap.Passed a ∧ a ∈ snap.signers ∧ (snap.enact number a).signers = snap.signers.erase a ∧
          (snap.enact number a).recents =
            (dropRecent { snap with signers := snap.signers.erase a } number).recents)) := by
  have hcount := h.counted.count a
  rw [Voting.enact]
  cases hlookup : snap.tally.lookup a with
  | none =>
    rw [tallied, hlookup] at hcount
    exact ⟨h, fun _ ↦ id, .inl ⟨rfl, fun hp ↦ Nat.not_lt_zero _ (lt_of_lt_of_eq hp hcount.symm)⟩⟩
  | some t =>
    rw [Option.getD_some]
    rw [tallied_of_lookup hlookup] at hcount
    by_cases hpassed : snap.signers.card / 2 < t.votes
    · have hpass : snap.Passed a := lt_of_lt_of_eq hpassed hcount
      obtain ⟨v, hv, hva⟩ := (h.counted.isSome_iff a).1 (by rw [hlookup]; rfl)
      have hdir := h.counted.direction a t hlookup v hv hva
      have hmean := h.meaningful v hv
      rw [hdir, hva] at hmean
      have hsub : ∀ votes : List Vote, (votes.filter fun v ↦ !(v.address == a)) ⊆ votes :=
        filter_subset_self
      have haway : ∀ (votes : List Vote) (v), v ∈ (votes.filter fun v ↦ !(v.address == a)) →
          v.address ≠ a := fun votes v hv ↦ by
        simpa using (mem_filter.1 hv).2
      rw [if_pos hpassed]
      cases hauth : t.authorize with
      | true =>
        have hout := hmean.1 hauth
        have hcounted : Counted _ _ :=
          @.settle { snap with signers := insert a snap.signers } h.counted a
        refine ⟨⟨hcounted, h.unique.filter _, fun v hv ↦ ?_, fun v hv ↦ ?_⟩, hsub _,
          .inr (.inl ⟨hpass, hout, rfl, rfl⟩)⟩
        · exact Finset.mem_insert_of_mem (h.voters v (hsub _ hv))
        · rw [h.meaningful v (hsub _ hv)]
          show _ ↔ v.address ∉ insert a snap.signers
          rw [Finset.mem_insert, not_or]
          exact ⟨fun hv' ↦ ⟨haway _ v hv, hv'⟩, And.right⟩
      | false =>
        have hin : a ∈ snap.signers := by
          by_contra hout
          rw [hmean.2 hout] at hauth
          cases hauth
        obtain ⟨recents, tally, heq, hrecents, hcounted⟩ := removeSigner_eq h.counted number a
        have hrest : (snap.votes.filter fun v ↦ !(v.signer == a)) ⊆ snap.votes :=
          filter_subset_self _
        rw [heq]
        refine ⟨⟨.settle hcounted a, (h.unique.filter _).filter _, fun v hv ↦ ?_, fun v hv ↦ ?_⟩,
          fun v hv ↦ hrest (hsub _ hv), .inr (.inr ⟨hpass, hin, rfl, hrecents⟩)⟩
        · have hkept := hsub _ hv
          have hne : v.signer ≠ a := by simpa using (mem_filter.1 hkept).2
          exact Finset.mem_erase.2 ⟨hne, h.voters v (hrest hkept)⟩
        · rw [h.meaningful v (hrest (hsub _ hv))]
          show _ ↔ v.address ∉ snap.signers.erase a
          rw [Finset.mem_erase, not_and]
          exact ⟨fun hv' _ ↦ hv', fun hv' ↦ hv' (haway _ v hv)⟩
    · rw [if_neg hpassed]
      exact ⟨h, fun _ ↦ id, .inl ⟨rfl, fun hp ↦ hpassed (lt_of_lt_of_eq hp hcount.symm)⟩⟩

end GoEntropy.Clique
