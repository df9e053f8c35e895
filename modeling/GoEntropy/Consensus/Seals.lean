import GoEntropy.Consensus.Replay

/-!
# Seals and replays

The rule that a signer signs one of some consecutive blocks is written twice. The replay deletes a
block from the recent ones when it falls out of the window, and looks for the signer among those that
are left (`exists_applyHeader_iff`). The check of a seal compares the block with a difference of
unsigned integers (`verifySeal_iff`), and that difference wraps around below the first window.
-/

namespace GoEntropy.Clique

open GoEntropy.Chain (Header)
open GoEntropy.Container Voting

variable {C : Crypto} {snap : Voting} {header : Header}

theorem exists_applyHeader_iff : (∃ next, snap.applyHeader C header = .ok next) ↔
    ∃ signer, ecrecover C header = .ok signer ∧ signer ∈ snap.signers ∧
      (∀ n, snap.recents.lookup n = some signer → n + snap.limit = wrap64 header.number) ∧
      (authorizes header.nonce).isSome := by
  obtain ⟨votes, tally, hclear⟩ : ∃ votes tally, snap.clearVotes (wrap64 header.number) =
      { snap with votes := votes, tally := tally } := by
    rw [clearVotes]
    split
    · exact ⟨_, _, rfl⟩
    · exact ⟨_, _, rfl⟩
  have hrecent (x : Address) :
      ((snap.clearVotes (wrap64 header.number)).dropRecent (wrap64 header.number)).isRecent x = true ↔
        ¬ ∀ n, snap.recents.lookup n = some x → n + snap.limit = wrap64 header.number := by
    rw [hclear, isRecent_iff]
    simp only [lookup_dropRecent, not_forall, exists_prop]
    rfl
  have hsigners : ((snap.clearVotes (wrap64 header.number)).dropRecent (wrap64 header.number)).signers =
      snap.signers := by
    rw [hclear, dropRecent_eq]
  rw [applyHeader]
  cases ecrecover C header with
  | error err => simp
  | ok x =>
    simp only [hsigners, Except.ok.injEq, exists_eq_left']
    by_cases hx : x ∈ snap.signers
    · by_cases hn : ∀ n, snap.recents.lookup n = some x → n + snap.limit = wrap64 header.number
      · rw [if_neg fun h ↦ (hrecent x).1 h hn]
        simp only [hx, and_iff_right hn]
        cases authorizes header.nonce <;> simp
      · rw [if_neg (not_not.2 hx), if_pos ((hrecent x).2 hn)]
        simp [hn]
    · simp [hx]

/-- What the check of a seal asks for, when the difficulty is not looked at. -/
theorem verifySeal_iff : snap.verifySeal C true header = .ok () ↔
    wrap64 header.number ≠ 0 ∧ ∃ signer, ecrecover C header = .ok signer ∧ signer ∈ snap.signers ∧
      ∀ n, snap.recents.lookup n = some signer → n ≤ sub64 (wrap64 header.number) snap.limit := by
  have hany (x : Address) : (snap.recents.entries.any fun e ↦
      e.2 == x && decide (e.1 > sub64 (wrap64 header.number) snap.limit)) = true ↔
        ¬ ∀ n, snap.recents.lookup n = some x → n ≤ sub64 (wrap64 header.number) snap.limit := by
    rw [List.any_eq_true]
    push Not
    constructor
    · rintro ⟨⟨n, y⟩, hmem, heq⟩
      rw [Bool.and_eq_true, beq_iff_eq, decide_eq_true_eq] at heq
      exact ⟨n, heq.1 ▸ mem_entries_iff.1 hmem, heq.2⟩
    · rintro ⟨n, hn, hlt⟩
      exact ⟨⟨n, x⟩, mem_entries_iff.2 hn, by simpa using hlt⟩
  rw [verifySeal]
  cases ecrecover C header with
  | error err =>
    refine iff_of_false ?_ (by simp)
    split <;> simp
  | ok x =>
    simp only [Except.ok.injEq, exists_eq_left']
    by_cases hzero : wrap64 header.number = 0
    · simp [hzero]
    · by_cases hx : x ∈ snap.signers
      · by_cases hn : ∀ n, snap.recents.lookup n = some x → n ≤ sub64 (wrap64 header.number) snap.limit
        · rw [if_neg hzero, if_neg (not_not.2 hx), if_neg fun h ↦ (hany x).1 h hn]
          exact iff_of_true rfl ⟨hzero, hx, hn⟩
        · rw [if_neg hzero, if_neg (not_not.2 hx), if_pos ((hany x).2 hn)]
          simp [hn]
      · simp [hzero, hx]

/-- **Seals against replays.** On top of a snapshot a replay reached, the check of a seal and the replay
accept the same header exactly when the block lies above the first window or was not signed by a
recent signer. -/
theorem verifySeal_iff_apply_iff {config : CliqueConfig} {hash : Hash} {signers : List Address}
    {hs : List Header} {s : Snapshot} (h : Reachable C (newSnapshot config 0 hash signers) hs s)
    (hnumber : header.number = s.number + 1) (hfits : header.number < 2 ^ 64)
    (hnonce : header.nonce = nonceAuthVote ∨ header.nonce = nonceDropVote) :
    (s.verifySeal C true header = .ok () ↔ ∃ s', s.apply C [header] = .ok s') ↔
      s.signers.card / 2 + 1 ≤ header.number ∨
        ∀ x, ecrecover C header = .ok x → x ∈ s.signers → s.isRecent x = false := by
  obtain ⟨htracks, hlength, -, -⟩ := h.tracks
  have hwrap : wrap64 header.number = header.number := Nat.mod_eq_of_lt hfits
  have hvote : (authorizes header.nonce).isSome := by
    obtain heq | heq := hnonce <;> rw [heq] <;> rfl
  have happly : (∃ s', s.apply C [header] = .ok s') ↔ ∃ x, ecrecover C header = .ok x ∧ x ∈ s.signers ∧
      ∀ n, s.recents.lookup n = some x → n + s.limit = header.number := by
    have hnext : wrap64 header.number = add64 s.number 1 := by rw [hnumber, add64]
    have hone := @exists_applyHeader_iff C s.toVoting header
    simp only [hvote, and_true, hwrap] at hone
    rw [← hone]
    constructor
    · rintro ⟨s', h'⟩
      obtain ⟨-, next, hnext', -⟩ := apply_singleton_ok_iff.1 h'
      exact ⟨next, hnext'⟩
    · rintro ⟨next, hnext'⟩
      exact ⟨_, apply_singleton_ok_iff.2 ⟨hnext, next, hnext', rfl⟩⟩
  have hverify := @verifySeal_iff C s.toVoting header
  rw [hwrap] at hverify
  rw [happly, hverify, and_iff_right (by omega : header.number ≠ 0)]
  obtain hle | hlt := Nat.lt_or_ge header.number s.limit |>.symm
  · -- above the first window both look at the blocks of the window
    refine iff_of_true ?_ (.inl hle)
    refine exists_congr fun x ↦ and_congr_right fun _ ↦ and_congr_right fun _ ↦
      forall_congr' fun n ↦ imp_congr_right fun hn ↦ ?_
    have hwindow := htracks.window n x hn
    rw [sub64_of_le hle hfits]
    omega
  · -- below it the check of the seal looks at nothing, and the replay at all the blocks
    have hsub (n : Nat) (x : Address) (hn : s.recents.lookup n = some x) :
        n ≤ sub64 header.number s.limit := by
      obtain ⟨g, hg, -⟩ := htracks.recent n x hn
      have hn := le_length_of_headerOf hg
      rw [sub64, wrap64]
      omega
    have hnever (n : Nat) : n + s.limit ≠ header.number := by omega
    rw [or_iff_right (show ¬ s.signers.card / 2 + 1 ≤ _ from Nat.not_le.2 hlt)]
    constructor
    · intro hiff x hrecover hx
      obtain ⟨y, hy, -, hnone⟩ := hiff.1 ⟨x, hrecover, hx, fun n ↦ hsub n x⟩
      obtain rfl := Except.ok.inj (hy.symm.trans hrecover)
      rw [Bool.eq_false_iff, ne_eq, isRecent_iff]
      rintro ⟨n, hn⟩
      exact hnever n (hnone n hn)
    · intro hnone
      refine exists_congr fun x ↦ and_congr_right fun hrecover ↦ and_congr_right fun hx ↦
        iff_of_true (fun n ↦ hsub n x) fun n hn ↦ ?_
      have hrecent := hnone x hrecover hx
      rw [Bool.eq_false_iff, ne_eq, isRecent_iff] at hrecent
      exact absurd ⟨n, hn⟩ hrecent

open Sample

/-- One of three signers seals the first block. -/
theorem Sample.apply_first : ∃ s, (newSnapshot config 0 0 [1, 2, 3]).apply crypto [sealed 1 1 0 1] = .ok s ∧
    (s.number, s.signers.card) = (1, 3) := exists_of_eval (by decide +kernel)

/-- With three signers every block after the first one lies above the first window. -/
theorem verifySeal_iff_apply_three :
    ∃ s, (newSnapshot config 0 0 [1, 2, 3]).apply crypto [sealed 1 1 0 1] = .ok s ∧
      (s.verifySeal crypto true (sealed 2 1 0 1) = .ok () ↔
        ∃ s', s.apply crypto [sealed 2 1 0 1] = .ok s') := by
  obtain ⟨s, hs, heval⟩ := apply_first
  obtain ⟨hnumber, hcard⟩ := Prod.mk.inj heval
  refine ⟨s, hs, (verifySeal_iff_apply_iff (.apply .genesis hs (by decide)) ?_ (by decide)
    (.inl rfl)).2 (.inl ?_)⟩
  · rw [show s.number = 1 from hnumber]
    rfl
  · rw [show s.signers.card = 3 from hcard]
    decide

theorem verifySeal_of_difficulty (h : snap.verifySeal C true header = .ok ())
    (hdifficulty : ∀ x, ecrecover C header = .ok x →
      header.difficulty = if snap.inturn (wrap64 header.number) x then diffInTurn else diffNoTurn) :
    snap.verifySeal C false header = .ok () := by
  rw [verifySeal] at h ⊢
  cases hrecover : ecrecover C header with
  | error err =>
    rw [hrecover] at h
    split at h <;> cases h
  | ok x =>
    have hx := hdifficulty x hrecover
    rw [hrecover] at h
    simp only at h ⊢
    split at h
    · cases h
    next hzero =>
    split at h
    · cases h
    next hsigner =>
    split at h
    · cases h
    next hrecent =>
    rw [if_neg hzero, if_neg hsigner, if_neg hrecent]
    cases hturn : snap.inturn (wrap64 header.number) x <;> simp [hturn] at hx <;> simp [hx]

/-- Of four signers the first one seals the first two blocks: the seal of the second one is accepted, and
it cannot be replayed. -/
theorem verifySeal_accepts_recent_signer :
    ∃ s, (newSnapshot config 0 0 [1, 2, 3, 4]).apply crypto [sealed 1 1 0 1] = .ok s ∧
      s.verifySeal crypto false (sealed 2 1 0 1) = .ok () ∧
      s.apply crypto [sealed 2 1 0 1] = .error .recentlySigned := by
  obtain ⟨s, hs, heval⟩ := exists_of_eval
    (x := (newSnapshot config 0 0 [1, 2, 3, 4]).apply crypto [sealed 1 1 0 1])
    (f := fun s ↦ (s.signers, s.verifySeal crypto true (sealed 2 1 0 1),
      (s.apply crypto [sealed 2 1 0 1]).map fun _ ↦ ()))
    (b := ([1, 2, 3, 4].toFinset, .ok (), .error .recentlySigned)) (by decide +kernel)
  obtain ⟨hsigners, hrest⟩ := Prod.mk.inj heval
  obtain ⟨hseal, happly⟩ := Prod.mk.inj hrest
  refine ⟨s, hs, verifySeal_of_difficulty hseal fun x hx ↦ ?_, ?_⟩
  · have hsort : s.signersAscending = [1, 2, 3, 4] := by
      rw [signersAscending, hsigners]
      exact (List.toFinset_sort (· ≤ ·) (by decide)).2 (by decide)
    have hone : ecrecover crypto (sealed 2 1 0 1) = .ok 1 := rfl
    obtain rfl := Except.ok.inj (hone.symm.trans hx)
    rw [inturn, hsort]
    rfl
  · cases hagain : s.apply crypto [sealed 2 1 0 1] with
    | error err =>
      rw [hagain] at happly
      exact congrArg Except.error (Except.error.inj happly)
    | ok s' =>
      rw [hagain] at happly
      cases happly

/-! ## The last signer -/

/-- `calcDifficulty`, and nothing where `inturn` divides by zero. -/
def Snapshot.calcDifficulty (snap : Snapshot) (signer : Address) : Option Nat :=
  if snap.signers = ∅ then none
  else some (if snap.inturn (add64 snap.number 1) signer then diffInTurn else diffNoTurn)

/-- The list of signers becomes empty if and only if the only signer votes itself out. -/
theorem Valid.signers_eq_empty_iff {next : Voting} (h : Valid snap)
    (happly : snap.applyHeader C header = .ok next) :
    next.signers = ∅ ↔ snap.signers = {header.coinbase} ∧ header.nonce = nonceDropVote := by
  obtain ⟨signer, authorize, mid, -, hsigner, -, hauth, hmid, -, hsigners, -, hvotes, hmem, rfl⟩ :=
    h.applyHeader happly
  obtain ⟨-, -, hcases⟩ := hmid.enact (wrap64 header.number) header.coinbase
  rw [← hsigners] at hsigner ⊢
  constructor
  · intro hempty
    obtain ⟨heq, -⟩ | ⟨-, -, hinsert, -⟩ | ⟨hpassed, hin, herase, -⟩ := hcases
    · rw [← heq, hempty] at hsigner
      cases hsigner
    · rw [hempty] at hinsert
      exact absurd hinsert.symm (Finset.insert_ne_empty _ _)
    · have hone : mid.signers = {header.coinbase} :=
        (Finset.erase_eq_empty_iff _ _).1 (herase.symm.trans hempty) |>.resolve_left (Finset.ne_empty_of_mem hin)
      obtain ⟨v, hv, hva⟩ := List.countP_pos_iff.1 (Nat.zero_lt_of_lt hpassed)
      have hva := eq_of_beq hva
      have hvoter := hmid.voters v hv
      rw [hone, Finset.mem_singleton] at hsigner hvoter
      -- an earlier vote of the signer on itself was discarded
      obtain ⟨-, -, hother⟩ | rfl := hvotes v hv
      · exact absurd ⟨hvoter.trans hsigner.symm, hva⟩ hother
      have hmean := hmid.meaningful _ hv
      refine ⟨hone, ?_⟩
      unfold authorizes at hauth
      split_ifs at hauth with hyes hno
      · exact absurd hin (hmean.1 (Option.some.inj hauth).symm)
      · exact hno
  · rintro ⟨hone, hnonce⟩
    have hin : header.coinbase ∈ mid.signers := hone ▸ Finset.mem_singleton_self _
    obtain rfl : false = authorize := Option.some.inj ((hnonce ▸ rfl : authorizes _ = _).symm.trans hauth)
    have hvote := hmem (by simp [validVote, ← hsigners, hin])
    obtain ⟨-, hfailed⟩ | ⟨-, hout, -⟩ | ⟨-, -, herase, -⟩ := hcases
    · refine absurd ?_ hfailed
      rw [Voting.Passed, hone, Finset.card_singleton]
      exact List.countP_pos_iff.2 ⟨_, hvote, beq_self_eq_true _⟩
    · exact absurd hin hout
    · rw [herase, hone, Finset.erase_singleton]

/-- **The last signer.** A replay leaves a signer, and `inturn` a turn to compute, unless its last header is a
vote of the only signer against itself. -/
theorem signers_nonempty_iff {config : CliqueConfig} {hash : Hash} {signers : List Address} {hs : List Header}
    {s : Snapshot} (hne : signers ≠ []) (h : Reachable C (newSnapshot config 0 hash signers) hs s) :
    (s.signers.Nonempty ∧ ∀ signer, (s.calcDifficulty signer).isSome) ↔
      ¬ ∃ pre header s₁, hs = pre ++ [header] ∧ Reachable C (newSnapshot config 0 hash signers) pre s₁ ∧
        s₁.apply C [header] = .ok s ∧ s₁.signers = {header.coinbase} ∧ header.nonce = nonceDropVote := by
  have hiff : (s.signers.Nonempty ∧ ∀ signer, (s.calcDifficulty signer).isSome) ↔ s.signers ≠ ∅ := by
    refine ⟨fun hs ↦ hs.1.ne_empty, fun hs ↦ ⟨Finset.nonempty_iff_ne_empty.2 hs, fun signer ↦ ?_⟩⟩
    rw [Snapshot.calcDifficulty, if_neg hs]
    rfl
  rw [hiff, not_iff_not]
  constructor
  · refine Reachable.cut (motive := fun hs s ↦ s.signers = ∅ → ∃ pre header s₁, hs = pre ++ [header] ∧
      Reachable C (newSnapshot config 0 hash signers) pre s₁ ∧ s₁.apply C [header] = .ok s ∧
        s₁.signers = {header.coinbase} ∧ header.nonce = nonceDropVote) h ?_ ?_
    · exact fun hempty ↦ absurd ((List.toFinset_eq_empty_iff _).1 hempty) hne
    · rintro hs s header s' hs' - happly - hempty
      obtain ⟨-, next, hone, rfl⟩ := apply_singleton_ok_iff.1 happly
      exact ⟨hs, header, s, rfl, hs', happly, (hs'.tracks.1.valid.signers_eq_empty_iff hone).1 hempty⟩
  · rintro ⟨pre, header, s₁, -, h₁, happly, hlast⟩
    obtain ⟨-, next, hone, rfl⟩ := apply_singleton_ok_iff.1 happly
    exact (h₁.tracks.1.valid.signers_eq_empty_iff hone).2 hlast

theorem signers_nonempty_iff_three :
    ∃ s, (newSnapshot config 0 0 [1, 2, 3]).apply crypto [sealed 1 1 0 1] = .ok s ∧
      s.signers.Nonempty := by
  obtain ⟨s, hs, -⟩ := apply_first
  refine ⟨s, hs, ((signers_nonempty_iff (by decide) (.apply .genesis hs (by decide))).2 ?_).1⟩
  rintro ⟨pre, header, s₁, hsplit, -, -, -, hnonce⟩
  obtain rfl : header = sealed 1 1 0 1 := by
    have := congrArg List.getLast? hsplit
    simpa [eq_comm] using this
  cases hnonce

/-- The only signer votes itself out, and nobody's turn can be computed. -/
theorem last_signer_lost :
    ∃ s, (newSnapshot config 0 0 [1]).apply crypto
        [{ sealed 1 1 1 2 with nonce := nonceDropVote }] = .ok s ∧
      s.signers = ∅ ∧ s.calcDifficulty 1 = none := by
  obtain ⟨s, hs, hsigners⟩ := exists_of_eval (x := (newSnapshot config 0 0 [1]).apply crypto
      [{ sealed 1 1 1 2 with nonce := nonceDropVote }]) (f := fun s ↦ s.signers) (b := ∅)
    (by decide +kernel)
  exact ⟨s, hs, hsigners, if_pos hsigners⟩

end GoEntropy.Clique
