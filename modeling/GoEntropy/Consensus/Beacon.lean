import GoEntropy.Consensus.Ethash

/-!
# The merge

`Beacon` wraps the engine of the time before the merge. `VerifyHeader` takes the new rules for a header
exactly if the total difficulty of its parent has reached the terminal one. `VerifyHeaders` splits a batch
at the first header whose own difficulty is zero, and never looks at a total difficulty.

The two agree on a batch that passes if and only if the difficulty of a header is zero exactly where the
terminal total difficulty is reached (`Transition`, `verifyHeaders_agree_iff`). Nothing checks this: a batch
of headers of difficulty zero passes on any stored parent.

A batch is a list of headers with the flag that asks for a check of the seal. The results of a batch are the
list of what the channel delivers, in the order of the headers.
-/

namespace GoEntropy.Beacon

open GoEntropy.Chain (Header emptyUncleHash)

/-- `ChainHeaderReader`, as far as headers are verified with it. -/
structure HeaderReader where
  config : ChainConfig
  terminalTotalDifficulty : Option Nat
  getHeader : Hash → Nat → Option Header
  getTd : Hash → Nat → Option Nat

def parentNumber (header : Header) : Nat := sub64 (wrap64 header.number) 1

def HeaderReader.parent (chain : HeaderReader) (header : Header) : Option Header :=
  chain.getHeader header.parentHash (parentNumber header)

def HeaderReader.store (C : Crypto) (chain : HeaderReader) (header : Header) : HeaderReader :=
  { chain with
    getHeader := fun hash number ↦
      if hash = header.hash C ∧ number = wrap64 header.number then some header else chain.getHeader hash number
    getTd := fun hash number ↦
      if hash = header.hash C ∧ number = wrap64 header.number then
        (chain.getTd header.parentHash (parentNumber header)).map (· + header.difficulty)
      else chain.getTd hash number }

/-- The part of `consensus.Engine` that verifies headers. -/
structure Eth1 (ε : Type) where
  verifyHeader : HeaderReader → Header → Bool → Except ε Unit
  verifyHeaders : HeaderReader → List (Header × Bool) → List (Except ε Unit)

inductive BeaconError (ε : Type) where
  | eth1 (err : ε)
  | unknownAncestor
  | extraTooLong (have_ : Nat)
  | invalidNonce
  | invalidUncleHash
  | wrongDifficulty (have_ : Nat)
  | gasLimitTooHigh (have_ max : UInt64)
  | gasUsedTooHigh (have_ limit : UInt64)
  | invalidNumber
  | eip1559 (err : Ethash.EthashError)
  deriving DecidableEq

variable {ε : Type}

/-- Results for a batch whose first header has the given parent. The parent of each other one is the header
before it, if the hashes match. -/
def verifyBatch (C : Crypto) (unknownAncestor : ε) (verify : Header → Header → Bool → Except ε Unit) :
    Option Header → List (Header × Bool) → List (Except ε Unit)
  | _, [] => []
  | parent, (header, checkSeal) :: rest =>
    (match parent with
      | none => .error unknownAncestor
      | some parent => verify header parent checkSeal) ::
    verifyBatch C unknownAncestor verify
      (rest.head?.bind fun next ↦ if header.hash C = next.1.parentHash then some header else none) rest

/-! ## The engine -/

/-- `IsPoSHeader`. -/
def isPoSHeader (header : Header) : Bool := header.difficulty == 0

/-- `IsTTDReached`. -/
def isTTDReached (chain : HeaderReader) (parentHash : Hash) (number : Nat) : Except (BeaconError ε) Bool :=
  match chain.terminalTotalDifficulty with
  | none => .ok false
  | some ttd =>
    match chain.getTd parentHash number with
    | none => .error .unknownAncestor
    | some td => .ok (decide (ttd ≤ td))

/-- `verifyHeader`. -/
def verifyPoSHeader (C : Crypto) (config : ChainConfig) (header parent : Header) : Except (BeaconError ε) Unit :=
  if 32 < header.extra.length then .error (.extraTooLong header.extra.length)
  else if header.nonce ≠ 0 then .error .invalidNonce
  else if header.uncleHash ≠ emptyUncleHash C then .error .invalidUncleHash
  else if header.difficulty ≠ 0 then .error (.wrongDifficulty header.difficulty)
  else if Ethash.maxGasLimit < header.gasLimit then .error (.gasLimitTooHigh header.gasLimit Ethash.maxGasLimit)
  else if header.gasLimit < header.gasUsed then .error (.gasUsedTooHigh header.gasUsed header.gasLimit)
  else if header.number ≠ parent.number + 1 then .error .invalidNumber
  else (Ethash.verifyEip1559Header config parent header).mapError .eip1559

/-- `VerifyHeader`. An error of `IsTTDReached` counts as not reached. -/
def verifyHeader (C : Crypto) (ethone : Eth1 ε) (chain : HeaderReader) (header : Header) (checkSeal : Bool) :
    Except (BeaconError ε) Unit :=
  match (isTTDReached chain header.parentHash (parentNumber header) : Except (BeaconError ε) Bool) with
  | .ok true =>
    match chain.parent header with
    | none => .error .unknownAncestor
    | some parent => verifyPoSHeader C chain.config header parent
  | _ => (ethone.verifyHeader chain header checkSeal).mapError .eth1

/-- `verifyHeaders`. -/
def verifyPoSHeaders (C : Crypto) (chain : HeaderReader) (headers : List (Header × Bool)) (ancestor : Option Header) :
    List (Except (BeaconError ε) Unit) :=
  verifyBatch C .unknownAncestor (fun header parent _ ↦ verifyPoSHeader C chain.config header parent)
    (ancestor.or (headers.head?.bind fun first ↦ chain.parent first.1)) headers

/-- `VerifyHeaders`; an empty batch is an index out of range. -/
def verifyHeaders (C : Crypto) (ethone : Eth1 ε) (chain : HeaderReader) (headers : List (Header × Bool)) :
    Option (List (Except (BeaconError ε) Unit)) :=
  headers.getLast?.map fun last ↦
    if !isPoSHeader last.1 then (ethone.verifyHeaders chain headers).map (·.mapError .eth1)
    else
      -- the headers before the first one of the new rules, and those from there on
      let preHeaders := headers.takeWhile fun h ↦ !isPoSHeader h.1
      let postHeaders := headers.dropWhile fun h ↦ !isPoSHeader h.1
      match preHeaders.getLast? with
      | none => verifyPoSHeaders C chain headers none
      | some ancestor =>
        (ethone.verifyHeaders chain preHeaders).map (·.mapError .eth1) ++
          verifyPoSHeaders C chain postHeaders (some ancestor.1)

/-- Verify the headers one after the other, storing each one that is accepted. -/
def verifyEach (C : Crypto) (verify : HeaderReader → Header → Bool → Except ε Unit) :
    HeaderReader → List (Header × Bool) → Except ε Unit
  | _, [] => .ok ()
  | chain, (header, checkSeal) :: rest => do
    verify chain header checkSeal
    verifyEach C verify (chain.store C header) rest

end GoEntropy.Beacon

/-! ## Proof of work as the engine before the merge -/

namespace GoEntropy.Ethash

open GoEntropy.Chain (Header)
open GoEntropy.Beacon (HeaderReader Eth1 verifyBatch)

inductive VerifyError where
  | unknownAncestor
  | invalid (err : EthashError)
  deriving DecidableEq

/-- `verifyHeader` of a header of the chain. -/
def Engine.check (C : Crypto) (engine : Engine) (unixNow : Int64) (config : ChainConfig) (header parent : Header)
    (checkSeal : Bool) : Except VerifyError Unit :=
  (Ethash.verifyHeader C engine config header parent false checkSeal unixNow).mapError .invalid

/-- `VerifyHeader`. -/
def Engine.verifyHeader (C : Crypto) (engine : Engine) (unixNow : Int64) (chain : HeaderReader) (header : Header)
    (checkSeal : Bool) : Except VerifyError Unit :=
  if engine.powMode = .fullFake then .ok ()
  else if (chain.getHeader (header.hash C) (wrap64 header.number)).isSome then .ok ()
  else
    match chain.parent header with
    | none => .error .unknownAncestor
    | some parent => engine.check C unixNow chain.config header parent checkSeal

/-- `VerifyHeaders`, by one worker or many: the results come in the order of the headers. -/
def Engine.verifyHeaders (C : Crypto) (engine : Engine) (unixNow : Int64) (chain : HeaderReader)
    (headers : List (Header × Bool)) : List (Except VerifyError Unit) :=
  if engine.powMode = .fullFake then headers.map fun _ ↦ .ok ()
  else
    verifyBatch C .unknownAncestor (engine.check C unixNow chain.config)
      (headers.head?.bind fun first ↦ chain.parent first.1) headers

def Engine.eth1 (C : Crypto) (engine : Engine) (unixNow : Int64) : Eth1 VerifyError where
  verifyHeader := engine.verifyHeader C unixNow
  verifyHeaders := engine.verifyHeaders C unixNow

end GoEntropy.Ethash

/-! ## Contiguous batches -/

namespace GoEntropy.Beacon

open GoEntropy.Chain (Header)

variable {C : Crypto} {ε : Type} {ethone : Eth1 ε} {chain : HeaderReader} {parent header : Header} {td : Nat}
  {checkSeal : Bool} {batch : List (Header × Bool)}

/-- Every header of the batch follows the one before it, the first one the given parent. -/
def Linked (C : Crypto) : Header → List (Header × Bool) → Prop
  | _, [] => True
  | parent, (header, _) :: rest =>
    header.parentHash = parent.hash C ∧ header.number = parent.number + 1 ∧ Linked C header rest

structure Tip (C : Crypto) (chain : HeaderReader) (parent : Header) (td : Nat) : Prop where
  header : chain.getHeader (parent.hash C) (wrap64 parent.number) = some parent
  td : chain.getTd (parent.hash C) (wrap64 parent.number) = some td

def reached (ttd : Option Nat) (td : Nat) : Bool := ttd.any (decide <| · ≤ td)

variable {ttd : Option Nat}

theorem reached_mono {td td' : Nat} (h : td ≤ td') (hr : reached ttd td = true) :
    reached ttd td' = true := by
  cases ttd with
  | none => exact hr
  | some t => exact decide_eq_true ((of_decide_eq_true hr : t ≤ td).trans h)

theorem parentNumber_eq (h : header.number = parent.number + 1) : parentNumber header = wrap64 parent.number := by
  unfold parentNumber sub64 wrap64
  omega

namespace Tip

variable (h : Tip C chain parent td) (hh : header.parentHash = parent.hash C)
  (hn : header.number = parent.number + 1)

include h hh hn

theorem parent_eq : chain.parent header = some parent := by
  rw [HeaderReader.parent, hh, parentNumber_eq hn, h.header]

theorem isTTDReached_eq :
    (isTTDReached chain header.parentHash (parentNumber header) : Except (BeaconError ε) Bool) =
      .ok (reached chain.terminalTotalDifficulty td) := by
  unfold isTTDReached
  rw [hh, parentNumber_eq hn, h.td]
  cases chain.terminalTotalDifficulty <;> rfl

theorem store : Tip C (chain.store C header) header (td + header.difficulty) := by
  refine ⟨if_pos ⟨rfl, rfl⟩, (if_pos ⟨rfl, rfl⟩).trans ?_⟩
  rw [hh, parentNumber_eq hn, h.td]
  rfl

theorem verifyHeader_eq :
    verifyHeader C ethone chain header checkSeal =
      if reached chain.terminalTotalDifficulty td then verifyPoSHeader C chain.config header parent
      else (ethone.verifyHeader chain header checkSeal).mapError .eth1 := by
  unfold verifyHeader
  rw [h.isTTDReached_eq hh hn, h.parent_eq hh hn]
  cases reached chain.terminalTotalDifficulty td <;> rfl

end Tip

/-! ### Results -/

def Passed (results : List (Except ε Unit)) : Prop := ∀ r ∈ results, r = .ok ()

def Follows (verify : Header → Header → Bool → Except ε Unit) : Header → List (Header × Bool) → Prop
  | _, [] => True
  | parent, (header, checkSeal) :: rest => verify header parent checkSeal = .ok () ∧ Follows verify header rest

theorem passed_map_mapError {ε' : Type} {f : ε → ε'} {results : List (Except ε Unit)} :
    Passed (results.map (·.mapError f)) ↔ Passed results := by
  simp [Passed, Container.mapError_eq_ok]

theorem passed_append {l l' : List (Except ε Unit)} : Passed (l ++ l') ↔ Passed l ∧ Passed l' := by
  simp [Passed, or_imp, forall_and]

theorem passed_verifyBatch {unknown : ε} {verify : Header → Header → Bool → Except ε Unit}
    (h : Linked C parent batch) :
    Passed (verifyBatch C unknown verify (some parent) batch) ↔ Follows verify parent batch := by
  induction batch generalizing parent with
  | nil => simp [verifyBatch, Passed, Follows]
  | cons first rest ih =>
    obtain ⟨-, -, hrest⟩ := h
    rw [verifyBatch, Passed, List.forall_mem_cons]
    refine and_congr_right fun _ ↦ ?_
    cases rest with
    | nil => simp [verifyBatch, Follows]
    | cons next rest =>
      rw [List.head?_cons, Option.bind_some, if_pos hrest.1.symm]
      exact ih hrest

/-! ### Batch and single verification before the merge -/

/-- The batch verification of an engine accepts nothing that its single verification refuses. -/
def Eth1.BatchAgrees (C : Crypto) (ethone : Eth1 ε) : Prop :=
  ∀ chain parent td batch, Tip C chain parent td → Linked C parent batch →
    Passed (ethone.verifyHeaders chain batch) → verifyEach C ethone.verifyHeader chain batch = .ok ()

/-- **Proof of work agrees with itself**, in any mode. -/
theorem ethash_batchAgrees (C : Crypto) (engine : Ethash.Engine) (unixNow : Int64) :
    (engine.eth1 C unixNow).BatchAgrees C := by
  intro chain parent td batch htip hlinked hpassed
  by_cases hfake : engine.powMode = .fullFake
  · clear hpassed hlinked htip
    induction batch generalizing chain with
    | nil => rfl
    | cons first rest ih =>
      have hfirst : engine.verifyHeader C unixNow chain first.1 first.2 = .ok () := if_pos hfake
      exact Container.bind_eq_ok.2 ⟨(), hfirst, ih _⟩
  · have hfollows : Follows (engine.check C unixNow chain.config) parent batch := by
      change Passed (engine.verifyHeaders C unixNow chain batch) at hpassed
      rw [Ethash.Engine.verifyHeaders, if_neg hfake] at hpassed
      cases batch with
      | nil => trivial
      | cons first rest =>
        rw [List.head?_cons, Option.bind_some, htip.parent_eq hlinked.1 hlinked.2.1] at hpassed
        exact (passed_verifyBatch hlinked).1 hpassed
    clear hpassed
    induction batch generalizing chain parent td with
    | nil => rfl
    | cons first rest ih =>
      obtain ⟨header, checkSeal⟩ := first
      obtain ⟨hh, hn, hrest⟩ := hlinked
      have hfirst : engine.verifyHeader C unixNow chain header checkSeal = .ok () := by
        unfold Ethash.Engine.verifyHeader
        rw [if_neg hfake, htip.parent_eq hh hn]
        split
        · rfl
        · exact hfollows.1
      exact Container.bind_eq_ok.2 ⟨(), hfirst, ih _ _ _ (htip.store hh hn) hrest hfollows.2⟩

/-! ## Agreement at the merge -/

/-- The difficulty of a header is zero exactly where the total difficulty of its parent has reached the
terminal one; `td` is that of the parent of the first header. -/
def Transition (ttd : Option Nat) : Nat → List (Header × Bool) → Prop
  | _, [] => True
  | td, (header, _) :: rest =>
    (header.difficulty = 0 ↔ reached ttd td = true) ∧ Transition ttd (td + header.difficulty) rest

/-- No header of difficulty zero has a parent below the terminal total difficulty, and there is none if no
terminal total difficulty is configured. -/
def ZeroAfter (ttd : Option Nat) : Nat → List (Header × Bool) → Prop
  | _, [] => True
  | td, (header, _) :: rest =>
    (header.difficulty = 0 → reached ttd td = true) ∧ ZeroAfter ttd (td + header.difficulty) rest

theorem Transition.zeroAfter (h : Transition ttd td batch) : ZeroAfter ttd td batch := by
  induction batch generalizing td with
  | nil => trivial
  | cons first rest ih => exact ⟨h.1.1, ih h.2⟩

theorem Transition.not_isPoSHeader (h : Transition ttd td batch) {last : Header × Bool}
    (hlast : batch.getLast? = some last) (hpow : isPoSHeader last.1 = false) :
    ∀ x ∈ batch, isPoSHeader x.1 = false := by
  induction batch generalizing td with
  | nil => simp at hlast
  | cons first rest ih =>
    cases rest with
    | nil =>
      obtain rfl : first = last := by simpa using hlast
      simpa using hpow
    | cons next rest =>
      have hrest := ih h.2 (by simpa using hlast)
      refine List.forall_mem_cons.2 ⟨?_, hrest⟩
      -- A header of difficulty zero leaves the terminal total difficulty reached for the next one.
      by_contra hzero
      have hfirst : first.1.difficulty = 0 := by simpa [isPoSHeader] using hzero
      have hnext : reached ttd (td + first.1.difficulty) = true :=
        reached_mono (Nat.le_add_right _ _) (h.1.1 hfirst)
      have := hrest next List.mem_cons_self
      simp [isPoSHeader, h.2.1.2 hnext] at this

theorem difficulty_of_verifyPoSHeader {config : ChainConfig}
    (h : (verifyPoSHeader C config header parent : Except (BeaconError ε) Unit) = .ok ()) :
    header.difficulty = 0 := by
  unfold verifyPoSHeader at h
  by_contra hne
  split_ifs at h

/-- Headers that pass the new rules in a batch pass alone, where the terminal total difficulty is reached. -/
theorem verifyEach_of_follows (htip : Tip C chain parent td) (hlinked : Linked C parent batch)
    (htrans : Transition chain.terminalTotalDifficulty td batch)
    (h : Follows (fun header parent _ ↦ (verifyPoSHeader C chain.config header parent : Except (BeaconError ε) Unit))
      parent batch) :
    verifyEach C (verifyHeader C ethone) chain batch = .ok () := by
  induction batch generalizing chain parent td with
  | nil => rfl
  | cons first rest ih =>
    obtain ⟨header, checkSeal⟩ := first
    obtain ⟨hh, hn, hrest⟩ := hlinked
    have hfirst : (verifyPoSHeader C chain.config header parent : Except (BeaconError ε) Unit) = .ok () := h.1
    have hreached := htrans.1.1 (difficulty_of_verifyPoSHeader hfirst)
    rw [verifyEach, htip.verifyHeader_eq hh hn, if_pos hreached, hfirst]
    exact ih (htip.store hh hn) hrest htrans.2 h.2

/-- Headers that pass the old rules one by one pass as a first part of the batch, and the rest may be
verified from the last of them. -/
theorem verifyEach_append {pre post : List (Header × Bool)} (htip : Tip C chain parent td)
    (hlinked : Linked C parent (pre ++ post)) (htrans : Transition chain.terminalTotalDifficulty td (pre ++ post))
    (hpow : ∀ x ∈ pre, isPoSHeader x.1 = false) (hpre : verifyEach C ethone.verifyHeader chain pre = .ok ())
    (hpost : ∀ chain' parent' td', Tip C chain' parent' td' → Linked C parent' post →
      Transition chain'.terminalTotalDifficulty td' post → chain'.config = chain.config →
      parent' = (pre.getLast?.map Prod.fst).getD parent →
      verifyEach C (verifyHeader C ethone) chain' post = .ok ()) :
    verifyEach C (verifyHeader C ethone) chain (pre ++ post) = .ok () := by
  induction pre generalizing chain parent td with
  | nil => exact hpost chain parent td htip hlinked htrans rfl rfl
  | cons first rest ih =>
    obtain ⟨hh, hn, hrest⟩ := hlinked
    obtain ⟨hfirst, hpow⟩ := List.forall_mem_cons.1 hpow
    have hnot : reached chain.terminalTotalDifficulty td = false := by
      by_contra hr
      simp [isPoSHeader, htrans.1.2 (by simpa using hr)] at hfirst
    obtain ⟨u, hv, hpre⟩ := Container.bind_eq_ok.1 hpre
    rw [List.cons_append, verifyEach, htip.verifyHeader_eq hh hn, hnot, hv]
    refine ih (htip.store hh hn) hrest htrans.2 hpow hpre fun chain' parent' td' htip' hl' ht' hc' hp' ↦ ?_
    refine hpost chain' parent' td' htip' hl' ht' hc' (hp'.trans ?_)
    cases rest <;> rfl

/-- Where the new rules apply to a whole batch, or to the rest of one. -/
theorem passed_verifyPoSHeaders (ancestor : Option Header) (hlinked : Linked C parent batch)
    (hparent : batch ≠ [] → ancestor.or (batch.head?.bind fun first ↦ chain.parent first.1) = some parent)
    (h : Passed (verifyPoSHeaders C chain batch ancestor : List (Except (BeaconError ε) Unit))) :
    Follows (fun header parent _ ↦ (verifyPoSHeader C chain.config header parent : Except (BeaconError ε) Unit))
      parent batch := by
  cases batch with
  | nil => trivial
  | cons first rest =>
    rw [verifyPoSHeaders, hparent (by simp)] at h
    exact (passed_verifyBatch hlinked).1 h

theorem Linked.left {pre post : List (Header × Bool)} (h : Linked C parent (pre ++ post)) : Linked C parent pre := by
  induction pre generalizing parent with
  | nil => trivial
  | cons first rest ih => exact ⟨h.1, h.2.1, ih h.2.2⟩

/-- One verification after the other accepts what the batch verification accepts, at a transition. -/
theorem verifyEach_of_passed (hengine : ethone.BatchAgrees C) (htip : Tip C chain parent td)
    (hlinked : Linked C parent batch) (htrans : Transition chain.terminalTotalDifficulty td batch)
    {results : List (Except (BeaconError ε) Unit)} (hresults : verifyHeaders C ethone chain batch = some results)
    (hpassed : Passed results) : verifyEach C (verifyHeader C ethone) chain batch = .ok () := by
  obtain ⟨last, hlast, rfl⟩ := Option.map_eq_some_iff.1 hresults
  cases hpos : isPoSHeader last.1 with
  | false =>
    -- No header of the batch has the new rules.
    rw [hpos, Bool.not_false, if_pos rfl, passed_map_mapError] at hpassed
    have hpow := htrans.not_isPoSHeader hlast hpos
    have heach := hengine chain parent td batch htip hlinked hpassed
    have happ : batch = batch ++ [] := (List.append_nil batch).symm
    rw [happ] at hlinked htrans ⊢
    exact verifyEach_append htip hlinked htrans hpow heach fun _ _ _ _ _ _ _ _ ↦ rfl
  | true =>
    rw [hpos] at hpassed
    dsimp only at hpassed
    have happ := List.takeWhile_append_dropWhile (p := fun h ↦ !isPoSHeader h.1) (l := batch)
    have hpow : ∀ x ∈ batch.takeWhile fun h ↦ !isPoSHeader h.1, isPoSHeader x.1 = false :=
      fun x hx ↦ by simpa using List.all_eq_true.1 List.all_takeWhile x hx
    generalize batch.takeWhile (fun h ↦ !isPoSHeader h.1) = pre at hpassed happ hpow
    generalize batch.dropWhile (fun h ↦ !isPoSHeader h.1) = post at hpassed happ
    cases hancestor : pre.getLast? with
    | none =>
      rw [hancestor] at hpassed
      refine verifyEach_of_follows htip hlinked htrans (passed_verifyPoSHeaders none hlinked (fun hne ↦ ?_) hpassed)
      obtain ⟨first, rest, rfl⟩ := List.exists_cons_of_ne_nil hne
      exact htip.parent_eq hlinked.1 hlinked.2.1
    | some ancestor =>
      rw [hancestor] at hpassed
      obtain ⟨hold, hnew⟩ := passed_append.1 hpassed
      rw [passed_map_mapError] at hold
      subst happ
      refine verifyEach_append htip hlinked htrans hpow
        (hengine chain parent td pre htip hlinked.left hold) fun chain' parent' td' htip' hl' ht' hc' hp' ↦ ?_
      rw [hancestor] at hp'
      refine verifyEach_of_follows htip' hl' ht' (passed_verifyPoSHeaders (some ancestor.1) hl' ?_ ?_)
      · intro _
        rw [hp']
        rfl
      · unfold verifyPoSHeaders at hnew ⊢
        rw [hc']
        exact hnew

/-- What each single verification accepts is at a transition, unless a header of difficulty zero came too
early. -/
theorem transition_of_verifyEach (htip : Tip C chain parent td) (hlinked : Linked C parent batch)
    (hzero : ZeroAfter chain.terminalTotalDifficulty td batch)
    (h : verifyEach C (verifyHeader C ethone) chain batch = .ok ()) :
    Transition chain.terminalTotalDifficulty td batch := by
  induction batch generalizing chain parent td with
  | nil => trivial
  | cons first rest ih =>
    obtain ⟨hh, hn, hrest⟩ := hlinked
    obtain ⟨u, hv, h⟩ := Container.bind_eq_ok.1 h
    have hafter := ih (htip.store hh hn) hrest hzero.2 h
    refine ⟨⟨hzero.1, fun hr ↦ ?_⟩, hafter⟩
    rw [htip.verifyHeader_eq hh hn, if_pos hr] at hv
    exact difficulty_of_verifyPoSHeader hv

def Accepted (C : Crypto) (ethone : Eth1 ε) (chain : HeaderReader) (batch : List (Header × Bool)) : Prop :=
  ∃ results, verifyHeaders C ethone chain batch = some results ∧ Passed results

/-- **Batch and single verification at the merge.** They agree on a batch that extends the stored chain if
and only if the batch is refused or the transition is where it has to be. -/
theorem verifyHeaders_agree_iff (hengine : ethone.BatchAgrees C) (htip : Tip C chain parent td)
    (hlinked : Linked C parent batch) :
    (Accepted C ethone chain batch → verifyEach C (verifyHeader C ethone) chain batch = .ok () ∧
        ZeroAfter chain.terminalTotalDifficulty td batch) ↔
      (Accepted C ethone chain batch → Transition chain.terminalTotalDifficulty td batch) := by
  constructor
  · intro h hacc
    exact transition_of_verifyEach htip hlinked (h hacc).2 (h hacc).1
  · rintro h ⟨results, hresults, hpassed⟩
    have htrans := h ⟨results, hresults, hpassed⟩
    exact ⟨verifyEach_of_passed hengine htip hlinked htrans hresults hpassed, htrans.zeroAfter⟩

end GoEntropy.Beacon

/-! ## A header of difficulty zero that comes too early -/

namespace GoEntropy.Beacon

open GoEntropy.Chain (Header)

namespace Sample

def crypto : Crypto where
  keccak256 _ := 7
  ecrecover _ _ := none
  sha256 b := b
  ripemd160 b := b

def engine : Eth1 Ethash.VerifyError := Ethash.Engine.eth1 crypto ⟨⟨.fake, 0, fun _ _ _ ↦ ([], [])⟩, none⟩ 1000

def header (number : Nat) (time : UInt64) (difficulty : Nat) : Header where
  parentHash := 7
  uncleHash := 7
  coinbase := 0
  root := 0
  txHash := 0
  receiptHash := 0
  bloom := 0
  difficulty := difficulty
  number := number
  gasLimit := 8000000
  gasUsed := 4000000
  time := time
  extra := []
  mixDigest := 0
  nonce := 0
  baseFee := some 1000000000

def chain (ttd : Option Nat) (td : Nat) : HeaderReader where
  config := ⟨some 1, some 0, some 0, some 0⟩
  terminalTotalDifficulty := ttd
  getHeader _ number := if number = 5 then some (header 5 10 131072) else none
  getTd _ number := if number = 5 then some td else none

theorem tip (ttd : Option Nat) (td : Nat) : Tip crypto (chain ttd td) (header 5 10 131072) td := ⟨rfl, rfl⟩

end Sample

section

open Sample

/-- The last block before the merge and the first one after it, in one batch. -/
theorem verifyHeaders_agree_merge :
    Accepted crypto engine (chain (some 300000) 200000) [(header 6 20 131072, true), (header 7 20 0, true)] ∧
      verifyEach crypto (verifyHeader crypto engine) (chain (some 300000) 200000)
        [(header 6 20 131072, true), (header 7 20 0, true)] = .ok () := by
  have hacc : Accepted crypto engine (chain (some 300000) 200000)
      [(header 6 20 131072, true), (header 7 20 0, true)] :=
    ⟨[.ok (), .ok ()], by decide, by simp [Passed]⟩
  have hlinked : Linked crypto (header 5 10 131072) [(header 6 20 131072, true), (header 7 20 0, true)] :=
    ⟨rfl, rfl, rfl, rfl, trivial⟩
  refine ⟨hacc, ((verifyHeaders_agree_iff (ethash_batchAgrees _ _ _) (tip _ _) hlinked).2 (fun _ ↦ ?_) hacc).1⟩
  exact ⟨by decide, by decide, trivial⟩

/-- With a total difficulty below the terminal one, or without a terminal one, a batch with a header of
difficulty zero passes, and the header alone does not. -/
theorem verifyHeaders_early_zero :
    (Accepted crypto engine (chain (some 300000) 200000) [(header 6 20 0, true)] ∧
      verifyEach crypto (verifyHeader crypto engine) (chain (some 300000) 200000) [(header 6 20 0, true)] ≠ .ok ()) ∧
    (Accepted crypto engine (chain none 200000) [(header 6 20 0, true)] ∧
      verifyEach crypto (verifyHeader crypto engine) (chain none 200000) [(header 6 20 0, true)] ≠ .ok ()) := by
  refine ⟨⟨⟨[.ok ()], by decide, by simp [Passed]⟩, by decide⟩,
    ⟨[.ok ()], by decide, by simp [Passed]⟩, by decide⟩

end

end GoEntropy.Beacon
