import GoEntropy.Chain.Block
import GoEntropy.Container.Maps
import GoEntropy.Container.Results

/-!
# Proof of authority

The voting of `clique`: a snapshot of the signers and of the votes that are running, the replay of
headers on top of it, and the check of the seal of one more header.

Block numbers are unsigned 64-bit integers, and so is the difference in the check of the seal. The
cache of recovered signatures is left out: it holds what `ecrecover` returned for the same header.
-/

namespace GoEntropy.Clique

open GoEntropy.Chain (Header)

inductive CliqueError where
  | unknownBlock
  | missingSignature
  | recoveryFailed
  | invalidVotingChain
  | unauthorizedSigner
  | recentlySigned
  | invalidVote
  | wrongDifficulty
  deriving DecidableEq

/-- `CliqueConfig`. The engine replaces an epoch length of zero by its default. -/
structure CliqueConfig where
  epoch : Nat
  epoch_pos : 0 < epoch

/-- `extraSeal`. -/
def extraSeal : Nat := 65

/-- `nonceAuthVote`. -/
def nonceAuthVote : BitVec 64 := 0xffffffffffffffff

/-- `nonceDropVote`. -/
def nonceDropVote : BitVec 64 := 0

def diffInTurn : Nat := 2

def diffNoTurn : Nat := 1

/-! ## Signatures -/

/-- `encodeSigHeader`: the header without the signature at the end of its extra data. -/
def encodeSigHeader (h : Header) : Bytes :=
  Header.encode { h with extra := h.extra.take (h.extra.length - extraSeal) }

/-- `SealHash`. -/
def sealHash (C : Crypto) (h : Header) : Hash := C.keccak256 (encodeSigHeader h)

/-- `ecrecover`. -/
def ecrecover (C : Crypto) (h : Header) : Except CliqueError Address :=
  if h.extra.length < extraSeal then .error .missingSignature
  else
    match C.ecrecover (sealHash C h) (h.extra.drop (h.extra.length - extraSeal)) with
    | none => .error .recoveryFailed
    | some pubkey => .ok (hashToAddress (C.keccak256 pubkey.tail))

/-! ## Snapshots -/

/-- `Vote`. -/
structure Vote where
  signer : Address
  block : Nat
  address : Address
  authorize : Bool
  deriving DecidableEq

/-- `Tally`. -/
structure Tally where
  authorize : Bool
  votes : Nat
  deriving DecidableEq

/-- `Snapshot` without its position in the chain, which the replay of headers does not look at. -/
structure Voting where
  config : CliqueConfig
  signers : Finset Address
  recents : AList fun _ : Nat ↦ Address
  votes : List Vote
  tally : AList fun _ : Address ↦ Tally

/-- `Snapshot`. -/
structure Snapshot extends Voting where
  number : Nat
  hash : Hash

/-- `newSnapshot`. -/
def newSnapshot (config : CliqueConfig) (number : Nat) (hash : Hash) (signers : List Address) : Snapshot where
  config := config
  signers := signers.toFinset
  recents := ∅
  votes := []
  tally := ∅
  number := number
  hash := hash

namespace Voting

variable (snap : Voting)

/-- `validVote`. -/
def validVote (address : Address) (authorize : Bool) : Bool :=
  (address ∈ snap.signers ∧ ¬ authorize) ∨ (address ∉ snap.signers ∧ authorize)

/-- `cast`, where nothing is returned for a vote that is not meaningful. -/
def cast (address : Address) (authorize : Bool) : Option Voting :=
  if snap.validVote address authorize then
    match snap.tally.lookup address with
    | some old => some { snap with tally := snap.tally.insert address { old with votes := old.votes + 1 } }
    | none => some { snap with tally := snap.tally.insert address ⟨authorize, 1⟩ }
  else none

/-- `uncast`. -/
def uncast (address : Address) (authorize : Bool) : Voting :=
  match snap.tally.lookup address with
  -- a dangling vote
  | none => snap
  | some tally =>
    if tally.authorize ≠ authorize then snap
    else if 1 < tally.votes then
      { snap with tally := snap.tally.insert address { tally with votes := tally.votes - 1 } }
    else { snap with tally := snap.tally.erase address }

/-- The number of blocks among which a signer may sign one. -/
def limit : Nat := snap.signers.card / 2 + 1

/-! ### Replay -/

def clearVotes (number : Nat) : Voting :=
  if number % snap.config.epoch = 0 then { snap with votes := [], tally := ∅ } else snap

def dropRecent (number : Nat) : Voting :=
  if snap.limit ≤ number then { snap with recents := snap.recents.erase (number - snap.limit) } else snap

def isRecent (signer : Address) : Bool := snap.recents.entries.any fun e ↦ e.2 == signer

/-- A previous vote of the signer on the same address is discarded. -/
def discardVote (signer address : Address) : Voting :=
  match snap.votes.find? fun v ↦ v.signer == signer && v.address == address with
  | none => snap
  | some vote =>
    { snap.uncast vote.address vote.authorize with
      votes := snap.votes.eraseP fun v ↦ v.signer == signer && v.address == address }

/-- The vote a nonce stands for. -/
def authorizes (nonce : BitVec 64) : Option Bool :=
  if nonce = nonceAuthVote then some true else if nonce = nonceDropVote then some false else none

/-- The new vote is tallied up. -/
def castVote (vote : Vote) : Voting :=
  match snap.cast vote.address vote.authorize with
  | some snap => { snap with votes := snap.votes ++ [vote] }
  | none => snap

/-- The loop that discards the votes a signer cast: the votes that are left, and the snapshot with the
tally of the others reverted. -/
def withdraw (signer : Address) : List Vote → Voting → List Vote × Voting
  | [], snap => ([], snap)
  | vote :: votes, snap =>
    if vote.signer = signer then withdraw signer votes (snap.uncast vote.address vote.authorize)
    else ((vote :: (withdraw signer votes snap).1), (withdraw signer votes snap).2)

def removeSigner (number : Nat) (address : Address) : Voting :=
  let snap := { snap with signers := snap.signers.erase address }
  -- the signer list shrunk, delete any leftover recent caches
  let snap := snap.dropRecent number
  let (votes, snap) := withdraw address snap.votes snap
  { snap with votes := votes }

/-- The votes about an account that just changed are discarded. -/
def settle (address : Address) : Voting :=
  { snap with
    votes := snap.votes.filter fun v ↦ !(v.address == address)
    tally := snap.tally.erase address }

/-- If the vote passed, the list of signers is updated. -/
def enact (number : Nat) (address : Address) : Voting :=
  let tally := (snap.tally.lookup address).getD ⟨false, 0⟩
  if snap.signers.card / 2 < tally.votes then
    if tally.authorize then settle { snap with signers := insert address snap.signers } address
    else (snap.removeSigner number address).settle address
  else snap

variable (C : Crypto)

/-- The body of the loop of `apply`. -/
def applyHeader (header : Header) : Except CliqueError Voting :=
  let number := wrap64 header.number
  let snap := (snap.clearVotes number).dropRecent number
  match ecrecover C header with
  | .error err => .error err
  | .ok signer =>
    if signer ∉ snap.signers then .error .unauthorizedSigner
    else if snap.isRecent signer then .error .recentlySigned
    else
      let snap := { snap with recents := snap.recents.insert number signer }
      -- the header is authorized, discard any previous votes from the signer
      let snap := snap.discardVote signer header.coinbase
      match authorizes header.nonce with
      | none => .error .invalidVote
      | some authorize =>
        .ok ((snap.castVote ⟨signer, number, header.coinbase, authorize⟩).enact number header.coinbase)

/-- The loop of `apply`. -/
def applyHeaders : Voting → List Header → Except CliqueError Voting
  | snap, [] => .ok snap
  | snap, header :: headers =>
    match snap.applyHeader C header with
    | .error err => .error err
    | .ok snap => applyHeaders snap headers

/-! ### Seals -/

/-- `signers`, in ascending order. -/
def signersAscending : List Address := snap.signers.sort (· ≤ ·)

/-- `inturn`. -/
def inturn (number : Nat) (signer : Address) : Bool :=
  number % snap.signersAscending.length == snap.signersAscending.idxOf signer

/-- `verifySeal`; `fakeDiff` skips the check of the difficulty. -/
def verifySeal (fakeDiff : Bool) (header : Header) : Except CliqueError Unit :=
  let number := wrap64 header.number
  if number = 0 then .error .unknownBlock
  else
    match ecrecover C header with
    | .error err => .error err
    | .ok signer =>
      if signer ∉ snap.signers then .error .unauthorizedSigner
      -- only fail if the current block doesn't shift the signer out
      else if snap.recents.entries.any fun e ↦ e.2 == signer && decide (e.1 > sub64 number snap.limit) then
        .error .recentlySigned
      else if fakeDiff then .ok ()
      else if snap.inturn number signer = true ∧ header.difficulty ≠ diffInTurn then .error .wrongDifficulty
      else if snap.inturn number signer = false ∧ header.difficulty ≠ diffNoTurn then .error .wrongDifficulty
      else .ok ()

end Voting

/-! ## The replay of headers -/

/-- `apply`. -/
def Snapshot.apply (C : Crypto) (snap : Snapshot) (headers : List Header) : Except CliqueError Snapshot :=
  match headers.head?, headers.getLast? with
  | some first, some last =>
    if ¬ headers.IsChain (fun h h' ↦ wrap64 h'.number = add64 (wrap64 h.number) 1) then
      .error .invalidVotingChain
    else if wrap64 first.number ≠ add64 snap.number 1 then .error .invalidVotingChain
    else
      match snap.toVoting.applyHeaders C headers with
      | .error err => .error err
      | .ok next => .ok ⟨next, add64 snap.number headers.length, last.hash C⟩
  | _, _ => .ok snap

end GoEntropy.Clique
