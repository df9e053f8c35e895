import GoEntropy.Chain.Block
import GoEntropy.Container.Maps
import GoEntropy.Container.Results

/-!
# Proof of work

The rules of `ethash` for headers and for the uncles of a block, and the rewards it credits.

The function that a seal is made with is a parameter: it is given the number of the block, which
selects the cache, the hash of the header without its seal, and the nonce.
-/

namespace GoEntropy.Ethash

open GoEntropy.Chain (Header Block bloomBytes emptyUncleHash)

inductive EthashError where
  | extraTooLong (have_ max : Nat)
  | futureBlock
  | olderBlockTime
  | wrongDifficulty (have_ : Nat) (want : ℤ)
  | gasLimitTooHigh (have_ max : UInt64)
  | gasUsedTooHigh (have_ limit : UInt64)
  | baseFeeBeforeFork (have_ : Nat)
  | invalidGasLimit (have_ want bound : UInt64)
  | gasLimitBelowMinimum
  | missingBaseFee
  | invalidBaseFee (have_ want : Nat)
  | invalidNumber
  | invalidDifficulty
  | invalidMixDigest
  | invalidPoW
  | tooManyUncles
  | duplicateUncle
  | uncleIsAncestor
  | danglingUncle
  /-- A nil pointer was followed, or a number was divided by zero. -/
  | panicked
  deriving DecidableEq

/-! ## Gas limits and base fees -/

def gasLimitBoundDivisor : UInt64 := 1024

def minGasLimit : UInt64 := 5000

def maxGasLimit : UInt64 := 0x7fffffffffffffff

def maximumExtraDataSize : Nat := 32

def elasticityMultiplier : UInt64 := 2

def baseFeeChangeDenominator : Nat := 8

def initialBaseFee : Nat := 1000000000

/-- `VerifyGaslimit`. The difference is one of signed integers. -/
def verifyGaslimit (parentGasLimit headerGasLimit : UInt64) : Except EthashError Unit :=
  let diff := parentGasLimit.toInt64 - headerGasLimit.toInt64
  let diff := if diff < 0 then diff * (-1) else diff
  let limit := parentGasLimit / gasLimitBoundDivisor
  if limit ≤ diff.toUInt64 then .error (.invalidGasLimit headerGasLimit parentGasLimit (limit - 1))
  else if headerGasLimit < minGasLimit then .error .gasLimitBelowMinimum
  else .ok ()

/-- `CalcBaseFee`. -/
def calcBaseFee (config : ChainConfig) (parent : Header) : Except EthashError Nat :=
  if config.isLondon parent.number = false then .ok initialBaseFee
  else
    let parentGasTarget := parent.gasLimit / elasticityMultiplier
    match parent.baseFee with
    | none => .error .panicked
    | some baseFee =>
      if parent.gasUsed = parentGasTarget then .ok baseFee
      else if parentGasTarget = 0 then .error .panicked
      else if parentGasTarget < parent.gasUsed then
        let delta := (parent.gasUsed - parentGasTarget).toNat * baseFee / parentGasTarget.toNat /
          baseFeeChangeDenominator
        .ok (baseFee + max delta 1)
      else
        let delta := (parentGasTarget - parent.gasUsed).toNat * baseFee / parentGasTarget.toNat /
          baseFeeChangeDenominator
        -- the larger one of the difference and zero
        .ok (baseFee - delta)

/-- `VerifyEip1559Header`. -/
def verifyEip1559Header (config : ChainConfig) (parent header : Header) : Except EthashError Unit := do
  let parentGasLimit :=
    if config.isLondon parent.number then parent.gasLimit else parent.gasLimit * elasticityMultiplier
  verifyGaslimit parentGasLimit header.gasLimit
  match header.baseFee with
  | none => .error .missingBaseFee
  | some baseFee =>
    let expected ← calcBaseFee config parent
    if baseFee ≠ expected then .error (.invalidBaseFee baseFee expected) else .ok ()

/-- `VerifyForkHashes`, an optional feature that is not used. -/
def verifyForkHashes (_ : ChainConfig) (_ : Header) (_ : Bool) : Except EthashError Unit := .ok ()

/-! ## Difficulties -/

def difficultyBoundDivisor : ℤ := 2048

def minimumDifficulty : ℤ := 131072

def durationLimit : ℤ := 13

def expDiffPeriod : ℤ := 100000

def addBomb (difficulty periodCount : ℤ) : ℤ :=
  if 1 < periodCount then difficulty + 2 ^ (periodCount - 2).toNat else difficulty

/-- The difficulty of the parent, adjusted by a multiple of its bound, and not below the minimum. -/
def adjust (parent : Header) (factor : ℤ) : ℤ :=
  max (parent.difficulty + parent.difficulty / difficultyBoundDivisor * max factor (-99)) minimumDifficulty

def elapsed (time : UInt64) (parent : Header) : ℤ := time.toNat - parent.time.toNat

/-- `makeDifficultyCalculator`. -/
def makeDifficultyCalculator (C : Crypto) (bombDelay : ℤ) (time : UInt64) (parent : Header) : ℤ :=
  let bombDelayFromParent := bombDelay - 1
  let uncles := if parent.uncleHash = emptyUncleHash C then 1 else 2
  let fakeBlockNumber :=
    if bombDelayFromParent ≤ parent.number then parent.number - bombDelayFromParent else 0
  addBomb (adjust parent (uncles - elapsed time parent / 9)) (fakeBlockNumber / expDiffPeriod)

/-- `calcDifficultyLondon`. -/
def calcDifficultyLondon (C : Crypto) : UInt64 → Header → ℤ := makeDifficultyCalculator C 9700000

/-- `calcDifficultyHomestead`. -/
def calcDifficultyHomestead (time : UInt64) (parent : Header) : ℤ :=
  addBomb (adjust parent (1 - elapsed time parent / 10)) ((parent.number + 1) / expDiffPeriod)

/-- `calcDifficultyFrontier`. -/
def calcDifficultyFrontier (time : UInt64) (parent : Header) : ℤ :=
  let bound := parent.difficulty / difficultyBoundDivisor
  let diff :=
    if elapsed time parent < durationLimit then parent.difficulty + bound else parent.difficulty - bound
  let diff := max diff minimumDifficulty
  let periodCount := (parent.number + 1) / expDiffPeriod
  if 1 < periodCount then max (addBomb diff periodCount) minimumDifficulty else diff

/-- `CalcDifficulty`. -/
def calcDifficulty (C : Crypto) (config : ChainConfig) (time : UInt64) (parent : Header) : ℤ :=
  let next := parent.number + 1
  if config.isLondon next then calcDifficultyLondon C time parent
  else if config.isHomestead next then calcDifficultyHomestead time parent
  else calcDifficultyFrontier time parent

/-! ## Seals -/

/-- `Mode`. -/
inductive Mode where
  | normal
  | shared
  | test
  | fake
  | fullFake
  deriving DecidableEq

/-- What an engine checks seals with. -/
structure Sealer where
  powMode : Mode
  fakeFail : Nat
  /-- `hashimotoLight`, with the cache and the size of the epoch of a block. -/
  hashimoto : Nat → Hash → BitVec 64 → Bytes × Bytes

/-- `Ethash`, with the engine it shares the check of seals with. -/
structure Engine extends Sealer where
  sharedSealer : Option Sealer

/-- `SealHash`. -/
def sealHash (C : Crypto) (h : Header) : Hash :=
  C.keccak256 (Rlp.list ([Rlp.bytes (hashBytes h.parentHash), Rlp.bytes (hashBytes h.uncleHash),
    Rlp.bytes (addressBytes h.coinbase), Rlp.bytes (hashBytes h.root), Rlp.bytes (hashBytes h.txHash),
    Rlp.bytes (hashBytes h.receiptHash), Rlp.bytes (bloomBytes h.bloom), Rlp.uint h.difficulty,
    Rlp.uint h.number, Rlp.uint h.gasLimit.toNat, Rlp.uint h.gasUsed.toNat, Rlp.uint h.time.toNat,
    Rlp.bytes h.extra] ++ h.baseFee.toList.map Rlp.uint))

/-- `verifySeal` of an engine that does not share, by the cache of the epoch. -/
def Sealer.verifySeal (C : Crypto) (sealer : Sealer) (header : Header) : Except EthashError Unit :=
  if sealer.powMode = .fake ∨ sealer.powMode = .fullFake then
    if sealer.fakeFail = wrap64 header.number then .error .invalidPoW else .ok ()
  else if header.difficulty = 0 then .error .invalidDifficulty
  else
    let (digest, result) := sealer.hashimoto (wrap64 header.number) (sealHash C header) header.nonce
    if hashBytes header.mixDigest ≠ digest then .error .invalidMixDigest
    else if 2 ^ 256 / header.difficulty < setBytes result then .error .invalidPoW
    else .ok ()

/-- `verifySeal`. -/
def Engine.verifySeal (C : Crypto) (engine : Engine) (header : Header) : Except EthashError Unit :=
  if engine.powMode = .fake ∨ engine.powMode = .fullFake then engine.toSealer.verifySeal C header
  else
    match engine.sharedSealer with
    | some sealer => sealer.verifySeal C header
    | none => engine.toSealer.verifySeal C header

/-! ## Headers -/

def allowedFutureBlockTimeSeconds : Int64 := 15

/-- `verifyHeader`. -/
def verifyHeader (C : Crypto) (engine : Engine) (config : ChainConfig) (header parent : Header)
    (uncle checkSeal : Bool) (unixNow : Int64) : Except EthashError Unit := do
  if maximumExtraDataSize < header.extra.length then
    throw (.extraTooLong header.extra.length maximumExtraDataSize)
  if uncle = false ∧ (unixNow + allowedFutureBlockTimeSeconds).toUInt64 < header.time then
    throw .futureBlock
  if header.time ≤ parent.time then
    throw .olderBlockTime
  let expected := calcDifficulty C config header.time parent
  if expected ≠ header.difficulty then
    throw (.wrongDifficulty header.difficulty expected)
  if maxGasLimit < header.gasLimit then
    throw (.gasLimitTooHigh header.gasLimit maxGasLimit)
  if header.gasLimit < header.gasUsed then
    throw (.gasUsedTooHigh header.gasUsed header.gasLimit)
  if config.isLondon header.number then
    verifyEip1559Header config parent header
  else
    match header.baseFee with
    | some baseFee => throw (.baseFeeBeforeFork baseFee)
    | none => verifyGaslimit parent.gasLimit header.gasLimit
  if header.number ≠ parent.number + 1 then
    throw .invalidNumber
  if checkSeal then
    engine.verifySeal C header
  verifyForkHashes config header uncle

/-! ## Uncles -/

/-- `ChainReader`: the headers and the blocks that are stored, by hash and number. -/
structure ChainReader (C : Crypto) where
  getHeader : Hash → Nat → Option Header
  getBlock : Hash → Nat → Option (Block C)

def maxUncles : Nat := 2

/-- The hashes that are banned as uncles, and the ancestors by their hashes. -/
structure Family where
  banned : Finset Hash
  ancestors : AList fun _ : Hash ↦ Header

variable {C : Crypto}

/-- The loop of `VerifyUncles` that gathers the past uncles and the ancestors, for some generations. -/
def gather (chain : ChainReader C) : Nat → Hash → Nat → Family → Family
  | 0, _, _, family => family
  | n + 1, parent, number, family =>
    match chain.getHeader parent number with
    | none => family
    | some ancestorHeader =>
      let family := { family with ancestors := family.ancestors.insert parent ancestorHeader }
      -- if the ancestor doesn't have any uncles, there is nothing to iterate
      if ancestorHeader.uncleHash ≠ emptyUncleHash C then
        match chain.getBlock parent number with
        | none => family
        | some ancestor =>
          gather chain n ancestorHeader.parentHash (sub64 number 1)
            { family with banned := family.banned ∪ (ancestor.uncles.map (Header.hash C)).toFinset }
      else gather chain n ancestorHeader.parentHash (sub64 number 1) family

/-- The loop of `VerifyUncles` over the uncles of a block; `now` is the time at which one of them is
verified. -/
def verifyEach (engine : Engine) (config : ChainConfig) (block : Block C) (now : Header → Int64) :
    Family → List Header → Except EthashError Unit
  | _, [] => .ok ()
  | family, uncle :: uncles =>
    if uncle.hash C ∈ family.banned then .error .duplicateUncle
    else if (family.ancestors.lookup (uncle.hash C)).isSome then .error .uncleIsAncestor
    else
      match family.ancestors.lookup uncle.parentHash with
      | none => .error .danglingUncle
      | some parent =>
        if uncle.parentHash = block.header.parentHash then .error .danglingUncle
        else
          match verifyHeader C engine config uncle parent true true (now uncle) with
          | .error err => .error err
          | .ok () =>
            verifyEach engine config block now
              { family with banned := insert (uncle.hash C) family.banned } uncles

/-- `VerifyUncles`. -/
def verifyUncles (engine : Engine) (config : ChainConfig) (chain : ChainReader C) (block : Block C)
    (now : Header → Int64) : Except EthashError Unit :=
  if engine.powMode = .fullFake then .ok ()
  else if maxUncles < block.uncles.length then .error .tooManyUncles
  else if block.uncles = [] then .ok ()
  else
    let family := gather chain 7 block.header.parentHash (sub64 (wrap64 block.header.number) 1) ⟨∅, ∅⟩
    let family : Family :=
      { ancestors := family.ancestors.insert block.hash block.header
        banned := insert block.hash family.banned }
    verifyEach engine config block now family block.uncles

/-! ## Rewards -/

/-- `FrontierBlockReward`. -/
def frontierBlockReward : ℤ := 5000000000000000000

def uncleReward (header uncle : Header) : ℤ := (uncle.number + 8 - header.number) * frontierBlockReward / 8

/-- `accumulateRewards`. -/
def accumulateRewards (db : State.StateDatabase C) (state : State.StateDB) (header : Header)
    (uncles : List Header) : State.StateDB :=
  let (state, reward) := uncles.foldl (fun (state, reward) uncle ↦
    (state.addBalance db uncle.coinbase (uncleReward header uncle), reward + frontierBlockReward / 32))
    (state, frontierBlockReward)
  state.addBalance db header.coinbase reward

end GoEntropy.Ethash
