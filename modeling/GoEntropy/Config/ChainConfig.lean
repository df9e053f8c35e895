import Mathlib

/-!
# Chain configuration and protocol parameters

The fork schedule and the gas constants. Only three hard forks are scheduled by block number in this
code base (Homestead, EIP-150 and London); the merge is announced by the block context instead.
-/

namespace GoEntropy

/-! ## Forks -/

/-- `config.ChainConfig`: the chain identifier and the fork schedule. `none` is a nil pointer, a fork
that is not scheduled. -/
structure ChainConfig where
  chainID : Option Nat
  homesteadBlock : Option Nat
  eip150Block : Option Nat
  londonBlock : Option Nat
  deriving Repr, DecidableEq

/-- `isForked`: whether a fork scheduled at block `s` is active at the given head block. -/
def isForked (s : Option Nat) (head : Nat) : Bool :=
  match s with
  | none => false
  | some s => decide (s ≤ head)

/-- `config.Rules`. -/
structure Rules where
  chainID : Nat
  isHomestead : Bool
  isEIP150 : Bool
  isLondon : Bool
  isMerge : Bool
  deriving Repr, DecidableEq

namespace ChainConfig

variable (cc : ChainConfig)

/-- `IsHomestead`. -/
def isHomestead (num : Nat) : Bool := isForked cc.homesteadBlock num

/-- `IsEIP150`. -/
def isEIP150 (num : Nat) : Bool := isForked cc.eip150Block num

/-- `IsLondon`. -/
def isLondon (num : Nat) : Bool := isForked cc.londonBlock num

/-- `ChainConfig.Rules`, which ensures the chain identifier is not nil. -/
def rules (num : Nat) (isMerge : Bool) : Rules where
  chainID := cc.chainID.getD 0
  isHomestead := cc.isHomestead num
  isEIP150 := cc.isEIP150 num
  isLondon := cc.isLondon num
  isMerge := isMerge

/-- The forks `CheckConfigForkOrder` goes through. -/
inductive Fork where
  | homestead
  | eip150
  | london
  deriving Repr, DecidableEq

/-- The errors of `CheckConfigForkOrder`. -/
inductive ForkOrderError where
  | notEnabled (last cur : Fork) (block : Nat)
  | outOfOrder (last : Fork) (lastBlock : Nat) (cur : Fork) (block : Nat)
  deriving Repr, DecidableEq

/-- One round of the loop: a fork needs the one before it, and must not precede it. -/
def checkForkAfter (last : Fork × Option Nat) (cur : Fork × Option Nat) : Except ForkOrderError Unit :=
  match last.2, cur.2 with
  | none, some block => .error (.notEnabled last.1 cur.1 block)
  | some lastBlock, some block =>
    if lastBlock > block then .error (.outOfOrder last.1 lastBlock cur.1 block) else .ok ()
  | _, none => .ok ()

/-- `CheckConfigForkOrder`, which every configuration passes before a chain is set up with it. -/
def checkConfigForkOrder : Except ForkOrderError Unit := do
  checkForkAfter (.homestead, cc.homesteadBlock) (.eip150, cc.eip150Block)
  checkForkAfter (.eip150, cc.eip150Block) (.london, cc.londonBlock)

end ChainConfig

/-- Where the order of two forks is accepted, the later one is only active with the earlier one. -/
theorem ChainConfig.isForked_of_checkForkAfter {last cur : ChainConfig.Fork} {s s' : Option Nat}
    {head : Nat} (hok : ChainConfig.checkForkAfter (last, s) (cur, s') = .ok ())
    (h : isForked s' head = true) : isForked s head = true := by
  cases s' with
  | none => exact absurd h Bool.false_ne_true
  | some block =>
    cases s with
    | none => cases hok
    | some lastBlock =>
      have hle : lastBlock ≤ block := by
        by_contra hlt
        have hgt : lastBlock > block := Nat.lt_of_not_le hlt
        simp only [ChainConfig.checkForkAfter, if_pos hgt] at hok
        cases hok
      exact decide_eq_true (Nat.le_trans hle (of_decide_eq_true h))

theorem ChainConfig.isEIP150_of_isLondon {cc : ChainConfig} {num : Nat}
    (hok : cc.checkConfigForkOrder = .ok ()) (h : cc.isLondon num = true) :
    cc.isEIP150 num = true := by
  unfold checkConfigForkOrder at hok
  cases hfirst : checkForkAfter (.homestead, cc.homesteadBlock) (.eip150, cc.eip150Block) with
  | error e =>
    rw [hfirst] at hok
    cases hok
  | ok _ =>
    rw [hfirst] at hok
    exact isForked_of_checkForkAfter hok h

/-! ## Protocol parameters -/

namespace Params

def callValueTransferGas : Nat := 9000
def callNewAccountGas : Nat := 25000
def txGas : Nat := 21000
def txGasContractCreation : Nat := 53000
def txDataZeroGas : Nat := 4
def txDataNonZeroGasFrontier : Nat := 68
def txAccessListAddressGas : Nat := 2400
def txAccessListStorageKeyGas : Nat := 1900
def quadCoeffDiv : Nat := 512
def memoryGas : Nat := 3
def copyGas : Nat := 3
def callStipend : Nat := 2300
def keccak256Gas : Nat := 30
def keccak256WordGas : Nat := 6
def logGas : Nat := 375
def logTopicGas : Nat := 375
def logDataGas : Nat := 8
def jumpdestGas : Nat := 1
def createGas : Nat := 32000
def create2Gas : Nat := 32000
def createDataGas : Nat := 200
def callCreateDepth : Nat := 1024
def stackLimit : Nat := 1024
def maxCodeSize : Nat := 24576
def expGas : Nat := 10
def expByteFrontier : Nat := 10
def expByteEIP158 : Nat := 50

def netSstoreNoopGas : Nat := 200
def netSstoreInitGas : Nat := 20000
def netSstoreCleanGas : Nat := 5000
def netSstoreDirtyGas : Nat := 200
def netSstoreClearRefund : Nat := 15000
def netSstoreResetRefund : Nat := 4800
def netSstoreResetClearRefund : Nat := 19800

def sstoreSentryGasEIP2200 : Nat := 2300
def sstoreSetGasEIP2200 : Nat := 20000
def sstoreResetGasEIP2200 : Nat := 5000
def sstoreClearsScheduleRefundEIP2200 : Nat := 15000

def coldAccountAccessCostEIP2929 : Nat := 2600
def coldSloadCostEIP2929 : Nat := 2100
def warmStorageReadCostEIP2929 : Nat := 100

/-- `5000 - COLD_SLOAD_COST + ACCESS_LIST_STORAGE_KEY_COST`. -/
def sstoreClearsScheduleRefundEIP3529 : Nat :=
  sstoreResetGasEIP2200 - coldSloadCostEIP2929 + txAccessListStorageKeyGas

def callGasFrontier : Nat := 40
def callGasEIP150 : Nat := 700
def balanceGasFrontier : Nat := 20
def balanceGasEIP150 : Nat := 400
def balanceGasEIP1884 : Nat := 700
def extcodeSizeGasFrontier : Nat := 20
def extcodeSizeGasEIP150 : Nat := 700
def sloadGasFrontier : Nat := 50
def sloadGasEIP150 : Nat := 200
def sloadGasEIP1884 : Nat := 800
def sloadGasEIP2200 : Nat := 800
def extcodeHashGasConstantinople : Nat := 400
def extcodeHashGasEIP1884 : Nat := 700
def extcodeCopyBaseFrontier : Nat := 20
def extcodeCopyBaseEIP150 : Nat := 700
def selfdestructGasEIP150 : Nat := 5000
def selfdestructRefundGas : Nat := 24000
def createBySelfdestructGas : Nat := 25000

def ecrecoverGas : Nat := 3000
def sha256BaseGas : Nat := 60
def sha256PerWordGas : Nat := 12
def ripemd160BaseGas : Nat := 600
def ripemd160PerWordGas : Nat := 120
def identityBaseGas : Nat := 15
def identityPerWordGas : Nat := 3

def refundQuotient : Nat := 2
def refundQuotientEIP3529 : Nat := 5

end Params

end GoEntropy
