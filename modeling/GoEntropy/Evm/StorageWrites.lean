import GoEntropy.Evm.CodeLogic

/-!
# Writing storage

`SSTORE` is the one instruction whose price depends on what it overwrites, and its gas function changes
the refund counter on the way. The forks differ in three things: whether the function refuses to run on
the gas of a stipend, whether it consults the access list, and the prices. `sstoreGas` is the function
with these as parameters, and every instruction set has an instance of it.
-/

namespace GoEntropy.Evm

open Interaction

/-- What overwriting a dirty slot does to the refund for clearing it. -/
def changeClearRefund (p : NetSstore) (original current value : Hash) : EvmM Unit :=
  if original = 0 then pure ()
  else if current = 0 then query (.subRefund p.clearRefund)
  else if value = 0 then query (.addRefund p.clearRefund)
  else pure ()

def grantResetRefund (p : NetSstore) (original value : Hash) : EvmM Unit :=
  if original = value then
    if original = 0 then query (.addRefund p.resetClearRefund) else query (.addRefund p.resetRefund)
  else pure ()

/-- Net metering by cases: nothing changes, a clean slot changes, a dirty slot changes. -/
theorem netSstore_eq (p : NetSstore) (addr : Address) (slot value current : Hash) :
    netSstore p addr slot value current =
      if current = value then pure p.noop
      else query (.getCommittedState addr slot) >>= fun original ↦
        if original = current then
          if original = 0 then pure p.init
          else if value = 0 then query (.addRefund p.clearRefund) >>= fun _ ↦ pure p.clean
          else pure p.clean
        else changeClearRefund p original current value >>= fun _ ↦
          grantResetRefund p original value >>= fun _ ↦ pure p.dirty := by
  unfold netSstore changeClearRefund grantResetRefund
  split
  · rfl
  refine congrArg _ (funext fun original ↦ ?_)
  split
  · rfl
  by_cases horiginal : original = 0
  · simp only [horiginal, ne_eq, not_true_eq_false, if_false]
    split <;> rfl
  · split_ifs <;> rfl

/-- What the access list adds to the price of a write. -/
def slotCost (lists : Bool) (addr : Address) (slot : Hash) : EvmM Nat :=
  if lists then sstoreSlotCost addr slot else pure 0

theorem slotCost_false (addr : Address) (slot : Hash) : slotCost false addr slot = pure 0 := rfl

/-- The gas function of `SSTORE`: with or without the minimum gas, with or without the access list, at
prices that include what the access list costs. -/
def sstoreGas (sentry lists : Bool) (prices : Nat → NetSstore) : GasFunc :=
  fun _ contract stack mem _ ↦
    if sentry = true ∧ contract.gas ≤ Params.sstoreSentryGasEIP2200 then return none
    else do
      let current ← query (.getState contract.self (stack.back 0))
      let cost ← slotCost lists contract.self (stack.back 0)
      let gas ← netSstore (prices cost) contract.self (stack.back 0) (stack.back 1) current
      return some (gas, mem)

/-- The prices of EIP-1283. -/
def netPrices : NetSstore where
  noop := Params.netSstoreNoopGas
  init := Params.netSstoreInitGas
  clean := Params.netSstoreCleanGas
  dirty := Params.netSstoreDirtyGas
  clearRefund := Params.netSstoreClearRefund
  resetClearRefund := Params.netSstoreResetClearRefund
  resetRefund := Params.netSstoreResetRefund

/-- The prices of EIP-2200. -/
def sentryPrices : NetSstore where
  noop := Params.sloadGasEIP2200
  init := Params.sstoreSetGasEIP2200
  clean := Params.sstoreResetGasEIP2200
  dirty := Params.sloadGasEIP2200
  clearRefund := Params.sstoreClearsScheduleRefundEIP2200
  resetClearRefund := Params.sstoreSetGasEIP2200 - Params.sloadGasEIP2200
  resetRefund := Params.sstoreResetGasEIP2200 - Params.sloadGasEIP2200

/-- The prices of EIP-2929, with what the access list costs. -/
def listPrices (clearingRefund cost : Nat) : NetSstore where
  noop := cost + Params.warmStorageReadCostEIP2929
  init := cost + Params.sstoreSetGasEIP2200
  clean := cost + (Params.sstoreResetGasEIP2200 - Params.coldSloadCostEIP2929)
  dirty := cost + Params.warmStorageReadCostEIP2929
  clearRefund := clearingRefund
  resetClearRefund := Params.sstoreSetGasEIP2200 - Params.warmStorageReadCostEIP2929
  resetRefund := Params.sstoreResetGasEIP2200 - Params.coldSloadCostEIP2929 -
    Params.warmStorageReadCostEIP2929

theorem gasSStoreEIP2200_eq : gasSStoreEIP2200 = sstoreGas true false fun _ ↦ sentryPrices := by
  funext evm contract stack mem size
  simp [gasSStoreEIP2200, sstoreGas, slotCost, sentryPrices]

theorem makeGasSStoreFunc_eq (clearingRefund : Nat) :
    makeGasSStoreFunc clearingRefund = sstoreGas true true (listPrices clearingRefund) := by
  funext evm contract stack mem size
  simp [makeGasSStoreFunc, sstoreGas, slotCost, listPrices]

/-- The entry of `SSTORE`. -/
def sstoreEntry (sentry lists : Bool) (prices : Nat → NetSstore) : Operation :=
  dynamicOperation opSstore 0 (sstoreGas sentry lists prices) 2 0

inductive ClearingRefund : JumpTable → Nat → Prop
  | frontier : ClearingRefund newFrontierInstructionSet Params.netSstoreClearRefund
  | homestead : ClearingRefund newHomesteadInstructionSet Params.netSstoreClearRefund
  | tangerineWhistle : ClearingRefund newTangerineWhistleInstructionSet Params.netSstoreClearRefund
  | spuriousDragon : ClearingRefund newSpuriousDragonInstructionSet Params.netSstoreClearRefund
  | byzantium : ClearingRefund newByzantiumInstructionSet Params.netSstoreClearRefund
  | constantinople : ClearingRefund newConstantinopleInstructionSet Params.netSstoreClearRefund
  | istanbul : ClearingRefund newIstanbulInstructionSet Params.sstoreClearsScheduleRefundEIP2200
  | berlin : ClearingRefund newBerlinInstructionSet Params.sstoreClearsScheduleRefundEIP2200
  | london : ClearingRefund newLondonInstructionSet Params.sstoreClearsScheduleRefundEIP3529
  | merge : ClearingRefund newMergeInstructionSet Params.sstoreClearsScheduleRefundEIP3529

variable {jt : JumpTable}

theorem ClearingRefund.instructionSet {clear : Nat} (h : ClearingRefund jt clear) :
    InstructionSet jt := by
  cases h <;> constructor

theorem InstructionSet.clearingRefund (h : InstructionSet jt) :
    ∃ clear, ClearingRefund jt clear := by
  cases h with
  | frontier => exact ⟨_, .frontier⟩
  | homestead => exact ⟨_, .homestead⟩
  | tangerineWhistle => exact ⟨_, .tangerineWhistle⟩
  | spuriousDragon => exact ⟨_, .spuriousDragon⟩
  | byzantium => exact ⟨_, .byzantium⟩
  | constantinople => exact ⟨_, .constantinople⟩
  | istanbul => exact ⟨_, .istanbul⟩
  | berlin => exact ⟨_, .berlin⟩
  | london => exact ⟨_, .london⟩
  | merge => exact ⟨_, .merge⟩

/-- The `SSTORE` of an instruction set is the common one, at prices with its refund. -/
theorem ClearingRefund.sstore {clear : Nat} (h : ClearingRefund jt clear) :
    ∃ sentry lists prices, jt .sstore = sstoreEntry sentry lists prices ∧
      ∀ cost, (prices cost).clearRefund = clear := by
  cases h with
  | frontier | homestead | tangerineWhistle | spuriousDragon | byzantium | constantinople =>
    exact ⟨false, false, fun _ ↦ netPrices, rfl, fun _ ↦ rfl⟩
  | istanbul =>
    refine ⟨true, false, fun _ ↦ sentryPrices, ?_, fun _ ↦ rfl⟩
    rw [sstoreEntry, ← gasSStoreEIP2200_eq]
    rfl
  | berlin =>
    refine ⟨true, true, listPrices Params.sstoreClearsScheduleRefundEIP2200, ?_, fun _ ↦ rfl⟩
    rw [sstoreEntry, ← makeGasSStoreFunc_eq]
    rfl
  | london | merge =>
    refine ⟨true, true, listPrices Params.sstoreClearsScheduleRefundEIP3529, ?_, fun _ ↦ rfl⟩
    rw [sstoreEntry, ← makeGasSStoreFunc_eq]
    rfl

/-- The `SSTORE` of the instruction set that the interpreter selects. -/
theorem selectJumpTable_sstore (rules : Rules) :
    selectJumpTable rules .sstore =
      if usesAccessList rules then
        sstoreEntry true true (listPrices Params.sstoreClearsScheduleRefundEIP3529)
      else sstoreEntry false false fun _ ↦ netPrices := by
  have hlists : newLondonInstructionSet .sstore =
      sstoreEntry true true (listPrices Params.sstoreClearsScheduleRefundEIP3529) := by
    rw [sstoreEntry, ← makeGasSStoreFunc_eq]
    rfl
  exact selectJumpTable_cases (P := fun lists table ↦ table .sstore = if lists then
    sstoreEntry true true (listPrices Params.sstoreClearsScheduleRefundEIP3529)
      else sstoreEntry false false fun _ ↦ netPrices) rfl rfl rfl hlists hlists rules

/-! ## Executing a write -/

theorem wp_opSstore {σ : Type} {h : Handler StateInterface Fault σ} {A G : StateOp → σ → Prop}
    {E : Fault → Prop} (evm : EVM) (callees : Callees) {scope : Scope} {m : Machine} {s : σ}
    {Q : ExecResult × Machine → σ → Prop}
    (hcrash : scope.stack.length < 2 → E .indexOutOfRange)
    (hprotected : m.readOnly = true → Q (.halt scope [] (some .writeProtection), m) s)
    (hset : m.readOnly = false → (ask (.setState scope.contract.self (scope.stack.back 0)
      (scope.stack.back 1))).wp h A G E s fun _ t ↦
        Q (.next { scope with stack := scope.stack.drop 2 }, m) t) :
    (opSstore evm callees scope m).wp h A G E s Q := by
  obtain ⟨pc, stack, memory, contract⟩ := scope
  unfold opSstore writeOp
  rw [readRegister_bind]
  split
  · next hro => exact hprotected hro
  · next hro =>
    rcases stack with _ | ⟨loc, _ | ⟨val, st⟩⟩
    · exact hcrash Nat.two_pos
    · exact hcrash Nat.one_lt_two
    · exact wp_query_bind (hset (by simpa using hro)) fun _ _ ht ↦ ht

namespace CodeRules

variable {σ : Type} {C : CodeSetting σ} (L : CodeRules C)

include L

theorem sstoreSlotCost (hpanic : C.fault .sstoreAddressNotPresent) (addr : Address) (slot : Hash) :
    C.Keeps (sstoreSlotCost addr slot) := by
  refine L.andThen (L.harmlessQuery _ rfl) fun r ↦ ?_
  dsimp only
  split
  · exact L.pure _
  · refine L.andThen (L.harmlessQuery _ rfl) fun _ ↦ ?_
    split
    · exact L.pure _
    · exact fun _ _ _ _ ↦ hpanic

theorem slotCost (lists : Bool) (hpanic : C.fault .sstoreAddressNotPresent) (addr : Address)
    (slot : Hash) : C.Keeps (slotCost lists addr slot) := by
  unfold Evm.slotCost
  split
  · exact L.sstoreSlotCost hpanic addr slot
  · exact L.pure 0

/-- Where the refund counter does not matter, neither do the gas functions of writes. -/
theorem sstoreGas {sentry lists : Bool} {prices : Nat → NetSstore}
    (hpanic : C.fault .sstoreAddressNotPresent)
    (hadd : ∀ gas s, C.inv s → C.Passes (ask (.addRefund gas)) s)
    (hsub : ∀ gas s, C.inv s → C.Passes (ask (.subRefund gas)) s) (evm : EVM)
    (contract : Contract) (stack : Stack) (mem : Memory) (size : Nat) :
    C.Keeps (sstoreGas sentry lists prices evm contract stack mem size) := by
  have hmetered : Closed Metered fun _ x ↦ C.Keeps x :=
    { L.closed with
      query := by
        rintro o (ho | ⟨gas, rfl⟩ | ⟨gas, rfl⟩)
        · exact L.harmlessQuery o ho.harmless
        · exact keeps_query (hadd gas)
        · exact keeps_query (hsub gas) }
  unfold Evm.sstoreGas
  split
  · exact L.pure _
  · exact L.andThen (L.harmlessQuery _ rfl) fun current ↦
      L.andThen (L.slotCost lists hpanic _ _) fun cost ↦
        L.andThen ((tidy_netSstore ..).plain _ hmetered) fun gas ↦ L.pure _

end CodeRules

end GoEntropy.Evm
