import GoEntropy.Chain.Conservation
import GoEntropy.Evm.Passes

/-!
# The virtual machine does not mint gas

No entry point returns more gas than it is given. The bound itself is the subject of
`GoEntropy.Evm.GasBound`; here it is stated for the entry points, together with the reason why it is
not an accident of 64-bit arithmetic: along every frame, the sums and differences that calls and
creations compute are the sums and differences of natural numbers.

There is one exception. `callGas` subtracts the base price of a call from the available gas before
anything has checked that the gas suffices, and the difference can wrap. Then the price of the
instruction exceeds the gas, so the instruction fails (`ExactCall.available`).

The order of forks that `CheckConfigForkOrder` enforces is not enough. The merge is not part of it, and
in a block that announces the merge on a chain without EIP-150 gas can be minted.
-/

namespace GoEntropy.Execution

open Interaction Evm

/-! ## The gas of a frame -/

section Frames

variable {evm : EVM} {runner : Runner} (hrun : runner.BoundedBelow (2 ^ 64))
  (hforks : evm.CapsCalls (usesAccessList evm.chainRules)) {start scope : Scope} {fees : Nat}

include hrun hforks

/-- **Along a frame** the gas never exceeds what it started with. -/
theorem gas_le_of_passes (hstart : start.memory = Memory.empty) (hgas : start.contract.gas < 2 ^ 64)
    (h : Passes evm (selectJumpTable evm.chainRules) (evm.callees runner) start fees scope) :
    scope.contract.gas ≤ start.contract.gas := by
  induction h with
  | start => exact le_rfl
  | step hpasses hreach hnext ih =>
    obtain ⟨words, hm⟩ := hpasses.paidFor (entry_selectJumpTable evm.chainRules) hstart
    have hspends := spends_step hrun le_rfl (.inl hforks) hm.charged (lt_of_le_of_lt ih hgas)
    exact ((hspends _).of_canReturn (hreach.canReturn_step hnext)).1.trans ih

end Frames

/-! ## Exact sums -/

/-- The price of a call and what becomes of it, as natural numbers. -/
structure ExactCall (evm : EVM) (contract : Contract) (value : Option Nat) (stack : Stack)
    (temp price base cold : Nat) : Prop where
  /-- The base price, the gas for the callee and the surcharge are added without wrapping. -/
  price_eq : price = base + temp + cold
  /-- The surcharge is taken off the gas and put back. -/
  putBack : cold ≤ contract.gas ∧ add64 (contract.gas - cold) cold = contract.gas
  /-- The gas for the callee is computed from what is left after the surcharge. -/
  callGas_eq :
    callGas evm.chainRules.isEIP150 (contract.gas - cold) base (stack.back 0) = some temp
  /-- The difference in `callGas` is exact unless the price exceeds the gas. -/
  available : price ≤ contract.gas → sub64 (contract.gas - cold) base = contract.gas - cold - base
  /-- The stipend is added without wrapping. -/
  handed : price ≤ contract.gas → add64 temp (stipend value stack) = temp + stipend value stack
  /-- What the callee leaves is given back without wrapping. -/
  takenBack : price ≤ contract.gas → ∀ left ≤ temp + stipend value stack,
    add64 (contract.gas - price) left = contract.gas - price + left

theorem ExactCall.of_callPrice {evm : EVM} {contract : Contract} {value : Option Nat} {stack : Stack}
    {fee temp price base cold : Nat} (hgas : contract.gas < 2 ^ 64)
    (h : CallPrice evm contract value stack fee temp price base cold) :
    ExactCall evm contract value stack temp price base cold := by
  have hprice := h.price_eq
  have hcovers := h.covers
  refine ⟨h.price_eq, ⟨h.cold_le, ?_⟩, h.callGas_eq, fun hle ↦ ?_, fun hle ↦ ?_,
    fun hle left hleft ↦ ?_⟩
  · rw [add64_of_lt (by rwa [Nat.sub_add_cancel h.cold_le]), Nat.sub_add_cancel h.cold_le]
  · exact sub64_of_le (by omega) (by omega)
  · exact add64_of_lt (by omega)
  · exact add64_of_lt (by omega)

/-- The position of the value among the operands of a call. -/
def valueOperand : OpCode → Option Nat
  | .call => some 2
  | .callCode => some 2
  | _ => none

def oldCallGas : OpCode → GasFunc
  | .callCode => gasCallCode
  | .delegateCall => gasDelegateCall
  | .staticCall => gasStaticCall
  | _ => gasCall

/-- What a call does with the gas for the callee. -/
def callBody : OpCode → Nat → Callees → Scope → EvmM ExecResult
  | .callCode => callCodeWithGas
  | .delegateCall => delegateCallWithGas
  | .staticCall => staticCallWithGas
  | _ => callWithGas

theorem oldCall_oldCallGas {op : OpCode} (hop : op.isCall = true) :
    OldCall (valueOperand op) (oldCallGas op) := by
  cases op with
  | call => exact oldCall_gasCall
  | callCode => exact oldCall_gasCallCode
  | delegateCall | staticCall => exact oldCall_gasDelegateCall
  | _ => cases hop

/-- The entries of the four calls, where the selected table has them. -/
theorem callEntry (rules : Rules) {op : OpCode} (hop : op.isCall = true) :
    selectJumpTable rules op = undefinedOperation ∨
      (selectJumpTable rules op).execute = callOp (callBody op) ∧
        (selectJumpTable rules op).dynamicGas = some (callGasFunc (usesAccessList rules) (oldCallGas op)) := by
  refine selectJumpTable_cases (P := fun lists table ↦ table op = undefinedOperation ∨
    (table op).execute = callOp (callBody op) ∧
      (table op).dynamicGas = some (callGasFunc lists (oldCallGas op))) ?_ ?_ ?_ ?_ ?_ rules
  all_goals
    cases op with
    | call | callCode => exact .inr ⟨rfl, rfl⟩
    | delegateCall | staticCall => first | exact .inl rfl | exact .inr ⟨rfl, rfl⟩
    | _ => cases hop

/-- What the instruction that a frame is about to execute computes with gas is exact. -/
structure ExactSums (evm : EVM) (scope : Scope) : Prop where
  gas_lt : scope.contract.gas < 2 ^ 64
  /-- Calls: the gas function, and the instruction if it is paid for. -/
  calls : (scope.contract.getOp scope.pc).isCall = true → ∀ contract g size m,
    scope.contract.useGas (scope.entry (selectJumpTable evm.chainRules)).constantGas =
      some contract →
    (scope.entry (selectJumpTable evm.chainRules)).dynamicGas = some g →
    (scope.entry (selectJumpTable evm.chainRules)).requiredMemory scope.stack = some size →
    (g evm contract scope.stack scope.memory size m).Returns fun p ↦
      ∀ price mem, p.1 = some (price, mem) → ∃ base cold,
        ExactCall evm contract (valueOperand (scope.contract.getOp scope.pc)) scope.stack
          p.2.callGasTemp price base cold
  /-- Creations: what is handed over is deducted, and what is left of it is given back. -/
  creations : ∀ m fee scope' m',
    ReachesExecute evm (selectJumpTable evm.chainRules) scope m fee scope' m' →
    ∀ handed ≤ scope'.contract.gas, ∀ left ≤ handed,
      add64 (scope'.contract.gas - handed) left = scope'.contract.gas - handed + left

theorem exactSums_of_gas_lt {evm : EVM} {scope : Scope} {fees words : Nat}
    (hforks : evm.CapsCalls (usesAccessList evm.chainRules))
    (hm : scope.memory.PaidFor fees words) (hgas : scope.contract.gas < 2 ^ 64) :
    ExactSums evm scope := by
  refine ⟨hgas, fun hop contract g size m hpaid hg hsize ↦ ?_,
    fun m fee scope' m' hreach handed hle left hleft ↦ ?_⟩
  · obtain hundefined | ⟨-, hold⟩ := callEntry evm.chainRules hop
    · rw [Scope.entry, hundefined] at hg
      cases hg
    obtain rfl := Option.some_inj.1 (hg.symm.trans hold)
    obtain ⟨words, rfl⟩ := requiredMemory_eq_some hsize
    have hgas' : contract.gas < 2 ^ 64 := by
      have := Contract.gas_of_useGas hpaid
      omega
    refine (returns_callGasFunc (oldCall_oldCallGas hop).cost le_rfl (.inl hforks) scope.stack words m hm.charged
      hgas').mono fun p ⟨cold, hp⟩ price mem hprice ↦ ?_
    obtain ⟨fee, base, _, hcall⟩ := hp _ hprice
    exact ⟨base, cold, .of_callPrice hgas' hcall⟩
  · have := (hreach.paidFor (entry_selectJumpTable evm.chainRules) hm).2 hforks hgas
    exact add64_of_lt (by omega)

/-! ## The entry points -/

/-- Given so much gas, the entry points return at most as much, whatever the state answers. -/
structure EntryPointsBounded (evm : EVM) (runner : Runner) (gas : Nat) : Prop where
  call : ∀ caller addr input value,
    Yields (·.leftOverGas ≤ gas) (evm.call runner caller addr input gas value)
  callCode : ∀ caller addr input value,
    Yields (·.leftOverGas ≤ gas) (evm.callCode runner caller addr input gas value)
  delegateCall : ∀ parent addr input,
    Yields (·.leftOverGas ≤ gas) (evm.delegateCall runner parent addr input gas)
  staticCall : ∀ caller addr input,
    Yields (·.leftOverGas ≤ gas) (evm.staticCall runner caller addr input gas)
  create : ∀ caller code value,
    Yields (·.leftOverGas ≤ gas) (evm.create runner caller code gas value)
  create2 : ∀ caller code value salt,
    Yields (·.leftOverGas ≤ gas) (evm.create2 runner caller code gas value salt)

theorem entryPointsBounded {evm : EVM} {runner : Runner} {gas : Nat}
    (hrun : runner.BoundedBelow (2 ^ 64)) (hgas : gas < 2 ^ 64) :
    EntryPointsBounded evm runner gas where
  call caller addr input _ := yields_entryLogic.call (hrun.at_gas hgas) caller addr input trivial
  callCode caller addr input := yields_entryLogic.callCode (hrun.at_gas hgas) caller addr input
  delegateCall parent addr input := yields_entryLogic.delegateCall (hrun.at_gas hgas) addr input parent
  staticCall caller addr input := yields_entryLogic.staticCall (hrun.at_gas hgas) caller addr input
  create caller code value := yields_create hrun caller code hgas value
  create2 caller code value salt := yields_create2 hrun caller code hgas value salt

/-- The price of storing code does not wrap, because code that is too long is refused first. -/
theorem createDataGas_of_checkCode {evm : EVM} {r : CallResult} (h : evm.checkCode r = none) :
    wrap64 (r.ret.length * Params.createDataGas) = r.ret.length * Params.createDataGas := by
  unfold EVM.checkCode at h
  split at h
  · cases h
  split at h
  · cases h
  next hlen =>
  refine wrap64_of_lt (lt_of_le_of_lt (Nat.mul_le_mul_right _ (not_lt.1 hlen)) ?_)
  decide

/-- **The virtual machine does not mint gas.** For every configuration whose forks are in order and
whose merge, if the block announces it, comes after EIP-150: whatever the state, the code and the
input, every entry point returns at most the gas supplied. Along every frame, the sums and differences
that calls and creations compute are exact, except that the difference in `callGas` may wrap where the
price of the call exceeds the gas. -/
theorem gas_is_not_minted {evm : EVM} (hconfig : evm.chainConfig.checkConfigForkOrder = .ok ())
    (hmerge : evm.context.random.isSome = true → evm.chainRules.isEIP150 = true) (depth : Nat) :
    (∀ gas < 2 ^ 64, EntryPointsBounded evm evm.interpreter gas) ∧
    (∀ contract input fees scope, contract.gas < 2 ^ 64 →
      Passes evm (selectJumpTable evm.chainRules) (evm.callees (evm.runner depth))
        (Scope.start contract input) fees scope →
      scope.contract.gas ≤ contract.gas ∧ ExactSums evm scope) ∧
    ∀ r, evm.checkCode r = none →
      wrap64 (r.ret.length * Params.createDataGas) = r.ret.length * Params.createDataGas := by
  -- the tables priced by access lists are only used with EIP-150
  have hforks : evm.CapsCalls (usesAccessList evm.chainRules) := fun h ↦
    (Bool.or_eq_true_iff.1 h).elim hmerge (ChainConfig.isEIP150_of_isLondon hconfig)
  have hrun : ∀ depth, (evm.runner depth).BoundedBelow (2 ^ 64) :=
    bounded_runner le_rfl (.inl hforks)
  refine ⟨fun gas ↦ entryPointsBounded (hrun maxNesting),
    fun contract input fees scope hgas h ↦ ?_, fun r ↦ createDataGas_of_checkCode⟩
  obtain ⟨words, hm⟩ := h.paidFor (entry_selectJumpTable evm.chainRules) rfl
  have hle : scope.contract.gas ≤ contract.gas := gas_le_of_passes (hrun depth) hforks rfl hgas h
  exact ⟨hle, exactSums_of_gas_lt hforks hm (lt_of_le_of_lt hle hgas)⟩

open Chain.Sample State.Sample in
/-- On a chain with every fork, a call that is given 9000 gas returns at most 9000. -/
theorem gas_is_not_minted_greedy :
    EntryPointsBounded (evm crypto (some 1)) (evm crypto (some 1)).interpreter 9000 :=
  (gas_is_not_minted rfl (fun _ ↦ rfl) 0).1 9000 (by decide)

open Chain.Sample State.Sample in
/-- The order of forks of a chain without forks is accepted, but in a block that announces the merge a
call that is given 9000 gas returns almost 2⁶⁴. And on a chain with every fork, a call that sends value
with 700 gas left is offered more than 2⁶³ for its callee. -/
theorem gas_minted_without_eip150 :
    forklessEvm.chainConfig.checkConfigForkOrder = .ok () ∧
      ((forklessEvm.call forklessEvm.interpreter 0x10 0x20 [] 9000 0 Machine.init).run
        (State.StateDB.handler (database greedyCode)) (state greedyCode)).toOption.map
          (fun p ↦ (p.1.1.leftOverGas, p.1.1.err)) = some (18446744073709535889, none) ∧
      (evm crypto none).chainConfig.checkConfigForkOrder = .ok () ∧
      ((gasCall (evm crypto none) ⟨0x10, 0x20, [], 0, some 0x20, [], 700, 0⟩
        [0xffffffffffffffff, 0x28, 1, 0, 0, 0, 0] Memory.empty 0 Machine.init).run
          (State.StateDB.handler (database [])) (state [])).toOption.map
            (fun p ↦ p.1.2.callGasTemp) = some 18158513697557831702 :=
  ⟨rfl, by decide +kernel, rfl, by decide +kernel⟩

end GoEntropy.Execution
