import GoEntropy.Execution.GasSupply

/-!
# All but one 64th

The gas functions of the four calls leave the gas for the callee in a register, and `callGas` computes it from
a difference that may wrap. `callRule` is what EIP-150 asks for, in natural numbers. The entries of the calls
are equal to it: where the difference wraps, the price of the call exceeds the gas.
-/

namespace GoEntropy.Execution

open Interaction Evm Operation

/-! ## The rule -/

/-- The gas for the callee: what is requested, up to all but one 64th of what is left. -/
def allButOne64th (left requested : Nat) : Nat := min requested (left - left / 64)

/-- Whether the account of the callee exists. Only `CALL` looks. -/
def calleeExists (op : OpCode) (addr : Address) : EvmM Bool :=
  if op = .call then query (.exist addr) else pure true

/-- The surcharge for the account of the callee, which is accessed. -/
def coldAccess (lists : Bool) (addr : Address) : EvmM Nat :=
  if lists then (fun warm ↦ if warm then 0 else coldSurcharge) <$> accessAddress addr else pure 0

/-- The price of a call without the memory, the surcharge and the gas for the callee. -/
def callFee (op : OpCode) (stack : Stack) (present : Bool) : Nat :=
  (if present then 0 else Params.callNewAccountGas) +
    if (valueOperand op).any (stack.back · ≠ 0) then Params.callValueTransferGas else 0

/-- A call for the given base price and surcharge. One that fails leaves in the register what `callGas` makes
of the negative difference. -/
def handOver (op : OpCode) (callees : Callees) (scope : Scope) (memory : Memory) (base cold : Nat) :
    EvmM ExecResult :=
  if scope.contract.gas < base + cold then do
    setCallGasTemp ((callGas true (scope.contract.gas - cold) base (scope.stack.back 0)).getD 0)
    return .halt scope [] (some .outOfGas)
  else do
    let left := scope.contract.gas - (base + cold)
    let given := allButOne64th left (scope.stack.back 0).toNat
    setCallGasTemp given
    query (.captureState op scope.contract.self)
    callBody op given callees
      { scope with contract := { scope.contract with gas := left - given }, memory := memory }

/-- A call that needs the given memory, once the surcharge is known to be covered. -/
def callAfterAccess (op : OpCode) (callees : Callees) (scope : Scope) (size cold : Nat) : EvmM ExecResult := do
  let present ← calleeExists op (hashToAddress (scope.stack.back 1))
  match memoryGasCost scope.memory size with
  | none => return .halt scope [] (some .outOfGas)
  | some (fee, memory) =>
    handOver op callees scope (memory.resize size) (callFee op scope.stack present + fee) cold

def callRule (lists : Bool) (op : OpCode) (callees : Callees) (scope : Scope) (size : Nat) : EvmM ExecResult := do
  let cold ← coldAccess lists (hashToAddress (scope.stack.back 1))
  if scope.contract.gas < cold then return .halt scope [] (some .outOfGas)
  else callAfterAccess op callees scope size cold

/-! ## The gas functions -/

theorem callGas_eq {available base : Nat} (hbase : base ≤ available) (hlt : available < 2 ^ 64) (requested : Word) :
    callGas true available base requested = some (allButOne64th (available - base) requested.toNat) := by
  unfold callGas uint64WithOverflow allButOne64th
  rw [sub64_of_le hbase hlt]
  dsimp only
  split
  · next hcapped =>
    simp only [true_and] at hcapped
    rw [Nat.min_eq_right (by omega)]
  · next hsmall =>
    simp only [true_and, not_or, not_lt, not_le] at hsmall
    rw [if_pos hsmall.1, Nat.min_eq_left hsmall.2]

section Entries

variable {evm : EVM} {op : OpCode} {callees : Callees} {scope : Scope} {o : Operation} {size words cold : Nat}
  {p : Nat → Nat}

/-- The gas functions of the four calls charge for the same things. -/
theorem oldCallGas_eq (hop : op.isCall = true) {contract : Contract} {stack : Stack} {mem : Memory}
    (hm : mem.Charged) : oldCallGas op evm contract stack mem (words * 32) = (do
      let present ← calleeExists op (hashToAddress (stack.back 1))
      match memoryGasCost mem (words * 32) with
      | none => return none
      | some (fee, mem') => chargeCallGas evm contract stack mem' (callFee op stack present + fee)) := by
  cases hmem : memoryGasCost mem (words * 32) with
  | none =>
    cases op with
    | call => exact bind_congr fun present ↦ by simp only [hmem]
    | callCode | delegateCall | staticCall =>
      simp [oldCallGas, gasCallCode, gasDelegateCall, gasStaticCall, calleeExists, hmem]
    | _ => cases hop
  | some r =>
    have hadd {x : Nat} (hx : x ≤ 34000) : safeAdd x r.1 = some (x + r.1) := by
      have hfee := (charged_of_memoryGasCost hm hmem).2
      exact safeAdd_eq_some.2 ⟨rfl, by omega⟩
    have hvalue := (stipend_le stack).2
    cases op with
    | call =>
      refine bind_congr fun present ↦ ?_
      have hnew : (if present then 0 else Params.callNewAccountGas) ≤ 25000 := by split <;> decide
      simp only [hmem, hadd (Nat.add_le_add hnew hvalue)]
      simp [callFee, valueOperand]
    | callCode =>
      simp only [oldCallGas, gasCallCode, hmem, hadd (hvalue.trans (by decide))]
      simp [callFee, valueOperand, calleeExists]
    | delegateCall | staticCall =>
      simp [oldCallGas, gasDelegateCall, gasStaticCall, hmem, callFee, valueOperand, calleeExists]
    | _ => cases hop

variable (hexec : o.execute = callOp (callBody op)) (h150 : evm.chainRules.isEIP150 = true)
  (hgas : scope.contract.gas < 2 ^ 64)

section Prices

variable (hcold : cold ≤ scope.contract.gas) (hp : ∀ base temp, base ≤ 2 ^ 57 →
  callGas true (scope.contract.gas - cold) base (scope.stack.back 0) = some temp →
    p (base + temp) = base + temp + cold)

include hexec h150 hgas hcold hp

theorem handOver_eq {memory : Memory} {base : Nat} (hbase : base ≤ 2 ^ 57) :
    (chargeCallGas evm { scope.contract with gas := scope.contract.gas - cold } scope.stack memory base >>=
      fun r ↦ o.payDynamic evm callees op scope size (r.map (Prod.map p id))) =
        handOver op callees scope (memory.resize size) base cold := by
  funext m
  show o.payDynamic evm callees op scope size (Option.map _ (callGas _ _ _ _ >>= fun temp ↦
    safeAdd base temp >>= fun gas ↦ pure (gas, memory))) _ = _
  unfold handOver
  rw [h150]
  have hprice := hp base
  split
  · cases htemp : callGas true (scope.contract.gas - cold) base (scope.stack.back 0) with
    | none => rfl
    | some temp =>
      rw [Option.bind_eq_bind, Option.bind_some]
      cases hadd : safeAdd base temp with
      | none => rfl
      | some total =>
        obtain ⟨rfl, -⟩ := safeAdd_eq_some.1 hadd
        have huse : scope.contract.useGas (p (base + temp)) = none := by
          rw [hprice temp hbase htemp]
          exact if_pos (by omega)
        simp only [payDynamic, huse, Option.bind_some, Option.map_some, Option.pure_def, Prod.map]
        rfl
  · have htemp := callGas_eq (show base ≤ scope.contract.gas - cold by omega) (by omega) (scope.stack.back 0)
    rw [Nat.sub_sub, Nat.add_comm cold] at htemp
    have hgiven : allButOne64th (scope.contract.gas - (base + cold)) (scope.stack.back 0).toNat ≤
        scope.contract.gas - (base + cold) := (Nat.min_le_right _ _).trans (Nat.sub_le _ _)
    have hprice := hprice _ hbase htemp
    rw [htemp]
    dsimp only
    generalize allButOne64th (scope.contract.gas - (base + cold)) (scope.stack.back 0).toNat = given at *
    have hadd : safeAdd base given = some (base + given) := safeAdd_eq_some.2 ⟨rfl, by omega⟩
    have huse : scope.contract.useGas (base + given + cold) =
        some { scope.contract with gas := scope.contract.gas - (base + cold) - given } := by
      unfold Contract.useGas
      rw [if_neg (by omega)]
      congr 2
      omega
    simp only [payDynamic, hadd, hprice, huse, Option.bind_eq_bind, Option.bind_some, Option.map_some,
      Option.pure_def, traceExecute, hexec, Prod.map]
    rfl

theorem callAfterAccess_eq (hop : op.isCall = true) (hm : scope.memory.Charged) :
    (oldCallGas op evm { scope.contract with gas := scope.contract.gas - cold } scope.stack scope.memory
      (words * 32) >>= fun r ↦
        o.payDynamic evm callees op scope (words * 32) (r.map (Prod.map p id))) =
      callAfterAccess op callees scope (words * 32) cold := by
  rw [oldCallGas_eq hop hm, bind_assoc]
  refine bind_congr fun present ↦ ?_
  cases hmem : memoryGasCost scope.memory (words * 32) with
  | none => rfl
  | some r =>
    have hfee := (charged_of_memoryGasCost hm hmem).2
    have hcall : callFee op scope.stack present ≤ 2 ^ 16 := by
      unfold callFee
      split <;> split <;> decide
    exact handOver_eq hexec h150 hgas hcold hp (by omega)

end Prices

variable (hop : op.isCall = true) (hm : scope.memory.Charged)

include h150 hgas hop hm

include hexec in
theorem callRule_eq (lists : Bool) (words : Nat) :
    (callGasFunc lists (oldCallGas op) evm scope.contract scope.stack scope.memory (words * 32) >>=
      o.payDynamic evm callees op scope (words * 32)) = callRule lists op callees scope (words * 32) := by
  have hwarm : (oldCallGas op evm scope.contract scope.stack scope.memory (words * 32) >>=
      o.payDynamic evm callees op scope (words * 32)) = callAfterAccess op callees scope (words * 32) 0 := by
    simpa using callAfterAccess_eq (p := id) hexec h150 hgas (Nat.zero_le _) (fun _ _ _ _ ↦ rfl) hop hm
  unfold callGasFunc callRule coldAccess
  cases lists with
  | false => simpa using hwarm
  | true =>
    simp only [if_true, bind_map_left, makeCallVariantGasCallEIP2929, bind_assoc]
    refine bind_congr fun warm ↦ ?_
    cases warm with
    | true => simpa using hwarm
    | false =>
      simp only [Bool.false_eq_true, if_false, ← coldSurcharge.eq_def, Contract.useGas]
      by_cases hcold : scope.contract.gas < coldSurcharge
      · simp only [if_pos hcold]
        rfl
      · simp only [if_neg hcold]
        rw [not_lt] at hcold
        rw [← callAfterAccess_eq (p := (add64 · coldSurcharge)) hexec h150 hgas hcold ?_ hop hm]
        · rw [bind_assoc]
          refine bind_congr fun r ↦ ?_
          rcases r with _ | ⟨gas, mem⟩ <;> exact pure_bind _ _
        · intro base temp hbase htemp
          refine add64_of_callGas htemp ?_ hbase (by decide)
          rwa [Nat.sub_add_cancel hcold]

/-- **The 63/64 rule.** Under EIP-150, a call that has paid its constant price follows the rule: it fails, or
hands over what is requested, up to all but one 64th of what is left after the other prices, and keeps the
rest. The stipend of a call that sends value is added without wrapping. -/
theorem call_hands_over_all_but_one_64th
    (hdefined : selectJumpTable evm.chainRules op ≠ undefinedOperation)
    (hsize : (selectJumpTable evm.chainRules op).requiredMemory scope.stack = some size) :
    (selectJumpTable evm.chainRules op).executePaid evm callees op scope =
        callRule (usesAccessList evm.chainRules) op callees scope size ∧
      ∀ present fee left requested, left + (callFee op scope.stack present + fee) ≤ scope.contract.gas →
        left / 64 ≤ left - allButOne64th left requested ∧
          ∀ i, valueOperand op = some i → withStipend (allButOne64th left requested) (scope.stack.back i) =
            allButOne64th left requested + stipend (some i) scope.stack := by
  obtain ⟨hexec, hdyn⟩ := (callEntry evm.chainRules hop).resolve_left hdefined
  obtain ⟨words, rfl⟩ := requiredMemory_eq_some hsize
  refine ⟨?_, fun present fee left requested hleft ↦ ⟨?_, fun i hi ↦ ?_⟩⟩
  · rw [← callRule_eq hexec h150 hgas hop hm]
    simp only [executePaid, hdyn, executeDynamic, hsize]
  · unfold allButOne64th
    omega
  · unfold withStipend stipend
    dsimp only
    split
    · next hvalue =>
      have hle : allButOne64th left requested ≤ left := (Nat.min_le_right _ _).trans (Nat.sub_le _ _)
      have hfee : Params.callValueTransferGas ≤ callFee op scope.stack present := by
        rw [callFee, hi, Option.any_some, if_pos (decide_eq_true hvalue)]
        exact Nat.le_add_left _ _
      have : Params.callStipend ≤ Params.callValueTransferGas := by decide
      exact add64_of_lt (by omega)
    · rfl

end Entries

open Chain.Sample State.Sample in
/-- A call with 640 gas left that requests all of it is given 630, and keeps ten. -/
theorem call_hands_over_630 : ∃ evm : EVM, ∃ scope : Scope,
    (selectJumpTable evm.chainRules .call).executePaid evm (evm.callees evm.interpreter) .call scope =
        callRule true .call (evm.callees evm.interpreter) scope 0 ∧
      640 / 64 ≤ 640 - allButOne64th 640 640 ∧ allButOne64th 640 640 = 630 := by
  obtain ⟨hrule, hkeeps⟩ := @call_hands_over_all_but_one_64th (evm crypto none) .call
    ((evm crypto none).callees (evm crypto none).interpreter)
    ⟨0, [640, 0x28, 0, 0, 0, 0, 0], Memory.empty, ⟨0x10, 0x20, [], 0, some 0x20, [], 640, 0⟩⟩ 0 rfl (by decide) rfl
    Memory.charged_empty (fun h ↦ absurd (congrArg Operation.constantGas h) (by decide)) rfl
  exact ⟨_, _, hrule, (hkeeps true 0 640 640 (by decide)).1, rfl⟩

end GoEntropy.Execution
