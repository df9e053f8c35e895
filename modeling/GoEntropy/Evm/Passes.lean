import GoEntropy.Evm.GasBound

/-!
# The frames a run passes through

Statements about what happens *inside* a frame, between its instructions and at the moment one is
executed, are stated over the scopes the frame can pass through. `ReachesExecute` is one iteration of
the loop of `Run` up to the call of the `execute` function: the stack has been validated, the
constant and the dynamic price have been paid and the memory has been resized. `Passes` is any number
of complete iterations. Both leave the answers of the state open, so they cover every state.

`Passes` also adds up the fees that the gas functions have charged for memory.
-/

namespace GoEntropy.Evm

open Interaction Operation

/-- The table entry of the instruction a frame is about to execute. -/
def Scope.entry (scope : Scope) (jt : JumpTable) : Operation :=
  jt (scope.contract.getOp scope.pc)

/-- The frame of a call, before its first instruction. -/
def Scope.start (contract : Contract) (input : Bytes) : Scope :=
  ⟨0, [], Memory.empty, { contract with input := input }⟩

/-- What `memoryGasCost` asks for a size. -/
def memoryFeeFor (mem : Memory) (size : Nat) : Nat := ((memoryGasCost mem size).map (·.1)).getD 0

/-- One iteration of the loop, up to the call of `execute`: the fee charged for memory, the frame and
the registers that `execute` finds. -/
inductive ReachesExecute (evm : EVM) (jt : JumpTable) (scope : Scope) (m : Machine) :
    Nat → Scope → Machine → Prop
  | constant {contract : Contract} (hmin : (scope.entry jt).minStack ≤ scope.stack.length)
      (hmax : scope.stack.length ≤ (scope.entry jt).maxStack)
      (hpaid : scope.contract.useGas (scope.entry jt).constantGas = some contract)
      (hdynamic : (scope.entry jt).dynamicGas = none) :
    ReachesExecute evm jt scope m 0 { scope with contract := contract } m
  | dynamic {contract contract' : Contract} {g : GasFunc} {size price : Nat} {mem : Memory}
      {m' : Machine} (hmin : (scope.entry jt).minStack ≤ scope.stack.length)
      (hmax : scope.stack.length ≤ (scope.entry jt).maxStack)
      (hpaid : scope.contract.useGas (scope.entry jt).constantGas = some contract)
      (hdynamic : (scope.entry jt).dynamicGas = some g)
      (hsize : (scope.entry jt).requiredMemory scope.stack = some size)
      (hcost : (g evm contract scope.stack scope.memory size m).CanReturn (some (price, mem), m'))
      (hpaid' : contract.useGas price = some contract') :
    ReachesExecute evm jt scope m (memoryFeeFor scope.memory size)
      { scope with contract := contract', memory := mem.resize size } m'

/-- The scopes between the instructions of a frame, with the fees charged for memory so far. -/
inductive Passes (evm : EVM) (jt : JumpTable) (callees : Callees) (start : Scope) :
    Nat → Scope → Prop
  | start : Passes evm jt callees start 0 start
  | step {fees fee : Nat} {scope scope' scope'' : Scope} {m m' m'' : Machine}
      (h : Passes evm jt callees start fees scope)
      (hreach : ReachesExecute evm jt scope m fee scope' m')
      (hnext : ((scope.entry jt).execute evm callees scope' m').CanReturn (.next scope'', m'')) :
    Passes evm jt callees start (fees + fee) { scope'' with pc := add64 scope''.pc 1 }

theorem Contract.gas_of_useGas {c c' : Contract} {gas : Nat} (h : c.useGas gas = some c') :
    c'.gas + gas = c.gas := by
  obtain ⟨hle, rfl⟩ := Contract.useGas_eq_some h
  exact Nat.sub_add_cancel hle

section

variable {evm : EVM} {jt : JumpTable} {callees : Callees} {scope : Scope} {m m' : Machine}
  {r : ExecResult}

theorem canReturn_traceExecute {o : Operation} {op : OpCode} :
    (o.traceExecute evm callees op scope m).CanReturn (r, m') ↔
      (o.execute evm callees scope m).CanReturn (r, m') :=
  ⟨fun ⟨_, h⟩ ↦ h, fun h ↦ ⟨(), h⟩⟩

/-- What the execution returns is what the iteration returns. -/
theorem ReachesExecute.canReturn_step {fee : Nat} {scope' : Scope} {m₁ : Machine}
    (h : ReachesExecute evm jt scope m fee scope' m₁)
    (hexec : ((scope.entry jt).execute evm callees scope' m₁).CanReturn (r, m')) :
    (step evm jt callees scope m).CanReturn (r, m') := by
  unfold step
  rw [show jt (scope.contract.getOp scope.pc) = scope.entry jt from rfl]
  cases h with
  | constant hmin hmax hpaid hdynamic =>
    rw [if_neg (not_lt.2 hmin), if_neg (not_lt.2 hmax), hpaid]
    unfold executePaid
    rw [hdynamic]
    exact canReturn_traceExecute.2 hexec
  | dynamic hmin hmax hpaid hdynamic hsize hcost hpaid' =>
    rw [if_neg (not_lt.2 hmin), if_neg (not_lt.2 hmax), hpaid]
    unfold executePaid
    rw [hdynamic]
    unfold executeDynamic
    dsimp only
    rw [hsize]
    refine Prog.canReturn_bind.2 ⟨_, hcost, ?_⟩
    unfold payDynamic
    dsimp only
    rw [hpaid']
    exact canReturn_traceExecute.2 hexec

/-- **Every iteration of the loop is covered**: it halts before it executes the instruction, leaving
the frame's stack and memory as they were, or it reaches the execution. -/
theorem step_cases (h : (step evm jt callees scope m).CanReturn (r, m')) :
    (∃ contract err, r = .halt { scope with contract := contract } [] (some err)) ∨
      ∃ fee scope' m₁, ReachesExecute evm jt scope m fee scope' m₁ ∧
        ((scope.entry jt).execute evm callees scope' m₁).CanReturn (r, m') := by
  unfold step at h
  rw [show jt (scope.contract.getOp scope.pc) = scope.entry jt from rfl] at h
  split at h
  · cases h
    exact .inl ⟨_, _, rfl⟩
  next hmin =>
  split at h
  · cases h
    exact .inl ⟨_, _, rfl⟩
  next hmax =>
  cases hpaid : scope.contract.useGas (scope.entry jt).constantGas with
  | none =>
    rw [hpaid] at h
    cases h
    exact .inl ⟨_, _, rfl⟩
  | some contract =>
    rw [hpaid] at h
    unfold executePaid at h
    cases hg : (scope.entry jt).dynamicGas with
    | none =>
      rw [hg] at h
      exact .inr ⟨_, _, _, .constant (not_lt.1 hmin) (not_lt.1 hmax) hpaid hg,
        canReturn_traceExecute.1 h⟩
    | some g =>
      rw [hg] at h
      unfold executeDynamic at h
      dsimp only at h
      cases hsize : (scope.entry jt).requiredMemory scope.stack with
      | none =>
        rw [hsize] at h
        cases h
        exact .inl ⟨_, _, rfl⟩
      | some size =>
        rw [hsize] at h
        obtain ⟨⟨cost, m₁⟩, hcost, h⟩ := Prog.canReturn_bind.1 h
        rcases cost with _ | ⟨price, mem⟩
        · cases h
          exact .inl ⟨_, _, rfl⟩
        unfold payDynamic at h
        cases hpaid' : contract.useGas price with
        | none =>
          dsimp only at h
          rw [hpaid'] at h
          cases h
          exact .inl ⟨_, _, rfl⟩
        | some contract' =>
          dsimp only at h
          rw [hpaid'] at h
          exact .inr ⟨_, _, _, .dynamic (not_lt.1 hmin) (not_lt.1 hmax) hpaid hg hsize hcost hpaid',
            canReturn_traceExecute.1 h⟩

end

/-! ## Memory -/

/-- The memory consists of whole words, within the size that can be charged for, and exactly their
total fee has been charged. -/
structure Memory.PaidFor (m : Memory) (fees words : Nat) : Prop where
  len_eq : m.len = words * 32
  lastGasCost_eq : m.lastGasCost = memoryFee words
  fees_eq : fees = memoryFee words
  words_lt : words < 2 ^ 32

theorem Memory.PaidFor.charged {m : Memory} {fees words : Nat} (h : m.PaidFor fees words) :
    m.Charged := ⟨words, h.len_eq, h.lastGasCost_eq⟩

theorem Memory.Shape.paidFor {m m' : Memory} {fees words : Nat} (h : m.Shape m')
    (hm : m.PaidFor fees words) : m'.PaidFor fees words :=
  ⟨h.len.trans hm.len_eq, h.lastGasCost.trans hm.lastGasCost_eq, hm.fees_eq, hm.words_lt⟩

/-- Charging for a size and resizing to it adds the fee to what has been charged. -/
theorem Memory.PaidFor.charge {m m' : Memory} {fees words size fee : Nat} (hm : m.PaidFor fees words)
    (h : memoryGasCost m (size * 32) = some (fee, m')) :
    (m'.resize (size * 32)).PaidFor (fees + fee) (max words size) := by
  obtain ⟨hlen, hcost, hsum, hsize⟩ := memoryGasCost_spec hm.len_eq hm.lastGasCost_eq h
  refine ⟨hlen, hcost, ?_, Nat.max_lt.2 ⟨hm.words_lt, hsize⟩⟩
  rw [hm.fees_eq, hsum]

/-! ### Executing keeps the memory's size -/

def ExecResult.KeepsMemory (scope : Scope) (r : ExecResult) : Prop :=
  scope.memory.Shape r.scope.memory

theorem ExecResult.Keeps.keepsMemory {scope : Scope} {r : ExecResult} (h : r.Keeps scope) :
    r.KeepsMemory scope := by
  cases r with
  | next scope' => exact h.2
  | halt scope' res err => exact h.2.1

section Execute

variable {evm : EVM} {callees : Callees} {scope : Scope}

/-- **No instruction changes the size of the memory**; that is done before it is executed. -/
theorem keepsMemory_execute {lists : Bool} {op : OpCode} {o : Operation} (h : Entry lists op o) :
    Yields (·.KeepsMemory scope) (o.execute evm callees scope) := by
  refine h.yields_execute (fun _ hr ↦ hr.keepsMemory) (fun st retOffset retSize r ↦ ?_)
    fun _ _ _ _ ↦ .andThen fun _ ↦ .pure (.refl _)
  unfold finishCall
  dsimp only
  split
  · exact .crash _
  · next memory hmem =>
    refine .andThen fun _ ↦ .pure ?_
    split at hmem
    · exact Memory.shape_of_set hmem
    · rw [← Option.some_inj.1 hmem]
      exact .refl _

end Execute

/-! ### Gas functions charge for the memory -/

/-- A table priced by access lists is used where EIP-150 caps the gas of calls. -/
def EVM.CapsCalls (evm : EVM) (lists : Bool) : Prop :=
  lists = true → evm.chainRules.isEIP150 = true

/-- What a gas function charges for memory. The price includes the fee, unless a surcharge has made it
wrap. -/
def ChargesFee (evm : EVM) (lists : Bool) (contract : Contract) (mem : Memory) (size : Nat)
    (r : Option (Nat × Memory)) : Prop :=
  ∀ q, r = some q → ∃ fee, memoryGasCost mem size = some (fee, q.2) ∧
    (evm.CapsCalls lists → contract.gas < 2 ^ 64 → fee ≤ q.1)

section GasFunctions

variable {evm : EVM} {lists : Bool} {o : Operation} {stack : Stack} {mem : Memory} {size : Nat}

/-- The memory that the gas function of a call returns is the one charged for, with or without the
surcharge. -/
theorem chargesFee_callGasFunc {value : Option Nat} {old : GasFunc} (hold : OldCallCost value old)
    (contract : Contract) (words : Nat) (m : Machine) (hm : mem.Charged) :
    (callGasFunc lists old evm contract stack mem (words * 32) m).Returns
      fun p ↦ ChargesFee evm lists contract mem (words * 32) p.1 := by
  by_cases hok : evm.CapsCalls lists ∧ contract.gas < 2 ^ 64
  · refine (returns_callGasFunc hold le_rfl (.inl hok.1) stack words m hm hok.2).mono
      fun p ⟨cold, hp⟩ q hq ↦ ?_
    obtain ⟨fee, base, hfee, hprice⟩ := hp q hq
    have := hprice.price_eq
    have := hprice.covers
    exact ⟨fee, hfee, fun _ _ ↦ by omega⟩
  -- the sum may wrap, but the memory is still the one charged for
  · have hcharge : ∀ contract m, (old evm contract stack mem (words * 32) m).Returns fun p ↦
        ∀ q, p.1 = some q → ∃ fee, memoryGasCost mem (words * 32) = some (fee, q.2) :=
      fun contract m ↦ (hold evm contract stack mem words m hm).mono fun p hp q hq ↦ by
        obtain ⟨fee, base, hfee, _⟩ := hp q hq
        exact ⟨fee, hfee⟩
    suffices h : (callGasFunc lists old evm contract stack mem (words * 32)
        m).Returns fun p ↦ ∀ q, p.1 = some q → ∃ fee,
          memoryGasCost mem (words * 32) = some (fee, q.2) by
      refine h.mono fun p hp q hq ↦ ?_
      obtain ⟨fee, hfee⟩ := hp q hq
      exact ⟨fee, hfee, fun hcaps hgas ↦ absurd ⟨hcaps, hgas⟩ hok⟩
    unfold callGasFunc
    split
    · refine .bind (Prog.returns_true _) fun ⟨warm, m⟩ _ ↦ ?_
      cases warm with
      | true => exact hcharge contract m
      | false =>
        dsimp only
        cases contract.useGas
            (Params.coldAccountAccessCostEIP2929 - Params.warmStorageReadCostEIP2929) with
        | none => exact nofun
        | some reduced =>
          refine (hcharge reduced m).bind fun ⟨r, m⟩ hr ↦ ?_
          rcases r with _ | ⟨gas, mem'⟩
          · exact nofun
          · intro q hq
            obtain ⟨fee, hfee⟩ := hr (gas, mem') rfl
            have hmem : mem' = q.2 := congrArg Prod.snd (Option.some_inj.1 hq)
            exact ⟨fee, hmem ▸ hfee⟩
    · exact hcharge contract m

/-- **Every gas function charges for the memory its instruction needs.** -/
theorem Entry.chargesFee {op : OpCode} (h : Entry lists op o) {g : GasFunc}
    (hg : o.dynamicGas = some g) (hsize : o.requiredMemory stack = some size) (hm : mem.Charged)
    (contract : Contract) (m : Machine) :
    (g evm contract stack mem size m).Returns fun p ↦ ChargesFee evm lists contract mem size p.1 := by
  obtain ⟨words, rfl⟩ := requiredMemory_eq_some hsize
  have hspec : o.ChargesMemory evm →
      (g evm contract stack mem (words * 32) m).Returns fun p ↦
        ChargesFee evm lists contract mem (words * 32) p.1 := fun hcharges ↦
    (hcharges g hg contract stack mem _ (o.usesMemory hsize) m).mono fun _ hp q hq ↦
      (hp q hq).imp fun _ ⟨hfee, hle⟩ ↦ ⟨hfee, fun _ _ ↦ hle⟩
  have hcall {value : Option Nat} {old : GasFunc} (hold : OldCall value old)
      (hgas : o.dynamicGas = some (callGasFunc lists old)) :
      (g evm contract stack mem (words * 32) m).Returns fun p ↦
        ChargesFee evm lists contract mem (words * 32) p.1 := by
    obtain rfl := Option.some_inj.1 (hg.symm.trans hgas)
    exact chargesFee_callGasFunc hold.cost contract words m hm
  cases h with
  | simple h => exact hspec h.gas.chargesMemory
  | sload _ _ hgas hms => exact hspec (chargesMemory_sload hgas hms)
  | sstore _ _ _ _ hgas hms => exact hspec (chargesMemory_sstore hgas hms)
  | oldSstore _ _ hgas | log _ _ hgas | selfdestruct _ _ hgas | create _ _ hgas _
  | create2 _ _ hgas _ => exact hspec hgas.chargesMemory
  | call _ hgas => exact hcall oldCall_gasCall hgas
  | callCode _ hgas => exact hcall oldCall_gasCallCode hgas
  | delegateCall _ hgas => exact hcall oldCall_gasDelegateCall hgas
  | staticCall _ hgas => exact hcall oldCall_gasStaticCall hgas

end GasFunctions

/-! ### The memory of a frame -/

section Frames

variable {evm : EVM} {jt : JumpTable} {callees : Callees} {lists : Bool}
  (hjt : ∀ op, Entry lists op (jt op)) {scope scope' : Scope} {m m' : Machine} {fees fee words : Nat}

include hjt

/-- **One iteration.** When an instruction is executed, the memory is at least as large as it was, the
fee that was charged has been added, and the gas has paid for it. -/
theorem ReachesExecute.paidFor (h : ReachesExecute evm jt scope m fee scope' m')
    (hm : scope.memory.PaidFor fees words) :
    (∃ words', words ≤ words' ∧ scope'.memory.PaidFor (fees + fee) words') ∧
      (evm.CapsCalls lists → scope.contract.gas < 2 ^ 64 →
        scope'.contract.gas + fee ≤ scope.contract.gas) := by
  cases h with
  | constant hmin hmax hpaid hdynamic =>
    refine ⟨⟨words, le_rfl, hm⟩, fun _ _ ↦ ?_⟩
    exact Nat.le.intro (Contract.gas_of_useGas hpaid)
  | dynamic hmin hmax hpaid hdynamic hsize hcost hpaid' =>
    have hcharges := (Entry.chargesFee (hjt _) hdynamic hsize hm.charged _ m).of_canReturn hcost
    obtain ⟨fee, hfee, hcovered⟩ := hcharges _ rfl
    obtain ⟨size, rfl⟩ := requiredMemory_eq_some hsize
    have heq : memoryFeeFor scope.memory (size * 32) = fee := by
      unfold memoryFeeFor
      rw [hfee]
      rfl
    rw [heq]
    refine ⟨⟨_, Nat.le_max_left _ _, hm.charge hfee⟩, fun hcaps hgas ↦ ?_⟩
    have hconstant := Contract.gas_of_useGas hpaid
    have hprice := Contract.gas_of_useGas hpaid'
    have := hcovered hcaps (by omega)
    dsimp only at this ⊢
    omega

theorem paidFor_execute {r : ExecResult}
    (h : ((scope.entry jt).execute evm callees scope' m).CanReturn (r, m'))
    (hm : scope'.memory.PaidFor fees words) : r.scope.memory.PaidFor fees words :=
  Memory.Shape.paidFor ((keepsMemory_execute (hjt _) m).of_canReturn h) hm

/-- **A whole frame.** The memory has been paid for between any two instructions. -/
theorem Passes.paidFor {start : Scope} (hstart : start.memory = Memory.empty)
    (h : Passes evm jt callees start fees scope) : ∃ words, scope.memory.PaidFor fees words := by
  induction h with
  | start => exact ⟨0, by rw [hstart]; exact ⟨rfl, rfl, rfl, by decide⟩⟩
  | step _ hreach hnext ih =>
    obtain ⟨words, hm⟩ := ih
    obtain ⟨words', _, hm'⟩ := (hreach.paidFor hjt hm).1
    exact ⟨words', paidFor_execute hjt hnext hm'⟩

end Frames

end GoEntropy.Evm
