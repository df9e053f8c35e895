import GoEntropy.Evm.FrameLogic

/-!
# No frame returns more gas than it was given

A frame pays for its instructions and hands gas to the frames it enters. That it can never end with
more than it started with rests on the price of a call covering the gas handed over, and this is where
the arithmetic of `uint64` matters: since EIP-2929 the surcharge for a cold account is added to the
price without an overflow check. The sum does not wrap because EIP-150 caps the gas of a call below
what is available, except when the price without that gas already exceeds what is available; then the
cap itself has wrapped, and the sum stays in range only because memory, and with it the price, is
bounded.

So two invariants are carried through a run: the gas is a `uint64`, and the memory is charged for
(`Memory.Charged`). Where EIP-2929 is priced without EIP-150, gas can be created.
-/

namespace GoEntropy.Evm

open Interaction Operation Memory

/-! ## Memory -/

def memoryFee (words : Nat) : Nat :=
  words * Params.memoryGas + words * words / Params.quadCoeffDiv

theorem memoryFee_mono {v w : Nat} (h : v ≤ w) : memoryFee v ≤ memoryFee w := by
  exact Nat.add_le_add (Nat.mul_le_mul_right _ h)
    (Nat.div_le_div_right (Nat.mul_le_mul h h))

theorem memoryFee_le {w : Nat} (h : w ≤ 2 ^ 32) : memoryFee w ≤ 2 ^ 56 :=
  (memoryFee_mono h).trans (by decide)

theorem totalFee_eq {w : Nat} (h : w < 2 ^ 32) :
    add64 (wrap64 (w * Params.memoryGas)) (wrap64 (w * w) / Params.quadCoeffDiv) = memoryFee w := by
  have hsquare : w * w < 2 ^ 64 := calc
    w * w ≤ (2 ^ 32 - 1) * (2 ^ 32 - 1) := Nat.mul_le_mul (by omega) (by omega)
    _ < 2 ^ 64 := by decide
  have hlinear : w * Params.memoryGas < 2 ^ 64 := calc
    w * Params.memoryGas ≤ 2 ^ 32 * Params.memoryGas := Nat.mul_le_mul_right _ h.le
    _ < 2 ^ 64 := by decide
  rw [wrap64_of_lt hsquare, wrap64_of_lt hlinear]
  exact add64_of_lt (lt_of_le_of_lt (memoryFee_le h.le) (by decide))

/-- The memory consists of whole words, and their total fee has been charged. -/
def Memory.Charged (m : Memory) : Prop :=
  ∃ words, m.len = words * 32 ∧ m.lastGasCost = memoryFee words

theorem Memory.charged_empty : empty.Charged := ⟨0, rfl, rfl⟩

variable {m m' : Memory}

theorem Memory.Shape.charged (h : m.Shape m') (hm : m.Charged) : m'.Charged := by
  obtain ⟨words, hlen, hcost⟩ := hm
  exact ⟨words, h.len.trans hlen, h.lastGasCost.trans hcost⟩

theorem Memory.len_resize (m : Memory) (size : Nat) : (m.resize size).len = max m.len size := by
  unfold resize
  split
  · next h =>
    simp only [len, List.length_append, List.length_replicate] at h ⊢
    omega
  · next h => omega

@[simp] theorem Memory.lastGasCost_resize (m : Memory) (size : Nat) :
    (m.resize size).lastGasCost = m.lastGasCost := by
  unfold resize
  split <;> rfl

/-- **Expansion is charged for exactly once.** Charging for a size and resizing to it adds the
difference of the total fees, and no more than 2³² words can be charged for. -/
theorem memoryGasCost_spec {old words cost : Nat} (hlen : m.len = old * 32)
    (hcost : m.lastGasCost = memoryFee old)
    (h : memoryGasCost m (words * 32) = some (cost, m')) :
    (m'.resize (words * 32)).len = max old words * 32 ∧
      (m'.resize (words * 32)).lastGasCost = memoryFee (max old words) ∧
      memoryFee old + cost = memoryFee (max old words) ∧ words < 2 ^ 32 := by
  unfold memoryGasCost at h
  split at h
  · next hzero =>
    cases h
    obtain rfl : words = 0 := by omega
    rw [len_resize, lastGasCost_resize, hlen, hcost]
    simp
  split at h
  · cases h
  next hsize =>
  have hwords : toWordSize (words * 32) = words := by
    unfold toWordSize
    rw [if_neg (by simp [maxUint64]; omega)]
    omega
  simp only [hwords] at h
  rw [wrap64_of_lt (by omega)] at h
  rw [len_resize, lastGasCost_resize]
  split at h
  · next hgrow =>
    have hfee : memoryFee words < 2 ^ 64 := lt_of_le_of_lt (memoryFee_le (by omega)) (by decide)
    rw [totalFee_eq (by omega)] at h
    cases h
    have hmax : max old words = words := by omega
    have hmono : memoryFee old ≤ memoryFee words := memoryFee_mono (by omega)
    rw [hmax]
    refine ⟨?_, rfl, ?_, by omega⟩
    · simp only [len] at hlen ⊢
      omega
    · rw [hcost, sub64_of_le hmono hfee]
      omega
  · cases h
    have hmax : max old words = old := by omega
    rw [hmax]
    exact ⟨by omega, hcost, rfl, by omega⟩

/-- Charging for a size and resizing to it keeps the memory charged, at a bounded price. -/
theorem charged_of_memoryGasCost {words cost : Nat} (hm : m.Charged)
    (h : memoryGasCost m (words * 32) = some (cost, m')) :
    (m'.resize (words * 32)).Charged ∧ cost ≤ 2 ^ 56 := by
  obtain ⟨old, hlen, hcost⟩ := hm
  obtain ⟨hlen', hcost', hsum, hwords⟩ := memoryGasCost_spec hlen hcost h
  refine ⟨⟨_, hlen', hcost'⟩, ?_⟩
  rcases Nat.le_total old words with hle | hle
  · rw [Nat.max_eq_right hle] at hsum
    have := memoryFee_le hwords.le
    omega
  · rw [Nat.max_eq_left hle] at hsum
    omega

variable {stack : Stack}

theorem requiredMemory_eq_some {o : Operation} {size : Nat}
    (h : o.requiredMemory stack = some size) : ∃ words, size = words * 32 := by
  unfold requiredMemory at h
  split at h
  · exact ⟨0, (Option.some_inj.1 h).symm⟩
  · rw [Option.bind_eq_bind, Option.bind_eq_some_iff] at h
    obtain ⟨memSize, _, h⟩ := h
    unfold safeMul at h
    split at h
    · exact ⟨_, (Option.some_inj.1 h).symm⟩
    · cases h

theorem Operation.usesMemory (o : Operation) {size : Nat}
    (h : o.requiredMemory stack = some size) : o.memorySize.isSome = true ∨ size = 0 := by
  cases hms : o.memorySize with
  | some f => exact .inl rfl
  | none =>
    rw [requiredMemory, hms] at h
    exact .inr (Option.some_inj.1 h).symm

/-! ## The price of a call -/

theorem le_of_callGas {available base temp : Nat} {callCost : Word}
    (h : callGas true available base callCost = some temp) :
    temp ≤ sub64 available base - sub64 available base / 64 := by
  unfold callGas at h
  dsimp only at h
  split at h
  · rw [← Option.some_inj.1 h]
  · next hsmall =>
    unfold uint64WithOverflow at h
    split at h
    · rw [← Option.some_inj.1 h]
      simp only [true_and, not_or, not_lt] at hsmall
      exact hsmall.2
    · cases h

/-- The surcharge for a cold account, added to a capped price, does not wrap. -/
theorem add64_of_callGas {available base temp cold : Nat} {callCost : Word}
    (h : callGas true available base callCost = some temp) (_ : available + cold < 2 ^ 64)
    (_ : base ≤ 2 ^ 57) (_ : cold ≤ 2 ^ 16) :
    add64 (base + temp) cold = base + temp + cold := by
  have htemp := le_of_callGas h
  refine add64_of_lt ?_
  unfold sub64 wrap64 at htemp
  omega

def coldSurcharge : Nat :=
  Params.coldAccountAccessCostEIP2929 - Params.warmStorageReadCostEIP2929

/-- The price of a call: a base price that covers the memory fee and the stipend, the gas stored for
the callee, and the surcharge for a cold account. The gas for the callee is computed from what is left
after the other two. -/
structure CallPrice (evm : EVM) (contract : Contract) (value : Option Nat) (stack : Stack)
    (fee temp price base cold : Nat) : Prop where
  price_eq : price = base + temp + cold
  covers : fee + stipend value stack ≤ base
  base_le : base ≤ 2 ^ 57
  cold_le : cold ≤ contract.gas
  callGas_eq :
    callGas evm.chainRules.isEIP150 (contract.gas - cold) base (stack.back 0) = some temp

variable {value : Option Nat} {contract : Contract} {evm : EVM}

theorem CallPrice.handed_le
    {fee temp price base cold : Nat} (h : CallPrice evm contract value stack fee temp price base cold) :
    temp + stipend value stack ≤ price := by
  have := h.price_eq
  have := h.covers
  omega

/-- The surcharge for a cold account is added to a price computed from what is left without it. -/
theorem CallPrice.add_cold {fee temp price base : Nat} (hfork : evm.chainRules.isEIP150 = true)
    (hcold : coldSurcharge ≤ contract.gas) (hgas : contract.gas < 2 ^ 64)
    (h : CallPrice evm { contract with gas := contract.gas - coldSurcharge } value stack fee temp price
      base 0) :
    CallPrice evm contract value stack fee temp (add64 price coldSurcharge) base coldSurcharge := by
  have htemp := h.callGas_eq
  rw [hfork, Nat.sub_zero] at htemp
  refine ⟨?_, h.covers, h.base_le, hcold, ?_⟩
  · have hlt : contract.gas - coldSurcharge + coldSurcharge < 2 ^ 64 := by
      rw [Nat.sub_add_cancel hcold]
      exact hgas
    rw [h.price_eq, Nat.add_zero]
    exact add64_of_callGas htemp hlt h.base_le (by decide)
  · rw [hfork]
    exact htemp

/-- What a gas function returns is the price of a call, which includes the fee for the memory. -/
def Priced (evm : EVM) (contract : Contract) (value : Option Nat) (stack : Stack) (mem : Memory)
    (size cold : Nat) (p : Option (Nat × Memory) × Machine) : Prop :=
  ∀ q, p.1 = some q → ∃ fee base, memoryGasCost mem size = some (fee, q.2) ∧
    CallPrice evm contract value stack fee p.2.callGasTemp q.1 base cold

theorem Priced.none {mem : Memory} {size cold : Nat} {m : Machine} :
    Priced evm contract value stack mem size cold (none, m) := nofun

/-- What the old gas function of a call returns: the price of a call without a surcharge. -/
def OldCallCost (value : Option Nat) (old : GasFunc) : Prop :=
  ∀ evm contract stack mem words m, mem.Charged →
    (old evm contract stack mem (words * 32) m).Returns
      (Priced evm contract value stack mem (words * 32) 0)

theorem returns_chargeCallGas {mem mem' : Memory}
    {size fee gas : Nat} (hmem : memoryGasCost mem size = some (fee, mem'))
    (hcovers : fee + stipend value stack ≤ gas) (hgas : gas ≤ 2 ^ 57) (m : Machine) :
    (chargeCallGas evm contract stack mem' gas m).Returns
      (Priced evm contract value stack mem size 0) := by
  show Priced evm contract value stack mem size 0 _
  cases htemp : callGas evm.chainRules.isEIP150 contract.gas gas (stack.back 0) with
  | none => exact .none
  | some temp =>
    intro q hq
    obtain ⟨total, hadd, hq⟩ := Option.bind_eq_some_iff.1 hq
    cases hq
    exact ⟨fee, gas, hmem, (safeAdd_eq_some.1 hadd).1.symm, hcovers, hgas, Nat.zero_le _, htemp⟩

theorem OldCall.cost {old : GasFunc} (h : OldCall value old) : OldCallCost value old := by
  intro evm contract stack mem words m hm
  refine h (fun x ↦ ∀ m, (x m).Returns (Priced evm contract value stack mem (words * 32) 0)) evm contract stack
    mem (words * 32) (fun _ _ hf m ↦ ?_) (fun _ ↦ .none) (fun extra fee mem' hmem hcovers hextra m ↦ ?_) m
  · exact .bind (Prog.returns_true _) fun p _ ↦ hf p.1 p.2
  · have hcost := (charged_of_memoryGasCost hm hmem).2
    exact returns_chargeCallGas hmem (by omega) (by omega) m

/-- **The price of a call**, computed by the old gas function or the wrapped one. Wrapped gas functions
add the surcharge for a cold account, and the sum does not wrap where EIP-150 caps the gas for the
callee, or where there is not enough gas for the surcharge anyway. -/
theorem returns_callGasFunc {lists : Bool} {old : GasFunc}
    (hold : OldCallCost value old) {limit : Nat} (hlimit : limit ≤ 2 ^ 64)
    (hforks : (lists = true → evm.chainRules.isEIP150 = true) ∨ limit ≤ coldSurcharge)
    (stack : Stack) {mem : Memory} (words : Nat) (m : Machine)
    (hm : mem.Charged) (hgas : contract.gas < limit) :
    (callGasFunc lists old evm contract stack mem (words * 32) m).Returns fun p ↦
      ∃ cold, Priced evm contract value stack mem (words * 32) cold p := by
  have hwarm : ∀ m : Machine, (old evm contract stack mem (words * 32) m).Returns fun p ↦
      ∃ cold, Priced evm contract value stack mem (words * 32) cold p :=
    fun m ↦ (hold evm contract stack mem words m hm).mono fun _ hp ↦ ⟨0, hp⟩
  unfold callGasFunc
  split
  · next hlists =>
    refine .bind (Prog.returns_true _) fun ⟨warm, m⟩ _ ↦ ?_
    cases warm with
    | true => exact hwarm m
    | false =>
      dsimp only
      cases hreduced : contract.useGas
          (Params.coldAccountAccessCostEIP2929 - Params.warmStorageReadCostEIP2929) with
      | none => exact ⟨0, .none⟩
      | some reduced =>
        obtain ⟨hcold, rfl⟩ := Contract.useGas_eq_some hreduced
        have hfork : evm.chainRules.isEIP150 = true := by
          rcases hforks with hforks | hsmall
          · exact hforks hlists
          · exact absurd (lt_of_lt_of_le hgas hsmall) (not_lt.2 hcold)
        refine (hold evm _ stack mem words m hm).bind fun ⟨r, m⟩ hr ↦ ?_
        rcases r with _ | ⟨gas, mem'⟩
        · exact ⟨0, .none⟩
        obtain ⟨fee, base, hfee, hprice⟩ := hr _ rfl
        have hsum := CallPrice.add_cold hfork hcold (lt_of_lt_of_le hgas hlimit) hprice
        refine ⟨coldSurcharge, fun q hq ↦ ⟨fee, base, ?_, ?_⟩⟩
        · rw [← Option.some_inj.1 hq]
          exact hfee
        · rw [← Option.some_inj.1 hq]
          exact hsum
  · exact hwarm m

/-! ## Frames -/

def Runner.Bounded (runner : Runner) : Prop :=
  ∀ contract input readOnly, contract.gas < 2 ^ 64 →
    Yields (·.leftOverGas ≤ contract.gas) (runner contract input readOnly)

/-- Code that is given less than a limit returns at most the gas it was given. -/
def Runner.BoundedBelow (limit : Nat) (runner : Runner) : Prop :=
  ∀ contract input readOnly, contract.gas < limit →
    Yields (·.leftOverGas ≤ contract.gas) (runner contract input readOnly)

section Frames

variable {evm : EVM} {runner : Runner} {limit : Nat} (hrun : runner.BoundedBelow limit) {gas : Nat}

theorem yields_settleCall (id : Nat) (r : CallResult) :
    Yields (·.leftOverGas ≤ r.leftOverGas) (settleCall id r) := by
  unfold settleCall
  split
  · exact .pure le_rfl
  · refine .andThen fun _ ↦ .pure ?_
    split
    · exact le_rfl
    · exact Nat.zero_le _

theorem yields_settled {body : EvmM CallResult} (hbody : Yields (·.leftOverGas ≤ gas) body)
    (id : Nat) : Yields (·.leftOverGas ≤ gas) (body >>= settleCall id) :=
  hbody.bind fun r hr ↦ (yields_settleCall id r).mono fun _ hr' ↦ hr'.trans hr

theorem yields_entryLogic : EntryLogic (fun _ gas ↦ Yields (·.leftOverGas ≤ gas)) fun _ ↦ True where
  pure h := .pure h
  around _ hf := .andThen hf
  settled hx := .andThen fun id ↦ yields_settled hx id
  account _ _ _ _ _ _ hy hx := .andThen fun id ↦ .andThen fun _ ↦ .ite (fun _ ↦ hy) fun _ ↦
    .ite (fun _ ↦ .andThen fun _ ↦ yields_settled hx id) fun _ ↦ yields_settled hx id

include hrun

theorem Runner.BoundedBelow.at_gas (hgas : gas < limit) (contract : Contract) (input : Bytes)
    (readOnly : Bool) (h : contract.gas = gas) :
    Yields (·.leftOverGas ≤ gas) (runner contract input readOnly) :=
  h ▸ hrun contract input readOnly (h ▸ hgas)

omit hrun in
theorem yields_storeCode (address : Address) (r : CallResult) :
    Yields (·.leftOverGas ≤ r.leftOverGas) (evm.storeCode address r) := by
  unfold EVM.storeCode
  split
  · exact .pure le_rfl
  · exact .ite (fun _ ↦ .pure le_rfl) fun _ ↦ .andThen fun _ ↦ .pure (Nat.sub_le _ _)

omit hrun in
theorem yields_settleCreate (id : Nat) (r : CallResult) :
    Yields (·.leftOverGas ≤ r.leftOverGas) (evm.settleCreate id r) := by
  unfold EVM.settleCreate
  split
  · exact .pure le_rfl
  · exact .ite (fun _ ↦ yields_settleCall id r) fun _ ↦ .pure le_rfl

theorem yields_createAt (caller : Address) (code : Bytes) (codeHash : Hash) (hgas : gas < limit)
    (value : Nat) (address : Address) (typ : OpCode) :
    Yields (·.leftOverGas ≤ gas)
      (evm.createAt runner caller code codeHash gas value address typ) := by
  refine .andThen fun depth ↦ .ite (fun _ ↦ .pure le_rfl) fun _ ↦ .andThen fun ok ↦ ?_
  refine .ite (fun _ ↦ .pure le_rfl) fun _ ↦ .andThen fun nonce ↦ ?_
  refine .ite (fun _ ↦ .pure le_rfl) fun _ ↦ .andThen fun _ ↦ .andThen fun _ ↦ .andThen fun _ ↦ ?_
  refine .ite (fun _ ↦ .pure (Nat.zero_le _)) fun _ ↦ .andThen fun id ↦ .andThen fun _ ↦
    .andThen fun _ ↦ .andThen fun _ ↦ ?_
  refine (hrun ⟨caller, address, code, codeHash, some address, [], gas, value⟩ [] false hgas).bind
    fun r hr ↦ ?_
  refine (yields_storeCode address r).bind fun r' hr' ↦ ?_
  refine (yields_settleCreate id r').bind fun r'' hr'' ↦ .pure ?_
  exact hr''.trans (hr'.trans hr)

theorem yields_create (caller : Address) (code : Bytes) (hgas : gas < limit) (value : Nat) :
    Yields (·.leftOverGas ≤ gas) (evm.create runner caller code gas value) :=
  .andThen fun _ ↦ yields_createAt hrun caller code 0 hgas value _ .create

theorem yields_create2 (caller : Address) (code : Bytes) (hgas : gas < limit) (value : Nat)
    (salt : Word) : Yields (·.leftOverGas ≤ gas) (evm.create2 runner caller code gas value salt) :=
  yields_createAt hrun caller code _ hgas value _ .create2

end Frames

/-! ## Instructions -/

/-- The frame left has at most the given gas, and if it goes on its memory is charged. -/
def ExecResult.Spends (gas : Nat) : ExecResult → Prop
  | .next scope => scope.contract.gas ≤ gas ∧ scope.memory.Charged
  | .halt scope _ _ => scope.contract.gas ≤ gas

theorem ExecResult.Spends.mono {gas gas' : Nat} {r : ExecResult} (h : r.Spends gas)
    (hle : gas ≤ gas') : r.Spends gas' := by
  cases r with
  | next scope => exact ⟨h.1.trans hle, h.2⟩
  | halt scope res err => exact le_trans h hle

theorem ExecResult.Keeps.spends {scope : Scope} {r : ExecResult} (h : r.Keeps scope)
    (hm : scope.memory.Charged) : r.Spends scope.contract.gas := by
  cases r with
  | next scope' => exact ⟨by rw [h.1], h.2.charged hm⟩
  | halt scope' res err => exact le_of_eq (congrArg Contract.gas h.1)

section Instructions

variable {evm : EVM} {runner : Runner} {limit : Nat} (hrun : runner.BoundedBelow limit)
  {scope : Scope}
  (hm : scope.memory.Charged)

include hm

variable {gas : Nat}

theorem spends_finishCall (st : Stack) (retOffset retSize : Word) {r : CallResult}
    (hr : r.leftOverGas ≤ gas) :
    Yields (·.Spends (scope.contract.gas + gas)) (finishCall scope st retOffset retSize r) := by
  have hadd : add64 scope.contract.gas r.leftOverGas ≤ scope.contract.gas + gas :=
    (Nat.mod_le _ _).trans (Nat.add_le_add_left hr _)
  unfold finishCall
  dsimp only
  split
  · exact .crash _
  · next memory hmem =>
    refine .andThen fun _ ↦ .pure ⟨hadd, ?_⟩
    split at hmem
    · exact (shape_of_set hmem).charged hm
    · rw [← Option.some_inj.1 hmem]
      exact hm

include hrun

theorem spends_callBody {value : Option Nat} {body : Nat → Callees → Scope → EvmM ExecResult}
    (h : CallBody value body) (hgas : gas + stipend value scope.stack < limit) :
    Yields (·.Spends (scope.contract.gas + (gas + stipend value scope.stack)))
      (body gas (evm.callees runner) scope) := by
  refine h _ (fun _ ↦ True) gas _ scope (fun e _ ↦ .crash e)
    (fun _ _ _ hx ↦ .andThen fun _ ↦ .ite (fun _ ↦ .pure (Nat.le_add_right _ _)) fun _ ↦ hx trivial)
    fun _ _ _ x hx ↦ .bind ?_
      fun r ↦ spends_finishCall hm _ _ _
  have hat {g : Nat} (hle : g ≤ gas + stipend value scope.stack) := hrun.at_gas (lt_of_le_of_lt hle hgas)
  cases hx with
  | call _ _ hle _ => exact (yields_entryLogic.call (hat hle) _ _ _ trivial).mono fun _ hr ↦ hr.trans hle
  | callCode _ _ _ hle => exact (yields_entryLogic.callCode (hat hle) _ _ _ _).mono fun _ hr ↦ hr.trans hle
  | delegateCall _ _ hle =>
    exact (yields_entryLogic.delegateCall (hat hle) _ _ _).mono fun _ hr ↦ hr.trans hle
  | staticCall _ _ hle => exact (yields_entryLogic.staticCall (hat hle) _ _ _).mono fun _ hr ↦ hr.trans hle

omit hrun in
theorem spends_finishCreate (st : Stack) (ok : Bool) {r : CreateResult}
    (hgas : gas ≤ scope.contract.gas) (hr : r.leftOverGas ≤ gas) :
    Yields (·.Spends scope.contract.gas) (finishCreate (scope.deductGas gas) st ok r) := by
  have hadd : add64 (scope.contract.gas - gas) r.leftOverGas ≤ scope.contract.gas :=
    (Nat.mod_le _ _).trans (by omega)
  exact .andThen fun _ ↦ .pure ⟨hadd, hm⟩

theorem spends_opCreate (hgas : scope.contract.gas < limit) :
    Yields (·.Spends scope.contract.gas) (opCreate evm (evm.callees runner) scope) := by
  refine yields_writeOp le_rfl ?_
  split
  · split
    · exact .crash _
    · have hle : (if evm.chainRules.isEIP150 then scope.contract.gas - scope.contract.gas / 64
          else scope.contract.gas) ≤ scope.contract.gas := by split <;> omega
      exact (yields_create hrun _ _ (lt_of_le_of_lt hle hgas) _).bind fun r hr ↦
        spends_finishCreate hm _ _ hle hr
  · exact .crash _

theorem spends_opCreate2 (hgas : scope.contract.gas < limit) :
    Yields (·.Spends scope.contract.gas) (opCreate2 evm (evm.callees runner) scope) := by
  refine yields_writeOp le_rfl ?_
  split
  · split
    · exact .crash _
    · have hle : scope.contract.gas - scope.contract.gas / 64 ≤ scope.contract.gas := Nat.sub_le _ _
      exact (yields_create2 hrun _ _ (lt_of_le_of_lt hle hgas) _ _).bind fun r hr ↦
        spends_finishCreate hm _ _ hle hr
  · exact .crash _

omit hm hrun in
theorem spends_opSelfdestruct {callees : Callees} :
    Yields (·.Spends scope.contract.gas) (opSelfdestruct evm callees scope) := by
  refine yields_writeOp le_rfl ?_
  split
  · exact .andThen fun _ ↦ .pure le_rfl
  · exact .crash _

end Instructions

/-! ## Steps -/

section Steps

variable {evm : EVM} {callees : Callees} {scope : Scope} {o : Operation} {op : OpCode} {limit : Nat}

def Operation.ChargesMemory (evm : EVM) (o : Operation) : Prop :=
  ∀ g, o.dynamicGas = some g → ∀ contract stack mem size, o.memorySize.isSome = true ∨ size = 0 →
    Yields (Charges mem size) (g evm contract stack mem size)

theorem Operation.GasSpec.chargesMemory {S : StateOp → Prop} (h : o.GasSpec S) :
    o.ChargesMemory evm := fun g hg ↦ (h g hg).charges evm

theorem chargesMemory_sload (hgas : o.dynamicGas = some gasSLoadEIP2929)
    (hmem : o.memorySize = none) : o.ChargesMemory evm := by
  intro g hg contract stack mem size hsize
  rw [hgas] at hg
  cases hg
  obtain rfl : size = 0 := by simpa [hmem] using hsize
  exact .andThen fun _ ↦ .ite (fun _ ↦ .pure (.some_self mem _)) fun _ ↦
    .andThen fun _ ↦ .pure (.some_self mem _)

theorem chargesMemory_sstore {clearingRefund : Nat}
    (hgas : o.dynamicGas = some (makeGasSStoreFunc clearingRefund))
    (hmem : o.memorySize = none) : o.ChargesMemory evm := by
  intro g hg contract stack mem size hsize
  rw [hgas] at hg
  cases hg
  obtain rfl : size = 0 := by simpa [hmem] using hsize
  exact .ite (fun _ ↦ .pure (.none mem 0)) fun _ ↦ .andThen fun _ ↦ .andThen fun _ ↦
    .andThen fun _ ↦ .pure (.some_self mem _)

/-- Entries whose instruction spends at most the gas of its frame. -/
theorem spends_executePaid (hcharges : o.ChargesMemory evm)
    (hexec : ∀ scope' : Scope, scope'.memory.Charged → scope'.contract.gas < limit →
      Yields (·.Spends scope'.contract.gas) (o.execute evm callees scope'))
    (hm : scope.memory.Charged) (hgas : scope.contract.gas < limit) :
    Yields (·.Spends scope.contract.gas) (o.executePaid evm callees op scope) := by
  unfold executePaid
  cases hdyn : o.dynamicGas with
  | none => exact .andThen fun _ ↦ hexec scope hm hgas
  | some g =>
    dsimp only [executeDynamic]
    cases hsize : o.requiredMemory scope.stack with
    | none => exact .pure le_rfl
    | some size =>
      obtain ⟨words, rfl⟩ := requiredMemory_eq_some hsize
      refine (hcharges g hdyn _ _ _ _ (o.usesMemory hsize)).bind fun cost hcost ↦ ?_
      rcases cost with _ | ⟨price, mem⟩
      · exact .pure le_rfl
      obtain ⟨paid, hpaid, _⟩ := hcost _ rfl
      have hm' := (charged_of_memoryGasCost hm hpaid).1
      dsimp only [payDynamic]
      cases huse : scope.contract.useGas price with
      | none => exact .pure le_rfl
      | some contract =>
        obtain ⟨_, rfl⟩ := Contract.useGas_eq_some huse
        have hle : scope.contract.gas - price ≤ scope.contract.gas := Nat.sub_le _ _
        exact .andThen fun _ ↦ (hexec ⟨scope.pc, scope.stack, mem.resize (words * 32), _⟩ hm'
          (lt_of_le_of_lt hle hgas)).mono fun r hr ↦ hr.mono hle

/-- The call instructions: what the instruction returns was paid for by its gas function. -/
theorem spends_executePaid_call {runner : Runner} (hrun : runner.BoundedBelow limit) {lists : Bool}
    (hlimit : limit ≤ 2 ^ 64)
    (hforks : (lists = true → evm.chainRules.isEIP150 = true) ∨ limit ≤ coldSurcharge)
    {old : GasFunc} (hold : OldCall value old) {body : Nat → Callees → Scope → EvmM ExecResult}
    (hbody : CallBody value body) (hexec : o.execute = callOp body)
    (hdyn : o.dynamicGas = some (callGasFunc lists old)) (hm : scope.memory.Charged)
    (hgas : scope.contract.gas < limit) :
    Yields (·.Spends scope.contract.gas) (o.executePaid evm (evm.callees runner) op scope) := by
  simp only [executePaid, hdyn, executeDynamic]
  cases hsize : o.requiredMemory scope.stack with
  | none => exact .pure le_rfl
  | some size =>
    obtain ⟨words, rfl⟩ := requiredMemory_eq_some hsize
    intro m
    refine (returns_callGasFunc hold.cost hlimit hforks scope.stack words m hm hgas).bind ?_
    rintro ⟨_ | ⟨price, mem⟩, m⟩ hcost
    · exact le_refl scope.contract.gas
    obtain ⟨cold, hcost⟩ := hcost
    obtain ⟨fee, base, hfee, hcallPrice⟩ := hcost _ rfl
    have hm' := (charged_of_memoryGasCost hm hfee).1
    dsimp only [payDynamic]
    cases huse : scope.contract.useGas price with
    | none => exact le_refl scope.contract.gas
    | some contract =>
      obtain ⟨hprice, rfl⟩ := Contract.useGas_eq_some huse
      have hcover : m.callGasTemp + stipend value scope.stack ≤ price := hcallPrice.handed_le
      simp only [traceExecute, hexec]
      -- the tracer leaves the register alone
      intro _
      refine (@spends_callBody evm runner limit hrun ⟨scope.pc, scope.stack, mem.resize (words * 32), _⟩ hm'
        m.callGasTemp value body hbody ?_ m).mono fun r hr ↦ hr.mono ?_
      · exact lt_of_le_of_lt (hcover.trans hprice) hgas
      · show scope.contract.gas - price + (m.callGasTemp + stipend value scope.stack) ≤ _
        omega

variable {runner : Runner} (hrun : runner.BoundedBelow limit) (hlimit : limit ≤ 2 ^ 64)
  (hforks : (usesAccessList evm.chainRules = true → evm.chainRules.isEIP150 = true) ∨
    limit ≤ coldSurcharge)

include hrun hlimit hforks

theorem spends_entry (hentry : Entry (usesAccessList evm.chainRules) op o) (scope : Scope)
    (hm : scope.memory.Charged) (hgas : scope.contract.gas < limit) :
    Yields (·.Spends scope.contract.gas) (o.executePaid evm (evm.callees runner) op scope) := by
  cases hentry with
  | simple h =>
    exact spends_executePaid h.gas.chargesMemory (fun scope' hm' _ ↦
      (h.execute evm _ scope').keeps.mono fun r hr ↦ hr.spends hm') hm hgas
  | sload _ he hg hms =>
    exact spends_executePaid (chargesMemory_sload hg hms) (fun scope' hm' _ ↦ he ▸
      (tame_opSload evm _ scope').keeps.mono fun r hr ↦ hr.spends hm') hm hgas
  | sstore _ _ he _ hg hms =>
    exact spends_executePaid (chargesMemory_sstore hg hms) (fun scope' hm' _ ↦ he ▸
      (tame_opSstore evm _ scope').keeps.mono fun r hr ↦ hr.spends hm') hm hgas
  | oldSstore _ he hg =>
    exact spends_executePaid hg.chargesMemory (fun scope' hm' _ ↦ he ▸
      (tame_opSstore evm _ scope').keeps.mono fun r hr ↦ hr.spends hm') hm hgas
  | log size he hg =>
    exact spends_executePaid hg.chargesMemory (fun scope' hm' _ ↦ he ▸
      (tame_makeLog 0 size evm _ scope').keeps.mono fun r hr ↦ hr.spends hm') hm hgas
  | selfdestruct _ he hg =>
    exact spends_executePaid hg.chargesMemory (fun _ _ _ ↦ he ▸ spends_opSelfdestruct) hm hgas
  | call he hg =>
    exact spends_executePaid_call hrun hlimit hforks oldCall_gasCall callBody_call he hg hm hgas
  | callCode he hg =>
    exact spends_executePaid_call hrun hlimit hforks oldCall_gasCallCode callBody_callCode he hg hm hgas
  | delegateCall he hg =>
    exact spends_executePaid_call hrun hlimit hforks oldCall_gasDelegateCall callBody_delegateCall he hg hm hgas
  | staticCall he hg =>
    exact spends_executePaid_call hrun hlimit hforks oldCall_gasStaticCall callBody_staticCall he hg hm hgas
  | create _ he hg _ =>
    exact spends_executePaid hg.chargesMemory
      (fun _ ↦ he ▸ spends_opCreate hrun) hm hgas
  | create2 _ he hg _ =>
    exact spends_executePaid hg.chargesMemory
      (fun _ ↦ he ▸ spends_opCreate2 hrun) hm hgas

/-- **One step** spends gas and keeps the memory charged. -/
theorem spends_step (hm : scope.memory.Charged) (hgas : scope.contract.gas < limit) :
    Yields (·.Spends scope.contract.gas)
      (step evm (selectJumpTable evm.chainRules) (evm.callees runner) scope) := by
  refine .ite (fun _ ↦ .pure le_rfl) fun _ ↦ .ite (fun _ ↦ .pure le_rfl) fun _ ↦ ?_
  split
  · exact .pure le_rfl
  · next contract huse =>
    have hle : contract.gas ≤ scope.contract.gas := by
      rw [(Contract.useGas_eq_some huse).2]
      exact Nat.sub_le _ _
    exact (spends_entry hrun hlimit hforks (entry_selectJumpTable _ _) { scope with contract := contract }
      hm (lt_of_le_of_lt hle hgas)).mono fun r hr ↦ hr.mono hle

end Steps

/-! ## Runs -/

section Runs

variable {evm : EVM} {limit : Nat} (hlimit : limit ≤ 2 ^ 64)
  (hforks : (usesAccessList evm.chainRules = true → evm.chainRules.isEIP150 = true) ∨
    limit ≤ coldSurcharge)

include hlimit hforks

theorem spends_runLoop {runner : Runner} (hrun : runner.BoundedBelow limit) (fuel : Nat) (scope : Scope)
    (hm : scope.memory.Charged) (hgas : scope.contract.gas < limit) :
    Yields (·.leftOverGas ≤ scope.contract.gas)
      (runLoop evm (selectJumpTable evm.chainRules) (evm.callees runner) fuel scope) := by
  induction fuel generalizing scope with
  | zero => exact .crash _
  | succ fuel ih =>
    refine (spends_step hrun hlimit hforks hm hgas).bind fun r hr ↦ ?_
    cases r with
    | next scope' =>
      exact (ih { scope' with pc := add64 scope'.pc 1 } hr.2
        (lt_of_le_of_lt hr.1 hgas)).mono fun _ h ↦ h.trans hr.1
    | halt scope' res err => exact .pure hr

/-- **Nested runs.** By induction on how deep frames may nest. -/
theorem bounded_runner (depth : Nat) : (evm.runner depth).BoundedBelow limit := by
  induction depth with
  | zero => exact fun _ _ _ _ ↦ .crash _
  | succ depth ih =>
    intro contract input readOnly hgas
    have hcode : Yields (·.leftOverGas ≤ contract.gas)
        (evm.frameCode (selectJumpTable evm.chainRules) (evm.callees (evm.runner depth)) contract input) :=
      .ite (fun _ ↦ .pure le_rfl) fun _ ↦
        spends_runLoop hlimit hforks ih _ ⟨0, [], empty, { contract with input := input }⟩
          charged_empty hgas
    exact .andThen fun _ ↦ hcode.bind fun r hr ↦ .andThen fun _ ↦ .pure hr

omit hlimit hforks in
/-- **No code returns more gas than it was given**, provided that the instruction tables priced by
access lists are only used with EIP-150. -/
theorem bounded_interpreter
    (hforks : usesAccessList evm.chainRules = true → evm.chainRules.isEIP150 = true) :
    evm.interpreter.Bounded := bounded_runner le_rfl (.inl hforks) maxNesting

end Runs

end GoEntropy.Evm
