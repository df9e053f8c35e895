import GoEntropy.Evm.MemorySafety

/-!
# What the jump tables contain

An entry of a jump table is *simple* or one of eleven that are not: the four calls, the two creations,
`SELFDESTRUCT`, the logs, `SSTORE`, and `SLOAD` and `SSTORE` under EIP-2929. `Entry` is this
classification, and `entry_selectJumpTable` says that every entry of every table the interpreter can
select falls under it. Statements about executions are proved by these twelve cases, so a fork that
only reprices instructions or adds simple ones needs nothing but a line here. The same line says that
the entry stays in bounds.

The entry points of the machine, which the call instructions lead to, are walked through once for all
logics (`EntryLogic`).
-/

namespace GoEntropy.Evm

open Interaction
open Option (bind_eq_some_iff some_inj)

/-! ## Gas functions -/

/-- The memory returned is the one charged for, and the price includes the fee for it. -/
def Charges (mem : Memory) (size : Nat) (r : Option (Nat × Memory)) : Prop :=
  ∀ p, r = some p → ∃ cost, memoryGasCost mem size = some (cost, p.2) ∧ cost ≤ p.1

theorem Charges.none (mem : Memory) (size : Nat) : Charges mem size none := nofun

theorem Charges.some_self (mem : Memory) (gas : Nat) : Charges mem 0 (some (gas, mem)) :=
  fun _ h ↦ ⟨0, by rw [← some_inj.1 h]; rfl, Nat.zero_le _⟩

/-- What the interpreter relies on in a gas function: it is plain, and it charges for the memory
size it is given, which is zero unless the entry uses memory. -/
structure GasFunc.Spec (S : StateOp → Prop) (usesMemory : Bool) (g : GasFunc) : Prop where
  plain : ∀ evm contract stack mem size, Plain S (g evm contract stack mem size)
  charges : ∀ evm contract stack mem size, usesMemory = true ∨ size = 0 →
    Yields (Charges mem size) (g evm contract stack mem size)

/-- Such a gas function that stays in bounds. -/
structure GasFunc.Sane (S : StateOp → Prop) (usesMemory : Bool) (g : GasFunc) : Prop
    extends g.Spec S usesMemory where
  sound : g.Sound

section GasFunctions

variable {S : StateOp → Prop} {lists usesMemory : Bool}

theorem sane_localGas {f : Stack → Memory → Nat → Option (Nat × Memory)}
    (hf : ∀ stack mem size, Charges mem size (f stack mem size)) :
    (localGas f).Sane S usesMemory :=
  ⟨⟨fun _ _ _ _ _ ↦ .pure _, fun _ _ stack mem size _ ↦ .pure (hf stack mem size)⟩, fun _ _ _ _ ↦ .pure⟩

theorem charges_wordGas (stackpos perWord : Nat) (stack : Stack) (mem : Memory) (size : Nat) :
    Charges mem size (wordGas stackpos perWord stack mem size) := by
  unfold wordGas
  cases h : memoryGasCost mem size with
  | none => exact .none mem size
  | some p =>
    intro q hq
    simp only [bind, bind_eq_some_iff, some_inj, pure] at hq
    obtain ⟨_, rfl, _, _, _, _, gas, hgas, rfl⟩ := hq
    have hle : p.1 ≤ gas := (safeAdd_eq_some.1 hgas).1 ▸ Nat.le_add_right _ _
    exact ⟨p.1, h, hle⟩

theorem sane_wordGas (stackpos perWord : Nat) :
    (localGas (wordGas stackpos perWord)).Sane S usesMemory :=
  sane_localGas (charges_wordGas stackpos perWord)

theorem sane_makeGasLog (n : Nat) : (makeGasLog n).Sane S usesMemory := by
  refine sane_localGas fun stack mem size ↦ ?_
  intro q hq
  cases h : memoryGasCost mem size with
  | none => simp [h] at hq
  | some p =>
    simp only [bind, h, bind_eq_some_iff, some_inj, pure] at hq
    obtain ⟨_, _, _, rfl, _, hbase, _, htopics, _, _, gas, hdata, rfl⟩ := hq
    refine ⟨p.1, rfl, ?_⟩
    have hbase := (safeAdd_eq_some.1 hbase).1
    have htopics := (safeAdd_eq_some.1 htopics).1
    have hdata := (safeAdd_eq_some.1 hdata).1
    omega

theorem sane_pureMemoryGascost : pureMemoryGascost.Sane S usesMemory :=
  sane_localGas fun _ _ _ p hp ↦ ⟨p.1, hp, le_rfl⟩

theorem sane_expGas (perByte : Nat) : (expGas perByte).Sane S false := by
  refine ⟨⟨fun _ _ _ _ _ ↦ .pure _, fun _ _ stack mem size hsize ↦ .pure fun q hq ↦ ?_⟩, fun _ _ _ _ ↦ .pure⟩
  obtain rfl : size = 0 := by simpa using hsize
  simp only [bind, bind_eq_some_iff, some_inj, pure] at hq
  obtain ⟨gas, _, rfl⟩ := hq
  exact Charges.some_self mem gas _ rfl

theorem sane_of_some {g : GasFunc} (htidy : ∀ evm contract stack mem size,
      Tidy S (g evm contract stack mem size))
    (hmem : ∀ evm contract stack mem size,
      Yields (fun r ↦ ∀ p, r = some p → p.2 = mem) (g evm contract stack mem size)) :
    g.Sane S false := by
  refine ⟨⟨fun _ _ _ _ _ ↦ (htidy ..).plain, fun evm contract stack mem size hsize ↦ ?_⟩,
    fun _ _ _ _ _ ↦ (htidy ..).sound⟩
  obtain rfl : size = 0 := by simpa using hsize
  refine (hmem evm contract stack mem 0).mono fun r hr p hp ↦ ⟨0, ?_, Nat.zero_le _⟩
  rw [hr p hp]
  rfl

theorem yields_some_self {mem : Memory} {gas : Nat} :
    Yields (fun r : Option (Nat × Memory) ↦ ∀ p, r = some p → p.2 = mem)
      (pure (some (gas, mem)) : EvmM _) :=
  .pure fun p hp ↦ by rw [← some_inj.1 hp]

theorem tidy_netSstore (p : NetSstore) (addr : Address) (slot value current : Hash) :
    Tidy Metered (netSstore p addr slot value current) := by
  have hadd : ∀ gas, Metered (.addRefund gas) := fun gas ↦ .inr (.inl ⟨gas, rfl⟩)
  have hsub : ∀ gas, Metered (.subRefund gas) := fun gas ↦ .inr (.inr ⟨gas, rfl⟩)
  refine .ite (fun _ ↦ .pure _) fun _ ↦ .bind (.query (.inl rfl)) fun original ↦ ?_
  refine .ite (fun _ ↦ ?_) fun _ ↦ ?_
  · refine .ite (fun _ ↦ .pure _) fun _ ↦ ?_
    exact .ite (fun _ ↦ .bind (.query (hadd _)) fun _ ↦ .pure _) fun _ ↦ .pure _
  · have hlast : Tidy Metered (do
        if original = value then
          if original = 0 then query (.addRefund p.resetClearRefund)
          else query (.addRefund p.resetRefund)
        return p.dirty) :=
      .ite (fun _ ↦ .ite (fun _ ↦ .bind (.query (hadd _)) fun _ ↦ .pure _)
        fun _ ↦ .bind (.query (hadd _)) fun _ ↦ .pure _) fun _ ↦ .pure _
    refine .ite (fun _ ↦ ?_) fun _ ↦ hlast
    refine .ite (fun _ ↦ .bind (.query (hsub _)) fun _ ↦ hlast) fun _ ↦ ?_
    exact .ite (fun _ ↦ .bind (.query (hadd _)) fun _ ↦ hlast) fun _ ↦ hlast

theorem Tidy.quietOr {α : Type} {x : EvmM α} (h : Tidy Metered x) : Tidy (QuietOr lists) x :=
  h.mono fun _ ho ↦ .inl ho.quiet

theorem sane_gasSStore : gasSStore.Sane (QuietOr lists) false :=
  sane_of_some
    (fun _ _ _ _ _ ↦ .bind (.query (.inl rfl)) fun _ ↦
      .bind (tidy_netSstore ..).quietOr fun _ ↦ .pure _)
    fun _ _ _ _ _ ↦ .andThen fun _ ↦ .andThen fun _ ↦ yields_some_self

theorem sane_gasSStoreEIP2200 : gasSStoreEIP2200.Sane (QuietOr lists) false :=
  sane_of_some
    (fun _ _ _ _ _ ↦ .ite (fun _ ↦ .pure _) fun _ ↦ .bind (.query (.inl rfl)) fun _ ↦
      .bind (tidy_netSstore ..).quietOr fun _ ↦ .pure _)
    fun _ _ _ _ _ ↦ .ite (fun _ ↦ .pure nofun) fun _ ↦
      .andThen fun _ ↦ .andThen fun _ ↦ yields_some_self

theorem tidy_refundSelfdestruct (self : Address) :
    Tidy (RefundOr lists) (refundSelfdestruct self) :=
  .bind (.query (.inl (.inl rfl))) fun _ ↦ .ite (fun _ ↦ .pure _) fun _ ↦ .query (.inr ⟨_, rfl⟩)

theorem sane_gasSelfdestruct : gasSelfdestruct.Sane (RefundOr lists) false :=
  sane_of_some
    (fun _ _ _ _ _ ↦ .bind
      (.ite (fun _ ↦ .bind (.query (.inl (.inl rfl))) fun _ ↦ .pure _) fun _ ↦ .pure _)
      fun _ ↦ .bind (tidy_refundSelfdestruct _) fun _ ↦ .pure _)
    fun _ _ _ _ _ ↦ .andThen fun _ ↦ .andThen fun _ ↦ yields_some_self

theorem tidy_accessAddress (addr : Address) : Tidy (CalmOr true) (accessAddress addr) :=
  .bind (.query (.inr ⟨rfl, rfl⟩)) fun _ ↦ .ite (fun _ ↦ .pure _) fun _ ↦
    .bind (.query (.inr ⟨rfl, rfl⟩)) fun _ ↦ .pure _

theorem sane_gasEip2929AccountCheck : gasEip2929AccountCheck.Sane (CalmOr true) false :=
  sane_of_some (fun _ _ _ _ _ ↦ .bind (tidy_accessAddress _) fun _ ↦ .pure _)
    fun _ _ _ _ _ ↦ .andThen fun _ ↦ yields_some_self

theorem sane_gasExtCodeCopyEIP2929 : gasExtCodeCopyEIP2929.Sane (CalmOr true) usesMemory := by
  have hcopy : gasExtCodeCopy.Sane (CalmOr true) usesMemory := sane_wordGas 3 Params.copyGas
  have htidy : ∀ evm contract stack mem size,
      Tidy (CalmOr true) (gasExtCodeCopyEIP2929 evm contract stack mem size) := by
    intro evm contract stack mem size
    refine .bind ⟨hcopy.plain evm contract stack mem size, hcopy.sound evm contract stack mem size⟩ fun r ↦ ?_
    rcases r with _ | ⟨gas, mem'⟩
    · exact .pure _
    · exact .bind (tidy_accessAddress _) fun _ ↦ .ite (fun _ ↦ .pure _) fun _ ↦ .pure _
  refine ⟨⟨fun _ _ _ _ _ ↦ (htidy ..).plain, fun evm contract stack mem size hsize ↦ ?_⟩,
    fun _ _ _ _ _ ↦ (htidy ..).sound⟩
  refine .bind (hcopy.charges evm contract stack mem size hsize) fun r hr ↦ ?_
  rcases r with _ | ⟨gas, mem'⟩
  · exact .pure (.none mem size)
  · obtain ⟨cost, hcost, hle⟩ := hr _ rfl
    refine .andThen fun _ ↦ .ite (fun _ ↦ .pure fun _ hp ↦ by
        rw [← some_inj.1 hp]; exact ⟨cost, hcost, hle⟩) fun _ ↦
      .pure fun p hp ↦ ?_
    simp only [bind, bind_eq_some_iff, some_inj, pure] at hp
    obtain ⟨gas', hgas', rfl⟩ := hp
    have hle' : gas ≤ gas' := (safeAdd_eq_some.1 hgas').1 ▸ Nat.le_add_right _ _
    exact ⟨cost, hcost, Nat.le_trans hle hle'⟩

theorem sane_makeSelfdestructGasFn (refundsEnabled : Bool) :
    (makeSelfdestructGasFn refundsEnabled).Sane (RefundOr true) false :=
  sane_of_some
    (fun _ _ _ _ _ ↦ .bind ((tidy_accessAddress _).mono fun _ ↦ .inl) fun _ ↦
      .bind (.bind (.query (.inl (.inl rfl))) fun _ ↦
        .ite (fun _ ↦ .bind (.query (.inl (.inl rfl))) fun _ ↦ .pure _) fun _ ↦ .pure _) fun _ ↦
        .ite (fun _ ↦ .bind (tidy_refundSelfdestruct _) fun _ ↦ .pure _) fun _ ↦ .pure _)
    fun _ _ _ _ _ ↦ .andThen fun _ ↦ .andThen fun _ ↦
      .ite (fun _ ↦ .andThen fun _ ↦ yields_some_self) fun _ ↦ yields_some_self

theorem sound_gasSLoadEIP2929 : gasSLoadEIP2929.Sound := fun _ _ _ _ _ ↦
  .bind (.query _) fun _ ↦ .ite (fun _ ↦ .pure _) fun _ ↦ .bind (.query _) .pure

theorem sound_makeGasSStoreFunc (refund : Nat) : (makeGasSStoreFunc refund).Sound := by
  intro _ contract stack _ _
  have hslot : Sound (sstoreSlotCost contract.self (stack.back 0)) :=
    .bind (.query _) fun _ ↦ .ite (fun _ ↦ .pure _) fun _ ↦ .bind (.query _) fun _ ↦
      .ite (fun _ ↦ .pure _) fun _ ↦ .crash ⟨by simp, by simp⟩
  exact .ite (fun _ ↦ .pure _) fun _ ↦ .bind (.query _) fun _ ↦ .bind hslot fun _ ↦
    .bind (tidy_netSstore ..).sound .pure

end GasFunctions

/-! ## The classification -/

/-- The gas function of a call: since EIP-2929 the old one is wrapped. -/
def callGasFunc (lists : Bool) (old : GasFunc) : GasFunc :=
  if lists then makeCallVariantGasCallEIP2929 old else old

/-- What a call adds to the gas it hands over, if it sends value: the operand at the given position
is the value. -/
def stipend : Option Nat → Stack → Nat
  | none, _ => 0
  | some i, stack => if stack.back i ≠ 0 then Params.callStipend else 0

/-- What the gas function of a call does before EIP-2929: it may look whether the callee exists, and then
fails, or charges for the memory and for no less than the stipend. -/
def OldCall (value : Option Nat) (old : GasFunc) : Prop :=
  ∀ (P : EvmM (Option (Nat × Memory)) → Prop) evm contract stack mem size,
    (∀ addr f, (∀ present, P (f present)) → P (query (.exist addr) >>= f)) → P (pure none) →
    (∀ extra fee mem', memoryGasCost mem size = some (fee, mem') → stipend value stack ≤ extra →
      extra ≤ 34000 → P (chargeCallGas evm contract stack mem' (extra + fee))) →
    P (old evm contract stack mem size)

/-- What is charged for sending value covers the stipend. -/
theorem stipend_le (stack : Stack) :
    stipend (some 2) stack ≤ (if stack.back 2 ≠ 0 then Params.callValueTransferGas else 0) ∧
      (if stack.back 2 ≠ 0 then Params.callValueTransferGas else 0) ≤ 9000 := by
  simp only [stipend]
  split <;> decide

theorem oldCall_gasCall : OldCall (some 2) gasCall := by
  intro P evm contract stack mem size hquery hnone hcharge
  refine hquery _ _ fun present ↦ ?_
  obtain ⟨hcovered, hvalue⟩ := stipend_le stack
  have hnew : (if present then 0 else Params.callNewAccountGas) ≤ 25000 := by split <;> decide
  cases hmem : memoryGasCost mem size with
  | none => exact hnone
  | some r =>
    dsimp only
    split
    · exact hnone
    · next hadd =>
      rw [← (safeAdd_eq_some.1 hadd).1]
      exact hcharge _ _ _ hmem (by omega) (by omega)

theorem oldCall_gasCallCode : OldCall (some 2) gasCallCode := by
  intro P evm contract stack mem size _ hnone hcharge
  unfold gasCallCode
  cases hmem : memoryGasCost mem size with
  | none => exact hnone
  | some r =>
    dsimp only
    split
    · exact hnone
    · next hadd =>
      rw [← (safeAdd_eq_some.1 hadd).1]
      exact hcharge _ _ _ hmem (stipend_le stack).1 ((stipend_le stack).2.trans (by decide))

theorem oldCall_gasDelegateCall : OldCall none gasDelegateCall := by
  intro P evm contract stack mem size _ hnone hcharge
  unfold gasDelegateCall
  cases hmem : memoryGasCost mem size with
  | none => exact hnone
  | some r => simpa using hcharge 0 _ _ hmem le_rfl (Nat.zero_le _)

theorem oldCall_gasStaticCall : OldCall none gasStaticCall := oldCall_gasDelegateCall

section OldCalls

variable {value : Option Nat} {old : GasFunc} (h : OldCall value old)

include h

theorem OldCall.sound : old.Sound := fun evm contract stack mem size ↦ h Sound evm contract stack mem size
  (fun _ _ ↦ .bind (.query _)) (.pure _) fun _ _ _ _ _ _ _ ↦ trivial

theorem OldCall.sound_variant : (makeCallVariantGasCallEIP2929 old).Sound := by
  intro evm contract stack mem size
  refine .bind (tidy_accessAddress _).sound fun _ ↦ .ite (fun _ ↦ h.sound evm contract stack mem size) fun _ ↦ ?_
  split
  · exact .pure _
  · next reduced _ =>
    refine .bind (h.sound evm reduced stack mem size) fun r ↦ ?_
    rcases r with _ | ⟨gas, mem'⟩
    · exact .pure _
    · exact .pure _

end OldCalls

theorem withStipend_le {stack st : Stack} {x y value : Word} (h : stack = x :: y :: value :: st)
    (gas : Nat) : withStipend gas value ≤ gas + stipend (some 2) stack := by
  subst h
  show withStipend gas value ≤ gas + if value ≠ 0 then Params.callStipend else 0
  unfold withStipend
  split
  · exact Nat.mod_le _ _
  · exact le_rfl

/-- The frame that a call instruction enters, with at most `limit` gas, and with a value that `V` allows if
the value is sent. -/
inductive Enters (V : Word → Prop) (callees : Callees) (scope : Scope) (limit : Nat) :
    EvmM CallResult → Prop
  | call (args : Bytes) {addr value : Word} {gas : Nat} (haddr : addr = scope.stack.back 1)
      (hgas : gas ≤ limit) (hvalue : V value) : Enters V callees scope limit
        (callees.call scope.contract.self (hashToAddress addr) args gas value.toNat)
  | callCode (addr : Address) (args : Bytes) (value : Nat) {gas : Nat} (hgas : gas ≤ limit) :
    Enters V callees scope limit (callees.callCode scope.contract.self addr args gas value)
  | delegateCall (addr : Address) (args : Bytes) {gas : Nat} (hgas : gas ≤ limit) :
    Enters V callees scope limit (callees.delegateCall scope.contract addr args gas)
  | staticCall (args : Bytes) {addr : Word} {gas : Nat} (haddr : addr = scope.stack.back 1)
      (hgas : gas ≤ limit) : Enters V callees scope limit
        (callees.staticCall scope.contract.self (hashToAddress addr) args gas)

/-- What a call instruction does once its gas is known: it crashes, or enters a frame and takes back what
is left. One that sends value checks that it may. -/
def CallBody (value : Option Nat) (body : Nat → Callees → Scope → EvmM ExecResult) : Prop :=
  ∀ (P : EvmM ExecResult → Prop) (V : Word → Prop) gas callees scope,
    (∀ e, e.isLocal = true → P (crash e)) →
    (∀ st v x, (V v → P x) → P (readRegister (·.readOnly) >>= fun readOnly ↦
      if readOnly ∧ v ≠ 0 then pure (.halt { scope with stack := st } [] (some .writeProtection)) else x)) →
    (∀ st retOffset retSize x, Enters V callees scope (gas + stipend value scope.stack) x →
      P (x >>= finishCall scope st retOffset retSize)) →
    P (body gas callees scope)

theorem callBody_call : CallBody (some 2) callWithGas := by
  intro P V gas callees scope hcrash hguard henter
  unfold callWithGas
  split
  · next hstack =>
    split
    · exact hcrash _ rfl
    · exact hguard _ _ _ fun hv ↦
        henter _ _ _ _ (.call _ (by rw [hstack]; rfl) (withStipend_le hstack gas) hv)
  · exact hcrash _ rfl

theorem callBody_callCode : CallBody (some 2) callCodeWithGas := by
  intro P V gas callees scope hcrash _ henter
  unfold callCodeWithGas
  split
  · next hstack =>
    split
    · exact hcrash _ rfl
    · exact henter _ _ _ _ (.callCode _ _ _ (withStipend_le hstack gas))
  · exact hcrash _ rfl

theorem callBody_delegateCall : CallBody none delegateCallWithGas := by
  intro P V gas callees scope hcrash _ henter
  unfold delegateCallWithGas
  split
  · split
    · exact hcrash _ rfl
    · exact henter _ _ _ _ (.delegateCall _ _ le_rfl)
  · exact hcrash _ rfl

theorem callBody_staticCall : CallBody none staticCallWithGas := by
  intro P V gas callees scope hcrash _ henter
  unfold staticCallWithGas
  split
  · next hstack =>
    split
    · exact hcrash _ rfl
    · exact henter _ _ _ _ (.staticCall _ (by rw [hstack]; rfl) le_rfl)
  · exact hcrash _ rfl

/-- The entry's gas function, if it has one, is as the interpreter relies on. -/
def Operation.GasSpec (S : StateOp → Prop) (o : Operation) : Prop :=
  ∀ g, o.dynamicGas = some g → g.Spec S o.memorySize.isSome

/-- The entry executes a simple instruction, at a price as the interpreter relies on. -/
structure Operation.IsSimple (lists : Bool) (o : Operation) : Prop where
  execute : ∀ evm callees scope, Simple Calm scope (o.execute evm callees scope)
  gas : o.GasSpec (CalmOr lists)

/-- What the entry of an instruction can be. -/
inductive Entry (lists : Bool) (op : OpCode) (o : Operation) : Prop
  | simple (h : o.IsSimple lists)
  | sload (hlists : lists = true) (hexec : o.execute = opSload)
      (hgas : o.dynamicGas = some gasSLoadEIP2929) (hmem : o.memorySize = none)
  | sstore (hop : op = .sstore) (hlists : lists = true) (hexec : o.execute = opSstore)
      (clearingRefund : Nat) (hgas : o.dynamicGas = some (makeGasSStoreFunc clearingRefund))
      (hmem : o.memorySize = none)
  | oldSstore (hop : op = .sstore) (hexec : o.execute = opSstore) (hgas : o.GasSpec (QuietOr lists))
  | log (size : Nat) (hexec : o.execute = makeLog size) (hgas : o.GasSpec (CalmOr lists))
  | selfdestruct (hop : op = .selfdestruct) (hexec : o.execute = opSelfdestruct)
      (hgas : o.GasSpec (RefundOr lists))
  | call (hexec : o.execute = opCall) (hgas : o.dynamicGas = some (callGasFunc lists gasCall))
  | callCode (hexec : o.execute = opCallCode)
      (hgas : o.dynamicGas = some (callGasFunc lists gasCallCode))
  | delegateCall (hexec : o.execute = opDelegateCall)
      (hgas : o.dynamicGas = some (callGasFunc lists gasDelegateCall))
  | staticCall (hexec : o.execute = opStaticCall)
      (hgas : o.dynamicGas = some (callGasFunc lists gasStaticCall))
  | create (hop : op = .create) (hexec : o.execute = opCreate) (hgas : o.GasSpec (CalmOr lists))
      (hprice : Params.createGas ≤ o.constantGas)
  | create2 (hop : op = .create2) (hexec : o.execute = opCreate2) (hgas : o.GasSpec (CalmOr lists))
      (hprice : Params.createGas ≤ o.constantGas)

section Classification

variable {S : StateOp → Prop} {lists : Bool} {op : OpCode}

theorem Operation.GasSpec.mono {S' : StateOp → Prop} {o : Operation} (h : o.GasSpec S)
    (hS : ∀ o, S o → S' o) : o.GasSpec S' := fun g hg ↦
  ⟨fun evm contract stack mem size ↦ ((h g hg).plain evm contract stack mem size).mono hS,
    (h g hg).charges⟩

/-- What is known about an entry: its place in the classification, and that it stays in bounds. -/
structure Operation.Certified (lists : Bool) (op : OpCode) (o : Operation) : Prop where
  entry : Entry lists op o
  safe : o.MemorySafe op

variable {constantGas pops pushes : Nat} {execute : ExecutionFunc} {g : GasFunc}

theorem gasSpec_dynamic (hg : g.Spec S false) :
    (dynamicOperation execute constantGas g pops pushes).GasSpec S :=
  fun _ h ↦ some_inj.1 h ▸ hg

theorem gasSpec_memory {memorySize : MemorySizeFunc} (hg : g.Spec S true) :
    (memoryOperation execute constantGas g pops pushes memorySize).GasSpec S :=
  fun _ h ↦ some_inj.1 h ▸ hg

section

variable (h : execute.Tame Calm op pops)

include h

theorem certified_operation (hop : memoryAccesses op = fun _ ↦ []) :
    (operation execute constantGas pops pushes).Certified lists op :=
  ⟨.simple ⟨h.simple, nofun⟩, memorySafe_operation h.sound hop⟩

theorem certified_dynamic (hg : g.Sane (CalmOr lists) false) (hop : memoryAccesses op = fun _ ↦ []) :
    (dynamicOperation execute constantGas g pops pushes).Certified lists op :=
  ⟨.simple ⟨h.simple, gasSpec_dynamic hg.toSpec⟩, memorySafe_dynamic h.sound hg.sound hop⟩

theorem certified_memory {memorySize : MemorySizeFunc} (hg : g.Sane (CalmOr lists) true)
    (hsize : memorySize.CoversAccesses op) :
    (memoryOperation execute constantGas g pops pushes memorySize).Certified lists op :=
  ⟨.simple ⟨h.simple, gasSpec_memory hg.toSpec⟩, memorySafe_memory h.sound hg.sound hsize⟩

end

/-- Repricing by a constant does not change what an entry is, the creations apart. -/
theorem Entry.withConstantGas {o : Operation} (h : Entry lists op o) (gas : Nat)
    (hcreate : op ≠ .create ∧ op ≠ .create2) : Entry lists op { o with constantGas := gas } := by
  cases h with
  | simple h => exact .simple ⟨h.execute, h.gas⟩
  | sload hl he hg hm => exact .sload hl he hg hm
  | sstore hop hl he r hg hm => exact .sstore hop hl he r hg hm
  | oldSstore hop he hg => exact .oldSstore hop he hg
  | log size he hg => exact .log size he hg
  | selfdestruct hop he hg => exact .selfdestruct hop he hg
  | call he hg => exact .call he hg
  | callCode he hg => exact .callCode he hg
  | delegateCall he hg => exact .delegateCall he hg
  | staticCall he hg => exact .staticCall he hg
  | create hop _ _ _ => exact absurd hop hcreate.1
  | create2 hop _ _ _ => exact absurd hop hcreate.2

theorem Operation.Certified.withConstantGas {o : Operation} (h : o.Certified lists op) (gas : Nat)
    (hcreate : op ≠ .create ∧ op ≠ .create2) : Operation.Certified lists op { o with constantGas := gas } :=
  ⟨h.entry.withConstantGas gas hcreate, h.safe.memorySize, h.safe.gas, h.safe.covers, h.safe.execute⟩

end Classification

/-! ## The tables -/

/-- The call instructions, whose prices `enable2929` replaces. -/
def OpCode.isCall : OpCode → Bool
  | call => true
  | callCode => true
  | delegateCall => true
  | staticCall => true
  | _ => false

section Tables

variable {lists : Bool} {op : OpCode}

section

variable (h : lists = false ∨ op.isCall = false)

include h

theorem certified_frontier : (newFrontierInstructionSet op).Certified lists op := by
  cases op with
  | add | mul | sub | div | sdiv | mod | smod | signExtend | lt | gt | slt | sgt | eq | and | xor
  | or | byte => exact certified_operation (tame_binaryOp _) rfl
  | addmod | mulmod => exact certified_operation (tame_ternaryOp _) rfl
  | isZero | not => exact certified_operation (tame_unaryOp _) rfl
  | address | origin | caller | callValue | callDataSize | codeSize | gasPrice | coinbase
  | timestamp | number | difficulty | gasLimit | pc | msize | gas =>
    exact certified_operation (tame_pushOp _) rfl
  | stop => exact certified_operation tame_opStop rfl
  | exp => exact certified_dynamic (tame_binaryOp _) (sane_expGas _) rfl
  | keccak256 =>
    exact certified_memory tame_opKeccak256 (sane_wordGas _ _) (coversAccesses_memoryRegion rfl)
  | balance => exact certified_operation tame_opBalance rfl
  | callDataLoad => exact certified_operation tame_opCallDataLoad rfl
  | callDataCopy =>
    exact certified_memory tame_opCallDataCopy (sane_wordGas _ _) (coversAccesses_memoryRegion rfl)
  | codeCopy => exact certified_memory tame_opCodeCopy (sane_wordGas _ _) (coversAccesses_memoryRegion rfl)
  | extCodeSize => exact certified_operation tame_opExtCodeSize rfl
  | extCodeCopy =>
    exact certified_memory tame_opExtCodeCopy (sane_wordGas _ _) (coversAccesses_memoryRegion rfl)
  | blockHash => exact certified_operation tame_opBlockhash rfl
  | pop => exact certified_operation tame_opPop rfl
  | mload => exact certified_memory tame_opMload sane_pureMemoryGascost (coversAccesses_fixed 32 rfl)
  | mstore => exact certified_memory tame_opMstore sane_pureMemoryGascost (coversAccesses_fixed 32 rfl)
  | mstore8 => exact certified_memory tame_opMstore8 sane_pureMemoryGascost (coversAccesses_fixed 1 rfl)
  | sload => exact certified_operation tame_opSload rfl
  | sstore =>
    have hgas : gasSStore.Sane (QuietOr lists) false := sane_gasSStore
    exact ⟨.oldSstore rfl rfl (gasSpec_dynamic hgas.toSpec), memorySafe_dynamic tame_opSstore.sound hgas.sound rfl⟩
  | jump => exact certified_operation tame_opJump rfl
  | jumpi => exact certified_operation tame_opJumpi rfl
  | jumpdest => exact certified_operation tame_opJumpdest rfl
  | create =>
    have hgas : gasCreate.Sane (CalmOr lists) true := sane_pureMemoryGascost
    exact ⟨.create rfl rfl (gasSpec_memory hgas.toSpec) le_rfl,
      memorySafe_memory sound_opCreate hgas.sound (coversAccesses_memoryRegion rfl)⟩
  | call =>
    obtain rfl : lists = false := by simpa [OpCode.isCall] using h
    exact ⟨.call rfl rfl, memorySafe_memory sound_opCall oldCall_gasCall.sound (coversAccesses_memoryInOut rfl)⟩
  | callCode =>
    obtain rfl : lists = false := by simpa [OpCode.isCall] using h
    exact ⟨.callCode rfl rfl,
      memorySafe_memory sound_opCallCode oldCall_gasCallCode.sound (coversAccesses_memoryInOut rfl)⟩
  | returnOp => exact certified_memory tame_opReturn sane_pureMemoryGascost (coversAccesses_memoryRegion rfl)
  | selfdestruct =>
    have hgas : gasSelfdestruct.Sane (RefundOr lists) false := sane_gasSelfdestruct
    exact ⟨.selfdestruct rfl rfl (gasSpec_dynamic hgas.toSpec),
      memorySafe_dynamic sound_opSelfdestruct hgas.sound rfl⟩
  | push n =>
    refine certified_operation ?_ rfl
    split
    · exact tame_opPush1
    · exact tame_makePush _
  | dup n => exact certified_operation (tame_makeDup _) rfl
  | swap n => exact certified_operation (tame_makeSwap _) rfl
  | log n =>
    have hgas : (makeGasLog n).Sane (CalmOr lists) true := sane_makeGasLog n
    exact ⟨.log _ rfl (gasSpec_memory hgas.toSpec),
      memorySafe_memory (tame_makeLog n _).sound hgas.sound (coversAccesses_memoryRegion rfl)⟩
  | _ => exact ⟨.simple ⟨fun _ _ _ ↦ .halt (by simp), nofun⟩, memorySafe_undefined⟩

theorem certified_homestead : (newHomesteadInstructionSet op).Certified lists op := by
  unfold newHomesteadInstructionSet
  split
  · obtain rfl : lists = false := by simpa [OpCode.isCall] using h
    exact ⟨.delegateCall rfl rfl,
      memorySafe_memory sound_opDelegateCall oldCall_gasDelegateCall.sound (coversAccesses_memoryInOut rfl)⟩
  · exact certified_frontier h

theorem certified_tangerineWhistle : (newTangerineWhistleInstructionSet op).Certified lists op := by
  unfold newTangerineWhistleInstructionSet
  split
  case h_8 => exact certified_homestead h
  all_goals exact (certified_homestead h).withConstantGas _ (by decide)

theorem certified_spuriousDragon : (newSpuriousDragonInstructionSet op).Certified lists op := by
  unfold newSpuriousDragonInstructionSet
  split
  · have hgas : gasExpEIP158.Sane (CalmOr lists) false := sane_expGas _
    exact ⟨.simple ⟨(@tame_binaryOp Calm .exp _).simple, fun _ hg ↦ some_inj.1 hg ▸ hgas.toSpec⟩,
      (certified_tangerineWhistle h).safe.reprice _ hgas.sound⟩
  · exact certified_tangerineWhistle h

theorem certified_byzantium : (newByzantiumInstructionSet op).Certified lists op := by
  unfold newByzantiumInstructionSet
  split
  · obtain rfl : lists = false := by simpa [OpCode.isCall] using h
    exact ⟨.staticCall rfl rfl,
      memorySafe_memory sound_opStaticCall oldCall_gasStaticCall.sound (coversAccesses_memoryInOut rfl)⟩
  · exact certified_operation tame_opReturnDataSize rfl
  · exact certified_memory tame_opReturnDataCopy (sane_wordGas _ _) (coversAccesses_memoryRegion rfl)
  · exact certified_memory tame_opRevert sane_pureMemoryGascost (coversAccesses_memoryRegion rfl)
  · exact certified_spuriousDragon h

theorem certified_constantinople : (newConstantinopleInstructionSet op).Certified lists op := by
  unfold newConstantinopleInstructionSet
  split
  iterate 3 exact certified_operation (tame_binaryOp _) rfl
  · exact certified_operation tame_opExtCodeHash rfl
  · have hgas : gasCreate2.Sane (CalmOr lists) true := sane_wordGas _ _
    exact ⟨.create2 rfl rfl (gasSpec_memory hgas.toSpec) le_rfl,
      memorySafe_memory sound_opCreate2 hgas.sound (coversAccesses_memoryRegion rfl)⟩
  · exact certified_byzantium h

theorem certified_istanbul : (newIstanbulInstructionSet op).Certified lists op := by
  have h1344 : ∀ {op : OpCode}, lists = false ∨ op.isCall = false →
      (enable1344 newConstantinopleInstructionSet op).Certified lists op := by
    intro op h
    unfold enable1344
    split
    · exact certified_operation (tame_pushPtrOp _) rfl
    · exact certified_constantinople h
  have h1884 : ∀ {op : OpCode}, lists = false ∨ op.isCall = false →
      (enable1884 (enable1344 newConstantinopleInstructionSet) op).Certified lists op := by
    intro op h
    unfold enable1884
    split
    iterate 3 exact (h1344 h).withConstantGas _ (by decide)
    · exact certified_operation tame_opSelfBalance rfl
    · exact h1344 h
  unfold newIstanbulInstructionSet enable2200
  split
  · exact (h1884 h).withConstantGas _ (by decide)
  · have hgas : gasSStoreEIP2200.Sane (QuietOr lists) false := sane_gasSStoreEIP2200
    exact ⟨.oldSstore rfl rfl fun _ hg ↦ some_inj.1 hg ▸ hgas.toSpec, (h1884 h).safe.reprice _ hgas.sound⟩
  · exact h1884 h

end

theorem certified_berlin : (newBerlinInstructionSet op).Certified true op := by
  have h : ∀ op, (newIstanbulInstructionSet op).MemorySafe op :=
    fun op ↦ (@certified_istanbul false op (.inl rfl)).safe
  have hcheck : ∀ {op : OpCode}, (∀ evm callees scope,
        Simple Calm scope ((newIstanbulInstructionSet op).execute evm callees scope)) →
      (newIstanbulInstructionSet op).memorySize = none →
      ((newIstanbulInstructionSet op).warm gasEip2929AccountCheck).Certified true op := by
    intro op ho hm
    refine ⟨.simple ⟨ho, fun _ hg ↦ ?_⟩, (h op).reprice _ sane_gasEip2929AccountCheck.sound⟩
    rw [← some_inj.1 hg, Operation.warm, hm]
    exact sane_gasEip2929AccountCheck.toSpec
  unfold newBerlinInstructionSet enable2929
  split
  · exact ⟨.sstore rfl rfl rfl _ rfl rfl, (h _).reprice _ (sound_makeGasSStoreFunc _)⟩
  · exact ⟨.sload rfl rfl rfl rfl, (h _).reprice _ sound_gasSLoadEIP2929⟩
  · have hgas : gasExtCodeCopyEIP2929.Sane (CalmOr true) true := sane_gasExtCodeCopyEIP2929
    exact ⟨.simple ⟨tame_opExtCodeCopy.simple, fun _ hg ↦ some_inj.1 hg ▸ hgas.toSpec⟩,
      (h _).reprice _ hgas.sound⟩
  · exact hcheck tame_opExtCodeSize.simple rfl
  · exact hcheck tame_opExtCodeHash.simple rfl
  · exact hcheck tame_opBalance.simple rfl
  · exact ⟨.call rfl rfl, (h _).reprice _ oldCall_gasCall.sound_variant⟩
  · exact ⟨.callCode rfl rfl, (h _).reprice _ oldCall_gasCallCode.sound_variant⟩
  · exact ⟨.staticCall rfl rfl, (h _).reprice _ oldCall_gasStaticCall.sound_variant⟩
  · exact ⟨.delegateCall rfl rfl, (h _).reprice _ oldCall_gasDelegateCall.sound_variant⟩
  · have hgas := sane_makeSelfdestructGasFn true
    exact ⟨.selfdestruct rfl rfl fun _ hg ↦ some_inj.1 hg ▸ hgas.toSpec, (h _).reprice _ hgas.sound⟩
  · refine certified_istanbul (.inr ?_)
    cases op <;> first | rfl | contradiction

theorem certified_london : (newLondonInstructionSet op).Certified true op := by
  unfold newLondonInstructionSet enable3198
  split
  · exact certified_operation (tame_pushPtrOp _) rfl
  · unfold enable3529
    split
    · exact ⟨.sstore rfl rfl rfl _ rfl rfl, certified_berlin.safe.reprice _ (sound_makeGasSStoreFunc _)⟩
    · have hgas := sane_makeSelfdestructGasFn false
      exact ⟨.selfdestruct rfl rfl fun _ hg ↦ some_inj.1 hg ▸ hgas.toSpec,
        certified_berlin.safe.reprice _ hgas.sound⟩
    · exact certified_berlin

theorem certified_merge : (newMergeInstructionSet op).Certified true op := by
  unfold newMergeInstructionSet
  split
  · exact certified_operation (tame_pushPtrOp _) rfl
  · exact certified_london

end Tables

/-- Whether the selected table's prices depend on the access list. -/
def usesAccessList (rules : Rules) : Bool := rules.isMerge || rules.isLondon

theorem selectJumpTable_cases {P : Bool → JumpTable → Prop} (hfrontier : P false newFrontierInstructionSet)
    (hhomestead : P false newHomesteadInstructionSet)
    (htangerine : P false newTangerineWhistleInstructionSet) (hlondon : P true newLondonInstructionSet)
    (hmerge : P true newMergeInstructionSet) (rules : Rules) :
    P (usesAccessList rules) (selectJumpTable rules) := by
  unfold selectJumpTable usesAccessList
  cases rules.isMerge <;> cases rules.isLondon <;> cases rules.isEIP150 <;>
    cases rules.isHomestead <;> assumption

/-- **The classification.** Every entry of the selected table is simple or one of the eleven. -/
theorem entry_selectJumpTable (rules : Rules) (op : OpCode) :
    Entry (usesAccessList rules) op (selectJumpTable rules op) :=
  selectJumpTable_cases (P := fun lists table ↦ Entry lists op (table op))
    (certified_frontier (.inl rfl)).entry (certified_homestead (.inl rfl)).entry
    (certified_tangerineWhistle (.inl rfl)).entry certified_london.entry certified_merge.entry rules

/-! ## All instruction sets -/

inductive InstructionSet : JumpTable → Prop
  | frontier : InstructionSet newFrontierInstructionSet
  | homestead : InstructionSet newHomesteadInstructionSet
  | tangerineWhistle : InstructionSet newTangerineWhistleInstructionSet
  | spuriousDragon : InstructionSet newSpuriousDragonInstructionSet
  | byzantium : InstructionSet newByzantiumInstructionSet
  | constantinople : InstructionSet newConstantinopleInstructionSet
  | istanbul : InstructionSet newIstanbulInstructionSet
  | berlin : InstructionSet newBerlinInstructionSet
  | london : InstructionSet newLondonInstructionSet
  | merge : InstructionSet newMergeInstructionSet

theorem InstructionSet.select (rules : Rules) : InstructionSet (selectJumpTable rules) :=
  selectJumpTable_cases (P := fun _ ↦ InstructionSet) .frontier .homestead .tangerineWhistle .london .merge
    rules

theorem InstructionSet.certified {jt : JumpTable} (h : InstructionSet jt) :
    ∃ lists, ∀ op, (jt op).Certified lists op := by
  cases h with
  | frontier => exact ⟨false, fun _ ↦ certified_frontier (.inl rfl)⟩
  | homestead => exact ⟨false, fun _ ↦ certified_homestead (.inl rfl)⟩
  | tangerineWhistle => exact ⟨false, fun _ ↦ certified_tangerineWhistle (.inl rfl)⟩
  | spuriousDragon => exact ⟨false, fun _ ↦ certified_spuriousDragon (.inl rfl)⟩
  | byzantium => exact ⟨false, fun _ ↦ certified_byzantium (.inl rfl)⟩
  | constantinople => exact ⟨false, fun _ ↦ certified_constantinople (.inl rfl)⟩
  | istanbul => exact ⟨false, fun _ ↦ certified_istanbul (.inl rfl)⟩
  | berlin => exact ⟨true, fun _ ↦ certified_berlin⟩
  | london => exact ⟨true, fun _ ↦ certified_london⟩
  | merge => exact ⟨true, fun _ ↦ certified_merge⟩

/-- The entries of an instruction set, and whether its prices depend on the access list. -/
theorem InstructionSet.entry {jt : JumpTable} (h : InstructionSet jt) :
    ∃ lists, ∀ op, Entry lists op (jt op) :=
  h.certified.imp fun _ hjt op ↦ (hjt op).entry

theorem InstructionSet.memorySafe {jt : JumpTable} (h : InstructionSet jt) (op : OpCode) :
    (jt op).MemorySafe op :=
  let ⟨_, hjt⟩ := h.certified
  (hjt op).safe

/-! ## Entry points -/

/-- What a call does around the code of its frame, where it sends a value that `V` allows. -/
inductive Around (V : Nat → Prop) : (α : Type) → EvmM α → Prop
  | depth : Around V _ (readRegister (·.depth))
  | canTransfer (c : Address) (v : Nat) : Around V _ (lift (canTransfer c v))
  | paid : Around V _ (lift (pure true))
  | transfer (c a : Address) {v : Nat} (hv : V v) : Around V _ (lift (transfer c a v))
  | capture (c a : Address) (v : Nat) : Around V _ (captureFrame .call false c a v)
  | getCode (a : Address) : Around V _ (query (.getCode a))
  | getCodeHash (a : Address) : Around V _ (query (.getCodeHash a))
  | touch (a : Address) : Around V _ (query (.addBalance a 0))
  | enter {typ : OpCode} (htyp : typ.isCall = true) (src dest : Address) (value : ℤ) :
    Around V _ (query (.captureEnter typ src dest value))

/-- A property of calls that return at most the given gas, `J false`, from one of their code parts, `J true`,
which are undone if they fail. -/
structure EntryLogic (J : Bool → Nat → EvmM CallResult → Prop) (V : Nat → Prop) : Prop where
  pure : ∀ {inner gas r}, r.leftOverGas ≤ gas → J inner gas (pure r)
  around : ∀ {inner gas} {α : Type} {x : EvmM α} {f : α → EvmM CallResult}, Around V α x →
    (∀ a, J inner gas (f a)) → J inner gas (x >>= f)
  settled : ∀ {gas x}, J true gas x → J false gas (do
    let id ← query .snapshot
    let r ← x
    settleCall id r)
  /-- A call looks whether the account is there, and creates it unless there is nothing to do. -/
  account : ∀ addr {gas x y} {c : Bool → Prop} [DecidablePred c], J false gas y → J true gas x →
    J false gas (do
      let id ← query .snapshot
      let present ← query (.exist addr)
      if c present then y
      else do
        if !present then
          query (.createAccount addr)
        let r ← x
        settleCall id r)

theorem leftOverGas_runPrecompiledContract (p : PrecompiledContract) (input : Bytes) (gas : Nat) :
    (runPrecompiledContract p input gas).leftOverGas ≤ gas := by
  unfold runPrecompiledContract
  split
  · exact Nat.zero_le _
  · exact Nat.sub_le _ _

namespace EntryLogic

variable {J : Bool → Nat → EvmM CallResult → Prop} {V : Nat → Prop} (L : EntryLogic J V)

include L

theorem checked {gas : Nat} {x : EvmM CallResult} (hx : J false gas x) : J false gas (do
    let depth ← readRegister (·.depth)
    if depth > Params.callCreateDepth then return ⟨[], gas, some .depth⟩
    else x) := by
  refine L.around .depth fun depth ↦ ?_
  split
  · exact L.pure le_rfl
  · exact hx

variable {evm : EVM} {runner : Runner} {gas : Nat} (hrun : ∀ contract input readOnly,
  contract.gas = gas → J true gas (runner contract input readOnly))

include hrun

theorem frameBody (addr : Address) (contract : Contract) (input : Bytes) (readOnly : Bool)
    (hgas : contract.gas = gas) : J true gas (evm.frameBody runner addr contract input readOnly) := by
  unfold EVM.frameBody
  split
  · next p _ => exact L.pure (hgas ▸ leftOverGas_runPrecompiledContract p input contract.gas)
  · exact L.around (.getCodeHash addr) fun _ ↦ L.around (.getCode addr) fun _ ↦ hrun _ _ _ hgas

theorem framed (evm : EVM) (typ : OpCode) (htyp : typ.isCall = true) (src addr : Address) (value : ℤ)
    (contract : Contract) (input : Bytes) (readOnly : Bool) (hgas : contract.gas = gas) :
    J true gas (query (.captureEnter typ src addr value) >>= fun _ ↦
      evm.frameBody runner addr contract input readOnly) :=
  L.around (.enter htyp src addr value) fun _ ↦ L.frameBody hrun addr contract input readOnly hgas

variable (caller addr : Address) (input : Bytes)

theorem callBody (value : Nat) : J true gas (evm.callBody runner caller addr input gas value) := by
  unfold EVM.callBody
  split
  · next p _ => exact L.pure (leftOverGas_runPrecompiledContract p input gas)
  · refine L.around (.getCode addr) fun code ↦ ?_
    split
    · exact L.pure le_rfl
    · exact L.around (.getCodeHash addr) fun _ ↦ hrun _ _ _ rfl

theorem enterCall {value : Nat} (hvalue : V value) :
    J false gas (evm.enterCall runner caller addr input gas value) := by
  have hbody : J true gas (do
      lift (transfer caller addr value)
      captureFrame .call false caller addr value
      evm.callBody runner caller addr input gas value) :=
    L.around (.transfer caller addr hvalue) fun _ ↦ L.around (.capture caller addr value) fun _ ↦
      L.callBody hrun caller addr input value
  have hidle : J false gas (captureFrame .call false caller addr value >>= fun _ ↦
      .pure ⟨[], gas, none⟩) := L.around (.capture caller addr value) fun _ ↦ L.pure le_rfl
  have h := L.account addr (c := fun present ↦ !present ∧ (evm.precompile addr).isNone ∧ value = 0)
    hidle hbody
  simp only [bind_assoc] at h
  exact h

theorem call {value : Nat} (hvalue : V value) :
    J false gas (evm.call runner caller addr input gas value) := by
  have hpay : Around V _ (lift (canPay caller value)) := by
    unfold canPay
    split
    · exact .canTransfer caller value
    · exact .paid
  refine L.checked (L.around hpay fun ok ↦ ?_)
  cases ok with
  | false => exact L.pure le_rfl
  | true => exact L.enterCall hrun caller addr input hvalue

theorem callCode (value : Nat) : J false gas (evm.callCode runner caller addr input gas value) := by
  refine L.checked (L.around (.canTransfer caller value) fun ok ↦ ?_)
  cases ok with
  | false => exact L.pure le_rfl
  | true =>
    have h := L.settled (L.framed hrun evm .callCode rfl caller addr value ⟨caller, caller, [], 0, none, [], gas, value⟩
      input false rfl)
    simpa using h

theorem delegateCall (parent : Contract) : J false gas (evm.delegateCall runner parent addr input gas) := by
  have h := L.settled (L.framed hrun evm .delegateCall rfl parent.self addr 0
    ⟨parent.callerAddress, parent.self, [], 0, none, [], gas, parent.value⟩ input false rfl)
  exact L.checked (by simpa using h)

theorem staticCall : J false gas (evm.staticCall runner caller addr input gas) := by
  have h := L.settled (L.around (.touch addr) fun _ ↦ L.framed hrun evm .staticCall rfl caller addr 0
    ⟨caller, addr, [], 0, none, [], gas, 0⟩ input true rfl)
  exact L.checked (by simpa using h)

end EntryLogic

end GoEntropy.Evm
