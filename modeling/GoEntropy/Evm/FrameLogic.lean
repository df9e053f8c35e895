import GoEntropy.Evm.Entries

/-!
# A logic of frames

The interpreter is one recursion: code runs instructions, some instructions enter frames, frames run
code. What is proved about executions is proved by following it, and this module follows it once.

A *frame logic* (`FrameLogic evm J`) is a family of judgements `J l x` on programs, indexed by the
addresses `l` the program may rely on (the address the frame runs as, and the address a call
instruction is about to enter), such that

- `J l` holds of everything plain, and is closed under sequencing;
- `J l` holds of the few things an instruction does that are not plain;
- if code runs as `J` says, then so do the entry points that run it.

`FrameLogic.interpreter` concludes that all code runs as `J` says.
-/

namespace GoEntropy.Evm

open Interaction Contract

/-! ## Frames keep their address -/

def ExecResult.scope : ExecResult → Scope
  | .next scope => scope
  | .halt scope _ _ => scope

def ExecResult.SameSelf (scope : Scope) (r : ExecResult) : Prop :=
  r.scope.contract.self = scope.contract.self

/-- The error an instruction halts with is not that of a creation that cannot pay for its code. -/
def ExecResult.LeavesCode : ExecResult → Prop
  | .next _ => True
  | .halt _ _ err => err ≠ some .codeStoreOutOfGas

structure ExecResult.Stays (scope : Scope) (r : ExecResult) : Prop where
  sameSelf : r.SameSelf scope
  leavesCode : r.LeavesCode

theorem ExecResult.Stays.halt (scope : Scope) (st : Stack) (res : Bytes) {err : Option VmError}
    (herr : err ≠ some .codeStoreOutOfGas) :
    (ExecResult.halt { scope with stack := st } res err).Stays scope := ⟨rfl, herr⟩

theorem ExecResult.Stays.trans {scope scope' : Scope} {r : ExecResult} (h : r.Stays scope')
    (hself : scope'.contract.self = scope.contract.self) : r.Stays scope :=
  ⟨.trans h.sameSelf hself, h.leavesCode⟩

theorem ExecResult.Keeps.stays {scope : Scope} {r : ExecResult} (h : r.Keeps scope) :
    r.Stays scope := by
  cases r with
  | next scope' => exact ⟨congrArg self h.1, trivial⟩
  | halt scope' res err => exact ⟨congrArg self h.1, h.2.2⟩

theorem Contract.useGas_eq_some {c c' : Contract} {gas : Nat} (h : c.useGas gas = some c') :
    gas ≤ c.gas ∧ c' = { c with gas := c.gas - gas } := by
  unfold useGas at h
  split at h
  · cases h
  · exact ⟨by omega, (Option.some_inj.1 h).symm⟩

section Stays

variable {evm : EVM} {callees : Callees} {scope : Scope}

theorem yields_writeOp {Q : ExecResult → Prop} {f : ExecutionFunc}
    (hhalt : Q (.halt scope [] (some .writeProtection))) (hf : Yields Q (f evm callees scope)) :
    Yields Q (writeOp f evm callees scope) :=
  .andThen fun _ ↦ .ite (fun _ ↦ .pure hhalt) fun _ ↦ hf

variable {Q : ExecResult → Prop} (hkeeps : ∀ r : ExecResult, r.Keeps scope → Q r)
  (hcall : ∀ st retOffset retSize r, Yields Q (finishCall scope st retOffset retSize r))
  (hcreate : ∀ gas st ok r, Yields Q (finishCreate (scope.deductGas gas) st ok r))

include hkeeps in
theorem yields_halt (st : Stack) (res : Bytes) {err : Option VmError}
    (herr : err ≠ some .codeStoreOutOfGas) :
    Q (.halt { scope with stack := st } res err) := hkeeps _ ⟨rfl, .refl _, herr⟩

include hkeeps hcall in
theorem yields_callOp {value : Option Nat} {body : Nat → Callees → Scope → EvmM ExecResult}
    (h : CallBody value body) : Yields Q (callOp body evm callees scope) :=
  .andThen fun gas ↦ h (Yields Q) (fun _ ↦ True) gas callees scope (fun e _ ↦ .crash e)
    (fun _ _ _ hx ↦ .andThen fun _ ↦
      .ite (fun _ ↦ .pure (yields_halt hkeeps _ _ (by simp))) fun _ ↦ hx trivial)
    fun _ _ _ _ _ ↦ .andThen fun r ↦ hcall _ _ _ r

section Creations

include hkeeps hcreate

theorem yields_opCreate : Yields Q (opCreate evm callees scope) := by
  refine yields_writeOp (yields_halt hkeeps _ _ (by simp)) ?_
  split
  · split
    · exact .crash _
    · exact .andThen fun r ↦ hcreate _ _ _ r
  · exact .crash _

theorem yields_opCreate2 : Yields Q (opCreate2 evm callees scope) := by
  refine yields_writeOp (yields_halt hkeeps _ _ (by simp)) ?_
  split
  · split
    · exact .crash _
    · exact .andThen fun r ↦ hcreate _ _ _ r
  · exact .crash _

end Creations

include hkeeps hcall hcreate in
/-- What an instruction leaves: what a simple one keeps, or what the end of a call or creation gives. -/
theorem Entry.yields_execute {lists : Bool} {op : OpCode} {o : Operation} (h : Entry lists op o) :
    Yields Q (o.execute evm callees scope) := by
  cases h with
  | simple h => exact (h.execute evm callees scope).keeps.mono hkeeps
  | sload _ he _ _ => rw [he]; exact (tame_opSload evm callees scope).keeps.mono hkeeps
  | sstore _ _ he _ _ _ | oldSstore _ he _ =>
    rw [he]
    exact (tame_opSstore evm callees scope).keeps.mono hkeeps
  | log size he _ => rw [he]; exact (tame_makeLog 0 size evm callees scope).keeps.mono hkeeps
  | selfdestruct _ he _ =>
    rw [he]
    refine yields_writeOp (yields_halt hkeeps _ _ (by simp)) ?_
    split
    · exact .andThen fun _ ↦ .pure (yields_halt hkeeps _ _ (by simp))
    · exact .crash _
  | call he _ => rw [he]; exact yields_callOp hkeeps hcall callBody_call
  | callCode he _ => rw [he]; exact yields_callOp hkeeps hcall callBody_callCode
  | delegateCall he _ => rw [he]; exact yields_callOp hkeeps hcall callBody_delegateCall
  | staticCall he _ => rw [he]; exact yields_callOp hkeeps hcall callBody_staticCall
  | create _ he _ _ => rw [he]; exact yields_opCreate hkeeps hcreate
  | create2 _ he _ _ => rw [he]; exact yields_opCreate2 hkeeps hcreate

theorem stays_execute {lists : Bool} {op : OpCode} {o : Operation} (h : Entry lists op o) :
    Yields (·.Stays scope) (o.execute evm callees scope) := by
  refine h.yields_execute (fun _ hr ↦ hr.stays) (fun st retOffset retSize r ↦ ?_)
    fun _ _ _ _ ↦ .andThen fun _ ↦ .pure ⟨rfl, trivial⟩
  unfold finishCall
  dsimp only
  split
  · exact .crash _
  · exact .andThen fun _ ↦ .pure ⟨rfl, trivial⟩

theorem yields_executePaid {lists : Bool} {o : Operation} {op : OpCode} (h : Entry lists op o) :
    Yields (·.Stays scope) (o.executePaid evm callees op scope) := by
  have htrace : ∀ scope' : Scope, scope'.contract.self = scope.contract.self →
      Yields (·.Stays scope) (o.traceExecute evm callees op scope') := fun scope' hself ↦
    .andThen fun _ ↦ (stays_execute h).mono fun _ hr ↦ hr.trans hself
  unfold Operation.executePaid
  split
  · unfold Operation.executeDynamic
    split
    · exact .pure (.halt _ _ _ (by simp))
    · refine .andThen fun cost ↦ ?_
      unfold Operation.payDynamic
      split
      · exact .pure (.halt _ _ _ (by simp))
      · split
        · exact .pure (.halt _ _ _ (by simp))
        · next hgas => exact htrace _ (by rw [(useGas_eq_some hgas).2])
  · exact htrace scope rfl

theorem yields_step {lists : Bool} {jt : JumpTable} (hjt : ∀ op, Entry lists op (jt op)) (evm : EVM)
    (callees : Callees) (scope : Scope) : Yields (·.Stays scope) (step evm jt callees scope) := by
  refine .ite (fun _ ↦ .pure (.halt _ _ _ (by simp))) fun _ ↦
    .ite (fun _ ↦ .pure (.halt _ _ _ (by simp))) fun _ ↦ ?_
  split
  · exact .pure (.halt _ _ _ (by simp))
  · next contract hgas =>
    refine (yields_executePaid (hjt _)).mono fun r hr ↦ hr.trans ?_
    rw [(useGas_eq_some hgas).2]

end Stays

/-! ## The logic -/

/-- A judgement on programs that may rely on a list of addresses. -/
abbrev Judgement := List Address → (α : Type) → EvmM α → Prop

/-- Code runs as the judgement says, relying on the address it runs as. -/
def Judgement.OfRunner (J : Judgement) (runner : Runner) : Prop :=
  ∀ contract input readOnly, J [contract.self] CallResult (runner contract input readOnly)

/-- A judgement that follows the interpreter's recursion. -/
structure FrameLogic (evm : EVM) (J : Judgement) : Prop where
  closed : ∀ l, Closed (QuietOr (usesAccessList evm.chainRules)) (J l)
  bind : ∀ {l} {α β : Type} {Q : α → Prop} {x : EvmM α} {f : α → EvmM β}, J l α x → Yields Q x →
    (∀ a, Q a → J l β (f a)) → J l β (x >>= f)
  mono : ∀ {l l'} {α : Type} {x : EvmM α}, (∀ a ∈ l, a ∈ l') → J l α x → J l' α x
  captureState : ∀ {l self} (op : OpCode), self ∈ l → J l Unit (query (.captureState op self))
  /-- After its price has been computed, the account is in the access list. -/
  accessAddress : ∀ {l} {β : Type} {f : Bool → EvmM β} (addr : Address),
    usesAccessList evm.chainRules = true → (∀ b, J (addr :: l) β (f b)) →
      J l β (accessAddress addr >>= f)
  slotInAccessList : ∀ {l self} (slot : Hash), usesAccessList evm.chainRules = true → self ∈ l →
    J l (Bool × Bool) (query (.slotInAccessList self slot))
  sstoreSlotCost : ∀ {l self} (slot : Hash), usesAccessList evm.chainRules = true → self ∈ l →
    J l Nat (sstoreSlotCost self slot)
  /-- A call instruction finds the gas that its gas function has stored. -/
  storedGas : ∀ {l self} {β : Type} {f : Nat → EvmM β} (op : OpCode) (gas : Nat), self ∈ l →
    J l β (f gas) → J l β (setCallGasTemp gas >>= fun _ ↦ query (.captureState op self) >>= fun _ ↦
      readRegister (·.callGasTemp) >>= f)
  destruct : ∀ {l} (self beneficiary : Address), J l Unit (destruct self beneficiary)
  frame : ∀ {l} {x : EvmM CallResult} (readOnly : Bool), J l CallResult x →
    J l CallResult (do
      let entered ← enterFrame readOnly
      let r ← x
      leaveFrame entered
      return r)
  call : ∀ {l runner addr} (self : Address) (input : Bytes) (gas value : Nat), J.OfRunner runner →
    (usesAccessList evm.chainRules = true → addr ∈ l) →
      J l CallResult (evm.call runner self addr input gas value)
  callCode : ∀ {l runner self} (addr : Address) (input : Bytes) (gas value : Nat),
    J.OfRunner runner → self ∈ l → J l CallResult (evm.callCode runner self addr input gas value)
  delegateCall : ∀ {l runner parent} (addr : Address) (input : Bytes) (gas : Nat),
    J.OfRunner runner → parent.self ∈ l →
      J l CallResult (evm.delegateCall runner parent addr input gas)
  staticCall : ∀ {l runner addr} (self : Address) (input : Bytes) (gas : Nat), J.OfRunner runner →
    (usesAccessList evm.chainRules = true → addr ∈ l) →
      J l CallResult (evm.staticCall runner self addr input gas)
  create : ∀ {l runner self} (code : Bytes) (gas value : Nat), J.OfRunner runner → self ∈ l →
    J l CreateResult (evm.create runner self code gas value)
  create2 : ∀ {l runner self} (code : Bytes) (gas value : Nat) (salt : Word), J.OfRunner runner →
    self ∈ l → J l CreateResult (evm.create2 runner self code gas value salt)

namespace FrameLogic

variable {evm : EVM} {J : Judgement} (L : FrameLogic evm J) {l : List Address}

include L

variable {α : Type}

theorem plain {x : EvmM α} (hx : Plain (QuietOr (usesAccessList evm.chainRules)) x) :
    J l α x := hx (J l) (L.closed l)

theorem quiet {x : EvmM α} (hx : Plain Quiet x) : J l α x := L.plain (hx.mono fun _ ↦ .inl)

theorem calm {x : EvmM α} (hx : Plain Calm x) : J l α x :=
  L.quiet (hx.mono fun _ ↦ Calm.quiet)

theorem pure (a : α) : J l α (pure a) := (L.closed l).pure a

/-! ### Storing the gas of a call -/

section CallGas

variable {β : Type} {f : Option (Nat × Memory) → EvmM β}

theorem chargeCallGas (contract : Contract) (stack : Stack) (mem : Memory) (gas : Nat)
    (hnone : J l β (f none))
    (hsome : ∀ p gas, J l β (setCallGasTemp gas >>= fun _ ↦ f (some p))) :
    J l β (chargeCallGas evm contract stack mem gas >>= f) := by
  unfold Evm.chargeCallGas
  rw [bind_assoc]
  cases (callGas evm.chainRules.isEIP150 contract.gas gas (stack.back 0) >>= fun temp ↦
      safeAdd gas temp >>= fun gas ↦ some (gas, mem)) with
  | none => exact (L.closed l).bind ((L.closed l).setCallGasTemp _) fun _ ↦ hnone
  | some p => exact hsome p _

omit L in
/-- The gas functions of calls before EIP-2929: after something plain they fail, or charge. -/
def OldCallGas (old : GasFunc) : Prop :=
  ∀ {evm : EVM} {J : Judgement} (_ : FrameLogic evm J) {l : List Address} {β : Type}
    {f : Option (Nat × Memory) → EvmM β} (contract : Contract) (stack : Stack) (mem : Memory)
    (size : Nat), J l β (f none) →
      (∀ p gas, J l β (setCallGasTemp gas >>= fun _ ↦ f (some p))) →
      J l β (old evm contract stack mem size >>= f)

omit L in
theorem oldCallGas_of_oldCall {value : Option Nat} {old : GasFunc} (h : OldCall value old) : OldCallGas old := by
  intro evm J L l β f contract stack mem size hnone hsome
  refine h (fun x ↦ J l β (x >>= f)) evm contract stack mem size (fun addr g hg ↦ ?_) ?_
    fun extra fee mem' _ _ _ ↦ L.chargeCallGas contract stack mem' _ hnone hsome
  · rw [bind_assoc]
    exact (L.closed l).bind ((L.closed l).query _ (.inl rfl)) hg
  · simpa using hnone

/-- The gas function of a call, old or wrapped. Where it is wrapped, the callee is in the access list
afterwards. -/
theorem callGasFunc {old : GasFunc} (hold : OldCallGas old) (contract : Contract) (stack : Stack)
    (mem : Memory) (size : Nat) (hnone : ∀ l, J l β (f none))
    (hsome : ∀ l', (∀ a ∈ l, a ∈ l') →
      (usesAccessList evm.chainRules = true → hashToAddress (stack.back 1) ∈ l') →
      ∀ p gas, J l' β (setCallGasTemp gas >>= fun _ ↦ f (some p))) :
    J l β (callGasFunc (usesAccessList evm.chainRules) old evm contract stack mem size >>= f) := by
  unfold Evm.callGasFunc
  split
  · next hlists =>
    have hsome' := hsome (hashToAddress (stack.back 1) :: l) (fun _ ↦ .tail _)
      fun _ ↦ .head _
    unfold makeCallVariantGasCallEIP2929
    rw [bind_assoc]
    refine L.accessAddress _ hlists fun warm ↦ ?_
    cases warm with
    | true => exact hold L contract stack mem size (hnone _) hsome'
    | false =>
      simp only [Bool.false_eq_true, if_false]
      split
      · simpa using hnone _
      · next reduced _ =>
        rw [bind_assoc]
        refine hold L reduced stack mem size ?_ fun p gas ↦ ?_
        · simpa using hnone _
        · simpa using hsome' _ gas
  · next hlists => exact hold L contract stack mem size (hnone l) (hsome l (fun _ ha ↦ ha)
      fun h ↦ absurd h hlists)

end CallGas

/-! ### Executing an instruction -/

section Execute

variable {runner : Runner} {scope : Scope}

omit L in
theorem plain_finishCall (scope : Scope) (st : Stack) (retOffset retSize : Word) (r : CallResult) :
    Plain Quiet (finishCall scope st retOffset retSize r) := by
  unfold finishCall
  dsimp only
  split
  · exact .crash (by simp)
  · exact .bind (.setReturnData _) fun _ ↦ .pure _

theorem callBody (hrun : J.OfRunner runner) {value : Option Nat}
    {body : Nat → Callees → Scope → EvmM ExecResult} (h : CallBody value body)
    (hself : scope.contract.self ∈ l)
    (haddr : usesAccessList evm.chainRules = true → hashToAddress (scope.stack.back 1) ∈ l)
    (gas : Nat) : J l ExecResult (body gas (evm.callees runner) scope) := by
  refine h _ (fun _ ↦ True) gas _ scope (fun _ he ↦ L.calm (.crash he)) (fun _ _ _ hx ↦ ?_)
    fun _ _ _ x hx ↦ (L.closed l).bind ?_ fun r ↦ L.quiet (plain_finishCall _ _ _ _ r)
  · refine (L.closed l).bind (L.closed l).readOnly fun _ ↦ ?_
    split
    · exact L.pure _
    · exact hx trivial
  · cases hx with
    | call _ ha _ _ => exact L.call _ _ _ _ hrun (ha ▸ haddr)
    | callCode _ _ _ _ => exact L.callCode _ _ _ _ hrun hself
    | delegateCall _ _ _ => exact L.delegateCall _ _ _ hrun hself
    | staticCall _ ha _ => exact L.staticCall _ _ _ hrun (ha ▸ haddr)

theorem writeOp {f : ExecutionFunc} {callees : Callees}
    (hf : J l ExecResult (f evm callees scope)) : J l ExecResult (writeOp f evm callees scope) := by
  refine (L.closed l).bind (L.closed l).readOnly fun _ ↦ ?_
  split
  · exact L.pure _
  · exact hf

theorem opCreate (hrun : J.OfRunner runner) (hself : scope.contract.self ∈ l) :
    J l ExecResult (opCreate evm (evm.callees runner) scope) := by
  refine L.writeOp ?_
  split
  · split
    · exact L.quiet (.crash (by simp))
    · exact (L.closed l).bind (L.create _ _ _ hrun hself) fun r ↦
        L.quiet (.bind (.setReturnData _) fun _ ↦ .pure _)
  · exact L.quiet (.crash (by simp))

theorem opCreate2 (hrun : J.OfRunner runner) (hself : scope.contract.self ∈ l) :
    J l ExecResult (opCreate2 evm (evm.callees runner) scope) := by
  refine L.writeOp ?_
  split
  · split
    · exact L.quiet (.crash (by simp))
    · exact (L.closed l).bind (L.create2 _ _ _ _ hrun hself) fun r ↦
        L.quiet (.bind (.setReturnData _) fun _ ↦ .pure _)
  · exact L.quiet (.crash (by simp))

theorem opSelfdestruct {callees : Callees} :
    J l ExecResult (opSelfdestruct evm callees scope) := by
  refine L.writeOp ?_
  split
  · exact (L.closed l).bind (L.destruct _ _) fun _ ↦ L.pure _
  · exact L.quiet (.crash (by simp))

end Execute

/-! ### One step -/

section Step

variable {runner : Runner} {scope : Scope} {o : Operation} {op : OpCode} {callees : Callees}

/-- Paying for and executing an instruction that may be executed in every frame like this one. -/
theorem payDynamic (hself : scope.contract.self ∈ l)
    (hexec : ∀ scope' : Scope, scope'.contract.self = scope.contract.self →
      J l ExecResult (o.execute evm callees scope')) (size : Nat) (cost : Option (Nat × Memory)) :
    J l ExecResult (o.payDynamic evm callees op scope size cost) := by
  unfold Operation.payDynamic
  split
  · exact L.pure _
  · split
    · exact L.pure _
    · next hgas =>
      obtain ⟨_, rfl⟩ := useGas_eq_some hgas
      exact (L.closed l).bind (L.captureState op hself) fun _ ↦ hexec _ rfl

/-- Entries whose price is plain, whatever they execute. -/
theorem executePaid (hself : scope.contract.self ∈ l)
    (hgas : o.GasSpec (QuietOr (usesAccessList evm.chainRules)))
    (hexec : ∀ scope' : Scope, scope'.contract.self = scope.contract.self →
      J l ExecResult (o.execute evm callees scope')) :
    J l ExecResult (o.executePaid evm callees op scope) := by
  unfold Operation.executePaid
  split
  · next g hg =>
    unfold Operation.executeDynamic
    split
    · exact L.pure _
    · exact (L.closed l).bind (L.plain ((hgas g hg).plain _ _ _ _ _)) fun cost ↦
        L.payDynamic hself hexec _ cost
  · exact (L.closed l).bind (L.captureState op hself) fun _ ↦ hexec scope rfl

theorem executePaid_sload (hlists : usesAccessList evm.chainRules = true)
    (hself : scope.contract.self ∈ l) (hexec : o.execute = opSload)
    (hgas : o.dynamicGas = some gasSLoadEIP2929) :
    J l ExecResult (o.executePaid evm callees op scope) := by
  simp only [Operation.executePaid, hgas, Operation.executeDynamic]
  split
  · exact L.pure _
  · refine (L.closed l).bind ?_ fun cost ↦ L.payDynamic hself (fun scope' _ ↦ ?_) _ cost
    · refine (L.closed l).bind (L.slotInAccessList _ hlists hself) fun present ↦ L.plain ?_
      exact .ite (fun _ ↦ .pure _) fun _ ↦ .bind (.query (.inr ⟨hlists, rfl⟩)) fun _ ↦ .pure _
    · rw [hexec]
      exact L.calm (tame_opSload evm callees scope').plain

theorem executePaid_sstore (hlists : usesAccessList evm.chainRules = true)
    (hself : scope.contract.self ∈ l) (hexec : o.execute = opSstore) {clearingRefund : Nat}
    (hgas : o.dynamicGas = some (makeGasSStoreFunc clearingRefund)) :
    J l ExecResult (o.executePaid evm callees op scope) := by
  simp only [Operation.executePaid, hgas, Operation.executeDynamic]
  split
  · exact L.pure _
  · refine (L.closed l).bind ?_ fun cost ↦ L.payDynamic hself (fun scope' _ ↦ ?_) _ cost
    · unfold makeGasSStoreFunc
      split
      · exact L.pure _
      · exact (L.closed l).bind ((L.closed l).query _ (.inl rfl)) fun _ ↦
          (L.closed l).bind (L.sstoreSlotCost _ hlists hself) fun _ ↦
            L.quiet (.bind ((tidy_netSstore ..).plain.mono fun _ ↦ Metered.quiet) fun _ ↦ .pure _)
    · rw [hexec]
      exact L.quiet (tame_opSstore evm callees scope').plain

/-- The call instructions: the gas function stores the gas that the instruction then reads. -/
theorem executePaid_call (hrun : J.OfRunner runner) (hself : scope.contract.self ∈ l)
    {value : Option Nat} {old : GasFunc} (hold : OldCall value old)
    {body : Nat → Callees → Scope → EvmM ExecResult} (hbody : CallBody value body)
    (hexec : o.execute = callOp body)
    (hgas : o.dynamicGas = some (Evm.callGasFunc (usesAccessList evm.chainRules) old)) :
    J l ExecResult (o.executePaid evm (evm.callees runner) op scope) := by
  simp only [Operation.executePaid, hgas, Operation.executeDynamic]
  split
  · exact L.pure _
  · next size _ =>
    refine L.callGasFunc (oldCallGas_of_oldCall hold) _ _ _ _ (fun _ ↦ L.pure _) fun l' hl haddr p gas ↦ ?_
    unfold Operation.payDynamic
    dsimp only
    split
    · exact (L.closed l').bind ((L.closed l').setCallGasTemp gas) fun _ ↦ L.pure _
    · next contract hpaid =>
      obtain ⟨_, rfl⟩ := useGas_eq_some hpaid
      simp only [Operation.traceExecute, hexec]
      refine L.storedGas op gas (hl _ hself) (L.callBody hrun hbody ?_ ?_ gas)
      · exact hl _ hself
      · exact haddr

/-- **One step.** -/
theorem step (hrun : J.OfRunner runner) (hself : scope.contract.self ∈ l) :
    J l ExecResult (step evm (selectJumpTable evm.chainRules) (evm.callees runner) scope) := by
  unfold Evm.step
  dsimp only
  split
  · exact L.pure _
  split
  · exact L.pure _
  split
  · exact L.pure _
  · next contract hpaid =>
    obtain ⟨_, rfl⟩ := useGas_eq_some hpaid
    have hcalm : ∀ o, CalmOr (usesAccessList evm.chainRules) o →
        QuietOr (usesAccessList evm.chainRules) o := fun _ ↦ CalmOr.quietOr
    cases entry_selectJumpTable evm.chainRules (scope.contract.getOp scope.pc) with
    | simple h =>
      exact L.executePaid hself (h.gas.mono hcalm) fun scope' _ ↦
        L.calm (h.execute evm (evm.callees runner) scope').plain
    | sload hlists he hg _ => exact L.executePaid_sload hlists hself he hg
    | sstore _ hlists he _ hg _ => exact L.executePaid_sstore hlists hself he hg
    | oldSstore _ he hg =>
      refine L.executePaid hself hg fun scope' _ ↦ ?_
      rw [he]
      exact L.quiet (tame_opSstore evm (evm.callees runner) scope').plain
    | log size he hg =>
      refine L.executePaid hself (hg.mono hcalm) fun scope' _ ↦ ?_
      rw [he]
      exact L.quiet (tame_makeLog 0 size evm (evm.callees runner) scope').plain
    | selfdestruct _ he hg =>
      refine L.executePaid hself (hg.mono fun _ ↦ RefundOr.quietOr) fun _ _ ↦ ?_
      rw [he]
      exact L.opSelfdestruct
    | call he hg => exact L.executePaid_call hrun hself oldCall_gasCall callBody_call he hg
    | callCode he hg => exact L.executePaid_call hrun hself oldCall_gasCallCode callBody_callCode he hg
    | delegateCall he hg =>
      exact L.executePaid_call hrun hself oldCall_gasDelegateCall callBody_delegateCall he hg
    | staticCall he hg =>
      exact L.executePaid_call hrun hself oldCall_gasStaticCall callBody_staticCall he hg
    | create _ he hg _ =>
      refine L.executePaid hself (hg.mono hcalm) fun _ hs ↦ ?_
      rw [he]
      exact L.opCreate hrun (hs ▸ hself)
    | create2 _ he hg _ =>
      refine L.executePaid hself (hg.mono hcalm) fun _ hs ↦ ?_
      rw [he]
      exact L.opCreate2 hrun (hs ▸ hself)

end Step

/-! ### Whole runs -/

/-- The loop, by induction on the number of steps; the frame's address stays. -/
theorem runLoop {runner : Runner} (hrun : J.OfRunner runner) (fuel : Nat) {scope : Scope}
    (hself : scope.contract.self ∈ l) :
    J l CallResult (runLoop evm (selectJumpTable evm.chainRules) (evm.callees runner) fuel
      scope) := by
  induction fuel generalizing scope with
  | zero => exact L.quiet (.crash (by simp))
  | succ fuel ih =>
    refine L.bind (L.step hrun hself) (yields_step (entry_selectJumpTable evm.chainRules) evm
      (evm.callees runner) scope) fun r hr ↦ ?_
    cases r with
    | next scope' => exact ih (Eq.symm hr.sameSelf ▸ hself)
    | halt scope' res err => exact L.pure _

theorem frameCode {runner : Runner} (hrun : J.OfRunner runner) (contract : Contract)
    (input : Bytes) :
    J [contract.self] CallResult
      (evm.frameCode (selectJumpTable evm.chainRules) (evm.callees runner) contract input) := by
  unfold EVM.frameCode
  split
  · exact L.pure _
  · exact L.runLoop hrun _ (.head _)

/-- **Nested runs.** By induction on how deep frames may nest. -/
theorem runner (depth : Nat) : J.OfRunner (evm.runner depth) := by
  induction depth with
  | zero => exact fun _ _ _ ↦ L.quiet (.crash (by simp))
  | succ depth ih =>
    exact fun contract input readOnly ↦ L.frame readOnly (L.frameCode ih contract input)

/-- **All code runs as the judgement says.** -/
theorem interpreter : J.OfRunner evm.interpreter := L.runner maxNesting

end FrameLogic

end GoEntropy.Evm
