import GoEntropy.Evm.StorageWrites
import GoEntropy.State.Storage
import GoEntropy.State.WorldLogic
import GoEntropy.Execution.FailedFrames

/-!
# Writing storage on a stipend

A call that sends value hands its callee at least 2300 gas. The price of a write that changes a clean
slot is more than that under every instruction set. Since EIP-2929 the gas function of `SSTORE` refuses
to run on so little gas in the first place; the instruction sets before it have no such minimum, and
price a slot that the transaction has changed already at 200.

So whether a frame with at most 2300 gas can change storage depends on the state it starts in: under
the old instruction sets it can as soon as one slot is dirty, unless the refund to be taken back for
it is not there, which is a panic.
-/

namespace GoEntropy.Execution

open Evm Interaction State Params

/-! ## Frames with little gas -/

section Timelines

variable {C : Crypto} {evm : EVM}

/-- In frames with at most the gas of a stipend, storage stays what it is, provided that a write costs
more than that or no slot is dirty. -/
def stipendSetting (C : Crypto) (evm : EVM) : WorldSetting where
  crypto := C
  assume _ _ := True
  guarantee _ _ := True
  fault e := e ≠ .refundCounterBelowZero
  readOnly := false
  limit := some (Params.callStipend + 1)
  moves := World.SameStorage C
  inv w := usesAccessList evm.chainRules = true ∨ w.NoDirtySlot C

theorem stipend_step {w w' : World} (hw : (stipendSetting C evm).inv w)
    (h : w.SameStorage C w') : (stipendSetting C evm).Step w w' :=
  ⟨h, hw.imp_right fun hclean ↦ hclean.of_sameStorage h⟩

theorem stipendRules (C : Crypto) (evm : EVM) : WorldRules (stipendSetting C evm) where
  refl := .refl
  trans := .trans
  fault e he := by
    rintro rfl
    cases he
  guarantee _ _ _ := trivial
  lists _ _ _ hw := stipend_step hw (World.sameStorage_of_accounts rfl)

/-- The price of overwriting a slot that is not dirty with another value is more than a stipend. -/
theorem stipend_netSstore (self : Address) (slot value : Hash) (m : Machine) (t : Timeline)
    (hclean : t.now.NoDirtySlot C) :
    (stipendSetting C evm).toCode.wp
      (netSstore netPrices self slot value ((t.now.getOrNew C self).storage slot) m) t fun p u ↦
        (stipendSetting C evm).toCode.moves t u ∧
          ((t.now.getOrNew C self).storage slot = value ∨ callStipend < p.1) := by
  have hrefl : (stipendSetting C evm).toCode.moves t t := ⟨.refl t, .refl _⟩
  have hinit : callStipend < netPrices.init := by decide
  have hreset : callStipend < netPrices.clean := by decide
  have hinv : (stipendSetting C evm).toCode.inv t := .inr hclean
  unfold netSstore
  split
  · next heq => exact ⟨hrefl, .inl heq⟩
  refine wp_query_of_ok rfl trivial ?_
  rw [t.now.read_committed C, ← hclean self, if_pos rfl]
  split
  · exact ⟨hrefl, .inr hinit⟩
  split
  · refine wp_query_bind ((stipendRules C evm).passes_modify hinv rfl fun _ ↦
      stipend_step hinv (World.sameStorage_of_accounts rfl)) fun _ v ⟨htv, _⟩ ↦ ?_
    exact ⟨htv, .inr hreset⟩
  · exact ⟨hrefl, .inr hreset⟩

variable (callees : Callees)

theorem stipend_opSstore {scope : Scope} (m : Machine) (t : Timeline)
    (ht : (stipendSetting C evm).toCode.inv t)
    (hsame : (t.now.getOrNew C scope.contract.self).storage (scope.stack.back 0) =
      scope.stack.back 1) :
    (stipendSetting C evm).toCode.wp (opSstore evm callees scope m) t fun _ u ↦
      (stipendSetting C evm).toCode.moves t u ∧ (stipendSetting C evm).toCode.inv u := by
  have R := stipendRules C evm
  refine wp_opSstore evm callees (fun _ ↦ R.fault .indexOutOfRange rfl) (fun _ ↦ ⟨⟨.refl t, .refl _⟩, ht⟩)
    fun _ ↦ ?_
  exact R.passes_modify ht rfl fun _ ↦ stipend_step ht <|
    World.sameStorage_put (by rw [← hsame]; exact Function.update_eq_self _ _) rfl

variable (scope : Scope)

/-- Without a dirty slot, the old `SSTORE` changes nothing in a frame with little gas. -/
theorem stipend_oldSstore (hgas : scope.contract.gas ≤ callStipend) (m : Machine) (t : Timeline)
    (hclean : t.now.NoDirtySlot C) :
    (stipendSetting C evm).toCode.wp
      ((sstoreEntry false false fun _ ↦ netPrices).executePaid evm callees .sstore scope m) t
      fun _ u ↦ (stipendSetting C evm).toCode.moves t u ∧
        (stipendSetting C evm).toCode.inv u := by
  have R := stipendRules C evm
  have hprice : (stipendSetting C evm).toCode.wp (sstoreGas false false (fun _ ↦ netPrices) evm
      scope.contract scope.stack scope.memory 0 m) t fun p u ↦
        (stipendSetting C evm).toCode.moves t u ∧ ∀ q ∈ p.1,
          (t.now.getOrNew C scope.contract.self).storage (scope.stack.back 0) =
            scope.stack.back 1 ∨ callStipend < q.1 := by
    refine wp_query_of_ok rfl trivial ?_
    rw [t.now.read_storage C, slotCost_false, pure_bind]
    refine Prog.wp.bind (stipend_netSstore scope.contract.self (scope.stack.back 0)
      (scope.stack.back 1) m t hclean) fun p u ⟨htu, hgas⟩ ↦ ⟨htu, ?_⟩
    rintro _ ⟨⟩
    exact hgas
  refine Prog.wp.bind hprice fun ⟨cost, m⟩ u ⟨htu, hcost⟩ ↦ ?_
  have hu : (stipendSetting C evm).toCode.inv u := .inr (hclean.of_sameStorage htu.2)
  refine wp_payDynamic (fun _ ↦ ⟨htu, hu⟩) fun q hq hle ↦ ?_
  have hsame := (hcost q hq).resolve_right (not_lt.2 (hle.trans hgas))
  refine wp_query_bind (R.harmless (.captureState .sstore scope.contract.self) u rfl hu)
    fun _ v ⟨huv, hv⟩ ↦ ?_
  have htv := R.moves_trans htu huv
  refine (stipend_opSstore callees m v hv ?_).mono fun _ x ⟨hvx, hx⟩ ↦ ⟨R.moves_trans htv hvx, hx⟩
  exact (congrFun (htv.2.storage _) _).trans hsame

theorem stipend_sstore (hgas : (stipendSetting C evm).toCode.Within scope.contract.gas) :
    (stipendSetting C evm).toCode.Settles ExecResult.Good
      ((selectJumpTable evm.chainRules .sstore).executePaid evm callees .sstore scope) := by
  have hgas : scope.contract.gas ≤ callStipend := Nat.lt_succ_iff.1 (hgas _ rfl)
  rw [selectJumpTable_sstore]
  split
  · -- the gas function with a minimum refuses to run
    show CodeSetting.Settles _ _ (sstoreGas true _ _ evm scope.contract _ _ 0 >>= _)
    rw [sstoreGas, if_pos ⟨rfl, hgas⟩]
    exact (stipendRules C evm).codeRules.pure _
  · next hlists =>
    intro m t _ ht
    refine (stipend_oldSstore callees scope hgas m t (ht.resolve_left hlists)).mono
      fun _ _ h ↦ ⟨by rintro ⟨⟩, h.1, fun _ ↦ h.2⟩

/-- **A frame with little gas keeps storage**, if a write has a minimum or no slot is dirty. -/
theorem stipendLogic (C : Crypto) (evm : EVM) :
    WorldLogic evm (selectJumpTable evm.chainRules) (stipendSetting C evm) where
  toWorldRules := stipendRules C evm
  entries := ⟨_, entry_selectJumpTable evm.chainRules⟩
  limit_le k hk := by
    cases hk
    decide
  selected _ := rfl
  undo _ _ _ _ _ := trivial
  addRefund _ _ _ hw := stipend_step hw (World.sameStorage_of_accounts rfl)
  sstore := stipend_sstore
  touch a w hw := stipend_step hw (w.sameStorage_addBalance a 0)
  account _ _ habsent hw := stipend_step hw (World.sameStorage_createAccount habsent)
  addBalance _ a x w hw := stipend_step hw (w.sameStorage_addBalance a x)
  suicide _ a w hw := stipend_step hw (w.sameStorage_suicide a)
  addLog _ _ _ hw := stipend_step hw (World.sameStorage_of_accounts rfl)
  setNonce := nofun
  setCode := nofun
  createAccount := nofun

/-! ## A frame that writes -/

/-- A step whose instruction has its operands and whose constant price is paid. -/
theorem step_eq {jt : JumpTable} {callees : Callees} {o : Operation}
    (ho : jt (scope.contract.getOp scope.pc) = o) (hmin : o.minStack ≤ scope.stack.length)
    (hmax : scope.stack.length ≤ o.maxStack) (hgas : o.constantGas ≤ scope.contract.gas) :
    step evm jt callees scope = o.executePaid evm callees (scope.contract.getOp scope.pc)
      { scope with contract :=
        { scope.contract with gas := scope.contract.gas - o.constantGas } } := by
  unfold step
  dsimp only
  rw [ho, if_neg (not_lt.2 hmin), if_neg (not_lt.2 hmax), Contract.useGas, if_neg (not_lt.2 hgas)]

/-- The weakest precondition that allows for a refund that is not there. -/
abbrev unrefundedWp {α : Type} (C : Crypto) (x : Evm.StateM α) (t : Timeline)
    (Q : α → Timeline → Prop) : Prop :=
  x.wp (Timeline.handler C) (fun _ _ ↦ True) (fun _ _ ↦ True) (· = .refundCounterBelowZero) t Q

theorem unrefunded_addRefund (gas : Nat) (t : Timeline) :
    unrefundedWp C (ask (.addRefund gas)) t fun _ u ↦ u.now.accounts = t.now.accounts :=
  Prog.wp_perform.2 fun _ ↦ ⟨trivial, rfl⟩

theorem unrefunded_subRefund (gas : Nat) (t : Timeline) :
    unrefundedWp C (ask (.subRefund gas)) t fun _ u ↦ u.now.accounts = t.now.accounts := by
  refine Prog.wp_perform.2 fun _ ↦ ⟨trivial, ?_⟩
  by_cases hgas : gas > t.now.refund
  · simp [Timeline.handler, hgas]
  · simp [Timeline.handler, hgas, Timeline.modify]

theorem unrefunded_changeClearRefund (original current value : Hash) (m : Machine) (t : Timeline) :
    unrefundedWp C (changeClearRefund netPrices original current value m) t fun p u ↦
      p.2 = m ∧ u.now.accounts = t.now.accounts := by
  unfold changeClearRefund
  split
  · exact ⟨rfl, rfl⟩
  split
  · exact Prog.wp_map.2 ((unrefunded_subRefund _ t).mono fun _ _ h ↦ ⟨rfl, h⟩)
  split
  · exact Prog.wp_map.2 ((unrefunded_addRefund _ t).mono fun _ _ h ↦ ⟨rfl, h⟩)
  · exact ⟨rfl, rfl⟩

theorem unrefunded_grantResetRefund (original value : Hash) (m : Machine) (t : Timeline) :
    unrefundedWp C (grantResetRefund netPrices original value m) t fun p u ↦
      p.2 = m ∧ u.now.accounts = t.now.accounts := by
  unfold grantResetRefund
  split
  · split
    iterate 2 exact Prog.wp_map.2 ((unrefunded_addRefund _ t).mono fun _ _ h ↦ ⟨rfl, h⟩)
  · exact ⟨rfl, rfl⟩

variable {t : Timeline} {slot : Hash}

/-- Resetting a dirty slot costs 200, if the refund to be taken back for it is there. -/
theorem unrefunded_netSstore {self : Address}
    (hdirty : (t.now.getOrNew C self).storage slot ≠ (t.now.getOrNew C self).committed slot)
    (m : Machine) :
    unrefundedWp C (netSstore netPrices self slot ((t.now.getOrNew C self).committed slot)
        ((t.now.getOrNew C self).storage slot) m) t fun p u ↦
      p = (netPrices.dirty, m) ∧ u.now.accounts = t.now.accounts := by
  rw [netSstore_eq, if_neg hdirty]
  refine wp_query_of_ok rfl trivial ?_
  rw [t.now.read_committed C, if_neg (Ne.symm hdirty)]
  refine Prog.wp.bind (unrefunded_changeClearRefund _ _ _ m t) fun p u ⟨hp, hu⟩ ↦ ?_
  refine Prog.wp.bind (unrefunded_grantResetRefund _ _ p.2 u) fun q v ⟨hq, hv⟩ ↦ ?_
  exact ⟨by rw [hq, hp], hv.trans hu⟩

variable {value : Hash} {m : Machine}

theorem unrefunded_sstore {scope : Scope} {st : Stack} (hro : m.readOnly = false)
    (hstack : scope.stack = slot :: (t.now.getOrNew C scope.contract.self).committed slot :: st)
    (hgas : netPrices.dirty ≤ scope.contract.gas)
    (hdirty : (t.now.getOrNew C scope.contract.self).storage slot ≠
      (t.now.getOrNew C scope.contract.self).committed slot) :
    unrefundedWp C ((sstoreEntry false false fun _ ↦ netPrices).executePaid evm callees .sstore
        scope m) t fun p u ↦
      p = (.next { scope with stack := st, contract :=
        { scope.contract with gas := scope.contract.gas - netPrices.dirty } }, m) ∧
      (u.now.getOrNew C scope.contract.self).storage slot ≠
        (t.now.getOrNew C scope.contract.self).storage slot := by
  have hback0 : scope.stack.back 0 = slot := by rw [hstack]; rfl
  have hback1 : scope.stack.back 1 =
      (t.now.getOrNew C scope.contract.self).committed slot := by rw [hstack]; rfl
  have hprice : unrefundedWp C (sstoreGas false false (fun _ ↦ netPrices) evm scope.contract
      scope.stack scope.memory 0 m) t fun p u ↦
        p = (some (netPrices.dirty, scope.memory), m) ∧ u.now.accounts = t.now.accounts := by
    unfold sstoreGas
    rw [hback0, hback1]
    refine wp_query_of_ok rfl trivial ?_
    rw [t.now.read_storage C, slotCost_false, pure_bind]
    refine Prog.wp.bind (unrefunded_netSstore hdirty m) fun p u ⟨hp, hu⟩ ↦ ?_
    subst hp
    exact ⟨rfl, hu⟩
  refine Prog.wp.bind hprice fun p u ⟨hp, hu⟩ ↦ ?_
  subst hp
  refine wp_payDynamic (fun hlack ↦ absurd hgas (not_le.2 (hlack _ rfl))) ?_
  rintro _ ⟨⟩ _
  refine wp_query_of_ok rfl trivial ?_
  refine wp_opSstore evm callees (fun hlen ↦ ?_) (fun h ↦ absurd h (by simp [hro])) fun _ ↦
    Prog.wp_perform.2 fun _ ↦ ⟨trivial, ?_, ?_⟩
  · simp [hstack] at hlen
  · simp [hstack, Memory.resize]
  · show (World.getOrNew C (u.now.setState C scope.contract.self _ _) _).storage slot ≠ _
    simpa [hback0, hback1, World.setState, World.getOrNew] using hdirty.symm

/-- The instructions of the writer other than `SSTORE` are the same in every instruction set. -/
theorem selectJumpTable_writer (rules : Rules) :
    selectJumpTable rules .callValue = operation opCallValue gasQuickStep 0 1 ∧
    selectJumpTable rules .pc = operation opPc gasQuickStep 0 1 ∧
    selectJumpTable rules .callDataLoad = operation opCallDataLoad gasFastestStep 1 1 ∧
    selectJumpTable rules .stop = operation opStop 0 0 0 := by
  unfold selectJumpTable
  split_ifs <;> exact ⟨rfl, rfl, rfl, rfl⟩

/-- A frame on a stipend that writes the value sent to it to the slot in its input: `CALLVALUE`, `PC`,
`CALLDATALOAD`, `SSTORE`. -/
def writer (a : Address) (value : Hash) : Contract where
  callerAddress := 0
  self := a
  code := [0x34, 0x58, 0x35, 0x55]
  codeHash := 0
  codeAddr := none
  input := []
  gas := Params.callStipend
  value := value.toNat

theorem getData_writer (slot : Hash) : getData (0 :: hashBytes slot) 1 32 = hashBytes slot := by
  have hlen : (hashBytes slot).length = 32 := length_beBytes 32 slot.toNat
  simp [getData, rightPadBytes, hlen]

def writerScope (a : Address) (slot value : Hash) (pc : Nat) (stack : Stack) (gas : Nat) : Scope :=
  ⟨pc, stack, Memory.empty,
    { writer a value with gas := gas, input := 0 :: hashBytes slot }⟩

variable {a : Address}

/-- One of the writer's steps, by an instruction that only changes the stack. -/
theorem unrefunded_writerStep {callees : Callees} {fuel pc gas : Nat} {stack : Stack} (stack' : Stack)
    {Q : CallResult × Machine → Timeline → Prop} {op : OpCode} {x : ExecutionFunc}
    {cost pops pushes : Nat}
    (ho : selectJumpTable evm.chainRules op = operation x cost pops pushes)
    (hop : (writer a value).getOp pc = op) (hmin : pops ≤ stack.length)
    (hmax : stack.length ≤ maxStack pops pushes) (hgas : cost ≤ gas)
    (hx : x evm callees (writerScope a slot value pc stack (gas - cost)) =
      pure (.next (writerScope a slot value pc stack' (gas - cost))))
    (hnext : unrefundedWp C (runLoop evm (selectJumpTable evm.chainRules) callees fuel
      (writerScope a slot value (add64 pc 1) stack' (gas - cost)) m) t Q) :
    unrefundedWp C (runLoop evm (selectJumpTable evm.chainRules) callees (fuel + 1)
      (writerScope a slot value pc stack gas) m) t Q := by
  subst hop
  show unrefundedWp C ((step evm (selectJumpTable evm.chainRules) callees
    (writerScope a slot value pc stack gas) >>= _) m) t Q
  rw [step_eq _ ho hmin hmax hgas]
  refine Prog.wp.bind (P := fun p u ↦
    p = (.next (writerScope a slot value pc stack' (gas - cost)), m) ∧ u = t) ?_
    fun p u ⟨hp, hu⟩ ↦ ?_
  · refine wp_query_of_ok rfl trivial ?_
    show unrefundedWp C (x evm callees (writerScope a slot value pc stack (gas - cost)) m) t _
    rw [hx]
    exact ⟨rfl, rfl⟩
  · subst hp hu
    exact hnext

theorem unrefunded_operands {callees : Callees} {fuel : Nat} {Q : CallResult × Machine → Timeline → Prop}
    (hnext : unrefundedWp C (runLoop evm (selectJumpTable evm.chainRules) callees fuel
      (writerScope a slot value 3 [slot, value] (callStipend - 7)) m) t Q) :
    unrefundedWp C (runLoop evm (selectJumpTable evm.chainRules) callees (fuel + 3)
      (writerScope a slot value 0 [] callStipend) m) t Q := by
  obtain ⟨hvalue, hpc, hload, _⟩ := selectJumpTable_writer evm.chainRules
  refine unrefunded_writerStep [value] hvalue rfl (Nat.le_refl 0) (by decide) (by decide) ?_ ?_
  · simp [opCallValue, pushOp, localOp, writerScope, writer]
  refine unrefunded_writerStep [1, value] hpc rfl (Nat.zero_le 1)
    (by simp [maxStack, stackLimit]) (by decide) rfl ?_
  refine unrefunded_writerStep [slot, value] hload rfl (Nat.le_add_left 1 1)
    (by simp [maxStack, stackLimit]) (by decide) ?_ hnext
  simp [opCallDataLoad, localOp, writerScope, uint64WithOverflow, getData_writer]

theorem unrefunded_stop {callees : Callees} {fuel gas : Nat} {P : Timeline → Prop} (ht : P t) :
    unrefundedWp C (runLoop evm (selectJumpTable evm.chainRules) callees (fuel + 1)
      (writerScope a slot value 4 [] gas) m) t fun _ u ↦ P u := by
  obtain ⟨_, _, _, hstop⟩ := selectJumpTable_writer evm.chainRules
  show unrefundedWp C ((step evm (selectJumpTable evm.chainRules) callees
    (writerScope a slot value 4 [] gas) >>= _) m) t _
  rw [step_eq _ hstop (Nat.le_refl 0) (Nat.zero_le _) (Nat.zero_le gas)]
  refine Prog.wp.bind (P := fun p u ↦ p.1 = .halt (writerScope a slot value 4 [] gas) [] none ∧ P u) ?_
    fun p u ⟨hp, hu⟩ ↦ ?_
  · exact wp_query_of_ok rfl trivial ⟨rfl, ht⟩
  · obtain ⟨r, m'⟩ := p
    cases hp
    exact hu

/-- **With a dirty slot around, a stipend pays for a write.** -/
theorem unrefunded_writer (hlists : usesAccessList evm.chainRules = false)
    (hdirty : (t.now.getOrNew C a).storage slot ≠ (t.now.getOrNew C a).committed slot) :
    unrefundedWp C (evm.interpreter (writer a ((t.now.getOrNew C a).committed slot))
        (0 :: hashBytes slot) false Machine.init) t fun _ u ↦
      (u.now.getOrNew C a).storage slot ≠ (t.now.getOrNew C a).storage slot := by
  have hsstore : selectJumpTable evm.chainRules .sstore =
      sstoreEntry false false fun _ ↦ netPrices := by
    rw [selectJumpTable_sstore, if_neg (by simp [hlists])]
  have hgas : netPrices.dirty ≤ callStipend - 7 := by decide
  have hmax : 2 ≤ maxStack 2 0 := by decide
  show unrefundedWp C ((evm.frameCode (selectJumpTable evm.chainRules)
    (evm.callees (evm.runnerWith (selectJumpTable evm.chainRules) callCreateDepth))
    (writer a _) (0 :: hashBytes slot) >>= fun r ↦ leaveFrame false >>= fun _ ↦ pure r) _) t _
  -- The frame is left with the storage the loop left.
  refine Prog.wp.bind (P := fun _ (u : Timeline) ↦ (u.now.getOrNew C a).storage slot ≠
    (t.now.getOrNew C a).storage slot) ?_ fun _ _ h ↦ h
  refine unrefunded_operands ?_
  show unrefundedWp C ((step evm (selectJumpTable evm.chainRules) _
    (writerScope a slot _ 3 [slot, _] (callStipend - 7)) >>= _) _) t _
  rw [step_eq (writerScope a slot _ 3 [slot, _] (callStipend - 7)) hsstore (Nat.le_refl 2) hmax
    (Nat.zero_le _)]
  refine Prog.wp.bind (unrefunded_sstore _ rfl rfl hgas hdirty) fun p u ⟨hp, hu⟩ ↦ ?_
  subst hp
  exact unrefunded_stop hu

end Timelines

/-! ## On a state database -/

/-- Whatever code a frame with at most 2300 gas runs, the refund counter does not go below zero, and
when the frame returns every slot of every account has the value it had. -/
def KeepsStorage {C : Crypto} (db : StateDatabase C) (evm : EVM) (s : StateDB) : Prop :=
  ∀ (contract : Contract) (input : Bytes) (readOnly : Bool) (m : Machine),
    contract.gas ≤ Params.callStipend →
    match (evm.interpreter contract input readOnly m).run (StateDB.handler db) s with
    | .ok (_, s') => ∀ a key, (StateDB.handler db).answer (.getState a key) s' =
        (StateDB.handler db).answer (.getState a key) s
    | .error e => e ≠ .refundCounterBelowZero

/-- `SSTORE` has a minimum, or every slot of every account has the value the transaction started
from. -/
def StipendSafe {C : Crypto} (db : StateDatabase C) (evm : EVM) (s : StateDB) : Prop :=
  usesAccessList evm.chainRules = true ∨
    ∀ a key, (StateDB.handler db).answer (.getState a key) s =
      (StateDB.handler db).answer (.getCommittedState a key) s

section Databases

variable {C : Crypto} {db : StateDatabase C} {evm : EVM} {s : StateDB} {t : Timeline}

theorem stipendSafe_iff (h : Refines db s t) :
    StipendSafe db evm s ↔ (stipendSetting C evm).inv t.now := by
  refine or_congr_right ⟨fun hclean a ↦ funext fun key ↦ ?_, fun hclean a key ↦ ?_⟩
  · have heq := hclean a key
    rw [answer_getState h, answer_getCommittedState h] at heq
    exact Except.ok.inj heq
  · rw [answer_getState h, answer_getCommittedState h, hclean a]

theorem keepsStorage_of_inv (h : Refines db s t) (hsafe : (stipendSetting C evm).inv t.now) :
    KeepsStorage db evm s := by
  intro contract input readOnly m hgas
  have hwithin : (stipendSetting C evm).toCode.Within contract.gas := by
    rintro k ⟨⟩
    exact Nat.lt_succ_iff.2 hgas
  have hwp : (stipendSetting C evm).toCode.wp (evm.interpreter contract input readOnly m) t _ :=
    (stipendLogic C evm).codeLogic.interpreterWith contract input readOnly hwithin m t
      nofun hsafe
  have hrun := hwp.of_simulates (handler_simulates db) (Prog.uses_true _) h (Prog.along_true _ _)
  split at hrun
  · next hs =>
    obtain ⟨u, hs', -, htu, -⟩ := hrun
    rw [hs]
    intro a key
    rw [answer_getState hs', answer_getState h, htu.2.storage a]
  · next hs =>
    rw [hs]
    exact hrun

/-- With a dirty slot and without a minimum, the writer does not keep storage. -/
theorem not_keepsStorage (h : Refines db s t) (hlists : usesAccessList evm.chainRules = false)
    (hdirty : ¬ t.now.NoDirtySlot C) : ¬ KeepsStorage db evm s := by
  intro hkeeps
  obtain ⟨a, ha⟩ := not_forall.1 hdirty
  obtain ⟨slot, hslot⟩ := Function.ne_iff.1 ha
  have hrun := (unrefunded_writer hlists hslot).of_simulates (handler_simulates db)
    (Prog.uses_true _) h (Prog.along_true _ _)
  have hkeep := hkeeps (writer a ((t.now.getOrNew C a).committed slot)) (0 :: hashBytes slot) false
    .init le_rfl
  split at hrun
  · next hs =>
    obtain ⟨u, hs', hchanged⟩ := hrun
    rw [hs] at hkeep
    have heq := hkeep a slot
    rw [answer_getState hs', answer_getState h] at heq
    exact hchanged (Except.ok.inj heq)
  · next hs =>
    rw [hs] at hkeep
    exact hkeep hrun

end Databases

/-- **When a stipend pays for no write.** For every reachable state database and every chain rules: no
frame entered with at most 2300 gas changes a storage slot of any account, whatever code it runs and
whatever frames it enters, exactly if `SSTORE` has a minimum under the rules, or no slot of any account
differs in the state from what the transaction started from. -/
theorem stipend_pays_for_no_write_iff {C : Crypto} {db : StateDatabase C} {s : StateDB}
    (hs : s.Reachable db) (evm : EVM) : KeepsStorage db evm s ↔ StipendSafe db evm s := by
  obtain ⟨t, hst⟩ := hs.refines
  rw [stipendSafe_iff hst]
  refine ⟨fun hkeeps ↦ ?_, keepsStorage_of_inv hst⟩
  by_contra hunsafe
  obtain ⟨hlists, hdirty⟩ := not_or.1 hunsafe
  exact not_keepsStorage hst (by simpa using hlists) hdirty hkeeps

open Chain.Sample State.Sample in
/-- Under the rules of London no frame on a stipend writes. -/
theorem stipend_pays_for_no_write_london :
    KeepsStorage (database []) (evm crypto none) (state []) :=
  (stipend_pays_for_no_write_iff (reachable_state []) (evm crypto none)).2 (.inl rfl)

namespace Sample

open Chain.Sample State.Sample

def forkless : EVM := { evm crypto none with chainConfig := ⟨some 1, none, none, none⟩ }

/-- The transaction has set slot 5 of account 0x20 to 7. -/
def dirtied : StateDB := (state []).setState (database []) 0x20 5 7

/-- A frame of this account that sets slot 5 to 1, on a stipend. -/
def rewriter : Contract :=
  ⟨0x10, 0x20, [0x60, 0x01, 0x60, 0x05, 0x55], 0, none, [], Params.callStipend, 0⟩

end Sample

open Chain.Sample State.Sample Sample in
/-- Under the rules of a chain without forks, a frame on a stipend overwrites a slot that the
transaction has written before. -/
theorem stipend_pays_for_a_write :
    dirtied.Reachable (database []) ∧ rewriter.gas = Params.callStipend ∧
      ((StateDB.handler (database [])).answer (.getState 0x20 5) dirtied).toOption = some 7 ∧
      ((forkless.interpreter rewriter [] false Machine.init).run (StateDB.handler (database []))
          dirtied).toOption.map (fun q ↦
        (q.1.1.err, ((StateDB.handler (database [])).answer (.getState 0x20 5) q.2).toOption)) =
          some (none, some 1) :=
  ⟨.method (o := .setState 0x20 5 7) (r := ()) (reachable_state []) rfl, rfl, by decide,
    by decide⟩

end GoEntropy.Execution
