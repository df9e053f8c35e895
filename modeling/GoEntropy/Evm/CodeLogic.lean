import GoEntropy.Evm.GasBound
import GoEntropy.Evm.StateLogic

/-!
# Invariants of running code

A state logic speaks about how the state moves. What is kept here is an invariant `inv` that holds
between instructions and need not hold inside one: writing a slot takes a gas function and an
instruction, and if the second is not reached, the frame fails and its caller reverts it.

So running code *settles* (`CodeSetting.Settles`): it starts where the invariant holds, moves the state
along `moves`, and the invariant holds again unless the result says that the frame failed. A snapshot
has to bring the invariant back. Entering a frame then keeps the invariant whatever happens in it.

A setting may restrict the frames it speaks about to read-only mode, or to less gas than a limit. Both
are handed on from a frame to the frames it enters.
-/

namespace GoEntropy.Evm

open Interaction Prog

variable {σ : Type}

/-! ## Harmless methods -/

/-- Methods that read the state, those of the access list and the tracer's, the events of creations and
self-destructions apart. -/
def StateOp.isHarmless : StateOp → Bool
  | addressInAccessList _ => true
  | slotInAccessList _ _ => true
  | addAddressToAccessList _ => true
  | addSlotToAccessList _ _ => true
  | captureStart _ _ create _ => !create
  | captureEnter .create _ _ _ => false
  | captureEnter .create2 _ _ _ => false
  | captureEnter .selfdestruct _ _ _ => false
  | captureEnter .. => true
  | captureState _ _ => true
  | o => o.isCalm

def Harmless (o : StateOp) : Prop := o.isHarmless = true

variable {o : StateOp}

theorem Calm.harmless (h : Calm o) : Harmless o := by
  cases o <;> first | rfl | cases h

variable {lists : Bool}

theorem CalmOr.harmless (h : CalmOr lists o) : Harmless o := by
  rcases h with h | ⟨_, h⟩
  · exact Calm.harmless h
  · cases o <;> first | rfl | cases h

/-! ## The gas functions of calls -/

section CallGas

variable {lists : Bool}

def GasFunc.IsPlain (S : StateOp → Prop) (g : GasFunc) : Prop :=
  ∀ evm contract stack mem size, Plain S (g evm contract stack mem size)

theorem OldCall.plain {value : Option Nat} {old : GasFunc} (h : OldCall value old) : old.IsPlain Calm :=
  fun evm contract stack mem size ↦ h (Plain Calm) evm contract stack mem size
    (fun _ _ ↦ .bind (.query rfl)) (.pure _) fun _ _ _ _ _ _ ↦
      .bind (.setCallGasTemp _) fun _ ↦ .pure _

theorem plain_callGasFunc {old : GasFunc} (hold : old.IsPlain Calm) :
    (callGasFunc lists old).IsPlain Harmless := by
  have hold' : old.IsPlain Harmless := fun evm contract stack mem size ↦
    (hold evm contract stack mem size).mono fun _ ↦ Calm.harmless
  intro evm contract stack mem size
  unfold callGasFunc
  split
  · refine .bind ((tidy_accessAddress _).plain.mono fun _ ↦ CalmOr.harmless) fun warm ↦ ?_
    refine .ite (fun _ ↦ hold' _ _ _ _ _) fun _ ↦ ?_
    split
    · exact .pure _
    · refine .bind (hold' _ _ _ _ _) fun r ↦ ?_
      rcases r with _ | ⟨gas, mem'⟩
      · exact .pure _
      · exact .pure _
  · exact hold' _ _ _ _ _

end CallGas

/-! ## Settings -/

/-- What is shown about running code: on which states, under which assumptions and guarantees at each
method call, with which faults, in which frames, and with which invariant and moves. -/
structure CodeSetting (σ : Type) where
  handler : Handler StateInterface Fault σ
  assume : StateOp → σ → Prop
  guarantee : StateOp → σ → Prop
  fault : Fault → Prop
  /-- Whether only read-only frames are considered. -/
  readOnly : Bool
  /-- The gas that the frames considered have less of, if there is a limit. -/
  limit : Option Nat
  moves : σ → σ → Prop
  inv : σ → Prop

namespace CodeSetting

variable (C : CodeSetting σ) {α β : Type}

/-- The weakest precondition of a program over the state. -/
abbrev wp (x : StateM α) (s : σ) (Q : α → σ → Prop) : Prop :=
  Prog.wp C.handler C.assume C.guarantee C.fault x s Q

/-- The registers are those of a frame that is considered. -/
def Fits (m : Machine) : Prop := C.readOnly = true → m.readOnly = true

def Within (gas : Nat) : Prop := ∀ k, C.limit = some k → gas < k

/-- From where the invariant holds, the program moves the state, to where it holds again if the result
is a good one. -/
def Settles (good : α → Prop) (x : EvmM α) : Prop :=
  ∀ m s, C.Fits m → C.inv s →
    C.wp (x m) s fun p t ↦ C.Fits p.2 ∧ C.moves s t ∧ (good p.1 → C.inv t)

abbrev Keeps (x : EvmM α) : Prop := C.Settles (fun _ ↦ True) x

def Passes (x : StateM α) (s : σ) : Prop := C.wp x s fun _ t ↦ C.moves s t ∧ C.inv t

def Runs (runner : Runner) : Prop :=
  ∀ contract input readOnly, C.Within contract.gas →
    C.Settles (·.err = none) (runner contract input readOnly)

variable {C}

theorem ask_of_ok {s t : σ} {r : o.Res} {Q : o.Res → σ → Prop}
    (hG : C.guarantee o s) (h : C.handler o s = .ok (r, t)) (hQ : C.assume o s → Q r t) :
    C.wp (ask o) s Q := by
  refine wp_perform.2 fun hA ↦ ⟨hG, ?_⟩
  rw [h]
  exact hQ hA

theorem ask_of_error {s : σ} {e : Fault} {Q : o.Res → σ → Prop}
    (hG : C.guarantee o s) (h : C.handler o s = .error e) (he : C.fault e) : C.wp (ask o) s Q := by
  refine wp_perform.2 fun _ ↦ ⟨hG, ?_⟩
  rw [h]
  exact he

theorem Within.mono {gas gas' : Nat} (h : C.Within gas) (hle : gas' ≤ gas) : C.Within gas' :=
  fun k hk ↦ lt_of_le_of_lt hle (h k hk)

theorem Runs.at_gas {runner : Runner} (hrun : C.Runs runner) {gas : Nat} (hgas : C.Within gas)
    (contract : Contract) (input : Bytes) (readOnly : Bool) (h : contract.gas = gas) :
    C.Settles (·.err = none) (runner contract input readOnly) :=
  hrun contract input readOnly (h ▸ hgas)

end CodeSetting

def ExecResult.Good : ExecResult → Prop
  | .next _ => True
  | .halt _ _ err => err = none

/-! ## Storing code -/

variable {r : CallResult} {evm : EVM}

theorem checkCode_eq_none (h : evm.checkCode r = none) :
    r.err = none := by
  unfold EVM.checkCode at h
  cases hr : r.err with
  | none => rfl
  | some err => rw [hr] at h; cases h

theorem checkCode_ne {err : VmError} (h : evm.checkCode r = some err)
    (hr : r.err ≠ some .codeStoreOutOfGas) : err ≠ .codeStoreOutOfGas := by
  rintro rfl
  unfold EVM.checkCode at h
  cases herr : r.err with
  | none =>
    rw [herr] at h
    split_ifs at h <;> cases h
  | some err =>
    rw [herr] at h hr
    exact hr h

variable {m : Machine}

/-- The three outcomes of storing the code of a constructor: it or the checks have failed, the code
cannot be paid for, or it is stored. -/
theorem wp_storeCode {h : Handler StateInterface Fault σ} {A G : StateOp → σ → Prop}
    {E : Fault → Prop} {address : Address} {s : σ}
    {Q : CallResult × Machine → σ → Prop} (hr : r.err ≠ some .codeStoreOutOfGas)
    (hfail : ∀ err, err ≠ .codeStoreOutOfGas → Q ({ r with err := some err }, m) s)
    (hgas : r.err = none → Q ({ r with err := some .codeStoreOutOfGas }, m) s)
    (hset : r.err = none → (ask (.setCode address r.ret)).wp h A G E s fun _ t ↦
      ∀ gas, Q ({ r with leftOverGas := gas }, m) t) :
    (evm.storeCode address r m).wp h A G E s Q := by
  unfold EVM.storeCode
  cases hcheck : evm.checkCode r with
  | some err => exact hfail err (checkCode_ne hcheck hr)
  | none =>
    have hnone := checkCode_eq_none hcheck
    dsimp only
    split
    · exact hgas hnone
    · exact wp_query_bind (hset hnone) fun _ t ht ↦ ht _

/-- The outcomes of settling a creation: it has succeeded, it is undone, or it could not pay for its
code before Homestead, which is not undone. -/
theorem wp_settleCreate {h : Handler StateInterface Fault σ} {A G : StateOp → σ → Prop}
    {E : Fault → Prop} {id : Nat} {s : σ}
    {Q : CallResult × Machine → σ → Prop}
    (hkept : r.err = none ∨ r.err = some .codeStoreOutOfGas → Q (r, m) s)
    (hrevert : (ask (.revertToSnapshot id)).wp h A G E s fun _ t ↦
      ∀ gas, Q ({ r with leftOverGas := gas }, m) t) :
    (evm.settleCreate id r m).wp h A G E s Q := by
  unfold EVM.settleCreate
  cases hr : r.err with
  | none => exact hkept (.inl hr)
  | some err =>
    dsimp only
    split
    · rw [hr] at hrevert
      unfold settleCall
      rw [hr]
      exact wp_query_bind hrevert fun _ t ht ↦ ht _
    · next hstored =>
      rw [not_or, not_not] at hstored
      exact hkept (.inr (by rw [hr, hstored.2]))

/-! ## Errors of code -/

theorem leavesCode_runLoop {jt : JumpTable} (hjt : ∀ op, Entry lists op (jt op))
    {callees : Callees} (fuel : Nat) (scope : Scope) :
    Yields (·.err ≠ some .codeStoreOutOfGas) (runLoop evm jt callees fuel scope) := by
  induction fuel generalizing scope with
  | zero => exact .crash _
  | succ fuel ih =>
    refine (yields_step hjt evm callees scope).bind fun r hr ↦ ?_
    cases r with
    | next scope' => exact ih _
    | halt scope' res err => exact .pure hr.leavesCode

/-- Code never reports that storing a contract's code ran out of gas: only a creation does. -/
def Runner.LeavesCode (runner : Runner) : Prop :=
  ∀ contract input readOnly,
    Yields (·.err ≠ some .codeStoreOutOfGas) (runner contract input readOnly)

theorem leavesCode_runnerWith {jt : JumpTable}
    (hjt : ∀ op, Entry lists op (jt op)) (evm : EVM) (depth : Nat) :
    (evm.runnerWith jt depth).LeavesCode := by
  cases depth with
  | zero => exact fun _ _ _ ↦ .crash _
  | succ depth =>
    intro contract input readOnly
    refine .andThen fun entered ↦ .bind ?_ fun r hr ↦ .andThen fun _ ↦ .pure hr
    exact .ite (fun _ ↦ .pure (by simp)) fun _ ↦ leavesCode_runLoop hjt _ _

/-! ## Rules of sequencing -/

/-- What it takes to put programs together in a setting, and to call harmless methods. -/
structure CodeRules (C : CodeSetting σ) : Prop where
  refl : ∀ s, C.inv s → C.moves s s
  trans : ∀ {s t u}, C.moves s t → C.moves t u → C.moves s u
  fault : ∀ e, e.isLocal = true → C.fault e
  harmless : ∀ o s, Harmless o → C.inv s → C.Passes (ask o) s

namespace CodeRules

variable {C : CodeSetting σ} (L : CodeRules C) {α β : Type}

include L

variable {x : EvmM α} {good : α → Prop}

omit L in
theorem settles_of_keeps (h : C.Keeps x) : C.Settles good x :=
  fun m s hm hs ↦ (h m s hm hs).mono fun _ _ ⟨hm', hst, ht⟩ ↦ ⟨hm', hst, fun _ ↦ ht trivial⟩

theorem bind {good : β → Prop} {Q : α → Prop} {f : α → EvmM β} (hx : C.Keeps x)
    (hQ : Yields Q x) (hf : ∀ a, Q a → C.Settles good (f a)) : C.Settles good (x >>= f) := by
  intro m s hm hs
  refine wp.bind ((hx m s hm hs).and_returns (hQ m)) fun p t ⟨⟨hm', hst, ht⟩, hp⟩ ↦ ?_
  refine (hf p.1 hp p.2 t hm' (ht trivial)).mono fun q u ⟨hm'', htu, hu⟩ ↦ ?_
  exact ⟨hm'', L.trans hst htu, hu⟩

theorem andThen {good : β → Prop} {f : α → EvmM β} (hx : C.Keeps x)
    (hf : ∀ a, C.Settles good (f a)) : C.Settles good (x >>= f) :=
  L.bind hx (.true x) fun a _ ↦ hf a

theorem pure (a : α) : C.Settles good (pure a) :=
  fun _ s hm hs ↦ ⟨hm, L.refl s hs, fun _ ↦ hs⟩

theorem crash {e : Fault} (he : e.isLocal = true) :
    C.Settles good (crash e) := fun _ _ _ _ ↦ L.fault e he

omit L in
theorem keeps_query (ho : ∀ s, C.inv s → C.Passes (ask o) s) : C.Keeps (query o) :=
  fun _ s hm hs ↦ wp_map.2 ((ho s hs).mono fun _ _ ⟨hst, ht⟩ ↦ ⟨hm, hst, fun _ ↦ ht⟩)

theorem harmlessQuery (o : StateOp) (ho : Harmless o) : C.Keeps (Evm.query o) :=
  keeps_query fun s ↦ L.harmless o s ho

theorem register (f : Machine → α × Machine)
    (hf : ∀ m, (f m).2.readOnly = m.readOnly) (hx : ∀ m, x m = Prog.pure (f m)) : C.Keeps x := by
  intro m s hm hs
  rw [hx m]
  exact ⟨fun hro ↦ (hf m).trans (hm hro), L.refl s hs, fun _ ↦ hs⟩

theorem closed : Closed Harmless fun _ x ↦ C.Keeps x where
  pure := L.pure
  bind hx hf := L.andThen hx hf
  crash _ he := L.crash he
  query o ho := L.harmlessQuery o ho
  returnData := L.register (fun m ↦ (m.returnData, m)) (fun _ ↦ rfl) fun _ ↦ rfl
  readOnly := L.register (fun m ↦ (m.readOnly, m)) (fun _ ↦ rfl) fun _ ↦ rfl
  setReturnData data :=
    L.register (fun m ↦ ((), { m with returnData := data })) (fun _ ↦ rfl) fun _ ↦ rfl
  setCallGasTemp gas :=
    L.register (fun m ↦ ((), { m with callGasTemp := gas })) (fun _ ↦ rfl) fun _ ↦ rfl

theorem plain (hx : Plain Harmless x) : C.Keeps x := hx _ L.closed

theorem calm (hx : Plain Calm x) : C.Keeps x :=
  L.plain (hx.mono fun _ ↦ Calm.harmless)

section Instructions

variable {evm : EVM} {scope : Scope} {callees : Callees} {o : Operation} {op : OpCode}

theorem writeOp {f : ExecutionFunc}
    (hf : C.readOnly = false → C.Settles ExecResult.Good (f evm callees scope)) :
    C.Settles ExecResult.Good (writeOp f evm callees scope) := by
  intro m s hm hs
  unfold Evm.writeOp
  rw [readRegister_bind]
  split
  · exact ⟨hm, L.refl s hs, fun _ ↦ hs⟩
  · next hro =>
    have hwrite : C.readOnly = false := by
      cases h : C.readOnly with
      | false => rfl
      | true => exact absurd (hm h) hro
    exact hf hwrite m s hm hs

theorem traceExecute (hexec : C.Settles ExecResult.Good (o.execute evm callees scope)) :
    C.Settles ExecResult.Good (o.traceExecute evm callees op scope) :=
  L.andThen (L.harmlessQuery _ rfl) fun _ ↦ hexec

theorem payDynamic (hexec : ∀ scope, C.Settles ExecResult.Good (o.execute evm callees scope))
    (size : Nat) (cost : Option (Nat × Memory)) :
    C.Settles ExecResult.Good (o.payDynamic evm callees op scope size cost) := by
  unfold Operation.payDynamic
  split
  · exact L.pure _
  · split
    · exact L.pure _
    · exact L.traceExecute (hexec _)

theorem executePaid
    (hgas : ∀ g, o.dynamicGas = some g → ∀ contract stack mem size,
      C.Keeps (g evm contract stack mem size))
    (hexec : ∀ scope, C.Settles ExecResult.Good (o.execute evm callees scope)) :
    C.Settles ExecResult.Good (o.executePaid evm callees op scope) := by
  unfold Operation.executePaid
  split
  · next g hg =>
    unfold Operation.executeDynamic
    split
    · exact L.pure _
    · exact L.andThen (hgas g hg _ _ _ _) fun cost ↦ L.payDynamic hexec _ cost
  · exact L.traceExecute (hexec scope)

end Instructions

end CodeRules

/-! ## The logic -/

/-- An invariant that running code keeps: one fact for each method or small group of methods, one for
the instruction that writes storage, and one for creations. -/
structure CodeLogic (evm : EVM) (jt : JumpTable) (C : CodeSetting σ) : Prop extends
    CodeRules C where
  entries : ∃ lists, ∀ op, Entry lists op (jt op)
  /-- A limit is too small to pay for a cold account, let alone for a creation. -/
  limit_le : ∀ k, C.limit = some k → k ≤ coldSurcharge
  /-- A limit is only considered with the instruction set of the rules. -/
  selected : C.limit ≠ none → jt = selectJumpTable evm.chainRules
  addRefund : ∀ gas s, C.inv s → C.Passes (ask (.addRefund gas)) s
  sstore : ∀ callees scope, C.Within scope.contract.gas →
    C.Settles ExecResult.Good ((jt .sstore).executePaid evm callees .sstore scope)
  addLog : C.readOnly = false → ∀ log s, C.inv s → C.Passes (ask (.addLog log)) s
  destruct : C.readOnly = false → ∀ self beneficiary, C.Keeps (destruct self beneficiary)
  transfer : ∀ caller addr value s, (C.readOnly = true → value = 0) → C.inv s →
    C.Passes (transfer caller addr value) s
  /-- Adding nothing to a balance touches the account. -/
  touch : ∀ addr s, C.inv s → C.Passes (ask (.addBalance addr 0)) s
  /-- A call creates the account it finds absent. -/
  account : ∀ addr s, C.inv s → C.wp (ask (.exist addr)) s fun present t ↦
    C.moves s t ∧ C.inv t ∧ (present = false → C.Passes (ask (.createAccount addr)) t)
  snapshot : ∀ s, C.inv s → C.wp (ask .snapshot) s fun id t ↦ C.moves s t ∧ C.inv t ∧
    ∀ u, C.moves t u → C.wp (ask (.revertToSnapshot id)) u fun _ v ↦ C.moves s v ∧ C.inv v
  create : C.readOnly = false → C.limit = none → ∀ {runner : Runner}, C.Runs runner →
    runner.LeavesCode → ∀ caller code codeHash gas value address typ,
      typ = .create ∨ typ = .create2 →
      C.Keeps (evm.createAt runner caller code codeHash gas value address typ)

namespace CodeLogic

open CodeRules (settles_of_keeps keeps_query)

variable {evm : EVM} {jt : JumpTable} {C : CodeSetting σ} (L : CodeLogic evm jt C) {α β : Type}

include L

theorem refunding {x : EvmM α} (hx : Plain (RefundOr lists) x) : C.Keeps x := by
  refine hx (fun _ ↦ C.Keeps) { L.closed with query := fun o ho ↦ ?_ }
  rcases ho with ho | ⟨gas, rfl⟩
  · exact L.harmlessQuery _ ho.harmless
  · exact keeps_query (L.addRefund gas)

/-! ## Frames -/

section Frames

theorem captureFrame_call (src dest : Address) (value : Nat) :
    C.Keeps (captureFrame .call false src dest value) := by
  intro m s hm hs
  rw [StateLogic.captureFrame_apply]
  split
  · exact L.harmlessQuery (.captureStart src dest false value) rfl m s hm hs
  · exact L.harmlessQuery (.captureEnter .call src dest value) rfl m s hm hs

theorem canTransfer (c : Address) (v : Nat) (s : σ) (hs : C.inv s) :
    C.Passes (canTransfer c v) s :=
  wp.bind (L.harmless _ s rfl hs) fun _ _ ht ↦ ht

theorem canPay (c : Address) (v : Nat) (s : σ) (hs : C.inv s) : C.Passes (canPay c v) s := by
  unfold Evm.canPay
  split
  · exact L.canTransfer c v s hs
  · exact ⟨L.refl s hs, hs⟩

/-- Settling a frame that was entered at a snapshot keeps the invariant: a frame that failed is
undone. -/
theorem settleCall {s t u : σ} {id : Nat} (hst : C.moves s t) (htu : C.moves t u)
    (hrevert : ∀ u, C.moves t u →
      C.wp (ask (.revertToSnapshot id)) u fun _ v ↦ C.moves s v ∧ C.inv v)
    (hu : r.err = none → C.inv u) (hm : C.Fits m) :
    C.wp (settleCall id r m) u fun p v ↦ C.Fits p.2 ∧ C.moves s v ∧ C.inv v := by
  unfold Evm.settleCall
  cases herr : r.err with
  | none => exact ⟨hm, L.trans hst htu, hu herr⟩
  | some err => exact wp_query_bind (hrevert u htu) fun _ _ hv ↦ ⟨hm, hv⟩

variable {body : EvmM CallResult}

/-- A body that settles, between a snapshot and its settlement. -/
theorem bracket {s t : σ} {id : Nat} (hst : C.moves s t) (ht : C.inv t) (hrevert : ∀ u, C.moves t u →
      C.wp (ask (.revertToSnapshot id)) u fun _ v ↦ C.moves s v ∧ C.inv v)
    (hbody : C.Settles (·.err = none) body)
    (hm : C.Fits m) :
    C.wp ((body >>= Evm.settleCall id) m) t fun p v ↦
      C.Fits p.2 ∧ C.moves s v ∧ (True → C.inv v) :=
  wp.bind (hbody m t hm ht) fun _ _ ⟨hm', htu, hu⟩ ↦
    (L.settleCall hst htu hrevert hu hm').mono fun _ _ ⟨hm'', hsv, hv⟩ ↦ ⟨hm'', hsv, fun _ ↦ hv⟩

omit L in
theorem lifted {x : StateM α} (hx : ∀ s, C.inv s → C.Passes x s) : C.Keeps (lift x) :=
  fun _ s hm hs ↦ wp_map.2 ((hx s hs).mono fun _ _ ⟨hst, ht⟩ ↦ ⟨hm, hst, fun _ ↦ ht⟩)

theorem around {x : EvmM α} (hx : Around (fun v ↦ C.readOnly = true → v = 0) α x) : C.Keeps x := by
  cases hx with
  | depth => exact L.register (fun m ↦ (m.depth, m)) (fun _ ↦ rfl) fun _ ↦ rfl
  | canTransfer c v => exact lifted (L.canTransfer c v)
  | paid => exact lifted fun s hs ↦ ⟨L.refl s hs, hs⟩
  | transfer c a hv => exact lifted fun s ↦ L.transfer c a _ s hv
  | capture c a v => exact L.captureFrame_call c a v
  | getCode | getCodeHash => exact L.harmlessQuery _ rfl
  | touch a => exact keeps_query (L.touch a)
  | @enter typ htyp => exact L.harmlessQuery _ (by cases typ <;> first | rfl | cases htyp)

theorem entryLogic : EntryLogic (fun inner _ ↦ C.Settles (cond inner (·.err = none) fun _ ↦ True))
    fun v ↦ C.readOnly = true → v = 0 where
  pure _ := L.pure _
  around hx hf := L.andThen (L.around hx) hf
  settled hx _ s hm hs := wp_query_bind (L.snapshot s hs) fun _ _ ⟨hst, ht, hrevert⟩ ↦
    L.bracket hst ht hrevert hx hm
  account addr _ x y _ _ hy hx := by
    intro m s hm hs
    refine wp_query_bind (L.snapshot s hs) fun id t ⟨hst, ht, hrevert⟩ ↦ ?_
    refine wp_query_bind (L.account addr t ht) fun present u ⟨htu, hu, hcreate⟩ ↦ ?_
    -- From the state `v` on that has the callee's account.
    have henter : ∀ v, C.moves t v → C.inv v → C.wp ((x >>= Evm.settleCall id) m) v fun p w ↦
        C.Fits p.2 ∧ C.moves s w ∧ (True → C.inv w) := fun v htv hv ↦
      L.bracket (L.trans hst htv) hv (fun w hvw ↦ hrevert w (L.trans htv hvw)) hx hm
    split
    · exact (hy m u hm hu).mono fun _ v hv ↦ ⟨hv.1, L.trans hst (L.trans htu hv.2.1), hv.2.2⟩
    · cases present with
      | true => exact henter u htu hu
      | false => exact wp_query_bind (hcreate rfl) fun _ v ⟨huv, hv⟩ ↦ henter v (L.trans htu huv) hv

end Frames

/-! ## Instructions -/

section Instructions

variable {runner : Runner} {scope : Scope} {callees : Callees}

theorem makeLog (size : Nat) :
    C.Settles ExecResult.Good (makeLog size evm callees scope) := by
  refine L.writeOp fun hwrite ↦ ?_
  split
  · split
    · exact L.crash rfl
    · split
      · exact L.andThen (keeps_query (L.addLog hwrite _)) fun _ ↦ L.pure _
      · exact L.crash rfl
  · exact L.crash rfl

theorem opSelfdestruct : C.Settles ExecResult.Good (opSelfdestruct evm callees scope) := by
  refine L.writeOp fun hwrite ↦ ?_
  split
  · exact L.andThen (L.destruct hwrite _ _) fun _ ↦ L.pure _
  · exact L.crash rfl

theorem finishCall (scope : Scope) (st : Stack) (retOffset retSize : Word) (r : CallResult) :
    C.Settles ExecResult.Good (finishCall scope st retOffset retSize r) := by
  refine settles_of_keeps (L.plain ?_)
  unfold Evm.finishCall
  dsimp only
  split
  · exact .crash rfl
  · exact .bind (.setReturnData _) fun _ ↦ .pure _

variable (hrun : C.Runs runner)

include hrun

variable {gas : Nat}

theorem callBodyWithGas {value : Option Nat} {body : Nat → Callees → Scope → EvmM ExecResult}
    (h : CallBody value body) (hgas : C.Within (gas + stipend value scope.stack)) :
    C.Settles ExecResult.Good (body gas (evm.callees runner) scope) := by
  -- A read-only frame sends no value.
  refine h _ (fun v ↦ C.readOnly = true → v = 0) gas _ scope (fun _ ↦ L.crash) (fun _ v x hx ↦ ?_)
    fun _ _ _ x hx ↦ L.andThen ?_ fun r ↦ L.finishCall _ _ _ _ r
  · intro m s hm hs
    rw [readRegister_bind]
    split
    · exact ⟨hm, L.refl s hs, fun _ ↦ hs⟩
    · next hro => exact hx (fun h ↦ not_not.1 fun hv ↦ hro ⟨hm h, hv⟩) m s hm hs
  · cases hx with
    | call _ _ hle hvalue =>
      exact L.entryLogic.call (hrun.at_gas (hgas.mono hle)) _ _ _ fun h ↦ by rw [hvalue h]; rfl
    | callCode _ _ _ hle => exact L.entryLogic.callCode (hrun.at_gas (hgas.mono hle)) _ _ _ _
    | delegateCall _ _ hle => exact L.entryLogic.delegateCall (hrun.at_gas (hgas.mono hle)) _ _ _
    | staticCall _ _ hle => exact L.entryLogic.staticCall (hrun.at_gas (hgas.mono hle)) _ _ _

variable (hcode : runner.LeavesCode) (hlimit : C.limit = none)

include hcode hlimit

theorem opCreate : C.Settles ExecResult.Good (opCreate evm (evm.callees runner) scope) := by
  refine L.writeOp fun hwrite ↦ ?_
  split
  · split
    · exact L.crash rfl
    · refine L.andThen ?_ fun r ↦ settles_of_keeps (L.calm (.bind (.setReturnData _) fun _ ↦ .pure _))
      exact L.andThen (L.harmlessQuery _ rfl) fun nonce ↦
        L.create hwrite hlimit hrun hcode _ _ _ _ _ _ .create (.inl rfl)
  · exact L.crash rfl

theorem opCreate2 : C.Settles ExecResult.Good (opCreate2 evm (evm.callees runner) scope) := by
  refine L.writeOp fun hwrite ↦ ?_
  split
  · split
    · exact L.crash rfl
    · refine L.andThen ?_ fun r ↦ settles_of_keeps (L.calm (.bind (.setReturnData _) fun _ ↦ .pure _))
      exact L.create hwrite hlimit hrun hcode _ _ _ _ _ _ .create2 (.inr rfl)
  · exact L.crash rfl

end Instructions

/-! ## Steps -/

section Steps

variable {scope : Scope} {callees : Callees} {o : Operation} {op : OpCode}

theorem executePaid_of_plain (hgas : o.GasSpec (CalmOr lists))
    (hexec : ∀ scope, C.Settles ExecResult.Good (o.execute evm callees scope)) :
    C.Settles ExecResult.Good (o.executePaid evm callees op scope) :=
  L.executePaid (fun g hg _ _ _ _ ↦
    L.plain (((hgas g hg).plain _ _ _ _ _).mono fun _ ↦ CalmOr.harmless)) hexec

/-- The call instructions. Where gas is limited, what the callee is given has been paid for. -/
theorem executePaid_call {runner : Runner} (hrun : C.Runs runner) {value : Option Nat} {old : GasFunc}
    (hold : OldCall value old) {body : Nat → Callees → Scope → EvmM ExecResult}
    (hbody : CallBody value body) (hexec : o.execute = callOp body)
    (hdyn : o.dynamicGas = some (callGasFunc lists old))
    (hm : C.limit ≠ none → scope.memory.Charged) (hgas : C.Within scope.contract.gas) :
    C.Settles ExecResult.Good (o.executePaid evm (evm.callees runner) op scope) := by
  simp only [Operation.executePaid, hdyn, Operation.executeDynamic]
  cases hsize : o.requiredMemory scope.stack with
  | none => exact L.pure _
  | some size =>
    obtain ⟨words, rfl⟩ := requiredMemory_eq_some hsize
    intro m s hfits hs
    -- With a limit, the price covers the gas stored for the callee and its stipend.
    have hpaid : (callGasFunc lists old evm scope.contract scope.stack scope.memory (words * 32)
        m).Returns fun p ↦ ∀ q ∈ p.1, q.1 ≤ scope.contract.gas →
          C.Within (p.2.callGasTemp + stipend value scope.stack) := by
      cases hlimit : C.limit with
      | none => exact (returns_true _).mono fun _ _ _ _ _ k hk ↦ by simp [hlimit] at hk
      | some k =>
        have hk := L.limit_le k hlimit
        have hcharged := hm (by simp [hlimit])
        refine (returns_callGasFunc hold.cost (hk.trans (by decide)) (.inr hk) scope.stack words m
          hcharged (hgas k hlimit)).mono fun p hp q hq hle ↦ ?_
        obtain ⟨cold, hp⟩ := hp
        obtain ⟨fee, base, _, hprice⟩ := hp q hq
        exact hgas.mono (hprice.handed_le.trans hle)
    refine wp.bind ((L.plain (plain_callGasFunc hold.plain _ _ _ _ _) m s hfits hs).and_returns
      hpaid) ?_
    rintro ⟨cost, m⟩ t ⟨⟨hfits', hst, ht⟩, hwithin⟩
    have hrest : C.wp (o.payDynamic evm (evm.callees runner) op scope (words * 32) cost m) t fun p u ↦
        C.Fits p.2 ∧ C.moves t u ∧ (p.1.Good → C.inv u) := by
      refine wp_payDynamic (fun _ ↦ L.pure _ m t hfits' (ht trivial)) fun q hq hle ↦ ?_
      have hw := hwithin q hq hle
      simp only [Operation.traceExecute, hexec]
      refine wp_query_bind (L.harmless _ t rfl (ht trivial)) fun _ u hu ↦ ?_
      refine (L.callBodyWithGas hrun hbody ?_ m u hfits' hu.2).mono fun _ _ h ↦
        ⟨h.1, L.trans hu.1 h.2.1, h.2.2⟩
      exact hw
    exact hrest.mono fun p u h ↦ ⟨h.1, L.trans hst h.2.1, h.2.2⟩

variable {runner : Runner} (hrun : C.Runs runner) (hcode : runner.LeavesCode)

include hrun hcode

theorem entry (hentry : Entry lists op (jt op))
    (hm : C.limit ≠ none → scope.memory.Charged) (hgas : C.Within scope.contract.gas)
    (hpaid : Params.createGas ≤ (jt op).constantGas → C.limit = none) :
    C.Settles ExecResult.Good ((jt op).executePaid evm (evm.callees runner) op scope) := by
  cases hentry with
  | simple h =>
    exact L.executePaid_of_plain h.gas fun scope' ↦
      settles_of_keeps (L.calm (h.execute evm (evm.callees runner) scope').plain)
  | sload _ he hg _ =>
    refine L.executePaid (fun g hg' _ _ _ _ ↦ ?_) fun scope' ↦ ?_
    · rw [hg] at hg'
      cases hg'
      exact L.plain (.bind (.query rfl) fun _ ↦ .ite (fun _ ↦ .pure _) fun _ ↦
        .bind (.query rfl) fun _ ↦ .pure _)
    · rw [he]
      exact settles_of_keeps (L.calm (tame_opSload evm (evm.callees runner) scope').plain)
  | sstore hop _ _ _ _ _ | oldSstore hop _ _ =>
    subst hop
    exact L.sstore _ scope hgas
  | log size he hg =>
    refine L.executePaid_of_plain hg fun scope' ↦ ?_
    rw [he]
    exact L.makeLog size
  | selfdestruct _ he hg =>
    refine L.executePaid (fun g hg' _ _ _ _ ↦ L.refunding ((hg g hg').plain _ _ _ _ _))
      fun scope' ↦ ?_
    rw [he]
    exact L.opSelfdestruct
  | call he hg => exact L.executePaid_call hrun oldCall_gasCall callBody_call he hg hm hgas
  | callCode he hg => exact L.executePaid_call hrun oldCall_gasCallCode callBody_callCode he hg hm hgas
  | delegateCall he hg =>
    exact L.executePaid_call hrun oldCall_gasDelegateCall callBody_delegateCall he hg hm hgas
  | staticCall he hg =>
    exact L.executePaid_call hrun oldCall_gasStaticCall callBody_staticCall he hg hm hgas
  | create _ he hg hprice =>
    refine L.executePaid_of_plain hg fun scope' ↦ ?_
    rw [he]
    exact L.opCreate hrun hcode (hpaid hprice)
  | create2 _ he hg hprice =>
    refine L.executePaid_of_plain hg fun scope' ↦ ?_
    rw [he]
    exact L.opCreate2 hrun hcode (hpaid hprice)

/-- **One step.** -/
theorem step (hm : C.limit ≠ none → scope.memory.Charged) (hgas : C.Within scope.contract.gas) :
    C.Settles ExecResult.Good (step evm jt (evm.callees runner) scope) := by
  obtain ⟨lists, hjt⟩ := L.entries
  unfold Evm.step
  dsimp only
  split
  · exact L.pure _
  split
  · exact L.pure _
  split
  · exact L.pure _
  · next contract huse =>
    obtain ⟨hprice, rfl⟩ := Contract.useGas_eq_some huse
    refine L.entry hrun hcode (hjt _) hm (hgas.mono (Nat.sub_le _ _)) fun hcreate ↦ ?_
    -- A limit is less than the constant price of a creation.
    cases hlimit : C.limit with
    | none => rfl
    | some k =>
      have hlt := (hgas k hlimit).trans_le (L.limit_le k hlimit)
      exact absurd (hcreate.trans hprice) (not_le.2 (hlt.trans_le (by decide)))

end Steps

/-! ## Runs -/

/-- Code returns at most the gas it was given, where gas is limited. -/
def Bounded (C : CodeSetting σ) (runner : Runner) : Prop :=
  ∀ k, C.limit = some k → runner.BoundedBelow k

/-- The loop, by induction on the number of steps. Where gas is limited, the gas of the frame stays
below the limit and its memory is charged for. -/
theorem runLoop {runner : Runner} (hrun : C.Runs runner) (hcode : runner.LeavesCode)
    (hbound : Bounded C runner) (fuel : Nat) (scope : Scope)
    (hm : C.limit ≠ none → scope.memory.Charged) (hgas : C.Within scope.contract.gas) :
    C.Settles (·.err = none) (runLoop evm jt (evm.callees runner) fuel scope) := by
  induction fuel generalizing scope with
  | zero => exact L.crash rfl
  | succ fuel ih =>
    intro m s hfits hs
    have hspends : (Evm.step evm jt (evm.callees runner) scope m).Returns fun p ↦
        C.limit ≠ none → p.1.Spends scope.contract.gas := by
      cases hlimit : C.limit with
      | none => exact (returns_true _).mono fun _ _ ↦ absurd rfl
      | some k =>
        have hk := L.limit_le k hlimit
        rw [L.selected (by simp [hlimit])]
        exact (spends_step (hbound k hlimit) (hk.trans (by decide)) (.inr hk)
          (hm (by simp [hlimit])) (hgas k hlimit) m).mono fun _ h _ ↦ h
    refine wp.bind ((L.step hrun hcode hm hgas m s hfits hs).and_returns hspends)
      fun ⟨r, m⟩ t ⟨⟨hfits', hst, ht⟩, hr⟩ ↦ ?_
    cases r with
    | next scope' =>
      refine (ih { scope' with pc := add64 scope'.pc 1 } (fun h ↦ (hr h).2) (fun k hk ↦ ?_) m t
        hfits' (ht trivial)).mono fun _ _ ⟨hf, htu, hu⟩ ↦ ⟨hf, L.trans hst htu, hu⟩
      exact lt_of_le_of_lt (hr (by simp [hk])).1 (hgas k hk)
    | halt scope' res err => exact ⟨hfits', hst, ht⟩

theorem frameCode {runner : Runner} (hrun : C.Runs runner) (hcode : runner.LeavesCode)
    (hbound : Bounded C runner) (contract : Contract) (input : Bytes)
    (hgas : C.Within contract.gas) :
    C.Settles (·.err = none) (evm.frameCode jt (evm.callees runner) contract input) := by
  unfold EVM.frameCode
  split
  · exact L.pure _
  · exact L.runLoop hrun hcode hbound _ _ (fun _ ↦ Memory.charged_empty) hgas

omit L in
theorem frame {x : EvmM CallResult} (readOnly : Bool) (hx : C.Settles (·.err = none) x) :
    C.Settles (·.err = none) (do
      let entered ← enterFrame readOnly
      let r ← x
      leaveFrame entered
      return r) := by
  intro m s hm hs
  have hx' := hx { m with
    depth := m.depth + 1, readOnly := m.readOnly || readOnly, returnData := [] } s
      (fun h ↦ by simp [hm h]) hs
  show C.wp ((x >>= fun r ↦ leaveFrame (readOnly && !m.readOnly) >>= fun _ ↦ .pure r) _) s _
  refine wp.bind hx' fun p t ⟨hp, hst, ht⟩ ↦ ⟨fun h ↦ ?_, hst, ht⟩
  -- A frame inside a read-only one does not leave read-only mode.
  have hro := hm h
  simp [hro, hp h]

/-- **Nested runs.** By induction on how deep frames may nest. -/
theorem runnerWith (depth : Nat) : C.Runs (evm.runnerWith jt depth) := by
  have hbound : ∀ depth, Bounded C (evm.runnerWith jt depth) := fun depth k hk ↦ by
    rw [L.selected (by simp [hk])]
    exact bounded_runner ((L.limit_le k hk).trans (by decide)) (.inr (L.limit_le k hk)) depth
  obtain ⟨lists, hjt⟩ := L.entries
  induction depth with
  | zero => exact fun _ _ _ _ ↦ L.crash rfl
  | succ depth ih =>
    intro contract input readOnly hgas
    exact frame readOnly
      (L.frameCode ih (leavesCode_runnerWith hjt evm depth) (hbound depth) contract input hgas)

/-- **All code settles.** -/
theorem interpreterWith : C.Runs (evm.interpreterWith jt) := L.runnerWith maxNesting

end CodeLogic

end GoEntropy.Evm
