import GoEntropy.Chain.StateTransition
import GoEntropy.Evm.Lockstep
import GoEntropy.State.WorldLogic

/-!
# State logics and the state transition

What a message does to the state besides executing is little: its checks read the sender's account
and take the price of the gas off the balance, and settling reads the refund counter and credits two
balances. `uses_preCheck` and `uses_settle` say so. So a state logic carries over from executions to
the whole transition of a message as soon as changes of balances are moves along its relation.
-/

namespace GoEntropy.Chain

open Evm Interaction Prog

def QuietOrBalance : StateOp → Prop
  | .addBalance _ _ => True
  | .subBalance _ _ => True
  | o => Quiet o

def TransitionFault (e : Fault) : Prop := e ≠ .sstoreAddressNotPresent

/-- What checks and settlement call: methods that only read, and changes of balances. -/
def CalmOrBalance : StateOp → Prop
  | .addBalance _ _ => True
  | .subBalance _ _ => True
  | o => Calm o

theorem CalmOrBalance.quietOrBalance {o : StateOp} (h : CalmOrBalance o) : QuietOrBalance o := by
  cases o <;> trivial

/-- What checks and settlement can crash with: a nil pointer, or an overflow of the gas pool. -/
def SettlementFault (e : Fault) : Prop := e = .nilPointer ∨ e = .gasPoolAboveUint64

theorem SettlementFault.transitionFault {e : Fault} (h : SettlementFault e) : TransitionFault e := by
  rintro rfl
  simp [SettlementFault] at h

variable (evm : EVM) (msg : Message)

theorem uses_checkSender : (checkSender evm msg).Uses CalmOrBalance SettlementFault := by
  unfold checkSender
  split
  · exact uses_pure _
  · refine .bind (uses_perform.2 rfl) fun stNonce ↦ ?_
    split
    · exact uses_pure _
    split
    · exact uses_pure _
    split
    · exact uses_pure _
    refine .bind (uses_perform.2 rfl) fun codeHash ↦ ?_
    split <;> exact uses_pure _

theorem uses_orCrash {α : Type} {x : Except Fault α} (hx : ∀ e, x = .error e → SettlementFault e)
    {S : StateOp → Prop} : (orCrash x).Uses S SettlementFault := by
  cases x with
  | ok a => exact uses_pure _
  | error e => exact uses_fault.2 (hx e rfl)

theorem checkFees_error {e : Fault} (h : checkFees evm msg = .error e) : e = .nilPointer := by
  unfold checkFees checkFeeCap at h
  split at h
  · cases h
  cases hcap : msg.gasFeeCap with
  | none => simp [hcap] at h; cases h; rfl
  | some gasFeeCap =>
    cases hbase : evm.context.baseFee with
    | none =>
      simp only [hcap, hbase] at h
      split_ifs at h
      cases h
      rfl
    | some baseFee =>
      simp only [hcap, hbase] at h
      split_ifs at h

theorem effectiveTip_error {e : Fault} (h : effectiveTip evm msg = .error e) : e = .nilPointer := by
  unfold effectiveTip at h
  split at h
  · split at h
    · cases h
    · cases h
      rfl
  · cases h

variable (gp : GasPool)

theorem uses_buyGas : (buyGas msg gp).Uses CalmOrBalance SettlementFault := by
  refine .bind (uses_perform.2 rfl) fun balance ↦ ?_
  split
  · exact uses_pure _
  · split
    · exact uses_pure _
    · exact .bind (uses_perform.2 trivial) fun _ ↦ uses_pure _

theorem uses_preCheck :
    (preCheck evm msg gp).Uses CalmOrBalance SettlementFault := by
  refine .bind (uses_checkSender evm msg) fun r ↦ ?_
  split
  · exact uses_pure _
  · refine .bind (uses_orCrash fun e he ↦ ?_) fun r ↦ ?_
    · rw [checkFees_error evm msg he]
      simp [SettlementFault]
    · split
      · exact uses_pure _
      · exact uses_buyGas msg gp

theorem uses_settle (r : CallResult) :
    (settle evm msg gp r).Uses CalmOrBalance SettlementFault := by
  refine .bind (.bind (uses_perform.2 rfl) fun refund ↦
    .bind (uses_perform.2 trivial) fun _ ↦ .bind (uses_orCrash fun e he ↦ ?_) fun _ ↦
      uses_pure _) fun _ ↦ ?_
  · unfold GasPool.addGas at he
    split at he
    · cases he
      simp [SettlementFault]
    · cases he
  · refine .bind (uses_orCrash fun e he ↦ ?_) fun _ ↦
      .bind (uses_perform.2 trivial) fun _ ↦ uses_pure _
    rw [effectiveTip_error evm msg he]
    simp [SettlementFault]

section Runs

variable {σ : Type} {h : Handler StateInterface Fault σ}

theorem run_lift_bind {α β : Type} {x : Evm.StateM α} {f : α → EvmM β} {m : Machine} {s : σ}
    {p : (β × Machine) × σ} (hrun : ((lift x >>= f) m).run h s = .ok p) :
    ∃ a s', x.run h s = .ok (a, s') ∧ (f a m).run h s' = .ok p := by
  obtain ⟨q, s', hx, hf⟩ := run_bind_ok hrun
  obtain ⟨a, s'', ha, hpure⟩ := run_bind_ok hx
  cases hpure
  exact ⟨a, s', ha, hf⟩

/-- **What a message that is applied goes through**: it passes the checks, its gas covers the
intrinsic gas, the sender can pay the value, it is executed, and it is settled. -/
theorem run_transitionDb {evm : EVM} {msg : Message} {gp gp' : GasPool} {m m' : Machine} {s s' : σ}
    {result : ExecutionResult}
    (hrun : (transitionDb evm msg gp m).run h s = .ok (((gp', .ok result), m'), s')) :
    ∃ gp₁ s₁ gas s₂ r s₃,
      (preCheck evm msg gp).run h s = .ok (.ok gp₁, s₁) ∧
      GoEntropy.intrinsicGas msg.data msg.accessList msg.toAddr.isNone evm.chainRules.isHomestead =
        some gas ∧ gas ≤ msg.gasLimit.toNat ∧
      (canPay msg.sender msg.amount).run h s₁ = .ok (true, s₂) ∧
      (execute evm msg (msg.gasLimit.toNat - gas) m).run h s₂ = .ok ((r, m'), s₃) ∧
      (settle evm msg gp₁ r).run h s₃ = .ok ((gp', result), s') := by
  obtain ⟨checked, s₁, hcheck, hrun⟩ := run_lift_bind hrun
  cases checked with
  | error e => cases hrun
  | ok gp₁ =>
    dsimp only [transitionCheckedWith] at hrun
    cases hgas : GoEntropy.intrinsicGas msg.data msg.accessList msg.toAddr.isNone
        evm.chainRules.isHomestead with
    | none => rw [hgas] at hrun; cases hrun
    | some gas =>
      rw [hgas] at hrun
      dsimp only at hrun
      split at hrun
      · cases hrun
      · next hle =>
        obtain ⟨ok, s₂, hpay, hrun⟩ := run_lift_bind hrun
        cases ok with
        | false => cases hrun
        | true =>
          obtain ⟨⟨r, m₁⟩, s₃, hexec, hrun⟩ := run_bind_ok hrun
          obtain ⟨⟨gp₂, result'⟩, s₄, hsettle, hrun⟩ := run_lift_bind hrun
          cases hrun
          exact ⟨gp₁, s₁, gas, s₂, r, s₃, hcheck, rfl, not_lt.1 hle, hpay, hexec, hsettle⟩

end Runs

section StateLogic

variable {evm} {σ : Type} {h : Handler StateInterface Fault σ} {A G : StateOp → σ → Prop}
  {E : Fault → Prop} {T : σ → σ → Prop} {Fit : List Address → σ → Prop}
  {Can : Address → Nat → σ → Prop} (L : StateLogic evm h A G E T Fit Can)

include L

theorem wp_execute (gas : Nat) {m : Machine} (hm : m.depth = 0) (s : σ) :
    (execute evm msg gas m).wp h A G E s fun _ t ↦ T s t := by
  unfold execute executeWith
  cases msg.toAddr with
  | none =>
    exact wp.bind (L.create L.interpreter msg.sender msg.data gas msg.amount m s)
      fun _ _ ht ↦ ht
  | some toAddr =>
    refine wp_query_bind (L.quiet (.getNonce msg.sender) s (.inl rfl)) fun nonce t ht ↦ ?_
    refine wp_query_bind (L.quiet (.setNonce msg.sender (nonce + 1)) t (.inl rfl)) fun _ u hu ↦ ?_
    exact (L.call L.outcome L.interpreter msg.sender toAddr msg.data gas msg.amount m u (.inl hm)).mono
      fun _ _ hv ↦ L.trans ht.1 (L.trans hu.1 hv)

/-- If changes of balances are moves along the relation, then so is a whole transition. -/
theorem wp_transitionDb
    (hbalance : ∀ o s, QuietOrBalance o → (ask o).wp h A G E s fun _ t ↦ T s t)
    (gp : GasPool) {m : Machine} (hm : m.depth = 0) (s : σ) :
    (transitionDb evm msg gp m).wp h A G E s fun _ t ↦ T s t := by
  have huses : ∀ {α : Type} {x : StateM α}, x.Uses CalmOrBalance SettlementFault → ∀ s,
      x.wp h A G E s fun _ t ↦ T s t := fun hx s ↦
    wp_of_uses L.refl (fun _ _ _ ↦ L.trans)
      (fun o ho s ↦ wp_perform.1 (hbalance o s ho.quietOrBalance))
      (hx.mono (fun _ ho ↦ ho) fun e he ↦ L.fault e he.transitionFault) s
  refine wp_lift_bind (huses (uses_preCheck evm msg gp) s) fun r t hst ↦ ?_
  split
  · exact hst
  unfold transitionCheckedWith
  cases GoEntropy.intrinsicGas msg.data msg.accessList msg.toAddr.isNone
      evm.chainRules.isHomestead with
  | none => exact hst
  | some gas =>
    dsimp only
    split
    · exact hst
    refine wp_lift_bind (L.canPay L.outcome msg.sender msg.amount t) fun ok u ⟨htu, _⟩ ↦ ?_
    have hsu := L.trans hst htu
    split
    · refine wp.bind (wp_execute msg L _ hm u) fun p v huv ↦ ?_
      refine wp_lift_bind (huses (uses_settle evm msg _ p.1) v) fun q w hvw ↦ ?_
      exact L.trans hsu (L.trans huv hvw)
    · exact hsu

end StateLogic

/-! ## Invariants -/

section CodeLogic

variable {evm} {σ : Type} {jt : JumpTable} {C : CodeSetting σ} (L : CodeLogic evm jt C)
  (hbalance : ∀ o s, CalmOrBalance o → C.inv s → C.Passes (ask o) s)
  (hpool : C.fault .gasPoolAboveUint64)

include L hbalance hpool

omit msg in
/-- Checks and settlement keep an invariant that changes of balances keep. -/
theorem passes_of_uses {α : Type} {x : Evm.StateM α} (hx : x.Uses CalmOrBalance SettlementFault)
    (s : σ) (hs : C.inv s) : C.Passes x s := by
  induction x generalizing s with
  | pure a => exact ⟨L.refl s hs, hs⟩
  | fault e =>
    rcases hx with rfl | rfl
    · exact L.fault .nilPointer rfl
    · exact hpool
  | call o k ih =>
    refine wp.bind (hbalance o s hx.1 hs) fun r t ⟨hst, ht⟩ ↦ ?_
    exact (ih r (hx.2 r) t ht).mono fun _ u ⟨htu, hu⟩ ↦ ⟨L.trans hst htu, hu⟩

omit hbalance hpool in
/-- A message executes with the invariant kept, from where the sender's nonce can be raised. -/
theorem wp_executeWith (hwrite : C.readOnly = false) (hlimit : C.limit = none) {Ready : σ → Prop}
    (hnonce : ∀ s, C.inv s → Ready s → C.wp (ask (.getNonce msg.sender)) s fun nonce t ↦
      C.moves s t ∧ C.inv t ∧ C.Passes (ask (.setNonce msg.sender (nonce + 1))) t)
    (gas : Nat) {m : Machine} (hm : C.Fits m) {s : σ} (hs : C.inv s) (hready : Ready s) :
    C.wp (executeWith evm msg jt gas m) s fun p t ↦ C.Fits p.2 ∧ C.moves s t ∧ C.inv t := by
  obtain ⟨lists, hentries⟩ := L.entries
  have hwithin : C.Within gas := fun k hk ↦ by rw [hlimit] at hk; cases hk
  have hro : C.readOnly = true → msg.amount = 0 := fun h ↦ by rw [hwrite] at h; cases h
  have hrun := L.interpreterWith
  unfold executeWith
  cases msg.toAddr with
  | none =>
    have hcreate : C.Keeps (evm.create (evm.interpreterWith jt) msg.sender msg.data gas msg.amount) :=
      L.andThen (L.harmlessQuery (.getNonce msg.sender) rfl) fun nonce ↦
        L.create hwrite hlimit hrun (leavesCode_runnerWith hentries evm maxNesting) msg.sender
          msg.data 0 gas msg.amount _ .create (.inl rfl)
    exact wp.bind (hcreate m s hm hs) fun _ _ ⟨hm', hst, ht⟩ ↦ ⟨hm', hst, ht trivial⟩
  | some toAddr =>
    refine wp_query_bind (hnonce s hs hready) fun nonce t ⟨hst, _, hset⟩ ↦ ?_
    refine wp_query_bind hset fun _ u ⟨htu, hu⟩ ↦ ?_
    refine (L.entryLogic.call (hrun.at_gas hwithin) msg.sender toAddr msg.data hro m u hm hu).mono
      fun _ v ⟨hm', huv, hv⟩ ↦ ⟨hm', L.trans hst (L.trans htu huv), hv trivial⟩

/-- **A whole transition keeps an invariant** that running code and changes of balances keep. The checks
may establish what raising the sender's nonce needs. -/
theorem keeps_transitionDbWith (hwrite : C.readOnly = false) (hlimit : C.limit = none)
    (Ready : σ → Prop) (gp : GasPool)
    (hcheck : ∀ s, C.inv s → C.wp (preCheck evm msg gp) s fun r t ↦
      C.moves s t ∧ C.inv t ∧ ∀ gp', r = .ok gp' → Ready t)
    (hpay : ∀ s, C.inv s → Ready s → C.wp (canPay msg.sender msg.amount) s fun _ t ↦
      C.moves s t ∧ C.inv t ∧ Ready t)
    (hnonce : ∀ s, C.inv s → Ready s → C.wp (ask (.getNonce msg.sender)) s fun nonce t ↦
      C.moves s t ∧ C.inv t ∧ C.Passes (ask (.setNonce msg.sender (nonce + 1))) t) :
    C.Keeps (transitionDbWith evm msg jt gp) := by
  intro m s hm hs
  refine wp_lift_bind (hcheck s hs) fun checked t ⟨hst, ht, hready⟩ ↦ ?_
  cases checked with
  | error e => exact ⟨hm, hst, fun _ ↦ ht⟩
  | ok gp =>
    unfold transitionCheckedWith
    cases GoEntropy.intrinsicGas msg.data msg.accessList msg.toAddr.isNone
        evm.chainRules.isHomestead with
    | none => exact ⟨hm, hst, fun _ ↦ ht⟩
    | some gas =>
      dsimp only
      split
      · exact ⟨hm, hst, fun _ ↦ ht⟩
      refine wp_lift_bind (hpay t ht (hready gp rfl)) fun ok u ⟨htu, hu, hready⟩ ↦ ?_
      have hsu := L.trans hst htu
      split
      · refine wp.bind (wp_executeWith msg L hwrite hlimit hnonce _ hm hu hready)
          fun r v ⟨hm', huv, hv⟩ ↦ ?_
        refine wp_lift_bind (passes_of_uses L hbalance hpool (uses_settle evm msg gp r.1) v hv)
          fun _ w ⟨hvw, hw⟩ ↦ ?_
        exact ⟨hm', L.trans hsu (L.trans huv hvw), fun _ ↦ hw⟩
      · exact ⟨hm, hsu, fun _ ↦ hu⟩

end CodeLogic

theorem keeps_transitionDbWith_of_world {evm : EVM} {jt : JumpTable} {W : State.WorldSetting}
    (L : State.WorldLogic evm jt W) (hwrite : W.readOnly = false) (hlimit : W.limit = none)
    (hpool : W.fault .gasPoolAboveUint64) (gp : GasPool) :
    W.toCode.Keeps (transitionDbWith evm msg jt gp) := by
  have hbalance : ∀ o t, CalmOrBalance o → W.toCode.inv t → W.toCode.Passes (ask o) t := by
    intro o t ho ht
    by_cases hcalm : Calm o
    · exact L.harmless o t hcalm.harmless ht
    cases o with
    | addBalance a x => exact L.passes_modify ht rfl fun _ ↦ L.addBalance hwrite a x t.now ht
    | subBalance a x => exact L.passes_modify ht rfl fun _ ↦ L.addBalance hwrite a (-x) t.now ht
    | _ => exact absurd ho hcalm
  refine keeps_transitionDbWith msg L.codeLogic hbalance hpool hwrite hlimit (fun _ ↦ True) gp
    (fun t ht ↦ ?_) (fun t ht _ ↦ ?_) fun t ht _ ↦ ?_
  · exact (passes_of_uses L.codeLogic hbalance hpool (uses_preCheck evm msg gp) t ht).mono
      fun _ _ ⟨htu, hu⟩ ↦ ⟨htu, hu, fun _ _ ↦ trivial⟩
  · exact (L.codeLogic.canPay msg.sender msg.amount t ht).mono fun _ _ ⟨htu, hu⟩ ↦ ⟨htu, hu, trivial⟩
  · refine (L.harmless (.getNonce msg.sender) t rfl ht).mono fun nonce u ⟨htu, hu⟩ ↦ ⟨htu, hu, ?_⟩
    exact L.passes_modify hu rfl fun _ ↦ L.setNonce hwrite hlimit msg.sender (nonce + 1) u.now hu

/-! ## Lockstep -/

section Lockstep

variable {lists : Bool} {a b : Nat}

theorem related_of_uses {α : Type} {x : Evm.StateM α} (hx : x.Uses CalmOrBalance SettlementFault) :
    x.Related (shifted lists a b) Eq x := by
  refine Prog.related_of_uses (fun o ho ↦ shifted_shared ?_) hx
  cases o <;> first | rfl | cases ho

theorem lockstep_execute (gas : Nat) :
    InStep (usesAccessList evm.chainRules) a b Level (execute evm msg gas) := by
  have hrun := @lockstep_interpreter a b evm
  unfold execute executeWith
  cases msg.toAddr with
  | none =>
    exact (lockstep_create (fun _ _ hm ↦ hm.depth) hrun _ _ _ _).bind fun _ ↦ .pure _
  | some toAddr =>
    refine .bind (lockstep_query rfl) fun nonce ↦ .bind (lockstep_query rfl) fun _ ↦ ?_
    exact (lockstep_entryLogic fun _ _ hm ↦ hm.depth).call (fun c i r _ ↦ hrun c i r) _ _ _ trivial

/-- **A message is in lockstep with itself**, whatever the previous one left in the registers. -/
theorem lockstep_transitionDb :
    InStep (usesAccessList evm.chainRules) a b Level (transitionDb evm msg gp) := by
  refine (Lockstep.lift (related_of_uses (uses_preCheck evm msg gp))).bind fun checked ↦ ?_
  cases checked with
  | error e => exact .pure _
  | ok gp =>
    unfold transitionCheckedWith
    cases GoEntropy.intrinsicGas msg.data msg.accessList msg.toAddr.isNone
        evm.chainRules.isHomestead with
    | none => exact .pure _
    | some gas =>
      refine .ite (fun _ ↦ .pure _) fun _ ↦ ?_
      refine (Lockstep.lift (related_canPay _ _)).bind fun ok ↦ .ite (fun _ ↦ ?_) fun _ ↦ .pure _
      refine (lockstep_execute evm msg _).bind fun r ↦ ?_
      exact (Lockstep.lift (related_of_uses (uses_settle evm msg gp r))).bind fun _ ↦ .pure _

end Lockstep

end GoEntropy.Chain
