import GoEntropy.Evm.CodeLogic
import GoEntropy.State.Rollback

/-!
# Invariants of worlds

What running code does to a timeline, apart from taking snapshots and going back to them, it does to
the current world. So an invariant of worlds gives a code logic over timelines as soon as each change
of a world that an execution makes keeps it (`WorldLogic.codeLogic`); that snapshots bring it back is
a fact about timelines and needs no proof of its own.

Creations are derived here too. They raise the caller's nonce before the snapshot and store code at the
end, and the one error that is not undone, a constructor that cannot pay for its code before
Homestead, comes after a constructor that succeeded.
-/

namespace GoEntropy.State

open Evm Interaction Timeline

/-! ## Harmless methods -/

variable {o : StateOp}

/-- A harmless method answers, or crashes as code itself can. It leaves all of the world but the access
list and the preimages. -/
theorem Timeline.handler_harmless {C : Crypto} (ho : Harmless o) (t : Timeline) :
    (∃ e, handler C o t = .error e ∧ e.isLocal = true) ∨
      ∃ r accessList preimages, handler C o t = .ok (r, t.modify fun w ↦
        { w with accessList := accessList, preimages := preimages }) := by
  have hsame : t = t.modify fun w ↦
      { w with accessList := t.now.accessList, preimages := t.now.preimages } :=
    (modify_eq_self rfl).symm
  have hread : ∀ {r : o.Res}, handler C o t = .ok (r, t) →
      ∃ r accessList preimages, handler C o t = .ok (r, t.modify fun w ↦
        { w with accessList := accessList, preimages := preimages }) :=
    fun {r} h ↦ ⟨r, t.now.accessList, t.now.preimages, by rw [h, ← hsame]⟩
  cases o with
  | getBalance | getNonce | getCodeHash | getCode | getCodeSize | getRefund | getCommittedState
  | getState | hasSuicided | exist | empty | addressInAccessList | captureState | captureStart
  | captureEnter => exact .inr (hread rfl)
  | slotInAccessList a k =>
    simp only [handler]
    cases hc : t.now.accessList.contains a k with
    | error e => exact .inl ⟨e, rfl, by rw [AccessList.contains_error hc]; rfl⟩
    | ok x => exact .inr ⟨x, t.now.accessList, t.now.preimages, by rw [← hsame]; rfl⟩
  | addAddressToAccessList a =>
    exact .inr ⟨(), (t.now.accessList.addAddress a).2, t.now.preimages, rfl⟩
  | addSlotToAccessList a k =>
    simp only [handler]
    cases hadd : t.now.accessList.addSlot a k with
    | error e => exact .inl ⟨e, rfl, by rw [AccessList.addSlot_error hadd]; rfl⟩
    | ok x => exact .inr ⟨(), x.2.2, t.now.preimages, rfl⟩
  | addPreimage h p =>
    refine .inr ⟨(), t.now.accessList, (t.now.addPreimage h p).preimages, ?_⟩
    have hadd : t.now.addPreimage h p =
        { t.now with preimages := (t.now.addPreimage h p).preimages } := by
      unfold World.addPreimage
      split <;> rfl
    show .ok ((), t.modify _) = Except.ok ((), t.modify _)
    unfold modify
    dsimp only
    rw [hadd]
  | _ => cases ho

/-! ## Settings -/

/-- What is shown about the worlds that running code goes through. -/
structure WorldSetting where
  crypto : Crypto
  assume : StateOp → World → Prop
  guarantee : StateOp → World → Prop
  fault : Fault → Prop
  readOnly : Bool
  limit : Option Nat
  /-- The world before and the world after, of frames that fail as well. -/
  moves : World → World → Prop
  inv : World → Prop

namespace WorldSetting

variable (W : WorldSetting)

def toCode : CodeSetting Timeline where
  handler := Timeline.handler W.crypto
  assume o t := W.assume o t.now
  guarantee o t := W.guarantee o t.now
  fault := W.fault
  readOnly := W.readOnly
  limit := W.limit
  moves t u := t.Extends u ∧ W.moves t.now u.now
  inv t := W.inv t.now

/-- A change of the world that keeps the invariant. -/
structure Step (w w' : World) : Prop where
  moves : W.moves w w'
  inv : W.inv w'

end WorldSetting

/-- What it takes to put programs together, and to call harmless methods. -/
structure WorldRules (W : WorldSetting) : Prop where
  refl : ∀ w, W.moves w w
  trans : ∀ {w w' w''}, W.moves w w' → W.moves w' w'' → W.moves w w''
  fault : ∀ e, e.isLocal = true → W.fault e
  guarantee : ∀ o w, W.inv w → W.guarantee o w
  lists : ∀ w accessList preimages, W.inv w →
    W.Step w { w with accessList := accessList, preimages := preimages }

/-- An invariant of worlds that running code keeps, change by change. -/
structure WorldLogic (evm : EVM) (jt : JumpTable) (W : WorldSetting) : Prop extends
    WorldRules W where
  entries : ∃ lists, ∀ op, Entry lists op (jt op)
  limit_le : ∀ k, W.limit = some k → k ≤ coldSurcharge
  selected : W.limit ≠ none → jt = selectJumpTable evm.chainRules
  /-- A frame that failed is undone. -/
  undo : ∀ id w w', W.inv w → W.moves w w' → W.guarantee (.revertToSnapshot id) w'
  addRefund : ∀ gas w, W.assume (.addRefund gas) w → W.inv w →
    W.Step w { w with refund := add64 w.refund gas }
  sstore : ∀ callees scope, W.toCode.Within scope.contract.gas →
    W.toCode.Settles ExecResult.Good ((jt .sstore).executePaid evm callees .sstore scope)
  touch : ∀ a w, W.inv w → W.Step w (w.addBalance W.crypto a 0)
  /-- A call creates the account it finds absent. -/
  account : ∀ a w, w.accounts a = none → W.inv w → W.Step w (w.createAccount W.crypto a)
  addBalance : W.readOnly = false → ∀ a x w, W.inv w → W.Step w (w.addBalance W.crypto a x)
  suicide : W.readOnly = false → ∀ a w, W.inv w → W.Step w (w.suicide a).2
  addLog : W.readOnly = false → ∀ log w, W.inv w → W.Step w (w.addLog log)
  setNonce : W.readOnly = false → W.limit = none → ∀ a n w, W.inv w →
    W.Step w (w.setNonce W.crypto a n)
  setCode : W.readOnly = false → W.limit = none → ∀ a code w, W.inv w →
    W.Step w (w.setCode W.crypto a code)
  createAccount : W.readOnly = false → W.limit = none → ∀ a w, W.inv w →
    W.Step w (w.createAccount W.crypto a)

namespace WorldRules

variable {W : WorldSetting} (L : WorldRules W)

include L

variable {t : Timeline}

theorem passes_modify {r : o.Res} {f : World → World}
    (ht : W.inv t.now) (h : handler W.crypto o t = .ok (r, t.modify f))
    (hstep : W.assume o t.now → W.Step t.now (f t.now)) : W.toCode.Passes (ask o) t :=
  CodeSetting.ask_of_ok (L.guarantee o _ ht) h fun hA ↦
    ⟨⟨t.extends_modify f, (hstep hA).moves⟩, (hstep hA).inv⟩

theorem passes_read {r : o.Res} (ht : W.inv t.now)
    (h : handler W.crypto o t = .ok (r, t)) : W.toCode.Passes (ask o) t :=
  CodeSetting.ask_of_ok (L.guarantee o _ ht) h fun _ ↦ ⟨⟨.refl t, L.refl t.now⟩, ht⟩

theorem harmless (o : StateOp) (t : Timeline) (ho : Harmless o) (ht : W.inv t.now) :
    W.toCode.Passes (ask o) t := by
  rcases handler_harmless ho t with ⟨e, h, he⟩ | ⟨r, al, pre, h⟩
  · exact CodeSetting.ask_of_error (L.guarantee o _ ht) h (L.fault e he)
  · exact L.passes_modify ht h fun _ ↦ L.lists t.now al pre ht

theorem moves_trans {t u v : Timeline} (htu : W.toCode.moves t u) (huv : W.toCode.moves u v) :
    W.toCode.moves t v :=
  ⟨htu.1.trans huv.1, L.trans htu.2 huv.2⟩

theorem codeRules : CodeRules W.toCode where
  refl t _ := ⟨.refl t, L.refl t.now⟩
  trans := L.moves_trans
  fault := L.fault
  harmless o t ho ht := L.harmless o t ho ht

end WorldRules

namespace WorldLogic

variable {evm : EVM} {jt : JumpTable} {W : WorldSetting} (L : WorldLogic evm jt W)

include L

theorem snapshot (t : Timeline) (ht : W.inv t.now) :
    W.toCode.wp (ask .snapshot) t fun id u ↦ W.toCode.moves t u ∧ W.toCode.inv u ∧
      ∀ v, W.toCode.moves u v → W.toCode.wp (ask (.revertToSnapshot id)) v fun _ x ↦
        W.toCode.moves t x ∧ W.toCode.inv x := by
  refine CodeSetting.ask_of_ok (L.guarantee .snapshot _ ht) rfl fun _ ↦
    ⟨⟨t.extends_snapshot, L.refl t.now⟩, ht, fun v hv ↦ ?_⟩
  obtain ⟨x, hx, hnow, htx⟩ := revertToSnapshot_of_extends hv.1
  have hmoves : W.moves t.now v.now := hv.2
  have hrevert : handler W.crypto (.revertToSnapshot t.snapshot.1) v = .ok ((), x) := by
    rw [handler, hx]
    rfl
  refine CodeSetting.ask_of_ok (L.undo _ _ _ ht hmoves) hrevert fun _ ↦ ?_
  refine ⟨⟨htx, ?_⟩, ?_⟩
  · rw [hnow]
    exact L.refl t.now
  · show W.inv x.now
    rw [hnow]
    exact ht

theorem transfer (caller addr : Address) (value : Nat) (t : Timeline)
    (hvalue : W.readOnly = true → value = 0) (ht : W.inv t.now) :
    W.toCode.Passes (transfer caller addr value) t := by
  have hadd : ∀ a (x : ℤ) w, (W.readOnly = true → x = 0) → W.inv w →
      W.Step w (w.addBalance W.crypto a x) := by
    intro a x w hx hw
    cases hro : W.readOnly with
    | true => rw [hx hro]; exact L.touch a w hw
    | false => exact L.addBalance hro a x w hw
  refine Prog.wp.bind (L.passes_modify ht rfl fun _ ↦
    hadd caller (-value) t.now (fun h ↦ by simp [hvalue h]) ht) fun _ u ⟨htu, hu⟩ ↦ ?_
  refine (L.passes_modify hu rfl fun _ ↦
    hadd addr value u.now (fun h ↦ by simp [hvalue h]) hu).mono fun _ v ⟨huv, hv⟩ ↦ ?_
  exact ⟨L.moves_trans htu huv, hv⟩

theorem destruct (hwrite : W.readOnly = false) (self beneficiary : Address) :
    W.toCode.Keeps (destruct self beneficiary) := by
  intro m t hm ht
  refine wp_query_bind (L.harmless (.getBalance self) t rfl ht) fun balance u ⟨htu, hu⟩ ↦ ?_
  refine wp_query_bind (L.passes_modify hu rfl fun _ ↦
    L.addBalance hwrite beneficiary balance u.now hu) fun _ v ⟨huv, hv⟩ ↦ ?_
  refine wp_query_bind (L.passes_modify hv rfl fun _ ↦
    L.suicide hwrite self v.now hv) fun _ w ⟨hvw, hw⟩ ↦ ?_
  refine Prog.wp_map.2 ((L.passes_read
    hw rfl).mono fun _ x ⟨hwx, hx⟩ ↦ ?_)
  exact ⟨hm, L.moves_trans htu (L.moves_trans huv (L.moves_trans hvw hwx)), fun _ ↦ hx⟩

/-! ## Creations -/

section Creations

variable (hwrite : W.readOnly = false) (hlimit : W.limit = none) {runner : Runner}
  (hrun : W.toCode.Runs runner) (hcode : runner.LeavesCode)

theorem captureFrame_create (typ : OpCode) (src dest : Address) (value : Nat) :
    W.toCode.Keeps (captureFrame typ true src dest value) := by
  intro m t hm ht
  rw [StateLogic.captureFrame_apply]
  split
  iterate 2
    exact CodeRules.keeps_query (fun t ht ↦
      L.passes_read ht rfl) m t hm ht

include hwrite hlimit

/-- Storing the code of a constructor. It settles, and if it cannot pay for the code, it has changed
nothing after a constructor that succeeded. -/
theorem storeCode (address : Address) {r : CallResult} (herr : r.err ≠ some .codeStoreOutOfGas)
    {m : Machine} (hm : W.toCode.Fits m) {t : Timeline} (ht : r.err = none → W.inv t.now) :
    W.toCode.wp (evm.storeCode address r m) t fun p u ↦ W.toCode.Fits p.2 ∧
      W.toCode.moves t u ∧ (p.1.err = none ∨ p.1.err = some .codeStoreOutOfGas → W.inv u.now) := by
  have hrefl : W.toCode.moves t t := ⟨.refl t, L.refl t.now⟩
  refine wp_storeCode herr (fun err hne ↦ ⟨hm, hrefl, fun h ↦ ?_⟩)
    (fun hnone ↦ ⟨hm, hrefl, fun _ ↦ ht hnone⟩) fun hnone ↦ ?_
  · rcases h with h | h
    · cases h
    · exact absurd (Option.some_inj.1 h) hne
  · exact (L.passes_modify (ht hnone) rfl fun _ ↦
      L.setCode hwrite hlimit address r.ret t.now (ht hnone)).mono
        fun _ u ⟨htu, hu⟩ _ ↦ ⟨hm, htu, fun _ ↦ hu⟩

include hrun hcode

theorem enterCreate (caller : Address) (code : Bytes) (codeHash : Hash) (gas value : Nat)
    (address : Address) (typ : OpCode) :
    W.toCode.Keeps (evm.enterCreate runner caller code codeHash gas value address typ) := by
  intro m t hm ht
  refine wp_query_bind (L.snapshot t ht) fun id u ⟨htu, hu, hrevert⟩ ↦ ?_
  refine wp_query_bind (L.passes_modify hu rfl fun _ ↦
    L.createAccount hwrite hlimit address u.now hu) fun _ v ⟨huv, hv⟩ ↦ ?_
  refine wp_lift_bind (L.transfer caller address value v (fun h ↦ by simp [hwrite] at h) hv)
    fun _ w ⟨hvw, hw⟩ ↦ ?_
  refine Prog.wp.bind (L.captureFrame_create typ caller address value m w hm hw)
    fun p x ⟨hmx, hwx, hx⟩ ↦ ?_
  have hwithin : W.toCode.Within gas := fun k hk ↦ by
    rw [show W.toCode.limit = none from hlimit] at hk
    cases hk
  refine Prog.wp.bind ((hrun ⟨caller, address, code, codeHash, some address, [], gas, value⟩ []
    false hwithin p.2 x hmx (hx trivial)).and_returns (hcode _ _ _ p.2))
    fun q y ⟨⟨hmy, hxy, hy⟩, herr⟩ ↦ ?_
  refine Prog.wp.bind (L.storeCode hwrite hlimit address herr hmy hy)
    fun q z ⟨hmz, hyz, hz⟩ ↦ ?_
  have huz := L.moves_trans huv (L.moves_trans hvw (L.moves_trans hwx (L.moves_trans hxy hyz)))
  have htz := L.moves_trans htu huz
  refine Prog.wp.bind (P := fun (p : CallResult × Machine) u ↦
    W.toCode.Fits p.2 ∧ W.toCode.moves t u ∧ W.inv u.now) ?_ fun _ _ ⟨hm', h, h'⟩ ↦
      ⟨hm', h, fun _ ↦ h'⟩
  exact wp_settleCreate (fun h ↦ ⟨hmz, htz, hz h⟩)
    ((hrevert z huz).mono fun _ _ hv _ ↦ ⟨hmz, hv⟩)

theorem createAt (caller : Address) (code : Bytes) (codeHash : Hash) (gas value : Nat)
    (address : Address) (typ : OpCode) :
    W.toCode.Keeps (evm.createAt runner caller code codeHash gas value address typ) := by
  intro m t hm ht
  have hcan : W.toCode.Passes (canTransfer caller value) t :=
    Prog.wp.bind (L.harmless (.getBalance caller) t rfl ht) fun _ _ h ↦ h
  unfold EVM.createAt
  rw [readRegister_bind]
  split
  · exact ⟨hm, ⟨.refl t, L.refl t.now⟩, fun _ ↦ ht⟩
  refine wp_lift_bind hcan fun ok u ⟨htu, hu⟩ ↦ ?_
  cases ok with
  | false => exact ⟨hm, htu, fun _ ↦ hu⟩
  | true =>
    refine wp_query_bind (L.harmless (.getNonce caller) u rfl hu) fun nonce v ⟨huv, hv⟩ ↦ ?_
    have htv := L.moves_trans htu huv
    split
    · exact ⟨hm, htv, fun _ ↦ hv⟩
    refine wp_query_bind (L.passes_modify (o := .setNonce caller (nonce + 1)) hv rfl fun _ ↦
      L.setNonce hwrite hlimit caller (nonce + 1) v.now hv) fun _ w ⟨hvw, hw⟩ ↦ ?_
    refine wp_query_bind (L.harmless (.getCodeHash address) w rfl hw) fun _ x ⟨hwx, hx⟩ ↦ ?_
    refine wp_query_bind (L.harmless (.getNonce address) x rfl hx) fun _ y ⟨hxy, hy⟩ ↦ ?_
    have hty := L.moves_trans htv (L.moves_trans hvw (L.moves_trans hwx hxy))
    split
    · exact ⟨hm, hty, fun _ ↦ hy⟩
    · refine (L.enterCreate hwrite hlimit hrun hcode caller code codeHash gas value address typ m y
        hm hy).mono fun _ z ⟨hm', hyz, hz⟩ ↦ ?_
      exact ⟨hm', L.moves_trans hty hyz, hz⟩

end Creations

/-- **An invariant of worlds is one of running code.** -/
theorem codeLogic : CodeLogic evm jt W.toCode where
  toCodeRules := L.codeRules
  entries := L.entries
  limit_le := L.limit_le
  selected := L.selected
  addRefund gas t ht := L.passes_modify ht rfl fun hA ↦ L.addRefund gas t.now hA ht
  sstore := L.sstore
  addLog hwrite log t ht := L.passes_modify ht rfl fun _ ↦ L.addLog hwrite log t.now ht
  destruct hwrite self beneficiary := L.destruct hwrite self beneficiary
  transfer := L.transfer
  touch a t ht := L.passes_modify ht rfl fun _ ↦ L.touch a t.now ht
  account a t ht := by
    refine CodeSetting.ask_of_ok (L.guarantee (.exist a) _ ht) rfl fun _ ↦
      ⟨⟨.refl t, L.refl t.now⟩, ht, fun habsent ↦ ?_⟩
    have hnone : t.now.accounts a = none := by
      cases h : t.now.accounts a with
      | none => rfl
      | some acc => simp [World.read, h] at habsent
    exact L.passes_modify ht rfl fun _ ↦ L.account a t.now hnone ht
  snapshot := L.snapshot
  create hwrite hlimit _ hrun hcode caller code codeHash gas value address typ _ :=
    L.createAt hwrite hlimit hrun hcode caller code codeHash gas value address typ

end WorldLogic

end GoEntropy.State
