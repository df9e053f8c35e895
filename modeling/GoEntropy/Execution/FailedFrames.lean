import GoEntropy.Evm.StateLogic
import GoEntropy.State.Reachable
import GoEntropy.State.Rollback
import GoEntropy.Chain.StateTransition

/-!
# Failed frames

Every entry point of the virtual machine takes a snapshot before it changes anything, and goes back to
it if the frame fails. Between the two runs arbitrary code, with snapshots of its own. All that
matters about it is that it leaves the older snapshots alone (`extendsLogic`): then going back
restores the world of the entry, whatever happened in the frame.

A creation raises its caller's nonce before the snapshot, so that change stays. Two things follow
from where the checks stand. A creation that stops before the snapshot because the caller's nonce
cannot be raised returns all of its gas. And raising the nonce of a caller without an account brings
the account into being, which going back does not undo.
-/

namespace GoEntropy.Execution

open Evm Interaction State StateDB

/-! ## Code leaves older snapshots alone -/

section Timelines

variable {C : Crypto} {evm : EVM}

/-- The weakest precondition without assumptions, guarantees or forbidden faults. -/
abbrev freeWp {α : Type} (C : Crypto) (x : Evm.StateM α) (t : Timeline)
    (Q : α → Timeline → Prop) : Prop :=
  x.wp (Timeline.handler C) (fun _ _ ↦ True) (fun _ _ ↦ True) (fun _ ↦ True) t Q

theorem free_ask {o : StateOp} (ho : ∀ id, o ≠ .revertToSnapshot id) (t : Timeline) :
    freeWp C (ask o) t fun _ u ↦ t.Extends u := by
  refine Prog.wp_perform.2 fun _ ↦ ⟨trivial, ?_⟩
  cases h : Timeline.handler C o t with
  | error e => trivial
  | ok p => exact Timeline.handler_extends o ho h

/-- Programs that never go back to a snapshot leave the older ones alone. -/
theorem free_of_uses {α : Type} {x : Evm.StateM α}
    (hx : x.Uses (fun o : StateOp ↦ ∀ id, o ≠ .revertToSnapshot id) fun _ ↦ True) (t : Timeline) :
    freeWp C x t fun _ u ↦ t.Extends u :=
  Prog.wp_of_uses .refl (fun _ _ _ ↦ .trans)
    (fun _ ho s ↦ Prog.wp_perform.1 (free_ask ho s)) hx t

theorem free_snapshot (t : Timeline) :
    freeWp C (ask .snapshot) t fun id u ↦ t.Extends u ∧ ∀ v, u.Extends v →
      freeWp C (ask (.revertToSnapshot id)) v fun _ w ↦ w.now = t.now ∧ t.Extends w := by
  refine Prog.wp_perform.2 fun _ ↦ ⟨trivial, t.extends_snapshot, fun v hv ↦
    Prog.wp_perform.2 fun _ ↦ ⟨trivial, ?_⟩⟩
  obtain ⟨w, hrevert, hnow, hext⟩ := Timeline.revertToSnapshot_of_extends hv
  have hrevert : v.revertToSnapshot t.nextId = .ok w := hrevert
  simp only [Timeline.handler, hrevert]
  exact ⟨hnow, hext⟩

/-- **Code leaves older snapshots alone**, under every table. -/
theorem extendsLogic :
    StateLogic evm (Timeline.handler C) (fun _ _ ↦ True) (fun _ _ ↦ True) (fun _ ↦ True)
      Timeline.Extends (fun _ _ ↦ True) fun _ _ _ ↦ True where
  refl := .refl
  trans := .trans
  fit_step _ _ := trivial
  fit_mono _ _ := trivial
  fit_of_not_usesAccessList _ _ _ := trivial
  fault _ _ := trivial
  quiet o t ho := by
    refine (free_ask (fun id hid ↦ ?_) t).mono fun _ _ hu ↦ ⟨hu, fun _ _ _ ↦ trivial⟩
    subst hid
    simp [QuietOr, StateOp.isQuiet, StateOp.isAccessList] at ho
  captureState op t _ _ := free_ask (by simp) t
  accessAddress addr m t _ _ := (free_of_uses (uses_accessAddress (by simp) (by simp)) t).mono
    fun _ _ hu ↦ ⟨hu, trivial⟩
  slotInAccessList slot t _ _ _ := free_ask (by simp) t
  sstoreSlotCost slot m t _ _ _ := free_of_uses (uses_sstoreSlotCost (by simp) (by simp) trivial) t
  destruct self beneficiary m t := free_of_uses (x := destruct self beneficiary m)
    ⟨nofun, fun _ ↦ ⟨nofun, fun _ ↦ ⟨nofun, fun _ ↦ ⟨nofun, fun _ ↦ trivial⟩⟩⟩⟩ t
  canTransfer c v t := (free_of_uses (x := canTransfer c v) ⟨nofun, fun _ ↦ trivial⟩ t).mono
    fun _ _ hu ↦ ⟨hu, fun _ ↦ trivial⟩
  can_zero _ _ := trivial
  transfer c a v t _ := free_of_uses (x := transfer c a v) ⟨nofun, fun _ ↦ ⟨nofun, fun _ ↦ trivial⟩⟩ t
  touch a t := free_ask (by simp) t
  captureStart src dest create value t := (free_ask (by simp) t).mono fun _ u hu ↦
    ⟨hu, fun _ ↦ trivial, (free_ask (by simp) u).mono fun _ _ hv ↦ ⟨hv, fun _ ↦ trivial⟩⟩
  captureEnter typ src dest value t _ := (free_ask (by simp) t).mono fun _ _ hu ↦
    ⟨hu, fun _ ↦ trivial⟩
  snapshot t := (free_snapshot t).mono fun _ _ hu ↦ ⟨hu.1, fun _ _ _ ↦ trivial, fun v hv ↦
    (hu.2 v hv).mono fun _ _ hw ↦ hw.2⟩

/-! ## Settling -/

/-- A failed frame left the world as it was, and no gas unless it reverted on purpose. -/
def Undone (t : Timeline) (r : CallResult) (u : Timeline) : Prop :=
  ∀ err, r.err = some err →
    u.now = t.now ∧ (err ≠ .executionReverted → r.leftOverGas = 0)

/-- Settling a frame that was entered at a snapshot of `t`. -/
theorem undone_settleCall {t u v : Timeline} {id : Nat} (huv : u.Extends v)
    (hrevert : ∀ v, u.Extends v →
      freeWp C (ask (.revertToSnapshot id)) v fun _ w ↦ w.now = t.now ∧ t.Extends w)
    (r : CallResult) (m : Machine) :
    freeWp C (settleCall id r m) v fun p w ↦ Undone t p.1 w := by
  unfold settleCall
  cases hr : r.err with
  | none =>
    intro err herr
    rw [hr] at herr
    cases herr
  | some err =>
    refine wp_query_bind (hrevert v huv) fun _ w hw err' herr' ↦ ⟨hw.1, fun hne ↦ ?_⟩
    obtain rfl : err = err' := Option.some_inj.1 herr'
    exact if_neg hne

/-- What a call may leave behind: nothing if it failed, and no gas either, unless it reverted on
purpose or never entered a frame. -/
def NoTrace (t : Timeline) (r : CallResult) (u : Timeline) : Prop :=
  ∀ err, r.err = some err → u.now = t.now ∧
    (err ≠ .executionReverted → err ≠ .depth → err ≠ .insufficientBalance → r.leftOverGas = 0)

theorem free_canTransfer (c : Address) (v : Nat) (t : Timeline) :
    freeWp C (canTransfer c v) t fun ok u ↦ ok = decide ((v : ℤ) ≤ t.now.balance c) ∧ u = t :=
  wp_ask_of_ok rfl trivial ⟨rfl, rfl⟩

/-- Failed calls leave no trace, whatever runs between a snapshot and going back to it. -/
theorem noTrace_outcome : Outcome (Timeline.handler C) (fun _ _ ↦ True) (fun _ _ ↦ True) (fun _ ↦ True)
    Timeline.Extends (fun _ _ _ ↦ True) NoTrace where
  depth _ _ _ herr := ⟨rfl, fun _ hne _ ↦ absurd (Option.some_inj.1 herr).symm hne⟩
  canTransfer c v t := (free_canTransfer c v t).mono fun _ u ⟨_, hu⟩ ↦ by
    subst hu
    exact ⟨.refl u, fun _ ↦ trivial, fun _ _ _ herr ↦
      ⟨rfl, fun _ _ ↦ absurd (Option.some_inj.1 herr).symm⟩, fun _ _ h ↦ h⟩
  snapshot t := (free_snapshot t).mono fun _ _ ⟨htu, hrevert⟩ ↦ ⟨htu, fun _ _ _ ↦ trivial,
    fun r m _ huv ↦ (undone_settleCall huv hrevert r m).mono fun _ _ h err herr ↦
      ⟨(h err herr).1, fun hne _ _ ↦ (h err herr).2 hne⟩⟩
  idle := nofun

/-! ## Creations -/

theorem undone_settleCreate (hhomestead : evm.chainRules.isHomestead = true) {t u v : Timeline}
    {id : Nat} (huv : u.Extends v) (hrevert : ∀ v, u.Extends v →
      freeWp C (ask (.revertToSnapshot id)) v fun _ w ↦ w.now = t.now ∧ t.Extends w)
    (r : CallResult) (m : Machine) :
    freeWp C (evm.settleCreate id r m) v fun p w ↦ Undone t p.1 w := by
  unfold EVM.settleCreate
  cases hr : r.err with
  | none =>
    intro err herr
    rw [hr] at herr
    cases herr
  | some err =>
    dsimp only
    rw [if_pos (.inl hhomestead)]
    exact undone_settleCall huv hrevert r m

variable {runner : Runner}

variable (hrun : (StateLogic.judgement (Timeline.handler C) (fun _ _ ↦ True) (fun _ _ ↦ True)
  (fun _ ↦ True) Timeline.Extends fun _ _ ↦ True).OfRunner runner)

include hrun

/-- The part of `create` after the checks, under Homestead rules: every error is undone. -/
theorem undone_enterCreate (hhomestead : evm.chainRules.isHomestead = true) (caller : Address)
    (code : Bytes) (codeHash : Hash) (gas value : Nat) (address : Address) {typ : OpCode}
    (htyp : typ = .create ∨ typ = .create2) (m : Machine) (t : Timeline) :
    freeWp C (evm.enterCreate runner caller code codeHash gas value address typ m) t fun p u ↦
      Undone t ⟨p.1.ret, p.1.leftOverGas, p.1.err⟩ u :=
  extendsLogic.enterCreate hrun caller code codeHash gas value address htyp m t trivial
    ((free_snapshot t).mono fun _ _ hu ↦ ⟨fun _ _ _ ↦ trivial, fun r m _ huv ↦
      undone_settleCreate hhomestead huv hu.2 r m⟩)

/-- What a failed creation may leave behind. Either it stopped before it changed anything and returned
all of its gas, or the caller's nonce was raised and everything else is undone. -/
def NonceOnly (C : Crypto) (caller : Address) (gas : Nat) (t : Timeline) (r : CreateResult)
    (u : Timeline) : Prop :=
  ∀ err, r.err = some err →
    (u.now = t.now ∧ r.leftOverGas = gas ∧
      (err = .depth ∨ err = .insufficientBalance ∨ err = .nonceUintOverflow)) ∨
    (u.now = t.now.setNonce C caller (t.now.read caller 0 (·.nonce) + 1) ∧
      (err ≠ .executionReverted → r.leftOverGas = 0))

theorem nonceOnly_createAt (hhomestead : evm.chainRules.isHomestead = true) (caller : Address)
    (code : Bytes) (codeHash : Hash) (gas value : Nat) (address : Address) {typ : OpCode}
    (htyp : typ = .create ∨ typ = .create2) (m : Machine) (t : Timeline) :
    freeWp C (evm.createAt runner caller code codeHash gas value address typ m) t fun p u ↦
      NonceOnly C caller gas t p.1 u := by
  unfold EVM.createAt
  rw [readRegister_bind]
  split
  · exact fun _ herr ↦ .inl ⟨rfl, rfl, .inl (Option.some_inj.1 herr).symm⟩
  refine wp_lift_bind (free_canTransfer caller value t) fun ok u ⟨_, hu⟩ ↦ ?_
  subst hu
  cases ok with
  | false => exact fun _ herr ↦ .inl ⟨rfl, rfl, .inr (.inl (Option.some_inj.1 herr).symm)⟩
  | true =>
    refine wp_query_of_ok rfl trivial ?_
    split
    · exact fun _ herr ↦ .inl ⟨rfl, rfl, .inr (.inr (Option.some_inj.1 herr).symm)⟩
    refine wp_query_of_ok rfl trivial (wp_query_of_ok rfl trivial (wp_query_of_ok rfl trivial ?_))
    split
    · exact fun _ _ ↦ .inr ⟨rfl, fun _ ↦ rfl⟩
    · exact (undone_enterCreate hrun hhomestead caller code codeHash gas value address htyp m _).mono
        fun p z hz err herr ↦ .inr (hz err herr)

end Timelines

/-! ## The entry points on a state database -/

section StateDB

variable {C : Crypto} {db : StateDatabase C}

inductive IsCall (evm : EVM) : EvmM CallResult → Prop
  | call (caller addr : Address) (input : Bytes) (gas value : Nat) :
    IsCall evm (evm.call evm.interpreter caller addr input gas value)
  | callCode (caller addr : Address) (input : Bytes) (gas value : Nat) :
    IsCall evm (evm.callCode evm.interpreter caller addr input gas value)
  | delegateCall (parent : Contract) (addr : Address) (input : Bytes) (gas : Nat) :
    IsCall evm (evm.delegateCall evm.interpreter parent addr input gas)
  | staticCall (caller addr : Address) (input : Bytes) (gas : Nat) :
    IsCall evm (evm.staticCall evm.interpreter caller addr input gas)

/-- The two creations of a virtual machine, on behalf of a caller and with an amount of gas. -/
inductive IsCreation (evm : EVM) (caller : Address) (gas : Nat) : EvmM CreateResult → Prop
  | create (code : Bytes) (value : Nat) :
    IsCreation evm caller gas (evm.create evm.interpreter caller code gas value)
  | create2 (code : Bytes) (value : Nat) (salt : Word) :
    IsCreation evm caller gas (evm.create2 evm.interpreter caller code gas value salt)

theorem IsCall.noTrace {evm : EVM} {x : EvmM CallResult} (hx : IsCall evm x) (m : Machine)
    (t : Timeline) : freeWp C (x m) t fun p u ↦ NoTrace t p.1 u := by
  have L := @extendsLogic C evm
  have hQ := @noTrace_outcome C
  cases hx with
  | call caller addr input gas value =>
    exact L.call hQ L.interpreter caller addr input gas value m t (.inr trivial)
  | callCode caller addr input gas value =>
    exact L.callCode hQ L.interpreter caller addr input gas value m t trivial
  | delegateCall parent addr input gas =>
    exact L.delegateCall hQ L.interpreter parent addr input gas m t trivial
  | staticCall caller addr input gas =>
    exact L.staticCall hQ L.interpreter caller addr input gas m t trivial

theorem IsCreation.nonceOnly {evm : EVM} (hhomestead : evm.chainRules.isHomestead = true)
    {caller : Address} {gas : Nat} {x : EvmM CreateResult} (hx : IsCreation evm caller gas x)
    (m : Machine) (t : Timeline) :
    freeWp C (x m) t fun p u ↦ NonceOnly C caller gas t p.1 u := by
  have hrun := (@extendsLogic C evm).interpreter
  cases hx with
  | create code value =>
    exact wp_query_of_ok rfl trivial
      (nonceOnly_createAt hrun hhomestead caller code 0 gas value _ (.inl rfl) m t)
  | create2 code value salt =>
    exact nonceOnly_createAt hrun hhomestead caller code _ gas value _ (.inr rfl) m t

/-- **Failed frames leave no trace.** For every state database, code, input and gas: if one of the four
calls returns an error, every getter answers what it answered at entry, and no gas is returned unless
the error is an intended revert, the depth limit or a missing balance. If a creation under Homestead
rules returns an error, it either changed nothing and returned all of its gas, which is so for the depth
limit, a missing balance and a nonce that cannot be raised; or every getter answers what it would have
answered right after the caller's nonce was raised, and no gas is returned unless the error is an
intended revert. -/
theorem failed_frame_leaves_no_trace {s : StateDB} (hs : s.Reachable db) (evm : EVM) (m : Machine) :
    (∀ x, IsCall evm x → ∀ r m' s', (x m).run (StateDB.handler db) s = .ok ((r, m'), s') →
      ∀ err, r.err = some err → s.SameReads db s' ∧
        (err ≠ .executionReverted → err ≠ .depth → err ≠ .insufficientBalance →
          r.leftOverGas = 0)) ∧
    (evm.chainRules.isHomestead = true → ∀ caller gas x, IsCreation evm caller gas x →
      ∀ r m' s', (x m).run (StateDB.handler db) s = .ok ((r, m'), s') →
      ∀ err, r.err = some err →
        (s.SameReads db s' ∧ r.leftOverGas = gas ∧
          (err = .depth ∨ err = .insufficientBalance ∨ err = .nonceUintOverflow)) ∨
        ∃ nonce, (StateDB.handler db).answer (.getNonce caller) s = .ok nonce ∧
          (s.setNonce db caller (nonce + 1)).SameReads db s' ∧
          (err ≠ .executionReverted → r.leftOverGas = 0)) := by
  obtain ⟨t, hst⟩ := hs.refines
  have hsim := handler_simulates db
  constructor
  · intro x hx r m' s' hrun err herr
    obtain ⟨u, htrun, hst'⟩ := Prog.run_simulates_ok hsim (Prog.uses_true (x m)) hst hrun
    obtain ⟨hnow, hgas⟩ := (hx.noTrace m t).of_run htrun err herr
    exact ⟨sameReads_of_refines hst hst' hnow, hgas⟩
  · intro hhomestead caller gas x hx r m' s' hrun err herr
    obtain ⟨u, htrun, hst'⟩ := Prog.run_simulates_ok hsim (Prog.uses_true (x m)) hst hrun
    rcases (hx.nonceOnly hhomestead m t).of_run htrun err herr with
      ⟨hnow, hgas, hkind⟩ | ⟨hnow, hgas⟩
    · exact .inl ⟨sameReads_of_refines hst hst' hnow, hgas, hkind⟩
    · refine .inr ⟨t.now.read caller 0 (·.nonce), ?_, ?_, hgas⟩
      · rw [hsim.answer_eq trivial hst]
        rfl
      · exact sameReads_of_refines (hst.setNonce caller _) hst' hnow

end StateDB

/-! ## Small runs -/

open Chain.Sample State.Sample in
/-- Under Homestead rules a creation by an account whose nonce cannot be raised returns all of its gas
with an error that is none of the three. A creation by a caller without an account, whose constructor
fails, leaves an account there. -/
theorem failed_create_leaves_trace :
    (evm crypto none).chainRules.isHomestead = true ∧
      (((evm crypto none).create (evm crypto none).interpreter 0x10 [] 50000 0 Machine.init).run
        (StateDB.handler (database []))
        ((state []).setNonce (database []) 0x10 0xFFFFFFFFFFFFFFFF)).toOption.map (fun p ↦
          (p.1.1.leftOverGas, p.1.1.err)) = some (50000, some .nonceUintOverflow) ∧
      ((StateDB.handler (database [])).answer (.exist 0x99) (state [])).toOption = some false ∧
      (((evm crypto none).create (evm crypto none).interpreter 0x99 [0xfe] 50000 0 Machine.init).run
        (StateDB.handler (database [])) (state [])).toOption.map (fun p ↦
          (p.1.1.err, ((StateDB.handler (database [])).answer (.exist 0x99) p.2).toOption)) =
        some (some (.invalidOpCode 0xfe), some true) :=
  ⟨by decide, by decide, by decide, by decide⟩

open Chain.Sample State.Sample in
/-- A call of a contract that runs into an invalid instruction fails, and is undone without gas. -/
theorem failed_frame_leaves_no_trace_invalid :
    ∃ r m' s', ((evm crypto none).call (evm crypto none).interpreter 0x10 0x20 [] 50000 5
        Machine.init).run (StateDB.handler (database [0xfe])) (state [0xfe]) = .ok ((r, m'), s') ∧
      (state [0xfe]).SameReads (database [0xfe]) s' ∧ r.leftOverGas = 0 := by
  obtain ⟨⟨⟨r, m'⟩, s'⟩, hrun, herr⟩ := Container.exists_of_eval
    (x := ((evm crypto none).call (evm crypto none).interpreter 0x10 0x20 [] 50000 5
      .init).run (handler (database [0xfe])) (state [0xfe]))
    (f := fun p ↦ p.1.1.err) (b := some (.invalidOpCode 0xfe)) (by decide)
  obtain ⟨hsame, hgas⟩ := (failed_frame_leaves_no_trace (reachable_state [0xfe]) (evm crypto none)
    .init).1 _ (.call 0x10 0x20 [] 50000 5) r m' s' hrun _ herr
  exact ⟨r, m', s', hrun, hsame, hgas (by decide) (by decide) (by decide)⟩

end GoEntropy.Execution
