import GoEntropy.Evm.StorageWrites
import GoEntropy.State.WorldLogic
import GoEntropy.Execution.FailedFrames

/-!
# Static calls

A static call runs code in read-only mode, and the instructions that write fail there. Four things that
are not writes still touch the state: the call adds nothing to the callee's balance, a call inside it
moves no value between two accounts and may create one for a precompiled contract, gas functions
change the refund counter before the write is refused, and prices depend on the access list.

What an address *shows* (`World.shown`) is its account, or a new one if it has none, apart from the
code hash, which is where the two differ. None of the four changes that. So it is an invariant of
read-only code that every address shows what it did at the start and that the logs are the same.
-/

namespace GoEntropy.State

open Evm

namespace World

/-- What an address shows to code, whether or not it has an account; the code hash aside. -/
def shown (C : Crypto) (w : World) (a : Address) : Account := { w.getOrNew C a with codeHash := 0 }

/-- Every address shows the same, and the logs are the same. -/
structure SameContents (C : Crypto) (w w' : World) : Prop where
  shown : ∀ a, w'.shown C a = w.shown C a
  logs : w'.logs = w.logs
  logSize : w'.logSize = w.logSize

variable {C : Crypto} {w w' w'' : World}

theorem SameContents.refl (w : World) : SameContents C w w := ⟨fun _ ↦ rfl, rfl, rfl⟩

theorem SameContents.trans (h : SameContents C w w') (h' : SameContents C w' w'') :
    SameContents C w w'' :=
  ⟨fun a ↦ (h'.shown a).trans (h.shown a), h'.logs.trans h.logs, h'.logSize.trans h.logSize⟩

theorem sameContents_put {a : Address} {acc : Account}
    (h : ({ acc with codeHash := 0 } : Account) = w.shown C a) : SameContents C w (w.put a acc) := by
  refine ⟨fun b ↦ ?_, rfl, rfl⟩
  by_cases hb : b = a
  · rw [hb, ← h]
    simp [World.shown, getOrNew]
  · simp [World.shown, getOrNew, put_of_ne hb]

end World

/-- The getters of balance, nonce, code, storage and self-destruct flag. -/
def isContent : StateOp → Bool
  | .getBalance _ | .getNonce _ | .getCode _ | .getCodeSize _ | .getState _ _
  | .getCommittedState _ _ | .hasSuicided _ => true
  | _ => false

theorem Timeline.answer_eq_of_isContent {C : Crypto} {o : StateOp} (ho : isContent o = true)
    {t u : Timeline} (h : t.now.SameContents C u.now) :
    (Timeline.handler C).answer o u = (Timeline.handler C).answer o t := by
  have hread : ∀ {α : Type} (a : Address) (f : Account → α),
      (∀ acc : Account, f { acc with codeHash := 0 } = f acc) →
      u.now.read a (f (.fresh C)) f = t.now.read a (f (.fresh C)) f := by
    intro α a f hf
    rw [World.read_eq, World.read_eq, ← hf, ← hf (t.now.getOrNew C a)]
    exact congrArg f (h.shown a)
  cases o with
  | getBalance a => exact congrArg Except.ok (hread a (·.balance) fun _ ↦ rfl)
  | getNonce a => exact congrArg Except.ok (hread a (·.nonce) fun _ ↦ rfl)
  | getCode a => exact congrArg Except.ok (hread a (·.code) fun _ ↦ rfl)
  | getCodeSize a => exact congrArg Except.ok (hread a (·.code.length) fun _ ↦ rfl)
  | getState a k => exact congrArg Except.ok (hread a (·.storage k) fun _ ↦ rfl)
  | getCommittedState a k => exact congrArg Except.ok (hread a (·.committed k) fun _ ↦ rfl)
  | hasSuicided a => exact congrArg Except.ok (hread a (·.suicided) fun _ ↦ rfl)
  | _ => cases ho

/-- The getters of balance, nonce, code, storage and self-destruct flag answer the same for every
address and slot, and no log has been added. -/
structure StateDB.SameContents {C : Crypto} (db : StateDatabase C) (s s' : StateDB) : Prop where
  answer : ∀ o, isContent o = true →
    (StateDB.handler db).answer o s' = (StateDB.handler db).answer o s
  getLogs : ∀ hash, s'.getLogs hash = s.getLogs hash
  logSize : s'.logSize = s.logSize

theorem StateDB.sameContents_of_refines {C : Crypto} {db : StateDatabase C} {s s' : StateDB}
    {t u : Timeline} (hs : Refines db s t) (hs' : Refines db s' u)
    (h : t.now.SameContents C u.now) : s.SameContents db s' := by
  have hsim := handler_simulates db
  refine ⟨fun o ho ↦ ?_, fun hash ↦ ?_, ?_⟩
  · rw [hsim.answer_eq trivial hs', hsim.answer_eq trivial hs, Timeline.answer_eq_of_isContent ho h]
  · have hlogs := h.logs
    rw [hs.now, hs'.now] at hlogs
    exact congrFun hlogs hash
  · have hsize := h.logSize
    rw [hs.now, hs'.now] at hsize
    exact hsize

end GoEntropy.State

namespace GoEntropy.Execution

open Evm Interaction State

/-! ## Read-only code -/

section Timelines

variable {C : Crypto} {evm : EVM} {jt : JumpTable}

/-- In read-only frames, at every method call the contents are those of a given world. -/
def staticSetting (C : Crypto) (w : World) : WorldSetting where
  crypto := C
  assume _ _ := True
  guarantee _ := w.SameContents C
  fault _ := True
  readOnly := true
  limit := none
  moves := World.SameContents C
  inv := w.SameContents C

variable {w : World}

/-- Everything that is not shown may change. -/
theorem static_step {v v' : World} (hv : w.SameContents C v) (h : v.SameContents C v') :
    (staticSetting C w).Step v v' := ⟨h, hv.trans h⟩

theorem staticRules (C : Crypto) (w : World) : WorldRules (staticSetting C w) where
  refl := .refl
  trans := .trans
  fault _ _ := trivial
  guarantee _ _ hv := hv
  lists _ _ _ hv := static_step hv ⟨fun _ ↦ rfl, rfl, rfl⟩

theorem static_subRefund (gas : Nat) (t : Timeline) (ht : (staticSetting C w).toCode.inv t) :
    (staticSetting C w).toCode.Passes (ask (.subRefund gas)) t := by
  by_cases hgas : gas > t.now.refund
  · refine CodeSetting.ask_of_error ht (e := .refundCounterBelowZero) ?_ trivial
    simp [WorldSetting.toCode, Timeline.handler, hgas]
  · refine (staticRules C w).passes_modify (f := fun w ↦ { w with refund := w.refund - gas })
      (r := ()) ht ?_ fun _ ↦ static_step ht ⟨fun _ ↦ rfl, rfl, rfl⟩
    simp [Timeline.handler, hgas]

/-- **Read-only code changes nothing that is shown.** -/
theorem staticLogic (C : Crypto) (evm : EVM) (hjt : InstructionSet jt) (w : World) :
    WorldLogic evm jt (staticSetting C w) where
  toWorldRules := staticRules C w
  entries := hjt.entry
  limit_le := nofun
  selected h := absurd rfl h
  undo _ _ _ hv h := hv.trans h
  addRefund _ _ _ hv := static_step hv ⟨fun _ ↦ rfl, rfl, rfl⟩
  sstore callees scope _ := by
    obtain ⟨clear, hclear⟩ := hjt.clearingRefund
    obtain ⟨sentry, lists, prices, hentry, _⟩ := hclear.sstore
    have L := (staticRules C w).codeRules
    rw [hentry]
    refine L.executePaid (fun g hg contract stack mem size ↦ ?_) fun scope' ↦ ?_
    · cases hg
      exact L.sstoreGas trivial (fun gas t ht ↦ (staticRules C w).passes_modify ht rfl fun _ ↦
        static_step ht ⟨fun _ ↦ rfl, rfl, rfl⟩) static_subRefund evm contract stack mem size
    · show (staticSetting C w).toCode.Settles _ (opSstore evm callees scope')
      exact L.writeOp nofun
  touch _ _ hv := static_step hv (World.sameContents_put (by simp [World.shown, staticSetting]))
  account _ _ habsent hv := static_step hv <| World.sameContents_put <| by
    simp [World.shown, World.getOrNew, World.balance, habsent, Account.fresh]
  addBalance := nofun
  suicide := nofun
  addLog := nofun
  setNonce := nofun
  setCode := nofun
  createAccount := nofun

/-! ## The call -/

/-- A read-only frame leaves read-only mode if it has entered it. -/
theorem static_interpreter (hjt : InstructionSet jt) (contract : Contract) (input : Bytes)
    (m : Machine) (t : Timeline) (ht : w.SameContents C t.now) :
    (staticSetting C w).toCode.wp (evm.interpreterWith jt contract input true m) t fun p u ↦
      p.2.readOnly = m.readOnly ∧ (staticSetting C w).toCode.moves t u := by
  have L := (staticLogic C evm hjt w).codeLogic
  obtain ⟨lists, hentries⟩ := hjt.entry
  have hbound : CodeLogic.Bounded (staticSetting C w).toCode
      (evm.runnerWith jt Params.callCreateDepth) := nofun
  have hcode := L.frameCode (L.runnerWith Params.callCreateDepth)
    (leavesCode_runnerWith hentries evm _) hbound contract input nofun
    { m with depth := m.depth + 1, readOnly := m.readOnly || true, returnData := [] } t
    (fun _ ↦ Bool.or_true _) ht
  show (staticSetting C w).toCode.wp ((evm.frameCode jt
    (evm.callees (evm.runnerWith jt Params.callCreateDepth)) contract input >>= fun r ↦
      leaveFrame (true && !m.readOnly) >>= fun _ ↦ pure r) _) t _
  refine Prog.wp.bind hcode fun p u ⟨hp, htu, _⟩ ↦ ⟨?_, htu⟩
  have hro : p.2.readOnly = true := hp rfl
  cases hm : m.readOnly with
  | false => rfl
  | true => simp [hro]

theorem static_frameBody (hjt : InstructionSet jt) (addr : Address) (contract : Contract)
    (input : Bytes) (m : Machine) (t : Timeline) (ht : w.SameContents C t.now) :
    (staticSetting C w).toCode.wp
      (evm.frameBody (evm.interpreterWith jt) addr contract input true m) t fun p u ↦
        p.2.readOnly = m.readOnly ∧ (staticSetting C w).toCode.moves t u := by
  have R := staticRules C w
  unfold EVM.frameBody
  cases evm.precompile addr with
  | some p => exact ⟨rfl, ⟨.refl t, .refl _⟩⟩
  | none =>
    refine wp_query_bind (R.harmless (.getCodeHash addr) t rfl ht) fun codeHash u ⟨htu, hu⟩ ↦ ?_
    refine wp_query_bind (R.harmless (.getCode addr) u rfl hu) fun code v ⟨huv, hv⟩ ↦ ?_
    refine (static_interpreter hjt _ input m v hv).mono fun _ x ⟨hro, hvx⟩ ↦ ⟨hro, ?_⟩
    exact R.moves_trans htu (R.moves_trans huv hvx)

/-- **A static call changes nothing that is shown**, at any moment, and leaves read-only mode as it
found it. -/
theorem static_staticCall (hjt : InstructionSet jt) (caller addr : Address) (input : Bytes)
    (gas : Nat) (m : Machine) (t : Timeline) (ht : w.SameContents C t.now) :
    (staticSetting C w).toCode.wp
      (evm.staticCall (evm.interpreterWith jt) caller addr input gas m) t fun p u ↦
        p.2.readOnly = m.readOnly ∧ w.SameContents C u.now := by
  have R := staticRules C w
  have L := staticLogic C evm hjt w
  unfold EVM.staticCall
  rw [readRegister_bind]
  split
  · exact ⟨rfl, ht⟩
  refine wp_query_bind (L.snapshot t ht) fun id u ⟨htu, hu, hrevert⟩ ↦ ?_
  refine wp_query_bind (R.passes_modify hu rfl fun _ ↦
    L.touch addr u.now hu) fun _ v ⟨huv, hv⟩ ↦ ?_
  refine wp_query_bind (R.harmless (.captureEnter .staticCall caller addr 0) v rfl hv)
    fun _ x ⟨hvx, hx⟩ ↦ ?_
  refine Prog.wp.bind (static_frameBody hjt addr _ input m x hx) fun ⟨r, m'⟩ y ⟨hro, hxy⟩ ↦ ?_
  have huy := R.moves_trans huv (R.moves_trans hvx hxy)
  show (staticSetting C w).toCode.wp (settleCall id r m') y _
  unfold settleCall
  cases r.err with
  | none => exact ⟨hro, .trans hu huy.2⟩
  | some err => exact wp_query_bind (hrevert y huy) fun _ _ hz ↦ ⟨hro, hz.2⟩

end Timelines

/-! ## On a state database -/

/-- **Static calls do not change the state.** For every state database, instruction set, caller, code
and input: at every method call during a static call, with all the frames nested under it, and after
it, whatever its outcome, every account has the balance, nonce, code, storage and self-destruct flag it
had before and no log has been added; and the read-only flag afterwards is what it was before. -/
theorem static_call_changes_nothing {C : Crypto} {db : StateDatabase C} {s : StateDB}
    (hs : s.Reachable db) {jt : JumpTable} (hjt : InstructionSet jt) (evm : EVM)
    (caller addr : Address) (input : Bytes) (gas : Nat) (m : Machine) :
    (evm.staticCall (evm.interpreterWith jt) caller addr input gas m).Along (StateDB.handler db)
        (fun _ s' ↦ s.SameContents db s') s ∧
      ∀ r m' s', (evm.staticCall (evm.interpreterWith jt) caller addr input gas m).run
          (StateDB.handler db) s = .ok ((r, m'), s') →
        s.SameContents db s' ∧ m'.readOnly = m.readOnly := by
  obtain ⟨t, hst⟩ := hs.refines
  have hsim := handler_simulates db
  have huses := Prog.uses_true (evm.staticCall (evm.interpreterWith jt) caller addr input gas m)
  have hwp : (staticSetting C t.now).toCode.wp
      (evm.staticCall (evm.interpreterWith jt) caller addr input gas m) t fun p u ↦
        p.2.readOnly = m.readOnly ∧ t.now.SameContents C u.now :=
    static_staticCall hjt caller addr input gas m t (.refl t.now)
  refine ⟨?_, fun r m' s' hrun ↦ ?_⟩
  · refine .of_simulates hsim (fun _ _ _ hst' hsame ↦
      StateDB.sameContents_of_refines hst hst' hsame) huses hst ?_
    exact (hwp.sound (Prog.along_true _ _)).1
  · obtain ⟨u, htrun, hst'⟩ := Prog.run_simulates_ok hsim huses hst hrun
    obtain ⟨hro, hsame⟩ := hwp.of_run htrun
    exact ⟨StateDB.sameContents_of_refines hst hst' hsame, hro⟩

open Chain.Sample State.Sample in
/-- A static call of a contract that writes a slot fails, and has changed nothing. -/
theorem static_call_changes_nothing_sstore :
    ∃ r m' s', ((evm crypto none).staticCall
          ((evm crypto none).interpreterWith newByzantiumInstructionSet) 0x10 0x20 [] 50000
          Machine.init).run (StateDB.handler (database [0x60, 0x01, 0x60, 0x00, 0x55]))
          (state [0x60, 0x01, 0x60, 0x00, 0x55]) = .ok ((r, m'), s') ∧
      r.err = some .writeProtection ∧
      (state [0x60, 0x01, 0x60, 0x00, 0x55]).SameContents
        (database [0x60, 0x01, 0x60, 0x00, 0x55]) s' ∧ m'.readOnly = false := by
  obtain ⟨⟨⟨r, m'⟩, s'⟩, hrun, herr⟩ := Container.exists_of_eval
    (x := ((evm crypto none).staticCall
      ((evm crypto none).interpreterWith newByzantiumInstructionSet) 0x10 0x20 [] 50000
      .init).run (StateDB.handler (database [0x60, 0x01, 0x60, 0x00, 0x55]))
      (state [0x60, 0x01, 0x60, 0x00, 0x55]))
    (f := fun p ↦ p.1.1.err) (b := some .writeProtection) (by decide)
  obtain ⟨hsame, hro⟩ := (static_call_changes_nothing (reachable_state [0x60, 0x01, 0x60, 0x00, 0x55])
    .byzantium (evm crypto none) 0x10 0x20 [] 50000 .init).2 r m' s' hrun
  exact ⟨r, m', s', hrun, herr, hsame, hro⟩

end GoEntropy.Execution
