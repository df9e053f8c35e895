import GoEntropy.Chain.TransitionLogic
import GoEntropy.Evm.StorageWrites
import GoEntropy.State.Registry
import GoEntropy.Execution.FailedFrames

/-!
# Contracts are not created over live ones

A contract is live from the moment its creation has succeeded until the creation is undone or the
contract has self-destructed and the transaction is finalised. `EVM.create` does not give a new
account a nonce, so what protects a live contract is the code it has deployed, or the contracts it has
created itself. A contract without either can be created again, which wipes its storage; and while a
constructor is running nothing protects its own address.

These are the two exceptions. Where every creation that succeeds leaves a nonce or code, and no creation
starts at an address at which one has already started during the transaction, no account is created over
a live contract and no code is stored for one.
-/

namespace GoEntropy.Execution

open Evm Interaction State Chain Timeline Prog World

/-- The method creates an account over a live contract, or stores code for one. -/
def Replaces : StateOp → Registry → Prop
  | .createAccount a, g => a ∈ g.live
  | .setCode a _, g => a ∈ g.live
  | _, _ => False

/-- A creation starts where none has started in this transaction, and one that succeeds leaves a nonce
or code. -/
def Careful {σ : Type} (C : Crypto) (h : Handler StateInterface Fault σ) :
    StateOp → σ × Registry → Prop
  | .captureStart _ dest create _, p => create = true → dest ∉ p.2.started
  | .captureEnter typ _ dest _, p => typ = .create ∨ typ = .create2 → dest ∉ p.2.started
  | .setCode a code, p => h.answer (.getNonce a) p.1 ≠ .ok (0 : UInt64) ∨
      (C.keccak256 code ≠ 0 ∧ C.keccak256 code ≠ C.emptyCodeHash)
  | _, _ => True

instance {σ : Type} (C : Crypto) (h : Handler StateInterface Fault σ) (o : StateOp)
    (p : σ × Registry) : Decidable (Careful C h o p) := by
  induction o using StateOp.casesOn with
  | captureStart src dest create value =>
    exact inferInstanceAs (Decidable (create = true → dest ∉ p.2.started))
  | captureEnter typ src dest value =>
    exact inferInstanceAs (Decidable (typ = .create ∨ typ = .create2 → dest ∉ p.2.started))
  | setCode a code =>
    exact inferInstanceAs (Decidable (h.answer (.getNonce a) p.1 ≠ .ok (0 : UInt64) ∨
      (C.keccak256 code ≠ 0 ∧ C.keccak256 code ≠ C.emptyCodeHash)))
  | _ => exact .isTrue trivial

theorem add_one_ne_zero_of_not_lt {nonce : UInt64} (h : ¬ nonce + 1 < nonce) : nonce + 1 ≠ 0 := by
  intro hzero
  rw [hzero] at h
  have hnonce : nonce = 0 := by
    rw [← UInt64.toNat_inj]
    rw [UInt64.lt_iff_toNat_lt] at h
    simpa using h
  rw [hnonce] at hzero
  cases hzero

section Timelines

variable {C : Crypto} {evm : EVM} {p q : Timeline × Registry} {t u : Timeline} {g : Registry}

def liveSetting (C : Crypto) : CodeSetting (Timeline × Registry) where
  handler := registered (Timeline.handler C)
  assume := Careful C (Timeline.handler C)
  guarantee o p := ¬ Replaces o p.2
  fault _ := True
  readOnly := false
  limit := none
  moves := Continues
  inv p := ∀ a ∈ p.2.live, p.1.now.Protected C a

theorem live_fits (m : Machine) : (liveSetting C).Fits m := nofun

/-- A step that guards the accounts and leaves the register. -/
structure Silent (C : Crypto) (p q : Timeline × Registry) : Prop where
  timeline : p.1.Extends q.1
  registry : q.2 = p.2
  guards : p.1.now.Guards C q.1.now

theorem Silent.trans {r : Timeline × Registry} (h : Silent C p q) (h' : Silent C q r) : Silent C p r :=
  ⟨h.timeline.trans h'.timeline, h'.registry.trans h.registry, fun a ha ↦ h'.guards a (h.guards a ha)⟩

theorem Silent.keeps (h : Silent C p q) (hp : (liveSetting C).inv p) :
    Continues p q ∧ (liveSetting C).inv q := by
  obtain ⟨u, k⟩ := q
  obtain ⟨hext, rfl, hguards⟩ := h
  exact ⟨.of_extends hext, fun a ha ↦ hguards a (hp a ha)⟩

variable {o : StateOp}

theorem live_ask {r : o.Res} {Q : o.Res → Timeline × Registry → Prop}
    (h : handler C o p.1 = .ok (r, u)) (hG : ¬ Replaces o p.2)
    (hQ : Careful C (handler C) o p → Q r (u, p.2.observe o r)) :
    (liveSetting C).wp (ask o) p Q := by
  refine CodeSetting.ask_of_ok (t := (u, p.2.observe o r)) hG ?_ hQ
  show registered (handler C) o p = _
  unfold registered Handler.observed
  rw [h]

/-- A method that changes the world, guards the accounts and leaves the register. -/
theorem live_modify {r : o.Res} {f : World → World}
    (h : handler C o p.1 = .ok (r, p.1.modify f)) (hG : ¬ Replaces o p.2)
    (hobserve : p.2.observe o r = p.2) (hguards : p.1.now.Guards C (f p.1.now)) :
    (liveSetting C).wp (ask o) p fun _ q ↦ Silent C p q :=
  live_ask h hG fun _ ↦ ⟨p.1.extends_modify f, hobserve, hguards⟩

theorem not_replaces_of_harmless (ho : Harmless o) (g : Registry) : ¬ Replaces o g := by
  cases o with
  | createAccount | setCode => cases ho
  | _ => exact not_false

theorem live_harmless (ho : Harmless o) (p : Timeline × Registry) :
    (liveSetting C).wp (ask o) p fun _ q ↦ Silent C p q := by
  rcases handler_harmless ho p.1 with ⟨e, h, _⟩ | ⟨r, al, pre, h⟩
  · refine CodeSetting.ask_of_error (e := e) (not_replaces_of_harmless ho p.2) ?_ trivial
    show registered (handler C) o p = _
    unfold registered Handler.observed
    rw [h]
  · exact live_modify h (not_replaces_of_harmless ho p.2) (Registry.observe_of_harmless ho r p.2)
      (guards_of_accounts rfl)

theorem liveRules (C : Crypto) : CodeRules (liveSetting C) where
  refl p _ := .refl p
  trans := .trans
  fault _ _ := trivial
  harmless _ p ho hp := (live_harmless ho p).mono fun _ _ h ↦ h.keeps hp

/-! ## Methods -/

theorem live_addBalance (a : Address) (x : ℤ) (p : Timeline × Registry) :
    (liveSetting C).wp (ask (.addBalance a x)) p fun _ q ↦ Silent C p q :=
  live_modify rfl not_false rfl (p.1.now.guards_addBalance a x)

theorem live_transfer (caller addr : Address) (value : Nat) (p : Timeline × Registry) :
    (liveSetting C).wp (transfer caller addr value) p fun _ q ↦ Silent C p q := by
  refine wp.bind (live_modify rfl not_false rfl
    (p.1.now.guards_addBalance caller (-value))) fun _ q hpq ↦ ?_
  exact (live_addBalance addr value q).mono fun _ r ↦ hpq.trans

theorem live_destruct (self beneficiary : Address) :
    (liveSetting C).Keeps (destruct self beneficiary) := by
  intro m p hm hp
  refine wp_query_bind (live_harmless (o := .getBalance self) rfl p) fun balance q hpq ↦ ?_
  refine wp_query_bind (live_addBalance beneficiary balance q) fun _ r hqr ↦ ?_
  refine wp_query_bind (live_modify rfl not_false rfl
    (r.1.now.guards_suicide self)) fun _ x hrx ↦ ?_
  refine wp_map.2 ((live_modify (o := .captureEnter .selfdestruct self beneficiary balance) (f := id)
    rfl not_false rfl (.refl x.1.now)).mono fun _ y hxy ↦ ?_)
  obtain ⟨hmoves, hinv⟩ := (hpq.trans (hqr.trans (hrx.trans hxy))).keeps hp
  exact ⟨hm, hmoves, fun _ ↦ hinv⟩

theorem live_subRefund (gas : Nat) (p : Timeline × Registry) :
    (liveSetting C).wp (ask (.subRefund gas)) p fun _ q ↦ Silent C p q := by
  by_cases hgas : gas > p.1.now.refund
  · refine CodeSetting.ask_of_error (e := .refundCounterBelowZero) not_false ?_ trivial
    simp [liveSetting, Handler.observed, handler, hgas]
  · refine live_modify (f := fun w ↦ { w with refund := w.refund - gas }) (r := ()) ?_ not_false rfl
      (guards_of_accounts rfl)
    simp [handler, hgas]

theorem live_sstore {sentry lists : Bool} {prices : Nat → NetSstore} (callees : Callees)
    (scope : Scope) :
    (liveSetting C).Settles ExecResult.Good
      ((sstoreEntry sentry lists prices).executePaid evm callees .sstore scope) := by
  have L := liveRules C
  have hadd : ∀ gas p, (liveSetting C).inv p → (liveSetting C).Passes (ask (.addRefund gas)) p :=
    fun gas p hp ↦ (live_modify (o := .addRefund gas) rfl not_false rfl
      (guards_of_accounts rfl)).mono fun _ _ h ↦ h.keeps hp
  have hsub : ∀ gas p, (liveSetting C).inv p → (liveSetting C).Passes (ask (.subRefund gas)) p :=
    fun gas p hp ↦ (live_subRefund gas p).mono fun _ _ h ↦ h.keeps hp
  refine L.executePaid (fun g hg contract stack mem size ↦ ?_) fun scope' ↦ ?_
  · cases hg
    exact L.sstoreGas trivial hadd hsub evm contract stack mem size
  · intro m p hm hp
    refine wp_opSstore evm callees (fun _ ↦ trivial) (fun _ ↦ ⟨hm, .refl p, nofun⟩) fun _ ↦ ?_
    refine (live_modify (o := .setState _ _ _) rfl not_false rfl
      (World.guards_put_same rfl rfl)).mono fun _ q hpq ↦ ?_
    exact ⟨hm, (hpq.keeps hp).1, fun _ ↦ (hpq.keeps hp).2⟩

/-- A call that finds no account creates one, which is not live. -/
theorem live_account (addr : Address) (p : Timeline × Registry) (hp : (liveSetting C).inv p) :
    (liveSetting C).wp (ask (.exist addr)) p fun present q ↦ Continues p q ∧ (liveSetting C).inv q ∧
      (present = false → (liveSetting C).Passes (ask (.createAccount addr)) q) := by
  refine live_ask rfl not_false fun _ ↦ ⟨.refl p, hp, fun habsent ↦ ?_⟩
  have hnone : p.1.now.accounts addr = none := by
    cases h : p.1.now.accounts addr with
    | none => rfl
    | some acc => simp [World.read, h] at habsent
  have hfree := World.not_protected_of_absent (C := C) hnone
  exact (live_modify (o := .createAccount addr) rfl (fun h ↦ hfree (hp addr h)) rfl
    (World.guards_createAccount hfree)).mono fun _ _ h ↦ h.keeps hp

theorem live_snapshot (p : Timeline × Registry) (hp : (liveSetting C).inv p) :
    (liveSetting C).wp (ask .snapshot) p fun id q ↦ Continues p q ∧ (liveSetting C).inv q ∧
      q.1.now = p.1.now ∧ q.2.live = p.2.live ∧ q.2.started = p.2.started ∧
      ∀ r, Continues q r → (liveSetting C).wp (ask (.revertToSnapshot id)) r fun _ x ↦
        Continues p x ∧ (liveSetting C).inv x := by
  refine live_ask rfl not_false fun _ ↦ ⟨⟨p.1.extends_snapshot, Newer.cons _ _ _, fun _ ha ↦ ha,
    fun _ _ ha ↦ ha⟩, hp, rfl, rfl, rfl, fun r hr ↦ ?_⟩
  obtain ⟨v, hv, hnow, hext, hregistry⟩ := Continues.revert hr
  have hrevert : handler C (.revertToSnapshot p.1.snapshot.1) r.1 = .ok ((), v) := by
    rw [handler, hv]
    rfl
  refine live_ask hrevert not_false fun _ ↦ ?_
  rw [show r.2.observe (.revertToSnapshot p.1.nextId) () = p.2 from hregistry]
  refine ⟨.of_extends hext, fun a ha ↦ ?_⟩
  rw [hnow]
  exact hp a ha

/-! ## Creations -/

section Creations

variable {a : Address}

/-- The tracer is told of a creation, which starts where none has started. -/
theorem live_captureFrame (typ : OpCode) (htyp : typ = .create ∨ typ = .create2) (src : Address)
    (value : Nat) (m : Machine) (p : Timeline × Registry) :
    (liveSetting C).wp (captureFrame typ true src a value m) p fun r q ↦
      r.2 = m ∧ q = (p.1, p.2.start a) ∧ a ∉ p.2.started := by
  rw [StateLogic.captureFrame_apply]
  split
  · exact wp_map.2 (live_ask rfl not_false fun h ↦
      ⟨rfl, rfl, h rfl⟩)
  · refine wp_map.2 (live_ask rfl not_false fun h ↦
      ⟨rfl, ?_, h htyp⟩)
    exact congrArg (Prod.mk p.1) (if_pos htyp)

/-- Storing the code of a constructor makes the contract live. A constructor that cannot pay for it has
changed nothing after it succeeded. -/
theorem live_storeCode {r : CallResult} (herr : r.err ≠ some .codeStoreOutOfGas) (m : Machine)
    (p : Timeline × Registry) (hp : r.err = none → (liveSetting C).inv p) (hfree : a ∉ p.2.live) :
    (liveSetting C).wp (evm.storeCode a r m) p fun x q ↦
      p.1.Extends q.1 ∧ q.2.saved = p.2.saved ∧ q.2.started = p.2.started ∧
        (∀ b ∈ q.2.live, b = a ∨ b ∈ p.2.live) ∧
        (x.1.err = none ∨ x.1.err = some .codeStoreOutOfGas → (liveSetting C).inv q) := by
  refine wp_storeCode herr (fun err hne ↦ ⟨.refl p.1, rfl, rfl, fun _ ↦ .inr, fun h ↦ ?_⟩)
    (fun hnone ↦ ⟨.refl p.1, rfl, rfl, fun _ ↦ .inr, fun _ ↦ hp hnone⟩) fun hnone ↦ ?_
  · rcases h with h | h
    · cases h
    · exact absurd (Option.some_inj.1 h) hne
  · refine live_ask rfl hfree fun hcareful gas ↦
      ⟨p.1.extends_modify (·.setCode C a r.ret), rfl, rfl, fun b ↦ List.mem_cons.1,
        fun _ b hb ↦ ?_⟩
    have hprotected : (p.1.now.setCode C a r.ret).Protected C a :=
      protected_setCode (hcareful.imp_left fun h hzero ↦ h (congrArg Except.ok hzero))
    rcases List.mem_cons.1 hb with rfl | hb
    · exact hprotected
    · exact guards_put (fun _ ↦ hprotected) b (hp hnone b hb)

variable {runner : Runner} (hrun : (liveSetting C).Runs runner) (hcode : runner.LeavesCode)

include hrun hcode

/-- The part of `create` after the checks: the address is not protected, and stays free until the
constructor has ended. -/
theorem live_enterCreate (caller : Address) (code : Bytes) (codeHash : Hash) (gas value : Nat)
    {typ : OpCode} (htyp : typ = .create ∨ typ = .create2) (m : Machine) (p : Timeline × Registry)
    (hp : (liveSetting C).inv p) (hfree : ¬ p.1.now.Protected C a) :
    (liveSetting C).wp (evm.enterCreate runner caller code codeHash gas value a typ m) p
      fun _ q ↦ Continues p q ∧ (liveSetting C).inv q := by
  have hlive : a ∉ p.2.live := fun h ↦ hfree (hp a h)
  refine wp_query_bind (live_snapshot p hp) fun id q ⟨hpq, hq, hnow, hl, hs, hrevert⟩ ↦ ?_
  have hfree' : ¬ q.1.now.Protected C a := by rwa [hnow]
  refine wp_query_bind (live_modify rfl (fun h ↦ hfree' (hq a h)) rfl
    (guards_createAccount hfree')) fun _ r hqr ↦ ?_
  refine wp_lift_bind (live_transfer caller a value r) fun _ x hrx ↦ ?_
  refine wp.bind (live_captureFrame typ htyp caller value m x) fun ⟨_, m₁⟩ y ⟨_, hy, hnew⟩ ↦ ?_
  subst hy
  have hqx := hqr.trans hrx
  obtain ⟨hcont, hx⟩ := hqx.keeps hq
  have hwithin : (liveSetting C).Within gas := nofun
  refine wp.bind ((hrun ⟨caller, a, code, codeHash, some a, [], gas, value⟩ [] false hwithin m₁
    (x.1, x.2.start a) (live_fits m₁) hx).and_returns (hcode _ _ _ m₁))
    fun ⟨result, m₂⟩ z ⟨⟨_, hyz, hz⟩, herr⟩ ↦ ?_
  -- The constructor has not created its own contract.
  have hlive' : a ∉ z.2.live := fun h ↦ by
    have h := hyz.live a List.mem_cons_self h
    rw [show (x.1, x.2.start a).2.live = x.2.live from rfl, hqx.registry, hl] at h
    exact hlive h
  have hstart : Continues x (x.1, x.2.start a) :=
    ⟨.refl _, Newer.refl _ _, fun _ ↦ List.mem_cons_of_mem a, fun _ _ hb ↦ hb⟩
  have hqz : Continues q z := (hcont.trans hstart).trans hyz
  refine wp.bind (live_storeCode herr m₂ z hz hlive')
    fun ⟨result, m₃⟩ w ⟨hext, hsaved, hstarted, hstored, hw⟩ ↦ ?_
  have hqw : Continues q w := by
    obtain ⟨newer, hsaved', hids⟩ := hqz.saved
    refine ⟨hqz.timeline.trans hext, ⟨newer, hsaved.trans hsaved', hids⟩,
      hstarted ▸ hqz.started, fun b hb h ↦ ?_⟩
    rcases hstored b h with rfl | h
    · exact absurd (hqx.registry ▸ hb) hnew
    · exact hqz.live b hb h
  refine wp.bind (P := fun _ (x : Timeline × Registry) ↦ Continues p x ∧ (liveSetting C).inv x) ?_
    fun _ _ h ↦ h
  exact wp_settleCreate (fun h ↦ ⟨hpq.trans hqw, hw h⟩) ((hrevert w hqw).mono fun _ _ h _ ↦ h)

theorem live_createAt (hcrypto : evm.crypto = C) (caller : Address) (code : Bytes) (codeHash : Hash)
    (gas value : Nat) {typ : OpCode} (htyp : typ = .create ∨ typ = .create2) :
    (liveSetting C).Keeps (evm.createAt runner caller code codeHash gas value a typ) := by
  intro m p hm hp
  unfold EVM.createAt
  rw [readRegister_bind]
  split
  · exact ⟨hm, .refl p, fun _ ↦ hp⟩
  have hcan : (liveSetting C).wp (canTransfer caller value) p fun _ q ↦ Silent C p q :=
    wp.bind (live_harmless (o := .getBalance caller) rfl p) fun _ _ h ↦ h
  refine wp_lift_bind hcan fun ok q hpq ↦ ?_
  obtain ⟨hcont, hq⟩ := hpq.keeps hp
  cases ok with
  | false => exact ⟨hm, hcont, fun _ ↦ hq⟩
  | true =>
    refine wp_query_of_ok rfl not_false ?_
    split
    · exact ⟨hm, hcont, fun _ ↦ hq⟩
    next hnonce =>
    refine wp_query_bind (live_modify (o := .setNonce caller _) rfl not_false rfl
      (guards_setNonce (add_one_ne_zero_of_not_lt hnonce))) fun _ x hrx ↦ ?_
    obtain ⟨hcont', hx⟩ := hrx.keeps hq
    refine wp_query_of_ok rfl not_false (wp_query_of_ok rfl not_false ?_)
    split
    · exact ⟨hm, hcont.trans hcont', fun _ ↦ hx⟩
    next hcollision =>
    have hfree : ¬ x.1.now.Protected C a := by rwa [World.Protected, ← hcrypto]
    refine (live_enterCreate hrun hcode caller code codeHash gas value htyp m x hx hfree).mono
      fun r x h ↦ ⟨live_fits r.2, (hcont.trans hcont').trans h.1, fun _ ↦ h.2⟩

end Creations

/-- **Running code keeps live contracts protected.** -/
theorem liveLogic {jt : JumpTable} (hjt : InstructionSet jt) (hcrypto : evm.crypto = C) :
    CodeLogic evm jt (liveSetting C) where
  toCodeRules := liveRules C
  entries := hjt.entry
  limit_le := nofun
  selected h := absurd rfl h
  addRefund gas p hp := (live_modify (o := .addRefund gas) rfl not_false rfl
    (guards_of_accounts rfl)).mono fun _ _ h ↦ h.keeps hp
  sstore callees scope _ := by
    obtain ⟨clear, hclear⟩ := hjt.clearingRefund
    obtain ⟨sentry, lists, prices, hentry, _⟩ := hclear.sstore
    rw [hentry]
    exact live_sstore callees scope
  addLog _ log p hp := (live_modify (o := .addLog log) rfl not_false rfl
    (guards_of_accounts rfl)).mono fun _ _ h ↦ h.keeps hp
  destruct _ := live_destruct
  transfer caller addr value p _ hp := (live_transfer caller addr value p).mono fun _ _ h ↦ h.keeps hp
  touch addr p hp := (live_addBalance addr 0 p).mono fun _ _ h ↦ h.keeps hp
  account := live_account
  snapshot p hp := (live_snapshot p hp).mono fun _ _ ⟨hpq, hq, _, _, _, hrevert⟩ ↦ ⟨hpq, hq, hrevert⟩
  create _ _ _ hrun hcode caller code codeHash gas value _ _ htyp :=
    live_createAt hrun hcode hcrypto caller code codeHash gas value htyp

/-! ## Messages -/

variable (msg : Message)

def NonceFits (a : Address) (p : Timeline × Registry) : Prop :=
  ¬ p.1.now.read a 0 (·.nonce) + 1 < p.1.now.read a 0 (·.nonce)

theorem live_checkSender (hfake : msg.isFake = false) (p : Timeline × Registry) :
    (liveSetting C).wp (checkSender evm msg) p fun r q ↦
      q = p ∧ (r = none → NonceFits msg.sender p) := by
  unfold checkSender
  rw [if_neg (by simp [hfake])]
  refine wp_ask_of_ok rfl not_false ?_
  split
  · exact ⟨rfl, nofun⟩
  split
  · exact ⟨rfl, nofun⟩
  split
  · exact ⟨rfl, nofun⟩
  next hfits =>
  refine wp_ask_of_ok rfl not_false ?_
  split
  · exact ⟨rfl, nofun⟩
  · exact ⟨rfl, fun _ ↦ hfits⟩

theorem live_preCheck (hfake : msg.isFake = false) (gp : GasPool) (p : Timeline × Registry)
    (hp : (liveSetting C).inv p) :
    (liveSetting C).wp (preCheck evm msg gp) p fun r q ↦
      Continues p q ∧ (liveSetting C).inv q ∧ ∀ gp', r = .ok gp' → NonceFits msg.sender q := by
  refine wp.bind (live_checkSender msg hfake p) fun r q ⟨hq, hfits⟩ ↦ ?_
  subst hq
  cases r with
  | some e => exact ⟨.refl q, hp, nofun⟩
  | none =>
    have hfits := hfits rfl
    have hcrash : (liveSetting C).wp (orCrash (checkFees evm msg)) q fun _ r ↦ r = q := by
      cases checkFees evm msg with
      | error e => exact trivial
      | ok a => exact rfl
    refine wp.bind hcrash fun r x hx ↦ ?_
    subst hx
    cases r with
    | some e => exact ⟨.refl x, hp, nofun⟩
    | none =>
      refine wp_ask_of_ok rfl not_false ?_
      split
      · exact ⟨.refl x, hp, nofun⟩
      split
      · exact ⟨.refl x, hp, nofun⟩
      · refine wp.bind (live_ask (Q := fun _ z ↦
          Silent C x z ∧ NonceFits msg.sender z) rfl not_false fun _ ↦ ?_) fun _ z ⟨hxz, hz⟩ ↦ ?_
        · refine ⟨⟨x.1.extends_modify (·.addBalance C msg.sender _), rfl,
            x.1.now.guards_addBalance _ _⟩, ?_⟩
          unfold NonceFits
          dsimp only [Timeline.modify]
          rwa [nonce_addBalance]
        · obtain ⟨hcont, hinv⟩ := hxz.keeps hp
          exact ⟨hcont, hinv, fun _ _ ↦ hz⟩

/-- **A transaction keeps live contracts protected.** -/
theorem live_transitionDb (hcrypto : evm.crypto = C) (hfake : msg.isFake = false) (gp : GasPool) :
    (liveSetting C).Keeps (transitionDb evm msg gp) := by
  have L := liveLogic (.select evm.chainRules) hcrypto
  refine keeps_transitionDbWith msg L (fun o p ho hp ↦ ?_) trivial rfl rfl (NonceFits msg.sender) gp
    (live_preCheck msg hfake gp) (fun p hp hfits ↦ ?_) fun p hp hfits ↦ ?_
  · by_cases hcalm : Calm o
    · exact L.harmless o p hcalm.harmless hp
    cases o with
    | addBalance a x => exact (live_addBalance a x p).mono fun _ _ h ↦ h.keeps hp
    | subBalance a x =>
      exact (live_modify (o := .subBalance a x) rfl not_false rfl
        (p.1.now.guards_addBalance a (-x))).mono fun _ _ h ↦ h.keeps hp
    | _ => exact absurd ho hcalm
  · unfold canPay
    split
    · exact wp_ask_of_ok rfl not_false ⟨.refl p, hp, hfits⟩
    · exact ⟨.refl p, hp, hfits⟩
  · refine live_ask rfl not_false fun _ ↦ ⟨.refl p, hp, ?_⟩
    exact (live_modify (o := .setNonce msg.sender _) rfl not_false rfl
      (guards_setNonce (add_one_ne_zero_of_not_lt hfits))).mono fun _ _ h ↦ h.keeps hp

end Timelines

/-! ## Histories -/

section Databases

variable {C : Crypto} {db : StateDatabase C}

/-- `HasSuicided`. -/
def selfDestructed (db : StateDatabase C) (s : StateDB) (a : Address) : Bool :=
  match (StateDB.handler db).answer (.hasSuicided a) s with
  | .ok suicided => suicided
  | .error _ => false

/-- A state database and the register beside it after a sequence of transactions, each of them followed
by `Finalise`. Whatever else happens in between, such as rewards, or committing the state and opening
it again for the next block, leaves nonces and code. -/
inductive History (db : StateDatabase C) : StateDB × Registry → Prop
  | start {s : StateDB} (hs : s.Reachable db) : History db (s, .new)
  | transaction {p p' : StateDB × Registry} {evm : EVM} {msg : Message} {gp : GasPool} {m : Machine}
    {r : (GasPool × Except TransitionError ExecutionResult) × Machine} (hp : History db p)
    (hcrypto : evm.crypto = C) (hfake : msg.isFake = false)
    (hcareful : (transitionDb evm msg gp m).Along (registered (StateDB.handler db))
      (Careful C (StateDB.handler db)) p)
    (hrun : (transitionDb evm msg gp m).run (registered (StateDB.handler db)) p = .ok (r, p'))
    (del : Bool) : History db (p'.1.finalise C del, p'.2.finalise (selfDestructed db p'.1))
  | between {s s' : StateDB} {g : Registry} (hp : History db (s, g)) (hs' : s'.Reachable db)
    (hnonce : ∀ a, (StateDB.handler db).answer (.getNonce a) s' =
      (StateDB.handler db).answer (.getNonce a) s)
    (hcode : ∀ a, (StateDB.handler db).answer (.getCodeHash a) s' =
      (StateDB.handler db).answer (.getCodeHash a) s) : History db (s', g)

variable {t : Timeline} {s : StateDB}

theorem selfDestructed_eq (h : Refines db s t) (a : Address) :
    selfDestructed db s a = t.now.read a false (·.suicided) := by
  unfold selfDestructed
  rw [(handler_simulates db).answer_eq trivial h]
  rfl

theorem careful_iff (o : StateOp) (p : StateDB × Registry) (q : Timeline × Registry)
    (hpq : Refines db p.1 q.1 ∧ p.2 = q.2) :
    Careful C (StateDB.handler db) o p ↔ Careful C (handler C) o q := by
  obtain ⟨href, heq⟩ := hpq
  cases o with
  | setCode a code => simp only [Careful, (handler_simulates db).answer_eq trivial href]
  | _ => simp only [Careful, heq]

/-- What a transaction does to live contracts, on a state database. -/
theorem live_transaction {p : StateDB × Registry} (href : Refines db p.1 t)
    (hp : ∀ a ∈ p.2.live, t.now.Protected C a) {evm : EVM} (hcrypto : evm.crypto = C) {msg : Message}
    (hfake : msg.isFake = false) {gp : GasPool} {m : Machine}
    (hcareful : (transitionDb evm msg gp m).Along (registered (StateDB.handler db))
      (Careful C (StateDB.handler db)) p) :
    (transitionDb evm msg gp m).Along (registered (StateDB.handler db)) (fun o q ↦ ¬ Replaces o q.2) p ∧
      ∀ r p', (transitionDb evm msg gp m).run (registered (StateDB.handler db)) p = .ok (r, p') →
        ∃ u, Refines db p'.1 u ∧ ∀ a ∈ p'.2.live, u.now.Protected C a := by
  have hsim := (handler_simulates db).observed Registry.observe
  have huses := uses_true (transitionDb evm msg gp m)
  have hwp := live_transitionDb msg hcrypto hfake gp m (t, p.2) (live_fits m) hp
  have hassume := (along_simulates hsim careful_iff huses (t := (t, p.2)) ⟨href, rfl⟩).1 hcareful
  refine ⟨?_, fun r p' hrun ↦ ?_⟩
  · refine .of_simulates hsim (fun o q x hqx h ↦ ?_) huses (t := (t, p.2)) ⟨href, rfl⟩
      (hwp.sound hassume).1
    rw [hqx.2]
    exact h
  · have hout := hwp.of_simulates hsim huses ⟨href, rfl⟩ hassume
    rw [hrun] at hout
    obtain ⟨x, ⟨hrefx, hregistry⟩, _, _, hx⟩ := hout
    refine ⟨x.1, hrefx, fun a ha ↦ ?_⟩
    rw [hregistry] at ha
    exact hx trivial a ha

/-- **Live contracts are protected.** -/
theorem History.protected {p : StateDB × Registry} (h : History db p) :
    p.1.Reachable db ∧ ∀ a ∈ p.2.live, (p.1.world db).Protected C a := by
  induction h with
  | start hs => exact ⟨hs, nofun⟩
  | @transaction p p' evm msg gp m r hp hcrypto hfake hcareful hrun del ih =>
    obtain ⟨hs, hlive⟩ := ih
    obtain ⟨t, ht⟩ := hs.refines
    obtain ⟨u, hu, hprotected⟩ := (live_transaction ht (ht.now ▸ hlive) hcrypto hfake
      hcareful).2 r p' hrun
    refine ⟨.finalise (hs.of_run (run_of_observed hrun)) del, fun a ha ↦ ?_⟩
    obtain ⟨ha, hkept⟩ := List.mem_filter.1 ha
    rw [selfDestructed_eq hu, hu.now] at hkept
    exact protected_finalise hu del (hu.now ▸ hprotected a ha) (by simpa using hkept)
  | @between s s' g hp hs' hnonce hcode ih =>
    obtain ⟨hs, hlive⟩ := ih
    obtain ⟨t, ht⟩ := hs.refines
    obtain ⟨u, hu⟩ := hs'.refines
    refine ⟨hs', fun a ha ↦ ?_⟩
    have hanswer {s t} (h : Refines db s t) (o : StateOp) := (handler_simulates db).answer_eq (o := o) trivial h
    have hnonce := (hanswer hu _).symm.trans ((hnonce a).trans (hanswer ht _))
    have hcode := (hanswer hu _).symm.trans ((hcode a).trans (hanswer ht _))
    have hprotected := hlive a ha
    rw [← ht.now, World.Protected] at hprotected
    rwa [← hu.now, World.Protected,
      show u.now.read a 0 (·.nonce) = t.now.read a 0 (·.nonce) from Except.ok.inj hnonce,
      show u.now.read a 0 (·.codeHash) = t.now.read a 0 (·.codeHash) from Except.ok.inj hcode]

/-- **A live contract is not replaced.** During a transaction after any history of transactions, where
every creation that succeeds leaves a nonce or code and none starts at an address at which one has
started before in the same transaction, no account is created over a live contract and no second
creation succeeds there. -/
theorem live_contract_is_not_replaced {p : StateDB × Registry} (hp : History db p) {evm : EVM}
    (hcrypto : evm.crypto = C) {msg : Message} (hfake : msg.isFake = false) {gp : GasPool} {m : Machine}
    (hcareful : (transitionDb evm msg gp m).Along (registered (StateDB.handler db))
      (Careful C (StateDB.handler db)) p) :
    (transitionDb evm msg gp m).Along (registered (StateDB.handler db))
      (fun o q ↦ ¬ Replaces o q.2) p := by
  obtain ⟨hs, hlive⟩ := hp.protected
  obtain ⟨t, ht⟩ := hs.refines
  exact (live_transaction ht (ht.now ▸ hlive) hcrypto hfake hcareful).1

end Databases

namespace Sample

/-- A contract that creates another one from the init code with `CREATE2`, passing on the value it is
called with. -/
def factoryCode (initCode : Bytes) : Bytes :=
  UInt8.ofNat (0x5f + initCode.length) :: initCode ++
    [0x60, 0, 0x52, 0x60, 0, 0x60, UInt8.ofNat initCode.length, 0x60,
      UInt8.ofNat (32 - initCode.length), 0x34, 0xf5]

/-- A constructor that writes 1 to the slot that its value names and deploys no code. -/
def bareFactory : Bytes := factoryCode [0x30, 0x31, 0x50, 0x60, 1, 0x34, 0x55]

/-- A constructor that deploys one byte of code. -/
def codeFactory : Bytes := factoryCode [0x60, 1, 0x60, 0, 0x53, 0x60, 1, 0x60, 0, 0xf3]

/-- The second call of the factory, with some value. -/
def again : Message := { Chain.Sample.message with nonce := 1, amount := 1 }

open Chain.Sample State.Sample in
def callFactory (code : Bytes) (msg : Message) (p : StateDB × Registry) :=
  (transitionDb (evm crypto none) msg 8000000 Machine.init).run
    (registered (StateDB.handler (database code))) p

open State.Sample in
def finish (code : Bytes) (p : StateDB × Registry) : StateDB × Registry :=
  (p.1.finalise crypto false, p.2.finalise (selfDestructed (database code) p.1))

end Sample

open Chain.Sample State.Sample Sample in
/-- The factory is called twice, and the second creation fails. -/
theorem live_contract_is_not_replaced_code : ∃ p, History (database codeFactory) p ∧
    p.2.live = [0x600160005360016000f3] ∧
      (transitionDb (evm crypto none) again 8000000 Machine.init).Along
        (registered (StateDB.handler (database codeFactory))) (fun o q ↦ ¬ Replaces o q.2) p := by
  obtain ⟨⟨r, p⟩, hrun, hp⟩ := Container.exists_of_eval
    (x := callFactory codeFactory message (state codeFactory, .new))
    (f := fun p ↦ ((finish codeFactory p.2).2.live,
      decide ((transitionDb (evm crypto none) again 8000000 .init).Along
        (registered (StateDB.handler (database codeFactory)))
        (Careful crypto (StateDB.handler (database codeFactory))) (finish codeFactory p.2))))
    (b := ([0x600160005360016000f3], true)) (by decide +kernel)
  obtain ⟨hlive, hcareful⟩ := Prod.mk.inj hp
  have hfirst : History (database codeFactory) (finish codeFactory p) :=
    .transaction (.start (reachable_state codeFactory)) rfl rfl (by decide +kernel) hrun false
  exact ⟨_, hfirst, hlive,
    live_contract_is_not_replaced hfirst rfl rfl (of_decide_eq_true hcareful)⟩

open Chain.Sample State.Sample Sample in
/-- A contract that has deployed no code is created again by the next transaction, although it has not
self-destructed. What its constructor wrote is wiped. -/
theorem contract_without_code_is_replaced :
    (callFactory bareFactory message (state bareFactory, .new)).toOption.bind (fun p ↦
      (callFactory bareFactory again (finish bareFactory p.2)).toOption.map fun q ↦
        ((finish bareFactory p.2).2.live,
          ((StateDB.handler (database bareFactory)).answer (.getState 0x30315060013455 0)
            (finish bareFactory p.2).1).toOption,
          q.2.2.live, selfDestructed (database bareFactory) q.2.1 0x30315060013455,
          ((StateDB.handler (database bareFactory)).answer (.getState 0x30315060013455 0)
            q.2.1).toOption)) =
      some ([0x30315060013455], some 1, [0x30315060013455, 0x30315060013455], false, some 0) := by
  decide +kernel

end GoEntropy.Execution
