import GoEntropy.Chain.TransitionLogic
import GoEntropy.Evm.StorageWrites
import GoEntropy.State.Storage
import GoEntropy.Execution.FailedFrames

/-!
# The refund counter

Clearing a slot is refunded, and writing the slot again takes the refund back. `SubRefund` panics if
there is less in the counter than is taken back, and a comment in the gas functions claims that this
never happens. The reason is an invariant: the counter pays for every cleared slot (`Covered`).

Between the gas function of `SSTORE`, which takes the refund back, and the write itself, one cleared
slot is not paid for. If the frame fails in between, for lack of gas, it is undone, and the counter
with it.

The invariant holds after `Finalise`, so it holds at the start of every transaction of a block. It
need not hold where slots have been set from outside, as the state overrides of `eth_call` do.
-/

namespace GoEntropy.State.World

variable {C : Crypto} {clear : Nat} {w w' : World}

def Covered (C : Crypto) (clear : Nat) (w : World) : Prop :=
  clear * (w.cleared C).ncard ≤ w.refund

/-- The refund counter pays for every cleared slot but one. -/
def AlmostCovered (C : Crypto) (clear : Nat) (w : World) : Prop :=
  clear * (w.cleared C).ncard ≤ w.refund + clear

theorem Covered.almost (h : w.Covered C clear) : w.AlmostCovered C clear := Nat.le_add_right_of_le h

theorem Covered.of_subset (h : w.Covered C clear) (hsub : w'.cleared C ⊆ w.cleared C)
    (hrefund : w.refund ≤ w'.refund) : w'.Covered C clear :=
  calc clear * (w'.cleared C).ncard
      ≤ clear * (w.cleared C).ncard := Nat.mul_le_mul_left _ (Set.ncard_le_ncard hsub (Set.toFinite _))
    _ ≤ w.refund := h
    _ ≤ w'.refund := hrefund

theorem Covered.of_sameStorage (h : w.Covered C clear) (hsame : SameStorage C w w')
    (hrefund : w.refund ≤ w'.refund) : w'.Covered C clear :=
  h.of_subset (cleared_eq_of_sameStorage hsame).subset hrefund

/-- What a write does to the refund: it is granted if the slot is cleared by the write, and taken back
if it was cleared before. -/
structure Settled (C : Crypto) (clear : Nat) (a : Address) (key value : Hash) (w w' : World) :
    Prop where
  accounts : w'.accounts = w.accounts
  refund : w.refund +
      clear * (if (w.getOrNew C a).committed key ≠ 0 ∧ value = 0 then 1 else 0) ≤
    w'.refund +
      clear * if (w.getOrNew C a).committed key ≠ 0 ∧ (w.getOrNew C a).storage key = 0 then 1 else 0

variable {a : Address} {key value : Hash}

theorem Settled.covered (h : Settled C clear a key value w w') (hw : w.Covered C clear) :
    (w'.setState C a key value).Covered C clear := by
  have hsame : ∀ v v' : World, v'.accounts = v.accounts →
      (v'.setState C a key value).cleared C = (v.setState C a key value).cleared C :=
    fun v v' hacc ↦ cleared_eq_of_sameStorage (sameStorage_of_accounts (by
      rw [setState, setState, put, put, getOrNew, getOrNew, hacc]))
  have hcount := congrArg (clear * ·) (w.ncard_cleared_setState (C := C) a key value)
  simp only [Nat.mul_add] at hcount
  have hrefund := h.refund
  unfold Covered at hw ⊢
  rw [hsame w w' h.accounts]
  show _ ≤ w'.refund
  omega

/-- Before it is made, the slot that it writes may not be paid for. -/
theorem Settled.almost (h : Settled C clear a key value w w') (hw : w.Covered C clear) :
    w'.AlmostCovered C clear := by
  have hone : clear * (if (w.getOrNew C a).committed key ≠ 0 ∧ (w.getOrNew C a).storage key = 0
      then 1 else 0) ≤ clear := by
    split <;> simp
  have hrefund := h.refund
  unfold Covered at hw
  unfold AlmostCovered
  rw [cleared_eq_of_sameStorage (sameStorage_of_accounts h.accounts)]
  omega

end GoEntropy.State.World

namespace GoEntropy.Execution

open Evm Interaction State Chain

/-- The methods that are called between the gas function of a write and the write, or the end of a frame
that cannot pay for it. -/
def duringWrite : StateOp → Bool
  | .addRefund _ | .captureState _ _ | .setState _ _ _ | .revertToSnapshot _ => true
  | _ => false

def granted : StateOp → Option Nat
  | .addRefund gas => some gas
  | _ => none

section Timelines

variable {C : Crypto} {clear : Nat} {evm : EVM} {jt : JumpTable}

/-- The refund counter pays for every cleared slot, and for all but one during a write. -/
def refundSetting (C : Crypto) (clear : Nat) : WorldSetting where
  crypto := C
  assume o w := ∀ gas ∈ granted o, w.refund + gas < 2 ^ 64
  guarantee o w := w.AlmostCovered C clear ∧ (duringWrite o = false → w.Covered C clear)
  fault e := e ≠ .refundCounterBelowZero
  readOnly := false
  limit := none
  moves w w' := w' = w ∨ w.Covered C clear ∧ w'.AlmostCovered C clear
  inv := World.Covered C clear

theorem refund_step {w w' : World} (hw : w.Covered C clear) (hw' : w'.Covered C clear) :
    (refundSetting C clear).Step w w' :=
  ⟨.inr ⟨hw, hw'.almost⟩, hw'⟩

theorem refundRules (C : Crypto) (clear : Nat) : WorldRules (refundSetting C clear) where
  refl _ := .inl rfl
  trans := by
    rintro w w' w'' (rfl | ⟨hw, hw'⟩) (rfl | ⟨hv, hv'⟩)
    · exact .inl rfl
    · exact .inr ⟨hv, hv'⟩
    · exact .inr ⟨hw, hw'⟩
    · exact .inr ⟨hw, hv'⟩
  fault e he := by
    rintro rfl
    cases he
  guarantee _ _ hw := ⟨hw.almost, fun _ ↦ hw⟩
  lists _ _ _ hw := refund_step hw (hw.of_sameStorage (World.sameStorage_of_accounts rfl) le_rfl)

/-! ## The gas functions of writes -/

variable {t : Timeline}

theorem refund_addRefund (gas : Nat) (ht : t.now.AlmostCovered C clear) :
    (refundSetting C clear).toCode.wp (ask (.addRefund gas)) t fun _ u ↦
      t.Extends u ∧ u.now.accounts = t.now.accounts ∧ u.now.refund = t.now.refund + gas := by
  refine CodeSetting.ask_of_ok ⟨ht, nofun⟩ rfl fun hA ↦ ?_
  exact ⟨t.extends_modify _, rfl, add64_of_lt (hA gas rfl)⟩

theorem refund_subRefund {gas : Nat} (ht : t.now.Covered C clear) (hgas : gas ≤ t.now.refund) :
    (refundSetting C clear).toCode.wp (ask (.subRefund gas)) t fun _ u ↦
      t.Extends u ∧ u.now.accounts = t.now.accounts ∧ u.now.refund + gas = t.now.refund := by
  have hsub : Timeline.handler C (.subRefund gas) t =
      .ok ((), t.modify fun w ↦ { w with refund := w.refund - gas }) := if_neg (not_lt.2 hgas)
  refine CodeSetting.ask_of_ok ⟨ht.almost, fun _ ↦ ht⟩ hsub fun _ ↦ ?_
  exact ⟨t.extends_modify _, rfl, Nat.sub_add_cancel hgas⟩

variable {p : NetSstore} {self : Address} {slot : Hash} {m : Machine}

/-- Going back to the original value takes nothing back. -/
theorem refund_grantResetRefund (original value : Hash) (ht : t.now.AlmostCovered C clear) :
    (refundSetting C clear).toCode.wp (grantResetRefund p original value m) t fun _ u ↦
      t.Extends u ∧ u.now.accounts = t.now.accounts ∧ t.now.refund ≤ u.now.refund := by
  have hgrant : ∀ gas, (refundSetting C clear).toCode.wp (query (.addRefund gas) m) t fun _ u ↦
      t.Extends u ∧ u.now.accounts = t.now.accounts ∧ t.now.refund ≤ u.now.refund := fun gas ↦
    Prog.wp_map.2 ((refund_addRefund gas ht).mono fun _ u ⟨htu, hacc, hrefund⟩ ↦
      ⟨htu, hacc, hrefund ▸ Nat.le_add_right _ gas⟩)
  unfold grantResetRefund
  split
  · split
    · exact hgrant _
    · exact hgrant _
  · exact ⟨.refl t, rfl, le_rfl⟩

/-- Overwriting a dirty slot settles the refund for clearing it: if the slot is cleared, the counter has
paid for it. -/
theorem refund_changeClearRefund (hp : p.clearRefund = clear) (ht : t.now.Covered C clear) {value : Hash}
    (hvalue : (t.now.getOrNew C self).storage slot ≠ value) :
    (refundSetting C clear).toCode.wp (changeClearRefund p ((t.now.getOrNew C self).committed slot)
        ((t.now.getOrNew C self).storage slot) value m) t fun _ u ↦
      t.Extends u ∧ World.Settled C clear self slot value t.now u.now := by
  have hcount := t.now.ncard_cleared_setState (C := C) self slot value
  have hwrite : ∀ {w : World}, w.accounts = t.now.accounts → _ →
      World.Settled C clear self slot value t.now w := fun hacc hrefund ↦ ⟨hacc, hrefund⟩
  generalize (t.now.getOrNew C self).committed slot = original at hcount hwrite ⊢
  generalize (t.now.getOrNew C self).storage slot = current at hcount hwrite hvalue ⊢
  unfold changeClearRefund
  split
  · next horiginal =>
    refine ⟨.refl t, hwrite rfl ?_⟩
    rw [if_neg (fun h ↦ h.1 horiginal), if_neg (fun h ↦ h.1 horiginal)]
  next horiginal =>
  split
  · next hcurrent =>
    have hvalue : value ≠ 0 := fun h ↦ hvalue (hcurrent.trans h.symm)
    have hpos : p.clearRefund ≤ t.now.refund := by
      rw [if_pos ⟨horiginal, hcurrent⟩, if_neg (fun h ↦ hvalue h.2)] at hcount
      calc p.clearRefund = clear * 1 := by rw [hp, Nat.mul_one]
        _ ≤ clear * (t.now.cleared C).ncard := Nat.mul_le_mul_left _ (by omega)
        _ ≤ t.now.refund := ht
    refine Prog.wp_map.2 ((refund_subRefund ht hpos).mono fun _ u ⟨htu, hacc, hrefund⟩ ↦
      ⟨htu, hwrite hacc ?_⟩)
    rw [if_neg (fun h ↦ hvalue h.2), if_pos ⟨horiginal, hcurrent⟩]
    omega
  next hcurrent =>
  split
  · next hzero =>
    refine Prog.wp_map.2 ((refund_addRefund p.clearRefund ht.almost).mono
      fun _ u ⟨htu, hacc, hrefund⟩ ↦ ⟨htu, hwrite hacc ?_⟩)
    rw [if_pos ⟨horiginal, hzero⟩]
    omega
  · next hzero =>
    refine ⟨.refl t, hwrite rfl ?_⟩
    rw [if_neg (fun h ↦ hzero h.2), if_neg (fun h ↦ hcurrent h.2)]

theorem refund_netSstore (hp : p.clearRefund = clear) (ht : t.now.Covered C clear) (value : Hash) :
    (refundSetting C clear).toCode.wp
      (netSstore p self slot value ((t.now.getOrNew C self).storage slot) m) t fun _ u ↦
        t.Extends u ∧ World.Settled C clear self slot value t.now u.now := by
  rw [netSstore_eq]
  split
  · next heq => exact ⟨.refl t, rfl, by rw [heq]⟩
  next hvalue =>
  refine wp_query_of_ok rfl ⟨ht.almost, fun _ ↦ ht⟩ ?_
  rw [t.now.read_committed C]
  split
  · next hclean =>
    -- A clean slot is not cleared.
    have hbefore : ¬ ((t.now.getOrNew C self).committed slot ≠ 0 ∧
        (t.now.getOrNew C self).storage slot = 0) := fun h ↦ h.1 (hclean.trans h.2)
    split
    · next hzero =>
      refine ⟨.refl t, rfl, ?_⟩
      rw [if_neg hbefore, if_neg (fun h ↦ h.1 hzero)]
    next hzero =>
    split
    · next hvalue =>
      refine wp_query_bind (refund_addRefund p.clearRefund ht.almost)
        fun _ u ⟨htu, hacc, hrefund⟩ ↦ ⟨htu, hacc, ?_⟩
      rw [if_pos ⟨hzero, hvalue⟩]
      omega
    · next hvalue =>
      refine ⟨.refl t, rfl, ?_⟩
      rw [if_neg hbefore, if_neg (fun h ↦ hvalue h.2)]
  · refine Prog.wp.bind (refund_changeClearRefund hp ht hvalue) fun p₁ u ⟨htu, hu⟩ ↦ ?_
    refine Prog.wp.bind (refund_grantResetRefund _ _ (hu.almost ht)) fun p₂ v ⟨huv, hacc, hrefund⟩ ↦ ?_
    exact ⟨htu.trans huv, hacc.trans hu.accounts, hu.refund.trans (by omega)⟩

theorem refund_slotCost (lists : Bool) (ht : t.now.Covered C clear) :
    (refundSetting C clear).toCode.wp (slotCost lists self slot m) t fun _ u ↦
      t.Extends u ∧ u.now.accounts = t.now.accounts ∧ u.now.refund = t.now.refund := by
  -- The same setting, with moves that leave the accounts and the counter.
  have R : WorldRules { refundSetting C clear with
      moves := fun w w' ↦ w'.accounts = w.accounts ∧ w'.refund = w.refund } :=
    { refl := fun _ ↦ ⟨rfl, rfl⟩
      trans := fun h h' ↦ ⟨h'.1.trans h.1, h'.2.trans h.2⟩
      fault := (refundRules C clear).fault
      guarantee := (refundRules C clear).guarantee
      lists := fun w al pre hw ↦ ⟨⟨rfl, rfl⟩, ((refundRules C clear).lists w al pre hw).inv⟩ }
  have hcost := R.codeRules.slotCost lists (by rintro ⟨⟩) self slot m t nofun ht
  exact hcost.mono fun _ u ⟨_, ⟨htu, hacc, hrefund⟩, _⟩ ↦ ⟨htu, hacc, hrefund⟩

theorem refund_sstoreGas {sentry lists : Bool} {prices : Nat → NetSstore}
    (hprices : ∀ cost, (prices cost).clearRefund = clear) (contract : Contract) (stack : Stack)
    (mem : Memory) (ht : t.now.Covered C clear) :
    (refundSetting C clear).toCode.wp
      (sstoreGas sentry lists prices evm contract stack mem 0 m) t fun q u ↦
        t.Extends u ∧ (q.1 = none ∧ u = t ∨
          World.Settled C clear contract.self (stack.back 0) (stack.back 1) t.now u.now) := by
  unfold sstoreGas
  split
  · exact ⟨.refl t, .inl ⟨rfl, rfl⟩⟩
  refine wp_query_of_ok rfl ⟨ht.almost, fun _ ↦ ht⟩ ?_
  rw [t.now.read_storage C]
  refine Prog.wp.bind (refund_slotCost lists ht) fun p u h ↦ ?_
  obtain ⟨htu, hacc, hrefund⟩ := h
  have hsame : ∀ a, u.now.getOrNew C a = t.now.getOrNew C a := fun a ↦ by
    rw [World.getOrNew, hacc, World.getOrNew]
  have hu : u.now.Covered C clear :=
    ht.of_sameStorage (World.sameStorage_of_accounts hacc) hrefund.ge
  rw [← hsame]
  refine Prog.wp.bind (refund_netSstore (hprices p.1) hu (stack.back 1)) fun q v h ↦ ?_
  obtain ⟨huv, hv⟩ := h
  refine ⟨htu.trans huv, .inr ⟨hv.accounts.trans hacc, ?_⟩⟩
  rw [← hrefund, ← hsame]
  exact hv.refund

/-- **A write keeps the invariant.** A frame that fails after the gas function has left one cleared slot
that is not paid for. -/
theorem refund_sstore {sentry lists : Bool} {prices : Nat → NetSstore}
    (hprices : ∀ cost, (prices cost).clearRefund = clear) (callees : Callees) (scope : Scope) :
    (refundSetting C clear).toCode.Settles ExecResult.Good
      ((sstoreEntry sentry lists prices).executePaid evm callees .sstore scope) := by
  intro m t hm ht
  have R := refundRules C clear
  have hfits : ∀ m', (refundSetting C clear).toCode.Fits m' := nofun
  refine Prog.wp.bind (refund_sstoreGas hprices scope.contract scope.stack scope.memory ht)
    fun ⟨cost, m'⟩ u ⟨htu, hu⟩ ↦ ?_
  obtain ⟨hcost, rfl⟩ | hu := hu
  · subst hcost
    exact ⟨hfits m', ⟨.refl u, .inl rfl⟩, nofun⟩
  have hfailed : (refundSetting C clear).toCode.moves t u := ⟨htu, .inr ⟨ht, hu.almost ht⟩⟩
  refine wp_payDynamic (fun _ ↦ ⟨hfits m', hfailed, nofun⟩) fun q _ _ ↦ ?_
  refine wp_query_of_ok rfl ⟨hu.almost ht, nofun⟩ ?_
  refine wp_opSstore evm callees (fun _ ↦ R.fault .indexOutOfRange rfl)
    (fun _ ↦ ⟨hfits m', hfailed, nofun⟩) fun _ ↦ ?_
  refine CodeSetting.ask_of_ok ⟨hu.almost ht, nofun⟩ rfl fun _ ↦ ?_
  have hset := hu.covered ht
  exact ⟨hfits m', ⟨htu.trans (u.extends_modify _), .inr ⟨ht, hset.almost⟩⟩, fun _ ↦ hset⟩

/-- **Running code keeps the refund counter above what the cleared slots are worth.** -/
theorem refundLogic (C : Crypto) (evm : EVM) (hclear : ClearingRefund jt clear) :
    WorldLogic evm jt (refundSetting C clear) where
  toWorldRules := refundRules C clear
  entries := hclear.instructionSet.entry
  limit_le := nofun
  selected h := absurd rfl h
  undo _ w w' hw h := by
    rcases h with rfl | ⟨_, hw'⟩
    · exact ⟨hw.almost, nofun⟩
    · exact ⟨hw', nofun⟩
  addRefund gas w hA hw := by
    refine refund_step hw (hw.of_sameStorage (World.sameStorage_of_accounts rfl) ?_)
    exact (Nat.le_add_right _ gas).trans (add64_of_lt (hA gas rfl)).ge
  sstore callees scope _ := by
    obtain ⟨sentry, lists, prices, hentry, hprices⟩ := hclear.sstore
    rw [hentry]
    exact refund_sstore hprices callees scope
  touch a w hw := refund_step hw (hw.of_sameStorage (w.sameStorage_addBalance a 0) le_rfl)
  account _ w habsent hw :=
    refund_step hw (hw.of_sameStorage (World.sameStorage_createAccount habsent) le_rfl)
  addBalance _ a x w hw := refund_step hw (hw.of_sameStorage (w.sameStorage_addBalance a x) le_rfl)
  suicide _ a w hw := refund_step hw (hw.of_sameStorage (w.sameStorage_suicide a)
    (by rw [World.refund_suicide]))
  addLog _ _ _ hw := refund_step hw (hw.of_sameStorage (World.sameStorage_of_accounts rfl) le_rfl)
  setNonce _ _ a n w hw := refund_step hw (hw.of_sameStorage (World.sameStorage_put rfl rfl) le_rfl)
  setCode _ _ a code w hw := refund_step hw (hw.of_sameStorage (World.sameStorage_put rfl rfl) le_rfl)
  createAccount _ _ a w hw :=
    refund_step hw (hw.of_subset (w.cleared_createAccount_subset a) le_rfl)

end Timelines

/-! ## On a state database -/

/-- The slots of a state database that the transaction found with a value and that have none now. -/
def clearedSlots {C : Crypto} (db : StateDatabase C) (s : StateDB) : Set (Address × Hash) :=
  {p | (StateDB.handler db).answer (.getCommittedState p.1 p.2) s ≠ .ok (0 : Hash) ∧
    (StateDB.handler db).answer (.getState p.1 p.2) s = .ok (0 : Hash)}

def RefundCovers {C : Crypto} (db : StateDatabase C) (clear : Nat) (s : StateDB) : Prop :=
  clear * (clearedSlots db s).ncard ≤ s.refund

/-- At a method call: a refund that is taken back is there, the counter pays for every cleared slot but
one, and for that one too unless a write is being made. -/
structure RefundKept {C : Crypto} (db : StateDatabase C) (clear : Nat) (o : StateOp) (s : StateDB) :
    Prop where
  subRefund : ∀ gas, o = .subRefund gas → gas ≤ s.refund
  almost : clear * (clearedSlots db s).ncard ≤ s.refund + clear
  covers : duringWrite o = false → RefundCovers db clear s

def RefundFits (o : StateOp) (s : StateDB) : Prop :=
  ∀ gas ∈ granted o, s.refund + gas < 2 ^ 64

instance (o : StateOp) (s : StateDB) : Decidable (RefundFits o s) :=
  inferInstanceAs (Decidable (∀ gas ∈ granted o, s.refund + gas < 2 ^ 64))

section Databases

variable {C : Crypto} {db : StateDatabase C} {clear : Nat} {s : StateDB} {t : Timeline}

theorem clearedSlots_eq (h : Refines db s t) : clearedSlots db s = t.now.cleared C := by
  ext p
  have hok : ∀ x y : Hash, (.ok x : Except Fault Hash) = .ok y ↔ x = y :=
    fun _ _ ↦ ⟨Except.ok.inj, congrArg _⟩
  rw [clearedSlots, Set.mem_ofPred_eq, answer_getState h, answer_getCommittedState h, ne_eq, hok, hok]
  rfl

theorem refund_eq (h : Refines db s t) : t.now.refund = s.refund := by
  rw [h.now]
  rfl

theorem refundCovers_iff (h : Refines db s t) : RefundCovers db clear s ↔ t.now.Covered C clear := by
  rw [RefundCovers, World.Covered, clearedSlots_eq h, refund_eq h]

/-- **Between transactions no slot is cleared.** -/
theorem refundCovers_of_resting (h : Resting db s) : RefundCovers db clear s := by
  rw [refundCovers_iff h.refines]
  have hempty : (s.world db).cleared C = ∅ := by
    refine Set.eq_empty_of_forall_notMem fun ⟨a, key⟩ ⟨hcommitted, hstorage⟩ ↦ hcommitted ?_
    rw [← hstorage]
    cases hacc : (s.world db).accounts a with
    | none => simp [World.getOrNew, hacc]; rfl
    | some acc =>
      have hclean := (h.atRest.clean a acc hacc).2
      simp only [World.getOrNew, hacc, Option.getD_some, hclean]
  show clear * ((s.world db).cleared C).ncard ≤ _
  rw [hempty, Set.ncard_empty]
  exact Nat.zero_le _

end Databases

/-- **The refund counter stays above what the cleared slots are worth.** For every state database,
instruction set and message: if the counter pays for the slots that are cleared before the message, and
no refund that is granted overflows it, then whenever a refund is taken back it is there, and the
counter pays for every cleared slot at every method call, except for the one slot that is being written
between the gas function and the write. A transition does not end in the panic of `SubRefund`. -/
theorem refund_counter_covers_cleared_slots {C : Crypto} {db : StateDatabase C} {s : StateDB}
    (hs : s.Reachable db) (evm : EVM) {jt : JumpTable} {clear : Nat} (hclear : ClearingRefund jt clear)
    (msg : Message) (gp : GasPool) (m : Machine) (hcovers : RefundCovers db clear s)
    (hfits : (transitionDbWith evm msg jt gp m).Along (StateDB.handler db) RefundFits s) :
    (transitionDbWith evm msg jt gp m).Along (StateDB.handler db) (RefundKept db clear) s ∧
      match (transitionDbWith evm msg jt gp m).run (StateDB.handler db) s with
      | .ok (_, s') => RefundCovers db clear s'
      | .error e => e ≠ .refundCounterBelowZero := by
  obtain ⟨t, hst⟩ := hs.refines
  have hsim := handler_simulates db
  have huses := Prog.uses_true (transitionDbWith evm msg jt gp m)
  have hwp := keeps_transitionDbWith_of_world msg (refundLogic C evm hclear) rfl rfl
    (by rintro ⟨⟩) gp m t nofun ((refundCovers_iff hst).1 hcovers)
  have hassume : (transitionDbWith evm msg jt gp m).Along (Timeline.handler C)
      (fun o t ↦ (refundSetting C clear).assume o t.now) t := by
    refine (Prog.along_simulates hsim (fun o s t hst ↦ ?_) huses hst).1 hfits
    rw [RefundFits, ← refund_eq hst]
    rfl
  have hrun := hwp.of_simulates hsim huses hst hassume
  have hpanic : (transitionDbWith evm msg jt gp m).run (StateDB.handler db) s ≠
      .error .refundCounterBelowZero := by
    intro h
    rw [h] at hrun
    exact hrun rfl
  have hkept : (transitionDbWith evm msg jt gp m).Along (StateDB.handler db) (fun o s ↦
      clear * (clearedSlots db s).ncard ≤ s.refund + clear ∧
        (duringWrite o = false → RefundCovers db clear s)) s := by
    refine .of_simulates hsim (fun o s t hst h ↦ ?_) huses hst (hwp.sound hassume).1
    rw [refundCovers_iff hst, clearedSlots_eq hst, ← refund_eq hst]
    exact h
  constructor
  · refine hkept.imp (fun o s ⟨halmost, hcovers⟩ hne ↦ ?_) (Prog.along_of_run_ne hpanic)
    refine ⟨?_, halmost, hcovers⟩
    rintro gas rfl
    by_contra hgas
    exact hne (by simp [StateDB.handler, StateDB.subRefund, not_le.1 hgas, Except.map])
  · split at hrun
    · next hresult =>
      obtain ⟨u, hsu, _, _, hu⟩ := hrun
      rw [hresult]
      exact (refundCovers_iff hsu).2 (hu trivial)
    · next hresult =>
      rw [hresult]
      exact hrun

namespace Sample

open Chain.Sample State.Sample

/-- A chain that has seen no fork after EIP-150. -/
def whistle : EVM := { evm crypto none with chainConfig := ⟨some 1, some 0, some 0, none⟩ }

/-- `PUSH1 1 PUSH1 5 SSTORE`. -/
def setCode : Bytes := [0x60, 0x01, 0x60, 0x05, 0x55]

/-- `PUSH1 0 PUSH1 5 SSTORE`, and the same again with 1. -/
def clearAndSetCode : Bytes := [0x60, 0x00, 0x60, 0x05, 0x55] ++ setCode

/-- A state in which slot 5 of the contract at `0x20` holds 7, between transactions. -/
def stored (code : Bytes) : StateDB :=
  ((state code).setState (database code) 0x20 5 7).finalise crypto false

theorem reachable_stored (code : Bytes) : (stored code).Reachable (database code) :=
  .finalise (.method (o := .setState 0x20 5 7) (r := ()) (reachable_state code) rfl) false

end Sample

open Chain.Sample State.Sample Sample in
/-- A call that clears the slot and writes it again. -/
theorem refund_counter_covers_cleared_slots_rewritten :
    (transitionDbWith whistle message newTangerineWhistleInstructionSet 8000000 Machine.init).Along
        (StateDB.handler (database clearAndSetCode))
        (RefundKept (database clearAndSetCode) Params.netSstoreClearRefund) (stored clearAndSetCode) ∧
      match (transitionDbWith whistle message newTangerineWhistleInstructionSet 8000000
          Machine.init).run (StateDB.handler (database clearAndSetCode)) (stored clearAndSetCode) with
      | .ok (_, s') => RefundCovers (database clearAndSetCode) Params.netSstoreClearRefund s'
      | .error e => e ≠ .refundCounterBelowZero :=
  refund_counter_covers_cleared_slots (reachable_stored clearAndSetCode) whistle .tangerineWhistle
    message 8000000 .init
    (refundCovers_of_resting (.finalise (StateDB.Reachable.method (o := .setState 0x20 5 7) (r := ())
      (reachable_state clearAndSetCode) rfl).refines.choose_spec false))
    (by decide)

open Chain.Sample State.Sample Sample in
/-- A state override sets the slot to zero without a refund. A call that writes the slot then panics. -/
theorem refund_counter_below_zero_after_override :
    ((stored setCode).setState (database setCode) 0x20 5 0).Reachable (database setCode) ∧
      (transitionDb whistle { message with isFake := true } 8000000 Machine.init).run
          (StateDB.handler (database setCode)) ((stored setCode).setState (database setCode) 0x20 5 0) =
        .error .refundCounterBelowZero :=
  ⟨.method (o := .setState 0x20 5 0) (r := ()) (reachable_stored setCode) rfl,
    eq_error_of_faults (by decide)⟩

end GoEntropy.Execution
