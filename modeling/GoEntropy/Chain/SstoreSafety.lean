import GoEntropy.Chain.TransitionLogic
import GoEntropy.State.Reachable

/-!
# Storage writes under EIP-2929

The gas function of `SSTORE` under EIP-2929 panics if the executing contract's address is not in the
access list. Call instructions put their callee there before they enter it. Nothing puts the outermost
callee or a contract under construction there: `TransitionDb` does not prepare the access list, and
`create` does not add the address it creates.

So whether a message can crash the node is decided by the addresses at which the outermost frame and
the constructors start. `StartsListed` says that these are in the access list when they start, and
under this assumption every storage access of the message finds its address there, at any depth and
through any number of reverts.
-/

namespace GoEntropy.Chain

open Evm Interaction State Timeline AccessList

section Observations

variable {σ τ : Type} (h : Handler StateInterface Fault σ)

def Listed (a : Address) (s : σ) : Prop := h.answer (.addressInAccessList a) s = .ok true

def HasCode (a : Address) (s : σ) : Prop := h.answer (.getCode a) s ≠ .ok []

/-- Where the outermost frame starts running code, and where a constructor starts, the address is in
the access list. -/
def StartsListed : StateOp → σ → Prop
  | .captureStart _ dest create _, s => create = true ∨ HasCode h dest s → Listed h dest s
  | .captureEnter typ _ dest _, s => typ = .create ∨ typ = .create2 → Listed h dest s
  | _, _ => True

/-- Where a gas function looks up a storage slot, and where `SSTORE` is executed, the address is in
the access list. -/
def StorageListed : StateOp → σ → Prop
  | .slotInAccessList a _, s => Listed h a s
  | .captureState op a, s => op = .sstore → Listed h a s
  | _, _ => True

instance (a : Address) (s : σ) : Decidable (Listed h a s) :=
  inferInstanceAs (Decidable ((_ : Except Fault Bool) = _))

instance (a : Address) (s : σ) : Decidable (HasCode h a s) :=
  inferInstanceAs (Decidable (¬(_ : Except Fault Bytes) = _))

instance (o : StateOp) (s : σ) : Decidable (StartsListed h o s) := by
  unfold StartsListed
  split <;> infer_instance

variable {h} {g : Handler StateInterface Fault τ} {R : σ → τ → Prop}
  (hR : h.Simulates g (fun _ ↦ True) R)

include hR

theorem listed_iff {s : σ} {t : τ} (hst : R s t) (a : Address) : Listed h a s ↔ Listed g a t := by
  rw [Listed, Listed, hR.answer_eq trivial hst]

theorem hasCode_iff {s : σ} {t : τ} (hst : R s t) (a : Address) : HasCode h a s ↔ HasCode g a t := by
  rw [HasCode, HasCode, hR.answer_eq trivial hst]

theorem startsListed_iff (o : StateOp) (s : σ) (t : τ) (hst : R s t) :
    StartsListed h o s ↔ StartsListed g o t := by
  cases o with
  | captureStart _ dest _ _ =>
    simp only [StartsListed, hasCode_iff hR hst, listed_iff hR hst]
  | captureEnter _ _ dest _ => simp only [StartsListed, listed_iff hR hst]
  | _ => exact .rfl

theorem storageListed_iff (o : StateOp) (s : σ) (t : τ) (hst : R s t) :
    StorageListed h o s ↔ StorageListed g o t := by
  cases o with
  | slotInAccessList a _ => exact listed_iff hR hst a
  | captureState op a => simp only [StorageListed, listed_iff hR hst]
  | _ => exact .rfl

end Observations

/-! ## The logic -/

section Warm

variable {C : Crypto}

def StaysListed (t u : Timeline) : Prop :=
  (∀ a, t.now.accessList.containsAddress a = true → u.now.accessList.containsAddress a = true) ∧
    t.Extends u

def AllListed (l : List Address) (t : Timeline) : Prop :=
  ∀ a ∈ l, t.now.accessList.containsAddress a = true

variable {t : Timeline}

theorem listed_timeline {a : Address} :
    Listed (handler C) a t ↔ t.now.accessList.containsAddress a = true := by
  simp [Listed, Handler.answer, handler, Except.map]

theorem StaysListed.refl (t : Timeline) : StaysListed t t := ⟨fun _ h ↦ h, .refl t⟩

theorem StaysListed.trans {t u v : Timeline} (htu : StaysListed t u) (huv : StaysListed u v) :
    StaysListed t v := ⟨fun a ha ↦ huv.1 a (htu.1 a ha), htu.2.trans huv.2⟩

theorem staysListed_modify {f : World → World} (hf : ∀ a, t.now.accessList.containsAddress a = true →
      (f t.now).accessList.containsAddress a = true) : StaysListed t (t.modify f) :=
  ⟨hf, t.extends_modify f⟩

theorem staysListed_of_eq {f : World → World}
    (hf : (f t.now).accessList = t.now.accessList) : StaysListed t (t.modify f) :=
  staysListed_modify fun a ha ↦ by rw [hf]; exact ha

/-- No method takes an address out of the access list, going back to a snapshot apart. -/
theorem handler_staysListed (o : StateOp) (ho : ∀ id, o ≠ .revertToSnapshot id) (t : Timeline) :
    match handler C o t with
    | .ok (_, u) => StaysListed t u
    | .error e => e ≠ .sstoreAddressNotPresent := by
  cases o with
  | createAccount | subBalance | addBalance | setNonce | setCode | addRefund | setState | addLog =>
    exact staysListed_of_eq rfl
  | subRefund g =>
    by_cases hg : g > t.now.refund
    · simp [handler, hg]
    · simp only [handler, if_neg hg]
      exact staysListed_of_eq rfl
  | suicide a => exact staysListed_of_eq (f := fun w ↦ (w.suicide a).2) (by unfold World.suicide; split <;> rfl)
  | addPreimage hash p => exact staysListed_of_eq (by unfold World.addPreimage; split <;> rfl)
  | slotInAccessList a k =>
    simp only [handler]
    cases hc : t.now.accessList.contains a k with
    | error e => simp [Except.map, contains_error hc]
    | ok r => exact .refl t
  | addAddressToAccessList a =>
    exact staysListed_modify fun b hb ↦ containsAddress_addAddress.2 (.inr hb)
  | addSlotToAccessList a k =>
    simp only [handler]
    cases hadd : t.now.accessList.addSlot a k with
    | error e => simp [Except.map, addSlot_error hadd]
    | ok r =>
      exact staysListed_modify fun b hb ↦ (containsAddress_of_addSlot hadd).2 (.inr hb)
  | revertToSnapshot id => exact absurd rfl (ho id)
  | snapshot => exact ⟨fun _ h ↦ h, t.extends_snapshot⟩
  | _ => exact .refl t

abbrev warmWp {α : Type} (C : Crypto) (x : Evm.StateM α) (t : Timeline)
    (Q : α → Timeline → Prop) : Prop :=
  x.wp (Timeline.handler C) (StartsListed (Timeline.handler C)) (StorageListed (Timeline.handler C))
    (· ≠ .sstoreAddressNotPresent) t Q

variable {o : StateOp}

theorem warm_ask (ho : ∀ id, o ≠ .revertToSnapshot id) (hG : StorageListed (handler C) o t) :
    warmWp C (ask o) t fun _ u ↦ StaysListed t u := by
  refine Prog.wp_perform.2 fun _ ↦ ⟨hG, ?_⟩
  have hstep := handler_staysListed (C := C) o ho t
  cases hs : handler C o t with
  | error e | ok p => rwa [hs] at hstep

theorem warm_quiet {lists : Bool} (ho : QuietOr lists o) (t : Timeline) :
    warmWp C (ask o) t fun _ u ↦ StaysListed t u := by
  refine warm_ask ?_ ?_ <;> cases o <;> simp_all [QuietOr, StateOp.isQuiet, StateOp.isAccessList,
    StorageListed]

theorem warm_balance (ho : QuietOrBalance o) (t : Timeline) :
    warmWp C (ask o) t fun _ u ↦ StaysListed t u := by
  refine warm_ask ?_ ?_ <;> cases o <;> simp_all [QuietOrBalance, Quiet, StateOp.isQuiet,
    StorageListed]

theorem warm_accessAddress {l : List Address} (addr : Address) (m : Machine) (ht : AllListed l t) :
    warmWp C (accessAddress addr m) t fun _ u ↦ StaysListed t u ∧ AllListed (addr :: l) u := by
  refine wp_query_of_ok rfl trivial ?_
  split
  · next hp =>
    refine ⟨.refl t, fun a ha ↦ ?_⟩
    rcases List.mem_cons.1 ha with rfl | ha
    · exact hp
    · exact ht a ha
  · refine wp_query_of_ok rfl trivial ?_
    refine ⟨staysListed_modify fun b hb ↦ containsAddress_addAddress.2 (.inr hb),
      fun a ha ↦ containsAddress_addAddress.2 ?_⟩
    exact (List.mem_cons.1 ha).imp_right (ht a)

theorem warm_sstoreSlotCost {l : List Address} {self : Address} (slot : Hash) (m : Machine)
    (ht : AllListed l t) (hself : self ∈ l) :
    warmWp C (sstoreSlotCost self slot m) t fun _ u ↦ StaysListed t u := by
  refine wp_query_bind
    (P := fun r u ↦ u = t ∧ r.1 = true) (Prog.wp_perform.2 fun _ ↦ ?_)
    fun ⟨addrPresent, slotPresent⟩ u ⟨hu, hpresent⟩ ↦ ?_
  · refine ⟨listed_timeline.2 (ht self hself), ?_⟩
    simp only [handler]
    cases hc : t.now.accessList.contains self slot with
    | error e => simp [Except.map, contains_error hc]
    | ok r => exact ⟨rfl, by rw [containsAddress_of_contains hc, ht self hself]⟩
  · obtain rfl : addrPresent = true := hpresent
    subst hu
    cases slotPresent with
    | true => exact .refl u
    | false =>
      exact wp_query_bind (warm_ask (by simp) trivial)
        fun _ _ hv ↦ hv

theorem warm_destruct (self beneficiary : Address) (m : Machine) (t : Timeline) :
    warmWp C (destruct self beneficiary m) t fun _ u ↦ StaysListed t u := by
  refine wp_query_bind (warm_ask (by simp) trivial) fun balance u hu ↦ ?_
  refine wp_query_bind (warm_ask (by simp) trivial)
    fun _ v hv ↦ ?_
  refine wp_query_bind (warm_ask (by simp) trivial) fun _ w hw ↦ ?_
  exact Prog.wp_map.2 ((warm_ask (o := .captureEnter .selfdestruct self beneficiary balance)
    (by simp) trivial).mono fun _ _ hx ↦ hu.trans (hv.trans (hw.trans hx)))

theorem warm_captureStart (src dest : Address) (create : Bool) (value : Nat) (t : Timeline) :
    warmWp C (ask (.captureStart src dest create value)) t fun _ u ↦
      StaysListed t u ∧ (create = true → AllListed [dest] u) ∧
        warmWp C (ask (.getCode dest)) u fun code v ↦
          StaysListed u v ∧ (code ≠ [] → AllListed [dest] v) := by
  refine Prog.wp_perform.2 fun hA ↦ ⟨trivial, .refl t, fun hcreate ↦ ?_, ?_⟩
  · simpa [AllListed] using listed_timeline.1 (hA (.inl hcreate))
  · refine Prog.wp_perform.2 fun _ ↦ ⟨trivial, .refl t, fun hcode ↦ ?_⟩
    simpa [AllListed] using listed_timeline.1 (hA (.inr fun h ↦ hcode (Except.ok.inj h)))

theorem warm_snapshot (t : Timeline) :
    warmWp C (ask .snapshot) t fun id u ↦ StaysListed t u ∧ (∀ (_ : Address) (_ : Nat), True → True) ∧
      ∀ v, StaysListed u v → warmWp C (ask (.revertToSnapshot id)) v fun _ w ↦ StaysListed t w := by
  refine Prog.wp_perform.2 fun _ ↦ ⟨trivial, ⟨fun _ h ↦ h, t.extends_snapshot⟩,
    fun _ _ h ↦ h, fun v hv ↦ Prog.wp_perform.2 fun _ ↦ ⟨trivial, ?_⟩⟩
  obtain ⟨w, hrevert, hnow, hext⟩ := revertToSnapshot_of_extends hv.2
  have hrevert : v.revertToSnapshot t.nextId = .ok w := hrevert
  simp only [handler, hrevert]
  exact ⟨fun a ha ↦ by rw [hnow]; exact ha, hext⟩

/-- **Addresses stay warm.** Where the table's prices depend on the access list, executions keep
every address in it, and rely on the ones their frames run as. -/
theorem warmLogic {evm : EVM} (hlists : usesAccessList evm.chainRules = true) :
    StateLogic evm (handler C) (StartsListed (handler C))
      (StorageListed (handler C)) (· ≠ .sstoreAddressNotPresent) StaysListed AllListed
      fun _ _ _ ↦ True where
  refl := .refl
  trans := .trans
  fit_step hs ht a ha := ht.1 a (hs a ha)
  fit_mono hl hs a ha := hs a (hl a ha)
  fit_of_not_usesAccessList _ _ h := absurd hlists (by simp [h])
  fault _ he := he
  quiet o t ho := (warm_quiet ho t).mono fun _ _ hu ↦ ⟨hu, fun _ _ h ↦ h⟩
  captureState op t ht hself := warm_ask (by simp) fun _ ↦ listed_timeline.2 (ht _ hself)
  accessAddress addr m t _ ht := warm_accessAddress addr m ht
  slotInAccessList slot t _ ht hself := warm_ask (by simp) (listed_timeline.2 (ht _ hself))
  sstoreSlotCost slot m t _ ht hself := warm_sstoreSlotCost slot m ht hself
  destruct := warm_destruct
  canTransfer _ _ _ := Prog.wp.bind (warm_ask (by simp) trivial) fun _ _ hu ↦ ⟨hu, fun _ ↦ trivial⟩
  can_zero _ _ := trivial
  transfer _ a v _ _ := Prog.wp.bind (warm_ask (by simp) trivial) fun _ _ hu ↦
    (warm_ask (o := .addBalance a v) (by simp) trivial).mono fun _ _ ↦ hu.trans
  touch a t := warm_ask (by simp) trivial
  captureStart := warm_captureStart
  captureEnter _ _ _ _ t _ := Prog.wp_perform.2 fun hA ↦
    ⟨trivial, .refl t, fun htyp ↦ by simpa [AllListed] using listed_timeline.1 (hA htyp)⟩
  snapshot := warm_snapshot

end Warm

/-! ## Messages -/

variable {C : Crypto} {db : StateDatabase C}

/-- **Storage writes do not crash.** For every message under London, on every state database: if the
outermost callee and every contract under construction are in the access list when they start, then
every storage access, at any depth, finds its address there, and the panic is not reached. -/
theorem sstore_address_present {s : StateDB} (hs : s.Reachable db) (evm : EVM)
    (hlondon : evm.chainConfig.isLondon evm.context.blockNumber = true) (msg : Message)
    (gp : GasPool) {m : Machine} (hm : m.depth = 0)
    (hstarts : (transitionDb evm msg gp m).Along (StateDB.handler db)
      (StartsListed (StateDB.handler db)) s) :
    (transitionDb evm msg gp m).Along (StateDB.handler db) (StorageListed (StateDB.handler db)) s ∧
      (transitionDb evm msg gp m).run (StateDB.handler db) s ≠
        .error .sstoreAddressNotPresent := by
  obtain ⟨t, hst⟩ := hs.refines
  have hsim := handler_simulates db
  have huses : (transitionDb evm msg gp m).Uses (fun _ ↦ True) fun _ ↦ True := Prog.uses_true _
  have hlists : usesAccessList evm.chainRules = true := by
    simp [usesAccessList, EVM.chainRules, ChainConfig.rules, hlondon]
  have hwp := wp_transitionDb msg (warmLogic (C := C) hlists) (fun o t ho ↦ warm_balance ho t) gp
    hm t
  obtain ⟨hguarantee, hout⟩ := hwp.sound
    ((Prog.along_simulates hsim (startsListed_iff hsim) huses hst).1 hstarts)
  refine ⟨(Prog.along_simulates hsim (storageListed_iff hsim) huses hst).2 hguarantee, ?_⟩
  intro hcrash
  rw [Prog.run_simulates_error hsim huses hst hcrash] at hout
  exact hout rfl

/-! ## A contract that writes its storage -/

/-- `PUSH1 1 PUSH1 1 SSTORE`. -/
def Sample.sstoreCode : Bytes := [0x60, 0x01, 0x60, 0x01, 0x55]

open Sample State.Sample in
/-- On a London chain, a message that calls a contract whose first instruction is `SSTORE` passes
`preCheck` and crashes, and so does one that creates a contract with such a constructor. -/
theorem sstore_crashes :
    ((preCheck (evm crypto none) message 8000000).run (StateDB.handler (database sstoreCode))
        (state sstoreCode)).toOption.map Prod.fst = some (.ok 7900000) ∧
      (transitionDb (evm crypto none) message 8000000 Machine.init).run (StateDB.handler (database sstoreCode))
        (state sstoreCode) = .error .sstoreAddressNotPresent ∧
      (transitionDb (evm crypto none) { message with toAddr := none, data := sstoreCode } 8000000
        Machine.init).run (StateDB.handler (database sstoreCode)) (state sstoreCode) =
          .error .sstoreAddressNotPresent :=
  ⟨by decide, eq_error_of_faults (by decide), eq_error_of_faults (by decide)⟩

open Sample State.Sample in
/-- With the contract in the access list the same call does not crash. -/
theorem sstore_address_present_listed :
    (transitionDb (evm crypto none) message 8000000 Machine.init).run (StateDB.handler (database sstoreCode))
      ((state sstoreCode).addAddressToAccessList 0x20) ≠ .error .sstoreAddressNotPresent :=
  (sstore_address_present
    (.method (o := .addAddressToAccessList 0x20) (r := ()) (reachable_state sstoreCode) rfl)
    (evm crypto none) rfl message 8000000 rfl (by decide)).2

end GoEntropy.Chain
