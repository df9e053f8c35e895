import GoEntropy.Evm.FrameLogic

/-!
# State logics

A frame logic from an invariant of the state. The judgement says: from every state in which the
addresses the program relies on are fit (`Fit l s`), each call of a state method meets its guarantee,
faults are allowed ones, and the state moves along a relation `T`.

What has to be shown for this is one fact for each method or small group of methods, and that a
snapshot brackets: whatever moved along `T` since the snapshot, reverting to it is a move along `T`
from before it. `StateLogic.frameLogic` derives the entry points from these, and with them
everything about executions.

`Can c v s` is what a positive answer of `CanTransfer` establishes and a transfer needs. It has to
survive what happens in between.
-/

namespace GoEntropy.Evm

open Interaction Prog

variable {σ : Type}

section wp

variable {h : Handler StateInterface Fault σ} {A G : StateOp → σ → Prop} {E : Fault → Prop}
  {α β : Type} {m : Machine} {s : σ} {Q : β × Machine → σ → Prop}

theorem wp_lift_bind {x : StateM α} {f : α → EvmM β} {P : α → σ → Prop} (hx : x.wp h A G E s P)
    (hf : ∀ a t, P a t → (f a m).wp h A G E t Q) : ((lift x >>= f) m).wp h A G E s Q :=
  wp_bind.2 (wp_map.2 (hx.mono hf))

theorem wp_query_bind {o : StateOp} {f : o.Res → EvmM β} {P : o.Res → σ → Prop}
    (ho : (ask o).wp h A G E s P) (hf : ∀ r t, P r t → (f r m).wp h A G E t Q) :
    ((query o >>= f) m).wp h A G E s Q :=
  wp_lift_bind ho hf

theorem wp_ask_of_ok {o : StateOp} {f : o.Res → StateM α} {r : o.Res} {t : σ} {Q : α → σ → Prop}
    (ho : h o s = .ok (r, t)) (hG : G o s) (hf : (f r).wp h A G E t Q) :
    (ask o >>= f).wp h A G E s Q := by
  refine wp_bind.2 (wp_perform.2 fun _ ↦ ⟨hG, ?_⟩)
  rw [ho]
  exact hf

theorem wp_query_of_ok {o : StateOp} {f : o.Res → EvmM β} {r : o.Res} {t : σ}
    (ho : h o s = .ok (r, t)) (hG : G o s) (hf : (f r m).wp h A G E t Q) :
    ((query o >>= f) m).wp h A G E s Q := wp_ask_of_ok ho hG hf

section Uses

variable {S : StateOp → Prop} {F : Fault → Prop} {addr : Address}

theorem uses_accessAddress (hin : S (.addressInAccessList addr)) (hadd : S (.addAddressToAccessList addr)) :
    (accessAddress addr m).Uses S F := by
  refine ⟨hin, fun present ↦ ?_⟩
  cases present with
  | true => trivial
  | false => exact ⟨hadd, fun _ ↦ trivial⟩

theorem uses_sstoreSlotCost {slot : Hash} (hin : S (.slotInAccessList addr slot))
    (hadd : S (.addSlotToAccessList addr slot)) (hF : F .sstoreAddressNotPresent) :
    (sstoreSlotCost addr slot m).Uses S F := by
  refine ⟨hin, fun ⟨addrPresent, slotPresent⟩ ↦ ?_⟩
  cases slotPresent with
  | true => trivial
  | false =>
    refine ⟨hadd, fun _ ↦ ?_⟩
    cases addrPresent with
    | true => trivial
    | false => exact hF

end Uses

theorem wp_payDynamic {o : Operation} {evm : EVM} {callees : Callees} {op : OpCode} {scope : Scope}
    {size : Nat} {cost : Option (Nat × Memory)} {Q : ExecResult × Machine → σ → Prop}
    (hfail : (∀ p ∈ cost, scope.contract.gas < p.1) → Q (.halt scope [] (some .outOfGas), m) s)
    (hpaid : ∀ p ∈ cost, p.1 ≤ scope.contract.gas → ((o.traceExecute evm callees op { scope with
      contract := { scope.contract with gas := scope.contract.gas - p.1 },
      memory := p.2.resize size }) m).wp h A G E s Q) :
    ((o.payDynamic evm callees op scope size cost) m).wp h A G E s Q := by
  obtain _ | p := cost
  · exact hfail nofun
  · dsimp only [Operation.payDynamic]
    cases huse : scope.contract.useGas p.1 with
    | none =>
      refine hfail ?_
      rintro _ ⟨⟩
      by_contra hle
      rw [Contract.useGas, if_neg hle] at huse
      cases huse
    | some contract =>
      obtain ⟨hle, rfl⟩ := Contract.useGas_eq_some huse
      exact hpaid p rfl hle

end wp

/-- An invariant of the state that executions keep, method by method. -/
structure StateLogic (evm : EVM) (h : Handler StateInterface Fault σ) (A G : StateOp → σ → Prop)
    (E : Fault → Prop) (T : σ → σ → Prop) (Fit : List Address → σ → Prop)
    (Can : Address → Nat → σ → Prop) : Prop where
  refl : ∀ s, T s s
  trans : ∀ {s t u}, T s t → T t u → T s u
  fit_step : ∀ {l s t}, Fit l s → T s t → Fit l t
  fit_mono : ∀ {l l' s}, (∀ a ∈ l, a ∈ l') → Fit l' s → Fit l s
  fit_of_not_usesAccessList : ∀ l s, usesAccessList evm.chainRules = false → Fit l s
  fault : ∀ e, e ≠ .sstoreAddressNotPresent → E e
  quiet : ∀ o s, QuietOr (usesAccessList evm.chainRules) o →
    (ask o).wp h A G E s fun _ t ↦ T s t ∧ ∀ c v, Can c v s → Can c v t
  captureState : ∀ {l self} op s, Fit l s → self ∈ l →
    (ask (.captureState op self)).wp h A G E s fun _ t ↦ T s t
  accessAddress : ∀ {l} addr m s, usesAccessList evm.chainRules = true → Fit l s →
    (accessAddress addr m).wp h A G E s fun _ t ↦ T s t ∧ Fit (addr :: l) t
  slotInAccessList : ∀ {l self} slot s, usesAccessList evm.chainRules = true → Fit l s → self ∈ l →
    (ask (.slotInAccessList self slot)).wp h A G E s fun _ t ↦ T s t
  sstoreSlotCost : ∀ {l self} slot m s, usesAccessList evm.chainRules = true → Fit l s → self ∈ l →
    (sstoreSlotCost self slot m).wp h A G E s fun _ t ↦ T s t
  destruct : ∀ self beneficiary m s, (destruct self beneficiary m).wp h A G E s fun _ t ↦ T s t
  canTransfer : ∀ c v s, (canTransfer c v).wp h A G E s fun ok t ↦
    T s t ∧ (ok = true → Can c v t)
  can_zero : ∀ c s, Can c 0 s
  transfer : ∀ c a v s, Can c v s → (transfer c a v).wp h A G E s fun _ t ↦ T s t
  /-- Adding nothing to a balance touches the account. -/
  touch : ∀ a s, (ask (.addBalance a 0)).wp h A G E s fun _ t ↦ T s t
  captureStart : ∀ src dest create value s,
    (ask (.captureStart src dest create value)).wp h A G E s fun _ t ↦
      T s t ∧ (create = true → Fit [dest] t) ∧
        (ask (.getCode dest)).wp h A G E t fun code u ↦ T t u ∧ (code ≠ [] → Fit [dest] u)
  captureEnter : ∀ typ src dest value s, typ ≠ .selfdestruct →
    (ask (.captureEnter typ src dest value)).wp h A G E s fun _ t ↦
      T s t ∧ (typ = .create ∨ typ = .create2 → Fit [dest] t)
  snapshot : ∀ s, (ask .snapshot).wp h A G E s fun id t ↦
    T s t ∧ (∀ c v, Can c v s → Can c v t) ∧
      ∀ u, T t u → (ask (.revertToSnapshot id)).wp h A G E u fun _ v ↦ T s v

/-- What may be said of the result of a call that starts in `s` and ends in `t`, as `Q s r t`, when all
that is known of the code it runs is that the state moves along `T`. -/
structure Outcome (h : Handler StateInterface Fault σ) (A G : StateOp → σ → Prop) (E : Fault → Prop)
    (T : σ → σ → Prop) (Can : Address → Nat → σ → Prop) (Q : σ → CallResult → σ → Prop) : Prop where
  depth : ∀ gas s, Q s ⟨[], gas, some .depth⟩ s
  canTransfer : ∀ c v s, (canTransfer c v).wp h A G E s fun ok t ↦ T s t ∧ (ok = true → Can c v t) ∧
    (ok = false → ∀ gas, Q s ⟨[], gas, some .insufficientBalance⟩ t) ∧ ∀ r u, Q t r u → Q s r u
  snapshot : ∀ s, (ask .snapshot).wp h A G E s fun id t ↦ T s t ∧ (∀ c v, Can c v s → Can c v t) ∧
    ∀ r m u, T t u → (settleCall id r m).wp h A G E u fun p v ↦ Q s p.1 v
  /-- A call that does nothing succeeds. -/
  idle : ∀ gas s t, T s t → Q s ⟨[], gas, none⟩ t

namespace StateLogic

variable {evm : EVM} {h : Handler StateInterface Fault σ} {A G : StateOp → σ → Prop}
  {E : Fault → Prop} {T : σ → σ → Prop} {Fit : List Address → σ → Prop}
  {Can : Address → Nat → σ → Prop} (L : StateLogic evm h A G E T Fit Can)

/-- From a fit state, the program moves the state along `T`. -/
def judgement (h : Handler StateInterface Fault σ) (A G : StateOp → σ → Prop) (E : Fault → Prop)
    (T : σ → σ → Prop) (Fit : List Address → σ → Prop) : Judgement :=
  fun l _ x ↦ ∀ m s, Fit l s → (x m).wp h A G E s fun _ t ↦ T s t

include L

/-! ## Sequencing -/

/-- A move along `T`, and then another one. -/
theorem andThen {α β : Type} {x : EvmM α} {f : α → EvmM β} {m : Machine} {s : σ}
    {P : α × Machine → σ → Prop} (hx : (x m).wp h A G E s fun p t ↦ T s t ∧ P p t)
    (hf : ∀ p t, T s t → P p t → (f p.1 p.2).wp h A G E t fun _ u ↦ T t u) :
    ((x >>= f) m).wp h A G E s fun _ u ↦ T s u :=
  wp.bind hx fun p t ht ↦ (hf p t ht.1 ht.2).mono fun _ _ ↦ L.trans ht.1

variable {l : List Address}

theorem bind {α β : Type} {Q : α → Prop} {x : EvmM α} {f : α → EvmM β}
    (hx : judgement h A G E T Fit l α x) (hQ : Yields Q x)
    (hf : ∀ a, Q a → judgement h A G E T Fit l β (f a)) :
    judgement h A G E T Fit l β (x >>= f) := fun m s hs ↦
  L.andThen ((hx m s hs).and_returns (hQ m)) fun p t ht hp ↦ hf p.1 hp p.2 t (L.fit_step hs ht)

omit L in
theorem query {o : StateOp} (ho : ∀ s, Fit l s → (ask o).wp h A G E s fun _ t ↦ T s t) :
    judgement h A G E T Fit l o.Res (query o) := fun _ s hs ↦ wp_map.2 (ho s hs)

theorem register {α : Type} {x : EvmM α} (f : Machine → α × Machine)
    (hx : ∀ m, x m = pure (f m)) : judgement h A G E T Fit l α x := fun m s _ ↦ by
  rw [hx m]
  exact L.refl s

theorem closed (l : List Address) :
    Closed (QuietOr (usesAccessList evm.chainRules)) (judgement h A G E T Fit l) where
  pure _ := fun _ s _ ↦ L.refl s
  bind hx hf := L.bind hx (.true _) fun a _ ↦ hf a
  crash e he := fun _ _ _ ↦ L.fault e (by rintro rfl; cases he)
  query o ho := query fun s _ ↦ (L.quiet o s ho).mono fun _ _ ht ↦ ht.1
  returnData := L.register (fun m ↦ (m.returnData, m)) fun _ ↦ rfl
  readOnly := L.register (fun m ↦ (m.readOnly, m)) fun _ ↦ rfl
  setReturnData data := L.register (fun m ↦ ((), { m with returnData := data })) fun _ ↦ rfl
  setCallGasTemp gas := L.register (fun m ↦ ((), { m with callGasTemp := gas })) fun _ ↦ rfl

/-! ## Frames -/

omit L in
theorem captureFrame_apply (typ : OpCode) (create : Bool) (src dest : Address) (value : Nat)
    (m : Machine) : captureFrame typ create src dest value m =
      (if m.depth = 0 then Evm.query (.captureStart src dest create value)
        else Evm.query (.captureEnter typ src dest value)) m := rfl

theorem captureFrame_call (src dest : Address) (value : Nat) (m : Machine) (s : σ)
    (hfit : m.depth = 0 ∨ Fit [dest] s) :
    (captureFrame .call false src dest value m).wp h A G E s fun _ t ↦ T s t ∧
      (ask (.getCode dest)).wp h A G E t fun code u ↦ T t u ∧ (code ≠ [] → Fit [dest] u) := by
  rw [captureFrame_apply]
  by_cases hdepth : m.depth = 0
  · rw [if_pos hdepth]
    exact wp_map.2 ((L.captureStart src dest false value s).mono fun _ t ht ↦ ⟨ht.1, ht.2.2⟩)
  · have hfit := hfit.resolve_left hdepth
    rw [if_neg hdepth]
    refine wp_map.2 ((L.captureEnter .call src dest value s (by simp)).mono fun _ t ht ↦ ?_)
    exact ⟨ht.1, (L.quiet (.getCode dest) t (.inl rfl)).mono fun _ u hu ↦
      ⟨hu.1, fun _ ↦ L.fit_step (L.fit_step hfit ht.1) hu.1⟩⟩

variable {typ : OpCode}

theorem captureFrame_create (htyp : typ = .create ∨ typ = .create2)
    (src dest : Address) (value : Nat) (m : Machine) (s : σ) :
    (captureFrame typ true src dest value m).wp h A G E s fun _ t ↦ T s t ∧ Fit [dest] t := by
  rw [captureFrame_apply]
  by_cases hdepth : m.depth = 0
  · rw [if_pos hdepth]
    exact wp_map.2 ((L.captureStart src dest true value s).mono fun _ t ht ↦
      ⟨ht.1, ht.2.1 rfl⟩)
  · have hne : typ ≠ .selfdestruct := by rcases htyp with rfl | rfl <;> simp
    rw [if_neg hdepth]
    exact wp_map.2 ((L.captureEnter typ src dest value s hne).mono fun _ t ht ↦
      ⟨ht.1, ht.2 htyp⟩)

theorem settleCall {s t u : σ} {id : Nat} (hst : T s t) (htu : T t u)
    (hrevert : ∀ u, T t u → (ask (.revertToSnapshot id)).wp h A G E u fun _ v ↦ T s v)
    (r : CallResult) (m : Machine) :
    (settleCall id r m).wp h A G E u fun _ v ↦ T s v := by
  unfold Evm.settleCall
  cases r.err with
  | none => exact L.trans hst htu
  | some err => exact wp_query_bind (hrevert u htu) fun _ _ hv ↦ hv

/-- The state moves along `T`, whatever the result of a call is. -/
theorem outcome : Outcome h A G E T Can fun s _ t ↦ T s t where
  depth _ s := L.refl s
  canTransfer c v s := (L.canTransfer c v s).mono fun _ _ ht ↦
    ⟨ht.1, ht.2, fun _ _ ↦ ht.1, fun _ _ ↦ L.trans ht.1⟩
  snapshot s := (L.snapshot s).mono fun _ _ ⟨hst, hcan, hrevert⟩ ↦
    ⟨hst, hcan, fun r m _ htu ↦ L.settleCall hst htu hrevert r m⟩
  idle _ _ _ hst := hst

variable {Q : σ → CallResult → σ → Prop} (hQ : Outcome h A G E T Can Q)

include hQ in
theorem canPay (c : Address) (v : Nat) (s : σ) : (canPay c v).wp h A G E s fun ok t ↦ T s t ∧
    (ok = true → Can c v t) ∧ (ok = false → ∀ gas, Q s ⟨[], gas, some .insufficientBalance⟩ t) ∧
      ∀ r u, Q t r u → Q s r u := by
  unfold Evm.canPay
  split
  · exact hQ.canTransfer c v s
  · next hv =>
    obtain rfl : v = 0 := by simpa using hv
    exact ⟨L.refl s, fun _ ↦ L.can_zero c s, nofun, fun _ _ h ↦ h⟩

variable {runner : Runner} (hrun : (judgement h A G E T Fit).OfRunner runner)

include hrun

variable (caller addr : Address) (input : Bytes) (gas value : Nat)

/-- The code part of a call, after the tracer has been told about it. -/
theorem callBody (m : Machine) (s : σ) (hready : (ask (.getCode addr)).wp h A G E s fun code t ↦
      T s t ∧ (code ≠ [] → Fit [addr] t)) :
    (evm.callBody runner caller addr input gas value m).wp h A G E s fun _ t ↦ T s t := by
  unfold EVM.callBody
  cases evm.precompile addr with
  | some p => exact L.refl s
  | none =>
    refine wp_query_bind hready fun code t ⟨hst, hcode⟩ ↦ ?_
    split
    · exact hst
    · next hlen =>
      have hfit : Fit [addr] t := hcode fun h ↦ hlen (by rw [h]; rfl)
      refine wp_query_bind (L.quiet (.getCodeHash addr) t (.inl rfl)) fun codeHash u hu ↦ ?_
      refine (hrun ⟨caller, addr, code, codeHash, some addr, [], gas, value⟩ input false m u
        (L.fit_step hfit hu.1)).mono fun _ v hv ↦ ?_
      exact L.trans hst (L.trans hu.1 hv)

include hQ

/-- The part of `Call` after the checks. The callee is fit, or the call is the outermost one and the
tracer's assumption makes it so. -/
theorem enterCall (m : Machine) (s : σ) (hcan : Can caller value s) (hfit : m.depth = 0 ∨ Fit [addr] s) :
    (evm.enterCall runner caller addr input gas value m).wp h A G E s fun p t ↦ Q s p.1 t := by
  refine wp_query_bind (hQ.snapshot s) fun id t ⟨hst, hcan_t, hsettle⟩ ↦ ?_
  refine wp_query_bind (L.quiet (.exist addr) t (.inl rfl)) fun present u ⟨htu, hcan_u⟩ ↦ ?_
  have hcan_u := hcan_u _ _ (hcan_t _ _ hcan)
  have hfit_of : ∀ {v}, T s v → m.depth = 0 ∨ Fit [addr] v :=
    fun hv ↦ hfit.imp_right fun hf ↦ L.fit_step hf hv
  -- From the transfer on, at the state `v` that has the callee's account.
  have henter : ∀ v, T t v → Can caller value v →
      ((lift (Evm.transfer caller addr value) >>= fun _ ↦
        captureFrame .call false caller addr value >>= fun _ ↦
        evm.callBody runner caller addr input gas value >>= fun r ↦
        Evm.settleCall id r) m).wp h A G E v fun p w ↦ Q s p.1 w := by
    intro v htv hcan_v
    refine wp_lift_bind (L.transfer caller addr value v hcan_v) fun _ w hvw ↦ ?_
    have htw := L.trans htv hvw
    refine wp.bind (L.captureFrame_call caller addr value m w (hfit_of (L.trans hst htw)))
      fun p x ⟨hwx, hready⟩ ↦ ?_
    refine wp.bind (L.callBody hrun caller addr input gas value p.2 x hready)
      fun q y hxy ↦ ?_
    exact hsettle q.1 q.2 y (L.trans htw (L.trans hwx hxy))
  split
  · refine wp.bind (L.captureFrame_call caller addr value m u (hfit_of (L.trans hst htu)))
      fun _ v hv ↦ ?_
    exact hQ.idle gas s v (L.trans hst (L.trans htu hv.1))
  · split
    · refine wp_query_bind (L.quiet (.createAccount addr) u (.inl rfl)) fun _ v hv ↦ ?_
      exact henter v (L.trans htu hv.1) (hv.2 _ _ hcan_u)
    · exact henter u htu hcan_u

theorem call (m : Machine) (s : σ) (hfit : m.depth = 0 ∨ Fit [addr] s) :
    (evm.call runner caller addr input gas value m).wp h A G E s fun p t ↦ Q s p.1 t := by
  unfold EVM.call
  rw [readRegister_bind]
  split
  · exact hQ.depth gas s
  · refine wp_lift_bind (L.canPay hQ caller value s) fun ok t ⟨hst, hcan, hrefused, hback⟩ ↦ ?_
    cases ok with
    | false => exact hrefused rfl gas
    | true =>
      have hfit_t := hfit.imp_right fun hf ↦ L.fit_step hf hst
      exact (L.enterCall hQ hrun caller addr input gas value m t (hcan rfl) hfit_t).mono
        fun _ ↦ hback _

omit hQ in
theorem frameBody (addr : Address) (contract : Contract) (input : Bytes) (readOnly : Bool)
    (m : Machine) (s : σ) (hfit : Fit [contract.self] s) :
    (evm.frameBody runner addr contract input readOnly m).wp h A G E s fun _ t ↦ T s t := by
  unfold EVM.frameBody
  cases evm.precompile addr with
  | some p => exact L.refl s
  | none =>
    refine wp_query_bind (L.quiet (.getCodeHash addr) s (.inl rfl)) fun codeHash t ht ↦ ?_
    refine wp_query_bind (L.quiet (.getCode addr) t (.inl rfl)) fun code u hu ↦ ?_
    have hsu := L.trans ht.1 hu.1
    exact (hrun { contract with code := code, codeHash := codeHash, codeAddr := some addr } input
      readOnly m u (L.fit_step hfit hsu)).mono fun _ _ ↦ L.trans hsu

theorem callCode (m : Machine) (s : σ) (hfit : Fit [caller] s) :
    (evm.callCode runner caller addr input gas value m).wp h A G E s fun p t ↦ Q s p.1 t := by
  unfold EVM.callCode
  rw [readRegister_bind]
  split
  · exact hQ.depth gas s
  · refine wp_lift_bind (hQ.canTransfer caller value s) fun ok t ⟨hst, _, hrefused, hback⟩ ↦ ?_
    cases ok with
    | false => exact hrefused rfl gas
    | true =>
      refine wp.mono ?_ fun _ ↦ hback _
      refine wp_query_bind (hQ.snapshot t) fun id u ⟨htu, _, hsettle⟩ ↦ ?_
      refine wp_query_bind (L.captureEnter .callCode caller addr value u (by simp))
        fun _ v ⟨huv, _⟩ ↦ ?_
      refine wp.bind (L.frameBody hrun addr _ input false m v
        (L.fit_step hfit (L.trans hst (L.trans htu huv)))) fun p w hvw ↦ ?_
      exact hsettle p.1 p.2 w (L.trans huv hvw)

theorem delegateCall (parent : Contract) (addr : Address) (input : Bytes) (gas : Nat) (m : Machine)
    (s : σ) (hfit : Fit [parent.self] s) :
    (evm.delegateCall runner parent addr input gas m).wp h A G E s fun p t ↦ Q s p.1 t := by
  unfold EVM.delegateCall
  rw [readRegister_bind]
  split
  · exact hQ.depth gas s
  · refine wp_query_bind (hQ.snapshot s) fun id t ⟨hst, _, hsettle⟩ ↦ ?_
    refine wp_query_bind (L.captureEnter .delegateCall parent.self addr 0 t (by simp))
      fun _ u ⟨htu, _⟩ ↦ ?_
    refine wp.bind (L.frameBody hrun addr _ input false m u
      (L.fit_step hfit (L.trans hst htu))) fun p v huv ↦ ?_
    exact hsettle p.1 p.2 v (L.trans htu huv)

theorem staticCall (gas : Nat) (m : Machine) (s : σ) (hfit : Fit [addr] s) :
    (evm.staticCall runner caller addr input gas m).wp h A G E s fun p t ↦ Q s p.1 t := by
  unfold EVM.staticCall
  rw [readRegister_bind]
  split
  · exact hQ.depth gas s
  · refine wp_query_bind (hQ.snapshot s) fun id t ⟨hst, _, hsettle⟩ ↦ ?_
    refine wp_query_bind (L.touch addr t) fun _ u htu ↦ ?_
    refine wp_query_bind (L.captureEnter .staticCall caller addr 0 u (by simp))
      fun _ v ⟨huv, _⟩ ↦ ?_
    have htv := L.trans htu huv
    refine wp.bind (L.frameBody hrun addr _ input true m v
      (L.fit_step hfit (L.trans hst htv))) fun p w hvw ↦ ?_
    exact hsettle p.1 p.2 w (L.trans htv hvw)

omit hQ

/-! ## Creations -/

omit hrun in
theorem storeCode (address : Address) (r : CallResult) (m : Machine) (s : σ) :
    (evm.storeCode address r m).wp h A G E s fun _ t ↦ T s t := by
  unfold EVM.storeCode
  cases evm.checkCode r with
  | some err => exact L.refl s
  | none =>
    dsimp only
    split
    · exact L.refl s
    · exact wp_query_bind (L.quiet (.setCode address r.ret) s (.inl rfl)) fun _ _ ht ↦ ht.1

omit hrun in
theorem settleCreate {s t u : σ} {id : Nat} (hst : T s t) (htu : T t u)
    (hrevert : ∀ u, T t u → (ask (.revertToSnapshot id)).wp h A G E u fun _ v ↦ T s v)
    (r : CallResult) (m : Machine) :
    (evm.settleCreate id r m).wp h A G E u fun _ v ↦ T s v := by
  unfold EVM.settleCreate
  cases r.err with
  | none => exact L.trans hst htu
  | some err =>
    dsimp only
    split
    · exact L.settleCall hst htu hrevert r m
    · exact L.trans hst htu

/-- The part of `create` after the checks, by what is known of its settlement. -/
theorem enterCreate {R : CallResult → σ → Prop} (caller : Address) (code : Bytes) (codeHash : Hash)
    (gas value : Nat) (address : Address) (htyp : typ = .create ∨ typ = .create2) (m : Machine) (s : σ)
    (hcan : Can caller value s)
    (hsnapshot : (ask .snapshot).wp h A G E s fun id t ↦ (∀ c v, Can c v s → Can c v t) ∧
      ∀ r m u, T t u → (evm.settleCreate id r m).wp h A G E u fun p v ↦ R p.1 v) :
    (evm.enterCreate runner caller code codeHash gas value address typ m).wp h A G E s
      fun p t ↦ R ⟨p.1.ret, p.1.leftOverGas, p.1.err⟩ t := by
  refine wp_query_bind hsnapshot fun id t ⟨hcan_t, hsettle⟩ ↦ ?_
  refine wp_query_bind (L.quiet (.createAccount address) t (.inl rfl)) fun _ u ⟨htu, hcan_u⟩ ↦ ?_
  refine wp_lift_bind (L.transfer caller address value u (hcan_u _ _ (hcan_t _ _ hcan)))
    fun _ v huv ↦ ?_
  refine wp.bind (L.captureFrame_create htyp caller address value m v)
    fun p w ⟨hvw, hfit⟩ ↦ ?_
  refine wp.bind (hrun ⟨caller, address, code, codeHash, some address, [], gas, value⟩ [] false
    p.2 w hfit) fun q x hwx ↦ ?_
  refine wp.bind (L.storeCode address q.1 q.2 x) fun q y hxy ↦ ?_
  have hty := L.trans htu (L.trans huv (L.trans hvw (L.trans hwx hxy)))
  exact wp.bind (hsettle q.1 q.2 y hty) fun _ _ hz ↦ hz

theorem createAt (caller : Address) (code : Bytes) (codeHash : Hash) (gas value : Nat)
    (address : Address) (htyp : typ = .create ∨ typ = .create2) (m : Machine)
    (s : σ) :
    (evm.createAt runner caller code codeHash gas value address typ m).wp h A G E s
      fun _ t ↦ T s t := by
  unfold EVM.createAt
  rw [readRegister_bind]
  split
  · exact L.refl s
  refine wp_lift_bind (L.canTransfer caller value s) fun ok t ⟨hst, hcan⟩ ↦ ?_
  cases ok with
  | false => exact hst
  | true =>
    refine wp_query_bind (L.quiet (.getNonce caller) t (.inl rfl)) fun nonce u ⟨htu, hcan_u⟩ ↦ ?_
    have hcan := hcan_u _ _ (hcan rfl)
    split
    · exact L.trans hst htu
    refine wp_query_bind (L.quiet (.setNonce caller (nonce + 1)) u (.inl rfl))
      fun _ v ⟨huv, hcan_v⟩ ↦ ?_
    refine wp_query_bind (L.quiet (.getCodeHash address) v (.inl rfl))
      fun contractHash w ⟨hvw, hcan_w⟩ ↦ ?_
    refine wp_query_bind (L.quiet (.getNonce address) w (.inl rfl)) fun taken x ⟨hwx, hcan_x⟩ ↦ ?_
    have hsx := L.trans hst (L.trans htu (L.trans huv (L.trans hvw hwx)))
    split
    · exact hsx
    · refine L.enterCreate (R := fun _ ↦ T s) hrun caller code codeHash gas value address htyp m x
        (hcan_x _ _ (hcan_w _ _ (hcan_v _ _ hcan))) ((L.snapshot x).mono fun _ _ hy ↦ ?_)
      obtain ⟨hxy, hcan_y, hrevert⟩ := hy
      refine ⟨hcan_y, fun r m z hyz ↦ ?_⟩
      exact (L.settleCreate hxy hyz hrevert r m).mono fun _ _ ↦ L.trans hsx

theorem create (caller : Address) (code : Bytes) (gas value : Nat) (m : Machine) (s : σ) :
    (evm.create runner caller code gas value m).wp h A G E s fun _ t ↦ T s t := by
  refine wp_query_bind (L.quiet (.getNonce caller) s (.inl rfl)) fun nonce t ht ↦ ?_
  exact (L.createAt hrun caller code 0 gas value _ (.inl rfl) m t).mono fun _ _ hu ↦
    L.trans ht.1 hu

/-! ## The frame logic -/

omit hrun

theorem fit_addr {addr : Address} {s : σ} (hs : Fit l s)
    (haddr : usesAccessList evm.chainRules = true → addr ∈ l) : Fit [addr] s := by
  cases hlists : usesAccessList evm.chainRules with
  | true => exact L.fit_mono (by simpa using haddr hlists) hs
  | false => exact L.fit_of_not_usesAccessList _ s hlists

theorem fit_self {self : Address} {s : σ} (hs : Fit l s) (hself : self ∈ l) :
    Fit [self] s := L.fit_mono (by simpa using hself) hs

/-- **A state logic is a frame logic.** -/
theorem frameLogic : FrameLogic evm (judgement h A G E T Fit) where
  closed := L.closed
  bind := L.bind
  mono hl hx m s hs := hx m s (L.fit_mono hl hs)
  captureState op hself := query fun s hs ↦ L.captureState op s hs hself
  accessAddress addr hlists hf m s hs :=
    L.andThen (L.accessAddress addr m s hlists hs) fun p t _ ↦ hf p.1 p.2 t
  slotInAccessList slot hlists hself := query fun s hs ↦ L.slotInAccessList slot s hlists hs hself
  sstoreSlotCost slot hlists hself m s hs := L.sstoreSlotCost slot m s hlists hs hself
  storedGas op gas hself hf m s hs := by
    refine wp_query_bind (L.captureState op s hs hself) fun _ t ht ↦ ?_
    exact (hf { m with callGasTemp := gas } t (L.fit_step hs ht)).mono fun _ _ ↦ L.trans ht
  destruct self beneficiary m s _ := L.destruct self beneficiary m s
  frame readOnly hx m s hs := (hx _ s hs).bind fun _ _ ht ↦ ht
  call self input gas value hrun haddr m s hs :=
    L.call L.outcome hrun self _ input gas value m s (.inr (L.fit_addr hs haddr))
  callCode addr input gas value hrun hself m s hs :=
    L.callCode L.outcome hrun _ addr input gas value m s (L.fit_self hs hself)
  delegateCall addr input gas hrun hself m s hs :=
    L.delegateCall L.outcome hrun _ addr input gas m s (L.fit_self hs hself)
  staticCall self input gas hrun haddr m s hs :=
    L.staticCall L.outcome hrun self _ input gas m s (L.fit_addr hs haddr)
  create code gas value hrun _ m s _ := L.create hrun _ code gas value m s
  create2 code gas value _ hrun _ m s _ := L.createAt hrun _ code _ gas value _ (.inr rfl) m s

theorem interpreter : (judgement h A G E T Fit).OfRunner evm.interpreter := L.frameLogic.interpreter

end StateLogic

end GoEntropy.Evm
