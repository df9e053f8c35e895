import GoEntropy.Chain.TransitionLogic
import GoEntropy.State.Ledger
import GoEntropy.State.Reachable

/-!
# Gas and money

What a message costs. The gas limit is bought at the effective price, what is left is returned at
the same price, and the coinbase is paid the tip for the rest; since London the tip is the effective
price without the base fee, so the base fee of the gas used is what disappears. In between runs
arbitrary code. It cannot return more gas than it got (`bounded_interpreter`), and it only moves
money around, contracts that destruct to themselves apart (`moneyLogic`).

The gas half rests on the order of the forks. Where an instruction table priced by access lists runs
without EIP-150, a call can ask for more gas than there is, the price of the call wraps around, and
the callee returns gas that nobody paid for.
-/

namespace GoEntropy.Chain

open Evm Interaction State Prog StateDB

/-! ## The logic -/

section Money

variable {C : Crypto}

abbrev moneyWp {α : Type} (C : Crypto) (x : Evm.StateM α) (p : Timeline × Ledger)
    (Q : α → Timeline × Ledger → Prop) : Prop :=
  x.wp (audited (Timeline.handler C)) (fun _ _ ↦ True) (fun _ _ ↦ True)
    (fun _ ↦ True) p Q

variable {o : StateOp}

theorem money_ask {p : Timeline × Ledger} {r : o.Res} {u : Timeline}
    (h : Timeline.handler C o p.1 = .ok (r, u)) {Q : o.Res → Timeline × Ledger → Prop}
    (hQ : Q r (u, p.2.observe o r)) : moneyWp C (ask o) p Q := by
  refine wp_perform.2 fun _ ↦ ⟨trivial, ?_⟩
  simp only [Handler.observed, h]
  exact hQ

theorem money_keeps (ho : KeepsMoney o) (p : Timeline × Ledger) :
    moneyWp C (ask o) p fun _ q ↦ Conserves p q ∧ q.1.now.balance = p.1.now.balance := by
  refine wp_perform.2 fun _ ↦ ⟨trivial, ?_⟩
  simp only [Handler.observed]
  cases hs : Timeline.handler C o p.1 with
  | error e => trivial
  | ok r =>
    obtain ⟨hbalance, hext⟩ := handler_keepsMoney ho hs
    dsimp only
    rw [observe_of_keepsMoney ho]
    exact ⟨.of_balance_eq hbalance hext, hbalance⟩

theorem money_of_uses {α : Type} {x : Evm.StateM α} (hx : x.Uses KeepsMoney fun _ ↦ True)
    (p : Timeline × Ledger) : moneyWp C x p fun _ q ↦ Conserves p q :=
  wp_of_uses .refl (fun _ _ _ ↦ .trans)
    (fun _ ho p ↦ wp_perform.1 ((money_keeps ho p).mono fun _ _ hq ↦ hq.1)) hx p

theorem keepsMoney_of_quiet {lists : Bool} (ho : QuietOr lists o) : KeepsMoney o := by
  cases o <;> simp_all [QuietOr, StateOp.isQuiet, StateOp.isAccessList, KeepsMoney]

theorem conserves_modify {t : Timeline} {g g' : Ledger} {f : World → World}
    (htotal : (f t.now).total + g'.burnt = t.now.total + g.burnt)
    (hsolvent : t.now.Solvent → (f t.now).Solvent) (hsaved : g'.saved = g.saved) :
    Conserves (t, g) (t.modify f, g') :=
  ⟨htotal, hsolvent, t.extends_modify f, [], hsaved, nofun⟩

/-- The account has the amount, or there is nothing to pay. -/
def Covers (c : Address) (v : Nat) (p : Timeline × Ledger) : Prop :=
  (v : ℤ) ≤ p.1.now.balance c ∨ v = 0

/-- A transfer that is covered moves money from one account to another, or to the same. -/
theorem money_transfer (c a : Address) (v : Nat) (p : Timeline × Ledger) (hv : Covers c v p) :
    moneyWp C (transfer c a v) p fun _ q ↦ Conserves p q := by
  obtain ⟨t, g⟩ := p
  refine wp_ask_of_ok rfl trivial (money_ask rfl ?_)
  refine conserves_modify (f := fun w ↦ (w.addBalance C c (-v)).addBalance C a v) ?_ ?_ rfl
  · simp [Ledger.observe]
  · intro hs
    have hsub : (t.now.addBalance C c (-v)).Solvent := hs.addBalance (by
      rcases hv with hv | rfl
      · dsimp only at hv
        omega
      · simpa using hs c)
    exact hsub.addBalance (by have := hsub a; omega)

/-- What a self-destruction destroys is the balance of a contract that names itself. -/
theorem money_destruct (self beneficiary : Address) (m : Machine) (p : Timeline × Ledger) :
    moneyWp C (destruct self beneficiary m) p fun _ q ↦ Conserves p q := by
  obtain ⟨t, g⟩ := p
  -- the balance is read, paid out and, with the account, destroyed
  refine wp_query_of_ok rfl trivial (wp_query_of_ok rfl trivial ?_)
  refine wp_query_of_ok rfl trivial (wp_map.2 (money_ask rfl ?_))
  refine conserves_modify
    (f := fun w ↦ ((w.addBalance C beneficiary (t.now.balance self)).suicide self).2) ?_ ?_ ?_
  · rw [World.total_suicide, World.total_addBalance, World.balance_addBalance]
    by_cases hself : self = beneficiary
    · subst hself
      simp only [Ledger.observe, Function.update_self, true_and, if_true]
      ring
    · simp [Ledger.observe, hself]
  · intro hs
    have hadd : 0 ≤ t.now.balance beneficiary + t.now.balance self :=
      add_nonneg (hs beneficiary) (hs self)
    exact (hs.addBalance hadd).suicide
  · simp only [Ledger.observe]
    split <;> rfl

theorem money_touch (a : Address) (p : Timeline × Ledger) :
    moneyWp C (ask (.addBalance a 0)) p fun _ q ↦ Conserves p q := by
  refine money_ask rfl (conserves_modify (f := (·.addBalance C a 0)) ?_ ?_ rfl)
  · rw [World.total_addBalance, add_zero]
    rfl
  · exact fun hs ↦ hs.addBalance (by rw [add_zero]; exact hs a)

theorem money_snapshot (p : Timeline × Ledger) :
    moneyWp C (ask .snapshot) p fun id q ↦
      Conserves p q ∧ (∀ c v, Covers c v p → Covers c v q) ∧
      ∀ r, Conserves q r → moneyWp C (ask (.revertToSnapshot id)) r fun _ s ↦ Conserves p s := by
  obtain ⟨t, g⟩ := p
  refine money_ask rfl ⟨.snapshot t g, fun _ _ h ↦ h, fun r hr ↦ ?_⟩
  obtain ⟨v, hv, hconserves⟩ := Conserves.revert hr
  refine money_ask (r := ()) ?_ hconserves
  simp only [Timeline.handler, hv, Except.map]

/-- **Executions only move money.** The balances change by what contracts destroy, and none of them
becomes negative. -/
theorem moneyLogic (evm : EVM) :
    StateLogic evm (audited (Timeline.handler C)) (fun _ _ ↦ True)
      (fun _ _ ↦ True) (fun _ ↦ True) Conserves (fun _ _ ↦ True) Covers where
  refl := .refl
  trans := .trans
  fit_step _ _ := trivial
  fit_mono _ _ := trivial
  fit_of_not_usesAccessList _ _ _ := trivial
  fault _ _ := trivial
  quiet o p ho := (money_keeps (keepsMoney_of_quiet ho) p).mono fun _ q ⟨hq, hbalance⟩ ↦
    ⟨hq, fun c v hv ↦ by rwa [Covers, hbalance]⟩
  captureState op p _ _ :=
    (money_keeps (o := .captureState op _) trivial p).mono fun _ _ hq ↦ hq.1
  accessAddress addr m p _ _ := (money_of_uses (uses_accessAddress trivial trivial) p).mono
    fun _ _ hq ↦ ⟨hq, trivial⟩
  slotInAccessList slot p _ _ _ :=
    (money_keeps (o := .slotInAccessList _ slot) trivial p).mono fun _ _ hq ↦ hq.1
  sstoreSlotCost slot m p _ _ _ := money_of_uses (uses_sstoreSlotCost trivial trivial trivial) p
  destruct := money_destruct
  canTransfer _ _ _ := wp_ask_of_ok rfl trivial ⟨.refl _, fun h ↦ .inl (of_decide_eq_true h)⟩
  can_zero _ _ := .inr rfl
  transfer := money_transfer
  touch := money_touch
  captureStart src dest create value p :=
    (money_keeps (o := .captureStart src dest create value) trivial p).mono fun _ q hq ↦
      ⟨hq.1, fun _ ↦ trivial, (money_keeps (o := .getCode dest) trivial q).mono fun _ _ hr ↦
        ⟨hr.1, fun _ ↦ trivial⟩⟩
  captureEnter typ src dest value p htyp :=
    (money_keeps (o := .captureEnter typ src dest value) htyp p).mono fun _ _ hq ↦
      ⟨hq.1, fun _ ↦ trivial⟩
  snapshot := money_snapshot

end Money

/-! ## Gas -/

section Gas

variable {evm : EVM} {msg : Message}

theorem returns_preCheck (gp : GasPool) : (preCheck evm msg gp).Returns fun r ↦
    ∀ gp', r = .ok gp' → gp' + msg.gasLimit.toNat = gp := by
  refine (returns_true _).bind fun sender _ ↦ ?_
  cases sender with
  | some e => exact nofun
  | none =>
    refine (returns_true _).bind fun fees _ ↦ ?_
    cases fees with
    | some e => exact nofun
    | none =>
      refine (returns_true _).bind fun balance _ ↦ ?_
      split
      · exact nofun
      · unfold GasPool.subGas
        split_ifs with hlt
        · exact nofun
        · refine (returns_true _).bind fun _ _ ↦ ?_
          intro gp' h
          cases h
          exact Nat.sub_add_cancel (not_lt.1 hlt)

theorem cappedRefund_le (gasUsed refund quotient : Nat) :
    cappedRefund gasUsed refund quotient ≤ gasUsed / quotient := by
  unfold cappedRefund
  split <;> omega

/-- **Settling the gas.** Whatever the refund counter says, the refund is capped, and the pool gets
back what is not used. -/
theorem returns_settle (gp : GasPool) {r : CallResult}
    (hr : r.leftOverGas ≤ msg.gasLimit.toNat) : (settle evm msg gp r).Returns fun p ↦
      ∃ refund, refund ≤ (msg.gasLimit.toNat - r.leftOverGas) / refundQuotient evm ∧
        p.2.usedGas + r.leftOverGas + refund = msg.gasLimit.toNat ∧
        p.1 = gp + (r.leftOverGas + refund) := by
  have hlimit : msg.gasLimit.toNat < 2 ^ 64 := msg.gasLimit.toNat_lt
  refine .bind (Q := fun q ↦ ∃ refund,
    refund ≤ (msg.gasLimit.toNat - r.leftOverGas) / refundQuotient evm ∧
      q.1 = r.leftOverGas + refund ∧ q.2 = gp + (r.leftOverGas + refund)) ?_ ?_
  · refine (returns_true _).bind fun counter _ ↦ (returns_true _).bind fun _ _ ↦ ?_
    rw [sub64_of_le hr hlimit]
    have hle := cappedRefund_le (msg.gasLimit.toNat - r.leftOverGas) counter (refundQuotient evm)
    have hdiv := Nat.div_le_self (msg.gasLimit.toNat - r.leftOverGas) (refundQuotient evm)
    rw [add64_of_lt (by omega)]
    unfold GasPool.addGas
    split_ifs
    · trivial
    · exact ⟨_, hle, rfl, rfl⟩
  · rintro ⟨gas, gp'⟩ ⟨refund, hrefund, hgas, hgp⟩
    refine (returns_true _).bind fun tip _ ↦ (returns_true _).bind fun _ _ ↦ ?_
    have hdiv := Nat.div_le_self (msg.gasLimit.toNat - r.leftOverGas) (refundQuotient evm)
    refine ⟨refund, hrefund, ?_, hgp⟩
    dsimp only at hgas ⊢
    rw [sub64_of_le (by omega) hlimit]
    omega

theorem yields_execute (hforks : usesAccessList evm.chainRules = true → evm.chainRules.isEIP150 = true)
    {gas : Nat} (hgas : gas < 2 ^ 64) : Yields (·.leftOverGas ≤ gas) (execute evm msg gas) := by
  have hrun := bounded_interpreter hforks
  unfold execute executeWith
  cases msg.toAddr with
  | none => exact (yields_create hrun msg.sender msg.data hgas msg.amount).bind fun r ↦ .pure
  | some toAddr =>
    exact .andThen fun nonce ↦ .andThen fun _ ↦
      yields_entryLogic.call (Runner.BoundedBelow.at_gas hrun hgas) msg.sender toAddr msg.data trivial

end Gas

/-! ## Prices -/

section Prices

/-- What is destroyed per gas: the base fee since London. -/
def burntPrice (evm : EVM) : Nat :=
  if evm.chainRules.isLondon then evm.context.baseFee.getD 0 else 0

/-- The prices of a message that was made from a transaction for a block with this base fee. -/
structure Priced (msg : Message) (baseFee : Option Nat) (cap : Nat) : Prop where
  feeCap : msg.gasFeeCap = some cap
  price_le : msg.gasPrice ≤ cap
  price : ∀ b, baseFee = some b → msg.gasPrice = min (msg.gasTipCap + b) cap

theorem priced_asMessage {C : Crypto} {tx : Transaction C} {signer : Signer} {baseFee : Option Nat}
    {msg : Message} (h : tx.asMessage signer baseFee = .ok msg) :
    Priced msg baseFee tx.inner.gasFeeCap := by
  unfold Transaction.asMessage at h
  split at h
  · cases h
  · cases h
    refine ⟨rfl, ?_, ?_⟩
    · cases baseFee with
      | none => cases tx.inner <;> exact le_rfl
      | some b => exact min_le_right _ _
    · rintro b rfl
      rfl

/-- **The price splits.** What the coinbase gets per gas and what is destroyed add up to the price the
sender pays. -/
theorem price_eq {evm : EVM} {msg : Message} {cap : Nat} (hp : Priced msg evm.context.baseFee cap)
    (hbase : evm.config.noBaseFee = false) (hcheck : checkFees evm msg = .ok none) {tip : ℤ}
    (htip : effectiveTip evm msg = .ok tip) :
    0 ≤ tip ∧ (msg.gasPrice : ℤ) = tip + burntPrice evm := by
  unfold effectiveTip at htip
  unfold burntPrice
  split at htip
  · next hlondon =>
    have hfees : checkFeeCap evm msg cap = .ok none := by
      have hlondon : evm.chainConfig.isLondon evm.context.blockNumber = true := hlondon
      simpa [checkFees, hlondon, hp.feeCap, hbase] using hcheck
    rw [if_pos hlondon]
    cases hb : evm.context.baseFee with
    | none => simp [hb] at htip
    | some b =>
      have hcap : b ≤ cap := by
        unfold checkFeeCap at hfees
        rw [hb] at hfees
        by_contra hlt
        rw [not_le] at hlt
        simp only [hlt] at hfees
        split_ifs at hfees <;> cases hfees
      rw [hp.feeCap, hb] at htip
      cases htip
      have hprice := hp.price b hb
      rw [Option.getD_some]
      omega
  · next hlondon =>
    cases htip
    rw [if_neg hlondon]
    omega

end Prices

/-! ## Fees -/

section Fees

variable {C : Crypto} {evm : EVM} {msg : Message}

def credit (C : Crypto) (p : Timeline × Ledger) (a : Address) (x : ℤ) : Timeline × Ledger :=
  (p.1.modify (·.addBalance C a x), p.2)

theorem total_credit (p : Timeline × Ledger) (a : Address) (x : ℤ) :
    (credit C p a x).1.now.total = p.1.now.total + x := World.total_addBalance C p.1.now a x

theorem money_checkSender (p : Timeline × Ledger) :
    moneyWp C (checkSender evm msg) p fun _ q ↦ q = p := by
  unfold checkSender
  split
  · rfl
  · refine wp_ask_of_ok rfl trivial ?_
    split
    · rfl
    split
    · rfl
    split
    · rfl
    refine wp_ask_of_ok rfl trivial ?_
    split <;> rfl

theorem money_orCrash {α : Type} (x : Except Fault α) (p : Timeline × Ledger) :
    moneyWp C (orCrash x) p fun a q ↦ q = p ∧ x = .ok a := by
  cases x with
  | error e => trivial
  | ok a => exact ⟨rfl, rfl⟩

/-- A message that passes the checks has paid for its gas limit, and could pay at the fee cap. -/
theorem money_preCheck (gp : GasPool) (p : Timeline × Ledger) :
    moneyWp C (preCheck evm msg gp) p fun r q ↦ ∀ gp', r = .ok gp' →
      checkFees evm msg = .ok none ∧ (balanceCheck msg : ℤ) ≤ p.1.now.balance msg.sender ∧
        q = credit C p msg.sender (-(msg.gasLimit.toNat * msg.gasPrice : Nat)) := by
  refine wp.bind (money_checkSender p) fun sender q hq ↦ ?_
  subst hq
  cases sender with
  | some e => exact nofun
  | none =>
    refine wp.bind (money_orCrash (checkFees evm msg) q) fun fees r ⟨hr, hfees⟩ ↦ ?_
    subst hr
    cases fees with
    | some e => exact nofun
    | none =>
      refine wp_ask_of_ok rfl trivial ?_
      split
      · exact nofun
      · next hle =>
        split
        · exact nofun
        · exact wp_ask_of_ok rfl trivial fun gp' _ ↦ ⟨hfees, not_lt.1 hle, rfl⟩

/-- Settling returns the price of the gas that is left and pays the tip for the gas used. -/
theorem money_settle (gp : GasPool) (r : CallResult) (p : Timeline × Ledger) :
    moneyWp C (settle evm msg gp r) p fun out q ↦ ∃ gas tip,
      out.2.usedGas = sub64 msg.gasLimit.toNat gas ∧ gas < 2 ^ 64 ∧ effectiveTip evm msg = .ok tip ∧
        q = credit C (credit C p msg.sender (gas * msg.gasPrice : Nat)) evm.context.coinbase
          (out.2.usedGas * tip) := by
  refine wp.bind (P := fun out q ↦ out.1 < 2 ^ 64 ∧
    q = credit C p msg.sender (out.1 * msg.gasPrice : Nat)) ?_ ?_
  · refine wp_ask_of_ok rfl trivial (wp_ask_of_ok rfl trivial ?_)
    refine wp.bind (money_orCrash _ _) fun gp' t ⟨ht, _⟩ ↦ ?_
    subst ht
    exact ⟨Nat.mod_lt _ (by norm_num), rfl⟩
  · rintro ⟨gas, gp'⟩ q ⟨hgas, hq⟩
    refine wp.bind (money_orCrash _ q) fun tip s ⟨hs, htip⟩ ↦ ?_
    subst hq hs
    exact wp_ask_of_ok rfl trivial ⟨gas, tip, rfl, hgas, htip, rfl⟩

end Fees

/-! ## Messages -/

section Messages

variable {C : Crypto} {evm : EVM} {msg : Message} {gp gp' : GasPool} {m m' : Machine}
  {result : ExecutionResult}

theorem le_of_sub64_le {x y : Nat} (hy : y < 2 ^ 64) (hx : x < 2 ^ 64) (h : sub64 x y ≤ x) :
    y ≤ x := by
  unfold sub64 wrap64 at h
  omega

/-- What a message that is applied does to the balances, on the level of worlds. -/
theorem money_transitionDb {cap : Nat} (hprice : Priced msg evm.context.baseFee cap)
    (hbase : evm.config.noBaseFee = false) (hm : m.depth = 0)
    (hused : result.usedGas ≤ msg.gasLimit.toNat) {p q : Timeline × Ledger}
    (hrun : (transitionDb evm msg gp m).run
      (audited (Timeline.handler C)) p =
        .ok (((gp', .ok result), m'), q)) :
    q.1.now.total + q.2.burnt + result.usedGas * burntPrice evm = p.1.now.total + p.2.burnt ∧
      (p.1.now.Solvent → q.1.now.Solvent) := by
  obtain ⟨gp₁, p₁, gas₀, p₂, r, p₃, hcheck, -, -, hpay, hexec, hsettle⟩ := run_transitionDb hrun
  have L := moneyLogic (C := C) evm
  have hlimit : msg.gasLimit.toNat < 2 ^ 64 := msg.gasLimit.toNat_lt
  obtain ⟨hfees, hcover, rfl⟩ := (money_preCheck gp p).of_run hcheck gp₁ rfl
  obtain ⟨h₁₂, -⟩ := (L.canPay L.outcome msg.sender msg.amount _).of_run hpay
  have h₁₃ := h₁₂.trans ((wp_execute msg L _ hm p₂).of_run hexec)
  obtain ⟨gas, tip, hgas, hlt, htip, rfl⟩ := (money_settle gp₁ r p₃).of_run hsettle
  obtain ⟨htip0, hsplit⟩ := price_eq hprice hbase hfees htip
  have hle : gas ≤ msg.gasLimit.toNat := le_of_sub64_le hlt hlimit (hgas ▸ hused)
  rw [sub64_of_le hle hlimit] at hgas
  constructor
  · have htotal : p₃.1.now.total + p₃.2.burnt =
        p.1.now.total + -((msg.gasLimit.toNat * msg.gasPrice : Nat) : ℤ) + p.2.burnt := by
      rw [← total_credit p msg.sender]
      exact h₁₃.total
    have hlimit_eq : (msg.gasLimit.toNat : ℤ) = gas + result.usedGas := by
      dsimp only at hgas
      omega
    rw [total_credit, total_credit]
    dsimp only [credit]
    push_cast at htotal ⊢
    rw [hsplit, hlimit_eq] at htotal
    rw [hsplit]
    linear_combination htotal
  · intro hs
    have hcost : ((msg.gasLimit.toNat * msg.gasPrice : Nat) : ℤ) ≤ p.1.now.balance msg.sender := by
      refine le_trans ?_ hcover
      rw [balanceCheck, hprice.feeCap]
      exact_mod_cast (Nat.mul_le_mul_left _ hprice.price_le).trans (Nat.le_add_right _ _)
    have h₃ : p₃.1.now.Solvent := h₁₃.solvent (hs.addBalance (by omega))
    have h₄ : (credit C p₃ msg.sender (gas * msg.gasPrice : Nat)).1.now.Solvent :=
      h₃.addBalance (add_nonneg (h₃ _) (Int.natCast_nonneg _))
    exact h₄.addBalance (add_nonneg (h₄ _) (mul_nonneg (Int.natCast_nonneg _) htip0))

/-- The balance a state answers with. -/
def balanceOf {σ : Type} (h : Handler StateInterface Fault σ) (s : σ) (a : Address) : ℤ :=
  ((h.answer (.getBalance a) s).toOption).getD 0

theorem balanceOf_of_refines {db : StateDatabase C} {s : StateDB} {t : Timeline}
    (hst : Refines db s t) : balanceOf (handler db) s = t.now.balance := by
  funext a
  rw [balanceOf, (handler_simulates db).answer_eq trivial hst]
  rfl

/-- What contracts destroy during a run by destructing to themselves. -/
def destroyed {σ α : Type} (h : Handler StateInterface Fault σ) (x : Evm.StateM α) (s : σ) : ℤ :=
  match x.run (audited h) (s, .new) with
  | .ok p => p.2.2.burnt
  | .error _ => 0

/-- **Gas and money are conserved.** For every message made from a transaction for the block's base
fee, applied to any state database, where the instruction tables priced by access lists are only used
with EIP-150: the gas used is at most the gas limit, the pool shrinks by it, the refund is capped, no
balance becomes negative, and what disappears is the base fee of the gas used and what contracts
destroy. -/
theorem gas_and_money_conserved {db : StateDatabase C} {tx : Transaction C} {signer : Signer}
    (hmsg : tx.asMessage signer evm.context.baseFee = .ok msg)
    (hbase : evm.config.noBaseFee = false)
    (hforks : usesAccessList evm.chainRules = true → evm.chainRules.isEIP150 = true)
    {s s' : StateDB} (hs : s.Reachable db) (hm : m.depth = 0)
    (hrun : (transitionDb evm msg gp m).run (StateDB.handler db) s =
      .ok (((gp', .ok result), m'), s')) :
    result.usedGas ≤ msg.gasLimit.toNat ∧ gp' + result.usedGas = gp ∧
      (∃ gas gp₁ s₁ r s₂ refund,
        (execute evm msg gas m).run (StateDB.handler db) s₁ = .ok ((r, m'), s₂) ∧
        (settle evm msg gp₁ r).run (StateDB.handler db) s₂ = .ok ((gp', result), s') ∧
        refund ≤ (msg.gasLimit.toNat - r.leftOverGas) / refundQuotient evm ∧
        result.usedGas + r.leftOverGas + refund = msg.gasLimit.toNat) ∧
      ((∀ a, 0 ≤ balanceOf (StateDB.handler db) s a) →
        ∀ a, 0 ≤ balanceOf (StateDB.handler db) s' a) ∧
      ∑ a, balanceOf (StateDB.handler db) s' a = ∑ a, balanceOf (StateDB.handler db) s a -
        result.usedGas * burntPrice evm -
        destroyed (StateDB.handler db) (transitionDb evm msg gp m) s := by
  have hlimit : msg.gasLimit.toNat < 2 ^ 64 := msg.gasLimit.toNat_lt
  obtain ⟨gp₁, s₁, gas, s₂, r, s₃, hcheck, -, -, -, hexec, hsettle⟩ := run_transitionDb hrun
  have hgp₁ := (returns_preCheck gp).of_run hcheck gp₁ rfl
  have hleft : r.leftOverGas ≤ msg.gasLimit.toNat - gas :=
    (yields_execute hforks (by omega) m).of_run hexec
  obtain ⟨refund, hrefund, hsum, hgp'⟩ := (returns_settle gp₁ (by omega)).of_run hsettle
  have hused : result.usedGas ≤ msg.gasLimit.toNat := by
    dsimp only at hsum
    omega
  -- The same run, observed by a ledger, on the timeline the state database implements.
  obtain ⟨t, hst⟩ := hs.refines
  have hsim := (handler_simulates db).observed Ledger.observe
  obtain ⟨ledger, hobs⟩ := Prog.run_observed Ledger.observe hrun .new
  have halike := Prog.run_simulates hsim (Prog.uses_true (transitionDb evm msg gp m))
    (s := (s, .new)) (t := (t, .new)) ⟨hst, rfl⟩
  rw [hobs] at halike
  cases htrun : (transitionDb evm msg gp m).run (audited (Timeline.handler C)) (t, .new) with
  | error e => rw [htrun] at halike; exact halike.elim
  | ok q =>
    rw [htrun] at halike
    obtain ⟨⟨out, mq⟩, u, ledger'⟩ := q
    obtain ⟨hout, hst', hledger⟩ := halike
    cases hout
    obtain ⟨htotal, hsolvent⟩ := money_transitionDb (priced_asMessage hmsg) hbase hm hused htrun
    refine ⟨hused, ?_, ⟨_, gp₁, s₂, r, s₃, refund, hexec, hsettle, hrefund, hsum⟩, ?_, ?_⟩
    · dsimp only at hsum hgp'
      rw [← hgp₁, hgp', ← hsum]
      ring
    · rw [balanceOf_of_refines hst, balanceOf_of_refines hst']
      exact hsolvent
    · rw [balanceOf_of_refines hst, balanceOf_of_refines hst', destroyed, hobs]
      rw [← hledger] at htotal
      exact eq_sub_of_add_eq (eq_sub_of_add_eq (htotal.trans (add_zero _)))

end Messages

/-! ## A call that asks for too much gas, and a contract that destructs to itself -/

namespace Sample

/-- A transaction by the account at `0x10` that calls the contract at `0x20`. -/
def tx (gas : UInt64) (value : Nat) : Transaction State.Sample.crypto :=
  .newTx (.legacy ⟨0, 7, gas, some 0x20, value, [], 27, 1, 1⟩) 0

def forklessEvm : EVM :=
  { evm State.Sample.crypto (some 0) with chainConfig := ⟨some 1, none, none, none⟩ }

/-- A call of the contract at `0x28` with all the gas a `uint64` can hold. -/
def greedyCode : Bytes :=
  [0x60, 0, 0x60, 0, 0x60, 0, 0x60, 0, 0x60, 0, 0x60, 0x28,
    0x67, 0xff, 0xff, 0xff, 0xff, 0xff, 0xff, 0xff, 0xff, 0xf1]

/-- `ADDRESS SELFDESTRUCT`. -/
def destructCode : Bytes := [0x30, 0xff]

end Sample

open Sample State.Sample in
/-- In a block that announces the merge on a chain without EIP-150, a transaction with a gas limit of
30000 uses 45727 gas. -/
theorem usedGas_above_gasLimit :
    (tx 30000 0).asMessage .frontier forklessEvm.context.baseFee =
        .ok { message with gasLimit := 30000 } ∧
      forklessEvm.config.noBaseFee = false ∧
      ((transitionDb forklessEvm { message with gasLimit := 30000 } 30000 Machine.init).run
          (StateDB.handler (database greedyCode)) (state greedyCode)).toOption.bind
        (fun p ↦ p.1.1.2.toOption.map (·.usedGas)) = some 45727 :=
  ⟨rfl, rfl, by decide +kernel⟩

open Sample State.Sample in
/-- A contract that gets 5 and destructs to itself destroys them. -/
theorem gas_and_money_conserved_destruct : ∃ gp' result m' s',
    (transitionDb (evm crypto none) { message with amount := 5 } 8000000 Machine.init).run
        (StateDB.handler (database destructCode)) (state destructCode) =
          .ok (((gp', .ok result), m'), s') ∧
      gp' + result.usedGas = 8000000 ∧
      ∑ a, balanceOf (StateDB.handler (database destructCode)) s' a =
        ∑ a, balanceOf (StateDB.handler (database destructCode)) (state destructCode) a -
          result.usedGas * 7 - 5 := by
  obtain ⟨gp', result, m', s', hrun⟩ := exists_of_applies (x := (transitionDb (evm crypto none)
    { message with amount := 5 } 8000000 .init).run (handler (database destructCode))
    (state destructCode)) (by decide)
  have hmsg : (tx 100000 5).asMessage .frontier (evm crypto none).context.baseFee =
      .ok { message with amount := 5 } := rfl
  obtain ⟨-, hgp, -, -, hsum⟩ := gas_and_money_conserved hmsg rfl (fun _ ↦ rfl)
    (reachable_state destructCode) rfl hrun
  exact ⟨gp', result, m', s', hrun, hgp, hsum⟩

end GoEntropy.Chain
