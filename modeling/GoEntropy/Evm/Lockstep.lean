import GoEntropy.Evm.FrameLogic

/-!
# Executions in lockstep

Two executions of the same code make the same calls as long as the state answers alike. The only
answers that need not agree are the identifiers of snapshots, which depend on how many were taken
before; and the code never looks at them, it only hands them back. The relator `shifted` says so: an
identifier corresponds to the one that is as far from where the other execution started counting.

The registers need not agree either when a message starts. What the previous message left in the
returned data and in the stored gas is overwritten before it is read. So the entry points are in
lockstep from registers that agree on the depth and on read-only mode (`Level`), and the code inside
a frame from registers that also agree on the returned data (`InFrame`).
-/

namespace GoEntropy.Evm

open Interaction

/-! ## Corresponding calls -/

def StateOp.concernsAccessList : StateOp → Bool
  | addressInAccessList _ => true
  | slotInAccessList _ _ => true
  | addAddressToAccessList _ => true
  | addSlotToAccessList _ _ => true
  | _ => false

def StateOp.isShared : StateOp → Bool
  | snapshot => false
  | revertToSnapshot _ => false
  | o => !o.concernsAccessList

/-- The identifiers `id` and `id'`, counted from `a` and `b`. -/
def Shifted (a b id id' : Nat) : Prop := a ≤ id ∧ id + b = id' + a

/-- Calls correspond if they are the same, but for the snapshot they go back to. The access list is
only asked if `lists` says so. -/
def shifted (lists : Bool) (a b : Nat) : Relator StateInterface where
  op
    | .revertToSnapshot id, .revertToSnapshot id' => Shifted a b id id'
    | o, o' => o = o' ∧ (o.concernsAccessList = true → lists = true)
  res
    | .snapshot, .snapshot, id, id' => Shifted a b id id'
    | _, _, r, r' => HEq r r'

section

variable {lists : Bool} {a b : Nat}

/-- Corresponding calls go back to corresponding snapshots, or are the same. -/
theorem shifted_cases {o o' : StateOp} (h : (shifted lists a b).op o o') :
    (∃ id id', o = .revertToSnapshot id ∧ o' = .revertToSnapshot id' ∧ Shifted a b id id') ∨
      (o = o' ∧ (∀ id, o ≠ .revertToSnapshot id) ∧ (o.concernsAccessList = true → lists = true)) := by
  cases o with
  | revertToSnapshot id =>
    cases o' with
    | revertToSnapshot id' => exact .inl ⟨id, id', rfl, rfl, h⟩
    | _ => cases h.1
  | _ => exact .inr ⟨h.1, by simp, h.2⟩

variable {o : StateOp}

/-- The same answer corresponds to itself, but for the identifier of a snapshot. -/
theorem shifted_res (ho : o ≠ .snapshot) (r : o.Res) :
    (shifted lists a b).res o o r r := by
  cases o with
  | snapshot => exact absurd rfl ho
  | _ => exact .rfl

theorem shifted_shared (ho : o.isShared = true) :
    (shifted lists a b).op o o ∧ ∀ r r', (shifted lists a b).res o o r r' → r = r' := by
  cases o with
  | snapshot | revertToSnapshot | addressInAccessList | slotInAccessList | addAddressToAccessList
  | addSlotToAccessList => cases ho
  | _ => exact ⟨⟨rfl, nofun⟩, fun _ _ ↦ eq_of_heq⟩

theorem shifted_list (hlists : lists = true) (ho : o.concernsAccessList = true) :
    (shifted lists a b).op o o ∧ ∀ r r', (shifted lists a b).res o o r r' → r = r' := by
  cases o with
  | addressInAccessList | slotInAccessList | addAddressToAccessList | addSlotToAccessList =>
    exact ⟨⟨rfl, fun _ ↦ hlists⟩, fun _ _ ↦ eq_of_heq⟩
  | _ => cases ho

theorem shifted_quiet (ho : QuietOr lists o) :
    (shifted lists a b).op o o ∧ ∀ r r', (shifted lists a b).res o o r r' → r = r' := by
  rcases ho with ho | ⟨hlists, ho⟩
  · refine shifted_shared ?_
    cases o <;> first | rfl | cases ho
  · refine shifted_list hlists ?_
    cases o <;> first | rfl | cases ho

end

/-! ## Registers -/

structure Level (m m' : Machine) : Prop where
  depth : m.depth = m'.depth
  readOnly : m.readOnly = m'.readOnly

/-- The registers agree on everything code in a frame can read before it writes it. -/
structure InFrame (m m' : Machine) : Prop extends Level m m' where
  returnData : m.returnData = m'.returnData

variable {lists : Bool} {a b : Nat} {E : Machine → Machine → Prop}

/-- The programs are in lockstep from registers that agree, and the registers agree afterwards. -/
def Lockstep (lists : Bool) (a b : Nat) (E : Machine → Machine → Prop) {α : Type}
    (x y : EvmM α) : Prop :=
  ∀ m m', E m m' →
    (x m).Related (shifted lists a b) (fun p p' ↦ p.1 = p'.1 ∧ E p.2 p'.2) (y m')

def InStep (lists : Bool) (a b : Nat) (E : Machine → Machine → Prop) {α : Type} (x : EvmM α) : Prop :=
  Lockstep lists a b E x x

theorem related_query_bind {ρ : Relator StateInterface} {α β : Type} {o o' : StateOp}
    (ho : ρ.op o o') {f : o.Res → EvmM α} {g : o'.Res → EvmM β} {m m' : Machine}
    {Q : α × Machine → β × Machine → Prop}
    (hfg : ∀ r r', ρ.res o o' r r' → (f r m).Related ρ Q (g r' m')) :
    ((query o >>= f) m).Related ρ Q ((query o' >>= g) m') := by
  have hquery : (query o m).Related ρ (fun p p' ↦ ρ.res o o' p.1 p'.1 ∧ p.2 = m ∧ p'.2 = m')
      (query o' m') := by
    exact (Prog.related_perform ho).bind fun r r' hr ↦ ⟨hr, rfl, rfl⟩
  refine hquery.bind ?_
  rintro ⟨r, n⟩ ⟨r', n'⟩ ⟨hr, rfl, rfl⟩
  exact hfg r r' hr

namespace Lockstep

variable {α β : Type}

theorem pure (r : α) : Lockstep lists a b E (pure r) (pure r) := fun _ _ hm ↦ ⟨rfl, hm⟩

theorem bind {x y : EvmM α} {f g : α → EvmM β} (hxy : Lockstep lists a b E x y)
    (hfg : ∀ r, Lockstep lists a b E (f r) (g r)) : Lockstep lists a b E (x >>= f) (y >>= g) := by
  intro m m' hm
  refine (hxy m m' hm).bind ?_
  rintro ⟨r, n⟩ ⟨r', n'⟩ ⟨hr, hn⟩
  dsimp only at hr hn ⊢
  rw [← hr]
  exact hfg r n n' hn

theorem ite {c : Prop} [Decidable c] {x y x' y' : EvmM α} (hx : c → Lockstep lists a b E x x')
    (hy : ¬c → Lockstep lists a b E y y') :
    Lockstep lists a b E (if c then x else y) (if c then x' else y') := by
  split
  · next h => exact hx h
  · next h => exact hy h

theorem crash (e : Fault) : Lockstep lists a b E (Evm.crash e : EvmM α) (Evm.crash e) :=
  fun _ _ _ ↦ rfl

theorem lift {x y : StateM α} (hxy : x.Related (shifted lists a b) Eq y) :
    Lockstep lists a b E (Evm.lift x) (Evm.lift y) := by
  intro m m' hm
  exact hxy.bind fun r r' hr ↦ ⟨hr, hm⟩

theorem query {o : StateOp} (ho : (shifted lists a b).op o o ∧
    ∀ r r', (shifted lists a b).res o o r r' → r = r') :
    InStep lists a b E (Evm.query o) :=
  lift ((Prog.related_perform ho.1).mono ho.2)

theorem readRegister {f : Machine → α} (hf : ∀ m m', E m m' → f m = f m') :
    InStep lists a b E (Evm.readRegister f) :=
  fun m m' hm ↦ ⟨hf m m' hm, hm⟩

/-- From a snapshot on, the programs hold corresponding identifiers. -/
theorem snapshot {f g : Nat → EvmM β}
    (hfg : ∀ id id', Shifted a b id id' → Lockstep lists a b E (f id) (g id')) :
    Lockstep lists a b E (Evm.query .snapshot >>= f) (Evm.query .snapshot >>= g) := by
  intro m m' hm
  have hop : (shifted lists a b).op .snapshot .snapshot := ⟨rfl, nofun⟩
  exact related_query_bind hop fun id id' hid ↦ hfg id id' hid m m' hm

end Lockstep

/-! ## Entry points -/

section EntryPoints

variable (hE : ∀ m m', E m m' → m.depth = m'.depth)

theorem lockstep_query {o : StateOp} (ho : o.isShared = true) :
    InStep lists a b E (query o) := Lockstep.query (shifted_shared ho)

theorem related_ask {o : StateOp} (ho : o.isShared = true) :
    (ask o).Related (shifted lists a b) Eq (ask o) :=
  (Prog.related_perform (shifted_shared ho).1).mono (shifted_shared ho).2

theorem related_canTransfer (c : Address) (v : Nat) :
    (canTransfer c v).Related (shifted lists a b) Eq (canTransfer c v) :=
  .bind (related_ask rfl) fun _ _ h ↦ congrArg (fun x ↦ decide ((v : ℤ) ≤ x)) h

theorem related_canPay (c : Address) (v : Nat) :
    (canPay c v).Related (shifted lists a b) Eq (canPay c v) := by
  unfold canPay
  split
  · exact related_canTransfer c v
  · rfl

theorem related_transfer (c d : Address) (v : Nat) :
    (transfer c d v).Related (shifted lists a b) Eq (transfer c d v) :=
  (related_ask rfl).bind fun _ _ _ ↦ related_ask rfl

theorem lockstep_settleCall {id id' : Nat} (hid : Shifted a b id id') (r : CallResult) :
    Lockstep lists a b E (settleCall id r) (settleCall id' r) := by
  unfold settleCall
  cases r.err with
  | none => exact .pure r
  | some err =>
    intro m m' hm
    have hop : (shifted lists a b).op (.revertToSnapshot id) (.revertToSnapshot id') := hid
    exact related_query_bind hop fun _ _ _ ↦ Lockstep.pure _ m m' hm

include hE

theorem lockstep_captureFrame (typ : OpCode) (create : Bool) (src dest : Address) (value : Nat) :
    InStep lists a b E (captureFrame typ create src dest value) :=
  (Lockstep.readRegister hE).bind fun _ ↦ .ite (fun _ ↦ lockstep_query rfl) fun _ ↦ lockstep_query rfl

theorem lockstep_around {α : Type} {x : EvmM α} (hx : Around (fun _ ↦ True) α x) :
    InStep lists a b E x := by
  cases hx with
  | depth => exact .readRegister hE
  | canTransfer => exact .lift (related_canTransfer _ _)
  | paid => exact .lift rfl
  | transfer => exact .lift (related_transfer _ _ _)
  | capture => exact lockstep_captureFrame hE _ _ _ _ _
  | _ => exact lockstep_query rfl

theorem lockstep_entryLogic : EntryLogic (fun _ _ ↦ InStep lists a b E) fun _ ↦ True where
  pure _ := .pure _
  around hx hf := .bind (lockstep_around hE hx) hf
  settled hx := .snapshot fun _ _ hid ↦ .bind hx fun r ↦ lockstep_settleCall hid r
  account _ _ _ _ _ _ hy hx := by
    refine .snapshot fun id id' hid ↦ .bind (lockstep_query rfl) fun present ↦ .ite (fun _ ↦ hy) fun _ ↦ ?_
    have hrest := hx.bind fun r ↦ lockstep_settleCall hid r
    exact .ite (fun _ ↦ .bind (lockstep_query rfl) fun _ ↦ hrest) fun _ ↦ hrest

variable {evm : EVM} {runner : Runner} (hrun : ∀ contract input readOnly,
  InStep lists a b E (runner contract input readOnly))

include hrun

omit hE hrun in
theorem lockstep_storeCode (address : Address) (r : CallResult) :
    InStep lists a b E (evm.storeCode address r) := by
  unfold EVM.storeCode
  cases evm.checkCode r with
  | some err => exact .pure _
  | none => exact .ite (fun _ ↦ .pure _) fun _ ↦ .bind (lockstep_query rfl) fun _ ↦ .pure _

omit hE hrun in
theorem lockstep_settleCreate {id id' : Nat} (hid : Shifted a b id id') (r : CallResult) :
    Lockstep lists a b E (evm.settleCreate id r) (evm.settleCreate id' r) := by
  unfold EVM.settleCreate
  cases r.err with
  | none => exact .pure _
  | some err => exact .ite (fun _ ↦ lockstep_settleCall hid r) fun _ ↦ .pure _

theorem lockstep_createAt (caller : Address) (code : Bytes) (codeHash : Hash) (gas value : Nat)
    (address : Address) (typ : OpCode) :
    InStep lists a b E (evm.createAt runner caller code codeHash gas value address typ) := by
  have henter : InStep lists a b E (evm.enterCreate runner caller code codeHash gas value address typ) :=
    .snapshot fun _ _ hid ↦ .bind (lockstep_query rfl) fun _ ↦
      (Lockstep.lift (related_transfer _ _ _)).bind fun _ ↦
      (lockstep_captureFrame hE _ _ _ _ _).bind fun _ ↦ (hrun _ _ _).bind fun r ↦
      (lockstep_storeCode address r).bind fun r ↦ (lockstep_settleCreate hid r).bind fun _ ↦ .pure _
  refine (Lockstep.readRegister hE).bind fun _ ↦ .ite (fun _ ↦ .pure _) fun _ ↦ ?_
  refine (Lockstep.lift (related_canTransfer _ _)).bind fun _ ↦ .ite (fun _ ↦ .pure _) fun _ ↦ ?_
  refine .bind (lockstep_query rfl) fun nonce ↦ .ite (fun _ ↦ .pure _) fun _ ↦ ?_
  refine .bind (lockstep_query rfl) fun _ ↦ .bind (lockstep_query rfl) fun contractHash ↦ ?_
  exact .bind (lockstep_query rfl) fun taken ↦ .ite (fun _ ↦ .pure _) fun _ ↦ henter

theorem lockstep_create (caller : Address) (code : Bytes) (gas value : Nat) :
    InStep lists a b E (evm.create runner caller code gas value) :=
  .bind (lockstep_query rfl) fun _ ↦ lockstep_createAt hE hrun _ _ _ _ _ _ _

end EntryPoints

/-! ## Code -/

section Code

variable {evm : EVM}

def lockstepJudgement (lists : Bool) (a b : Nat) : Judgement :=
  fun _ _ ↦ InStep lists a b InFrame

theorem lockstep_accessAddress (hlists : lists = true) (addr : Address) :
    InStep lists a b E (accessAddress addr) := by
  refine .bind (.query (shifted_list hlists rfl)) fun present ↦ .ite (fun _ ↦ .pure _) fun _ ↦ ?_
  exact .bind (.query (shifted_list hlists rfl)) fun _ ↦ .pure _

theorem lockstep_sstoreSlotCost (hlists : lists = true) (self : Address) (slot : Hash) :
    InStep lists a b E (sstoreSlotCost self slot) := by
  refine .bind (.query (shifted_list hlists rfl)) fun found ↦ ?_
  refine .ite (fun _ ↦ .pure _) fun _ ↦ .bind (.query (shifted_list hlists rfl)) fun _ ↦ ?_
  exact .ite (fun _ ↦ .pure _) fun _ ↦ .crash _

/-- Entering a frame clears the returned data, and leaving it goes back to where it was entered. -/
theorem lockstep_frame {x : EvmM CallResult} (hE : ∀ m m', E m m' → Level m m')
    (hE' : ∀ m m', InFrame m m' → E m m') (hx : InStep lists a b InFrame x)
    (readOnly : Bool) : InStep lists a b E
      (do let entered ← enterFrame readOnly; let r ← x; leaveFrame entered; return r) := by
  intro m m' hm
  obtain ⟨hdepth, hro⟩ := hE m m' hm
  have henter : InFrame
      { m with depth := m.depth + 1, readOnly := m.readOnly || readOnly, returnData := [] }
      { m' with depth := m'.depth + 1, readOnly := m'.readOnly || readOnly, returnData := [] } :=
    ⟨⟨by rw [hdepth], by rw [hro]⟩, rfl⟩
  refine (hx _ _ henter).bind ?_
  rintro ⟨r, n⟩ ⟨r', n'⟩ ⟨hr, ⟨hdepth', hro'⟩, hret⟩
  refine ⟨hr, hE' _ _ ⟨⟨?_, ?_⟩, hret⟩⟩
  · rw [hdepth']
  · rw [hro, hro']

theorem inFrame_entryLogic : EntryLogic (fun _ _ ↦ InStep lists a b InFrame) fun _ ↦ True :=
  lockstep_entryLogic fun _ _ hm ↦ hm.depth

theorem lockstepLogic (hlists : usesAccessList evm.chainRules = lists) :
    FrameLogic evm (lockstepJudgement lists a b) where
  closed l :=
    { pure := .pure
      bind := .bind
      crash := fun e _ ↦ .crash e
      query := fun o ho ↦ .query (shifted_quiet (hlists ▸ ho))
      returnData := .readRegister fun _ _ hm ↦ hm.returnData
      readOnly := .readRegister fun _ _ hm ↦ hm.readOnly
      setReturnData := fun _ _ _ hm ↦ ⟨rfl, ⟨hm.depth, hm.readOnly⟩, rfl⟩
      setCallGasTemp := fun _ _ _ hm ↦ ⟨rfl, ⟨hm.depth, hm.readOnly⟩, hm.returnData⟩ }
  bind hx hQ hf m m' hm := by
    refine ((hx m m' hm).and_returns (hQ m)).bind ?_
    rintro ⟨r, n⟩ ⟨r', n'⟩ ⟨⟨hr, hn⟩, hQr⟩
    dsimp only at hr hn hQr ⊢
    rw [← hr]
    exact hf r hQr n n' hn
  mono _ hx := hx
  captureState op _ := lockstep_query rfl
  accessAddress addr h hf := .bind (lockstep_accessAddress (hlists ▸ h) addr) hf
  slotInAccessList slot h _ := .query (shifted_list (hlists ▸ h) rfl)
  sstoreSlotCost slot h _ := lockstep_sstoreSlotCost (hlists ▸ h) _ slot
  storedGas op gas _ hf m m' hm := related_query_bind (shifted_shared rfl).1 fun _ _ _ ↦
    hf { m with callGasTemp := gas } { m' with callGasTemp := gas }
      ⟨⟨hm.depth, hm.readOnly⟩, hm.returnData⟩
  destruct _ _ := .bind (lockstep_query rfl) fun _ ↦ .bind (lockstep_query rfl) fun _ ↦
    .bind (lockstep_query rfl) fun _ ↦ lockstep_query rfl
  frame readOnly hx := lockstep_frame (fun _ _ hm ↦ hm.toLevel) (fun _ _ hm ↦ hm) hx readOnly
  call _ _ _ _ hrun _ := inFrame_entryLogic.call (fun c i r _ ↦ hrun c i r) _ _ _ trivial
  callCode _ _ _ _ hrun _ := inFrame_entryLogic.callCode (fun c i r _ ↦ hrun c i r) _ _ _ _
  delegateCall _ _ _ hrun _ := inFrame_entryLogic.delegateCall (fun c i r _ ↦ hrun c i r) _ _ _
  staticCall _ _ _ hrun _ := inFrame_entryLogic.staticCall (fun c i r _ ↦ hrun c i r) _ _ _
  create code gas value hrun _ := lockstep_create (fun _ _ hm ↦ hm.depth) hrun _ _ _ _
  create2 code gas value salt hrun _ := lockstep_createAt (fun _ _ hm ↦ hm.depth) hrun _ _ _ _ _ _ _

/-- **Code is in lockstep with itself**, whatever the previous message left in the registers. -/
theorem lockstep_interpreter (evm : EVM) (contract : Contract) (input : Bytes) (readOnly : Bool) :
    InStep (usesAccessList evm.chainRules) a b Level (evm.interpreter contract input readOnly) := by
  have L : FrameLogic evm (lockstepJudgement (usesAccessList evm.chainRules) a b) :=
    lockstepLogic rfl
  exact lockstep_frame (fun _ _ hm ↦ hm) (fun _ _ hm ↦ hm.toLevel)
    (L.frameCode (L.runner _) contract input) readOnly

end Code

end GoEntropy.Evm
