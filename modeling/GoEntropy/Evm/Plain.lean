import GoEntropy.Evm.Interpreter

/-!
# Instructions that cannot matter

Most instructions neither move value nor enter a frame nor touch the access list: whatever a proof
about executions tracks, they keep it, and for the same reason. This module gives that reason once.

A predicate on programs is *closed* (`Closed S`) if it holds of returning, of sequencing, of
crashing, of the register accesses instructions make, and of calling the methods in `S`. A program is
*plain* (`Plain S`) if it satisfies every closed predicate; so to show that plain programs keep
something, one shows that the things above keep it. `Simple S` adds what an instruction does to its own
frame: the contract is left alone and the memory keeps its size.

There are two classes of methods for this. The *calm* ones (`Calm`) only read, or record a preimage;
most instructions call no others. The *quiet* ones (`Quiet`) may also write, except balances, and
include what `SSTORE` and the logs call. The calls, the creations and `SELFDESTRUCT` are not plain.
They are the subject of the proofs that use this module.
-/

namespace GoEntropy.Evm

open Interaction

/-! ## Classes of methods -/

/-- Methods that concern neither balances, snapshots, the access list nor the tracer. -/
def StateOp.isQuiet : StateOp → Bool
  | subBalance _ _ => false
  | addBalance _ _ => false
  | suicide _ => false
  | addressInAccessList _ => false
  | slotInAccessList _ _ => false
  | addAddressToAccessList _ => false
  | addSlotToAccessList _ _ => false
  | revertToSnapshot _ => false
  | snapshot => false
  | captureStart .. => false
  | captureEnter .. => false
  | captureState .. => false
  | _ => true

/-- The methods of the access list that may be called for any account. The test for a slot is not among
them: gas functions only make it for the account their frame runs as. -/
def StateOp.isAccessList : StateOp → Bool
  | addressInAccessList _ => true
  | addAddressToAccessList _ => true
  | addSlotToAccessList _ _ => true
  | _ => false

/-- Methods that read, and the one that records preimages. -/
def StateOp.isCalm : StateOp → Bool
  | getBalance _ => true
  | getNonce _ => true
  | getCodeHash _ => true
  | getCode _ => true
  | getCodeSize _ => true
  | getRefund => true
  | getCommittedState _ _ => true
  | getState _ _ => true
  | hasSuicided _ => true
  | exist _ => true
  | empty _ => true
  | addPreimage _ _ => true
  | _ => false

def Calm (o : StateOp) : Prop := o.isCalm = true

/-- The calm methods, and those of the access list where gas prices depend on it. -/
def CalmOr (lists : Bool) (o : StateOp) : Prop :=
  o.isCalm = true ∨ lists = true ∧ o.isAccessList = true

/-- The same, and granting a refund. -/
def RefundOr (lists : Bool) (o : StateOp) : Prop := CalmOr lists o ∨ ∃ gas, o = .addRefund gas

/-- The calm methods, and those of the refund counter. -/
def Metered (o : StateOp) : Prop :=
  Calm o ∨ (∃ gas, o = .addRefund gas) ∨ ∃ gas, o = .subRefund gas

def Quiet (o : StateOp) : Prop := o.isQuiet = true

/-- The quiet methods, and those of the access list where gas prices depend on it. -/
def QuietOr (lists : Bool) (o : StateOp) : Prop :=
  o.isQuiet = true ∨ lists = true ∧ o.isAccessList = true

variable {o : StateOp}

theorem Calm.quiet (h : Calm o) : Quiet o := by
  cases o <;> first | rfl | cases h

theorem Metered.quiet (h : Metered o) : Quiet o := by
  rcases h with h | ⟨gas, rfl⟩ | ⟨gas, rfl⟩
  · exact h.quiet
  · rfl
  · rfl

variable {lists : Bool}

theorem CalmOr.quietOr (h : CalmOr lists o) : QuietOr lists o :=
  h.imp_left Calm.quiet

theorem RefundOr.quietOr (h : RefundOr lists o) : QuietOr lists o := by
  rcases h with h | ⟨gas, rfl⟩
  · exact h.quietOr
  · exact .inl rfl

/-! ## Plain programs -/

/-- A predicate that holds of the harmless building blocks and of what is built from them. -/
structure Closed (S : StateOp → Prop) (P : (α : Type) → EvmM α → Prop) : Prop where
  pure : ∀ {α : Type} (a : α), P α (pure a)
  bind : ∀ {α β : Type} {x : EvmM α} {f : α → EvmM β}, P α x → (∀ a, P β (f a)) → P β (x >>= f)
  crash : ∀ {α : Type} (e : Fault), e.isLocal = true → P α (crash e)
  query : ∀ o, S o → P o.Res (query o)
  returnData : P Bytes (readRegister (·.returnData))
  readOnly : P Bool (readRegister (·.readOnly))
  setReturnData : ∀ data, P Unit (setReturnData data)
  setCallGasTemp : ∀ gas, P Unit (setCallGasTemp gas)

/-- A program every closed predicate holds of. -/
def Plain (S : StateOp → Prop) {α : Type} (x : EvmM α) : Prop := ∀ P, Closed S P → P α x

namespace Plain

variable {S : StateOp → Prop} {α β : Type}

theorem pure (a : α) : Plain S (pure a : EvmM α) := fun _ h ↦ h.pure a

variable {x : EvmM α}

theorem bind {f : α → EvmM β} (hx : Plain S x) (hf : ∀ a, Plain S (f a)) :
    Plain S (x >>= f) := fun P h ↦ h.bind (hx P h) fun a ↦ hf a P h

theorem crash {e : Fault} (he : e.isLocal = true) : Plain S (crash e : EvmM α) :=
  fun _ h ↦ h.crash e he

theorem query (ho : S o) : Plain S (query o) := fun _ h ↦ h.query o ho

theorem returnData : Plain S (readRegister (·.returnData)) := fun _ h ↦ h.returnData

theorem readOnly : Plain S (readRegister (·.readOnly)) := fun _ h ↦ h.readOnly

theorem setReturnData (data : Bytes) : Plain S (setReturnData data) :=
  fun _ h ↦ h.setReturnData data

theorem setCallGasTemp (gas : Nat) : Plain S (setCallGasTemp gas) :=
  fun _ h ↦ h.setCallGasTemp gas

theorem mono {S' : StateOp → Prop} (hx : Plain S x) (h : ∀ o, S o → S' o) :
    Plain S' x := fun P hP ↦ hx P { hP with query := fun o ho ↦ hP.query o (h o ho) }

theorem ite {c : Prop} [Decidable c] {x y : EvmM α} (hx : c → Plain S x) (hy : ¬c → Plain S y) :
    Plain S (if c then x else y) := by
  split
  · next h => exact hx h
  · next h => exact hy h

end Plain

/-! ## Values a program can return -/

/-- Whatever the state answers, the program only returns values in `Q`. -/
def Yields {α : Type} (Q : α → Prop) (x : EvmM α) : Prop := ∀ m, (x m).Returns fun p ↦ Q p.1

namespace Yields

variable {α β : Type} {Q : α → Prop} {P : β → Prop}

theorem pure {a : α} (h : Q a) : Yields Q (pure a) := fun _ ↦ h

theorem crash (e : Fault) : Yields Q (crash e) := fun _ ↦ trivial

theorem bind {x : EvmM α} {f : α → EvmM β} (hx : Yields Q x) (hf : ∀ a, Q a → Yields P (f a)) :
    Yields P (x >>= f) := fun m ↦ (hx m).bind fun p hp ↦ hf p.1 hp p.2

theorem true (x : EvmM α) : Yields (fun _ ↦ True) x := fun m ↦ (x m).returns_true

/-- What comes first does not matter if the rest always yields the value. -/
theorem andThen {x : EvmM α} {f : α → EvmM β} (hf : ∀ a, Yields P (f a)) : Yields P (x >>= f) :=
  (Yields.true x).bind fun a _ ↦ hf a

theorem mono {Q' : α → Prop} {x : EvmM α} (hx : Yields Q x) (h : ∀ a, Q a → Q' a) :
    Yields Q' x := fun m ↦ (hx m).mono fun p ↦ h p.1

theorem ite {c : Prop} [Decidable c] {x y : EvmM α} (hx : c → Yields Q x) (hy : ¬c → Yields Q y) :
    Yields Q (if c then x else y) := by
  split
  · next h => exact hx h
  · next h => exact hy h

end Yields

/-! ## Simple instructions -/

structure Memory.Shape (m m' : Memory) : Prop where
  len : m'.len = m.len
  lastGasCost : m'.lastGasCost = m.lastGasCost

theorem Memory.Shape.refl (m : Memory) : m.Shape m := ⟨rfl, rfl⟩

theorem Memory.shape_of_set {m m' : Memory} {offset size : Nat} {value : Bytes}
    (h : m.set offset size value = some m') : m.Shape m' := by
  unfold Memory.set at h
  split at h
  · rw [← Option.some_inj.1 h]
    exact .refl m
  · split at h
    · cases h
    · next hle =>
      rw [← Option.some_inj.1 h]
      refine ⟨?_, rfl⟩
      simp only [Memory.len] at hle ⊢
      simp only [overwrite, List.length_append, List.length_take, List.length_drop]
      omega

/-- The frame an instruction leaves has the contract it found, and a memory of the same shape. The
error of a creation that cannot pay for its code is not one that instructions halt with. -/
def ExecResult.Keeps (scope : Scope) : ExecResult → Prop
  | .next scope' => scope'.contract = scope.contract ∧ scope.memory.Shape scope'.memory
  | .halt scope' _ err => scope'.contract = scope.contract ∧ scope.memory.Shape scope'.memory ∧
      err ≠ some .codeStoreOutOfGas

/-- An instruction that is plain and leaves its frame's contract and memory size alone. -/
structure Simple (S : StateOp → Prop) (scope : Scope) (x : EvmM ExecResult) : Prop where
  plain : Plain S x
  keeps : Yields (·.Keeps scope) x

namespace Simple

variable {S : StateOp → Prop} {scope : Scope} {α : Type}

theorem pure {r : ExecResult} (h : r.Keeps scope) : Simple S scope (pure r) := ⟨.pure r, .pure h⟩

theorem crash {e : Fault} (he : e.isLocal = true) : Simple S scope (crash e) :=
  ⟨.crash he, .crash e⟩

theorem bind {x : EvmM α} {f : α → EvmM ExecResult} (hx : Plain S x)
    (hf : ∀ a, Simple S scope (f a)) : Simple S scope (x >>= f) :=
  ⟨hx.bind fun a ↦ (hf a).plain, .andThen fun a ↦ (hf a).keeps⟩

end Simple

theorem ExecResult.keeps_next (scope : Scope) (pc : Nat) (st : Stack) :
    (ExecResult.next { scope with pc := pc, stack := st }).Keeps scope :=
  ⟨rfl, .refl _⟩

theorem Simple.halt {S : StateOp → Prop} {scope : Scope} {st : Stack} {res : Bytes}
    {err : Option VmError} (herr : err ≠ some .codeStoreOutOfGas) :
    Simple S scope (Pure.pure (ExecResult.halt { scope with stack := st } res err)) :=
  .pure ⟨rfl, .refl _, herr⟩

/-- What a function on frames has to satisfy to be a simple instruction. -/
def LocalSpec (f : EVM → Scope → Except Fault Scope) : Prop :=
  ∀ evm scope,
    match f evm scope with
    | .ok scope' => (ExecResult.next scope').Keeps scope
    | .error e => e.isLocal = true

/-- The end of an instruction that is given as a function on frames. -/
theorem simple_result {S : StateOp → Prop} {scope : Scope} {r : Except Fault Scope} :
    (match r with
      | .ok scope' => (ExecResult.next scope').Keeps scope
      | .error e => e.isLocal = true) →
    Simple S scope (match r with
      | .ok scope => pure (.next scope)
      | .error e => crash e) := by
  intro h
  cases r with
  | ok scope' => exact .pure h
  | error e => exact .crash h

theorem simple_localOp {S : StateOp → Prop} {f : EVM → Scope → Except Fault Scope} (hf : LocalSpec f) (evm : EVM)
    (callees : Callees) (scope : Scope) : Simple S scope (localOp f evm callees scope) :=
  simple_result (hf evm scope)

theorem setMemory_spec (scope : Scope) (st : Stack) (offset size : Nat) (value : Bytes) :
    match scope.setMemory st offset size value with
    | .ok scope' => (ExecResult.next scope').Keeps scope
    | .error e => e.isLocal = true := by
  unfold Scope.setMemory
  cases h : scope.memory.set offset size value with
  | none => rfl
  | some m => exact ⟨rfl, Memory.shape_of_set h⟩

end GoEntropy.Evm
