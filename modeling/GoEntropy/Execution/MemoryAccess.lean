import GoEntropy.Chain.StateTransition
import GoEntropy.Evm.Passes
import GoEntropy.State.Reachable

/-!
# The memory of a frame

The entries of the instruction sets are safe on their own terms; here they are put together. Before an
instruction is executed its frame is `Ready` for it, because the memory has been resized to what the
entry's size function asked for, and after it the memory still is paid for, so the next instruction
finds the same invariant. By induction on the loop and on the nesting of frames, no run of any code
leaves the bounds of its memory.
-/

namespace GoEntropy.Execution

open Interaction Evm

/-! ## Frames -/

section Frames

variable {evm : EVM} {jt : JumpTable} (hjt : InstructionSet jt) {callees : Callees}
  {scope scope' : Scope} {m m' : Machine} {fees fee words : Nat}

include hjt

/-- A frame is ready for an instruction that has no memory, or whose memory has been resized. -/
theorem ready_of_requiredMemory {size : Nat} (hstack : scope'.stack = scope.stack)
    (hmin : (scope.entry jt).minStack ≤ scope.stack.length)
    (hsize : (scope.entry jt).requiredMemory scope.stack = some size)
    (hlen : size ≤ scope'.memory.len) (hpaid : scope'.memory.PaidFor fees words) :
    (scope.entry jt).execute = opUndefined ∨
      scope'.Ready (scope.contract.getOp scope.pc) (scope.entry jt).minStack := by
  refine (hjt.memorySafe (scope.contract.getOp scope.pc)).covers.imp_right fun hcovers ↦ ?_
  have hmem := hpaid.len_eq
  have hwords := hpaid.words_lt
  refine ⟨by rwa [hstack], fun a ha ↦ ?_, by omega⟩
  rw [hstack] at ha
  exact (hcovers scope.stack size hsize a ha).mono hlen

theorem requiredMemory_constant (hdynamic : (scope.entry jt).dynamicGas = none) :
    (scope.entry jt).requiredMemory scope.stack = some 0 := by
  have hnone : (scope.entry jt).memorySize = none :=
    (hjt.memorySafe (scope.contract.getOp scope.pc)).memorySize hdynamic
  unfold Operation.requiredMemory
  rw [hnone]

/-- **Whenever an execution function is reached, its frame is ready.** -/
theorem ready_of_reachesExecute (h : ReachesExecute evm jt scope m fee scope' m')
    (hpaid : scope'.memory.PaidFor fees words) :
    (scope.entry jt).execute = opUndefined ∨
      scope'.Ready (scope.contract.getOp scope.pc) (scope.entry jt).minStack := by
  cases h with
  | constant hmin hmax hgas hdynamic =>
    exact ready_of_requiredMemory hjt rfl hmin (requiredMemory_constant hjt hdynamic)
      (Nat.zero_le _) hpaid
  | dynamic hmin hmax hgas hdynamic hsize hcost hgas' =>
    refine ready_of_requiredMemory hjt rfl hmin hsize ?_ hpaid
    rw [Memory.len_resize]
    exact Nat.le_max_right _ _

/-- An execution function stays in bounds if its frame is ready. -/
theorem sound_execute (hcallees : callees.Sound)
    (h : (scope.entry jt).execute = opUndefined ∨
      scope'.Ready (scope.contract.getOp scope.pc) (scope.entry jt).minStack) :
    Sound ((scope.entry jt).execute evm callees scope') := by
  rcases h with hundefined | hready
  · rw [hundefined]
    exact .pure _
  · exact (hjt.memorySafe (scope.contract.getOp scope.pc)).execute evm callees scope' hcallees hready

/-- **One iteration of the loop stays in bounds.** -/
theorem sound_step (hcallees : callees.Sound) (hm : scope.memory.PaidFor fees words) :
    Sound (step evm jt callees scope) := by
  obtain ⟨lists, hentry⟩ := hjt.entry
  unfold step
  dsimp only
  rw [show jt (scope.contract.getOp scope.pc) = scope.entry jt from rfl]
  refine .ite (fun _ ↦ .pure _) fun hmin ↦ .ite (fun _ ↦ .pure _) fun _ ↦ ?_
  cases scope.contract.useGas (scope.entry jt).constantGas with
  | none => exact .pure _
  | some contract =>
    unfold Operation.executePaid
    cases hdynamic : (scope.entry jt).dynamicGas with
    | none =>
      refine .bind (.query _) fun _ ↦ sound_execute hjt hcallees ?_
      exact ready_of_requiredMemory hjt rfl (not_lt.1 hmin) (requiredMemory_constant hjt hdynamic)
        (Nat.zero_le _) hm
    | some g =>
      dsimp only [Operation.executeDynamic]
      cases hsize : (scope.entry jt).requiredMemory scope.stack with
      | none => exact .pure _
      | some size =>
        have hgas : g.Sound := (hjt.memorySafe (scope.contract.getOp scope.pc)).gas g hdynamic
        refine .bind_yields (hgas evm contract scope.stack scope.memory size)
          (Entry.chargesFee (hentry _) hdynamic hsize hm.charged contract) fun cost hcost ↦ ?_
        rcases cost with _ | ⟨price, mem⟩
        · exact .pure _
        -- the memory is resized before the instruction is executed
        obtain ⟨fee, hfee, _⟩ := hcost _ rfl
        obtain ⟨size, rfl⟩ := requiredMemory_eq_some hsize
        dsimp only [Operation.payDynamic]
        cases contract.useGas price with
        | none => exact .pure _
        | some contract' =>
          refine .bind (.query _) fun _ ↦ sound_execute hjt hcallees ?_
          refine ready_of_requiredMemory hjt rfl (not_lt.1 hmin) hsize ?_ (hm.charge hfee)
          rw [Memory.len_resize]
          exact Nat.le_max_right _ _

/-- **One iteration of the loop** leaves a memory that has been paid for. -/
theorem paidFor_step (hm : scope.memory.PaidFor fees words) :
    Yields (fun r ↦ ∃ fees words, r.scope.memory.PaidFor fees words)
      (step evm jt callees scope) := by
  obtain ⟨lists, hentry⟩ := hjt.entry
  refine fun m ↦ Prog.returns_of_canReturn fun ⟨r, m'⟩ hr ↦ ?_
  rcases step_cases hr with ⟨contract, err, rfl⟩ | ⟨fee, scope', m₁, hreach, hexec⟩
  · exact ⟨fees, words, hm⟩
  · obtain ⟨words', _, hm'⟩ := (hreach.paidFor hentry hm).1
    exact ⟨_, words', paidFor_execute hentry hexec hm'⟩

/-- **The loop stays in bounds**, by induction on the number of steps. -/
theorem sound_runLoop (hcallees : callees.Sound) (fuel : Nat) (scope : Scope)
    (hm : scope.memory.PaidFor fees words) : Sound (runLoop evm jt callees fuel scope) := by
  induction fuel generalizing scope fees words with
  | zero => exact .crash ⟨by simp, by simp⟩
  | succ fuel ih =>
    refine .bind_yields (sound_step hjt hcallees hm) (paidFor_step hjt hm) fun r hr ↦ ?_
    cases r with
    | next scope' =>
      obtain ⟨fees', words', hm'⟩ := hr
      exact ih { scope' with pc := add64 scope'.pc 1 } hm'
    | halt scope' res err => exact .pure _

end Frames

theorem paidFor_empty : Memory.empty.PaidFor 0 0 := ⟨rfl, rfl, rfl, by decide⟩

/-! ## Entry points -/

section EntryPoints

variable {evm : EVM} {runner : Runner}
  (hrun : ∀ contract input readOnly, Sound (runner contract input readOnly))

theorem sound_settleCall (id : Nat) (r : CallResult) : Sound (settleCall id r) := by
  unfold settleCall
  split
  · exact .pure _
  · exact .bind (.query _) .pure

theorem sound_captureFrame (typ : OpCode) (create : Bool) (src dest : Address) (value : Nat) :
    Sound (captureFrame typ create src dest value) :=
  .bind (.readRegister _) fun _ ↦ .ite (fun _ ↦ .query _) fun _ ↦ .query _

theorem sound_canTransfer (addr : Address) (amount : Nat) : Sound (lift (canTransfer addr amount)) :=
  .lift ⟨trivial, fun _ ↦ trivial⟩

theorem sound_transfer (sender recipient : Address) (amount : Nat) :
    Sound (lift (transfer sender recipient amount)) :=
  .lift ⟨trivial, fun _ ↦ ⟨trivial, fun _ ↦ trivial⟩⟩

theorem sound_around {α : Type} {x : EvmM α} (hx : Around (fun _ ↦ True) α x) : Sound x := by
  cases hx with
  | depth => exact .readRegister _
  | canTransfer => exact sound_canTransfer _ _
  | paid => exact .lift trivial
  | transfer => exact sound_transfer _ _ _
  | capture => exact sound_captureFrame _ _ _ _ _
  | _ => exact .query _

theorem sound_entryLogic : EntryLogic (fun _ _ ↦ Sound) fun _ ↦ True where
  pure _ := .pure _
  around hx hf := .bind (sound_around hx) hf
  settled hx := .bind (.query _) fun id ↦ .bind hx fun r ↦ sound_settleCall id r
  account _ _ _ _ _ _ hy hx := by
    have hrest (id : Nat) := Sound.bind hx fun r ↦ sound_settleCall id r
    refine .bind (.query _) fun id ↦ .bind (.query _) fun _ ↦ .ite (fun _ ↦ hy) fun _ ↦ ?_
    exact .ite (fun _ ↦ .bind (.query _) fun _ ↦ hrest id) fun _ ↦ hrest id

include hrun

omit hrun in
theorem sound_storeCode (address : Address) (r : CallResult) : Sound (evm.storeCode address r) := by
  unfold EVM.storeCode
  split
  · exact .pure _
  · exact .ite (fun _ ↦ .pure _) fun _ ↦ .bind (.query _) .pure

omit hrun in
theorem sound_settleCreate (id : Nat) (r : CallResult) : Sound (evm.settleCreate id r) := by
  unfold EVM.settleCreate
  split
  · exact .pure _
  · exact .ite (fun _ ↦ sound_settleCall id r) fun _ ↦ .pure _

theorem sound_createAt (caller : Address) (code : Bytes) (codeHash : Hash) (gas value : Nat)
    (address : Address) (typ : OpCode) :
    Sound (evm.createAt runner caller code codeHash gas value address typ) := by
  refine .bind (.readRegister _) fun _ ↦ .ite (fun _ ↦ .pure _) fun _ ↦
    .bind (sound_canTransfer _ _) fun _ ↦ .ite (fun _ ↦ .pure _) fun _ ↦ .bind (.query _) fun _ ↦ ?_
  refine .ite (fun _ ↦ .pure _) fun _ ↦ .bind (.query _) fun _ ↦ .bind (.query _) fun _ ↦
    .bind (.query _) fun _ ↦ .ite (fun _ ↦ .pure _) fun _ ↦ ?_
  refine .bind (.query _) fun id ↦ .bind (.query _) fun _ ↦ .bind (sound_transfer _ _ _) fun _ ↦ ?_
  exact .bind (sound_captureFrame _ _ _ _ _) fun _ ↦ .bind (hrun _ _ _) fun r ↦
    .bind (sound_storeCode address r) fun r ↦ .bind (sound_settleCreate id r) .pure

theorem sound_callees : (evm.callees runner).Sound where
  call c a i _ _ := sound_entryLogic.call (fun c i r _ ↦ hrun c i r) c a i trivial
  callCode c a i _ v := sound_entryLogic.callCode (fun c i r _ ↦ hrun c i r) c a i v
  delegateCall p a i _ := sound_entryLogic.delegateCall (fun c i r _ ↦ hrun c i r) a i p
  staticCall c a i _ := sound_entryLogic.staticCall (fun c i r _ ↦ hrun c i r) c a i
  create := fun _ _ _ _ ↦ .bind (.query _) fun _ ↦ sound_createAt hrun _ _ _ _ _ _ _
  create2 := fun _ _ _ _ _ ↦ sound_createAt hrun _ _ _ _ _ _ _

end EntryPoints

/-- **Nested runs stay in bounds**, by induction on how deep frames may nest. -/
theorem sound_runner (evm : EVM) (depth : Nat) (contract : Contract) (input : Bytes)
    (readOnly : Bool) : Sound (evm.runner depth contract input readOnly) := by
  induction depth generalizing contract input readOnly with
  | zero => exact .crash ⟨by simp, by simp⟩
  | succ depth ih =>
    have hcode : Sound (evm.frameCode (selectJumpTable evm.chainRules) (evm.callees (evm.runner depth)) contract input) :=
      .ite (fun _ ↦ .pure _) fun _ ↦
        sound_runLoop (.select _) (sound_callees ih) _ (.start contract input) paidFor_empty
    have henter : Sound (enterFrame readOnly) := fun _ ↦ trivial
    have hleave : ∀ entered, Sound (leaveFrame entered) := fun _ _ ↦ trivial
    exact .bind henter fun _ ↦ .bind hcode fun _ ↦ .bind (hleave _) .pure

/-! ## The memories of a frame -/

/-- The memories that a frame has in the course of its execution, with the fees charged for memory
until then: between two instructions, when an instruction is executed, and when one has halted. -/
inductive MemoryOf (evm : EVM) (jt : JumpTable) (callees : Callees) (start : Scope) :
    Nat → Memory → Prop
  | between {fees : Nat} {scope : Scope} (h : Passes evm jt callees start fees scope) :
    MemoryOf evm jt callees start fees scope.memory
  | executing {fees fee : Nat} {scope scope' : Scope} {m m' : Machine}
      (h : Passes evm jt callees start fees scope)
      (hreach : ReachesExecute evm jt scope m fee scope' m') :
    MemoryOf evm jt callees start (fees + fee) scope'.memory
  | halted {fees fee : Nat} {scope scope' scope'' : Scope} {m m' m'' : Machine} {res : Bytes}
      {err : Option VmError} (h : Passes evm jt callees start fees scope)
      (hreach : ReachesExecute evm jt scope m fee scope' m')
      (hhalt : ((scope.entry jt).execute evm callees scope' m').CanReturn
        (.halt scope'' res err, m'')) :
    MemoryOf evm jt callees start (fees + fee) scope''.memory

section Memories

variable {evm : EVM} {jt : JumpTable} (hjt : InstructionSet jt) {callees : Callees}
  {contract : Contract} {input : Bytes}

include hjt

/-- What has been charged for memory depends on its size only. -/
theorem MemoryOf.paidFor {fees : Nat} {mem : Memory}
    (h : MemoryOf evm jt callees (Scope.start contract input) fees mem) :
    ∃ words, mem.PaidFor fees words := by
  obtain ⟨lists, hentry⟩ := hjt.entry
  cases h with
  | between h => exact h.paidFor hentry rfl
  | executing h hreach =>
    obtain ⟨words, hm⟩ := h.paidFor hentry rfl
    obtain ⟨words', _, hm'⟩ := (hreach.paidFor hentry hm).1
    exact ⟨words', hm'⟩
  | halted h hreach hhalt =>
    obtain ⟨words, hm⟩ := h.paidFor hentry rfl
    obtain ⟨words', _, hm'⟩ := (hreach.paidFor hentry hm).1
    exact ⟨words', paidFor_execute hentry hhalt hm'⟩

omit hjt in
/-- The fee in the terms of the yellow paper, and its bounds. -/
theorem fee_of_paidFor {fees words : Nat} {mem : Memory} (h : mem.PaidFor fees words) :
    mem.len = 32 * words ∧ fees = 3 * words + words ^ 2 / 512 ∧ words ^ 2 < 2 ^ 64 ∧
      fees < 2 ^ 64 := by
  refine ⟨?_, ?_, ?_, ?_⟩
  · rw [h.len_eq, Nat.mul_comm]
  · rw [h.fees_eq, Nat.mul_comm, Nat.pow_two]
    rfl
  · calc words ^ 2 ≤ (2 ^ 32 - 1) ^ 2 := Nat.pow_le_pow_left (Nat.le_pred_of_lt h.words_lt) 2
      _ < 2 ^ 64 := by decide
  · rw [h.fees_eq]
    exact lt_of_le_of_lt (memoryFee_le h.words_lt.le) (by decide)

/-- The memory never shrinks: it grows when it is resized, and executing keeps its size. -/
theorem len_le_of_reachesExecute {fees fee : Nat} {scope scope' : Scope} {m m' : Machine}
    (h : Passes evm jt callees (Scope.start contract input) fees scope)
    (hreach : ReachesExecute evm jt scope m fee scope' m') :
    scope.memory.len ≤ scope'.memory.len ∧ ∀ r m'',
      ((scope.entry jt).execute evm callees scope' m').CanReturn (r, m'') →
        r.scope.memory.len = scope'.memory.len := by
  obtain ⟨lists, hentry⟩ := hjt.entry
  obtain ⟨words, hm⟩ := h.paidFor hentry rfl
  obtain ⟨words', hle, hm'⟩ := (hreach.paidFor hentry hm).1
  refine ⟨?_, fun r m'' hr ↦ ?_⟩
  · rw [hm.len_eq, hm'.len_eq]
    exact Nat.mul_le_mul_right 32 hle
  · rw [(paidFor_execute hentry hr hm').len_eq, hm'.len_eq]

end Memories

/-- **Memory accesses are in bounds, and what memory costs depends on its size only.** For every
instruction set, and every frame with whatever is on its stack:

* when an execution function is reached, the memory holds every region it accesses, so that neither it
  nor any run of code panics;
* the memory consists of whole words and never shrinks;
* whenever the memory has `w` words, the fees charged for it add up to `3w + ⌊w² / 512⌋`, and no
  intermediate result exceeds 64 bits. -/
theorem memory_accesses_in_bounds {jt : JumpTable} (hjt : InstructionSet jt) (evm : EVM)
    (callees : Callees) (contract : Contract) (input : Bytes) :
    (∀ fees fee scope scope' m m', Passes evm jt callees (Scope.start contract input) fees scope →
      ReachesExecute evm jt scope m fee scope' m' →
      ((scope.entry jt).execute = opUndefined ∨
        ∀ a ∈ memoryAccesses (scope.contract.getOp scope.pc) scope'.stack,
          scope'.memory.Holds a) ∧
      (∀ callees : Callees, callees.Sound → Sound ((scope.entry jt).execute evm callees scope')) ∧
      scope.memory.len ≤ scope'.memory.len ∧ ∀ r m'',
        ((scope.entry jt).execute evm callees scope' m').CanReturn (r, m'') →
          r.scope.memory.len = scope'.memory.len) ∧
    (∀ fees mem, MemoryOf evm jt callees (Scope.start contract input) fees mem →
      ∃ w, mem.len = 32 * w ∧ fees = 3 * w + w ^ 2 / 512 ∧ w ^ 2 < 2 ^ 64 ∧ fees < 2 ^ 64) ∧
    ∀ readOnly, Sound (evm.interpreter contract input readOnly) := by
  refine ⟨fun fees fee scope scope' m m' h hreach ↦ ?_, fun fees mem h ↦ ?_, fun readOnly ↦ ?_⟩
  · obtain ⟨words, hm⟩ := (MemoryOf.executing h hreach).paidFor hjt
    have hready := ready_of_reachesExecute hjt hreach hm
    refine ⟨hready.imp_right (·.holds), fun callees hcallees ↦ ?_, ?_⟩
    · exact sound_execute hjt hcallees hready
    · exact len_le_of_reachesExecute hjt h hreach
  · obtain ⟨words, hm⟩ := h.paidFor hjt
    exact ⟨words, fee_of_paidFor hm⟩
  · exact sound_runner evm maxNesting contract input readOnly

open Chain.Sample State.Sample in
/-- The merge instruction set, and code that returns a word of its memory: whatever the state, the run
does not panic. -/
theorem memory_accesses_in_bounds_merge :
    Sound ((evm crypto (some 1)).interpreter
      ⟨0x10, 0x20, [0x60, 0x20, 0x60, 0x40, 0xf3], 0, some 0x20, [], 100, 0⟩ [] false) :=
  (memory_accesses_in_bounds .merge (evm crypto (some 1)) ((evm crypto (some 1)).callees
    (evm crypto (some 1)).interpreter) _ []).2.2 false

end GoEntropy.Execution
