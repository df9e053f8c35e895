import GoEntropy.Evm.Plain

/-!
# Memory accesses are in bounds

The execution functions do not check the bounds of the memory they access, nor that their operands are
there. The interpreter does, before it calls them: it validates the depth of the stack, asks the
entry's `memorySize` function how much memory the instruction needs, charges for it and resizes the
memory. So the size function of an entry has to name the operands that its execution function uses,
which is said here by `memoryAccesses`: the regions an instruction accesses, by its operands.

An entry of a jump table is safe for two reasons. The size function covers the regions
(`Operation.MemorySafe.covers`), and the execution function does not panic if the memory holds them
(`Operation.MemorySafe.execute`). Together with the invariant that memory is paid for, which bounds
its size and so rules out offsets that are negative as `int64`, no frame ever panics.

Most instructions are simple as well, and both are read off the same cases: of the operands, and of the
memory they name. `Tame` says both at once, and `Tidy` the same of a program that is not an instruction.
-/

namespace GoEntropy.Evm

open Interaction Option

/-! ## Programs that stay in bounds -/

/-- A crash other than a failed slice expression, a missing operand or "store empty". -/
def InBounds (e : Fault) : Prop := e ≠ .invalidMemory ∧ e ≠ .indexOutOfRange

/-- Whatever the state answers and the registers hold, the program stays in bounds. -/
def Sound {α : Type} (x : EvmM α) : Prop := ∀ m, (x m).Uses (fun _ ↦ True) InBounds

namespace Sound

variable {α β : Type} {x : EvmM α} {f : α → EvmM β}

theorem pure (a : α) : Sound (pure a : EvmM α) := fun _ ↦ trivial

theorem crash {e : Fault} (he : InBounds e) : Sound (crash e : EvmM α) := fun _ ↦ he

theorem query (o : StateOp) : Sound (query o) := fun _ ↦ ⟨trivial, fun _ ↦ trivial⟩

theorem readRegister (g : Machine → α) : Sound (readRegister g) := fun _ ↦ trivial

theorem setReturnData (data : Bytes) : Sound (setReturnData data) := fun _ ↦ trivial

theorem bind (hx : Sound x) (hf : ∀ a, Sound (f a)) : Sound (x >>= f) :=
  fun m ↦ (hx m).bind fun p ↦ hf p.1 p.2

theorem bind_yields {Q : α → Prop} (hx : Sound x) (hQ : Yields Q x) (hf : ∀ a, Q a → Sound (f a)) :
    Sound (x >>= f) := fun m ↦ (hx m).bind_returns (hQ m) fun p hp ↦ hf p.1 hp p.2

theorem ite {c : Prop} [Decidable c] {x y : EvmM α} (hx : c → Sound x) (hy : ¬c → Sound y) :
    Sound (if c then x else y) := by
  split
  · next h => exact hx h
  · next h => exact hy h

theorem lift {x : StateM α} (hx : x.Uses (fun _ ↦ True) InBounds) : Sound (lift x) :=
  fun _ ↦ hx.bind fun _ ↦ trivial

end Sound

structure Tidy (S : StateOp → Prop) {α : Type} (x : EvmM α) : Prop where
  plain : Plain S x
  sound : Sound x

namespace Tidy

variable {S : StateOp → Prop} {α β : Type} {x : EvmM α}

theorem pure (a : α) : Tidy S (pure a : EvmM α) := ⟨.pure a, .pure a⟩

theorem bind {f : α → EvmM β} (hx : Tidy S x) (hf : ∀ a, Tidy S (f a)) : Tidy S (x >>= f) :=
  ⟨hx.plain.bind fun a ↦ (hf a).plain, hx.sound.bind fun a ↦ (hf a).sound⟩

theorem query {o : StateOp} (ho : S o) : Tidy S (query o) := ⟨.query ho, .query o⟩

theorem mono {S' : StateOp → Prop} (hx : Tidy S x) (h : ∀ o, S o → S' o) : Tidy S' x :=
  ⟨hx.plain.mono h, hx.sound⟩

theorem ite {c : Prop} [Decidable c] {x y : EvmM α} (hx : c → Tidy S x) (hy : ¬c → Tidy S y) :
    Tidy S (if c then x else y) := by
  split
  · next h => exact hx h
  · next h => exact hy h

end Tidy

/-! ## Regions of memory -/

/-- The memory holds the region with the given offset and length. -/
def Memory.Holds (m : Memory) (a : Word × Word) : Prop := a.2 = 0 ∨ a.1.toNat + a.2.toNat ≤ m.len

/-- The regions of memory that an instruction reads and writes, by its operands. -/
def memoryAccesses : OpCode → Stack → List (Word × Word)
  | .mload, st => [(st.back 0, 32)]
  | .mstore, st => [(st.back 0, 32)]
  | .mstore8, st => [(st.back 0, 1)]
  | .keccak256, st => [(st.back 0, st.back 1)]
  | .log _, st => [(st.back 0, st.back 1)]
  | .returnOp, st => [(st.back 0, st.back 1)]
  | .revert, st => [(st.back 0, st.back 1)]
  | .callDataCopy, st => [(st.back 0, st.back 2)]
  | .codeCopy, st => [(st.back 0, st.back 2)]
  | .returnDataCopy, st => [(st.back 0, st.back 2)]
  | .extCodeCopy, st => [(st.back 1, st.back 3)]
  | .create, st => [(st.back 1, st.back 2)]
  | .create2, st => [(st.back 1, st.back 2)]
  | .call, st => [(st.back 3, st.back 4), (st.back 5, st.back 6)]
  | .callCode, st => [(st.back 3, st.back 4), (st.back 5, st.back 6)]
  | .delegateCall, st => [(st.back 2, st.back 3), (st.back 4, st.back 5)]
  | .staticCall, st => [(st.back 2, st.back 3), (st.back 4, st.back 5)]
  | _, _ => []

section Regions

variable {m : Memory} {off len : Word} (h : m.Holds (off, len)) (hsmall : m.len < 2 ^ 63)

include h hsmall

/-- The operands of an access that is not empty fit into 64 bits, and as `int64` they are not
negative. -/
theorem Memory.Holds.bounds (hlen : len ≠ 0) :
    uint64 off = off.toNat ∧ uint64 len = len.toNat ∧ off.toNat + len.toNat ≤ m.len := by
  have hle : off.toNat + len.toNat ≤ m.len := h.resolve_left hlen
  exact ⟨wrap64_of_lt (by omega), wrap64_of_lt (by omega), hle⟩

theorem Memory.Holds.length_lt : len.toNat < 2 ^ 64 := by
  by_cases hlen : len = 0
  · rw [hlen]
    decide
  · have := (h.bounds hsmall hlen).2.2
    omega

theorem Memory.Holds.getPtr : ∃ data, m.getPtr (uint64 off) (uint64 len) = some data := by
  by_cases hlen : len = 0
  · subst hlen
    exact ⟨[], rfl⟩
  · obtain ⟨hoff, hsize, hle⟩ := h.bounds hsmall hlen
    rw [hoff, hsize]
    unfold Memory.getPtr
    rw [if_neg (show ¬2 ^ 63 ≤ off.toNat by omega)]
    split
    · exact ⟨_, rfl⟩
    · split
      · exact ⟨_, rfl⟩
      · exact ⟨_, rfl⟩

theorem Memory.Holds.set (value : Bytes) :
    ∃ m', m.set (uint64 off) (uint64 len) value = some m' := by
  by_cases hlen : len = 0
  · subst hlen
    exact ⟨m, rfl⟩
  · obtain ⟨hoff, hsize, hle⟩ := h.bounds hsmall hlen
    unfold Memory.set
    split
    · exact ⟨_, rfl⟩
    rw [if_neg (by omega)]
    exact ⟨_, rfl⟩

end Regions

/-! ## Instructions -/

/-- The entry points an instruction calls back into stay in bounds. -/
structure Callees.Sound (callees : Callees) : Prop where
  call : ∀ caller addr input gas value, Evm.Sound (callees.call caller addr input gas value)
  callCode : ∀ caller addr input gas value, Evm.Sound (callees.callCode caller addr input gas value)
  delegateCall : ∀ parent addr input gas, Evm.Sound (callees.delegateCall parent addr input gas)
  staticCall : ∀ caller addr input gas, Evm.Sound (callees.staticCall caller addr input gas)
  create : ∀ caller code gas value, Evm.Sound (callees.create caller code gas value)
  create2 : ∀ caller code gas value salt, Evm.Sound (callees.create2 caller code gas value salt)

/-- What the interpreter has checked before it executes an instruction: the operands are there, and the
memory holds the regions that the instruction accesses. -/
structure Scope.Ready (scope : Scope) (op : OpCode) (pops : Nat) : Prop where
  operands : pops ≤ scope.stack.length
  holds : ∀ a ∈ memoryAccesses op scope.stack, scope.memory.Holds a
  small : scope.memory.len < 2 ^ 63

/-- The execution function of an instruction with so many operands stays in bounds. -/
def ExecutionFunc.Sound (op : OpCode) (pops : Nat) (f : ExecutionFunc) : Prop :=
  ∀ evm (callees : Callees) (scope : Scope), callees.Sound → scope.Ready op pops →
    Evm.Sound (f evm callees scope)

/-! ### Operands and regions -/

section Operands

variable {st : Stack} {n : Nat}

theorem exists_cons_of_lt (h : n + 1 ≤ st.length) : ∃ x st', st = x :: st' ∧ n ≤ st'.length := by
  rcases st with _ | ⟨x, st'⟩
  · exact absurd h (Nat.not_succ_le_zero n)
  · exact ⟨x, st', rfl, Nat.le_of_succ_le_succ h⟩

theorem exists_two (h : n + 2 ≤ st.length) : ∃ x y st', st = x :: y :: st' ∧ n ≤ st'.length := by
  obtain ⟨x, st, rfl, h₁⟩ := exists_cons_of_lt h
  obtain ⟨y, st, rfl, h₂⟩ := exists_cons_of_lt h₁
  exact ⟨x, y, st, rfl, h₂⟩

theorem exists_three (h : n + 3 ≤ st.length) :
    ∃ x y z st', st = x :: y :: z :: st' ∧ n ≤ st'.length := by
  obtain ⟨x, y, st, rfl, h₁⟩ := exists_two h
  obtain ⟨z, st, rfl, h₂⟩ := exists_cons_of_lt h₁
  exact ⟨x, y, z, st, rfl, h₂⟩

theorem exists_six (h : n + 6 ≤ st.length) : ∃ x y z u v w st',
    st = x :: y :: z :: u :: v :: w :: st' ∧ n ≤ st'.length := by
  obtain ⟨x, y, z, st, rfl, h₁⟩ := exists_three h
  obtain ⟨u, v, w, st, rfl, h₂⟩ := exists_three h₁
  exact ⟨x, y, z, u, v, w, st, rfl, h₂⟩

end Operands

section Ready

variable {scope : Scope} {op : OpCode} {pops : Nat} {off len : Word} {stack : Stack}
  (h : scope.Ready op pops) (hst : scope.stack = stack) (ha : memoryAccesses op stack = [(off, len)])

include h hst ha

theorem Scope.Ready.region : scope.memory.Holds (off, len) :=
  h.holds _ (by rw [hst, ha]; exact List.mem_singleton_self _)

theorem Scope.Ready.getPtr : ∃ data, scope.memory.getPtr (uint64 off) (uint64 len) = some data :=
  (h.region hst ha).getPtr h.small

end Ready

/-! ### Simple instructions -/

/-- A simple instruction that stays in bounds if its frame is ready for it. -/
structure Tame (S : StateOp → Prop) (op : OpCode) (pops : Nat) (scope : Scope) (x : EvmM ExecResult) : Prop
    extends Simple S scope x where
  sound : scope.Ready op pops → Sound x

/-- The execution function of a simple instruction with so many operands. -/
def ExecutionFunc.Tame (S : StateOp → Prop) (op : OpCode) (pops : Nat) (f : ExecutionFunc) : Prop :=
  ∀ evm callees scope, Evm.Tame S op pops scope (f evm callees scope)

section

variable {S : StateOp → Prop} {op : OpCode} {pops : Nat} {f : ExecutionFunc} (h : f.Tame S op pops)

include h

theorem ExecutionFunc.Tame.simple (evm : EVM) (callees : Callees) (scope : Scope) :
    Simple S scope (f evm callees scope) := (h evm callees scope).toSimple

theorem ExecutionFunc.Tame.sound : f.Sound op pops := fun evm callees scope _ ↦ (h evm callees scope).sound

end

/-- What a function on frames leaves, so that the instruction is simple and stays in bounds. -/
structure Leaves (op : OpCode) (pops : Nat) (scope : Scope) (r : Except Fault Scope) : Prop where
  keeps : match r with
    | .ok scope' => (ExecResult.next scope').Keeps scope
    | .error e => e.isLocal = true
  sound : scope.Ready op pops → ∀ e, r = .error e → InBounds e

section

variable {S : StateOp → Prop} {op : OpCode} {pops : Nat} {scope : Scope} {off len : Word} {stack st : Stack}

namespace Leaves

theorem next (pc : Nat) (st : Stack) : Leaves op pops scope (.ok { scope with pc := pc, stack := st }) :=
  ⟨ExecResult.keeps_next scope pc st, fun _ _ h ↦ by cases h⟩

theorem missing (h : scope.stack.length < pops) : Leaves op pops scope (.error .indexOutOfRange) :=
  ⟨rfl, fun hready ↦ absurd hready.operands (not_le.2 h)⟩

theorem set (hst : scope.stack = stack) (ha : memoryAccesses op stack = [(off, len)]) (value : Bytes) :
    Leaves op pops scope (scope.setMemory st (uint64 off) (uint64 len) value) := by
  refine ⟨setMemory_spec .., fun hready e he ↦ ?_⟩
  obtain ⟨m', hm'⟩ := (hready.region hst ha).set hready.small value
  rw [Scope.setMemory, hm'] at he
  cases he

theorem one {f : Word → Stack → Except Fault Scope}
    (hf : ∀ x st, scope.stack = x :: st → Leaves op 1 scope (f x st)) :
    Leaves op 1 scope (match scope.stack with
      | x :: st => f x st
      | _ => .error .indexOutOfRange) := by
  rcases hst : scope.stack with _ | ⟨x, st⟩
  · exact .missing (by simp [hst])
  · exact hf x st hst

theorem two {f : Word → Word → Stack → Except Fault Scope}
    (hf : ∀ x y st, scope.stack = x :: y :: st → Leaves op 2 scope (f x y st)) :
    Leaves op 2 scope (match scope.stack with
      | x :: y :: st => f x y st
      | _ => .error .indexOutOfRange) := by
  rcases hst : scope.stack with _ | ⟨x, _ | ⟨y, st⟩⟩
  · exact .missing (by simp [hst])
  · exact .missing (by simp [hst])
  · exact hf x y st hst

theorem three {f : Word → Word → Word → Stack → Except Fault Scope}
    (hf : ∀ x y z st, scope.stack = x :: y :: z :: st → Leaves op 3 scope (f x y z st)) :
    Leaves op 3 scope (match scope.stack with
      | x :: y :: z :: st => f x y z st
      | _ => .error .indexOutOfRange) := by
  rcases hst : scope.stack with _ | ⟨x, _ | ⟨y, _ | ⟨z, st⟩⟩⟩
  iterate 3 exact .missing (by simp [hst])
  · exact hf x y z st hst

end Leaves

namespace Tame

theorem result {r : Except Fault Scope} : Leaves op pops scope r →
    Tame S op pops scope (match r with
      | .ok scope => Pure.pure (.next scope)
      | .error e => crash e) := by
  refine fun h ↦ ⟨simple_result h.keeps, fun hready ↦ ?_⟩
  cases r with
  | ok scope' => exact .pure _
  | error e => exact .crash (h.sound hready e rfl)

theorem next (pc : Nat) (st : Stack) :
    Tame S op pops scope (Pure.pure (ExecResult.next { scope with pc := pc, stack := st })) :=
  ⟨.pure (ExecResult.keeps_next scope pc st), fun _ ↦ .pure _⟩

theorem halt {res : Bytes} {err : Option VmError} (herr : err ≠ some .codeStoreOutOfGas) :
    Tame S op pops scope (Pure.pure (ExecResult.halt { scope with stack := st } res err)) :=
  ⟨.halt herr, fun _ ↦ .pure _⟩

theorem missing (h : scope.stack.length < pops) : Tame S op pops scope (crash .indexOutOfRange) :=
  ⟨.crash rfl, fun hready ↦ absurd hready.operands (not_le.2 h)⟩

theorem bind {α : Type} {x : EvmM α} {f : α → EvmM ExecResult} (hx : Tidy S x)
    (hf : ∀ a, Tame S op pops scope (f a)) : Tame S op pops scope (x >>= f) :=
  ⟨.bind hx.plain fun a ↦ (hf a).toSimple, fun hready ↦ hx.sound.bind fun a ↦ (hf a).sound hready⟩

theorem ite {c : Prop} [Decidable c] {x y : EvmM ExecResult} (hx : c → Tame S op pops scope x)
    (hy : ¬c → Tame S op pops scope y) : Tame S op pops scope (if c then x else y) := by
  split
  · next h => exact hx h
  · next h => exact hy h

theorem read (hst : scope.stack = stack) (ha : memoryAccesses op stack = [(off, len)])
    {f : Bytes → EvmM ExecResult} (hf : ∀ data, Tame S op pops scope (f data)) :
    Tame S op pops scope (match scope.memory.getPtr (uint64 off) (uint64 len) with
      | some data => f data
      | none => crash .invalidMemory) := by
  cases hdata : scope.memory.getPtr (uint64 off) (uint64 len) with
  | none =>
    refine ⟨.crash rfl, fun hready ↦ ?_⟩
    obtain ⟨data, hsome⟩ := hready.getPtr hst ha
    cases hdata.symm.trans hsome
  | some data => exact hf data

theorem one {f : Word → Stack → EvmM ExecResult}
    (hf : ∀ x st, scope.stack = x :: st → Tame S op 1 scope (f x st)) :
    Tame S op 1 scope (match scope.stack with
      | x :: st => f x st
      | _ => crash .indexOutOfRange) := by
  rcases hst : scope.stack with _ | ⟨x, st⟩
  · exact .missing (by simp [hst])
  · exact hf x st hst

theorem two {n : Nat} {f : Word → Word → Stack → EvmM ExecResult}
    (hf : ∀ x y st, scope.stack = x :: y :: st → Tame S op (n + 2) scope (f x y st)) :
    Tame S op (n + 2) scope (match scope.stack with
      | x :: y :: st => f x y st
      | _ => crash .indexOutOfRange) := by
  rcases hst : scope.stack with _ | ⟨x, _ | ⟨y, st⟩⟩
  · exact .missing (by simp [hst])
  · exact .missing (by simp [hst])
  · exact hf x y st hst

end Tame

end

section Instructions

variable {S : StateOp → Prop} {op : OpCode} {pops : Nat}

theorem tame_localOp {f : EVM → Scope → Except Fault Scope}
    (hf : ∀ evm scope, Leaves op pops scope (f evm scope)) : (localOp f).Tame S op pops :=
  fun evm callees scope ↦ ⟨simple_localOp (fun evm scope ↦ (hf evm scope).keeps) evm callees scope,
    (.result (hf evm scope) : Tame S op pops scope _).sound⟩

theorem tame_unaryOp (f : Word → Word) : (unaryOp f).Tame S op 1 :=
  tame_localOp fun _ _ ↦ .one fun _ _ _ ↦ .next _ _

theorem tame_binaryOp (f : Word → Word → Word) : (binaryOp f).Tame S op 2 :=
  tame_localOp fun _ _ ↦ .two fun _ _ _ _ ↦ .next _ _

theorem tame_ternaryOp (f : Word → Word → Word → Word) : (ternaryOp f).Tame S op 3 :=
  tame_localOp fun _ _ ↦ .three fun _ _ _ _ _ ↦ .next _ _

theorem tame_pushOp (f : EVM → Scope → Word) : (pushOp f).Tame S op pops := tame_localOp fun _ _ ↦ .next _ _

theorem tame_pushPtrOp (f : EVM → Option Nat) : (pushPtrOp f).Tame S op pops := by
  refine tame_localOp fun evm scope ↦ ?_
  cases f evm with
  | none => exact ⟨rfl, fun _ e he ↦ by cases he; exact ⟨by simp, by simp⟩⟩
  | some n => exact .next _ _

theorem tame_opCallDataLoad : opCallDataLoad.Tame S op 1 :=
  tame_localOp fun _ _ ↦ .one fun _ _ _ ↦ .next _ _

theorem tame_opBlockhash : opBlockhash.Tame S op 1 := tame_localOp fun _ _ ↦ .one fun _ _ _ ↦ .next _ _

theorem tame_opPop : opPop.Tame S op 1 := tame_localOp fun _ _ ↦ .one fun _ _ _ ↦ .next _ _

theorem tame_opJumpdest : opJumpdest.Tame S op pops := tame_localOp fun _ _ ↦ .next _ _

theorem tame_opPush1 : opPush1.Tame S op pops := tame_localOp fun _ _ ↦ .next _ _

theorem tame_makePush (size : Nat) : (makePush size).Tame S op pops := tame_localOp fun _ _ ↦ .next _ _

theorem tame_makeDup (n : Nat) : (makeDup (n + 1)).Tame S op (n + 1) := by
  refine tame_localOp fun _ scope ↦ ?_
  dsimp only [Nat.add_one_sub_one]
  cases hw : scope.stack[n]? with
  | none => exact .missing (Nat.lt_succ_of_le (List.getElem?_eq_none_iff.1 hw))
  | some w => exact .next _ _

theorem tame_makeSwap (n : Nat) : (makeSwap (n + 1)).Tame S op (n + 2) := by
  refine tame_localOp fun _ scope ↦ ?_
  rcases hst : scope.stack with _ | ⟨x, st⟩
  · exact .missing (by simp [hst])
  · cases hw : (x :: st)[n + 1]? with
    | none => exact .missing (by rw [hst]; exact Nat.lt_succ_of_le (List.getElem?_eq_none_iff.1 hw))
    | some w => exact .next _ _

theorem tame_opMload : opMload.Tame S .mload 1 := by
  refine tame_localOp fun _ scope ↦ .one fun x st hst ↦ ?_
  cases hdata : scope.memory.getPtr (uint64 x) 32 with
  | none =>
    refine ⟨rfl, fun hready ↦ ?_⟩
    obtain ⟨data, hsome⟩ := hready.getPtr hst rfl
    cases hdata.symm.trans hsome
  | some data => exact .next _ _

theorem tame_opMstore : opMstore.Tame S .mstore 2 :=
  tame_localOp fun _ _ ↦ .two fun x _ _ hst ↦ .set hst (show _ = [(x, 32)] from rfl) _

theorem tame_opMstore8 : opMstore8.Tame S .mstore8 2 :=
  tame_localOp fun _ _ ↦ .two fun x _ _ hst ↦ .set hst (show _ = [(x, 1)] from rfl) _

theorem tame_opCallDataCopy : opCallDataCopy.Tame S .callDataCopy 3 :=
  tame_localOp fun _ _ ↦ .three fun _ _ _ _ hst ↦ .set hst rfl _

theorem tame_opCodeCopy : opCodeCopy.Tame S .codeCopy 3 :=
  tame_localOp fun _ _ ↦ .three fun _ _ _ _ hst ↦ .set hst rfl _

theorem tame_jumpTo {scope : Scope} (st : Stack) (pos : Word) :
    Tame S op pops scope (Scope.jumpTo { scope with stack := st } pos) :=
  .ite (fun _ ↦ .next _ st) fun _ ↦ .halt (by simp)

theorem tame_opJump : opJump.Tame S op 1 := fun _ _ _ ↦
  .ite (fun _ ↦ .halt (by simp)) fun _ ↦ .one fun pos st _ ↦ tame_jumpTo st pos

theorem tame_opJumpi : opJumpi.Tame S op 2 := fun _ _ _ ↦
  .ite (fun _ ↦ .halt (by simp)) fun _ ↦ .two fun pos _ st _ ↦
    .ite (fun _ ↦ tame_jumpTo st pos) fun _ ↦ .next _ st

theorem tame_opStop : opStop.Tame S op pops := fun _ _ _ ↦ .halt (by simp)

theorem tame_opUndefined : opUndefined.Tame S op pops := fun _ _ _ ↦ .halt (by simp)

theorem tame_opReturn : opReturn.Tame S .returnOp 2 := fun _ _ _ ↦ .two fun _ _ _ hst ↦
  .read hst rfl fun _ ↦ .halt (by simp)

theorem tame_opRevert : opRevert.Tame S .revert 2 := fun _ _ _ ↦ .two fun _ _ _ hst ↦
  .read hst rfl fun data ↦
    .bind ⟨.setReturnData data, .setReturnData data⟩ fun _ ↦ .halt (by simp)

theorem tame_opKeccak256 : opKeccak256.Tame Calm .keccak256 2 := fun _ _ _ ↦ .two fun _ _ _ hst ↦
  .read hst rfl fun _ ↦
    .ite (fun _ ↦ .bind (.query rfl) fun _ ↦ .next _ _) fun _ ↦ .next _ _

theorem tame_stateOp {f : Scope → Word → EvmM Word} (hf : ∀ scope w, Tidy S (f scope w)) :
    (stateOp f).Tame S op 1 := fun _ _ scope ↦ .one fun x _ _ ↦ .bind (hf scope x) fun _ ↦ .next _ _

theorem tame_opBalance : opBalance.Tame Calm .balance 1 := tame_stateOp fun _ _ ↦ .bind (.query rfl) fun _ ↦ .pure _

theorem tame_opExtCodeSize : opExtCodeSize.Tame Calm .extCodeSize 1 :=
  tame_stateOp fun _ _ ↦ .bind (.query rfl) fun _ ↦ .pure _

theorem tame_opExtCodeHash : opExtCodeHash.Tame Calm .extCodeHash 1 :=
  tame_stateOp fun _ _ ↦ .bind (.query rfl) fun _ ↦ .ite (fun _ ↦ .pure _) fun _ ↦ .query rfl

theorem tame_opSload : opSload.Tame Calm .sload 1 := tame_stateOp fun _ _ ↦ .query rfl

theorem tame_opSelfBalance : opSelfBalance.Tame Calm op pops :=
  fun _ _ _ ↦ .bind (.query rfl) fun _ ↦ .next _ _

theorem tidy_returnData : Tidy S (readRegister (·.returnData)) := ⟨.returnData, .readRegister _⟩

theorem tame_opReturnDataSize : opReturnDataSize.Tame S op pops :=
  fun _ _ _ ↦ .bind tidy_returnData fun _ ↦ .next _ _

theorem tame_opExtCodeCopy : opExtCodeCopy.Tame Calm .extCodeCopy 4 := by
  intro evm callees scope
  unfold opExtCodeCopy
  rcases hst : scope.stack with _ | ⟨a, _ | ⟨x, _ | ⟨y, _ | ⟨z, st⟩⟩⟩⟩
  iterate 4 exact .missing (by simp [hst])
  · exact .bind (.query rfl) fun _ ↦ .result (.set hst rfl _)

/-- `RETURNDATACOPY` slices the returned data. The length has been found to fit into 64 bits when the
memory was charged for, so the sum of offset and length does not wrap. -/
theorem tame_opReturnDataCopy : opReturnDataCopy.Tame S .returnDataCopy 3 := by
  intro evm callees scope
  unfold opReturnDataCopy
  rcases hst : scope.stack with _ | ⟨x, _ | ⟨y, _ | ⟨z, st⟩⟩⟩
  iterate 3 exact .missing (by simp [hst])
  · refine .bind tidy_returnData fun returnData ↦ ?_
    split
    · next offset64 end64 hoffset hend =>
      refine .ite (fun _ ↦ .halt (by simp)) fun _ ↦ .ite (fun hlt ↦ ?_) fun _ ↦ .result (.set hst rfl _)
      refine ⟨.crash rfl, fun hready ↦ ?_⟩
      have hlength := (hready.region hst (show _ = [(x, z)] from rfl)).length_lt hready.small
      unfold uint64WithOverflow at hoffset hend
      split at hoffset
      · split at hend
        · cases hoffset
          cases hend
          rw [BitVec.toNat_add] at hlt
          omega
        · cases hend
      · cases hoffset
    · exact .halt (by simp)

theorem tame_writeOp {f : ExecutionFunc} (hf : f.Tame S op pops) : (writeOp f).Tame S op pops :=
  fun evm callees scope ↦ .bind ⟨.readOnly, .readRegister _⟩ fun _ ↦ .ite (fun _ ↦ .halt (by simp)) fun _ ↦
    hf evm callees scope

theorem tame_opSstore : opSstore.Tame Quiet .sstore 2 :=
  tame_writeOp fun _ _ _ ↦ .two fun _ _ _ _ ↦ .bind (.query rfl) fun _ ↦ .next _ _

theorem tame_makeLog (n : Fin 5) (size : Nat) : (makeLog size).Tame Quiet (.log n) (size + 2) :=
  tame_writeOp fun _ _ _ ↦ .two fun _ _ _ hst ↦
    .ite (fun hlt ↦ .missing (by simpa [hst] using hlt)) fun _ ↦
      .read hst rfl fun _ ↦ .bind (.query rfl) fun _ ↦ .next _ _

end Instructions

/-! ## Calls and creations -/

section Calls

theorem sound_finishCall {scope : Scope} {retOffset retSize : Word}
    (h : scope.memory.Holds (retOffset, retSize)) (hsmall : scope.memory.len < 2 ^ 63) (st : Stack)
    (r : CallResult) : Sound (finishCall scope st retOffset retSize r) := by
  have hset : ∃ m, (if r.err = none ∨ r.err = some .executionReverted then
      scope.memory.set (uint64 retOffset) (uint64 retSize) r.ret else some scope.memory) = some m := by
    split
    · exact h.set hsmall r.ret
    · exact ⟨_, rfl⟩
  obtain ⟨m, hm⟩ := hset
  unfold finishCall
  rw [hm]
  exact .bind (.setReturnData _) .pure

/-- The two regions that a call accesses: it finds the arguments in one, and the result fits into the
other. -/
theorem Scope.Ready.arguments {scope : Scope} {op : OpCode} {pops : Nat} {stack : Stack}
    {inOffset inSize retOffset retSize : Word} (h : scope.Ready op pops) (hst : scope.stack = stack)
    (ha : memoryAccesses op stack = [(inOffset, inSize), (retOffset, retSize)]) :
    ∃ args, scope.memory.getPtr (uint64 inOffset) (uint64 inSize) = some args ∧
      ∀ st r, Sound (finishCall scope st retOffset retSize r) := by
  rw [← hst] at ha
  obtain ⟨args, hargs⟩ := (h.holds _ (ha ▸ List.mem_cons_self)).getPtr h.small
  have hret := h.holds _ (ha ▸ List.mem_cons_of_mem _ List.mem_cons_self)
  exact ⟨args, hargs, sound_finishCall hret h.small⟩

theorem sound_callOp {op : OpCode} {pops : Nat} {f : Nat → Callees → Scope → EvmM ExecResult}
    (hf : ∀ gas (callees : Callees) (scope : Scope), callees.Sound → scope.Ready op pops →
      Sound (f gas callees scope)) :
    ExecutionFunc.Sound op pops (callOp f) := fun _ callees scope hcallees hready ↦
  .bind (.readRegister _) fun gas ↦ hf gas callees scope hcallees hready

theorem sound_opCall : ExecutionFunc.Sound .call 7 opCall := by
  refine sound_callOp fun gas callees scope hcallees hready ↦ ?_
  obtain ⟨_, addr, value, inOffset, inSize, retOffset, _, hst, h₁⟩ := exists_six hready.operands
  obtain ⟨retSize, st, rfl, _⟩ := exists_cons_of_lt h₁
  obtain ⟨args, hargs, hfinish⟩ := hready.arguments hst
    (show _ = [(inOffset, inSize), (retOffset, retSize)] from rfl)
  unfold callWithGas
  simp only [hst, hargs]
  refine .bind (.readRegister _) fun _ ↦ .ite (fun _ ↦ .pure _) fun _ ↦ ?_
  exact .bind (hcallees.call _ _ _ _ _) (hfinish st)

theorem sound_opCallCode : ExecutionFunc.Sound .callCode 7 opCallCode := by
  refine sound_callOp fun gas callees scope hcallees hready ↦ ?_
  obtain ⟨_, addr, value, inOffset, inSize, retOffset, _, hst, h₁⟩ := exists_six hready.operands
  obtain ⟨retSize, st, rfl, _⟩ := exists_cons_of_lt h₁
  obtain ⟨args, hargs, hfinish⟩ := hready.arguments hst
    (show _ = [(inOffset, inSize), (retOffset, retSize)] from rfl)
  unfold callCodeWithGas
  simp only [hst, hargs]
  exact .bind (hcallees.callCode _ _ _ _ _) (hfinish st)

theorem sound_opDelegateCall : ExecutionFunc.Sound .delegateCall 6 opDelegateCall := by
  refine sound_callOp fun gas callees scope hcallees hready ↦ ?_
  obtain ⟨_, addr, inOffset, inSize, retOffset, retSize, st, hst, _⟩ := exists_six hready.operands
  obtain ⟨args, hargs, hfinish⟩ := hready.arguments hst
    (show _ = [(inOffset, inSize), (retOffset, retSize)] from rfl)
  unfold delegateCallWithGas
  simp only [hst, hargs]
  exact .bind (hcallees.delegateCall _ _ _ _) (hfinish st)

theorem sound_opStaticCall : ExecutionFunc.Sound .staticCall 6 opStaticCall := by
  refine sound_callOp fun gas callees scope hcallees hready ↦ ?_
  obtain ⟨_, addr, inOffset, inSize, retOffset, retSize, st, hst, _⟩ := exists_six hready.operands
  obtain ⟨args, hargs, hfinish⟩ := hready.arguments hst
    (show _ = [(inOffset, inSize), (retOffset, retSize)] from rfl)
  unfold staticCallWithGas
  simp only [hst, hargs]
  exact .bind (hcallees.staticCall _ _ _ _) (hfinish st)

theorem sound_finishCreate (scope : Scope) (st : Stack) (ok : Bool) (r : CreateResult) :
    Sound (finishCreate scope st ok r) := .bind (.setReturnData _) .pure

theorem sound_writeOp {op : OpCode} {pops : Nat} {f : ExecutionFunc} (hf : ExecutionFunc.Sound op pops f) :
    ExecutionFunc.Sound op pops (writeOp f) := fun evm callees scope hcallees hready ↦
  .bind (.readRegister _) fun _ ↦ .ite (fun _ ↦ .pure _) fun _ ↦
    hf evm callees scope hcallees hready

theorem sound_opSelfdestruct {op : OpCode} : ExecutionFunc.Sound op 1 opSelfdestruct := by
  refine sound_writeOp fun evm callees scope _ hready ↦ ?_
  obtain ⟨x, st, hst, _⟩ := exists_cons_of_lt hready.operands
  rw [hst]
  refine .bind ?_ .pure
  exact .bind (.query _) fun _ ↦ .bind (.query _) fun _ ↦ .bind (.query _) fun _ ↦ .query _

theorem sound_opCreate : ExecutionFunc.Sound .create 3 opCreate := by
  refine sound_writeOp fun evm callees scope hcallees hready ↦ ?_
  obtain ⟨value, offset, size, st, hst, _⟩ := exists_three hready.operands
  obtain ⟨input, hinput⟩ := hready.getPtr hst (show _ = [(offset, size)] from rfl)
  simp only [hst, hinput]
  exact .bind (hcallees.create _ _ _ _) fun r ↦ sound_finishCreate _ _ _ r

theorem sound_opCreate2 : ExecutionFunc.Sound .create2 4 opCreate2 := by
  refine sound_writeOp fun evm callees scope hcallees hready ↦ ?_
  obtain ⟨endowment, offset, size, st, hst, h₁⟩ := exists_three hready.operands
  obtain ⟨salt, st, rfl, _⟩ := exists_cons_of_lt h₁
  obtain ⟨input, hinput⟩ := hready.getPtr hst (show _ = [(offset, size)] from rfl)
  simp only [hst, hinput]
  exact .bind (hcallees.create2 _ _ _ _ _) fun r ↦ sound_finishCreate _ _ _ r

end Calls

/-! ## Gas functions -/

def GasFunc.Sound (g : GasFunc) : Prop :=
  ∀ evm contract stack mem size, Evm.Sound (g evm contract stack mem size)

/-! ## The size functions cover the accesses -/

def Covers (size : Nat) (a : Word × Word) : Prop := a.2 = 0 ∨ a.1.toNat + a.2.toNat ≤ size

theorem Covers.mono {size size' : Nat} {a : Word × Word} (h : Covers size a) (hle : size ≤ size') :
    Covers size' a := h.imp_right fun h ↦ h.trans hle

theorem covers_of_calcMemSize64WithUint {off len : Word} {size : Nat}
    (h : calcMemSize64WithUint off len.toNat = some size) : Covers size (off, len) := by
  unfold calcMemSize64WithUint at h
  split at h
  · next hlen => exact .inl (BitVec.eq_of_toNat_eq hlen)
  · rw [bind_eq_bind, bind_eq_some_iff] at h
    obtain ⟨offset64, hoff, hsum⟩ := h
    unfold uint64WithOverflow at hoff
    split at hoff
    · cases hoff
      exact .inr (safeAdd_eq_some.1 hsum).1.le
    · cases hoff

theorem covers_of_calcMemSize64 {off len : Word} {size : Nat}
    (h : calcMemSize64 off len = some size) : Covers size (off, len) := by
  unfold calcMemSize64 at h
  rw [bind_eq_bind, bind_eq_some_iff] at h
  obtain ⟨length64, hlen, h⟩ := h
  unfold uint64WithOverflow at hlen
  split at hlen
  · cases hlen
    exact covers_of_calcMemSize64WithUint h
  · cases hlen

/-- The size function covers the accesses of the instruction. -/
def MemorySizeFunc.CoversAccesses (f : MemorySizeFunc) (op : OpCode) : Prop :=
  ∀ stack size, f stack = some size → ∀ a ∈ memoryAccesses op stack, Covers size a

theorem coversAccesses_memoryRegion {op : OpCode} {off len : Nat}
    (h : memoryAccesses op = fun stack ↦ [(stack.back off, stack.back len)]) :
    MemorySizeFunc.CoversAccesses (memoryRegion off len) op := by
  intro stack size hsize a ha
  rw [h, List.mem_singleton] at ha
  rw [ha]
  exact covers_of_calcMemSize64 hsize

theorem coversAccesses_memoryInOut {op : OpCode} {inOff inSize retOff retSize : Nat}
    (h : memoryAccesses op = fun stack ↦
      [(stack.back inOff, stack.back inSize), (stack.back retOff, stack.back retSize)]) :
    MemorySizeFunc.CoversAccesses (memoryInOut inOff inSize retOff retSize) op := by
  intro stack size hsize a ha
  unfold memoryInOut at hsize
  simp only [bind_eq_bind, bind_eq_some_iff, pure_def, some_inj] at hsize
  obtain ⟨x, hx, y, hy, rfl⟩ := hsize
  rw [h, List.mem_cons, List.mem_singleton] at ha
  rcases ha with rfl | rfl
  · exact (covers_of_calcMemSize64 hy).mono (Nat.le_max_right _ _)
  · exact (covers_of_calcMemSize64 hx).mono (Nat.le_max_left _ _)

theorem coversAccesses_fixed {op : OpCode} (len : Word)
    (h : memoryAccesses op = fun stack ↦ [(stack.back 0, len)]) :
    MemorySizeFunc.CoversAccesses (fun stack ↦ calcMemSize64WithUint (stack.back 0) len.toNat) op := by
  intro stack size hsize a ha
  rw [h, List.mem_singleton] at ha
  rw [ha]
  exact covers_of_calcMemSize64WithUint hsize

theorem le_of_safeMul_toWordSize {size words : Nat}
    (h : safeMul (toWordSize size) 32 = some words) : size ≤ words := by
  unfold safeMul at h
  split at h
  · next hlt =>
    rw [← some_inj.1 h]
    by_cases hbig : size > maxUint64 - 31
    · rw [toWordSize, if_pos hbig] at hlt
      exact absurd hlt (by decide)
    · rw [toWordSize, if_neg hbig]
      omega
  · cases h

/-- What an entry of a jump table has to satisfy for its instruction to stay in bounds. -/
structure Operation.MemorySafe (o : Operation) (op : OpCode) : Prop where
  /-- Memory is only sized for entries with a dynamic price. -/
  memorySize : o.dynamicGas = none → o.memorySize = none
  gas : ∀ g, o.dynamicGas = some g → g.Sound
  covers : o.execute = opUndefined ∨ ∀ stack size, o.requiredMemory stack = some size →
    ∀ a ∈ memoryAccesses op stack, Covers size a
  execute : ExecutionFunc.Sound op o.minStack o.execute

section Entries

variable {op : OpCode} {f : ExecutionFunc} {g : GasFunc} {constantGas pops pushes : Nat}

theorem coversAccesses_none (hop : memoryAccesses op = fun _ ↦ []) (stack : Stack)
    (size : Nat) : ∀ a ∈ memoryAccesses op stack, Covers size a := by
  intro a ha
  rw [hop] at ha
  exact absurd ha (List.not_mem_nil)

theorem memorySafe_operation (hf : ExecutionFunc.Sound op pops f)
    (hop : memoryAccesses op = fun _ ↦ []) :
    (operation f constantGas pops pushes).MemorySafe op where
  memorySize := fun _ ↦ rfl
  gas := nofun
  covers := .inr fun stack size _ ↦ coversAccesses_none hop stack size
  execute := hf

theorem memorySafe_undefined : undefinedOperation.MemorySafe op where
  memorySize := fun _ ↦ rfl
  gas := nofun
  covers := .inl rfl
  execute := (tame_opUndefined (S := Calm)).sound

theorem memorySafe_dynamic (hf : ExecutionFunc.Sound op pops f) (hg : g.Sound)
    (hop : memoryAccesses op = fun _ ↦ []) :
    (dynamicOperation f constantGas g pops pushes).MemorySafe op where
  memorySize := nofun
  gas := fun _ h ↦ some_inj.1 h ▸ hg
  covers := .inr fun stack size _ ↦ coversAccesses_none hop stack size
  execute := hf

theorem memorySafe_memory {memorySize : MemorySizeFunc} (hf : ExecutionFunc.Sound op pops f)
    (hg : g.Sound) (hsize : memorySize.CoversAccesses op) :
    (memoryOperation f constantGas g pops pushes memorySize).MemorySafe op where
  memorySize := nofun
  gas := fun _ h ↦ some_inj.1 h ▸ hg
  covers := .inr fun stack size h a ha ↦ by
    obtain ⟨memSize, hmem, hwords⟩ := bind_eq_some_iff.1 h
    exact (hsize stack memSize hmem a ha).mono (le_of_safeMul_toWordSize hwords)
  execute := hf

variable {o : Operation}

theorem Operation.MemorySafe.reprice (h : o.MemorySafe op) (gas : Nat) (hg : g.Sound) :
    Operation.MemorySafe { o with constantGas := gas, dynamicGas := some g } op :=
  ⟨fun h ↦ (by cases h), fun _ hg' ↦ some_inj.1 hg' ▸ hg, h.covers, h.execute⟩

end Entries

end GoEntropy.Evm
