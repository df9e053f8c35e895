import GoEntropy.Chain.Block
import GoEntropy.Chain.Conservation

/-!
# The block processor

`Process` applies the transactions of a block one after the other. They share the state database, the
registers of the virtual machine, the gas pool and the count of the gas used. The rewards that the engine
pays at the end (`Finalize`) are left out.

Along the loop the pool and the count add up to the gas limit, so that neither wraps, and every transaction
finds the state database at rest.
-/

namespace GoEntropy.Chain

open Evm State StateDB Interaction GoEntropy.Container

/-- What stops `Process`, with the index and the hash of the transaction: an error, or a crash. -/
inductive ProcessError where
  | sender (i : Nat) (hash : Hash) (err : SignError)
  | transition (i : Nat) (hash : Hash) (err : TransitionError)
  | crash (fault : Fault)

/-- What the transactions of a block share: the gas pool, the gas used, the virtual machine and the state. -/
structure Environment where
  gp : Nat
  usedGas : UInt64
  machine : Machine
  state : StateDB

section Process

variable {C : Crypto} (db : StateDatabase C)

/-- The receipt that `applyTransaction` makes. -/
def makeReceipt (block : Block C) (tx : Transaction C) (msg : Message) (root : Hash) (usedGas : UInt64)
    (result : ExecutionResult) (s : StateDB) : Receipt :=
  let receipt : Receipt :=
    { txType := tx.inner.txType
      postState := root
      status := if result.err.isSome then .failed else .successful
      cumulativeGasUsed := usedGas
      bloom := 0
      logs := s.getLogs (tx.inner.hash C)
      txHash := tx.inner.hash C
      contractAddress := if msg.toAddr.isNone then C.createAddress msg.sender tx.inner.nonce.toNat else 0
      gasUsed := result.usedGas
      blockHash := block.hash
      blockNumber := block.header.number
      transactionIndex := s.txIndex }
  { receipt with bloom := createBloom C [receipt] }

/-- `applyTransaction`, for the transaction with the given index. -/
def applyTransaction (evm : EVM) (block : Block C) (i : Nat) (tx : Transaction C) (msg : Message)
    (env : Environment) : Except ProcessError (Receipt × Environment) :=
  -- `Reset` with the context of the message
  let evm := { evm with txContext := ⟨msg.sender, msg.gasPrice⟩ }
  match (transitionDb evm msg env.gp env.machine).run (StateDB.handler db) env.state with
  | .error e => .error (.crash e)
  | .ok (((_, .error err), _), _) => .error (.transition i (tx.inner.hash C) err)
  | .ok (((gp, .ok result), machine), s) =>
    match s.intermediateRoot db false with
    | .error e => .error (.crash e)
    | .ok (root, s) =>
      let usedGas := env.usedGas + UInt64.ofNat result.usedGas
      .ok (makeReceipt block tx msg root usedGas result s, ⟨gp, usedGas, machine, s⟩)

/-- The loop of `Process`, from the transaction with the given index on. -/
def processFrom (evm : EVM) (block : Block C) :
    Nat → List (Transaction C) → Environment → Except ProcessError (List Receipt × Environment)
  | _, [], env => .ok ([], env)
  | i, tx :: txs, env =>
    match tx.asMessage (makeSigner evm.chainConfig block.header.number) block.header.baseFee with
    | .error err => .error (.sender i (tx.inner.hash C) err)
    | .ok msg => do
      let (receipt, env) ← applyTransaction db evm block i tx msg
        { env with state := env.state.prepare (tx.inner.hash C) i }
      let (receipts, env) ← processFrom evm block (i + 1) txs env
      return (receipt :: receipts, env)

/-- `Process` by the virtual machine for the block: the receipts, their logs, the gas used and the state. -/
def process (evm : EVM) (block : Block C) (s : StateDB) :
    Except ProcessError (List Receipt × List StateLog × UInt64 × StateDB) :=
  match GasPool.addGas 0 block.header.gasLimit.toNat with
  | .error e => .error (.crash e)
  | .ok gp => do
    let (receipts, env) ← processFrom db evm block 0 block.transactions ⟨gp, 0, .init, s⟩
    return (receipts, receipts.flatMap (·.logs), env.usedGas, env.state)

end Process

section Runs

variable {C : Crypto} {db : StateDatabase C} {evm : EVM} {block : Block C} {tx : Transaction C}
  {txs : List (Transaction C)} {msg : Message} {i : Nat} {env env' : Environment} {receipt : Receipt}
  {receipts : List Receipt} {logs : List StateLog} {usedGas : UInt64} {s s' : StateDB}

/-- A transaction that is applied: its message is executed, and the state is finalised. -/
theorem applyTransaction_eq_ok (h : applyTransaction db evm block i tx msg env = .ok (receipt, env')) :
    ∃ gp result machine s root s',
      (transitionDb { evm with txContext := ⟨msg.sender, msg.gasPrice⟩ } msg env.gp env.machine).run
        (StateDB.handler db) env.state = .ok (((gp, .ok result), machine), s) ∧
      s.intermediateRoot db false = .ok (root, s') ∧
      receipt = makeReceipt block tx msg root (env.usedGas + .ofNat result.usedGas) result s' ∧
      env' = ⟨gp, env.usedGas + .ofNat result.usedGas, machine, s'⟩ := by
  unfold applyTransaction at h
  dsimp only at h
  split at h
  · cases h
  · cases h
  · next hrun =>
    split at h
    · cases h
    · next hroot =>
      cases h
      exact ⟨_, _, _, _, _, _, hrun, hroot, rfl, rfl⟩

theorem processFrom_cons_eq_ok (h : processFrom db evm block i (tx :: txs) env = .ok (receipts, env')) :
    ∃ msg receipt env₁ rest,
      applyTransaction db evm block i tx msg { env with state := env.state.prepare (tx.inner.hash C) i } =
        .ok (receipt, env₁) ∧
      processFrom db evm block (i + 1) txs env₁ = .ok (rest, env') ∧ receipts = receipt :: rest := by
  unfold processFrom at h
  split at h
  · cases h
  · next msg _ =>
    obtain ⟨p, happly, h⟩ := bind_eq_ok.1 h
    obtain ⟨q, hrest, h⟩ := bind_eq_ok.1 h
    cases h
    exact ⟨msg, _, _, _, happly, hrest, rfl⟩

theorem process_eq_ok (h : process db evm block s = .ok (receipts, logs, usedGas, s')) :
    ∃ env, processFrom db evm block 0 block.transactions ⟨block.header.gasLimit.toNat, 0, .init, s⟩ =
      .ok (receipts, env) ∧ usedGas = env.usedGas ∧ s' = env.state := by
  unfold process GasPool.addGas at h
  rw [if_neg (Nat.not_lt_zero _), Nat.zero_add] at h
  obtain ⟨p, hrun, h⟩ := bind_eq_ok.1 h
  cases h
  exact ⟨_, hrun, rfl, rfl⟩

/-! ## The state between transactions -/

/-- **The state database implements the worlds.** Whatever state it is in, every message has the outcome that
it has on the timeline the state database implements, and the states afterwards belong together again. -/
theorem message_refines_timeline (hs : s.Reachable db) (gp : GasPool) (m : Machine) : ∃ t, Refines db s t ∧
    Alike Eq (Refines db) ((transitionDb evm msg gp m).run (StateDB.handler db) s)
      ((transitionDb evm msg gp m).run (Timeline.handler C) t) := by
  obtain ⟨t, ht⟩ := hs.refines
  exact ⟨t, ht, Prog.run_simulates (handler_simulates db) (Prog.uses_true _) ht⟩

/-- One transaction leads from rest to rest. -/
theorem applyTransaction_rests (hs : env.state.Reachable db) (hrest : Resting db env.state)
    (h : applyTransaction db evm block i tx msg { env with state := env.state.prepare (tx.inner.hash C) i } =
      .ok (receipt, env')) : env'.state.Reachable db ∧ Resting db env'.state := by
  obtain ⟨gp, result, machine, s, root, s', hrun, hroot, rfl, rfl⟩ := applyTransaction_eq_ok h
  have hprepared := hs.prepare hrest.entries hrest.validRevisions (tx.inner.hash C) i
  have hrun := hprepared.of_run hrun
  obtain ⟨t, ht⟩ := hrun.refines
  exact ⟨hrun.intermediateRoot hroot, .intermediateRoot ht hroot⟩

theorem processFrom_rests (hs : env.state.Reachable db) (hrest : Resting db env.state)
    (h : processFrom db evm block i txs env = .ok (receipts, env')) :
    env'.state.Reachable db ∧ Resting db env'.state := by
  induction txs generalizing i env receipts with
  | nil =>
    cases h
    exact ⟨hs, hrest⟩
  | cons tx txs ih =>
    obtain ⟨msg, receipt, env₁, rest, happly, hloop, -⟩ := processFrom_cons_eq_ok h
    obtain ⟨hs₁, hrest₁⟩ := applyTransaction_rests hs hrest happly
    exact ih hs₁ hrest₁ hloop

/-! ## Gas -/

section Gas

variable (hforks : usesAccessList evm.chainRules = true → evm.chainRules.isEIP150 = true)

include hforks

/-- The pool loses the gas that a message uses. -/
theorem gas_transitionDb {gp gp' : Nat} {m m' : Machine} {result : ExecutionResult}
    (hrun : (transitionDb evm msg gp m).run (StateDB.handler db) s = .ok (((gp', .ok result), m'), s')) :
    gp' + result.usedGas = gp := by
  have hlimit : msg.gasLimit.toNat < 2 ^ 64 := msg.gasLimit.toNat_lt
  obtain ⟨gp₁, s₁, gas, s₂, r, s₃, hcheck, -, -, -, hexec, hsettle⟩ := run_transitionDb hrun
  have hgp₁ := (returns_preCheck gp).of_run hcheck gp₁ rfl
  have hleft : r.leftOverGas ≤ msg.gasLimit.toNat - gas :=
    (yields_execute hforks (by omega) m).of_run hexec
  obtain ⟨refund, -, hsum, hgp'⟩ := (returns_settle gp₁ (by omega)).of_run hsettle
  dsimp only at hsum hgp'
  rw [← hgp₁, hgp', ← hsum]
  ring

/-- One transaction: the pool and the count of the gas used add up to the same. -/
theorem applyTransaction_gas (hgas : env.gp + env.usedGas.toNat < 2 ^ 64)
    (h : applyTransaction db evm block i tx msg env = .ok (receipt, env')) :
    env'.gp + env'.usedGas.toNat = env.gp + env.usedGas.toNat ∧
      env'.usedGas.toNat = env.usedGas.toNat + receipt.gasUsed ∧
      receipt.cumulativeGasUsed = env'.usedGas ∧ receipt.txHash = tx.inner.hash C := by
  obtain ⟨gp, result, machine, s, root, s', hrun, -, rfl, rfl⟩ := applyTransaction_eq_ok h
  have hgp := gas_transitionDb (by exact hforks) hrun
  have hused : (env.usedGas + .ofNat result.usedGas).toNat = env.usedGas.toNat + result.usedGas := by
    rw [UInt64.toNat_add, UInt64.toNat_ofNat']
    omega
  refine ⟨?_, hused, rfl, rfl⟩
  dsimp only
  omega

/-- The loop, from any environment in which the pool and the count fit. -/
theorem processFrom_gas (hgas : env.gp + env.usedGas.toNat < 2 ^ 64)
    (h : processFrom db evm block i txs env = .ok (receipts, env')) :
    env'.gp + env'.usedGas.toNat = env.gp + env.usedGas.toNat ∧
      env'.usedGas.toNat = env.usedGas.toNat + (receipts.map (·.gasUsed)).sum ∧
      (∀ n r, receipts[n]? = some r →
        r.cumulativeGasUsed.toNat = env.usedGas.toNat + ((receipts.take (n + 1)).map (·.gasUsed)).sum) ∧
      receipts.map (·.txHash) = txs.map (·.inner.hash C) := by
  induction txs generalizing i env receipts with
  | nil =>
    cases h
    simp
  | cons tx txs ih =>
    obtain ⟨msg, receipt, env₁, rest, happly, hrest, rfl⟩ := processFrom_cons_eq_ok h
    obtain ⟨hsum, hused, hcumulative, hhash⟩ := applyTransaction_gas hforks (by exact hgas) happly
    dsimp only at hsum hused
    obtain ⟨hsum', hused', hrest', hhash'⟩ := ih (hsum ▸ hgas) hrest
    refine ⟨hsum'.trans hsum, ?_, fun n r hr ↦ ?_, by rw [List.map_cons, hhash, hhash', List.map_cons]⟩
    · rw [hused', hused, List.map_cons, List.sum_cons, Nat.add_assoc]
    · cases n with
      | zero =>
        obtain rfl : receipt = r := by simpa using hr
        simp [hcumulative, hused]
      | succ n =>
        rw [hrest' n r (by simpa using hr), hused]
        simp [Nat.add_assoc]

end Gas

/-- **The gas of a block.** Where the instruction tables priced by access lists are only used with EIP-150, the
receipts of every block that is processed belong to its transactions in order, each has the gas used up to it,
and the gas used by the block is the sum, which the gas limit bounds. -/
theorem process_gas_accounted
    (hforks : usesAccessList evm.chainRules = true → evm.chainRules.isEIP150 = true)
    (h : process db evm block s = .ok (receipts, logs, usedGas, s')) :
    receipts.map (·.txHash) = block.transactions.map (·.inner.hash C) ∧
      (∀ n r, receipts[n]? = some r →
        r.cumulativeGasUsed.toNat = ((receipts.take (n + 1)).map (·.gasUsed)).sum) ∧
      usedGas.toNat = (receipts.map (·.gasUsed)).sum ∧ usedGas ≤ block.header.gasLimit := by
  obtain ⟨env, hrun, rfl, rfl⟩ := process_eq_ok h
  have hlimit : block.header.gasLimit.toNat < 2 ^ 64 := block.header.gasLimit.toNat_lt
  obtain ⟨hsum, hused, hcumulative, hhash⟩ := processFrom_gas hforks (by simpa using hlimit) hrun
  simp only [UInt64.toNat_zero, Nat.zero_add, Nat.add_zero] at hsum hused hcumulative
  exact ⟨hhash, hcumulative, hused, UInt64.le_iff_toNat_le.2 (hsum ▸ Nat.le_add_left _ _)⟩

/-- **The state between transactions.** Processing any number of them leads from a state database at rest to
one: the journal is empty, the refund counter zero, no account is marked for destruction, and every slot has
its committed value. -/
theorem process_ends_at_rest (hs : s.Reachable db) (hrest : Resting db s)
    (h : process db evm block s = .ok (receipts, logs, usedGas, s')) :
    s'.Reachable db ∧ Resting db s' := by
  obtain ⟨env, hrun, rfl, rfl⟩ := process_eq_ok h
  exact processFrom_rests hs hrest hrun

end Runs

/-! ## A block with one transaction -/

namespace Sample

open State.Sample

/-- A block in which the account at `0x10` sends 5 to the one at `0x20`. -/
def block : Block crypto where
  header := ⟨0, 0, 0, 0, 0, 0, 0, 1, 1, 8000000, 0, 0, [], 0, 0, some 7⟩
  uncles := []
  transactions := [tx 100000 5]

/-- The block, processed. -/
def processed : Except ProcessError (List Receipt × List StateLog × UInt64 × StateDB) :=
  process (database []) (evm crypto none) block (state [])

theorem exists_processed : ∃ p, processed = .ok p := by
  have h : processed.isOk = true := by decide
  cases hp : processed with
  | error e => rw [hp] at h; cases h
  | ok p => exact ⟨p, rfl⟩

theorem message_refines_timeline_state : ∃ t, Refines (database []) (state []) t ∧
    Alike Eq (Refines (database [])) ((transitionDb (evm crypto none) message 8000000 .init).run
      (StateDB.handler (database [])) (state []))
      ((transitionDb (evm crypto none) message 8000000 .init).run (Timeline.handler crypto) t) :=
  message_refines_timeline (reachable_state []) _ _

theorem process_gas_accounted_block : ∃ receipts logs usedGas s',
    processed = .ok (receipts, logs, usedGas, s') ∧ usedGas.toNat = (receipts.map (·.gasUsed)).sum ∧
      usedGas ≤ 8000000 := by
  obtain ⟨⟨receipts, logs, usedGas, s'⟩, h⟩ := exists_processed
  obtain ⟨-, -, hsum, hlimit⟩ := process_gas_accounted (fun _ ↦ rfl) h
  exact ⟨receipts, logs, usedGas, s', h, hsum, hlimit⟩

theorem process_ends_at_rest_block : ∃ receipts logs usedGas s',
    processed = .ok (receipts, logs, usedGas, s') ∧ Resting (database []) s' := by
  obtain ⟨⟨receipts, logs, usedGas, s'⟩, h⟩ := exists_processed
  have hrest := (process_ends_at_rest (reachable_state []) (.new _) h).2
  exact ⟨receipts, logs, usedGas, s', h, hrest⟩

end Sample

end GoEntropy.Chain
