import GoEntropy.State.StateDB

/-!
# The world a state database stands for

What a caller of `StateDB` can observe is a *world*: for every address an account or nothing, and the
refund counter, the access list, the logs and the preimages. A *timeline* is the current world with
the worlds of the open snapshots; taking a snapshot saves the world and reverting brings it back.

There is no journal here, no cache and no trie. `Timeline.handler` says what each method of the
interface does in these terms; that the state database does exactly this is proved in
`GoEntropy.State.Refinement`, and everything about executions is proved over timelines.
-/

namespace GoEntropy.State

open Evm Interaction

/-- An account, with the storage of the running transaction and the one it started from. -/
structure Account where
  nonce : UInt64
  balance : ℤ
  codeHash : Hash
  code : Bytes
  suicided : Bool
  storage : Hash → Hash
  committed : Hash → Hash

namespace Account

def fresh (C : Crypto) : Account where
  nonce := 0
  balance := 0
  codeHash := C.emptyCodeHash
  code := []
  suicided := false
  storage _ := 0
  committed _ := 0

/-- No nonce, no balance and no code. -/
def isEmpty (C : Crypto) (acc : Account) : Bool :=
  acc.nonce == 0 && acc.balance == 0 && acc.codeHash == C.emptyCodeHash

/-- Nothing distinguishes the account from one that a transaction has not touched. -/
def Clean (acc : Account) : Prop := acc.suicided = false ∧ acc.storage = acc.committed

end Account

/-- The observable part of a state database. -/
@[ext] structure World where
  accounts : Address → Option Account
  refund : Nat
  accessList : AccessList
  thash : Hash
  txIndex : Nat
  logs : Hash → List StateLog
  logSize : Nat
  preimages : Hash → Option Bytes

namespace World

variable (C : Crypto) (w : World) (a : Address)

def put (acc : Account) : World := { w with accounts := Function.update w.accounts a (some acc) }

section put

variable {w a} {acc acc' : Account} {b : Address}

@[simp] theorem put_self : (w.put a acc).accounts a = some acc := Function.update_self ..

theorem put_of_ne (h : b ≠ a) : (w.put a acc).accounts b = w.accounts b :=
  Function.update_of_ne h ..

@[simp] theorem put_put : (w.put a acc).put a acc' = w.put a acc' := by simp [put]

theorem put_eq_self (h : w.accounts a = some acc) : w.put a acc = w := by
  rw [put, ← h, Function.update_eq_self]

end put

def getOrNew : Account := (w.accounts a).getD (.fresh C)

/-- The balance at an address; no account has none. -/
def balance : ℤ := ((w.accounts a).map (·.balance)).getD 0

/-- A new account that keeps the balance. -/
def createAccount : World := w.put a { Account.fresh C with balance := w.balance a }

/-- Add an amount to a balance; the account is there afterwards. -/
def addBalance (amount : ℤ) : World :=
  w.put a { w.getOrNew C a with balance := (w.getOrNew C a).balance + amount }

def setNonce (nonce : UInt64) : World := w.put a { w.getOrNew C a with nonce }

def setCode (code : Bytes) : World :=
  w.put a { w.getOrNew C a with code, codeHash := C.keccak256 code }

def setState (key value : Hash) : World :=
  w.put a { w.getOrNew C a with storage := Function.update (w.getOrNew C a).storage key value }

/-- Destroy an account: it stays until the transaction ends, without its balance. -/
def suicide : Bool × World :=
  match w.accounts a with
  | none => (false, w)
  | some acc => (true, w.put a { acc with suicided := true, balance := 0 })

/-- Append a log of the running transaction. -/
def addLog (log : Log) : World :=
  { w with
    logs := Function.update w.logs w.thash
      (w.logs w.thash ++ [⟨log, w.thash, w.txIndex, w.logSize⟩])
    logSize := w.logSize + 1 }

/-- Record a preimage; the first one stays. -/
def addPreimage (hash : Hash) (preimage : Bytes) : World :=
  if (w.preimages hash).isSome then w
  else { w with preimages := Function.update w.preimages hash (some preimage) }

/-- What an account answers to a reader. -/
def read {α : Type} (absent : α) (f : Account → α) : α := ((w.accounts a).map f).getD absent

/-- An absent account reads as a new one, where the reader's default is that of a new one. -/
theorem read_eq {α : Type} (f : Account → α) :
    w.read a (f (.fresh C)) f = f (w.getOrNew C a) := by
  unfold read getOrNew
  cases w.accounts a <;> rfl

theorem read_storage (key : Hash) : w.read a 0 (·.storage key) = (w.getOrNew C a).storage key :=
  read_eq C w a (·.storage key)

theorem read_committed (key : Hash) :
    w.read a 0 (·.committed key) = (w.getOrNew C a).committed key :=
  read_eq C w a (·.committed key)

end World

/-- The current world and the worlds of the open snapshots, the last one first. -/
structure Timeline where
  now : World
  saved : List (Nat × World)
  nextId : Nat

namespace Timeline

def snapshot (t : Timeline) : Nat × Timeline :=
  (t.nextId, ⟨t.now, (t.nextId, t.now) :: t.saved, t.nextId + 1⟩)

/-- Go back to a snapshot, which is used up together with the later ones. -/
def revertToSnapshot (t : Timeline) (id : Nat) : Except Fault Timeline :=
  match t.saved.dropWhile (·.1 ≠ id) with
  | [] => .error .revisionCannotBeReverted
  | (_, w) :: rest => .ok { t with now := w, saved := rest }

def modify (t : Timeline) (f : World → World) : Timeline := { t with now := f t.now }

theorem modify_eq_self {t : Timeline} {f : World → World} (h : f t.now = t.now) :
    t.modify f = t := by
  rw [modify, h]

/-- The interface, answered by a timeline. -/
def handler (C : Crypto) : Handler StateInterface Fault Timeline
  | .createAccount a, t => .ok ((), t.modify (·.createAccount C a))
  | .subBalance a x, t => .ok ((), t.modify (·.addBalance C a (-x)))
  | .addBalance a x, t => .ok ((), t.modify (·.addBalance C a x))
  | .getBalance a, t => .ok (t.now.balance a, t)
  | .getNonce a, t => .ok (t.now.read a 0 (·.nonce), t)
  | .setNonce a n, t => .ok ((), t.modify (·.setNonce C a n))
  | .getCodeHash a, t => .ok (t.now.read a 0 (·.codeHash), t)
  | .getCode a, t => .ok (t.now.read a [] (·.code), t)
  | .setCode a c, t => .ok ((), t.modify (·.setCode C a c))
  | .getCodeSize a, t => .ok (t.now.read a 0 (·.code.length), t)
  | .addRefund g, t => .ok ((), t.modify fun w ↦ { w with refund := add64 w.refund g })
  | .subRefund g, t =>
    if g > t.now.refund then .error .refundCounterBelowZero
    else .ok ((), t.modify fun w ↦ { w with refund := w.refund - g })
  | .getRefund, t => .ok (t.now.refund, t)
  | .getCommittedState a k, t => .ok (t.now.read a 0 (·.committed k), t)
  | .getState a k, t => .ok (t.now.read a 0 (·.storage k), t)
  | .setState a k v, t => .ok ((), t.modify (·.setState C a k v))
  | .suicide a, t => .ok ((t.now.suicide a).1, t.modify fun w ↦ (w.suicide a).2)
  | .hasSuicided a, t => .ok (t.now.read a false (·.suicided), t)
  | .exist a, t => .ok (t.now.read a false fun _ ↦ true, t)
  | .empty a, t => .ok (t.now.read a true (·.isEmpty C), t)
  | .addressInAccessList a, t => .ok (t.now.accessList.containsAddress a, t)
  | .slotInAccessList a k, t => (t.now.accessList.contains a k).map (·, t)
  | .addAddressToAccessList a, t =>
    .ok ((), t.modify fun w ↦ { w with accessList := (w.accessList.addAddress a).2 })
  | .addSlotToAccessList a k, t =>
    (t.now.accessList.addSlot a k).map fun r ↦
      ((), t.modify fun w ↦ { w with accessList := r.2.2 })
  | .revertToSnapshot id, t => (t.revertToSnapshot id).map ((), ·)
  | .snapshot, t => .ok t.snapshot
  | .addLog l, t => .ok ((), t.modify (·.addLog l))
  | .addPreimage h p, t => .ok ((), t.modify (·.addPreimage h p))
  | .captureStart .., t => .ok ((), t)
  | .captureEnter .., t => .ok ((), t)
  | .captureState .., t => .ok ((), t)

end Timeline

end GoEntropy.State
