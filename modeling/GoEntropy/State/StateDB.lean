import GoEntropy.State.StateObject

/-!
# The state database

`StateDB` answers the virtual machine. It keeps the live objects over an account trie, the refund
counter, the logs, the access list, and a journal from which any of the open snapshots can be
restored. `handler` is the implementation of the `StateDB` interface; `finalise`,
`intermediateRoot` and `prepare` are what the block processor calls between transactions.

The journal lists its entries from the last one back. Prefetching, the snapshot tree, the database
error and the timers are not modelled: a read that misses them goes to the trie.
-/

namespace GoEntropy.State

open Evm Interaction

/-- `model.Log`, as the state stores it. -/
structure StateLog where
  log : Log
  txHash : Hash
  txIndex : Nat
  index : Nat
  deriving DecidableEq

/-- The kinds of `journalEntry`. -/
inductive JournalEntry where
  | createObjectChange (account : Address)
  | resetObjectChange (prev : StateObject)
  | suicideChange (account : Address) (prev : Bool) (prevbalance : ℤ)
  | balanceChange (account : Address) (prev : ℤ)
  | nonceChange (account : Address) (prev : UInt64)
  | storageChange (account : Address) (key prevalue : Hash)
  | codeChange (account : Address) (prevcode : Bytes) (prevhash : Hash)
  | refundChange (prev : Nat)
  | addLogChange (txhash : Hash)
  | addPreimageChange (hash : Hash)
  | touchChange (account : Address)
  | accessListAddAccountChange (address : Address)
  | accessListAddSlotChange (address : Address) (slot : Hash)

/-- `dirtied`. A reset object is not counted. -/
def JournalEntry.dirtied : JournalEntry → Option Address
  | createObjectChange a => some a
  | suicideChange a _ _ => some a
  | balanceChange a _ => some a
  | nonceChange a _ => some a
  | storageChange a _ _ => some a
  | codeChange a _ _ => some a
  | touchChange a => some a
  | _ => none

/-- `journal`. -/
structure Journal where
  entries : List JournalEntry
  dirties : AList fun _ : Address ↦ Nat

namespace Journal

/-- `newJournal`. -/
def new : Journal := ⟨[], ∅⟩

/-- `dirty`: count one more change of the address. -/
def dirty (j : Journal) (a : Address) : Journal :=
  { j with dirties := j.dirties.insert a ((j.dirties.lookup a).getD 0 + 1) }

/-- `append`. -/
def append (j : Journal) (e : JournalEntry) : Journal :=
  let j := { j with entries := e :: j.entries }
  match e.dirtied with
  | some a => j.dirty a
  | none => j

/-- Take back one change of the address. -/
def undirty (dirties : AList fun _ : Address ↦ Nat) (a : Address) : AList fun _ : Address ↦ Nat :=
  let n := (dirties.lookup a).getD 0 - 1
  if n = 0 then dirties.erase a else dirties.insert a n

end Journal

/-- `revision`. -/
structure Revision where
  id : Nat
  journalIndex : Nat
  deriving DecidableEq

/-- `ripemd`, the address whose touches survive a revert. -/
def ripemd : Address := 3

/-- `StateDB`. -/
structure StateDB where
  trie : AccountTrie
  stateObjects : Address → Option StateObject
  stateObjectsPending : List Address
  refund : Nat
  thash : Hash
  txIndex : Nat
  logs : Hash → List StateLog
  logSize : Nat
  preimages : Hash → Option Bytes
  accessList : AccessList
  journal : Journal
  validRevisions : List Revision
  nextRevisionId : Nat

namespace StateDB

/-- `New`, at an account trie that was opened. -/
def new (trie : AccountTrie) : StateDB where
  trie
  stateObjects _ := none
  stateObjectsPending := []
  refund := 0
  thash := 0
  txIndex := 0
  logs _ := []
  logSize := 0
  preimages _ := none
  accessList := .empty
  journal := .new
  validRevisions := []
  nextRevisionId := 0

variable {C : Crypto} (db : StateDatabase C) (s : StateDB)

def journaled (e : JournalEntry) : StateDB := { s with journal := s.journal.append e }

/-- `setStateObject`. -/
def setStateObject (o : StateObject) : StateDB :=
  { s with stateObjects := Function.update s.stateObjects o.address (some o) }

/-! ## Finding objects -/

/-- `getDeletedStateObject`: the live object, or the one the trie describes, which becomes live. -/
def getDeletedStateObject (addr : Address) : Option StateObject × StateDB :=
  match s.stateObjects addr with
  | some o => (some o, s)
  | none =>
    match s.trie (db.addressKey addr) with
    | none => (none, s)
    | some data => (some (newObject addr data), s.setStateObject (newObject addr data))

/-- `getStateObject`. -/
def getStateObject (addr : Address) : Option StateObject × StateDB :=
  match s.getDeletedStateObject db addr with
  | (some o, s) => (if o.deleted then none else some o, s)
  | (none, s) => (none, s)

/-- `createObject`: the new object and the one it replaces, unless that was deleted. -/
def createObject (addr : Address) : StateObject × Option StateObject × StateDB :=
  let newObj := newObject addr ⟨0, 0, 0, C.emptyCodeHash⟩
  match s.getDeletedStateObject db addr with
  | (none, s) =>
    (newObj, none, (s.journaled (.createObjectChange addr)).setStateObject newObj)
  | (some prev, s) =>
    (newObj, if prev.deleted then none else some prev,
      (s.journaled (.resetObjectChange prev)).setStateObject newObj)

/-- `GetOrNewStateObject`. -/
def getOrNewStateObject (addr : Address) : StateObject × StateDB :=
  match s.getStateObject db addr with
  | (some o, s) => (o, s)
  | (none, s) =>
    let (o, _, s) := s.createObject db addr
    (o, s)

/-! ## Methods of the interface -/

/-- `CreateAccount`: the balance of an account that is there is carried over. -/
def createAccount (addr : Address) : StateDB :=
  match s.createObject db addr with
  | (_, none, s) => s
  | (o, some prev, s) => s.setStateObject (o.setBalance prev.data.balance)

/-- `stateObject.SetBalance`. -/
def setBalance (o : StateObject) (amount : ℤ) : StateDB :=
  (s.journaled (.balanceChange o.address o.data.balance)).setStateObject (o.setBalance amount)

/-- `stateObject.touch`. -/
def touch (addr : Address) : StateDB :=
  let s := s.journaled (.touchChange addr)
  if addr = ripemd then { s with journal := s.journal.dirty addr } else s

/-- `AddBalance`. -/
def addBalance (addr : Address) (amount : ℤ) : StateDB :=
  let (o, s) := s.getOrNewStateObject db addr
  if amount = 0 then if o.empty C then s.touch addr else s
  else s.setBalance o (o.data.balance + amount)

/-- `SubBalance`. -/
def subBalance (addr : Address) (amount : ℤ) : StateDB :=
  let (o, s) := s.getOrNewStateObject db addr
  if amount = 0 then s else s.setBalance o (o.data.balance - amount)

/-- `SetNonce`. -/
def setNonce (addr : Address) (nonce : UInt64) : StateDB :=
  let (o, s) := s.getOrNewStateObject db addr
  (s.journaled (.nonceChange addr o.data.nonce)).setStateObject (o.setNonce nonce)

/-- `SetCode`. -/
def setCode (addr : Address) (code : Bytes) : StateDB :=
  let (o, s) := s.getOrNewStateObject db addr
  let (prevcode, o) := o.getCode db
  (s.journaled (.codeChange addr prevcode o.data.codeHash)).setStateObject
    (o.setCode (C.keccak256 code) code)

/-- `SetState`. -/
def setState (addr : Address) (key value : Hash) : StateDB :=
  let (o, s) := s.getOrNewStateObject db addr
  let (prev, o) := o.getState db key
  if prev = value then s.setStateObject o
  else (s.journaled (.storageChange addr key prev)).setStateObject (o.setState key value)

/-- `Suicide`. -/
def suicide (addr : Address) : Bool × StateDB :=
  match s.getStateObject db addr with
  | (none, s) => (false, s)
  | (some o, s) =>
    (true, (s.journaled (.suicideChange addr o.suicided o.data.balance)).setStateObject
      { o.setBalance 0 with suicided := true })

/-- `AddRefund`. -/
def addRefund (gas : Nat) : StateDB :=
  { s.journaled (.refundChange s.refund) with refund := add64 s.refund gas }

/-- `SubRefund`. -/
def subRefund (gas : Nat) : Except Fault StateDB :=
  if gas > s.refund then .error .refundCounterBelowZero
  else .ok { s.journaled (.refundChange s.refund) with refund := s.refund - gas }

/-- `AddLog`. -/
def addLog (log : Log) : StateDB :=
  { s.journaled (.addLogChange s.thash) with
    logs := Function.update s.logs s.thash
      (s.logs s.thash ++ [⟨log, s.thash, s.txIndex, s.logSize⟩])
    logSize := s.logSize + 1 }

/-- `AddPreimage`. -/
def addPreimage (hash : Hash) (preimage : Bytes) : StateDB :=
  if (s.preimages hash).isSome then s
  else
    { s.journaled (.addPreimageChange hash) with
      preimages := Function.update s.preimages hash (some preimage) }

/-- `AddAddressToAccessList`. -/
def addAddressToAccessList (addr : Address) : StateDB :=
  let (changed, accessList) := s.accessList.addAddress addr
  if changed then { s.journaled (.accessListAddAccountChange addr) with accessList } else s

/-- `AddSlotToAccessList`. -/
def addSlotToAccessList (addr : Address) (slot : Hash) : Except Fault StateDB :=
  match s.accessList.addSlot addr slot with
  | .error e => .error e
  | .ok (addrMod, slotMod, accessList) =>
    let s := { s with accessList }
    let s := if addrMod then s.journaled (.accessListAddAccountChange addr) else s
    .ok (if slotMod then s.journaled (.accessListAddSlotChange addr slot) else s)

/-! ## Snapshots -/

/-- Change the live object at an address; a missing one is a nil pointer. -/
def modifyObject (addr : Address) (f : StateObject → StateObject) : Except Fault StateDB :=
  match s.getStateObject db addr with
  | (none, _) => .error .nilPointer
  | (some o, s) => .ok (s.setStateObject (f o))

/-- `revert` of one journal entry. -/
def revertEntry : JournalEntry → Except Fault StateDB
  | .createObjectChange a => .ok { s with stateObjects := Function.update s.stateObjects a none }
  | .resetObjectChange prev => .ok (s.setStateObject prev)
  | .suicideChange a prev prevbalance =>
    match s.getStateObject db a with
    | (none, s) => .ok s
    | (some o, s) => .ok (s.setStateObject { o.setBalance prevbalance with suicided := prev })
  | .balanceChange a prev => s.modifyObject db a (·.setBalance prev)
  | .nonceChange a prev => s.modifyObject db a (·.setNonce prev)
  | .storageChange a key prevalue => s.modifyObject db a (·.setState key prevalue)
  | .codeChange a prevcode prevhash => s.modifyObject db a (·.setCode prevhash prevcode)
  | .refundChange prev => .ok { s with refund := prev }
  | .addLogChange txhash =>
    .ok { s with
      logs := Function.update s.logs txhash (s.logs txhash).dropLast, logSize := s.logSize - 1 }
  | .addPreimageChange hash =>
    .ok { s with preimages := Function.update s.preimages hash none }
  | .touchChange _ => .ok s
  | .accessListAddAccountChange a => .ok { s with accessList := s.accessList.deleteAddress a }
  | .accessListAddSlotChange a slot =>
    match s.accessList.deleteSlot a slot with
    | .error e => .error e
    | .ok accessList => .ok { s with accessList }

/-- Drop the last entry, and the dirty tracking induced by it. -/
def dropEntry (e : JournalEntry) (rest : List JournalEntry) : StateDB :=
  { s with
    journal := ⟨rest, e.dirtied.elim s.journal.dirties (Journal.undirty s.journal.dirties)⟩ }

/-- One round of `journal.revert`: undo the last entry and drop it. -/
def popEntry (e : JournalEntry) (rest : List JournalEntry) : Except Fault StateDB :=
  match s.revertEntry db e with
  | .error f => .error f
  | .ok s => .ok (s.dropEntry e rest)

/-- `journal.revert`: undo the last `n` entries. -/
def undo : Nat → StateDB → Except Fault StateDB
  | 0, s => .ok s
  | n + 1, s =>
    match s.journal.entries with
    | [] => .ok s
    | e :: rest =>
      match s.popEntry db e rest with
      | .error f => .error f
      | .ok s => undo n s

/-- `Snapshot`. -/
def snapshot : Nat × StateDB :=
  (s.nextRevisionId,
    { s with
      nextRevisionId := s.nextRevisionId + 1
      validRevisions := s.validRevisions ++ [⟨s.nextRevisionId, s.journal.entries.length⟩] })

/-- `RevertToSnapshot`. The revisions are ordered by id, so the binary search of the code finds the
first one that is large enough. -/
def revertToSnapshot (revid : Nat) : Except Fault StateDB :=
  let idx := s.validRevisions.findIdx fun r ↦ decide (revid ≤ r.id)
  match s.validRevisions[idx]? with
  | none => .error .revisionCannotBeReverted
  | some r =>
    if r.id ≠ revid then .error .revisionCannotBeReverted
    else
      match s.undo db (s.journal.entries.length - r.journalIndex) with
      | .error e => .error e
      | .ok s => .ok { s with validRevisions := s.validRevisions.take idx }

/-! ## The interface -/

/-- The result of a method that only reads an object. -/
def readObject {α : Type} (addr : Address) (absent : α) (f : StateObject → α × StateObject) :
    Except Fault (α × StateDB) :=
  match s.getStateObject db addr with
  | (none, s) => .ok (absent, s)
  | (some o, s) =>
    let (a, o) := f o
    .ok (a, s.setStateObject o)

/-- `StateDB` as an implementation of the interface; the tracer changes nothing. -/
def handler : Handler StateInterface Fault StateDB
  | .createAccount a, s => .ok ((), s.createAccount db a)
  | .subBalance a x, s => .ok ((), s.subBalance db a x)
  | .addBalance a x, s => .ok ((), s.addBalance db a x)
  | .getBalance a, s => s.readObject db a 0 fun o ↦ (o.data.balance, o)
  | .getNonce a, s => s.readObject db a 0 fun o ↦ (o.data.nonce, o)
  | .setNonce a n, s => .ok ((), s.setNonce db a n)
  | .getCodeHash a, s => s.readObject db a 0 fun o ↦ (o.data.codeHash, o)
  | .getCode a, s => s.readObject db a [] fun o ↦ o.getCode db
  | .setCode a c, s => .ok ((), s.setCode db a c)
  | .getCodeSize a, s => s.readObject db a 0 fun o ↦ (o.codeSize db, o)
  | .addRefund g, s => .ok ((), s.addRefund g)
  | .subRefund g, s => (s.subRefund g).map ((), ·)
  | .getRefund, s => .ok (s.refund, s)
  | .getCommittedState a k, s => s.readObject db a 0 fun o ↦ o.getCommittedState db k
  | .getState a k, s => s.readObject db a 0 fun o ↦ o.getState db k
  | .setState a k v, s => .ok ((), s.setState db a k v)
  | .suicide a, s => .ok (s.suicide db a)
  | .hasSuicided a, s => s.readObject db a false fun o ↦ (o.suicided, o)
  | .exist a, s => s.readObject db a false fun o ↦ (true, o)
  | .empty a, s => s.readObject db a true fun o ↦ (o.empty C, o)
  | .addressInAccessList a, s => .ok (s.accessList.containsAddress a, s)
  | .slotInAccessList a k, s => (s.accessList.contains a k).map (·, s)
  | .addAddressToAccessList a, s => .ok ((), s.addAddressToAccessList a)
  | .addSlotToAccessList a k, s => (s.addSlotToAccessList a k).map ((), ·)
  | .revertToSnapshot id, s => (s.revertToSnapshot db id).map ((), ·)
  | .snapshot, s => .ok s.snapshot
  | .addLog l, s => .ok ((), s.addLog l)
  | .addPreimage h p, s => .ok ((), s.addPreimage h p)
  | .captureStart .., s => .ok ((), s)
  | .captureEnter .., s => .ok ((), s)
  | .captureState .., s => .ok ((), s)

/-! ## Between transactions -/

/-- `Prepare`. -/
def prepare (thash : Hash) (ti : Nat) : StateDB := { s with thash, txIndex := ti }

/-- `GetLogs`; the block hash it stamps on the logs is kept out of them. -/
def getLogs (hash : Hash) : List StateLog := s.logs hash

/-- One round of the loop of `Finalise`. -/
def finaliseObject (C : Crypto) (deleteEmptyObjects : Bool) (s : StateDB) (addr : Address) : StateDB :=
  match s.stateObjects addr with
  | none => s
  | some o =>
    { s.setStateObject (o.finalised C deleteEmptyObjects) with
      stateObjectsPending := s.stateObjectsPending.insert addr }

/-- `clearJournalAndRefund`. -/
def clearJournalAndRefund : StateDB :=
  let s := if s.journal.entries.isEmpty then s else { s with journal := .new, refund := 0 }
  { s with validRevisions := [] }

/-- `Finalise`. -/
def finalise (C : Crypto) (s : StateDB) (deleteEmptyObjects : Bool) : StateDB :=
  (s.journal.dirties.keys.foldl (finaliseObject C deleteEmptyObjects) s).clearJournalAndRefund

/-- One round of the first loop of `IntermediateRoot`. -/
def updateObjectRoot (objects : Address → Option StateObject) (addr : Address) :
    Address → Option StateObject :=
  match objects addr with
  | none => objects
  | some o => Function.update objects addr (some (if o.deleted then o else o.updateRoot db))

/-- One round of the second loop: `deleteStateObject` or `updateStateObject`. -/
def writeObject (objects : Address → Option StateObject) (trie : AccountTrie) (addr : Address) :
    AccountTrie :=
  match objects addr with
  | none => trie
  | some o =>
    Function.update trie (db.addressKey addr) (if o.deleted then none else some o.data)

/-- `IntermediateRoot`. Both loops dereference the object of every pending address. -/
def intermediateRoot (deleteEmptyObjects : Bool) : Except Fault (Hash × StateDB) :=
  let s := s.finalise C deleteEmptyObjects
  if s.stateObjectsPending.any fun a ↦ (s.stateObjects a).isNone then .error .nilPointer
  else
    let stateObjects := s.stateObjectsPending.foldl (updateObjectRoot db) s.stateObjects
    let trie := s.stateObjectsPending.foldl (writeObject db stateObjects) s.trie
    .ok (db.accountRoot trie, { s with stateObjects, trie, stateObjectsPending := [] })

end StateDB

/-! ## A small state -/

namespace Sample

/-- Primitives under which a short string is its own hash, and every signature is by the account at
`0x10`. -/
def crypto : Crypto where
  keccak256 := bytesToHash
  ecrecover _ _ := some [4, 0x10]
  sha256 b := b
  ripemd160 b := b

/-- A trie with a funded account at `0x10`, a contract with the given code at `0x20`, and one at `0x28`
that writes a slot: `PUSH1 1 PUSH1 1 SSTORE`. -/
def trie (code : Bytes) : AccountTrie := fun key ↦
  if key = 0x10 then some ⟨0, 10 ^ 18, emptyRoot, 0⟩
  else if key = 0x20 then some ⟨1, 0, emptyRoot, bytesToHash code⟩
  else if key = 0x28 then some ⟨1, 0, emptyRoot, bytesToHash [0x60, 0x01, 0x60, 0x01, 0x55]⟩
  else none

/-- A database with that trie, which finds code by reading its hash back. -/
def database (code : Bytes) : StateDatabase crypto where
  openTrie _ := some (trie code)
  openStorageTrie _ := some fun _ ↦ 0
  accountRoot _ := 0
  storageRoot _ := emptyRoot
  contractCode h := (hashBytes h).dropWhile (· == 0)
  open_emptyRoot := rfl

def state (code : Bytes) : StateDB := .new (trie code)

end Sample

end GoEntropy.State
