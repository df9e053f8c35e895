import GoEntropy.State.Refinement

/-!
# Copies of a state database

`Copy` makes a state database that is to be used beside the original. It takes over the objects that the
journal counts as dirty, and those that are marked as pending or dirty by earlier transactions, but not the
journal itself. What `Finalise` would derive from the journal has to be in the marks and in the objects.

A mark beside `stateObjectsPending` is needed for this, `stateObjectsDirty`, which stays until `Commit`.
Nothing that is modelled elsewhere looks at it, so it stands here beside the state.

The values that a copy shares with its original (balances, code, preimages, trie nodes) are replaced and
never changed in place; the two are therefore two values here.
-/

namespace GoEntropy.State

open Evm Interaction

variable {C : Crypto}

/-- `deepCopy`. -/
def StateObject.deepCopy (o : StateObject) : StateObject :=
  { newObject o.address o.data with
    trie := o.trie
    code := o.code
    dirtyStorage := o.dirtyStorage
    originStorage := o.originStorage
    pendingStorage := o.pendingStorage
    suicided := o.suicided
    dirtyCode := o.dirtyCode
    deleted := o.deleted }

/-- `StateDB` with `stateObjectsDirty`. -/
structure MarkedDB where
  state : StateDB
  stateObjectsDirty : List Address

namespace MarkedDB

variable (db : StateDatabase C) (m : MarkedDB)

/-- `New`. -/
def new (trie : AccountTrie) : MarkedDB := ⟨.new trie, []⟩

/-- `Finalise`, which marks every object that it visits. -/
def finalise (C : Crypto) (m : MarkedDB) (deleteEmptyObjects : Bool) : MarkedDB where
  state := m.state.finalise C deleteEmptyObjects
  stateObjectsDirty := m.state.journal.dirties.keys.foldl
    (fun marks a ↦ if (m.state.stateObjects a).isSome then marks.insert a else marks) m.stateObjectsDirty

/-- `IntermediateRoot`. -/
def intermediateRoot (deleteEmptyObjects : Bool) : Except Fault (Hash × MarkedDB) :=
  (m.state.intermediateRoot db deleteEmptyObjects).map fun (root, state) ↦
    (root, ⟨state, (m.finalise C deleteEmptyObjects).stateObjectsDirty⟩)

/-- One round of the loop of `Commit`: write the code, and `CommitTrie`. -/
def commitObject (o : StateObject) : StateObject :=
  if o.deleted then o else ({ o with dirtyCode := o.dirtyCode && o.code.isEmpty } : StateObject).updateRoot db

/-- `Commit`. The database is taken to hold already what this writes to it. -/
def commit (deleteEmptyObjects : Bool) : Except Fault (Hash × MarkedDB) := do
  let (root, m) ← m.intermediateRoot db deleteEmptyObjects
  if m.stateObjectsDirty.any fun a ↦ (m.state.stateObjects a).isNone then .error .nilPointer
  else
    let stateObjects := m.stateObjectsDirty.foldl
      (fun objects a ↦ Function.update objects a ((objects a).map (commitObject db))) m.state.stateObjects
    .ok (root, ⟨{ m.state with stateObjects }, []⟩)

/-! ## Copying -/

def take (c : MarkedDB) (a : Address) (o : StateObject) : MarkedDB :=
  { c with state := { c.state with stateObjects := Function.update c.state.stateObjects a (some o.deepCopy) } }

def markPending (c : MarkedDB) (a : Address) : MarkedDB :=
  { c with state := { c.state with stateObjectsPending := c.state.stateObjectsPending.insert a } }

def markDirty (c : MarkedDB) (a : Address) : MarkedDB :=
  { c with stateObjectsDirty := c.stateObjectsDirty.insert a }

/-- The first loop of `Copy`, over the journal: an address without an object is passed over. -/
def copyDirtied (objects : Address → Option StateObject) (c : MarkedDB) (a : Address) : MarkedDB :=
  match objects a with
  | none => c
  | some o => ((c.take a o).markDirty a).markPending a

/-- Take over the object of an address unless that is done. -/
def copyMissing (objects : Address → Option StateObject) (c : MarkedDB) (a : Address) : Except Fault MarkedDB :=
  if (c.state.stateObjects a).isSome then .ok c
  else
    match objects a with
    | none => .error .nilPointer
    | some o => .ok (c.take a o)

/-- The fields that `Copy` takes over as they are. The others are those of a new state. -/
def blank : MarkedDB where
  state :=
    { StateDB.new m.state.trie with
      refund := m.state.refund
      logs := m.state.logs
      logSize := m.state.logSize
      preimages := m.state.preimages
      accessList := m.state.accessList }
  stateObjectsDirty := []

/-- `Copy`. -/
def copy : Except Fault MarkedDB := do
  let objects := m.state.stateObjects
  let c := m.state.journal.dirties.keys.foldl (copyDirtied objects) m.blank
  let c ← m.state.stateObjectsPending.foldlM (fun c a ↦ (copyMissing objects c a).map (·.markPending a)) c
  m.stateObjectsDirty.foldlM (fun c a ↦ (copyMissing objects c a).map (·.markDirty a)) c

end MarkedDB

/-- The state databases callers can produce, copies among them. -/
inductive MarkedDB.Reachable (db : StateDatabase C) : MarkedDB → Prop
  | new {root : Hash} {trie : AccountTrie} (h : db.openTrie root = some trie) : Reachable db (.new trie)
  | method {m : MarkedDB} {s : StateDB} {o : StateOp} {r : o.Res} (hm : Reachable db m)
    (h : StateDB.handler db o m.state = .ok (r, s)) : Reachable db { m with state := s }
  | prepare {m : MarkedDB} (hm : Reachable db m) (thash : Hash) (ti : Nat) :
    Reachable db { m with state := m.state.prepare thash ti }
  | finalise {m : MarkedDB} (hm : Reachable db m) (del : Bool) : Reachable db (m.finalise C del)
  | intermediateRoot {m m' : MarkedDB} {del : Bool} {root : Hash} (hm : Reachable db m)
    (h : m.intermediateRoot db del = .ok (root, m')) : Reachable db m'
  | commit {m m' : MarkedDB} {del : Bool} {root : Hash} (hm : Reachable db m)
    (h : m.commit db del = .ok (root, m')) : Reachable db m'
  | copy {m c : MarkedDB} (hm : Reachable db m) (h : m.copy = .ok c) : Reachable db c

/-! ## Getters -/

namespace StateDB

variable (db : StateDatabase C) (s : StateDB)

/-- A getter of the object at an address. -/
def getter {α : Type} (a : Address) (absent : α) (f : StateObject → α) : α :=
  match (s.getStateObject db a).1 with
  | none => absent
  | some o => f o

/-- What the getters return. -/
structure Readout where
  exist : Address → Bool
  empty : Address → Bool
  balance : Address → ℤ
  nonce : Address → UInt64
  code : Address → Bytes
  codeSize : Address → Nat
  codeHash : Address → Hash
  state : Address → Hash → Hash
  committedState : Address → Hash → Hash
  hasSuicided : Address → Bool
  txIndex : Nat
  refund : Nat
  logs : Hash → List StateLog
  preimages : Hash → Option Bytes
  addressInAccessList : Address → Bool
  slotInAccessList : Address → Hash → Except Fault (Bool × Bool)

def readout : Readout where
  exist a := s.getter db a false fun _ ↦ true
  empty a := s.getter db a true (·.empty C)
  balance a := s.getter db a 0 (·.data.balance)
  nonce a := s.getter db a 0 (·.data.nonce)
  code a := s.getter db a [] fun o ↦ (o.getCode db).1
  codeSize a := s.getter db a 0 (·.codeSize db)
  codeHash a := s.getter db a 0 (·.data.codeHash)
  state a k := s.getter db a 0 fun o ↦ (o.getState db k).1
  committedState a k := s.getter db a 0 fun o ↦ (o.getCommittedState db k).1
  hasSuicided a := s.getter db a false (·.suicided)
  txIndex := s.txIndex
  refund := s.refund
  logs := s.getLogs
  preimages := s.preimages
  addressInAccessList := s.accessList.containsAddress
  slotInAccessList := s.accessList.contains

end StateDB

end GoEntropy.State
