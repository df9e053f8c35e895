import GoEntropy.State.AccessList

/-!
# State objects

A `stateObject` is one account while it is being modified: its consensus data, the storage trie once
it has been opened, and three layers of storage slots over that trie. `dirtyStorage` holds the writes
of the current transaction, `pendingStorage` those of finished transactions that no trie has seen yet,
and `originStorage` caches what the trie says.

The tries themselves live in a database that is a parameter. A trie is what it contains: a secure
trie is a map from hashed keys, with absent slots read as zero. Where the code ranges over a Go map,
the model ranges over the entries of an association list.
-/

namespace GoEntropy.State

/-- `model.StateAccount`: the consensus representation of an account. -/
structure StateAccount where
  nonce : UInt64
  balance : ℤ
  root : Hash
  codeHash : Hash
  deriving DecidableEq

/-- `emptyRoot`, the root of an empty trie. -/
def emptyRoot : Hash := 0x56e81f171bcc55a6ff8345e692c0f86e5b48e01b996cadc001622fb5e363b421

/-- The content of the account trie, by hashed address. -/
abbrev AccountTrie := Hash → Option StateAccount

/-- The content of a storage trie, by hashed slot; an absent slot reads as zero. -/
abbrev StorageTrie := Hash → Hash

/-- The database under the state: tries by root, and contract code by hash. -/
structure StateDatabase (C : Crypto) where
  /-- `OpenTrie`; `none` when the root is not in the database. -/
  openTrie : Hash → Option AccountTrie
  /-- `OpenStorageTrie`; `none` when the root is not in the database. -/
  openStorageTrie : Hash → Option StorageTrie
  /-- `Trie.Hash` of an account trie. -/
  accountRoot : AccountTrie → Hash
  /-- `Trie.Hash` of a storage trie. -/
  storageRoot : StorageTrie → Hash
  /-- `ContractCode`. -/
  contractCode : Hash → Bytes
  /-- Opening the empty root gives the empty trie. -/
  open_emptyRoot : openStorageTrie emptyRoot = some fun _ ↦ 0

namespace StateDatabase

variable {C : Crypto} (db : StateDatabase C)

def addressKey (_db : StateDatabase C) (a : Address) : Hash := C.keccak256 (addressBytes a)

def slotKey (_db : StateDatabase C) (k : Hash) : Hash := C.keccak256 (hashBytes k)

/-- The trie an object opens: the empty one if the root is missing. -/
def storageTrie (r : Hash) : StorageTrie := (db.openStorageTrie r).getD fun _ ↦ 0

/-- The code of a hash; the empty hash has no code to load. -/
def codeOf (h : Hash) : Bytes := if h = C.emptyCodeHash then [] else db.contractCode h

end StateDatabase

/-- `Storage`. -/
abbrev Storage := AList fun _ : Hash ↦ Hash

/-- `stateObject`. A nil code is the empty one. -/
structure StateObject where
  address : Address
  data : StateAccount
  trie : Option StorageTrie
  code : Bytes
  originStorage : Storage
  pendingStorage : Storage
  dirtyStorage : Storage
  dirtyCode : Bool
  suicided : Bool
  deleted : Bool

/-- `newObject`; a zero root stands for an empty trie. -/
def newObject (address : Address) (data : StateAccount) : StateObject where
  address
  data := { data with root := if data.root = 0 then emptyRoot else data.root }
  trie := none
  code := []
  originStorage := ∅
  pendingStorage := ∅
  dirtyStorage := ∅
  dirtyCode := false
  suicided := false
  deleted := false

namespace StateObject

variable {C : Crypto} (db : StateDatabase C) (o : StateObject)

/-- `empty`. -/
def empty (C : Crypto) (o : StateObject) : Bool :=
  o.data.nonce == 0 && o.data.balance == 0 && o.data.codeHash == C.emptyCodeHash

/-- The trie `getTrie` returns. -/
def theTrie : StorageTrie := o.trie.getD (db.storageTrie o.data.root)

/-- `getTrie`, which keeps the trie it opens. -/
def getTrie : StorageTrie × StateObject := (o.theTrie db, { o with trie := some (o.theTrie db) })

/-- `GetCommittedState`, which caches what it reads. -/
def getCommittedState (key : Hash) : Hash × StateObject :=
  match o.pendingStorage.lookup key with
  | some value => (value, o)
  | none =>
    match o.originStorage.lookup key with
    | some value => (value, o)
    | none =>
      let (tr, o) := o.getTrie db
      let value := tr (db.slotKey key)
      (value, { o with originStorage := o.originStorage.insert key value })

/-- `GetState`. -/
def getState (key : Hash) : Hash × StateObject :=
  match o.dirtyStorage.lookup key with
  | some value => (value, o)
  | none => o.getCommittedState db key

/-- `setState`. -/
def setState (key value : Hash) : StateObject :=
  { o with dirtyStorage := o.dirtyStorage.insert key value }

/-- `Code`, which keeps the code it loads. -/
def getCode : Bytes × StateObject :=
  if o.code ≠ [] then (o.code, o)
  else if o.data.codeHash = C.emptyCodeHash then ([], o)
  else (db.contractCode o.data.codeHash, { o with code := db.contractCode o.data.codeHash })

/-- `CodeSize`. -/
def codeSize : Nat :=
  if o.code ≠ [] then o.code.length
  else if o.data.codeHash = C.emptyCodeHash then 0
  else (db.contractCode o.data.codeHash).length

/-- `setCode`. -/
def setCode (codeHash : Hash) (code : Bytes) : StateObject :=
  { o with code, data := { o.data with codeHash }, dirtyCode := true }

/-- `setBalance`. -/
def setBalance (amount : ℤ) : StateObject := { o with data := { o.data with balance := amount } }

/-- `setNonce`. -/
def setNonce (nonce : UInt64) : StateObject := { o with data := { o.data with nonce } }

/-- `finalise`: move the dirty slots to the pending ones. -/
def finalise : StateObject :=
  { o with pendingStorage := o.dirtyStorage ∪ o.pendingStorage, dirtyStorage := ∅ }

/-- What `StateDB.Finalise` does to one object: mark it deleted, or finalise it. -/
def finalised (C : Crypto) (deleteEmptyObjects : Bool) (o : StateObject) : StateObject :=
  if o.suicided || (deleteEmptyObjects && o.empty C) then { o with deleted := true } else o.finalise

/-- One round of the loop of `updateTrie`: a slot whose value the cache already has is skipped. -/
def writeSlot (acc : Storage × StorageTrie) (kv : (_ : Hash) × Hash) : Storage × StorageTrie :=
  if kv.2 = (acc.1.lookup kv.1).getD 0 then acc
  else (acc.1.insert kv.1 kv.2, Function.update acc.2 (db.slotKey kv.1) kv.2)

/-- `updateTrie`: the trie is nil if it was never opened and nothing is pending. -/
def updateTrie : Option StorageTrie × StateObject :=
  let o := o.finalise
  if o.pendingStorage.entries.isEmpty then (o.trie, o)
  else
    let (tr, o) := o.getTrie db
    let (origin, tr) := o.pendingStorage.entries.foldl (writeSlot db) (o.originStorage, tr)
    (some tr, { o with trie := some tr, originStorage := origin, pendingStorage := ∅ })

/-- `updateRoot`. -/
def updateRoot : StateObject :=
  match o.updateTrie db with
  | (none, o) => o
  | (some tr, o) => { o with data := { o.data with root := db.storageRoot tr } }

end StateObject

end GoEntropy.State
