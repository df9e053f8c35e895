import GoEntropy.Common.Bytes

/-!
# Snapshot layers

A snapshot answers reads of accounts and storage slots by hash. At the bottom stands a disk layer,
a key-value store behind a cache; above it diff layers, one a block, each with the accounts its
block destructed, wrote and the slots it wrote. A read walks down the diff layers to the first one
that knows the item, unless the bloom filter of the topmost one says that none does.

Layers are objects that are shared and mutated: a layer goes stale while others still point to it,
and a layer is replaced by a fresh object under the same root. The model therefore keeps a heap of
layers, and `LayerId` is a pointer into it. What a layer *owns* are values: its maps are handed over
on flattening, and the old owner is stale from then on.

Account and slot reads are the same walk over two kinds of key, so the walk is written once over
`SnapKey`, and `accountRLP` and `storage` are its two uses.
-/

namespace GoEntropy.Snapshot

abbrev HashMap (β : Type) := AList fun _ : Hash ↦ β

/-- What a snapshot is asked for: an account, or a storage slot of an account. -/
inductive SnapKey where
  | account (hash : Hash)
  | storage (accountHash storageHash : Hash)
deriving DecidableEq, Repr

namespace SnapKey

/-- The account whose destruction removes the item. -/
def owner : SnapKey → Hash
  | account hash => hash
  | storage accountHash _ => accountHash

/-- The key in the cache, which is also what the generator's marker is compared with. -/
def bytes : SnapKey → Bytes
  | account hash => hashBytes hash
  | storage accountHash storageHash => hashBytes accountHash ++ hashBytes storageHash

end SnapKey

/-! ## The bloom filter -/

/-- The bloom filter of the external library, with the offsets drawn at start-up. A filter is the
list of the keys added to it; `contains` is whatever the library answers. -/
structure BloomFilter where
  contains : List (BitVec 64) → BitVec 64 → Bool
  destructOffset : Fin 25
  accountOffset : Fin 25
  storageOffset : Fin 25

namespace BloomFilter

variable (F : BloomFilter)

/-- The filter has no false negatives. -/
def NoFalseNegatives : Prop := ∀ added key, key ∈ added → F.contains added key = true

/-- The big-endian word at a byte offset of a hash. -/
def sum64 (offset : Fin 25) (hash : Hash) : BitVec 64 := hash.extractLsb' (192 - 8 * offset) 64

/-- `destructBloomHasher`. -/
def destructKey (hash : Hash) : BitVec 64 := sum64 F.destructOffset hash

/-- `accountBloomHasher`. -/
def accountKey (hash : Hash) : BitVec 64 := sum64 F.accountOffset hash

/-- `storageBloomHasher`. -/
def storageKey (accountHash storageHash : Hash) : BitVec 64 :=
  sum64 F.storageOffset accountHash ^^^ sum64 F.storageOffset storageHash

/-- The key under which a layer that writes the item adds it. -/
def itemKey : SnapKey → BitVec 64
  | .account hash => F.accountKey hash
  | .storage accountHash storageHash => F.storageKey accountHash storageHash

end BloomFilter

/-! ## Layers -/

/-- A pointer to a layer. -/
abbrev LayerId := Nat

/-- `diskLayer`, without the store and the cache, which every disk layer of a tree shares.
`genAbort` tells whether the channel that stops the generator exists. -/
structure DiskLayer where
  root : Hash
  stale : Bool
  genMarker : Option Bytes
  genAbort : Bool

/-- The changes a diff layer holds. -/
structure DiffData where
  destructSet : HashMap Unit
  accountData : HashMap Bytes
  storageData : HashMap (HashMap Bytes)

/-- `diffLayer`, without the lists kept for iteration. -/
structure DiffLayer extends DiffData where
  origin : LayerId
  parent : LayerId
  memory : Nat
  root : Hash
  stale : Bool
  diffed : List (BitVec 64)

/-- `snapshot`: either kind of layer. -/
inductive Layer where
  | disk (layer : DiskLayer)
  | diff (layer : DiffLayer)

/-- The layers that were ever created. -/
abbrev Heap := List Layer

namespace Layer

/-- `Root`. -/
def root : Layer → Hash
  | disk l => l.root
  | diff l => l.root

/-- `Stale`. -/
def stale : Layer → Bool
  | disk l => l.stale
  | diff l => l.stale

end Layer

namespace DiffData

variable (d : DiffData)

/-- What the layer's maps hold for an item. -/
def known : SnapKey → Option Bytes
  | .account hash => d.accountData.lookup hash
  | .storage accountHash storageHash =>
    (d.storageData.lookup accountHash).bind fun slots ↦ slots.lookup storageHash

/-- What the layer answers for an item without asking its parent: the item as its block left it,
or nothing if the block destructed the account and did not write the item again. -/
def resolve (key : SnapKey) : Option Bytes :=
  match d.known key with
  | some data => some data
  | none => if key.owner ∈ d.destructSet then some [] else none

/-- The keys `rebloom` adds for the layer. -/
def bloomKeys (F : BloomFilter) : List (BitVec 64) :=
  d.destructSet.keys.map F.destructKey ++ d.accountData.keys.map F.accountKey ++
    d.storageData.entries.flatMap fun e ↦ e.2.keys.map (F.storageKey e.1)

/-- The memory `newDiffLayer` counts for the maps. -/
def memory : Nat :=
  let accounts := d.accountData.entries.foldl (fun n e ↦ add64 n (32 + e.2.length)) 0
  let slots := d.storageData.entries.foldl
    (fun n e ↦ e.2.entries.foldl (fun n e ↦ add64 n (32 + e.2.length)) n) accounts
  add64 slots (d.destructSet.keys.length * 32)

/-! ### Merging a layer into the one below -/

/-- The first loop of `flatten`: forget an account in the parent, but keep the marker. -/
def destruct (d : DiffData) (hash : Hash) : DiffData where
  destructSet := d.destructSet.insert hash ()
  accountData := d.accountData.erase hash
  storageData := d.storageData.erase hash

/-- The second loop: overwrite an account. -/
def setAccount (d : DiffData) (e : (_ : Hash) × Bytes) : DiffData :=
  { d with accountData := d.accountData.insert e.1 e.2 }

def setSlots (combo slots : HashMap Bytes) : HashMap Bytes :=
  slots.entries.foldl (fun m e ↦ m.insert e.1 e.2) combo

/-- The third loop: overwrite the slots of an account, taking the child's map whole if the parent
has none. -/
def setStorage (d : DiffData) (e : (_ : Hash) × HashMap Bytes) : DiffData :=
  match d.storageData.lookup e.1 with
  | none => { d with storageData := d.storageData.insert e.1 e.2 }
  | some combo => { d with storageData := d.storageData.insert e.1 (setSlots combo e.2) }

/-- The maps of the parent after `flatten` pushed the layer into it. -/
def mergeInto (parent : DiffData) : DiffData :=
  d.storageData.entries.foldl setStorage
    (d.accountData.entries.foldl setAccount (d.destructSet.keys.foldl destruct parent))

end DiffData

/-! ## The store below -/

/-- The key-value store and the cache that the disk layers of a tree share. -/
structure Disk where
  diskdb : AList fun _ : SnapKey ↦ Bytes
  cache : AList fun _ : SnapKey ↦ Bytes

namespace Disk

variable (d : Disk)

/-- What the store holds: nothing and an absent key read alike. -/
def content (key : SnapKey) : Bytes := (d.diskdb.lookup key).getD []

/-- Ask the cache, else the store, and keep the answer in the cache. -/
def get (key : SnapKey) : Bytes × Disk :=
  match d.cache.lookup key with
  | some blob => (blob, d)
  | none => (d.content key, { d with cache := d.cache.insert key (d.content key) })

/-- Remove a slot found by the iterator over an account's storage. -/
def dropKey (d : Disk) (key : SnapKey) : Disk where
  diskdb := d.diskdb.erase key
  cache := d.cache.erase key

/-- `IterateStorageSnapshots`: the slots of an account in the store. -/
def slotsOf (hash : Hash) : List SnapKey :=
  d.diskdb.keys.filter fun key ↦
    match key with
    | .account _ => false
    | .storage accountHash _ => accountHash == hash

/-- The first loop of `diffToDisk`: delete an account and all its slots. The batch is applied as it
is filled; what it deletes for one account no other iteration reads. -/
def destroy (d : Disk) (hash : Hash) : Disk :=
  (d.slotsOf hash).foldl dropKey
    ⟨d.diskdb.erase (.account hash), d.cache.insert (.account hash) []⟩

/-- The second loop: write an account. -/
def writeAccount (d : Disk) (e : (_ : Hash) × Bytes) : Disk where
  diskdb := d.diskdb.insert (.account e.1) e.2
  cache := d.cache.insert (.account e.1) e.2

/-- The body of the third loop: write a slot, or delete it if it has no data. -/
def writeSlot (accountHash : Hash) (d : Disk) (e : (_ : Hash) × Bytes) : Disk :=
  if e.2.length > 0 then
    ⟨d.diskdb.insert (.storage accountHash e.1) e.2, d.cache.insert (.storage accountHash e.1) e.2⟩
  else
    ⟨d.diskdb.erase (.storage accountHash e.1), d.cache.insert (.storage accountHash e.1) []⟩

end Disk

namespace DiskLayer

variable (l : DiskLayer)

/-- Whether the generator has covered a key. Go compares byte strings lexicographically. -/
def covers (key : Bytes) : Bool :=
  match l.genMarker with
  | none => true
  | some marker => !decide (marker < key)

/-- Whether the generator stands inside the storage of an account. -/
def midAccount (accountHash : Hash) : Bool :=
  match l.genMarker with
  | none => false
  | some marker => hashBytes accountHash == marker.take 32

/-- Whether a slot of an account that is covered is itself covered. -/
def coversSlot (accountHash storageHash : Hash) : Bool :=
  match l.genMarker with
  | none => true
  | some marker => !(l.midAccount accountHash && decide (marker.drop 32 < hashBytes storageHash))

/-- The third loop of `diffToDisk`. -/
def writeStorage (d : Disk) (e : (_ : Hash) × HashMap Bytes) : Disk :=
  if l.covers (hashBytes e.1) then
    (e.2.entries.filter fun slot ↦ l.coversSlot e.1 slot.1).foldl (Disk.writeSlot e.1) d
  else d

/-- The updates of the store and the cache in `diffToDisk`. Items the generator has not reached are
left to it. -/
def persist (bottom : DiffData) (d : Disk) : Disk :=
  let destructs := bottom.destructSet.keys.filter fun hash ↦ l.covers (hashBytes hash)
  let accounts := bottom.accountData.entries.filter fun e ↦ l.covers (hashBytes e.1)
  bottom.storageData.entries.foldl l.writeStorage
    (accounts.foldl Disk.writeAccount (destructs.foldl Disk.destroy d))

end DiskLayer

end GoEntropy.Snapshot
