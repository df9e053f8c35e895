import GoEntropy.Snapshot.Layer

/-!
# The snapshot tree

`Tree` registers layers by state root. `update` puts a diff layer on top of a registered one, and
`cap` bounds the number of diff layers under a head: whatever lies deeper is flattened into one
layer, which may in turn be merged into the disk layer, and then layers that are stale, or hang off
a stale one, are dropped from the register.

The clean-up walks the register by *root*: it collects the children of each root and removes from
every stale layer downwards. Pointers and roots are two different graphs over the same layers, and
what the tree guarantees is exactly as good as their agreement.

A panic of the code ends the run; an error it returns leaves the tree as it was.
-/

namespace GoEntropy.Snapshot

/-- The errors the tree and its layers return. `dangling` and `outOfFuel` are the model's own, for a
pointer to nothing and a walk that does not end. -/
inductive SnapshotError where
  | stale
  | notCoveredYet
  | cycle
  | parentMissing (root : Hash)
  | missing (root : Hash)
  | isDiskLayer (root : Hash)
  | dangling
  | outOfFuel
deriving DecidableEq, Repr

/-- The panics. `stackOverflow` stands for a recursion that does not end. -/
inductive Panic where
  | accountNil (hash : Hash)
  | storageNil (hash : Hash)
  | parentDiffStale
  | parentDiskStale
  | unknownLayer
  | stackOverflow
deriving DecidableEq, Repr

/-- `Tree`, with the store and the cache of its disk layer. -/
structure Tree where
  heap : Heap
  disk : Disk
  layers : HashMap LayerId

namespace Tree

def ofDisk (base : DiskLayer) (disk : Disk) : Tree where
  heap := [.disk base]
  disk
  layers := AList.singleton base.root 0

/-! ## Reads -/

variable (F : BloomFilter) (t : Tree)

/-- The accessors of a disk layer. -/
def readDisk (l : DiskLayer) (key : SnapKey) : Except SnapshotError Bytes × Tree :=
  if l.stale then (.error .stale, t)
  else if !l.covers key.bytes then (.error .notCoveredYet, t)
  else (.ok (t.disk.get key).1, { t with disk := (t.disk.get key).2 })

/-- The accessors of a diff layer that skip the bloom filter, down to the disk layer. -/
def walk (t : Tree) : Nat → LayerId → SnapKey → Except SnapshotError Bytes × Tree
  | 0, _, _ => (.error .outOfFuel, t)
  | fuel + 1, id, key =>
    match t.heap[id]? with
    | none => (.error .dangling, t)
    | some (.disk l) => t.readDisk l key
    | some (.diff l) =>
      if l.stale then (.error .stale, t)
      else
        match l.resolve key with
        | some data => (.ok data, t)
        | none => walk t fuel l.parent key

/-- The accessors of a layer: a diff layer asks its bloom filter first, and on a miss goes straight
to the disk layer it was built over. -/
def read (id : LayerId) (key : SnapKey) : Except SnapshotError Bytes × Tree :=
  match t.heap[id]? with
  | some (.diff l) =>
    if F.contains l.diffed (F.itemKey key) || F.contains l.diffed (F.destructKey key.owner) then
      t.walk t.heap.length id key
    else
      match t.heap[l.origin]? with
      | some (.disk origin) => t.readDisk origin key
      | _ => (.error .dangling, t)
  | some (.disk l) => t.readDisk l key
  | none => (.error .dangling, t)

/-- `AccountRLP`. -/
def accountRLP (id : LayerId) (hash : Hash) : Except SnapshotError Bytes × Tree :=
  t.read F id (.account hash)

/-- `Storage`. -/
def storage (id : LayerId) (accountHash storageHash : Hash) : Except SnapshotError Bytes × Tree :=
  t.read F id (.storage accountHash storageHash)

/-! ## Adding a layer -/

/-- `rebloom`: start from the filter of a diff layer below, or from an empty one, and add what the
layer itself changes. -/
def rebloom (heap : Heap) (l : DiffLayer) (origin : LayerId) : DiffLayer :=
  let below :=
    match heap[l.parent]? with
    | some (.diff parent) => parent.diffed
    | _ => []
  { l with origin, diffed := l.bloomKeys F ++ below }

/-- The maps of a block, checked for nil values as `newDiffLayer` does. -/
def checkAccounts : List ((_ : Hash) × Option Bytes) → Except Panic (List ((_ : Hash) × Bytes))
  | [] => .ok []
  | ⟨hash, none⟩ :: _ => .error (.accountNil hash)
  | ⟨hash, some blob⟩ :: rest => (checkAccounts rest).map (⟨hash, blob⟩ :: ·)

/-- The same check of the storage maps. -/
def checkStorage :
    List ((_ : Hash) × Option (HashMap Bytes)) → Except Panic (List ((_ : Hash) × HashMap Bytes))
  | [] => .ok []
  | ⟨hash, none⟩ :: _ => .error (.storageNil hash)
  | ⟨hash, some slots⟩ :: rest => (checkStorage rest).map (⟨hash, slots⟩ :: ·)

/-- What a block hands to `Update`; its account blobs and slot maps may be nil. -/
structure Block where
  destructs : HashMap Unit
  accounts : HashMap (Option Bytes)
  storage : HashMap (Option (HashMap Bytes))

/-- The maps of a block that has no nil value. -/
def Block.data (b : Block) : Except Panic DiffData :=
  match checkAccounts b.accounts.entries, checkStorage b.storage.entries with
  | .ok accounts, .ok storage => .ok ⟨b.destructs, accounts.toAList, storage.toAList⟩
  | .error e, _ => .error e
  | _, .error e => .error e

/-- The disk layer a new layer is built over. -/
def originOf (id : LayerId) : Except Panic LayerId :=
  match t.heap[id]? with
  | some (.disk _) => .ok id
  | some (.diff l) => .ok l.origin
  | none => .error .unknownLayer

/-- `newDiffLayer`. -/
def newDiffLayer (parent : LayerId) (root : Hash) (block : Block) : Except Panic DiffLayer := do
  let origin ← t.originOf parent
  let data ← block.data
  return rebloom F t.heap
    { data with origin, parent, root, memory := data.memory, stale := false, diffed := [] } origin

/-- `Update`. -/
def update (blockRoot parentRoot : Hash) (block : Block) :
    Except Panic (Option SnapshotError × Tree) :=
  if blockRoot = parentRoot then .ok (some .cycle, t)
  else
    match t.layers.lookup parentRoot with
    | none => .ok (some (.parentMissing parentRoot), t)
    | some parent =>
      match t.newDiffLayer F parent blockRoot block with
      | .error e => .error e
      | .ok snap =>
        .ok (none, { t with
          heap := t.heap ++ [.diff snap]
          layers := t.layers.insert blockRoot t.heap.length })

/-! ## Flattening and persisting -/

/-- `aggregatorMemoryLimit`. -/
def aggregatorMemoryLimit : Nat := 4 * 1024 * 1024

/-- The fresh layer that `flatten` returns for a layer pushed into its parent. -/
def flattened (parent l : DiffLayer) : DiffLayer :=
  { l.mergeInto parent.toDiffData with
    origin := parent.origin
    parent := parent.parent
    memory := add64 parent.memory l.memory
    root := l.root
    stale := false
    diffed := l.diffed }

/-- The parent after `flatten` took its maps: stale, and sharing them. -/
def absorbed (parent l : DiffLayer) : DiffLayer :=
  { parent with toDiffData := l.mergeInto parent.toDiffData, stale := true }

/-- `flatten`: the layer it returns, and the heap. -/
def flatten (heap : Heap) : Nat → LayerId → Except Panic (LayerId × Heap)
  | 0, _ => .error .stackOverflow
  | fuel + 1, id =>
    match heap[id]? with
    | some (.diff l) =>
      match heap[l.parent]? with
      | some (.diff _) =>
        match flatten heap fuel l.parent with
        | .error e => .error e
        | .ok (below, heap) =>
          match heap[below]? with
          | some (.diff parent) =>
            if parent.stale then .error .parentDiffStale
            else
              .ok (heap.length, heap.set below (.diff (absorbed parent l)) ++
                [.diff (flattened parent l)])
          | _ => .error .unknownLayer
      | _ => .ok (id, heap)
    | _ => .error .unknownLayer

/-- `diffToDisk`: the new disk layer. The generator, if it runs, is stopped first and started again
over the new layer. -/
def diffToDisk (bottom : LayerId) : Except Panic (LayerId × Tree) :=
  match t.heap[bottom]? with
  | some (.diff l) =>
    match t.heap[l.parent]? with
    | some (.disk base) =>
      if base.stale then .error .parentDiskStale
      else
        let res : DiskLayer :=
          { root := l.root, stale := false, genMarker := base.genMarker
            genAbort := base.genMarker.isSome && base.genAbort }
        .ok (t.heap.length, { t with
          heap := t.heap.set l.parent (.disk { base with stale := true }) ++ [.disk res]
          disk := base.persist l.toDiffData t.disk })
    | _ => .error .unknownLayer
  | _ => .error .unknownLayer

/-! ## Capping -/

/-- The loop of `cap` that dives down the layers; `none` if the stack is too shallow. -/
def dive (heap : Heap) : Nat → LayerId → Option LayerId
  | 0, id => some id
  | n + 1, id =>
    match heap[id]? with
    | some (.diff l) =>
      match heap[l.parent]? with
      | some (.diff _) => dive heap n l.parent
      | _ => none
    | _ => none

def relink (id parent : LayerId) : Tree :=
  match t.heap[id]? with
  | some (.diff l) => { t with heap := t.heap.set id (.diff { l with parent }) }
  | _ => t

def register (root : Hash) (id : LayerId) : Tree := { t with layers := t.layers.insert root id }

/-- Whether the flattened layer has to go to disk: it is too large, or a snapshot is being generated
underneath. -/
def overflows (heap : Heap) (l : DiffLayer) : Except Panic Bool :=
  if l.memory < aggregatorMemoryLimit then
    match heap[l.parent]? with
    | some (.disk base) => .ok base.genAbort
    | _ => .error .unknownLayer
  else .ok true

/-- `cap` below the layer it dived to: flatten the parent, and persist the result if it overflows.
The answer is the new disk layer, if there is one. -/
def capBelow (diff : LayerId) : Except Panic (Option LayerId × Tree) :=
  match t.heap[diff]? with
  | some (.diff l) =>
    match t.heap[l.parent]? with
    | some (.disk _) => .ok (none, t)
    | some (.diff _) =>
      match flatten t.heap t.heap.length l.parent with
      | .error e => .error e
      | .ok (bottom, heap) =>
        match heap[bottom]? with
        | some (.diff flat) =>
          let t := (({ t with heap } : Tree).register flat.root bottom).relink diff bottom
          match overflows t.heap flat with
          | .error e => .error e
          | .ok false => .ok (none, t)
          | .ok true =>
            match t.diffToDisk bottom with
            | .error e => .error e
            | .ok (base, t) => .ok (some base, (t.register flat.root base).relink diff base)
        | _ => .error .unknownLayer
    | none => .error .unknownLayer
  | _ => .error .unknownLayer

/-- `cap`. -/
def capFrom (head : LayerId) (layers : ℤ) : Except Panic (Option LayerId × Tree) :=
  match dive t.heap (layers - 1).toNat head with
  | none => .ok (none, t)
  | some diff => t.capBelow diff

/-- Enter a registered layer under the root of its parent. -/
def addChild (heap : Heap) (children : HashMap (List Hash)) (e : (_ : Hash) × LayerId) :
    HashMap (List Hash) :=
  match heap[e.2]? with
  | some (.diff l) =>
    match heap[l.parent]? with
    | some parent =>
      children.insert parent.root ((children.lookup parent.root).getD [] ++ [e.1])
    | none => children
  | _ => children

/-- The roots of the registered layers over each root. -/
def children : HashMap (List Hash) := t.layers.entries.foldl (addChild t.heap) ∅

/-- `remove`: drop a layer and, recursively, those over it, from the register and from the map of
children. -/
def remove : Nat → Hash → HashMap LayerId × HashMap (List Hash) →
    Except Panic (HashMap LayerId × HashMap (List Hash))
  | 0, _, _ => .error .stackOverflow
  | fuel + 1, root, (layers, children) => do
    let (layers, children) ← ((children.lookup root).getD []).foldlM
      (fun s child ↦ remove fuel child s) (layers.erase root, children)
    return (layers, children.erase root)

def isStale (heap : Heap) (id : LayerId) : Bool :=
  match heap[id]? with
  | some l => l.stale
  | none => false

/-- The loop over the register that removes from every stale layer. An entry that is gone by the
time the loop reaches it is not produced. -/
def sweep (heap : Heap) (entries : List ((_ : Hash) × LayerId))
    (s : HashMap LayerId × HashMap (List Hash)) :
    Except Panic (HashMap LayerId × HashMap (List Hash)) :=
  entries.foldlM (fun s e ↦
    if e.1 ∈ s.1 ∧ isStale heap e.2 then remove heap.length e.1 s else .ok s) s

/-- Rebuild the filter of the layer registered under a root. -/
def rebloomAt (layers : HashMap LayerId) (origin : LayerId) (heap : Heap) (root : Hash) : Heap :=
  match layers.lookup root with
  | none => heap
  | some id =>
    match heap[id]? with
    | some (.diff l) => heap.set id (.diff (rebloom F heap l origin))
    | _ => heap

/-- The recursion that regenerates the cumulative filters upwards. -/
def rebloomUp (layers : HashMap LayerId) (children : HashMap (List Hash)) (origin : LayerId) :
    Nat → Hash → Heap → Except Panic Heap
  | 0, _, _ => .error .stackOverflow
  | fuel + 1, root, heap =>
    ((children.lookup root).getD []).foldlM
      (fun heap child ↦ rebloomUp layers children origin fuel child heap)
      (rebloomAt F layers origin heap root)

/-- The second half of `Cap`: drop what is stale, and regenerate the filters over a new disk
layer. -/
def cleanUp (persisted : Option LayerId) : Except Panic Tree :=
  match sweep t.heap t.layers.entries (t.layers, t.children) with
  | .error e => .error e
  | .ok (layers, children) =>
    match persisted with
    | none => .ok { t with layers }
    | some base =>
      match t.heap[base]? with
      | some l =>
        (rebloomUp F layers children base t.heap.length l.root t.heap).map
          fun heap ↦ { t with heap, layers }
      | none => .error .unknownLayer

/-- The number of layers `Cap` keeps: at most eight while the generator runs. -/
def allowed (l : DiffLayer) (layers : ℤ) : ℤ :=
  match t.heap[l.origin]? with
  | some (.disk origin) => if origin.genMarker.isSome ∧ layers > 8 then 8 else layers
  | _ => layers

/-- `Cap` with zero layers: everything under the head goes to disk, everything else is dropped. -/
def capAll (head : LayerId) : Except Panic Tree :=
  match flatten t.heap t.heap.length head with
  | .error e => .error e
  | .ok (bottom, heap) =>
    match ({ t with heap } : Tree).diffToDisk bottom with
    | .error e => .error e
    | .ok (base, t) =>
      match t.heap[base]? with
      | some l => .ok { t with layers := AList.singleton l.root base }
      | none => .error .unknownLayer

/-- `Cap` of a registered diff layer. -/
def capLayer (head : LayerId) (layers : ℤ) : Except Panic Tree :=
  if layers = 0 then t.capAll head
  else
    match t.capFrom head layers with
    | .error e => .error e
    | .ok (persisted, t) => t.cleanUp F persisted

/-- `Cap`. -/
def cap (root : Hash) (layers : ℤ) : Except Panic (Option SnapshotError × Tree) :=
  match t.layers.lookup root with
  | none => .ok (some (.missing root), t)
  | some head =>
    match t.heap[head]? with
    | some (.diff l) => (t.capLayer F head (t.allowed l layers)).map fun t ↦ (none, t)
    | some (.disk _) => .ok (some (.isDiskLayer root), t)
    | none => .error .unknownLayer

end Tree

end GoEntropy.Snapshot
