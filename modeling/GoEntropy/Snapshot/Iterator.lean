import GoEntropy.Container.Cursors
import GoEntropy.Snapshot.Tree

/-!
# Iterating a snapshot

The fast iterator walks over the accounts of a snapshot, or over the slots of one account, through all
layers at once. It holds an iterator for each layer, with the depth of the layer as its priority, keeps
them sorted by the hashes they stand on, and lets no two of them stand on the same hash.

An iterator over a diff layer holds the hashes that are left and looks at the layer only to read a value
and to find out whether the layer is stale. An iterator over the disk layer is one of the store, which
goes on with what the store held when it was made.

A blob of an account map is never nil, while a deleted slot is a nil blob, which is the empty one here.
-/

namespace GoEntropy.Snapshot

open GoEntropy.Container

/-! ## Iterators over one layer -/

/-- What is iterated: the accounts, or the slots of an account. -/
inductive Target where
  | accounts
  | slots (account : Hash)

/-- The item with a hash. -/
def Target.key : Target → Hash → SnapKey
  | accounts, hash => .account hash
  | slots account, hash => .storage account hash

/-- The panics of the iterators. The last three are the model's own, for pointers to nothing and loops
that do not end. -/
inductive IterPanic where
  | nextOfFailed
  | nonExistent (hash : Hash)
  | dangling
  | outOfRange
  | outOfFuel
  deriving DecidableEq

/-- `AccountList`. -/
def DiffData.accountList (d : DiffData) : List Hash :=
  (d.accountData.keys ++ d.destructSet.keys.filter (· ∉ d.accountData)).insertionSort (· ≤ ·)

/-- `StorageList`: the slots, and whether the storage was destructed. -/
def DiffData.storageList (d : DiffData) (account : Hash) : List Hash × Bool :=
  let destructed := decide (account ∈ d.destructSet)
  match d.storageData.lookup account with
  | none => ([], destructed)
  | some slots => (slots.keys.insertionSort (· ≤ ·), destructed)

/-- The hashes of a sorted list from the one that is sought. -/
def seekFrom (hashes : List Hash) (seek : Hash) : List Hash :=
  hashes.drop (search (fun i ↦ hashes[i]?.all (seek ≤ ·)) (fun _ s ↦ s) hashes.length ()).1

/-- The entry of the store that an iterator over it stands on, unless it is passed over. -/
def Target.entry : Target → (_ : SnapKey) × Bytes → Option (Hash × Bytes)
  | accounts, ⟨.account hash, blob⟩ => some (hash, blob)
  | slots account, ⟨.storage accountHash hash, blob⟩ => if accountHash = account then some (hash, blob) else none
  | _, _ => none

/-- The entries of the store that an iterator walks over. -/
def Disk.entriesOf (d : Disk) (target : Target) : List (Hash × Bytes) := d.diskdb.entries.filterMap target.entry

/-- What an iterator over a layer reads from: the layer, or the entries of the store. -/
inductive Source where
  | diff (layer : LayerId)
  | disk (entries : List (Hash × Bytes))

/-- `diffAccountIterator` and its like: the hash it stands on, those that are left, and whether it has
failed. -/
structure SubIter where
  source : Source
  curHash : Hash
  keys : List Hash
  fail : Bool

namespace SubIter

/-- `AccountIterator` and `StorageIterator` of a diff layer; the latter also tells whether the storage was
destructed. -/
def ofDiff (id : LayerId) (d : DiffData) (seek : Hash) : Target → SubIter × Bool
  | .accounts => (⟨.diff id, 0, seekFrom d.accountList seek, false⟩, false)
  | .slots account =>
    (⟨.diff id, 0, seekFrom (d.storageList account).1 seek, false⟩, (d.storageList account).2)

/-- `AccountIterator` and `StorageIterator` of a disk layer. The store iterates in the order of its keys,
from the first one that is not below the one that is sought. -/
def ofDisk (d : Disk) (seek : Hash) (target : Target) : SubIter :=
  let hashes := ((d.entriesOf target).map Prod.fst).insertionSort (· ≤ ·)
  ⟨.disk (d.entriesOf target), 0, hashes.filter (seek ≤ ·), false⟩

def stale (heap : Heap) (it : SubIter) : Bool :=
  match it.source with
  | .diff id => Tree.isStale heap id
  | .disk _ => false

/-- `Next`. -/
def next (heap : Heap) (it : SubIter) : Except IterPanic (Bool × SubIter) :=
  if it.fail then .error .nextOfFailed
  else
    match it.keys with
    | [] => .ok (false, it)
    | key :: keys =>
      if it.stale heap then .ok (false, { it with fail := true, keys := [] })
      else .ok (true, { it with curHash := key, keys := keys })

/-- The failure of an iterator that has read from a stale layer. -/
def check (heap : Heap) (it : SubIter) : SubIter :=
  if it.stale heap then { it with fail := true, keys := [] } else it

/-- `Account` and `Slot`. An account that was destructed is nil, and so is a deleted slot. -/
def blob (heap : Heap) (target : Target) (it : SubIter) : Except IterPanic (Option Bytes × SubIter) :=
  match it.source with
  | .disk entries =>
    match entries.find? (·.1 == it.curHash) with
    | some entry => .ok (some entry.2, it)
    | none => .error (.nonExistent it.curHash)
  | .diff id =>
    match heap[id]? with
    | some (.diff l) =>
      match target with
      | .accounts =>
        match l.accountData.lookup it.curHash with
        | some blob => .ok (some blob, it.check heap)
        | none =>
          -- returned without a look at the layer
          if it.curHash ∈ l.destructSet then .ok (none, it) else .error (.nonExistent it.curHash)
      | .slots account =>
        match l.storageData.lookup account with
        | none => .error (.nonExistent account)
        | some slots =>
          match slots.lookup it.curHash with
          | none => .error (.nonExistent it.curHash)
          | some blob => .ok (if blob = [] then none else some blob, it.check heap)
    | _ => .error .dangling

end SubIter

/-! ## The fast iterator -/

/-- `weightedIterator`. -/
structure Weighted where
  it : SubIter
  priority : Nat

def Weighted.hash (w : Weighted) : Hash := w.it.curHash

/-- `Less`, or the same place. -/
def Weighted.le (w v : Weighted) : Prop := w.hash < v.hash ∨ (w.hash = v.hash ∧ w.priority ≤ v.priority)

instance : DecidableRel Weighted.le := fun w v ↦ by
  unfold Weighted.le
  infer_instance

/-- `fastIterator`; the current blob is that of an account or of a slot. -/
structure FastIterator where
  target : Target
  iterators : List Weighted
  initiated : Bool
  cur : Option Bytes
  fail : Bool

/-- The iterators over the layers of a stack. Nothing is asked below a layer that destructed the storage. -/
def Tree.layerIterators (t : Tree) (target : Target) (seek : Hash) :
    (fuel : Nat) → LayerId → (depth : Nat) → Except IterPanic (List Weighted)
  | 0, _, _ => .error .outOfFuel
  | fuel + 1, id, depth =>
    match t.heap[id]? with
    | none => .error .dangling
    | some (.disk _) => .ok [⟨SubIter.ofDisk t.disk seek target, depth⟩]
    | some (.diff l) =>
      let (it, destructed) := SubIter.ofDiff id l.toDiffData seek target
      if destructed then .ok [⟨it, depth⟩]
      else (t.layerIterators target seek fuel l.parent (depth + 1)).map (⟨it, depth⟩ :: ·)

namespace FastIterator

def swap (its : List Weighted) (i j : Nat) : List Weighted :=
  match its[i]?, its[j]? with
  | some w, some v => (its.set i v).set j w
  | _, _ => its

/-- Drop an iterator, with the last one in its place. -/
def drop (its : List Weighted) (i : Nat) : List Weighted :=
  match its.getLast? with
  | some last => (its.set i last).dropLast
  | none => its

/-- The inner loop of `init`: the iterator at an index is advanced until it stands alone, and when another
one has to be advanced in its place the two are swapped. Tells whether an iterator was dropped. -/
def settle (heap : Heap) (i : Nat) :
    (fuel : Nat) → List Weighted → (positioned : AList fun _ : Hash ↦ Nat) →
      Except IterPanic (Bool × List Weighted × AList fun _ : Hash ↦ Nat)
  | 0, _, _ => .error .outOfFuel
  | fuel + 1, its, positioned =>
    match its[i]? with
    | none => .error .outOfRange
    | some w =>
      match w.it.next heap with
      | .error e => .error e
      | .ok (false, it) => .ok (true, drop (its.set i { w with it }) i, positioned)
      | .ok (true, it) =>
        let its := its.set i { w with it }
        match positioned.lookup it.curHash with
        | none => .ok (false, its, positioned.insert it.curHash i)
        | some other =>
          match its[other]? with
          | none => .error .outOfRange
          | some v =>
            if v.priority < w.priority then settle heap i fuel its positioned
            else settle heap i fuel (swap its other i) positioned

/-- The hashes that are left in all iterators. -/
def size (its : List Weighted) : Nat := (its.map fun w ↦ w.it.keys.length + 1).sum

/-- The outer loop of `init`. -/
def position (heap : Heap) : (rounds i : Nat) → List Weighted → (positioned : AList fun _ : Hash ↦ Nat) →
    Except IterPanic (List Weighted)
  | 0, _, its, _ => .ok its
  | rounds + 1, i, its, positioned =>
    if i < its.length then
      match settle heap i (size its) its positioned with
      | .error e => .error e
      | .ok (dropped, its, positioned) => position heap rounds (if dropped then i else i + 1) its positioned
    else .ok its

/-- `init`. -/
def init (heap : Heap) (fi : FastIterator) : Except IterPanic FastIterator := do
  let its ← position heap fi.iterators.length 0 fi.iterators ∅
  return { fi with iterators := its.insertionSort Weighted.le, initiated := false }

/-- `move`. -/
def move (its : List Weighted) (index newpos : Nat) (elem : Weighted) : List Weighted :=
  its.take index ++ (its.drop (index + 1)).take (newpos - index) ++ elem :: its.drop (newpos + 1)

/-- The predicate of the search for the place of an iterator. -/
def fits (its : List Weighted) (idx : Nat) (cur : Weighted) (n : Nat) : Bool :=
  if n < idx then false
  else
    match its[n + 1]? with
    | none => true
    | some v =>
      if cur.hash < v.hash then true
      else if v.hash < cur.hash then false
      else decide (cur.priority < v.priority)

/-- The clash the search comes across: whichever winds up there will need further iteration. -/
def clashes (its : List Weighted) (idx : Nat) (cur : Weighted) (n : Nat) (clash : Option Nat) : Option Nat :=
  if n < idx then clash
  else
    match its[n + 1]? with
    | none => clash
    | some v => if v.hash = cur.hash then some (n + 1) else clash

/-- `next`. -/
def advance (heap : Heap) : (fuel : Nat) → List Weighted → (idx : Nat) → Except IterPanic (Bool × List Weighted)
  | 0, _, _ => .error .outOfFuel
  | fuel + 1, its, idx =>
    match its[idx]? with
    | none => .error .outOfRange
    | some w =>
      match w.it.next heap with
      | .error e => .error e
      | .ok (false, _) => .ok (decide (0 < (its.eraseIdx idx).length), its.eraseIdx idx)
      | .ok (true, it) =>
        let cur : Weighted := { w with it }
        let its := its.set idx cur
        match its[idx + 1]? with
        -- nobody left to cascade into
        | none => .ok (true, its)
        | some v =>
          if cur.hash < v.hash then .ok (true, its)
          else if cur.hash = v.hash ∧ cur.priority < v.priority then
            -- still in the correct place, but the next one has to be advanced
            (advance heap fuel its (idx + 1)).map fun (_, its) ↦ (true, its)
          else
            let (index, clash) := search (fits its idx cur) (clashes its idx cur) its.length none
            match clash with
            | none => .ok (true, move its idx index cur)
            | some clash => (advance heap fuel (move its idx index cur) clash).map fun (_, its) ↦ (true, its)

/-- Read the blob of the iterator in front, and its failure. -/
def load (heap : Heap) (fi : FastIterator) : Except IterPanic FastIterator :=
  match fi.iterators with
  | [] => .error .outOfRange
  | w :: rest =>
    match w.it.blob heap fi.target with
    | .error e => .error e
    | .ok (cur, it) => .ok { fi with iterators := { w with it } :: rest, cur, fail := fi.fail || it.fail }

/-- The loop of `Next`, which goes on until a blob is not nil. -/
def skip (heap : Heap) : (fuel : Nat) → FastIterator → Except IterPanic (Bool × FastIterator)
  | 0, _ => .error .outOfFuel
  | fuel + 1, fi =>
    match advance heap (size fi.iterators) fi.iterators 0 with
    | .error e => .error e
    | .ok (false, its) => .ok (false, { fi with iterators := its })
    | .ok (true, its) =>
      match ({ fi with iterators := its } : FastIterator).load heap with
      | .error e => .error e
      | .ok fi =>
        if fi.fail then .ok (false, fi)
        else if fi.cur.isSome then .ok (true, fi)
        else skip heap fuel fi

/-- `Next`. The iterators were advanced once when they were sorted. -/
def next (heap : Heap) (fi : FastIterator) : Except IterPanic (Bool × FastIterator) :=
  if fi.iterators = [] then .ok (false, fi)
  else if fi.initiated then skip heap (size fi.iterators) fi
  else
    match ({ fi with initiated := true } : FastIterator).load heap with
    | .error e => .error e
    | .ok fi =>
      if fi.fail then .ok (false, fi)
      else if fi.cur.isSome then .ok (true, fi)
      else skip heap (size fi.iterators) fi

/-- `Hash`, with `Account` or `Slot`. -/
def entry (fi : FastIterator) : Option (Hash × Bytes) :=
  match fi.iterators, fi.cur with
  | w :: _, some blob => some (w.hash, blob)
  | _, _ => none

end FastIterator

/-- `newFastIterator`, where nothing is returned for an unknown snapshot. -/
def Tree.newFastIterator (t : Tree) (root : Hash) (target : Target) (seek : Hash) :
    Except IterPanic (Option FastIterator) :=
  match t.layers.lookup root with
  | none => .ok none
  | some id => do
    let its ← t.layerIterators target seek (t.heap.length + 1) id 0
    let fi ← FastIterator.init t.heap ⟨target, its, false, none, false⟩
    return some fi

end GoEntropy.Snapshot
