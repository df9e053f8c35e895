import GoEntropy.Snapshot.Calls

/-!
# Runs of the snapshot tree

A tree starts as one disk layer and is changed by calls. Two things are asked of every run.

*No registered layer hangs off a stale one.* This is not so: where `Cap` replaces a layer that two
registered layers hang off, it moves one of them to the replacement and leaves the other over the
old layer, which is in no register any more and lies over a stale one
(`fork_at_the_cut_goes_stale`). It is so for runs in which no `Cap` cuts at a fork and no `Update`
takes a root away from a layer others hang off, and in such a run each `Cap` keeps it exactly if it
does not cut at a fork (`registered_layers_stay_live`).

*Capping preserves reads.* In a stack of layers there is no fork, so every layer that survives a `Cap`
reads as the layer with its root did before (`cap_preserves_reads`).
-/

namespace GoEntropy.Snapshot

open GoEntropy.Container

/-- A call on a tree. The reads are calls too, since they fill the cache. -/
inductive Call where
  | update (blockRoot parentRoot : Hash) (block : Tree.Block)
  | cap (root : Hash) (layers : ℤ)
  | accountRLP (root hash : Hash)
  | storage (root accountHash storageHash : Hash)

namespace Call

def apply (F : BloomFilter) (t : Tree) : Call → Except Panic Tree
  | update blockRoot parentRoot block => (t.update F blockRoot parentRoot block).map fun r ↦ r.2
  | cap root layers => (t.cap F root layers).map fun r ↦ r.2
  | accountRLP root hash =>
    match t.layers.lookup root with
    | none => .ok t
    | some id => .ok (t.accountRLP F id hash).2
  | storage root accountHash storageHash =>
    match t.layers.lookup root with
    | none => .ok t
    | some id => .ok (t.storage F id accountHash storageHash).2

/-- An `Update` that goes through takes its root from no layer others hang off, and a `Cap` does not
cut at a fork. -/
def careful (t : Tree) : Call → Bool
  | update blockRoot parentRoot _ =>
    blockRoot == parentRoot || (t.layers.lookup parentRoot).isNone || t.replaceable blockRoot
  | cap root layers => t.unforked root layers
  | accountRLP _ _ => true
  | storage _ _ _ => true

end Call

def runCalls (F : BloomFilter) (t : Tree) (calls : List Call) : Except Panic Tree :=
  calls.foldlM (Call.apply F) t

/-- Every call of the run is careful where it is made. -/
def carefulRun (F : BloomFilter) : Tree → List Call → Bool
  | _, [] => true
  | t, call :: calls =>
    call.careful t &&
      match call.apply F t with
      | .ok t' => carefulRun F t' calls
      | .error _ => true

namespace Tree

variable {F : BloomFilter} {t t' : Tree} {base : LayerId}

/-! ## The invariant of careful runs -/

theorem healthy_ofDisk {l : DiskLayer} (hl : l.stale = false) (disk : Disk) :
    Healthy F (ofDisk l disk) 0 := healthy_singleton rfl rfl hl

theorem readDisk_snd (t : Tree) (l : DiskLayer) (key : SnapKey) :
    (t.readDisk l key).2 = t ∨
      (t.readDisk l key).2 = { t with disk := (t.disk.get key).2 } := by
  unfold readDisk
  split
  · exact .inl rfl
  · split
    · exact .inl rfl
    · exact .inr rfl

theorem walk_snd (t : Tree) (fuel : Nat) (id : LayerId) (key : SnapKey) :
    (t.walk fuel id key).2 = t ∨ (t.walk fuel id key).2 = { t with disk := (t.disk.get key).2 } := by
  induction fuel generalizing id with
  | zero => exact .inl rfl
  | succ fuel ih =>
    rw [walk]
    split
    · exact .inl rfl
    · exact t.readDisk_snd _ key
    · split
      · exact .inl rfl
      · split
        · exact .inl rfl
        · exact ih _

theorem read_snd (t : Tree) (id : LayerId) (key : SnapKey) :
    (t.read F id key).2 = t ∨ (t.read F id key).2 = { t with disk := (t.disk.get key).2 } := by
  unfold read
  split
  · split
    · exact t.walk_snd _ id key
    · split
      · exact t.readDisk_snd _ key
      · exact .inl rfl
  · exact t.readDisk_snd _ key
  · exact .inl rfl

/-- Over a complete disk layer with a coherent cache. -/
def Sound (t : Tree) (base : LayerId) : Prop := t.Complete base ∧ t.disk.Coherent

theorem Healthy.read (h : Healthy F t base) (id : LayerId) (key : SnapKey) :
    Healthy F (t.read F id key).2 base ∧ (t.Sound base → (t.read F id key).2.Sound base) := by
  rcases t.read_snd id key with heq | heq
  · rw [heq]
    exact ⟨h, fun h ↦ h⟩
  · rw [heq]
    exact ⟨⟨h.registered, h.named, h.chain, h.closed, h.filtered⟩, fun hs ↦ ⟨hs.1, hs.2.get key⟩⟩

theorem Healthy.apply (h : Healthy F t base) {call : Call} (hcareful : call.careful t = true)
    (hcall : call.apply F t = .ok t') :
    ∃ base', Healthy F t' base' ∧ (t.Sound base → t'.Sound base') := by
  cases call with
  | update blockRoot parentRoot block =>
    rw [Call.apply] at hcall
    cases hup : t.update F blockRoot parentRoot block with
    | error e => simp [hup, Except.map] at hcall
    | ok r =>
      rw [hup] at hcall
      cases hcall
      have hc : blockRoot = parentRoot ∨ t.layers.lookup parentRoot = none ∨
          t.replaceable blockRoot = true := by
        simpa [Call.careful, or_assoc] using hcareful
      obtain ⟨hhealthy, hdisk, hcomplete⟩ := h.update hup hc
      exact ⟨base, hhealthy, fun hs ↦ ⟨hcomplete hs.1, hdisk ▸ hs.2⟩⟩
  | cap root layers =>
    obtain ⟨err, t'', hcap, hgood, -⟩ := h.cap root layers
    rw [Call.apply, hcap] at hcall
    cases hcall
    obtain ⟨base', hhealthy, hpreserves⟩ := hgood hcareful
    exact ⟨base', hhealthy, fun hs ↦ ⟨hpreserves.complete hs.1, hpreserves.coherent hs.2⟩⟩
  | accountRLP root hash | storage root accountHash storageHash =>
    rw [Call.apply] at hcall
    split at hcall
    · cases hcall
      exact ⟨base, h, fun h ↦ h⟩
    · next id _ =>
      cases hcall
      exact ⟨base, h.read id _⟩

theorem Healthy.run (h : Healthy F t base) {calls : List Call} (hcareful : carefulRun F t calls = true)
    (hrun : runCalls F t calls = .ok t') :
    ∃ base', Healthy F t' base' ∧ (t.Sound base → t'.Sound base') := by
  induction calls generalizing t base with
  | nil =>
    cases hrun
    exact ⟨base, h, fun h ↦ h⟩
  | cons call calls ih =>
    obtain ⟨t₁, hcall, hrun⟩ := bind_eq_ok.1 hrun
    rw [carefulRun, Bool.and_eq_true, hcall] at hcareful
    obtain ⟨base₁, h₁, hs₁⟩ := h.apply hcareful.1 hcall
    obtain ⟨base', h', hs'⟩ := ih h₁ hcareful.2 hrun
    exact ⟨base', h', fun hs ↦ hs' (hs₁ hs)⟩

/-- No registered layer of the tree answers a read with the error of a stale layer. -/
def NeverStale (F : BloomFilter) (t : Tree) : Prop :=
  ∀ root id, t.layers.lookup root = some id →
    (∀ hash, (t.accountRLP F id hash).1 ≠ .error .stale) ∧
      ∀ accountHash storageHash, (t.storage F id accountHash storageHash).1 ≠ .error .stale

theorem Healthy.neverStale (h : Healthy F t base) : NeverStale F t := by
  intro root id hid
  obtain ⟨dls, hdls⟩ := h.chain root id hid
  have horigin : ∀ l, t.heap[id]? = some (.diff l) → l.origin = base := fun l hl ↦ (h.covers hid hl hdls).1
  exact ⟨fun hash ↦ read_ne_stale hdls horigin _, fun a s ↦ read_ne_stale hdls horigin _⟩

/-- The reads of a registered layer over a complete disk layer give its flat state, and the fast path
through the filter agrees with the walk. -/
theorem Healthy.read_eq (h : Healthy F t base) (hF : F.NoFalseNegatives) (hs : t.Sound base)
    {root : Hash} {id : LayerId} {dls : List DiffLayer} (hid : t.layers.lookup root = some id)
    (hdls : Chain t.heap base id dls) (key : SnapKey) :
    t.read F id key = t.walk t.heap.length id key ∧ (t.read F id key).1 = .ok (t.flat dls key) := by
  obtain ⟨⟨disk, hdisk, hmarker⟩, hcoherent⟩ := hs
  have hwalk : t.read F id key = t.walk t.heap.length id key :=
    read_eq_walk hF hdls (fun l hl ↦ h.covers hid hl hdls) key
  refine ⟨hwalk, ?_⟩
  rw [hwalk]
  exact walk_eq_flat hdls hdisk hmarker hcoherent key

/-- The registered layers form a stack: no two of them have the same parent. -/
def Stack (t : Tree) : Prop :=
  ∀ e ∈ t.layers.entries, ∀ e' ∈ t.layers.entries, parentOf t.heap e.2 ≠ none →
    parentOf t.heap e.2 = parentOf t.heap e'.2 → e.2 = e'.2

instance (t : Tree) : Decidable t.Stack :=
  inferInstanceAs (Decidable (∀ e ∈ t.layers.entries, ∀ e' ∈ t.layers.entries,
    parentOf t.heap e.2 ≠ none → parentOf t.heap e.2 = parentOf t.heap e'.2 → e.2 = e'.2))

theorem Stack.unique (h : t.Stack) {p id id' : LayerId} (hid : id ∈ t.hanging p)
    (hid' : id' ∈ t.hanging p) : id = id' := by
  obtain ⟨⟨r, hr⟩, hl⟩ := mem_hanging.mp hid
  obtain ⟨⟨r', hr'⟩, hl'⟩ := mem_hanging.mp hid'
  have hp := parentOf_eq_some.mpr hl
  have hp' := parentOf_eq_some.mpr hl'
  exact h ⟨r, id⟩ (mem_entries_iff.mpr hr) ⟨r', id'⟩ (mem_entries_iff.mpr hr') (by simp [hp])
    (hp.trans hp'.symm)

theorem Healthy.unforked_of_stack (h : Healthy F t base) (hstack : t.Stack) (root : Hash)
    (layers : ℤ) : t.unforked root layers = true := by
  unfold unforked
  cases hhead : t.layers.lookup root with
  | none => rfl
  | some head =>
    obtain ⟨layer, hl, -⟩ := h.get hhead
    simp only [hl]
    cases layer with
    | disk l => rfl
    | diff l =>
      simp only
      split
      · rfl
      · cases hdive : dive t.heap (t.allowed l layers - 1).toNat head with
        | none => rfl
        | some cut =>
          obtain ⟨root', ld, hcut, hld⟩ := h.dive_registered hhead hl hdive
          simp only [alone, hld]
          cases hp : t.heap[ld.parent]? with
          | none => rfl
          | some parent =>
            cases parent with
            | disk lp => rfl
            | diff lp =>
              simp only [Bool.or_eq_true]
              refine .inr (List.all_eq_true.mpr fun id hid ↦ ?_)
              exact beq_iff_eq.mpr (hstack.unique hid (mem_hanging.mpr ⟨⟨_, hcut⟩, ld, hld, rfl⟩))

end Tree

open GoEntropy.Snapshot.Tree

/-! ## Live layers -/

/-- In a run of careful calls every registered layer heads a chain of live layers down to the disk
layer, and no read of it finds a stale one. At any point of such a run, a `Cap` keeps this if and only
if it does not cut at a fork. -/
theorem registered_layers_stay_live (F : BloomFilter) {base : DiskLayer} (hbase : base.stale = false)
    (disk : Disk) {calls : List Call} {t : Tree} (hrun : runCalls F (ofDisk base disk) calls = .ok t)
    (hcareful : carefulRun F (ofDisk base disk) calls = true) :
    (t.Live ∧ t.NeverStale F) ∧
      ∀ root layers, ∃ err t', t.cap F root layers = .ok (err, t') ∧
        (t'.Live ↔ t.unforked root layers = true) := by
  obtain ⟨b, h, -⟩ := (healthy_ofDisk hbase disk).run hcareful hrun
  refine ⟨⟨h.live, h.neverStale⟩, fun root layers ↦ ?_⟩
  obtain ⟨err, t', hcap, hgood, hbad⟩ := h.cap root layers
  refine ⟨err, t', hcap, fun hlive ↦ ?_, fun hu ↦ ?_⟩
  · by_contra hu
    exact hbad (by simpa using hu) hlive
  · obtain ⟨base', h', -⟩ := hgood hu
    exact h'.live

namespace Samples

def filter : BloomFilter := ⟨fun added key ↦ added.contains key, 0, 1, 0⟩

def base : DiskLayer := ⟨1, false, none, false⟩

def writes (hash : Hash) (data : Bytes) : Tree.Block :=
  ⟨∅, AList.singleton hash (some data), AList.singleton hash (some (AList.singleton 7 data))⟩

def destructs (hash : Hash) : Tree.Block := ⟨AList.singleton hash (), ∅, ∅⟩

def stack : List Call :=
  [.update 2 1 (writes 10 [1]), .update 3 2 (destructs 10), .update 4 3 (writes 11 [2])]

/-- The stack with a second layer over the second block. -/
def fork : List Call := stack ++ [.update 5 3 (writes 12 [3])]

def after (calls : List Call) : Tree :=
  match runCalls filter (ofDisk base ⟨∅, ∅⟩) calls with
  | .ok t => t
  | .error _ => ofDisk base ⟨∅, ∅⟩

theorem run_after {calls : List Call}
    (h : (runCalls filter (ofDisk base ⟨∅, ∅⟩) calls).isOk = true) :
    runCalls filter (ofDisk base ⟨∅, ∅⟩) calls = .ok (after calls) := by
  unfold after
  cases hrun : runCalls filter (ofDisk base ⟨∅, ∅⟩) calls with
  | ok t => rfl
  | error e => simp [hrun, Except.toBool] at h

end Samples

open Samples

/-- The run that builds a stack and caps it is careful, and its layers are live. -/
theorem registered_layers_stay_live_stack :
    carefulRun filter (ofDisk base ⟨∅, ∅⟩) (stack ++ [.cap 4 1]) = true ∧
      (after (stack ++ [.cap 4 1])).Live := by
  have hcareful : carefulRun filter (ofDisk base ⟨∅, ∅⟩)
      (stack ++ [.cap 4 1]) = true := by decide
  refine ⟨hcareful, ?_⟩
  exact (registered_layers_stay_live filter rfl ⟨∅, ∅⟩
    (run_after (by decide)) hcareful).1.1

/-- Two layers over one block, and a `Cap` that flattens the block below one of them: the other one is
still registered, and reading from it an account that neither it nor the block wrote finds a stale
layer. -/
theorem fork_at_the_cut_goes_stale :
    ∃ t id, runCalls filter (ofDisk base ⟨∅, ∅⟩) (fork ++ [.cap 4 1]) = .ok t ∧
      t.layers.lookup 5 = some id ∧ (t.accountRLP filter id 11).1 = .error .stale := by
  refine ⟨after (fork ++ [.cap 4 1]), 4, run_after ?_, ?_, ?_⟩
  · decide
  · decide
  · decide

/-! ## Reads across a cap -/

/-- Capping a stack over a complete disk layer preserves the reads of every layer that survives, and
before and after it the fast path through the filter agrees with the walk down the layers. -/
theorem cap_preserves_reads {F : BloomFilter} (hF : F.NoFalseNegatives) {base : DiskLayer}
    (hbase : base.stale = false) (hmarker : base.genMarker = none) {disk : Disk}
    (hcoherent : disk.Coherent) {calls : List Call} {t : Tree}
    (hrun : runCalls F (ofDisk base disk) calls = .ok t)
    (hcareful : carefulRun F (ofDisk base disk) calls = true) (hstack : t.Stack) (head : Hash)
    (layers : ℤ) :
    ∃ err t', t.cap F head layers = .ok (err, t') ∧
      ∀ root id', t'.layers.lookup root = some id' → ∃ id, t.layers.lookup root = some id ∧
        (∀ hash, (t'.accountRLP F id' hash).1 = (t.accountRLP F id hash).1) ∧
        (∀ accountHash storageHash, (t'.storage F id' accountHash storageHash).1 =
          (t.storage F id accountHash storageHash).1) ∧
        ∀ key, t.read F id key = t.walk t.heap.length id key ∧
          t'.read F id' key = t'.walk t'.heap.length id' key := by
  have hsound : (ofDisk base disk).Sound 0 := ⟨⟨base, rfl, hmarker⟩, hcoherent⟩
  obtain ⟨b, h, hs⟩ := (healthy_ofDisk hbase disk).run hcareful hrun
  obtain ⟨err, t', hcap, hgood, -⟩ := h.cap head layers
  obtain ⟨b', h', hpreserves⟩ := hgood (h.unforked_of_stack hstack head layers)
  have hs := hs hsound
  have hs' : t'.Sound b' := ⟨hpreserves.complete hs.1, hpreserves.coherent hs.2⟩
  refine ⟨err, t', hcap, fun root id' hid' ↦ ?_⟩
  obtain ⟨id, dls, dls', hid, hdls, hdls', hflat⟩ := hpreserves.flat hs.1 root id' hid'
  have hread := h.read_eq hF hs hid hdls
  have hread' := h'.read_eq hF hs' hid' hdls'
  have heq : ∀ key, (t'.read F id' key).1 = (t.read F id key).1 := by
    intro key
    rw [(hread key).2, (hread' key).2, hflat]
  exact ⟨id, hid, fun hash ↦ heq _, fun a s ↦ heq _, fun key ↦ ⟨(hread key).1, (hread' key).1⟩⟩

/-- Flattening the lower two of three blocks, the second of which destructs what the first wrote. -/
theorem cap_preserves_reads_destruct :
    (after stack).Stack ∧
      ∃ err t', (after stack).cap filter 4 1 = .ok (err, t') ∧
        ∀ root id', t'.layers.lookup root = some id' →
          ∃ id, (after stack).layers.lookup root = some id ∧
            ∀ hash, (t'.accountRLP filter id' hash).1 =
              ((after stack).accountRLP filter id hash).1 := by
  have hF : filter.NoFalseNegatives := fun added key ↦ List.contains_iff_mem.mpr
  have hcoherent : (⟨∅, ∅⟩ : Disk).Coherent := fun _ _ h ↦ by simp at h
  have hstack : (after stack).Stack := by decide
  obtain ⟨err, t', hcap, hreads⟩ := cap_preserves_reads hF rfl rfl hcoherent
    (run_after (by decide)) (by decide) hstack 4 1
  refine ⟨hstack, err, t', hcap, fun root id' hid' ↦ ?_⟩
  obtain ⟨id, hid, haccounts, -⟩ := hreads root id' hid'
  exact ⟨id, hid, haccounts⟩

end GoEntropy.Snapshot
