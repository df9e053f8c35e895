import GoEntropy.Snapshot.Runs

/-!
# What a root stands for

A state root names a flat state: that of the disk layer the content of the store, and that of a block the
state of its parent with the changes of the block on top. However layers are added, flattened, persisted
and read in a careful run, the layer of a root reads as the state that the root names
(`reads_follow_roots`).
-/

namespace GoEntropy.Snapshot

open GoEntropy.Container

/-- The states of the roots agree with a block that is handed to `Update`. -/
def Explains (state : Hash → Flat) : Call → Prop
  | .update blockRoot parentRoot block => blockRoot ≠ parentRoot → ∀ data, block.data = .ok data →
      state blockRoot = data.onTop (state parentRoot)
  | _ => True

namespace Tree

/-- Every registered layer of a healthy tree stands for the state of its root. -/
structure Shows (F : BloomFilter) (state : Hash → Flat) (t : Tree) (base : LayerId) : Prop extends
    Healthy F t base where
  sound : t.Sound base
  flat : ∀ root id dls, t.layers.lookup root = some id → Chain t.heap base id dls → t.flat dls = state root

variable {F : BloomFilter} {t t' : Tree} {base : LayerId} {state : Hash → Flat}

/-- A block is put on top of the state of its parent, and no other state is touched. -/
theorem Shows.update (h : Shows F state t base) {blockRoot parentRoot : Hash} {block : Block}
    {err : Option SnapshotError} (hup : t.update F blockRoot parentRoot block = .ok (err, t'))
    (hstate : Explains state (.update blockRoot parentRoot block)) {root : Hash} {id : LayerId}
    {dls' : List DiffLayer} (hid : t'.layers.lookup root = some id) (hdls' : Chain t'.heap base id dls') :
    t'.flat dls' = state root := by
  unfold Tree.update at hup
  split at hup
  · cases hup
    exact h.flat root id dls' hid hdls'
  next hcycle =>
  split at hup
  · cases hup
    exact h.flat root id dls' hid hdls'
  next parent hparent =>
  split at hup
  · cases hup
  next snap hsnap =>
  cases hup
  rw [lookup_insert_eq_ite] at hid
  split at hid
  · next heq =>
    cases hid
    obtain ⟨-, hparent', hlive, -⟩ := h.newDiffLayer hparent hsnap
    obtain ⟨origin, -, hsnap⟩ := bind_eq_ok.1 hsnap
    obtain ⟨data, hdata, rfl⟩ := map_eq_ok.1 hsnap
    obtain ⟨dls, hdls⟩ := h.chain parentRoot parent hparent
    rw [hdls'.unique (.diff (by simp) hlive (hparent' ▸ Chain.append hdls _)), flat_cons, heq,
      hstate hcycle data hdata]
    exact congrArg _ (h.flat parentRoot parent dls hparent hdls)
  · obtain ⟨dls, hdls⟩ := h.chain root id hid
    rw [hdls'.unique (Chain.append hdls _)]
    exact h.flat root id dls hid hdls

/-- A read fills the cache at most. -/
theorem Shows.read (h : Shows F state t base) (id : LayerId) (key : SnapKey) :
    Shows F state (t.read F id key).2 base := by
  obtain ⟨h', hs⟩ := h.toHealthy.read id key
  refine ⟨h', hs h.sound, ?_⟩
  obtain heq | heq := t.read_snd id key <;> rw [heq]
  · exact h.flat
  · have hcontent : (t.disk.get key).2.content = t.disk.content := by
      unfold Disk.get
      split <;> rfl
    unfold Tree.flat
    rw [hcontent]
    exact h.flat

theorem Shows.apply (h : Shows F state t base) {call : Call} (hcareful : call.careful t = true)
    (hstate : Explains state call) (hcall : call.apply F t = .ok t') : ∃ base', Shows F state t' base' := by
  cases call with
  | update blockRoot parentRoot block =>
    obtain ⟨⟨err, t₁⟩, hup, rfl⟩ := map_eq_ok.1 hcall
    obtain ⟨h', hdisk, hcomplete⟩ := h.toHealthy.update hup (by simpa [Call.careful, or_assoc] using hcareful)
    exact ⟨base, h', ⟨hcomplete h.sound.1, hdisk ▸ h.sound.2⟩, fun _ _ _ ↦ h.update hup hstate⟩
  | cap root layers =>
    obtain ⟨err, t₁, hcap, hgood, -⟩ := h.cap root layers
    rw [Call.apply, hcap] at hcall
    cases hcall
    obtain ⟨base', h', hp⟩ := hgood hcareful
    refine ⟨base', h', ⟨hp.complete h.sound.1, hp.coherent h.sound.2⟩, fun r id' dls₁ hr hdls₁ ↦ ?_⟩
    obtain ⟨id, dls, dls', hid, hdls, hdls', hflat⟩ := hp.flat h.sound.1 r id' hr
    rw [hdls₁.unique hdls', hflat, h.flat r id dls hid hdls]
  | accountRLP root hash | storage root accountHash storageHash =>
    rw [Call.apply] at hcall
    split at hcall
    · cases hcall
      exact ⟨base, h⟩
    · cases hcall
      exact ⟨base, h.read _ _⟩

theorem Shows.run (h : Shows F state t base) {calls : List Call} (hcareful : carefulRun F t calls = true)
    (hstate : ∀ call ∈ calls, Explains state call) (hrun : runCalls F t calls = .ok t') :
    ∃ base', Shows F state t' base' := by
  induction calls generalizing t base with
  | nil =>
    cases hrun
    exact ⟨base, h⟩
  | cons call calls ih =>
    obtain ⟨t₁, hcall, hrun⟩ := bind_eq_ok.1 hrun
    rw [carefulRun, Bool.and_eq_true, hcall] at hcareful
    obtain ⟨hfirst, hrest⟩ := List.forall_mem_cons.1 hstate
    obtain ⟨base₁, h₁⟩ := h.apply hcareful.1 hfirst hcall
    exact ih h₁ hcareful.2 hrest hrun

end Tree

open GoEntropy.Snapshot.Tree

/-- **A layer reads as the state that its root names**, whatever careful calls were made before. -/
theorem reads_follow_roots {F : BloomFilter} (hF : F.NoFalseNegatives) {base : DiskLayer}
    (hbase : base.stale = false) (hmarker : base.genMarker = none) {disk : Disk}
    (hcoherent : disk.Coherent) (state : Hash → Flat) (hdisk : disk.content = state base.root)
    {calls : List Call} (hstate : ∀ call ∈ calls, Explains state call) {t : Tree}
    (hrun : runCalls F (ofDisk base disk) calls = .ok t)
    (hcareful : carefulRun F (ofDisk base disk) calls = true) {root : Hash} {id : LayerId}
    (hid : t.layers.lookup root = some id) :
    (∀ hash, (t.accountRLP F id hash).1 = .ok (state root (.account hash))) ∧
      ∀ accountHash storageHash, (t.storage F id accountHash storageHash).1 =
        .ok (state root (.storage accountHash storageHash)) := by
  have hstart : Shows F state (ofDisk base disk) 0 := by
    refine ⟨healthy_ofDisk hbase disk, ⟨⟨base, rfl, hmarker⟩, hcoherent⟩, fun r i dls hr hdls ↦ ?_⟩
    obtain ⟨rfl, rfl⟩ := lookup_singleton.1 hr
    obtain ⟨-, rfl, -⟩ := hdls.of_disk rfl
    exact hdisk
  obtain ⟨b, h⟩ := hstart.run hcareful hstate hrun
  obtain ⟨dls, hdls⟩ := h.chain root id hid
  have hread (key : SnapKey) : (t.read F id key).1 = .ok (state root key) := by
    rw [(h.read_eq hF h.sound hid hdls key).2, h.flat root id dls hid hdls]
  exact ⟨fun hash ↦ hread _, fun a s ↦ hread _⟩

open Samples

/-- A block that was persisted is read from the store. -/
theorem reads_follow_roots_persisted : ∃ t id,
    runCalls filter (ofDisk base ⟨∅, ∅⟩) [.update 2 1 (writes 10 [1]), .cap 2 0] = .ok t ∧
      t.layers.lookup 2 = some id ∧ (t.accountRLP filter id 10).1 = .ok [1] := by
  have hrun := @run_after [.update 2 1 (writes 10 [1]), .cap 2 0] (by decide)
  obtain ⟨data, hdata⟩ : ∃ data, (writes 10 [1]).data = .ok data := ⟨_, rfl⟩
  have hreads := @reads_follow_roots filter (fun _ _ ↦ List.contains_iff_mem.2) base rfl rfl ⟨∅, ∅⟩
    (fun _ _ h ↦ by simp at h)
    (fun root ↦ if root = 2 then data.onTop (Disk.content ⟨∅, ∅⟩) else Disk.content ⟨∅, ∅⟩) rfl _ ?_ _ hrun
    (by decide) 2
  · cases hdata
    exact ⟨_, 2, hrun, by decide, ((hreads (by decide)).1 10).trans (by decide)⟩
  · refine List.forall_mem_cons.2 ⟨fun _ data' h ↦ ?_, by simp [Explains]⟩
    rw [Except.ok.inj (h.symm.trans hdata)]
    rfl

end GoEntropy.Snapshot
