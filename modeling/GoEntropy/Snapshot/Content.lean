import GoEntropy.Container.Maps
import GoEntropy.Snapshot.Layer

/-!
# What layers mean

A disk layer stands for a flat state, the function from keys to data that its store holds. A diff
layer stands for a change of flat states: it answers some keys and passes the others down. In these
terms flattening is composition (`onTop_mergeInto`), persisting is application (`content_persist`),
and the bloom keys of a layer cover every key it answers (`resolve_eq_none_of_notMem`).
-/

namespace GoEntropy.Snapshot

open GoEntropy.Container SnapKey

/-- A flat state. An absent item reads as the empty string. -/
abbrev Flat := SnapKey → Bytes

namespace DiffData

variable (d parent : DiffData) (key : SnapKey)

/-- The flat state over another one. -/
def onTop (below : Flat) : Flat := fun key ↦ (d.resolve key).getD (below key)

/-! ## Merging -/

theorem lookup_setSlots (combo slots : HashMap Bytes) (hash : Hash) :
    (setSlots combo slots).lookup hash = (slots.lookup hash).or (combo.lookup hash) := by
  unfold setSlots
  rw [foldl_entries (fun m k ↦ AList.lookup k m) (fun v _ ↦ some v)
    fun m e k ↦ lookup_insert_eq_ite m e.1 k e.2]
  cases slots.lookup hash <;> rfl

theorem known_destruct (hash : Hash) :
    (d.destruct hash).known key = if key.owner = hash then none else d.known key := by
  cases key with
  | account h =>
    exact lookup_erase_eq_ite d.accountData hash h
  | storage a s =>
    show ((d.storageData.erase hash).lookup a).bind _ = _
    rw [lookup_erase_eq_ite]
    by_cases h : a = hash
    · simp [owner, h]
    · simp [owner, known, h]

theorem known_setAccount (e : (_ : Hash) × Bytes) (hash : Hash) :
    (d.setAccount e).known (.account hash) =
      if hash = e.1 then some e.2 else d.known (.account hash) :=
  lookup_insert_eq_ite d.accountData e.1 hash e.2

/-- The slots the layer holds for an account, as a function. -/
def slotsAt (accountHash : Hash) : Hash → Option Bytes :=
  fun storageHash ↦ d.known (.storage accountHash storageHash)

variable (e : (_ : Hash) × HashMap Bytes)

theorem slotsAt_setStorage (accountHash : Hash) :
    (d.setStorage e).slotsAt accountHash =
      if accountHash = e.1 then fun s ↦ (e.2.lookup s).or (d.slotsAt accountHash s)
      else d.slotsAt accountHash := by
  funext s
  unfold setStorage
  cases hl : d.storageData.lookup e.1 with
  | none =>
    by_cases h : accountHash = e.1
    · subst h
      simp [slotsAt, known, hl]
    · simp [slotsAt, known, h]
  | some combo =>
    by_cases h : accountHash = e.1
    · subst h
      simp [slotsAt, known, hl, lookup_setSlots]
    · simp [slotsAt, known, h]

@[simp] theorem setAccount_storageData (e : (_ : Hash) × Bytes) :
    (d.setAccount e).storageData = d.storageData := rfl

@[simp] theorem setAccount_destructSet (e : (_ : Hash) × Bytes) :
    (d.setAccount e).destructSet = d.destructSet := rfl

@[simp] theorem setStorage_accountData :
    (d.setStorage e).accountData = d.accountData := by
  unfold setStorage
  split <;> rfl

@[simp] theorem setStorage_destructSet :
    (d.setStorage e).destructSet = d.destructSet := by
  unfold setStorage
  split <;> rfl

theorem mem_foldl_destruct (hashes : List Hash) (hash : Hash) :
    hash ∈ (hashes.foldl destruct d).destructSet ↔ hash ∈ hashes ∨ hash ∈ d.destructSet := by
  have hstep : ∀ (d : DiffData) (a i : Hash), decide (i ∈ (d.destruct a).destructSet) =
      if id i = a then true else decide (i ∈ d.destructSet) := by
    intro d a i
    by_cases h : i = a <;> simp [destruct]
  have hfold := foldl_reset (fun (d : DiffData) hash ↦ decide (hash ∈ d.destructSet)) id true hstep
    hashes d hash
  by_cases h : hash ∈ hashes
  · simpa [h] using hfold
  · simpa [h] using hfold

/-- What a merged layer holds: the child's item, else the parent's unless the child destructed its
account. -/
theorem known_mergeInto :
    (d.mergeInto parent).known key =
      (d.known key).or (if key.owner ∈ d.destructSet then none else parent.known key) := by
  set cleared := d.destructSet.keys.foldl destruct parent with hcleared
  set written := d.accountData.entries.foldl setAccount cleared with hwritten
  have hbelow : cleared.known key = if key.owner ∈ d.destructSet then none else parent.known key := by
    have hfold := foldl_reset known owner none (fun d hash key ↦ d.known_destruct key hash)
      d.destructSet.keys parent key
    simpa [AList.mem_keys] using hfold
  cases key with
  | account h =>
    have haccounts : (d.mergeInto parent).accountData = written.accountData :=
      foldl_eq_of_step DiffData.accountData setStorage_accountData d.storageData.entries written
    have hfold := foldl_entries (fun (d : DiffData) h ↦ d.known (.account h)) (fun v _ ↦ some v)
      known_setAccount d.accountData cleared h
    show (d.mergeInto parent).accountData.lookup h = _
    rw [haccounts, ← hbelow]
    refine hfold.trans ?_
    show _ = (d.accountData.lookup h).or _
    cases d.accountData.lookup h <;> rfl
  | storage a s =>
    have hslots : written.storageData = cleared.storageData :=
      foldl_eq_of_step DiffData.storageData setAccount_storageData d.accountData.entries cleared
    have hfold := foldl_entries slotsAt (fun slots old s ↦ (slots.lookup s).or (old s))
      slotsAt_setStorage d.storageData written a
    have hwritten : written.slotsAt a s = cleared.known (.storage a s) := by
      show (written.storageData.lookup a).bind _ = (cleared.storageData.lookup a).bind _
      rw [hslots]
    rw [← hbelow, ← hwritten]
    refine (congrFun hfold s).trans ?_
    show _ = ((d.storageData.lookup a).bind _).or _
    cases d.storageData.lookup a <;> rfl

theorem mem_mergeInto (hash : Hash) :
    hash ∈ (d.mergeInto parent).destructSet ↔ hash ∈ d.destructSet ∨ hash ∈ parent.destructSet := by
  unfold mergeInto
  rw [foldl_eq_of_step DiffData.destructSet setStorage_destructSet,
    foldl_eq_of_step DiffData.destructSet setAccount_destructSet, mem_foldl_destruct]
  rfl

theorem resolve_mergeInto :
    (d.mergeInto parent).resolve key = (d.resolve key).or (parent.resolve key) := by
  unfold resolve
  rw [known_mergeInto]
  simp only [mem_mergeInto]
  cases d.known key with
  | some data => rfl
  | none =>
    by_cases hd : key.owner ∈ d.destructSet
    · simp [hd]
    · simp [hd]

/-! ## Bloom keys -/

variable (F : BloomFilter)

theorem mem_bloomKeys {x : BitVec 64} :
    x ∈ d.bloomKeys F ↔
      (∃ hash ∈ d.destructSet, F.destructKey hash = x) ∨
        ∃ key, (d.known key).isSome ∧ F.itemKey key = x := by
  unfold bloomKeys
  simp only [List.mem_append, List.mem_map, List.mem_flatMap, or_assoc]
  refine or_congr .rfl ?_
  constructor
  · rintro (⟨hash, hmem, rfl⟩ | ⟨⟨a, slots⟩, he, s, hs, rfl⟩)
    · exact ⟨.account hash, AList.lookup_isSome.mpr hmem, rfl⟩
    · refine ⟨.storage a s, ?_, rfl⟩
      rw [known, mem_entries_iff.mp he]
      exact AList.lookup_isSome.mpr hs
  · rintro ⟨key, hknown, rfl⟩
    cases key with
    | account hash => exact .inl ⟨hash, AList.lookup_isSome.mp hknown, rfl⟩
    | storage a s =>
      rw [known] at hknown
      cases hl : d.storageData.lookup a with
      | none => simp [hl] at hknown
      | some slots =>
        rw [hl] at hknown
        exact .inr ⟨⟨a, slots⟩, mem_entries_iff.mpr hl, s, AList.lookup_isSome.mp hknown, rfl⟩

/-- A layer whose filter does not hold the keys of an item has no answer for it. -/
theorem resolve_eq_none_of_notMem (hitem : F.itemKey key ∉ d.bloomKeys F)
    (hdestruct : F.destructKey key.owner ∉ d.bloomKeys F) : d.resolve key = none := by
  unfold resolve
  cases hk : d.known key with
  | some data => exact absurd ((mem_bloomKeys d F).mpr (.inr ⟨key, by simp [hk], rfl⟩)) hitem
  | none =>
    refine if_neg fun hmem ↦ hdestruct ?_
    exact (mem_bloomKeys d F).mpr (.inl ⟨_, hmem, rfl⟩)

theorem bloomKeys_mergeInto_subset :
    (d.mergeInto parent).bloomKeys F ⊆ d.bloomKeys F ++ parent.bloomKeys F := by
  intro x hx
  rw [List.mem_append, mem_bloomKeys, mem_bloomKeys]
  rcases (mem_bloomKeys _ F).mp hx with ⟨hash, hmem, rfl⟩ | ⟨key, hknown, rfl⟩
  · rcases (mem_mergeInto d parent hash).mp hmem with h | h
    · exact .inl (.inl ⟨hash, h, rfl⟩)
    · exact .inr (.inl ⟨hash, h, rfl⟩)
  · rw [known_mergeInto] at hknown
    cases hd : d.known key with
    | some data => exact .inl (.inr ⟨key, by simp [hd], rfl⟩)
    | none =>
      refine .inr (.inr ⟨key, ?_, rfl⟩)
      rw [hd] at hknown
      split at hknown
      · simp at hknown
      · exact hknown

end DiffData

/-! ## Persisting -/

namespace Disk

variable (d : Disk)

/-- Every cached answer is what the store holds. -/
def Coherent : Prop := ∀ key blob, d.cache.lookup key = some blob → blob = d.content key

theorem Coherent.get_eq {d : Disk} (h : d.Coherent) (key : SnapKey) :
    (d.get key).1 = d.content key := by
  unfold get
  cases hc : d.cache.lookup key with
  | some blob => exact h key blob hc
  | none => rfl

/-- A step that writes one key, in the store and in the cache, keeps the cache coherent. -/
theorem Coherent.step {d d' : Disk} (h : d.Coherent) {key : SnapKey} {blob : Bytes} {cached : Option Bytes}
    (hcontent : ∀ k, d'.content k = if k = key then blob else d.content k)
    (hcache : ∀ k, d'.cache.lookup k = if k = key then cached else d.cache.lookup k)
    (hcached : ∀ b ∈ cached, b = blob) : d'.Coherent := by
  intro k b hb
  rw [hcache] at hb
  rw [hcontent]
  split at hb
  · next hk =>
    rw [if_pos hk]
    exact hcached b hb
  · next hk =>
    rw [if_neg hk]
    exact h k b hb

theorem Coherent.get {d : Disk} (h : d.Coherent) (key : SnapKey) : (d.get key).2.Coherent := by
  unfold Disk.get
  cases hc : d.cache.lookup key with
  | some blob => exact h
  | none =>
    have hcontent : ∀ k, d.content k = if k = key then d.content key else d.content k := by
      intro k
      split
      · next hk => rw [hk]
      · rfl
    exact h.step hcontent (lookup_insert_eq_ite d.cache key · _) (by simp)

section Cells

variable (cache : AList fun _ : SnapKey ↦ Bytes) (key k : SnapKey)

theorem content_insert (blob : Bytes) :
    (⟨d.diskdb.insert key blob, cache⟩ : Disk).content k = if k = key then blob else d.content k := by
  show ((d.diskdb.insert key blob).lookup k).getD [] = _
  rw [lookup_insert_eq_ite]
  split <;> rfl

theorem content_erase :
    (⟨d.diskdb.erase key, cache⟩ : Disk).content k = if k = key then [] else d.content k := by
  show ((d.diskdb.erase key).lookup k).getD [] = _
  rw [lookup_erase_eq_ite]
  split <;> rfl

end Cells

theorem coherent_dropKey (key : SnapKey) (h : d.Coherent) : (d.dropKey key).Coherent :=
  h.step (d.content_erase _ key) (lookup_erase_eq_ite d.cache key) (by simp)

theorem mem_slotsOf {hash : Hash} {key : SnapKey} :
    key ∈ d.slotsOf hash ↔ key ∈ d.diskdb ∧ ∃ s, key = .storage hash s := by
  unfold slotsOf
  rw [List.mem_filter]
  refine and_congr .rfl ?_
  cases key <;> simp

theorem content_eq_nil_of_notMem {key : SnapKey} (h : key ∉ d.diskdb) : d.content key = [] := by
  unfold content
  rw [AList.lookup_eq_none.mpr h]
  rfl

theorem content_destroy (hash : Hash) (key : SnapKey) :
    (d.destroy hash).content key = if key.owner = hash then [] else d.content key := by
  unfold destroy
  rw [foldl_reset content id [] fun d a k ↦ show (d.dropKey a).content k = _ from d.content_erase _ a k,
    content_erase]
  simp only [mem_slotsOf]
  cases key with
  | account h => by_cases hh : h = hash <;> simp [owner, hh]
  | storage a s =>
    by_cases ha : a = hash
    · subst ha
      by_cases hmem : storage a s ∈ d.diskdb
      · simp [hmem, owner]
      · simp [d.content_eq_nil_of_notMem hmem]
    · simp [ha, owner]

theorem coherent_destroy (hash : Hash) (h : d.Coherent) : (d.destroy hash).Coherent := by
  refine foldl_keeps Coherent (fun d ↦ d.coherent_dropKey) _ ?_
  exact h.step (d.content_erase _ (.account hash)) (lookup_insert_eq_ite d.cache _ · []) (by simp)

theorem content_writeAccount (e : (_ : Hash) × Bytes) (key : SnapKey) :
    (d.writeAccount e).content key = if key = .account e.1 then e.2 else d.content key :=
  d.content_insert _ (.account e.1) key e.2

theorem coherent_writeAccount (e : (_ : Hash) × Bytes) (h : d.Coherent) :
    (d.writeAccount e).Coherent :=
  h.step (d.content_writeAccount e) (lookup_insert_eq_ite d.cache _ · e.2) (by simp)

variable (accountHash : Hash)

theorem content_writeSlot (e : (_ : Hash) × Bytes) (key : SnapKey) :
    (d.writeSlot accountHash e).content key =
      if key = .storage accountHash e.1 then e.2 else d.content key := by
  unfold writeSlot
  split
  · exact d.content_insert _ _ key e.2
  · next hlen =>
    -- A slot without data is deleted, and reads as empty.
    rw [List.eq_nil_of_length_eq_zero (show e.2.length = 0 by omega)]
    exact d.content_erase _ _ key

theorem coherent_writeSlot (e : (_ : Hash) × Bytes) (h : d.Coherent) :
    (d.writeSlot accountHash e).Coherent := by
  unfold writeSlot
  split
  · exact h.step (d.content_insert _ _ · e.2) (lookup_insert_eq_ite d.cache _ · e.2) (by simp)
  · exact h.step (d.content_erase _ _) (lookup_insert_eq_ite d.cache _ · []) (by simp)

end Disk

namespace DiskLayer

variable (l : DiskLayer) (bottom : DiffData) (d : Disk)

theorem coherent_writeStorage (e : (_ : Hash) × HashMap Bytes) (h : d.Coherent) :
    (l.writeStorage d e).Coherent := by
  unfold writeStorage
  split
  · exact foldl_keeps Disk.Coherent (fun d ↦ d.coherent_writeSlot _) _ h
  · exact h

theorem coherent_persist (h : d.Coherent) : (l.persist bottom d).Coherent := by
  refine foldl_keeps Disk.Coherent (l.coherent_writeStorage) _ ?_
  refine foldl_keeps Disk.Coherent (fun d ↦ d.coherent_writeAccount) _ ?_
  exact foldl_keeps Disk.Coherent (fun d ↦ d.coherent_destroy) _ h

/-- The slots a store holds for an account, as a function. -/
def slotsAt (d : Disk) (accountHash : Hash) : Hash → Bytes :=
  fun storageHash ↦ d.content (.storage accountHash storageHash)

variable {l}

theorem writeStorage_eq (hl : l.genMarker = none) (e : (_ : Hash) × HashMap Bytes) :
    l.writeStorage d e = e.2.entries.foldl (Disk.writeSlot e.1) d := by
  have hcovers : l.covers (hashBytes e.1) = true := by rw [covers, hl]
  have hslots : (fun slot : (_ : Hash) × Bytes ↦ l.coversSlot e.1 slot.1) = fun _ ↦ true := by
    funext slot
    rw [coversSlot, hl]
  rw [writeStorage, hcovers, if_pos rfl, hslots, List.filter_true]

theorem slotsAt_writeStorage (hl : l.genMarker = none) (e : (_ : Hash) × HashMap Bytes)
    (accountHash : Hash) :
    slotsAt (l.writeStorage d e) accountHash =
      if accountHash = e.1 then fun s ↦ (e.2.lookup s).getD (slotsAt d accountHash s)
      else slotsAt d accountHash := by
  funext s
  rw [writeStorage_eq d hl]
  split
  · next ha =>
    subst ha
    have hstep : ∀ (d : Disk) (slot : (_ : Hash) × Bytes) (s : Hash),
        slotsAt (d.writeSlot e.1 slot) e.1 s = if s = slot.1 then slot.2 else slotsAt d e.1 s := by
      intro d slot s
      refine (d.content_writeSlot e.1 slot _).trans ?_
      by_cases hs : s = slot.1 <;> simp [slotsAt]
    rw [foldl_entries (fun d ↦ slotsAt d e.1) (fun v _ ↦ v) hstep]
    show _ = (e.2.lookup s).getD _
    cases e.2.lookup s <;> rfl
  · next ha =>
    refine foldl_eq_of_step (fun d ↦ slotsAt d accountHash s) (fun d slot ↦ ?_) _ d
    refine (d.content_writeSlot e.1 slot _).trans (if_neg ?_)
    simp [ha]

theorem content_persist (hl : l.genMarker = none) :
    (l.persist bottom d).content = bottom.onTop d.content := by
  have hcovers : ∀ key : Bytes, l.covers key = true := by
    intro key
    rw [covers, hl]
  set destroyed := bottom.destructSet.keys.foldl .destroy d with hdestroyed
  set written := bottom.accountData.entries.foldl .writeAccount destroyed with hwritten
  have hpersist : l.persist bottom d = bottom.storageData.entries.foldl l.writeStorage written := by
    unfold persist
    simp only [hcovers, List.filter_true]
    rfl
  have hbelow : ∀ key, destroyed.content key =
      if key.owner ∈ bottom.destructSet then [] else d.content key := by
    intro key
    rw [foldl_reset Disk.content owner [] fun d a k ↦ d.content_destroy a k]
    simp [AList.mem_keys]
  have hover : ∀ key, bottom.onTop d.content key = (bottom.known key).getD (destroyed.content key) := by
    intro key
    rw [hbelow, DiffData.onTop, DiffData.resolve]
    cases bottom.known key with
    | some data => rfl
    | none => by_cases hmem : key.owner ∈ bottom.destructSet <;> simp [hmem]
  funext key
  rw [hpersist, hover]
  cases key with
  | account h =>
    have hstep : ∀ (d : Disk) (e : (_ : Hash) × Bytes) (h : Hash),
        (d.writeAccount e).content (.account h) =
          if h = e.1 then e.2 else d.content (.account h) := by
      intro d e h
      rw [Disk.content_writeAccount]
      by_cases hh : h = e.1 <;> simp
    have hrest : ∀ (d : Disk) (e : (_ : Hash) × HashMap Bytes),
        (l.writeStorage d e).content (.account h) = d.content (.account h) := by
      intro d e
      rw [writeStorage_eq d hl]
      refine foldl_eq_of_step (fun d ↦ d.content (.account h)) (fun d slot ↦ ?_) _ d
      exact (d.content_writeSlot e.1 slot _).trans (if_neg (by simp))
    rw [foldl_eq_of_step (fun d : Disk ↦ d.content (.account h)) hrest,
      foldl_entries (fun (d : Disk) h ↦ d.content (.account h)) (fun v _ ↦ v) hstep]
    show _ = (bottom.accountData.lookup h).getD _
    cases bottom.accountData.lookup h <;> rfl
  | storage a s =>
    have hkeep : written.content (.storage a s) = destroyed.content (.storage a s) := by
      refine foldl_eq_of_step (fun d ↦ d.content (.storage a s)) (fun d e ↦ ?_) _ destroyed
      exact (d.content_writeAccount e _).trans (if_neg (by simp))
    have hfold := foldl_entries slotsAt (fun slots old s ↦ (slots.lookup s).getD (old s))
      (fun d ↦ slotsAt_writeStorage d hl) bottom.storageData written a
    refine (congrFun hfold s).trans ?_
    rw [← hkeep]
    show _ = ((bottom.storageData.lookup a).bind _).getD _
    cases bottom.storageData.lookup a <;> rfl

end DiskLayer

end GoEntropy.Snapshot
