import GoEntropy.Snapshot.Chain
import GoEntropy.Snapshot.FastIterator

/-!
# The iterators over a stack of layers

The iterators that `newFastIterator` makes for a stack hold, layer by layer, the hashes the layers answer
for. The owner of a hash is therefore the first layer that answers for it, and what it reads there is what
a walk down the stack reads (`Tree.newFastIterator_spec`).

A slot that a layer deleted is among its hashes, and so is an account it destructed. The slots of such an
account that it did not write again are not, but nothing below is asked for them.
-/

namespace GoEntropy.Snapshot

open GoEntropy.Container Target List

/-! ## The hashes of a layer -/

theorem pairwise_lt_insertionSort {hashes : List Hash} (h : hashes.Nodup) :
    (hashes.insertionSort (· ≤ ·)).Pairwise (· < ·) := by
  have hne := (hashes.perm_insertionSort (· ≤ ·)).nodup_iff.2 h
  exact (hne.and (pairwise_insertionSort (· ≤ ·) hashes)).imp fun h ↦ BitVec.lt_of_le_ne h.2 h.1

theorem mem_seekFrom {hashes : List Hash} (hsorted : hashes.Pairwise (· < ·)) {seek h : Hash} :
    h ∈ seekFrom hashes seek ↔ h ∈ hashes ∧ seek ≤ h := by
  obtain ⟨⟨n, u⟩, hsearch⟩ : ∃ r, search (fun i ↦ hashes[i]?.all (seek ≤ ·)) (fun _ s ↦ s)
    hashes.length () = r := ⟨_, rfl⟩
  obtain ⟨-, hn, hbelow, hat, -⟩ := searchFrom_spec (fun _ _ ↦ trivial)
    (fun _ _ _ _ ↦ trivial) (by omega) (Nat.zero_le _) hsearch
  rw [seekFrom, hsearch]
  have hdrop : ∀ k ∈ hashes.drop n, seek ≤ k := by
    intro k hk
    obtain ⟨u, hu, -, hku⟩ := mem_drop_of_pairwise hsorted hk
    grind
  have htake : ∀ k ∈ hashes.take n, ¬ seek ≤ k := by
    intro k hk
    obtain ⟨m, u, rfl, hu, -, hku⟩ := mem_take_of_pairwise hsorted hn hk
    grind
  constructor
  · exact fun h ↦ ⟨mem_of_mem_drop h, hdrop _ h⟩
  · rintro ⟨hmem, hle⟩
    rw [← take_append_drop n hashes] at hmem
    obtain hmem | hmem := mem_append.1 hmem
    · exact absurd hle (htake _ hmem)
    · exact hmem

namespace DiffData

variable (d : DiffData) (target : Target) {h : Hash}

/-- The hashes an iterator over the layer walks over, and whether nothing below is to be asked. -/
def listed : List Hash × Bool :=
  match target with
  | .accounts => (d.accountList, false)
  | .slots account => d.storageList account

/-- What an iterator reads at a hash. -/
def value (h : Hash) : Option Bytes :=
  match target with
  | .accounts => d.known (.account h)
  | .slots account => (d.known (.storage account h)).bind fun blob ↦ if blob = [] then none else some blob

theorem listed_sorted : (d.listed target).1.Pairwise (· < ·) := by
  cases target with
  | accounts =>
    refine pairwise_lt_insertionSort (nodup_append.2 ⟨d.accountData.keys_nodup, ?_, ?_⟩)
    · exact d.destructSet.keys_nodup.filter _
    · rintro k hk _ hk' rfl
      simp only [mem_filter, decide_eq_true_eq] at hk'
      exact hk'.2 hk
  | slots account =>
    rw [listed, storageList]
    cases d.storageData.lookup account with
    | none => exact .nil
    | some slots => exact pairwise_lt_insertionSort slots.keys_nodup

theorem mem_accountList : h ∈ d.accountList ↔ (d.known (.account h)).isSome ∨ h ∈ d.destructSet := by
  simp only [accountList, mem_insertionSort, mem_append, mem_filter,
    decide_eq_true_eq, known, AList.lookup_isSome]
  tauto

theorem mem_storageList {account : Hash} :
    h ∈ (d.storageList account).1 ↔ (d.known (.storage account h)).isSome := by
  rw [storageList, known]
  cases d.storageData.lookup account with
  | none => simp
  | some slots =>
    simp [AList.lookup_isSome, AList.mem_keys]

theorem storageList_snd (account : Hash) : (d.storageList account).2 = decide (account ∈ d.destructSet) := by
  rw [storageList]
  cases d.storageData.lookup account <;> rfl

/-- A hash that is listed is answered for, and the iterator reads the answer. -/
theorem resolve_of_mem (hmem : h ∈ (d.listed target).1) : ∃ data, d.resolve (target.key h) = some data ∧
    (∀ blob, d.value target h = some blob → data = blob) ∧ (data ≠ [] → d.value target h = some data) := by
  cases target with
  | accounts =>
    rw [resolve, value]
    cases hknown : d.known (.account h) with
    | some blob => exact ⟨blob, by simp [key, hknown], by simp, by simp⟩
    | none =>
      have hgone : h ∈ d.destructSet := by simpa [hknown] using d.mem_accountList.1 hmem
      exact ⟨[], by simp [key, hknown, SnapKey.owner, hgone], by simp, by simp⟩
  | slots account =>
    obtain ⟨blob, hknown⟩ := Option.isSome_iff_exists.1 (d.mem_storageList.1 hmem)
    rw [resolve, value]
    simp only [key, hknown, Option.bind_some]
    refine ⟨blob, rfl, fun b hb ↦ ?_, fun hne ↦ if_neg hne⟩
    split at hb
    · cases hb
    · exact Option.some.inj hb

/-- A hash that is not listed is answered for only if nothing below is to be asked, and then it is gone. -/
theorem resolve_of_notMem (hmem : h ∉ (d.listed target).1) :
    d.resolve (target.key h) = if (d.listed target).2 then some [] else none := by
  cases target with
  | accounts =>
    obtain ⟨hknown, hkept⟩ := not_or.1 (mt d.mem_accountList.2 hmem)
    rw [resolve]
    simp only [key, Option.not_isSome_iff_eq_none.1 hknown]
    exact if_neg hkept
  | slots account =>
    have hknown := Option.not_isSome_iff_eq_none.1 (mt d.mem_storageList.2 hmem)
    rw [resolve]
    simp only [key, hknown, listed, storageList_snd, decide_eq_true_eq]
    rfl

end DiffData

/-! ## The entries of the store -/

namespace Disk

variable (d : Disk) (target : Target) {h : Hash} {blob : Bytes}

theorem entry_eq_some {e : (_ : SnapKey) × Bytes} : target.entry e = some (h, blob) ↔ e = ⟨target.key h, blob⟩ := by
  obtain ⟨key, data⟩ := e
  cases target with
  | accounts => cases key <;> simp [entry, key]
  | slots account =>
    cases key with
    | account hash => simp [entry, key]
    | storage a s =>
      simp [entry, key, heq_eq_eq, and_assoc]

theorem mem_entriesOf : (h, blob) ∈ d.entriesOf target ↔ d.diskdb.lookup (target.key h) = some blob := by
  simp [entriesOf, entry_eq_some, mem_entries_iff]

theorem entriesOf_nodup : ((d.entriesOf target).map Prod.fst).Nodup := by
  refine pairwise_map.2 (pairwise_filterMap.2 ?_)
  refine (nodupKeys_iff_pairwise.1 d.diskdb.nodupKeys).imp fun {e e'} hne ↦ ?_
  rintro ⟨h, blob⟩ he ⟨h', blob'⟩ he' rfl
  rw [entry_eq_some] at he he'
  exact hne (he ▸ he' ▸ rfl)

theorem find_entriesOf (hlookup : d.diskdb.lookup (target.key h) = some blob) :
    (d.entriesOf target).find? (·.1 == h) = some (h, blob) := by
  have hmem := (d.mem_entriesOf target).2 hlookup
  obtain ⟨⟨h', blob'⟩, hfind⟩ := Option.isSome_iff_exists.1
    (find?_isSome (p := (·.1 == h)).2 ⟨_, hmem, beq_self_eq_true h⟩)
  obtain rfl : h' = h := by simpa using find?_some hfind
  have hlookup' := (d.mem_entriesOf target).1 (mem_of_find?_eq_some hfind)
  rw [hfind, Option.some.inj (hlookup'.symm.trans hlookup)]

end Disk

/-! ## The iterators of a stack -/

/-- The diff layers from a layer downwards. -/
def diffIds (heap : Heap) : (fuel : Nat) → LayerId → List LayerId
  | 0, _ => []
  | fuel + 1, id =>
    match heap[id]? with
    | some (.diff l) => id :: diffIds heap fuel l.parent
    | _ => []

/-- What an iterator over the layer at a depth reads. -/
def Tree.valueAt (t : Tree) (target : Target) (dls : List DiffLayer) (depth : Nat) (h : Hash) : Option Bytes :=
  match dls[depth]? with
  | some l => l.value target h
  | none => t.disk.diskdb.lookup (target.key h)

/-- What a source holds for a hash: the layer among `ids` as it was in `heap`, or the entries of the store. -/
def Serves (heap : Heap) (ids : List LayerId) (target : Target) (V : Nat → Hash → Option Bytes) :
    Source → Nat → Hash → Prop
  | .diff id, p, h => id ∈ ids ∧ ∃ l, heap[id]? = some (.diff l) ∧ h ∈ (l.listed target).1 ∧
      V p h = l.value target h
  | .disk entries, p, h => ∃ blob, entries.find? (·.1 == h) = some (h, blob) ∧ V p h = some blob

namespace Tree

variable {t : Tree} {base id : LayerId} {dls : List DiffLayer} {target : Target} {seek : Hash}

theorem ofDiff_eq (id : LayerId) (d : DiffData) (seek : Hash) (target : Target) :
    SubIter.ofDiff id d seek target =
      (⟨.diff id, 0, seekFrom (d.listed target).1 seek, false⟩, (d.listed target).2) := by
  cases target <;> rfl

/-- The entries that the cursors of a stack hold are the reads of the stack. -/
structure Holds (t : Tree) (dls : List DiffLayer) (target : Target) (seek : Hash)
    (V : Nat → Hash → Option Bytes) (cs : List (Nat × List Hash)) : Prop where
  sound : ∀ h blob, FastIterator.Pending V cs h blob → seek ≤ h ∧ t.flat dls (target.key h) = blob
  complete : ∀ h blob, seek ≤ h → t.flat dls (target.key h) = blob → blob ≠ [] → FastIterator.Pending V cs h blob

theorem mem_keys_ofDisk {h : Hash} : h ∈ (SubIter.ofDisk t.disk seek target).keys ↔
    seek ≤ h ∧ ∃ blob, t.disk.diskdb.lookup (target.key h) = some blob := by
  simp only [SubIter.ofDisk, mem_filter, mem_insertionSort, mem_map, Prod.exists,
    Disk.mem_entriesOf, decide_eq_true_eq, exists_and_right, exists_eq_right]
  exact and_comm

variable {V : Nat → Hash → Option Bytes} {depth : Nat}

theorem holds_disk (hV : ∀ h, V depth h = t.disk.diskdb.lookup (target.key h)) :
    Holds t [] target seek V [(depth, (SubIter.ofDisk t.disk seek target).keys)] := by
  have howns : ∀ p h, Owns [(depth, (SubIter.ofDisk t.disk seek target).keys)] p h ↔
      h ∈ (SubIter.ofDisk t.disk seek target).keys ∧ p = depth := by
    intro p h
    rw [owns_cons_of_lt (by simp), or_iff_left fun h ↦ not_owns_nil h.2]
  refine ⟨fun h blob ⟨p, hown, hval⟩ ↦ ?_, fun h blob hseek hflat hne ↦ ?_⟩
  · obtain ⟨hmem, rfl⟩ := (howns p h).1 hown
    refine ⟨(mem_keys_ofDisk.1 hmem).1, ?_⟩
    show (t.disk.diskdb.lookup (target.key h)).getD [] = blob
    rw [← hV, hval]
    rfl
  · have hlookup : t.disk.diskdb.lookup (target.key h) = some blob := by
      have hcontent : (t.disk.diskdb.lookup (target.key h)).getD [] = blob := hflat
      cases hl : t.disk.diskdb.lookup (target.key h) with
      | none => exact absurd (hl ▸ hcontent).symm hne
      | some data => rw [← hcontent, hl]; rfl
    exact ⟨depth, (howns depth h).2 ⟨mem_keys_ofDisk.2 ⟨hseek, blob, hlookup⟩, rfl⟩, (hV h).trans hlookup⟩

theorem holds_diff {l : DiffLayer} {rest : List DiffLayer}
    {cs : List (Nat × List Hash)} (hlt : ∀ c ∈ cs, depth < c.1) (hV : ∀ h, V depth h = l.value target h)
    (hrest : (l.listed target).2 = false → Holds t rest target seek V cs)
    (hstop : (l.listed target).2 = true → cs = []) :
    Holds t (l :: rest) target seek V ((depth, seekFrom (l.listed target).1 seek) :: cs) := by
  have hmem : ∀ h, h ∈ seekFrom (l.listed target).1 seek ↔ h ∈ (l.listed target).1 ∧ seek ≤ h :=
    fun h ↦ mem_seekFrom (l.listed_sorted target)
  have hflat : ∀ h, t.flat (l :: rest) (target.key h) =
      (l.resolve (target.key h)).getD (t.flat rest (target.key h)) := fun h ↦ congrFun (flat_cons t l rest) _
  refine ⟨fun h blob ⟨p, hown, hval⟩ ↦ ?_, fun h blob hseek hread hne ↦ ?_⟩
  · obtain ⟨hin, rfl⟩ | ⟨hout, hown⟩ := (owns_cons_of_lt hlt).1 hown
    · obtain ⟨hlisted, hseek⟩ := (hmem h).1 hin
      obtain ⟨data, hresolve, hvalue, -⟩ := l.resolve_of_mem target hlisted
      refine ⟨hseek, ?_⟩
      rw [hflat, hresolve, ← hvalue blob ((hV h).symm.trans hval)]
      rfl
    · cases hflag : (l.listed target).2 with
      | true => exact absurd (hstop hflag ▸ hown) not_owns_nil
      | false =>
        obtain ⟨hseek, hread⟩ := (hrest hflag).sound h blob ⟨p, hown, hval⟩
        have hnone := l.resolve_of_notMem target fun hlisted ↦ hout ((hmem h).2 ⟨hlisted, hseek⟩)
        rw [hflat, hnone, hflag]
        exact ⟨hseek, hread⟩
  · rw [hflat] at hread
    by_cases hlisted : h ∈ (l.listed target).1
    · obtain ⟨data, hresolve, -, hvalue⟩ := l.resolve_of_mem target hlisted
      rw [hresolve] at hread
      subst hread
      exact ⟨depth, (owns_cons_of_lt hlt).2 (.inl ⟨(hmem h).2 ⟨hlisted, hseek⟩, rfl⟩), (hV h).trans (hvalue hne)⟩
    · rw [l.resolve_of_notMem target hlisted] at hread
      cases hflag : (l.listed target).2 with
      | true => exact absurd (hflag ▸ hread).symm hne
      | false =>
        rw [hflag] at hread
        obtain ⟨p, hown, hval⟩ := (hrest hflag).complete h blob hseek hread hne
        exact ⟨p, (owns_cons_of_lt hlt).2 (.inr ⟨fun hin ↦ hlisted ((hmem h).1 hin).1, hown⟩), hval⟩

/-- The iterators of a stack, from a depth on. -/
structure Stacked (t : Tree) (ids : List LayerId) (dls : List DiffLayer) (target : Target) (seek : Hash)
    (V : Nat → Hash → Option Bytes) (depth : Nat) (its : List Weighted) : Prop where
  fresh : ∀ w ∈ its, w.Fresh t.heap (Serves t.heap ids target V)
  depths : ∀ w ∈ its, depth ≤ w.priority
  priorities : (its.map Weighted.priority).Nodup
  holds : Holds t dls target seek V (its.map Weighted.left)

variable {ids : List LayerId}

theorem stacked_disk (hV : ∀ h, V depth h = t.disk.diskdb.lookup (target.key h)) :
    Stacked t ids [] target seek V depth [⟨SubIter.ofDisk t.disk seek target, depth⟩] where
  fresh w hw := by
    obtain rfl := mem_singleton.1 hw
    refine ⟨rfl, rfl, ?_, fun h hh ↦ ?_⟩
    · exact (pairwise_lt_insertionSort (t.disk.entriesOf_nodup target)).filter _
    · obtain ⟨-, blob, hlookup⟩ := mem_keys_ofDisk.1 hh
      exact ⟨blob, t.disk.find_entriesOf target hlookup, (hV h).trans hlookup⟩
  depths w hw := by rw [mem_singleton.1 hw]
  priorities := nodup_singleton _
  holds := holds_disk hV

theorem fresh_diff {l : DiffLayer}
    (hget : t.heap[id]? = some (.diff l)) (hlive : l.stale = false) (hid : id ∈ ids)
    (hV : ∀ h, V depth h = l.value target h) (seek : Hash) :
    (⟨⟨.diff id, 0, seekFrom (l.listed target).1 seek, false⟩, depth⟩ : Weighted).Fresh t.heap
      (Serves t.heap ids target V) := by
  refine ⟨rfl, ?_, (l.listed_sorted target).sublist (drop_sublist _ _), fun h hh ↦ ?_⟩
  · show isStale t.heap id = false
    rw [isStale, hget]
    exact hlive
  · exact ⟨hid, l, hget, ((mem_seekFrom (l.listed_sorted target)).1 hh).1, hV h⟩

theorem layerIterators_spec (seek : Hash) (depth : Nat) (hchain : Chain t.heap base id dls) {fuel : Nat} (hfuel : dls.length < fuel)
    (hids : diffIds t.heap fuel id ⊆ ids)
    (hV : ∀ n h, V (depth + n) h = t.valueAt target dls n h) :
    ∃ its, t.layerIterators target seek fuel id depth = .ok its ∧ Stacked t ids dls target seek V depth its := by
  induction hchain generalizing fuel depth with
  | disk hget hlive =>
    obtain ⟨fuel, rfl⟩ := Nat.exists_eq_succ_of_ne_zero (Nat.ne_of_gt hfuel)
    exact ⟨_, by rw [layerIterators, hget], stacked_disk (hV 0)⟩
  | @diff id l rest hget hlive hrest ih =>
    obtain ⟨fuel, rfl⟩ := Nat.exists_eq_succ_of_ne_zero (Nat.ne_of_gt (Nat.zero_lt_of_lt hfuel))
    rw [diffIds, hget, cons_subset] at hids
    have hfresh := fresh_diff hget hlive hids.1 (hV 0) seek
    rw [layerIterators, hget]
    simp only [ofDiff_eq]
    cases hflag : (l.listed target).2 with
    | true =>
      refine ⟨_, rfl, by simpa using hfresh, by simp, nodup_singleton _, ?_⟩
      exact holds_diff (by simp) (hV 0) (by simp [hflag]) fun _ ↦ rfl
    | false =>
      have hV' : ∀ n h, V (depth + 1 + n) h = t.valueAt target rest n h := by
        intro n h
        rw [Nat.add_assoc, Nat.add_comm 1 n]
        exact hV (n + 1) h
      obtain ⟨its, hits, hs⟩ := ih (depth + 1) (Nat.lt_of_succ_lt_succ hfuel) hids.2 hV'
      have hdepths : ∀ w ∈ its, depth < w.priority := hs.depths
      refine ⟨_, by rw [hits]; rfl, ⟨?_, ?_, ?_, ?_⟩⟩
      · exact forall_mem_cons.2 ⟨hfresh, hs.fresh⟩
      · exact forall_mem_cons.2 ⟨Nat.le_refl _, fun w hw ↦ Nat.le_of_lt (hdepths w hw)⟩
      · rw [map_cons, nodup_cons, mem_map]
        refine ⟨?_, hs.priorities⟩
        rintro ⟨w, hw, heq⟩
        exact absurd (hdepths w hw) (heq ▸ Nat.lt_irrefl _)
      · refine holds_diff ?_ (hV 0) (fun _ ↦ hs.holds) (by simp [hflag])
        exact forall_mem_map.2 hdepths

/-- `newFastIterator` over a chain of live layers has the reads of the chain before it. -/
theorem newFastIterator_spec (hchain : Chain t.heap base id dls) {root : Hash}
    (hroot : t.layers.lookup root = some id) (target : Target) (seek : Hash) :
    ∃ fi, t.newFastIterator root target seek = .ok (some fi) ∧ fi.target = target ∧
      FastIterator.Inv t.heap (Serves t.heap (diffIds t.heap (t.heap.length + 1) id) target
        (t.valueAt target dls)) fi ∧
      Holds t dls target seek (t.valueAt target dls) fi.left := by
  have hfuel : dls.length < t.heap.length + 1 := Nat.lt_succ_of_lt hchain.length_lt
  obtain ⟨its, hits, hs⟩ := layerIterators_spec seek 0 hchain hfuel (.refl _)
    fun n h ↦ by rw [Nat.zero_add]
  obtain ⟨fi, hinit, htarget, hinv, hpending⟩ := FastIterator.init_spec
    hs.fresh hs.priorities
  refine ⟨fi, ?_, htarget, hinv, fun h blob hp ↦ ?_, fun h blob hseek hread hne ↦ ?_⟩
  · rw [newFastIterator, hroot]
    simp only [hits, bind, Except.bind, hinit]
    rfl
  · exact hs.holds.sound h blob ((hpending h blob).1 hp)
  · exact (hpending h blob).2 (hs.holds.complete h blob hseek hread hne)

end Tree

/-! ## Reading from a layer -/

/-- The layers `ids` are still there, and those that are live hold what they held. -/
def Keeps (heap : Heap) (ids : List LayerId) (heap' : Heap) : Prop :=
  ∀ id ∈ ids, ∀ l, heap[id]? = some (.diff l) →
    ∃ l' : DiffLayer, heap'[id]? = some (.diff l') ∧ (l'.stale = false → l'.toDiffData = l.toDiffData)

theorem reads_of_serves {heap heap' : Heap} {ids : List LayerId} {target : Target} {V : Nat → Hash → Option Bytes}
    (hkeeps : Keeps heap ids heap') : FastIterator.Reads heap' target V (Serves heap ids target V) := by
  intro it p hfail hlive hserves
  obtain ⟨source, cur, keys, fail⟩ := it
  cases source with
  | disk entries =>
    obtain ⟨blob, hfind, hval⟩ := hserves
    simp only [SubIter.blob, hfind, hval]
  | diff id =>
    obtain ⟨hid, l, hget, hmem, hval⟩ := hserves
    obtain ⟨l', hget', hdata⟩ := hkeeps id hid l hget
    have hstale : l'.stale = false := by
      have hlive' : Tree.isStale heap' id = false := hlive
      rwa [Tree.isStale, hget'] at hlive'
    have hcheck : SubIter.check heap' ⟨.diff id, cur, keys, fail⟩ = ⟨.diff id, cur, keys, fail⟩ := by
      rw [SubIter.check, hlive]
      rfl
    rw [SubIter.blob, hval, ← hdata hstale]
    rw [← hdata hstale] at hmem
    simp only [hget', hcheck]
    cases target with
    | accounts =>
      simp only [DiffData.value, DiffData.known]
      cases hlookup : l'.accountData.lookup cur with
      | some blob => rfl
      | none =>
        have hgone : cur ∈ l'.destructSet := by
          simpa [DiffData.known, hlookup] using l'.mem_accountList.1 hmem
        simp [if_pos hgone]
    | slots account =>
      obtain ⟨blob, hknown⟩ := Option.isSome_iff_exists.1 (l'.mem_storageList.1 hmem)
      simp only [DiffData.value, hknown, Option.bind_some]
      obtain ⟨slots, hslots, hblob⟩ := Option.bind_eq_some_iff.1 hknown
      simp only [hslots, hblob]

end GoEntropy.Snapshot
