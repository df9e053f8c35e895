import GoEntropy.Merkle.Walks

/-!
# The contents of a trie

A trie holds a tree (`Trie.Holds`): the root in memory and the nodes in the database stand for it.
The tree is the one tree without superfluous nodes that has the entries of the trie (`Proper`), so
that the entries determine it and with it the root hash (`Proper.ext`).
-/

namespace GoEntropy.Merkle

open GoEntropy.Container Patricia

variable {C : Crypto} {t u : Mpt} {key : Bytes} {v : Bytes}

/-- A tree of entries of a trie: it has no superfluous nodes, its keys are keys of bytes and its
values are not empty. -/
structure Proper (t : Mpt) : Prop where
  canonical : t = .empty ∨ t.Canonical term
  entries : ∀ k v, t.lookup k = some v → v ≠ [] ∧ ∃ key, k = keybytesToHex key

def entry (t : Mpt) (key : Bytes) : Option Bytes := t.lookup (keybytesToHex key)

/-- Every encoding of a node is a slice. -/
def Fits (C : Crypto) (t : Mpt) : Prop := ∀ b ∈ blobs C t, b.length < 2 ^ 64

theorem exists_lookup_of_sub (h : Sub (.leaf v) t) : ∃ k, t.lookup k = some v := by
  generalize hs : (.leaf v : Mpt) = s at h
  induction h with
  | refl =>
    subst hs
    exact ⟨[], by simp⟩
  | extend k _ ih =>
    obtain ⟨k', hk'⟩ := ih
    exact ⟨k ++ k', by rw [lookup_extend_append, hk']⟩
  | branch i _ ih =>
    obtain ⟨k', hk'⟩ := ih
    exact ⟨i :: k', by rw [lookup_branch_cons, hk']⟩

namespace Proper

theorem shaped (h : Proper t) : t.Shaped term := by
  obtain rfl | hcan := h.canonical
  · trivial
  · exact hcan.shaped

theorem storable (h : Proper t) (hfits : Fits C t) : Storable C t where
  shaped := h.shaped
  values v hv := by
    obtain ⟨k, hk⟩ := exists_lookup_of_sub hv
    exact (h.entries k v hk).1
  fits s hs hnode := hfits _ (blob_mem_blobs hs hnode)

theorem reads (h : Proper t) (key : Bytes) : t.Reads term (keybytesToHex key) :=
  .inl ⟨h.shaped, ends_keybytesToHex key⟩

theorem isNode (h : Proper t) (hne : t ≠ .empty) : isNode t = true := by
  obtain rfl | hcan := h.canonical
  · exact absurd rfl hne
  · cases hcan <;> rfl

theorem empty : Proper .empty := ⟨.inl rfl, nofun⟩

theorem ext (ht : Proper t) (hu : Proper u) (h : ∀ key, entry t key = entry u key) : t = u := by
  have hlookup : ∀ k, t.lookup k = u.lookup k := by
    intro k
    by_cases hk : ∃ key, k = keybytesToHex key
    · obtain ⟨key, rfl⟩ := hk
      exact h key
    · have hnone : ∀ s, Proper s → s.lookup k = none := fun s hs ↦
        Option.eq_none_iff_forall_ne_some.2 fun v hv ↦ hk (hs.entries k v hv).2
      rw [hnone t ht, hnone u hu]
  obtain rfl | htc := ht.canonical
  · obtain rfl | huc := hu.canonical
    · rfl
    · obtain ⟨k, v, hk⟩ := huc.exists_lookup
      rw [← hlookup] at hk
      cases hk
  · obtain rfl | huc := hu.canonical
    · obtain ⟨k, v, hk⟩ := htc.exists_lookup
      rw [hlookup] at hk
      cases hk
    · exact htc.ext huc hlookup

theorem insert (h : Proper t) (key : Bytes) (hv : v ≠ []) : Proper (t.insert (keybytesToHex key) v) where
  canonical := by
    obtain rfl | hcan := h.canonical
    · exact .inr (canonical_insert_empty (ends_keybytesToHex key) v)
    · exact .inr (hcan.insert (ends_keybytesToHex key) v)
  entries k w hk := by
    rw [h.shaped.lookup_insert (ends_keybytesToHex key)] at hk
    split at hk
    · next heq =>
      cases hk
      exact ⟨hv, key, heq⟩
    · exact h.entries k w hk

theorem entry_insert (h : Proper t) (key : Bytes) (v : Bytes) :
    entry (t.insert (keybytesToHex key) v) = Function.update (entry t) key (some v) := by
  funext key'
  rw [entry, h.shaped.lookup_insert (ends_keybytesToHex key)]
  by_cases heq : key' = key
  · rw [heq, if_pos rfl, Function.update_self]
  · rw [if_neg fun hk ↦ heq (keybytesToHex_injective hk), Function.update_of_ne heq, entry]

end Proper

/-! ## Tries -/

/-- The tree a trie holds. -/
structure Trie.Holds (C : Crypto) (tr : Trie) (t : Mpt) : Prop where
  proper : Proper t
  rooted : Rooted C (Served C tr.db) tr.root t

namespace Trie

variable {tr : Trie}

theorem holds_newEmpty (C : Crypto) (db : NodeReader) : (newEmpty db).Holds C .empty :=
  ⟨.empty, .nil, nofun⟩

/-- `Hash` returns the root hash of the tree. -/
theorem Holds.hash (h : tr.Holds C t) :
    ∃ tr', tr.hash C = .ok (rootHash C t, tr') ∧ tr'.db = tr.db ∧ tr'.Holds C t := by
  by_cases hne : t = .empty
  · subst hne
    have hroot : tr.root = .nil := by
      have houtline := h.rooted.outline
      generalize tr.root = n at houtline
      cases houtline with
      | nil => rfl
      | hash hnode => cases hnode
    exact ⟨tr, by rw [Trie.hash, hroot]; rfl, rfl, h⟩
  · obtain ⟨hhash, hrooted⟩ := h.rooted.hashed (h.proper.isNode hne)
    refine ⟨{ tr with root := (tr.root.hashed C true).2, unhashed := 0 }, ?_, rfl, h.proper, hrooted⟩
    have hnil : tr.root ≠ .nil := by
      intro hnil
      have houtline := h.rooted.outline
      rw [hnil] at houtline
      cases houtline
      exact hne rfl
    have hhashed : tr.root.hashed C true = (.hash _, _) := Prod.ext hhash rfl
    rw [Trie.hash]
    split
    · next hroot => exact absurd hroot hnil
    · rw [hhashed]

theorem Holds.tryGet (h : tr.Holds C t) (key : Bytes) :
    ∃ tr', tr.tryGet key = .ok (entry t key, tr') ∧ tr'.db = tr.db ∧ tr'.Holds C t := by
  obtain ⟨m, r, hget, hreread⟩ := tryGet_spec tr.owner h.rooted (h.proper.reads key) (Nat.le_succ _)
    (fun _ ↦ le_rfl) []
  refine ⟨if r then { tr with root := m } else tr, ?_, ?_, ?_⟩
  · rw [Trie.tryGet, hget]
    rfl
  · split <;> rfl
  · have hroot := hreread.rooted h.rooted
    split
    · exact ⟨h.proper, hroot⟩
    · exact h

theorem Holds.tryUpdate (h : tr.Holds C t) (key : Bytes) (hv : v ≠ []) :
    ∃ tr', tr.tryUpdate key v = .ok tr' ∧ tr'.db = tr.db ∧
      tr'.Holds C (t.insert (keybytesToHex key) v) := by
  obtain ⟨dirty, m, hins, hm⟩ := insert_spec tr.owner h.rooted (h.proper.reads key)
    (Nat.le_succ _) (fun _ ↦ le_rfl) []
  refine ⟨{ tr with root := m, unhashed := tr.unhashed + 1 }, ?_, rfl, h.proper.insert key hv, ?_⟩
  · rw [Trie.tryUpdate, if_pos fun hlen ↦ hv (List.length_eq_zero_iff.1 hlen), hins]
    rfl
  · cases dirty with
    | true => exact (hm.changed rfl).rooted
    | false =>
      rw [hm.same rfl]
      obtain rfl | ⟨-, -, hroot⟩ := hm.kept rfl
      · exact h.rooted
      · exact hroot

end Trie

/-! ## Runs of updates -/

def insertAll (t : Mpt) (entries : List (Bytes × Bytes)) : Mpt :=
  entries.foldl (fun t p ↦ t.insert (keybytesToHex p.1) p.2) t

theorem Proper.insertAll {entries : List (Bytes × Bytes)} (h : Proper t) (hv : ∀ p ∈ entries, p.2 ≠ []) :
    Proper (insertAll t entries) ∧ entry (insertAll t entries) =
      entries.foldl (fun (f : Bytes → Option Bytes) p ↦ Function.update f p.1 (some p.2)) (entry t) := by
  induction entries generalizing t with
  | nil => exact ⟨h, rfl⟩
  | cons p entries ih =>
    have hp := h.insert p.1 (hv p List.mem_cons_self)
    obtain ⟨hproper, hentry⟩ := ih hp fun q hq ↦ hv q (List.mem_cons_of_mem _ hq)
    exact ⟨hproper, hentry.trans (by rw [h.entry_insert, List.foldl_cons])⟩

theorem insertAll_perm {entries order : List (Bytes × Bytes)} (h : Proper t)
    (hv : ∀ p ∈ entries, p.2 ≠ []) (hdistinct : (entries.map Prod.fst).Nodup)
    (horder : order.Perm entries) : insertAll t order = insertAll t entries := by
  obtain ⟨hproper, hentry⟩ := h.insertAll hv
  obtain ⟨hproper', hentry'⟩ := h.insertAll fun p hp ↦ hv p (horder.mem_iff.1 hp)
  refine hproper'.ext hproper fun key ↦ ?_
  rw [hentry, hentry']
  refine congrFun (horder.foldl_eq' ?_ _) key
  intro p hp q hq f
  by_cases hpq : p.1 = q.1
  · rw [List.inj_on_of_nodup_map hdistinct (horder.mem_iff.1 hp) (horder.mem_iff.1 hq) hpq]
  · exact Function.update_comm hpq _ _ _

/-- `TryUpdate` for each entry of a list. -/
def Trie.tryUpdates (tr : Trie) : List (Bytes × Bytes) → Except TrieError Trie
  | [] => .ok tr
  | (key, value) :: entries =>
    match tr.tryUpdate key value with
    | .error err => .error err
    | .ok tr => tr.tryUpdates entries

theorem Trie.Holds.tryUpdates {tr : Trie} {entries : List (Bytes × Bytes)} (h : tr.Holds C t)
    (hv : ∀ p ∈ entries, p.2 ≠ []) :
    ∃ tr', tr.tryUpdates entries = .ok tr' ∧ tr'.db = tr.db ∧ tr'.Holds C (insertAll t entries) := by
  induction entries generalizing tr t with
  | nil => exact ⟨tr, rfl, rfl, h⟩
  | cons p entries ih =>
    obtain ⟨tr₁, hupdate, hdb, h₁⟩ := h.tryUpdate p.1 (hv p List.mem_cons_self)
    obtain ⟨tr₂, hupdates, hdb₂, h₂⟩ := ih h₁ fun q hq ↦ hv q (List.mem_cons_of_mem _ hq)
    exact ⟨tr₂, by simp only [Trie.tryUpdates, hupdate, hupdates], hdb₂.trans hdb, h₂⟩

/-! ## Root hashes -/

/-- The nodes of two trees can be told apart by their hashes, and from the empty tree. -/
structure Collisionless (C : Crypto) (t u : Mpt) : Prop where
  injOn : Set.InjOn C.keccak256 (blobs C t ∪ blobs C u)
  empty : ∀ b ∈ blobs C t ∪ blobs C u, C.keccak256 b ≠ emptyRoot

/-- The root hash determines the tree. -/
theorem Proper.eq_of_rootHash_eq (ht : Proper t) (hu : Proper u) (hfits : Fits C t) (hfits' : Fits C u)
    (hfree : Collisionless C t u) (h : rootHash C t = rootHash C u) : t = u := by
  have hblob {s : Mpt} (hs : Proper s) (hne : s ≠ .empty) :
      rootHash C s = C.keccak256 (blob C s) ∧ blob C s ∈ blobs C s :=
    ⟨rootHash_of_isNode (hs.isNode hne), blob_mem_blobs (.refl s) (hs.isNode hne)⟩
  by_cases hte : t = .empty <;> by_cases hue : u = .empty
  · rw [hte, hue]
  · obtain ⟨hroot, hmem⟩ := hblob hu hue
    rw [hte, hroot] at h
    exact absurd h.symm (hfree.empty _ (.inr hmem))
  · obtain ⟨hroot, hmem⟩ := hblob ht hte
    rw [hue, hroot] at h
    exact absurd h (hfree.empty _ (.inl hmem))
  · obtain ⟨hroot, hmem⟩ := hblob ht hte
    obtain ⟨hroot', hmem'⟩ := hblob hu hue
    rw [hroot, hroot'] at h
    exact eq_of_blob_eq (ht.storable hfits) (hu.storable hfits') (ht.isNode hte) (hu.isNode hue)
      hfree.injOn (hfree.injOn (.inl hmem) (.inr hmem') h)

/-- **The root hash stands for the contents.** Two tries have the same root hash if and only if they have
the same value at every key. -/
theorem Trie.hash_eq_iff_tryGet_eq {tr tr' : Trie} (h : tr.Holds C t) (h' : tr'.Holds C u)
    (hfits : Fits C t) (hfits' : Fits C u) (hfree : Collisionless C t u) :
    (tr.hash C).map Prod.fst = (tr'.hash C).map Prod.fst ↔
      ∀ key, (tr.tryGet key).map Prod.fst = (tr'.tryGet key).map Prod.fst := by
  obtain ⟨_, hroot, -⟩ := h.hash
  obtain ⟨_, hroot', -⟩ := h'.hash
  have hget (key : Bytes) : (tr.tryGet key).map Prod.fst = (tr'.tryGet key).map Prod.fst ↔
      entry t key = entry u key := by
    obtain ⟨_, hkey, -⟩ := h.tryGet key
    obtain ⟨_, hkey', -⟩ := h'.tryGet key
    simp [hkey, hkey', Except.map]
  simp only [hget]
  simp only [hroot, hroot', Except.map, Except.ok.injEq]
  constructor
  · intro heq key
    rw [h.proper.eq_of_rootHash_eq h'.proper hfits hfits' hfree heq]
  · intro heq
    rw [h.proper.ext h'.proper heq]

/-! ## A small trie -/

namespace Sample

def crypto : Crypto where
  keccak256 b := BitVec.ofNat 256 (b.foldl (fun acc x ↦ (acc * 257 + x.toNat + 1) % 2 ^ 256) 7)
  ecrecover _ _ := none
  sha256 b := b
  ripemd160 b := b

/-- Entries of which some share digits, large enough for their nodes to be hashed. -/
def entries : List (Bytes × Bytes) :=
  [([0x11, 0x11], List.replicate 40 1), ([0x12, 0x22], List.replicate 40 2),
    ([0x12, 0x23], List.replicate 40 3), ([0x23, 0x01], List.replicate 40 4),
    ([0x23, 0x22], List.replicate 40 5), ([0x45, 0x00], List.replicate 40 6)]

def tree : Mpt := insertAll .empty entries

/-- All that is evaluated of the encodings, at once. -/
theorem blobList_tree : ((blobList crypto tree).map crypto.keccak256).Nodup ∧
    ∀ b ∈ blobList crypto tree, b.length < 2 ^ 64 ∧ crypto.keccak256 b ≠ emptyRoot := by decide +kernel

theorem injOn_blobs_tree : Set.InjOn crypto.keccak256 (blobs crypto tree) :=
  injOn_blobs fun _ ha _ hb ↦ List.inj_on_of_nodup_map blobList_tree.1 ha hb

theorem fits_tree : Fits crypto tree := fun b hb ↦ (blobList_tree.2 b (mem_blobList hb)).1

theorem tree_ne_empty : tree ≠ .empty := by
  intro h
  have hentry : entry tree [0x11, 0x11] = some (.replicate 40 1) := by decide
  rw [h] at hentry
  cases hentry

theorem exists_holds : ∃ tr, (Trie.newEmpty fun _ ↦ none).tryUpdates entries = .ok tr ∧
    tr.Holds crypto tree := by
  obtain ⟨tr, htr, -, h⟩ := (Trie.holds_newEmpty crypto fun _ ↦ none).tryUpdates
    (show ∀ p ∈ entries, p.2 ≠ [] by decide)
  exact ⟨tr, htr, h⟩

theorem collisionless_tree : Collisionless crypto tree tree := by
  refine ⟨?_, fun b hb ↦ (blobList_tree.2 b (mem_blobList (hb.elim id id))).2⟩
  rw [Set.union_self]
  exact injOn_blobs_tree

/-- A trie and the one that `Hash` leaves, in which hashes are remembered. -/
theorem hash_eq_iff_tryGet_eq_tree : ∃ tr tr', (Trie.newEmpty fun _ ↦ none).tryUpdates entries = .ok tr ∧
    tr.hash crypto = .ok (rootHash crypto tree, tr') ∧
    ((tr.hash crypto).map Prod.fst = (tr'.hash crypto).map Prod.fst ↔
      ∀ key, (tr.tryGet key).map Prod.fst = (tr'.tryGet key).map Prod.fst) := by
  obtain ⟨tr, hupdates, h⟩ := exists_holds
  obtain ⟨tr', hhash, -, h'⟩ := h.hash
  exact ⟨tr, tr', hupdates, hhash, Trie.hash_eq_iff_tryGet_eq h h' fits_tree fits_tree collisionless_tree⟩

end Sample

end GoEntropy.Merkle
