import GoEntropy.Merkle.Node

/-!
# What a node stands for

A node in memory is one of many forms of a Merkle Patricia tree: parts of it may be known by their
hash only, and a node may remember its hash. `Mpt` is the tree itself, a Patricia tree over digits;
`blob` is its encoding by the plain recursive definition, and `Denotes` says which tree a node stands
for. The hasher computes from any form of a tree what the definition gives for the tree
(`Denotes.hashed`, `Rooted.hashed`).

A node below the root is hashed only if its encoding has at least 32 bytes, so a remembered hash
says that it has. The root is hashed in any case, and a small root that was hashed remembers it:
that is why a root is described by `Rooted` and not by `Denotes`.
-/

namespace GoEntropy.Merkle

open GoEntropy.Container

/-- A Merkle Patricia tree. -/
abbrev Mpt := Patricia Nibble Bytes

section Tree

variable (C : Crypto)

/-- Whether a tree is a node of its own; an absent child and a value are part of their parent. -/
def isNode : Mpt → Bool
  | .extend _ _ => true
  | .branch _ => true
  | _ => false

/-- How a parent refers to a child with the given encoding. -/
def refTo (t : Mpt) (enc : Bytes) : Bytes :=
  if isNode t ∧ 32 ≤ enc.length then Rlp.bytes (hashBytes (C.keccak256 enc)) else enc

/-- The encoding of a tree. -/
def blob : Mpt → Bytes
  | .empty => emptyString
  | .leaf v => Rlp.bytes v
  | .extend k c => Rlp.list [Rlp.bytes (hexToCompact k), refTo C c (blob c)]
  | .branch cs => Rlp.list (List.ofFn fun i ↦ refTo C (cs i) (blob (cs i)))

/-- The reference to a tree in the encoding of its parent. -/
def ref (t : Mpt) : Bytes := refTo C t (blob C t)

/-- The root hash of a tree. -/
def rootHash : Mpt → Hash
  | .empty => emptyRoot
  | t => C.keccak256 (blob C t)

theorem blob_extend (k : List Nibble) (c : Mpt) :
    blob C (.extend k c) = Rlp.list [Rlp.bytes (hexToCompact k), ref C c] := by
  rw [blob, ref]

theorem blob_branch (cs : Nibble → Mpt) :
    blob C (.branch cs) = Rlp.list (List.ofFn fun i ↦ ref C (cs i)) := by
  rfl

variable {C} {t : Mpt}

theorem ref_of_small (h : (blob C t).length < 32) : ref C t = blob C t :=
  if_neg fun h' ↦ absurd h'.2 (Nat.not_le.2 h)

theorem ref_of_large (ht : isNode t = true) (h : 32 ≤ (blob C t).length) :
    ref C t = Rlp.bytes (hashBytes (C.keccak256 (blob C t))) := if_pos ⟨ht, h⟩

theorem ref_of_not_isNode (ht : isNode t = false) : ref C t = blob C t :=
  if_neg fun h ↦ by simp [ht] at h

theorem rootHash_of_isNode (ht : isNode t = true) : rootHash C t = C.keccak256 (blob C t) := by
  cases t with
  | empty => cases ht
  | _ => rfl

/-- The parts of a tree. -/
inductive Sub : Mpt → Mpt → Prop
  | refl (t : Mpt) : Sub t t
  | extend {s c : Mpt} (k : List Nibble) (h : Sub s c) : Sub s (.extend k c)
  | branch {s : Mpt} {cs : Nibble → Mpt} (i : Nibble) (h : Sub s (cs i)) : Sub s (.branch cs)

theorem Sub.trans {s t u : Mpt} (h : Sub s t) (h' : Sub t u) : Sub s u := by
  induction h' with
  | refl => exact h
  | extend k _ ih => exact .extend k ih
  | branch i _ ih => exact .branch i ih

variable (C) in
def blobs (t : Mpt) : Set Bytes := {b | ∃ s, Sub s t ∧ isNode s = true ∧ b = blob C s}

theorem blobs_mono {s t : Mpt} (h : Sub s t) : blobs C s ⊆ blobs C t := by
  rintro b ⟨u, hu, hnode, rfl⟩
  exact ⟨u, hu.trans h, hnode, rfl⟩

theorem blob_mem_blobs {s t : Mpt} (h : Sub s t) (hs : isNode s = true) : blob C s ∈ blobs C t :=
  ⟨s, h, hs, rfl⟩

variable (C) in
def blobList : Mpt → List Bytes
  | .empty => []
  | .leaf _ => []
  | .extend k c => blob C (.extend k c) :: blobList c
  | .branch cs => blob C (.branch cs) :: (List.finRange 17).flatMap fun i ↦ blobList (cs i)

theorem mem_blobList {b : Bytes} (h : b ∈ blobs C t) : b ∈ blobList C t := by
  obtain ⟨s, hs, hnode, rfl⟩ := h
  induction hs with
  | refl =>
    cases s with
    | empty | leaf => cases hnode
    | extend | branch => exact List.mem_cons_self
  | extend k _ ih => exact List.mem_cons_of_mem _ ih
  | branch i _ ih => exact List.mem_cons_of_mem _ (List.mem_flatMap.2 ⟨i, List.mem_finRange i, ih⟩)

/-- Whether encodings collide can be tried. -/
theorem injOn_blobs (h : ∀ a ∈ blobList C t, ∀ b ∈ blobList C t, C.keccak256 a = C.keccak256 b → a = b) :
    Set.InjOn C.keccak256 (blobs C t) := fun a ha b hb ↦ h a (mem_blobList ha) b (mem_blobList hb)

end Tree

/-! ## Nodes and trees -/

section Denotes

variable (C : Crypto) (Q : Mpt → Prop)

/-- A remembered hash is the hash of an encoding of at least 32 bytes. -/
def Cached (flags : NodeFlag) (t : Mpt) : Prop :=
  ∀ h ∈ flags.hash, h = C.keccak256 (blob C t) ∧ 32 ≤ (blob C t).length

/-- The tree a node stands for. `Q` is what is known of the trees that stand behind hash nodes. -/
inductive Denotes : Node → Mpt → Prop
  | nil : Denotes .nil .empty
  | value (v : Bytes) : Denotes (.value v) (.leaf v)
  | short {k : List Nibble} {n : Node} {t : Mpt} {flags : NodeFlag} (h : Denotes n t)
      (hcached : Cached C flags (.extend k t)) : Denotes (.short k n flags) (.extend k t)
  | full {cs : Nibble → Node} {ts : Nibble → Mpt} {flags : NodeFlag} (h : ∀ i, Denotes (cs i) (ts i))
      (hcached : Cached C flags (.branch ts)) : Denotes (.full cs flags) (.branch ts)
  | hash {t : Mpt} (hnode : isNode t = true) (hlarge : 32 ≤ (blob C t).length) (hQ : Q t) :
      Denotes (.hash (C.keccak256 (blob C t))) t

/-- The tree the top of a node stands for, whatever hash it remembers; a hash node may be small. -/
inductive Outline : Node → Mpt → Prop
  | nil : Outline .nil .empty
  | value (v : Bytes) : Outline (.value v) (.leaf v)
  | short {k : List Nibble} {n : Node} {t : Mpt} {flags : NodeFlag} (h : Denotes C Q n t) :
      Outline (.short k n flags) (.extend k t)
  | full {cs : Nibble → Node} {ts : Nibble → Mpt} {flags : NodeFlag}
      (h : ∀ i, Denotes C Q (cs i) (ts i)) : Outline (.full cs flags) (.branch ts)
  | hash {t : Mpt} (hnode : isNode t = true) (hQ : Q t) : Outline (.hash (C.keccak256 (blob C t))) t

def Node.cachedHash : Node → Option Hash
  | .short _ _ flags => flags.hash
  | .full _ flags => flags.hash
  | _ => none

/-- The tree the root of a trie stands for. -/
structure Rooted (n : Node) (t : Mpt) : Prop where
  outline : Outline C Q n t
  cached : ∀ h ∈ n.cachedHash, h = C.keccak256 (blob C t)

end Denotes

variable {C : Crypto} {Q Q' : Mpt → Prop} {n : Node} {t : Mpt}

theorem cached_new (t : Mpt) : Cached C .new t := nofun

theorem Denotes.mono (hQ : ∀ t, isNode t = true → 32 ≤ (blob C t).length → Q t → Q' t)
    (h : Denotes C Q n t) : Denotes C Q' n t := by
  induction h with
  | nil => exact .nil
  | value v => exact .value v
  | short _ hcached ih => exact .short ih hcached
  | full _ hcached ih => exact .full ih hcached
  | hash hnode hlarge hq => exact .hash hnode hlarge (hQ _ hnode hlarge hq)

theorem Denotes.outline (h : Denotes C Q n t) : Outline C Q n t := by
  cases h with
  | nil => exact .nil
  | value v => exact .value v
  | short h _ => exact .short h
  | full h _ => exact .full h
  | hash hnode _ hq => exact .hash hnode hq

theorem Denotes.cached (h : Denotes C Q n t) :
    ∀ x ∈ n.cachedHash, x = C.keccak256 (blob C t) ∧ 32 ≤ (blob C t).length := by
  cases h with
  | short _ hcached | full _ hcached => exact hcached
  | _ => exact nofun

theorem Denotes.rooted (h : Denotes C Q n t) : Rooted C Q n t :=
  ⟨h.outline, fun x hx ↦ (h.cached x hx).1⟩

theorem Outline.mono (hQ : ∀ t, isNode t = true → 32 ≤ (blob C t).length → Q t → Q' t)
    (h : Outline C Q n t) (hn : ∀ x, n ≠ .hash x) : Outline C Q' n t := by
  cases h with
  | nil => exact .nil
  | value v => exact .value v
  | short h => exact .short (h.mono hQ)
  | full h => exact .full fun i ↦ (h i).mono hQ
  | hash => exact absurd rfl (hn _)

/-- A node other than a hash node stands for a tree if its top does and the hash it remembers is
right. -/
theorem Outline.denotes (h : Outline C Q n t) (hn : ∀ x, n ≠ .hash x)
    (hcached : ∀ x ∈ n.cachedHash, x = C.keccak256 (blob C t) ∧ 32 ≤ (blob C t).length) :
    Denotes C Q n t := by
  cases h with
  | nil => exact .nil
  | value v => exact .value v
  | short h => exact .short h hcached
  | full h => exact .full h hcached
  | hash => exact absurd rfl (hn _)

/-! ## Hashing -/

section Hash

variable {c : Collapsed}

theorem encode_toHash (hc : c.encode = blob C t) (ht : isNode t = true) :
    (toHash C c false).encode = ref C t := by
  rw [toHash, hc]
  by_cases hsmall : (blob C t).length < 32
  · rw [if_pos ⟨hsmall, rfl⟩, hc, ref_of_small hsmall]
  · rw [if_neg fun h ↦ hsmall h.1, ref_of_large ht (Nat.not_lt.1 hsmall)]
    rfl

theorem cached_toHash (hc : c.encode = blob C t) (hshape : c.hash? = none) (dirty : Bool) :
    Cached C ⟨(toHash C c false).hash?, dirty⟩ t := by
  intro h hh
  rw [toHash, hc] at hh
  by_cases hsmall : (blob C t).length < 32
  · rw [if_pos ⟨hsmall, rfl⟩, hshape] at hh
    cases hh
  · rw [if_neg fun h ↦ hsmall h.1] at hh
    cases hh
    exact ⟨rfl, Nat.not_lt.1 hsmall⟩

theorem toHash_force (hc : c.encode = blob C t) : toHash C c true = .hash (C.keccak256 (blob C t)) := by
  rw [toHash, hc, if_neg fun h ↦ by cases h.2]

theorem encode_hashChild (i : Nibble) {hashed : Collapsed × Node} (h : Denotes C Q n t)
    (hhashed : hashed.1.encode = ref C t) : (hashChild i n hashed).1.encode = ref C t := by
  cases h with
  | nil =>
    rw [hashChild]
    split <;> rfl
  | _ => exact hhashed

theorem denotes_hashChild (i : Nibble) {hashed : Collapsed × Node} (h : Denotes C Q n t)
    (hhashed : Denotes C Q hashed.2 t) : Denotes C Q (hashChild i n hashed).2 t := by
  cases h with
  | nil => exact .nil
  | _ => exact hhashed

/-- The children of a full node, collapsed, encode to the branch. -/
theorem encode_full {cs : Nibble → Collapsed} {ts : Nibble → Mpt}
    (h : ∀ i, (cs i).encode = ref C (ts i)) : (Collapsed.full cs).encode = blob C (.branch ts) := by
  rw [Collapsed.encode]
  congr 2
  funext i
  exact h i

theorem encode_short {k : List Nibble} (hc : c.encode = ref C t) :
    (Collapsed.short (hexToCompact k) c).encode = blob C (.extend k t) := by
  rw [Collapsed.encode, blob_extend, hc]

/-- **The hasher follows the definition.** A node is collapsed to the reference to its tree, and the
copy that remembers hashes stands for the same tree. -/
theorem Denotes.hashed (h : Denotes C Q n t) :
    (n.hashed C false).1.encode = ref C t ∧ Denotes C Q (n.hashed C false).2 t := by
  induction h with
  | nil => exact ⟨rfl, .nil⟩
  | value v => exact ⟨rfl, .value v⟩
  | hash hnode hlarge hq => exact ⟨(ref_of_large hnode hlarge).symm, .hash hnode hlarge hq⟩
  | @short k n t flags h hcached ih =>
    rw [Node.hashed]
    cases hflag : flags.hash with
    | some x =>
      obtain ⟨rfl, hlarge⟩ := hcached x hflag
      exact ⟨(ref_of_large rfl hlarge).symm, .short h hcached⟩
    | none =>
      have henc := encode_short (k := k) ih.1
      exact ⟨encode_toHash henc rfl, .short ih.2 (cached_toHash henc rfl _)⟩
  | @full cs ts flags h hcached ih =>
    rw [Node.hashed]
    cases hflag : flags.hash with
    | some x =>
      obtain ⟨rfl, hlarge⟩ := hcached x hflag
      exact ⟨(ref_of_large rfl hlarge).symm, .full h hcached⟩
    | none =>
      have henc := encode_full fun i ↦ encode_hashChild i (h i) (ih i).1
      exact ⟨encode_toHash henc rfl,
        .full (fun i ↦ denotes_hashChild i (h i) (ih i).2) (cached_toHash henc rfl _)⟩

theorem Outline.proofHash (h : Outline C Q n t) (hn : ∀ x, n ≠ .hash x) (ht : isNode t = true) :
    (proofHash C n).1.encode = blob C t ∧
      (proofHash C n).2.hash? =
        if 32 ≤ (blob C t).length then some (C.keccak256 (blob C t)) else none := by
  have hsecond : ∀ c : Collapsed, c.hash? = none → c.encode = blob C t →
      (toHash C c false).hash? =
        if 32 ≤ (blob C t).length then some (C.keccak256 (blob C t)) else none := by
    intro c hshape hc
    rw [toHash, hc]
    by_cases hsmall : (blob C t).length < 32
    · rw [if_pos ⟨hsmall, rfl⟩, if_neg (Nat.not_le.2 hsmall), hshape]
    · rw [if_neg fun h ↦ hsmall h.1, if_pos (Nat.not_lt.1 hsmall)]
      rfl
  cases h with
  | nil | value => cases ht
  | hash => exact absurd rfl (hn _)
  | @short k _ _ _ h =>
    have henc := encode_short (k := k) h.hashed.1
    exact ⟨henc, hsecond _ rfl henc⟩
  | full h =>
    have henc := encode_full fun i ↦ encode_hashChild i (h i) (h i).hashed.1
    exact ⟨henc, hsecond _ rfl henc⟩

/-- **The hash of the root.** -/
theorem Rooted.hashed (h : Rooted C Q n t) (ht : isNode t = true) :
    (n.hashed C true).1 = .hash (rootHash C t) ∧ Rooted C Q (n.hashed C true).2 t := by
  rw [rootHash_of_isNode ht]
  obtain ⟨houtline, hcached⟩ := id h
  cases houtline with
  | nil | value => cases ht
  | hash => exact ⟨rfl, h⟩
  | @short k val t flags hval =>
    rw [Node.hashed]
    cases hflag : flags.hash with
    | some x =>
      obtain rfl := hcached x hflag
      exact ⟨rfl, h⟩
    | none =>
      have henc := encode_short (k := k) hval.hashed.1
      refine ⟨toHash_force henc, .short hval.hashed.2, ?_⟩
      simp only [toHash_force henc]
      rintro x ⟨⟩
      rfl
  | @full cs ts flags hcs =>
    rw [Node.hashed]
    cases hflag : flags.hash with
    | some x =>
      obtain rfl := hcached x hflag
      exact ⟨rfl, h⟩
    | none =>
      have henc := encode_full fun i ↦ encode_hashChild i (hcs i) (hcs i).hashed.1
      refine ⟨toHash_force henc, .full fun i ↦ denotes_hashChild i (hcs i) (hcs i).hashed.2, ?_⟩
      simp only [toHash_force henc]
      rintro x ⟨⟩
      rfl

end Hash

end GoEntropy.Merkle
