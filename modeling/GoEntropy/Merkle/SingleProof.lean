import GoEntropy.Merkle.Contents
import GoEntropy.Merkle.Proof

/-!
# Proofs of a single key

The nodes on the way along a key are the `spine` of the tree at that key. The prover stores the
encodings of those that are referred to by their hashes, and the verifier walks down the spine from
one stored encoding to the next: embedded nodes are passed inside the encoding they stand in.

A proof database whose blobs hash to their keys has at the hash of a node of the tree the encoding of
that node or nothing, unless two encodings have the same hash. So what the verifier finds is the value
of the tree, whoever made the proof.
-/

namespace GoEntropy.Merkle

open GoEntropy.Container Patricia List

variable {C : Crypto} {db : NodeReader} {Q : Mpt → Prop} {n : Node} {t s : Mpt} {key r : List Nibble}
  {P : ProofDb}

/-! ## Spines -/

/-- The nodes on the way along a key. -/
def spine : Mpt → List Nibble → List Mpt
  | .empty, _ => []
  | .leaf _, _ => []
  | .extend k c, key => .extend k c :: if k <+: key then spine c (key.drop k.length) else []
  | .branch cs, [] => [.branch cs]
  | .branch cs, a :: key => .branch cs :: spine (cs a) key

theorem spine_extend_append (k r : List Nibble) (c : Mpt) :
    spine (.extend k c) (k ++ r) = .extend k c :: spine c r := by
  rw [spine, if_pos (prefix_append _ _), drop_left]

variable {k : List Nibble}

theorem spine_extend_of_not_le {c : Mpt} (h : ¬ k <+: key) :
    spine (.extend k c) key = [.extend k c] := by
  rw [spine, if_neg h]

theorem head?_spine (ht : isNode t = true) (key : List Nibble) : (spine t key).head? = some t := by
  cases t with
  | empty | leaf => cases ht
  | extend => rfl
  | branch => cases key <;> rfl

theorem mem_spine_self (ht : isNode t = true) (key : List Nibble) : t ∈ spine t key :=
  mem_of_head? (head?_spine ht key)

theorem sub_of_mem_spine (h : s ∈ spine t key) : Sub s t ∧ isNode s = true := by
  induction t generalizing key with
  | empty | leaf => cases h
  | extend k c ih =>
    obtain rfl | h := mem_cons.1 h
    · exact ⟨.refl _, rfl⟩
    · split at h
      · exact ⟨.extend k (ih h).1, (ih h).2⟩
      · cases h
  | branch cs ih =>
    cases key with
    | nil =>
      obtain rfl := mem_singleton.1 h
      exact ⟨.refl _, rfl⟩
    | cons a key =>
      obtain rfl | h := mem_cons.1 h
      · exact ⟨.refl _, rfl⟩
      · exact ⟨.branch a (ih a h).1, (ih a h).2⟩

/-! ## The prover -/

section Prove

variable {onHash : Hash → List Nibble → Except TrieError (List Node)}

/-- The nodes that are collected stand for the nodes of the spine. -/
def Collects (C : Crypto) (Q : Mpt → Prop) : List Node → List Mpt → Prop :=
  List.Forall₂ fun n s ↦ (∀ x, n ≠ .hash x) ∧ Outline C Q n s

theorem pathFrom_nil (n : Node) : pathFrom onHash n [] = .ok [] := by
  cases n <;> rw [pathFrom]

theorem pathFrom_spec {b : Nat} (hn : Outline C Q n t) (hkey : t.Reads term key)
    (hlen : key.length ≤ b + 1) (hhash : (∃ x, n = .hash x) → key.length ≤ b)
    (hload : ∀ u key, isNode u = true → Q u → u.Reads term key → key.length ≤ b →
      ∃ nodes, onHash (C.keccak256 (blob C u)) key = .ok nodes ∧ Collects C Q nodes (spine u key)) :
    ∃ nodes, pathFrom onHash n key = .ok nodes ∧ Collects C Q nodes (spine t key) := by
  induction n generalizing t key with
  | nil =>
    cases hn
    refine ⟨[], ?_, .nil⟩
    cases key <;> rw [pathFrom]
    exact nofun
  | value v =>
    cases hn
    obtain rfl := hkey.eq_nil
    exact ⟨[], pathFrom_nil _, .nil⟩
  | hash x =>
    cases hn with
    | @hash t hnode hQ =>
      obtain ⟨nodes, hnodes, hcol⟩ := hload t key hnode hQ hkey (hhash ⟨_, rfl⟩)
      refine ⟨nodes, ?_, hcol⟩
      obtain ⟨y, key, rfl⟩ := exists_cons_of_ne_nil
        (ne_nil_of_length_pos (length_pos_of_isNode hnode hkey))
      rw [pathFrom]
      · exact hnodes
      · exact nofun
  | short k val flags ih =>
    have hout := hn
    cases hn with
    | @short _ _ c _ hval =>
      have hne := hkey.ends.ne_nil
      obtain ⟨r, rfl, hr⟩ | ⟨p, a, b, s, s', hab, rfl, rfl⟩ := hkey.extend_cases
      · have hk : 0 < k.length := length_pos_of_ne_nil hkey.shaped.1
        rw [length_append] at hlen
        obtain ⟨nodes, hnodes, hcol⟩ := ih hval.outline hr (by omega) fun _ ↦ by omega
        refine ⟨.short k val flags :: nodes, ?_, ?_⟩
        · rw [pathFrom]
          · rw [if_pos (prefix_append _ _), drop_left, hnodes]
            rfl
          · exact hne
        · rw [spine_extend_append]
          exact .cons ⟨nofun, hout⟩ hcol
      · have hnp : ¬ p ++ a :: s <+: p ++ b :: s' := not_prefix_of_diverge hab
        refine ⟨[.short (p ++ a :: s) val flags], ?_, ?_⟩
        · rw [pathFrom]
          · rw [if_neg hnp]
          · exact hne
        · rw [spine_extend_of_not_le hnp]
          exact .cons ⟨nofun, hout⟩ .nil
  | full cs flags ih =>
    have hout := hn
    cases hn with
    | @full _ ts _ hcs =>
      obtain ⟨a, r, rfl, hr⟩ := hkey.exists_cons
      rw [length_cons] at hlen
      obtain ⟨nodes, hnodes, hcol⟩ := ih a (hcs a).outline hr (by omega) fun _ ↦ by omega
      refine ⟨.full cs flags :: nodes, ?_, .cons ⟨nofun, hout⟩ hcol⟩
      rw [pathFrom, hnodes]
      rfl

theorem pathNodes_spec (owner : Hash) {loads : Nat} (hn : Outline C (Served C db) n t)
    (hkey : t.Reads term key) (hlen : key.length ≤ loads + 1)
    (hhash : (∃ x, n = .hash x) → key.length ≤ loads) :
    ∃ nodes, pathNodes db owner loads n key = .ok nodes ∧
      Collects C (Served C db) nodes (spine t key) := by
  induction loads generalizing n t key with
  | zero =>
    exact pathFrom_spec hn hkey hlen hhash fun u key hnode _ hreads hle ↦
      absurd (length_pos_of_isNode hnode hreads) (by omega)
  | succ loads ih =>
    refine pathFrom_spec hn hkey hlen hhash fun u key hnode hQ hreads hle ↦ ?_
    obtain ⟨rn, hdb, hrn, hroot⟩ := hQ.load
    obtain ⟨nodes, hnodes, hcol⟩ := ih hroot.outline hreads hle fun ⟨x, hx⟩ ↦ absurd hx (hrn x)
    exact ⟨nodes, by simp [load, hdb, hnodes], hcol⟩

/-- A node is stored under its hash, if it is large or the first one. -/
theorem putNode_eq (i : Nat) (hn : ∀ x, n ≠ .hash x) (hout : Outline C Q n s) (hs : isNode s = true)
    (P : ProofDb) : putNode C i n P = if 32 ≤ (blob C s).length ∨ i = 0 then
      Function.update P (C.keccak256 (blob C s)) (some (blob C s)) else P := by
  obtain ⟨henc, hhash⟩ := hout.proofHash hn hs
  rw [putNode, henc, hhash]
  by_cases hlarge : 32 ≤ (blob C s).length <;> simp [hlarge]

/-- What is stored stays, and every node that is to be stored is. -/
theorem putNodes_spec {nodes : List Node} {trees : List Mpt} (hcol : Collects C Q nodes trees)
    (htrees : ∀ s ∈ trees, Sub s t ∧ isNode s = true) (hinj : Set.InjOn C.keccak256 (blobs C t))
    (i : Nat) (P : ProofDb) :
    (∀ s, Sub s t → isNode s = true → P (C.keccak256 (blob C s)) = some (blob C s) →
      putNodes C 0 i nodes P (C.keccak256 (blob C s)) = some (blob C s)) ∧
    ∀ s ∈ trees, 32 ≤ (blob C s).length ∨ (i = 0 ∧ trees.head? = some s) →
      putNodes C 0 i nodes P (C.keccak256 (blob C s)) = some (blob C s) := by
  induction hcol generalizing i P with
  | nil => exact ⟨fun s _ _ h ↦ h, nofun⟩
  | @cons n u nodes trees hnu _ ih =>
    obtain ⟨hsub, hnode⟩ := htrees u mem_cons_self
    have hput := putNode_eq i hnu.1 hnu.2 hnode P
    obtain ⟨hkeep, hstore⟩ := ih (fun s hs ↦ htrees s (mem_cons_of_mem _ hs)) (i + 1) (putNode C i n P)
    -- a later node with the same hash has the same encoding
    have hstep : ∀ s, Sub s t → isNode s = true → P (C.keccak256 (blob C s)) = some (blob C s) →
        putNode C i n P (C.keccak256 (blob C s)) = some (blob C s) := by
      intro s hs hsn hP
      rw [hput]
      split
      · by_cases heq : C.keccak256 (blob C s) = C.keccak256 (blob C u)
        · have hblob := hinj (blob_mem_blobs hs hsn) (blob_mem_blobs hsub hnode) heq
          rw [hblob, Function.update_self]
        · rw [Function.update_of_ne heq, hP]
      · exact hP
    refine ⟨fun s hs hsn hP ↦ hkeep s hs hsn (hstep s hs hsn hP), fun s hs hstored ↦ ?_⟩
    obtain rfl | hs := mem_cons.1 hs
    · refine hkeep s hsub hnode ?_
      rw [hput, if_pos (hstored.imp_right And.left), Function.update_self]
    · obtain hlarge | ⟨hi, hhead⟩ := hstored
      · exact hstore s hs (.inl hlarge)
      · simp only [head?_cons, Option.some.injEq] at hhead
        subst hhead
        refine hkeep u hsub hnode ?_
        rw [hput, if_pos (.inr hi), Function.update_self]

end Prove

/-! ## The verifier -/

/-- Where the walk inside a decoded node ends: at the end of the key or outside the tree, or at a node
of the spine that is referred to by its hash. -/
inductive Lands (C : Crypto) (t : Mpt) (key : List Nibble) : List Nibble × Node → Prop
  | absent (r : List Nibble) (h : t.lookup key = none) : Lands C t key (r, .nil)
  | found (r : List Nibble) {v : Bytes} (h : t.lookup key = some v) : Lands C t key (r, .value v)
  | stored {s : Mpt} {r : List Nibble} (hnode : isNode s = true) (hlarge : 32 ≤ (blob C s).length)
      (hreads : s.Reads term r) (hlen : r.length ≤ key.length) (hlookup : t.lookup key = s.lookup r)
      (hspine : spine s r ⊆ spine t key) : Lands C t key (r, .hash (C.keccak256 (blob C s)))

variable {res : List Nibble × Node}

/-- The walk in a child, as one that began at its parent. -/
theorem Lands.above {c : Mpt} (h : Lands C c r res) (hlen : r.length ≤ key.length)
    (hlookup : t.lookup key = c.lookup r) (hspine : spine t key = t :: spine c r) : Lands C t key res := by
  cases h with
  | absent r' h => exact .absent r' (hlookup.trans h)
  | found r' h => exact .found r' (hlookup.trans h)
  | stored hnode hlarge hreads hle hsame hsub =>
    exact .stored hnode hlarge hreads (hle.trans hlen) (hlookup.trans hsame)
      (hspine ▸ subset_cons_of_subset _ hsub)

/-- The walk inside a decoded node takes at least one digit of the key. -/
def Passes (C : Crypto) (t : Mpt) (key : List Nibble) (res : List Nibble × Node) : Prop :=
  Lands C t key res ∧ ((∃ x, res.2 = .hash x) → res.1.length < key.length)

theorem Lands.length_le (h : Lands C t key res) (hres : ∃ x, res.2 = .hash x) :
    res.1.length ≤ key.length := by
  obtain ⟨x, hx⟩ := hres
  cases h with
  | absent | found => cases hx
  | stored _ _ _ hlen => exact hlen

theorem get_short_view {c : Mpt} (flags : NodeFlag) (hkey : (Patricia.extend k c).Reads term key)
    (hc : ∀ r, c.Reads term r → ∃ res, get true (view C c) r = .ok res ∧ Lands C c r res) :
    ∃ res, get true (.short k (view C c) flags) key = .ok res ∧ Passes C (.extend k c) key res := by
  obtain ⟨r, rfl, hr⟩ | ⟨p, a, b, s, s', hab, rfl, rfl⟩ := hkey.extend_cases
  · obtain ⟨res, hget, hres⟩ := hc r hr
    have hk := length_pos_of_ne_nil hkey.shaped.1
    have hlen : r.length < (k ++ r).length := by
      rw [length_append]
      omega
    exact ⟨res, by rw [get, if_pos (prefix_append _ _), if_pos rfl, drop_left, hget], hres.above hlen.le (lookup_extend_append ..)
      (spine_extend_append ..), fun hx ↦ (hres.length_le hx).trans_lt hlen⟩
  · have hnp : ¬ p ++ a :: s <+: p ++ b :: s' := not_prefix_of_diverge hab
    exact ⟨_, by rw [get, if_neg hnp], .absent _ (lookup_extend_of_not_le hnp), nofun⟩

theorem get_full_view {cs : Nibble → Mpt} (flags : NodeFlag)
    (hkey : (Patricia.branch cs).Reads term key)
    (hcs : ∀ a r, (cs a).Reads term r →
      ∃ res, get true (view C (cs a)) r = .ok res ∧ Lands C (cs a) r res) :
    ∃ res, get true (.full (fun i ↦ view C (cs i)) flags) key = .ok res ∧
      Passes C (.branch cs) key res := by
  obtain ⟨a, r, rfl, hr⟩ := hkey.exists_cons
  obtain ⟨res, hget, hres⟩ := hcs a r hr
  exact ⟨res, by rw [get, if_pos rfl, hget], hres.above (Nat.le_succ _) (lookup_branch_cons ..) rfl,
    fun hx ↦ Nat.lt_succ_of_le (hres.length_le hx)⟩

theorem get_view (hkey : t.Reads term key) :
    ∃ res, get true (view C t) key = .ok res ∧ Lands C t key res := by
  induction t generalizing key with
  | empty => exact ⟨_, by rw [view, get], .absent key (lookup_empty _)⟩
  | leaf v =>
    obtain rfl := hkey.eq_nil
    exact ⟨_, by rw [view, get], .found [] (by simp)⟩
  | extend k c ih =>
    by_cases hlarge : 32 ≤ (blob C (.extend k c)).length
    · exact ⟨_, by rw [view_of_large rfl hlarge, get], .stored rfl hlarge hkey le_rfl rfl fun _ ↦ id⟩
    · obtain ⟨res, hget, hres, -⟩ := get_short_view ⟨none, false⟩ hkey fun r ↦ ih
      exact ⟨res, by rw [view, if_neg hlarge, hget], hres⟩
  | branch cs ih =>
    by_cases hlarge : 32 ≤ (blob C (.branch cs)).length
    · exact ⟨_, by rw [view_of_large rfl hlarge, get], .stored rfl hlarge hkey le_rfl rfl fun _ ↦ id⟩
    · obtain ⟨res, hget, hres, -⟩ := get_full_view ⟨none, false⟩ hkey fun a r ↦ ih a
      exact ⟨res, by rw [view, if_neg hlarge, hget], hres⟩

theorem get_unfolded (hash : Option Hash) (ht : isNode t = true) (hkey : t.Reads term key) :
    ∃ res, get true (unfolded C hash t) key = .ok res ∧ Passes C t key res := by
  cases t with
  | empty | leaf => cases ht
  | extend => exact get_short_view _ hkey fun r ↦ get_view
  | branch => exact get_full_view _ hkey fun a r ↦ get_view

section Verify

/-- One round of the verifier at a node of the tree: it ends with the value of the tree, or goes on at
a node further down. -/
theorem verifyProofFrom_step (ht : isNode t = true) (hkey : t.Reads term key)
    (hdec : ∀ hash, decodeNode hash (blob C t) = .ok (unfolded C hash t))
    (hP : P (C.keccak256 (blob C t)) = some (blob C t)) (rounds i : Nat) :
    verifyProofFrom P (rounds + 1) i (C.keccak256 (blob C t)) key = .ok (t.lookup key) ∨
      ∃ s r, isNode s = true ∧ 32 ≤ (blob C s).length ∧ s.Reads term r ∧ r.length < key.length ∧
        t.lookup key = s.lookup r ∧ spine s r ⊆ spine t key ∧
        verifyProofFrom P (rounds + 1) i (C.keccak256 (blob C t)) key =
          verifyProofFrom P rounds (i + 1) (C.keccak256 (blob C s)) r := by
  obtain ⟨res, hget, hlands, hlt⟩ :=
    get_unfolded (C := C) (some (C.keccak256 (blob C t))) ht hkey
  rw [verifyProofFrom, hP]
  simp only [hdec, hget]
  cases hlands with
  | absent r h | found r h => exact .inl (by rw [h])
  | stored hnode hlarge hreads _ hlookup hspine =>
    exact .inr ⟨_, _, hnode, hlarge, hreads, hlt ⟨_, rfl⟩, hlookup, hspine, rfl⟩

/-- **No proof of another value.** A database that has at the hashes of the spine the encodings of its
nodes, or nothing, proves nothing but the value of the tree. -/
theorem verifyProofFrom_sound (ht : isNode t = true) (hkey : t.Reads term key)
    (hdec : ∀ s ∈ spine t key, ∀ hash, decodeNode hash (blob C s) = .ok (unfolded C hash s))
    (hP : ∀ s ∈ spine t key, ∀ b, P (C.keccak256 (blob C s)) = some b → b = blob C s)
    {rounds i : Nat} {v : Option Bytes}
    (hverify : verifyProofFrom P rounds i (C.keccak256 (blob C t)) key = .ok v) : v = t.lookup key := by
  induction rounds generalizing i t key with
  | zero => cases hverify
  | succ rounds ih =>
    have hself := mem_spine_self ht key
    cases hdb : P (C.keccak256 (blob C t)) with
    | none =>
      rw [verifyProofFrom, hdb] at hverify
      cases hverify
    | some b =>
      rw [hP t hself b hdb] at hdb
      obtain hok | ⟨s, r, hnode, -, hreads, -, hlookup, hspine, heq⟩ :=
        verifyProofFrom_step ht hkey (hdec t hself) hdb rounds i
      · rw [hok] at hverify
        cases hverify
        rfl
      · rw [heq] at hverify
        rw [hlookup]
        exact ih hnode hreads (fun u hu ↦ hdec u (hspine hu)) (fun u hu ↦ hP u (hspine hu)) hverify

/-- **A proof of the value.** A database that has the encodings of the root and of the large nodes of
the spine proves the value of the tree. -/
theorem verifyProofFrom_complete (ht : isNode t = true) (hkey : t.Reads term key)
    (hdec : ∀ s ∈ spine t key, ∀ hash, decodeNode hash (blob C s) = .ok (unfolded C hash s))
    (hroot : P (C.keccak256 (blob C t)) = some (blob C t))
    (hP : ∀ s ∈ spine t key, 32 ≤ (blob C s).length → P (C.keccak256 (blob C s)) = some (blob C s))
    {rounds : Nat} (hrounds : key.length ≤ rounds) (i : Nat) :
    verifyProofFrom P rounds i (C.keccak256 (blob C t)) key = .ok (t.lookup key) := by
  induction rounds generalizing i t key with
  | zero => exact absurd (length_pos_of_isNode ht hkey) (by omega)
  | succ rounds ih =>
    obtain hok | ⟨s, r, hnode, hlarge, hreads, hlt, hlookup, hspine, heq⟩ :=
      verifyProofFrom_step ht hkey (hdec t (mem_spine_self ht key)) hroot rounds i
    · exact hok
    · rw [heq, hlookup]
      exact ih hnode hreads (fun u hu ↦ hdec u (hspine hu))
        (hP s (hspine (mem_spine_self hnode r)) hlarge) (fun u hu ↦ hP u (hspine hu)) (by omega) _

end Verify

/-! ## Soundness and completeness -/

/-- A database in which each blob hashes to its key. -/
def ProofDb.Consistent (C : Crypto) (P : ProofDb) : Prop := ∀ h b, P h = some b → C.keccak256 b = h

def ProofDb.blobs (P : ProofDb) : Set Bytes := {b | ∃ h, P h = some b}

/-- The prover stores what the verifier needs. -/
theorem Trie.Holds.prove {tr : Trie} (h : tr.Holds C t) (hne : t ≠ .empty)
    (hinj : Set.InjOn C.keccak256 (blobs C t)) (key : Bytes) (P₀ : ProofDb) :
    ∃ P, tr.prove C key 0 P₀ = .ok P ∧ P (C.keccak256 (blob C t)) = some (blob C t) ∧
      (∀ s ∈ spine t (keybytesToHex key), 32 ≤ (blob C s).length →
        P (C.keccak256 (blob C s)) = some (blob C s)) ∧
      ∀ s, Sub s t → isNode s = true → P₀ (C.keccak256 (blob C s)) = some (blob C s) →
        P (C.keccak256 (blob C s)) = some (blob C s) := by
  have hnode := h.proper.isNode hne
  obtain ⟨nodes, hnodes, hcol⟩ := pathNodes_spec tr.owner h.rooted.outline (h.proper.reads key)
    (Nat.le_succ _) fun _ ↦ le_rfl
  obtain ⟨hkeep, hstore⟩ := putNodes_spec hcol (fun s ↦ sub_of_mem_spine) hinj 0 P₀
  refine ⟨_, by rw [Trie.prove, hnodes]; rfl, ?_, fun s hs hlarge ↦ hstore s hs (.inl hlarge), hkeep⟩
  exact hstore t (mem_spine_self hnode _) (.inr ⟨rfl, head?_spine hnode _⟩)

/-- **Proofs of a single key are sound and complete.** The verifier accepts what the prover makes, with
the value of the key in the trie; and whatever consistent database it is given, it returns no other
value. -/
theorem verifyProof_sound_complete {tr : Trie} (h : tr.Holds C t) (hne : t ≠ .empty) (hfits : Fits C t)
    (hinj : Set.InjOn C.keccak256 (blobs C t)) :
    ∃ root tr', tr.hash C = .ok (root, tr') ∧ ∀ key, ∃ value tr', tr.tryGet key = .ok (value, tr') ∧
      (∀ P₀, ∃ P, tr.prove C key 0 P₀ = .ok P ∧
        ∀ rounds, (keybytesToHex key).length ≤ rounds → verifyProof rounds root key P = .ok value) ∧
      ∀ P : ProofDb, P.Consistent C → Set.InjOn C.keccak256 (blobs C t ∪ P.blobs) →
        ∀ rounds w, verifyProof rounds root key P = .ok w → w = value := by
  have hnode := h.proper.isNode hne
  obtain ⟨tr₁, hhash, -, -⟩ := h.hash
  rw [rootHash_of_isNode hnode] at hhash
  refine ⟨_, tr₁, hhash, fun key ↦ ?_⟩
  obtain ⟨tr₂, hget, -, -⟩ := h.tryGet key
  have hreads := h.proper.reads key
  have hdec : ∀ s ∈ spine t (keybytesToHex key), ∀ hash,
      decodeNode hash (blob C s) = .ok (unfolded C hash s) := fun s hs hash ↦
    have ⟨hsub, hnode⟩ := sub_of_mem_spine hs
    decodeNode_blob ((h.proper.storable hfits).sub hsub hnode) hnode hash
  refine ⟨_, tr₂, hget, fun P₀ ↦ ?_, fun P hP hinjP rounds w hw ↦ ?_⟩
  · obtain ⟨P, hprove, hroot, hlarge, -⟩ := h.prove hne hinj key P₀
    exact ⟨P, hprove, fun rounds hrounds ↦
      verifyProofFrom_complete hnode hreads hdec hroot hlarge hrounds 0⟩
  · refine verifyProofFrom_sound hnode hreads hdec (fun s hs b hb ↦ ?_) hw
    -- without collisions the database has the encoding of a node at its hash
    have ⟨hsub, hnode⟩ := sub_of_mem_spine hs
    exact hinjP (.inr ⟨_, hb⟩) (.inl (blob_mem_blobs hsub hnode)) (hP _ _ hb)

/-- A trie with six entries. -/
theorem verifyProof_sample : ∃ tr, (Trie.newEmpty fun _ ↦ none).tryUpdates Sample.entries = .ok tr ∧
    ∃ root tr', tr.hash Sample.crypto = .ok (root, tr') ∧
      ∀ key, ∃ value tr', tr.tryGet key = .ok (value, tr') ∧
        (∀ P₀, ∃ P, tr.prove Sample.crypto key 0 P₀ = .ok P ∧
          ∀ rounds, (keybytesToHex key).length ≤ rounds → verifyProof rounds root key P = .ok value) ∧
        ∀ P : ProofDb, P.Consistent Sample.crypto →
          Set.InjOn Sample.crypto.keccak256 (blobs Sample.crypto Sample.tree ∪ P.blobs) →
          ∀ rounds w, verifyProof rounds root key P = .ok w → w = value := by
  obtain ⟨tr, htr, h⟩ := Sample.exists_holds
  exact ⟨tr, htr, verifyProof_sound_complete h Sample.tree_ne_empty Sample.fits_tree
    Sample.injOn_blobs_tree⟩

end GoEntropy.Merkle
