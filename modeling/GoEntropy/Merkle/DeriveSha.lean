import GoEntropy.Chain.Block
import GoEntropy.Container.Results
import GoEntropy.Merkle.StackRoot
import GoEntropy.Rlp.Buffer

/-!
# The roots of lists

`DeriveSha` puts the elements of a list into a trie under their encoded indices. A stack trie takes keys
only in increasing order, and the encodings are not ordered as the indices are: zero comes between 127
and 128. In the order that `DeriveSha` takes, each key comes before the next one (`before_uint`), so that
a stack trie ends up with the root that any trie has.
-/

namespace GoEntropy.Merkle

open GoEntropy.Container Patricia Chain Rlp List

/-! ## The order of the keys -/

theorem before_beBytes {w i j : Nat} (hij : i < j) (hj : j < 256 ^ w) :
    Before (beBytes w i) (beBytes w j) := by
  induction w generalizing i j with
  | zero => omega
  | succ w ih =>
    rw [Nat.pow_succ] at hj
    by_cases hhigh : i / 256 = j / 256
    · refine ⟨beBytes w (j / 256), UInt8.ofNat i, UInt8.ofNat j, [], [], ?_, ?_, rfl⟩
      · rw [UInt8.lt_iff_toNat_lt, UInt8.toNat_ofNat', UInt8.toNat_ofNat']
        omega
      · rw [beBytes, hhigh]
    · obtain ⟨p, a, b, s, s', hab, hi, hj⟩ :=
        ih (i := i / 256) (j := j / 256) (by omega) (by omega)
      rw [beBytes, beBytes, hi, hj, append_assoc, append_assoc]
      exact ⟨p, a, b, _, _, hab, rfl, rfl⟩

theorem uint_eq_cons {i : Nat} (h : i < 2 ^ 64) : ∃ x s, uint i = x :: s ∧
    x.toNat = if i = 0 then 128 else if i < 128 then i else 128 + (minBytes i).length := by
  split
  · next hzero =>
    subst hzero
    exact ⟨0x80, [], rfl, rfl⟩
  next hzero =>
  split
  · next hbyte => exact ⟨_, _, uint_of_lt hzero hbyte, by rw [UInt8.toNat_ofNat']; omega⟩
  · next hlarge =>
    have hlen := length_minBytes_size (n := i) (by omega) h
    exact ⟨_, _, uint_of_le (by omega) h, toNat_tag (by show 128 + _ < _; omega)⟩

/-- The keys increase in the order `1, …, 127, 0, 128, …`. -/
theorem before_uint {i j : Nat} (hj : j < 2 ^ 64)
    (h : i ≠ 0 ∧ i < j ∨ i ≠ 0 ∧ i < 128 ∧ j = 0 ∨ i = 0 ∧ 128 ≤ j) :
    Before (uint i) (uint j) := by
  have hi : i < 2 ^ 64 := by omega
  by_cases hsame : 128 ≤ i ∧ 128 ≤ j ∧ (minBytes i).length = (minBytes j).length
  · -- keys of one length differ in the bytes of the indices
    obtain ⟨hi128, hj128, hlen⟩ := hsame
    have hbytes (k : Nat) : minBytes k = beBytes (minBytes k).length k := by
      have h := beBytes_setBytes (minBytes k)
      rw [setBytes_minBytes] at h
      exact h.symm
    rw [uint_of_le hi128 hi, uint_of_le hj128 hj, hlen, hbytes i, hbytes j, hlen]
    exact (before_beBytes (by omega) (length_minBytes_le_iff.1 le_rfl)).append_left [_]
  · -- the others differ in their first byte
    obtain ⟨x, s, hx, hxi⟩ := uint_eq_cons hi
    obtain ⟨y, s', hy, hyj⟩ := uint_eq_cons hj
    have hmono : i < j → (minBytes i).length ≤ (minBytes j).length := fun hij ↦
      length_minBytes_le_iff.2 (hij.trans (length_minBytes_le_iff.1 le_rfl))
    have hpos : 128 ≤ j → 0 < (minBytes j).length := fun h ↦ (length_minBytes_size (by omega) hj).1
    rw [hx, hy]
    refine ⟨[], x, y, s, s', ?_, rfl, rfl⟩
    rw [UInt8.lt_iff_toNat_lt, hxi, hyj]
    split_ifs <;> omega

theorem pairwise_deriveOrder {n : Nat} (hn : n < 2 ^ 64) :
    (deriveOrder n).Pairwise fun i j ↦ Before (uint i) (uint j) := by
  have hlt (p : Nat → Bool) : ((range n).filter p).Pairwise (· < ·) := pairwise_lt_range.filter p
  simp only [deriveOrder, pairwise_append, mem_append, mem_filter, mem_range]
  refine ⟨⟨(hlt _).imp_of_mem ?_, (hlt _).imp_of_mem ?_, ?_⟩, (hlt _).imp_of_mem ?_, ?_⟩
  all_goals
    simp only [mem_filter, mem_range, decide_eq_true_eq]
    intros
    exact before_uint (by omega) (by omega)

theorem ne_of_before {k key : Bytes} (h : Before k key) : k ≠ key := by
  obtain ⟨p, a, b, s, s', hab, rfl, rfl⟩ := h
  intro heq
  rw [(cons.inj (append_cancel_left heq)).1] at hab
  exact UInt8.lt_irrefl _ hab

/-! ## Both hashers -/

section Hashers

variable (C : Crypto) (db : NodeReader) {list : List Bytes}

/-- A stack trie as a hasher, unless it has panicked. -/
def stackHasher : TrieHasher (Except StackTrie.Panic StackTrie) where
  reset := .ok .new
  update st key value := st.bind fun st ↦ st.tryUpdate C key value
  hash st := (st.bind fun st ↦ st.rootHash C).toOption.getD 0
  hash_reset := by
    show Option.getD (Except.toOption (StackTrie.rootHash C .empty)) 0 = _
    rfl

def trieHasher : TrieHasher (Except TrieError Trie) where
  reset := .ok (.newEmpty db)
  update tr key value := tr.bind fun tr ↦ tr.tryUpdate key value
  hash tr := (tr.bind fun tr ↦ tr.hash C).toOption.elim 0 Prod.fst
  hash_reset := rfl

/-- The entries of the trie of a list, in the order in which they are put in. -/
def deriveEntries (list : List Bytes) : List (Bytes × Bytes) :=
  (deriveOrder list.length).map fun i ↦ (uint i, list.getD i [])

theorem foldl_of_updates {σ ε : Type} {f : σ → Bytes → Bytes → Except ε σ}
    {run : σ → List (Bytes × Bytes) → Except ε σ} (hnil : ∀ s, run s [] = .ok s)
    (hcons : ∀ s key v l, run s ((key, v) :: l) = (f s key v).bind fun s ↦ run s l)
    {order : List Nat} {s s' : σ}
    (h : run s (order.map fun i ↦ (uint i, list.getD i [])) = .ok s') :
    order.foldl (fun (s : Except ε σ) i ↦ s.bind fun s ↦ f s (uint i) (list.getD i [])) (.ok s) =
      .ok s' := by
  induction order generalizing s with
  | nil => rw [← h, map_nil, hnil, foldl_nil]
  | cons i order ih =>
    rw [map_cons, hcons] at h
    obtain ⟨s₁, hupdate, hrest⟩ := bind_eq_ok.1 h
    exact (congrArg (order.foldl _) hupdate).trans (ih hrest)

theorem deriveEntries_perm (hlen : list.length < 2 ^ 64) :
    (deriveEntries list).Perm (list.mapIdx fun i v ↦ (uint i, v)) := by
  have hnodup : (deriveOrder list.length).Nodup := (pairwise_deriveOrder hlen).imp fun h heq ↦
    ne_of_before h (congrArg uint heq)
  have horder : (deriveOrder list.length).Perm (range list.length) := by
    refine (perm_ext_iff_of_nodup hnodup nodup_range).2 fun i ↦ ?_
    simp only [deriveOrder, mem_append, mem_filter, mem_range, decide_eq_true_eq]
    omega
  refine (horder.map _).trans (.of_eq (ext_getElem (by simp) fun i hi _ ↦ ?_))
  simp at hi
  simp [hi]

/-- **The root of a list does not depend on the hasher.** A stack trie takes the elements of every list
without a panic, and gives the root that a trie gives: that of the trie in which each index leads to its
element. -/
theorem deriveSha_root (hlen : list.length < 2 ^ 63) (hv : ∀ v ∈ list, v ≠ []) :
    (∃ st root, StackTrie.new.tryUpdates C (deriveEntries list) = .ok st ∧
        st.rootHash C = .ok root) ∧
      deriveSha (stackHasher C) list =
        rootHash C (insertAll .empty (list.mapIdx fun i v ↦ (uint i, v))) ∧
      deriveSha (trieHasher C db) list =
        rootHash C (insertAll .empty (list.mapIdx fun i v ↦ (uint i, v))) := by
  have hbefore : (deriveEntries list).Pairwise fun p q ↦ Before p.1 q.1 :=
    pairwise_map.2 (pairwise_deriveOrder (by omega))
  have hperm := deriveEntries_perm (show list.length < 2 ^ 64 by omega)
  have hnonempty : ∀ p ∈ deriveEntries list, p.2 ≠ [] := by
    intro p hp
    obtain ⟨i, hi, rfl⟩ := mem_mapIdx.1 (hperm.mem_iff.1 hp)
    exact hv _ (getElem_mem hi)
  rw [insertAll_perm .empty hnonempty (pairwise_map.2 (hbefore.imp ne_of_before)) hperm.symm]
  obtain ⟨st, hst, hroot⟩ := stackTrie_rootHash C hbefore hnonempty
  obtain ⟨tr, htr, -, hholds⟩ := (Trie.holds_newEmpty C db).tryUpdates hnonempty
  obtain ⟨tr', hhash, -, -⟩ := hholds.hash
  refine ⟨⟨st, _, hst, hroot⟩, ?_, ?_⟩
  · have hfold := foldl_of_updates (f := StackTrie.tryUpdate C) (fun _ ↦ rfl)
      (fun _ _ _ _ ↦ by rw [StackTrie.tryUpdates]; cases StackTrie.tryUpdate C _ _ _ <;> rfl) hst
    refine (congrArg (stackHasher C).hash hfold).trans ?_
    show ((st.rootHash C).toOption).getD 0 = _
    rw [hroot]
    rfl
  · have hfold := foldl_of_updates (f := Trie.tryUpdate) (fun _ ↦ rfl)
      (fun _ _ _ _ ↦ by rw [Trie.tryUpdates]; cases Trie.tryUpdate _ _ _ <;> rfl) htr
    refine (congrArg (trieHasher C db).hash hfold).trans ?_
    show ((tr.hash C).toOption).elim 0 Prod.fst = _
    rw [hhash]
    rfl

/-- A list of two elements. -/
theorem deriveSha_root_two : ∃ root, deriveSha (stackHasher Sample.crypto) [[1], [2]] = root ∧
    deriveSha (trieHasher Sample.crypto fun _ ↦ none) [[1], [2]] = root :=
  ⟨_, (deriveSha_root _ _ (by decide) (by decide)).2⟩

end Hashers

end GoEntropy.Merkle
