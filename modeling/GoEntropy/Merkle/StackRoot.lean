import GoEntropy.Merkle.Contents
import GoEntropy.Merkle.StackTrie

/-!
# The root of a stack trie

A stack trie stands for a tree (`Stacks`), of which the parts that are complete are known by their
hash or their short encoding only. The nodes along the last key are still open (`Tip`), and nothing
stands to the right of them. A later key of the same length parts from the last one towards the
right, so it leaves the open nodes at a place where nothing is hashed, and what it leaves behind is
complete.
-/

namespace GoEntropy.Merkle

open GoEntropy.Container Patricia StackTrie Function List StackTrie

variable {C : Crypto} {st : StackTrie} {t : Mpt} {v : Bytes} {k key l : List Nibble}

/-- The tree a stack trie stands for. -/
inductive Stacks (C : Crypto) : StackTrie → Mpt → Prop
  | nil : Stacks C .nil .empty
  | leaf {k : List Nibble} (v : Bytes) (hk : term ∉ k) :
      Stacks C (.leaf k v) (.extend (k ++ [term]) (.leaf v))
  | ext {k : List Nibble} {c : StackTrie} {t : Mpt} (hne : k ≠ []) (hk : term ∉ k) (hnil : c ≠ .nil)
      (h : Stacks C c t) : Stacks C (.ext k c) (.extend k t)
  | branch {cs : Nibble → StackTrie} {ts : Nibble → Mpt} (hterm : ts term = .empty)
      (h : ∀ i, Stacks C (cs i) (ts i)) : Stacks C (.branch cs) (.branch ts)
  | hashed {t : Mpt} (hnode : isNode t = true) : Stacks C (.hashed (StackTrie.hashedVal C (blob C t))) t

/-- The open nodes of a stack trie are those along a key, and nothing stands to the right of them. -/
inductive Tip : StackTrie → List Nibble → Prop
  | leaf (k : List Nibble) (v : Bytes) : Tip (.leaf k v) k
  | ext {c : StackTrie} {r : List Nibble} (k : List Nibble) (h : Tip c r) : Tip (.ext k c) (k ++ r)
  | branch {cs : Nibble → StackTrie} {i : Nibble} {r : List Nibble} (h : Tip (cs i) r)
      (hright : ∀ j, i < j → cs j = .nil) : Tip (.branch cs) (i :: r)

theorem Tip.ne_nil (h : Tip st l) : st ≠ .nil := by
  rintro rfl
  cases h

/-! ## Hashing -/

theorem isNil_iff : st.isNil = true ↔ st = .nil := by
  cases st <;> simp [isNil]

theorem Stacks.isNode (h : Stacks C st t) (hnil : st ≠ .nil) : isNode t = true := by
  cases h with
  | nil => exact absurd rfl hnil
  | hashed hnode => exact hnode
  | _ => rfl

theorem Stacks.eq_empty (h : Stacks C .nil t) : t = .empty := by
  cases h
  rfl

theorem encode_childRef (ht : isNode t = true) :
    (childRef (hashedVal C (blob C t))).encode = ref C t := by
  rw [hashedVal]
  split
  · next hsmall => rw [childRef, if_pos hsmall, ref_of_small hsmall, Collapsed.encode]
  · next hlarge =>
    have hlen : ¬ (hashBytes (C.keccak256 (blob C t))).length < 32 := by
      rw [length_hashBytes]
      exact Nat.lt_irrefl 32
    rw [childRef, if_neg hlen, bytesToHash_hashBytes, ref_of_large ht (Nat.not_lt.1 hlarge),
      Collapsed.encode]

theorem compactKey_eq {k : List Nibble} (h : (term ∉ k ∧ k ≠ []) ∨ Ends term k) :
    compactKey k = hexToCompact k :=
  hexToCompactInPlace_digits h

/-- **Hashing a stack trie** gives the encoding of its tree, or the hash of that. -/
theorem Stacks.hashRec (h : Stacks C st t) :
    (st = .nil ∧ st.hashRec C = none) ∨ st.hashRec C = some (hashedVal C (blob C t)) := by
  induction h with
  | nil => exact .inl ⟨rfl, rfl⟩
  | hashed => exact .inr rfl
  | @leaf k v hk =>
    have henc : (Collapsed.short (hexToCompact (k ++ [term])) (.value v)).encode =
        blob C (.extend (k ++ [term]) (.leaf v)) :=
      encode_short (by rw [Collapsed.encode, ref_leaf])
    refine .inr ?_
    rw [StackTrie.hashRec, compactKey_eq (.inr ⟨k, hk, rfl⟩), henc]
  | @ext k c t hne hk hnil h ih =>
    obtain ⟨hc, -⟩ | hrec := ih
    · exact absurd hc hnil
    · refine .inr ?_
      rw [StackTrie.hashRec, hrec, compactKey_eq (.inl ⟨hk, hne⟩), Option.map_some,
        encode_short (encode_childRef (h.isNode hnil))]
  | @branch cs ts hterm h ih =>
    refine .inr ?_
    have hall : ∀ i, (cs i).isNil = true ∨ ((cs i).hashRec C).isSome = true := fun i ↦ by
      obtain ⟨hnil, -⟩ | hrec := ih i
      · exact .inl (isNil_iff.2 hnil)
      · exact .inr (by rw [hrec]; rfl)
    have hrefs : ∀ i, (branchRef i (cs i) ((cs i).hashRec C)).encode = ref C (ts i) := by
      intro i
      rw [branchRef]
      by_cases hi : i = term
      · rw [hi, hterm]
        rfl
      · rw [if_neg hi]
        by_cases hnil : cs i = .nil
        · have hempty : ts i = .empty := (hnil ▸ h i).eq_empty
          rw [if_pos (isNil_iff.2 hnil), hempty]
          rfl
        · rw [if_neg fun hn ↦ hnil (isNil_iff.1 hn)]
          obtain ⟨hn, -⟩ | hrec := ih i
          · exact absurd hn hnil
          · rw [hrec]
            exact encode_childRef ((h i).isNode hnil)
    rw [StackTrie.hashRec, if_pos hall, encode_full hrefs]

theorem Stacks.hash (h : Stacks C st t) (hnil : st ≠ .nil) :
    st.hash C = .ok (.hashed (hashedVal C (blob C t))) ∧
      Stacks C (.hashed (hashedVal C (blob C t))) t := by
  obtain ⟨hst, -⟩ | hrec := h.hashRec
  · exact absurd hst hnil
  · exact ⟨by rw [StackTrie.hash, hrec], .hashed (h.isNode hnil)⟩

/-- The root hash is the hash of the encoding, whether that was hashed on the way or not. -/
theorem Stacks.rootHash (h : Stacks C st t) (hnil : st ≠ .nil) :
    st.rootHash C = .ok (rootHash C t) := by
  obtain ⟨hst, -⟩ | hrec := h.hashRec
  · exact absurd hst hnil
  · rw [StackTrie.rootHash, hrec, rootHash_of_isNode (h.isNode hnil)]
    by_cases hsmall : (blob C t).length < 32
    · simp only [hashedVal, if_pos hsmall, if_neg (Nat.ne_of_lt hsmall)]
    · simp [hashedVal, if_neg hsmall, length_hashBytes, bytesToHash_hashBytes]

/-! ## Insertion -/

section Insert

variable {a b : Nibble} {p r s s' : List Nibble}

theorem getDiffIndex_diverge (hab : a ≠ b) :
    getDiffIndex (p ++ a :: s) (p ++ b :: s') = .ok p.length := by
  induction p with
  | nil => rw [nil_append, nil_append, getDiffIndex, if_pos hab, length_nil]
  | cons x p ih =>
    rw [cons_append, cons_append, getDiffIndex, if_neg (not_not.2 rfl), ih]
    rfl

theorem getDiffIndex_append (k r : List Nibble) : getDiffIndex k (k ++ r) = .ok k.length := by
  induction k with
  | nil => rw [getDiffIndex, length_nil]
  | cons x k ih =>
    rw [cons_append, getDiffIndex, if_neg (not_not.2 rfl), ih]
    rfl

/-- Hashing the elder sibling keeps what the children stand for. -/
theorem Stacks.unresolve {cs : Nibble → StackTrie} {ts : Nibble → Mpt}
    (h : ∀ i, Stacks C (cs i) (ts i)) (idx : Nibble) :
    ∃ cs', StackTrie.unresolve C cs idx = .ok cs' ∧ (∀ i, Stacks C (cs' i) (ts i)) ∧
      ∀ i, idx ≤ i → cs' i = cs i := by
  rw [StackTrie.unresolve]
  cases helder : elder cs idx with
  | none => exact ⟨cs, rfl, h, fun i _ ↦ rfl⟩
  | some i =>
    have hmem := mem_of_getLast? helder
    rw [mem_filter, Bool.and_eq_true, decide_eq_true_eq] at hmem
    obtain ⟨-, hlt, hset⟩ := hmem
    have hnil : cs i ≠ .nil := fun hn ↦ by
      rw [isNil_iff.2 hn] at hset
      cases hset
    obtain ⟨hhash, hstacks⟩ := (h i).hash hnil
    refine ⟨update cs i (.hashed (hashedVal C (blob C (ts i)))), ?_, fun j ↦ ?_,
      fun j hj ↦ ?_⟩
    · simp only [hhash, Except.map]
    · simpa only [update_eq_self] using rel_update (R := Stacks C) h hstacks i j
    · have hji : j ≠ i := Fin.ne_of_gt (Nat.lt_of_lt_of_le hlt hj)
      rw [update_of_ne hji]

theorem graft_concat (k : List Nibble) (a : Nibble) (t : Mpt) :
    graft (k ++ [a]) t = .extend (k ++ [a]) t := if_neg (by simp)

/-- A node and a new leaf below the digits they have in common. -/
theorem stacks_split {n : StackTrie} {c : Mpt} (hp : term ∉ p) (ha : a ≠ term) (hb : b ≠ term)
    (hab : a < b) (hn : Stacks C n c) (hs' : term ∉ s') (v : Bytes) :
    Stacks C (split p a n b (.leaf s' v))
        (graft p (.branch (forked a c b (graft (s' ++ [term]) (.leaf v))))) ∧
      Tip (split p a n b (.leaf s' v)) (p ++ b :: s') := by
  have hne : a ≠ b := Fin.ne_of_lt hab
  have hleaf : Stacks C (.leaf s' v) (graft (s' ++ [term]) (.leaf v)) := by
    rw [graft_concat]
    exact .leaf v hs'
  have hterm : forked a c b (graft (s' ++ [term]) (.leaf v)) term = .empty := by
    rw [lookup_forked hne, if_neg hb.symm, if_neg ha.symm]
  have hbranch := Stacks.branch hterm (rel_update (R := Stacks C) (rel_update (fun _ ↦ .nil) hn a) hleaf b)
  have htip : Tip (.branch (update (update (fun _ ↦ .nil) a n) b (.leaf s' v)))
      (b :: s') := by
    refine .branch ?_ fun j hj ↦ ?_
    · rw [update_self]
      exact .leaf s' v
    · rw [update_of_ne (Fin.ne_of_gt hj), update_of_ne (Fin.ne_of_gt (Fin.lt_trans hab hj))]
  rw [split, graft]
  split
  · next hnil =>
    rw [hnil]
    exact ⟨hbranch, htip⟩
  · next hne' => exact ⟨.ext hne' hp (by simp) hbranch, .ext p htip⟩

/-- **One insertion** of a key that comes after the last one. -/
theorem Stacks.insert (h : Stacks C st t) (htip : Tip st l) (hkey : term ∉ key) (hl : Before l key)
    (v : Bytes) : ∃ st', st.insert C v key = .ok st' ∧ Stacks C st' (t.insert (key ++ [term]) v) ∧
      Tip st' key := by
  induction htip generalizing t key with
  | leaf k w =>
    cases h with
    | leaf _ hk =>
      obtain ⟨p, a, b, s, s', hab, rfl, rfl⟩ := hl
      simp only [mem_append, mem_cons, not_or] at hk hkey
      have hne : a ≠ b := Fin.ne_of_lt hab
      obtain ⟨hhash, hhashed⟩ := (Stacks.leaf (C := C) w hk.2.2).hash nofun
      have hsplit := stacks_split hk.1 (.symm hk.2.1) (.symm hkey.2.1) hab hhashed hkey.2.2 v
      refine ⟨_, ?_, ?_, hsplit.2⟩
      · rw [StackTrie.insert, getDiffIndex_diverge hne]
        simp only [drop_left, take_left, length_append, length_cons, hhash, Except.map]
        rw [if_neg (by omega)]
      · rw [append_assoc, append_assoc, cons_append, cons_append,
          insert_extend_diverge _ v hne, graft_concat s term]
        exact hsplit.1
  | @ext c r k htip ih =>
    cases h with
    | @ext _ _ t hne hk hnil h =>
      obtain ⟨r', rfl, hr⟩ | ⟨p, a, b, s, s', hab, rfl, rfl⟩ := hl.append_cases
      · obtain ⟨st', hins, hstacks, htip'⟩ := ih h (fun hm ↦ hkey (mem_append_right _ hm)) hr
        refine ⟨.ext k st', ?_, ?_, .ext k htip'⟩
        · rw [StackTrie.insert, getDiffIndex_append]
          simp [hins, Except.map]
        · rw [append_assoc, insert_extend_append]
          exact .ext hne hk htip'.ne_nil hstacks
      · simp only [mem_append, mem_cons, not_or] at hk hkey
        have hne' : a ≠ b := Fin.ne_of_lt hab
        -- what the key leaves behind: the rest of the extension, or the child itself
        have horig : Stacks C (.original (p ++ a :: s) c p.length) (graft s t) ∧
            original (p ++ a :: s) c p.length ≠ .nil := by
          rw [original]
          cases s with
          | nil =>
            rw [if_neg (by simp)]
            exact ⟨h, hnil⟩
          | cons x s =>
            rw [if_pos (by simp), show p ++ a :: x :: s = (p ++ [a]) ++ x :: s by simp,
              show p.length + 1 = (p ++ [a]).length by simp, drop_left]
            exact ⟨.ext (by simp) hk.2.2 hnil h, nofun⟩
        obtain ⟨hhash, hhashed⟩ := horig.1.hash horig.2
        have hsplit := stacks_split hk.1 (.symm hk.2.1) (.symm hkey.2.1) hab hhashed hkey.2.2 v
        refine ⟨_, ?_, ?_, hsplit.2⟩
        · rw [StackTrie.insert, getDiffIndex_diverge hne']
          simp only [hhash, drop_left, take_left]
          rw [if_neg (by simp)]
        · rw [append_assoc, cons_append, insert_extend_diverge _ v hne']
          exact hsplit.1
  | @branch cs i r htip hright ih =>
    cases h with
    | @branch _ ts hterm h =>
      obtain ⟨p, a, b, s, s', hab, hl, rfl⟩ := hl
      cases p with
      | nil =>
        -- a new child to the right of the last one
        obtain ⟨rfl, rfl⟩ := cons.inj hl
        simp only [nil_append, mem_cons, not_or] at hkey
        obtain ⟨cs', hun, hcs', hsame⟩ := Stacks.unresolve h b
        have hempty : ts b = .empty := (hright b hab ▸ h b).eq_empty
        refine ⟨.branch (update cs' b (.leaf s' v)), ?_, ?_, .branch ?_ fun j hj ↦ ?_⟩
        · rw [nil_append, StackTrie.insert, if_neg (Ne.symm hkey.1), hun]
          simp [isNil_iff.2 (hright b hab)]
        · rw [nil_append, cons_append, insert_branch_cons, hempty, insert_empty, graft_concat]
          exact .branch (by rw [update_of_ne hkey.1, hterm]) (rel_update hcs' (.leaf v hkey.2) b)
        · rw [update_self]
          exact .leaf s' v
        · rw [update_of_ne (Fin.ne_of_gt hj), hsame j (Nat.le_of_lt hj), hright j (Fin.lt_trans hab hj)]
      | cons x p =>
        obtain ⟨rfl, rfl⟩ := cons.inj hl
        simp only [cons_append, mem_cons, not_or] at hkey
        obtain ⟨cs', hun, hcs', hsame⟩ := Stacks.unresolve h i
        obtain ⟨st', hins, hstacks, htip'⟩ := ih (h i) hkey.2 ⟨p, a, b, s, s', hab, rfl, rfl⟩
        refine ⟨.branch (update cs' i st'), ?_, ?_, .branch ?_ fun j hj ↦ ?_⟩
        · rw [cons_append, StackTrie.insert, if_neg (Ne.symm hkey.1), hun]
          simp only [hins, Except.map]
          rw [if_neg fun hn ↦ htip.ne_nil (isNil_iff.1 hn)]
        · exact .branch (by rw [update_of_ne hkey.1, hterm]) (rel_update hcs' hstacks i)
        · rw [update_self]
          exact htip'
        · rw [update_of_ne (Fin.ne_of_gt hj), hsame j (Nat.le_of_lt hj), hright j hj]

end Insert

/-! ## Whole runs -/

section Run

variable {entries order : List (Bytes × Bytes)}

theorem dropLast_keybytesToHex (key : Bytes) : (keybytesToHex key).dropLast = nibbles key :=
  dropLast_concat

theorem Stacks.tryUpdate {last key : Bytes} (h : Stacks C st t) (htip : Tip st (nibbles last))
    (hlast : Before last key) (hv : v ≠ []) :
    ∃ st', st.tryUpdate C key v = .ok st' ∧ Stacks C st' (t.insert (keybytesToHex key) v) ∧
      Tip st' (nibbles key) := by
  rw [StackTrie.tryUpdate, if_neg fun hnil ↦ hv (length_eq_zero_iff.1 hnil), dropLast_keybytesToHex]
  exact h.insert htip (term_notMem_nibbles key) (before_nibbles hlast) v

theorem Stacks.tryUpdates {last : Bytes} (h : Stacks C st t) (htip : Tip st (nibbles last))
    (hsorted : ((last, v) :: entries).Pairwise fun p q ↦ Before p.1 q.1) (hv : ∀ p ∈ entries, p.2 ≠ []) :
    ∃ st', st.tryUpdates C entries = .ok st' ∧ Stacks C st' (insertAll t entries) ∧ st' ≠ .nil := by
  induction entries generalizing st t last v with
  | nil => exact ⟨st, rfl, h, htip.ne_nil⟩
  | cons p entries ih =>
    obtain ⟨hlast, hsorted⟩ := pairwise_cons.1 hsorted
    obtain ⟨st₁, hupdate, h₁, htip₁⟩ := h.tryUpdate htip (hlast p mem_cons_self) (hv p mem_cons_self)
    obtain ⟨st₂, hupdates, h₂, hnil⟩ := ih h₁ htip₁ hsorted fun q hq ↦ hv q (mem_cons_of_mem _ hq)
    exact ⟨st₂, by simp only [tryUpdates, hupdate, hupdates], h₂, hnil⟩

/-- **The root of a stack trie** is the root of the tree of its entries. -/
theorem stackTrie_rootHash (C : Crypto) (hsorted : entries.Pairwise fun p q ↦ Before p.1 q.1)
    (hv : ∀ p ∈ entries, p.2 ≠ []) :
    ∃ st, StackTrie.new.tryUpdates C entries = .ok st ∧
      st.rootHash C = .ok (rootHash C (insertAll .empty entries)) := by
  cases entries with
  | nil =>
    exact ⟨.empty, rfl, rfl⟩
  | cons p entries =>
    have hne := hv p mem_cons_self
    have hfirst : StackTrie.new.tryUpdate C p.1 p.2 = .ok (.leaf (nibbles p.1) p.2) := by
      rw [StackTrie.tryUpdate, if_neg fun hnil ↦ hne (length_eq_zero_iff.1 hnil),
        dropLast_keybytesToHex, StackTrie.new, StackTrie.insert]
    obtain ⟨st, hupdates, hst, hnil⟩ := (Stacks.leaf (C := C) p.2 (term_notMem_nibbles p.1)).tryUpdates
      (.leaf _ _) hsorted fun q hq ↦ hv q (mem_cons_of_mem _ hq)
    refine ⟨st, by simp only [tryUpdates, hfirst, hupdates], ?_⟩
    rw [hst.rootHash hnil, insertAll, insertAll, foldl_cons, insert_empty, keybytesToHex, graft_concat]

/-- **Stack tries and tries agree.** Entries with distinct keys of one length, put into a stack trie in
increasing order, give the root that they give in any order in a trie. -/
theorem stackTrie_root_eq_trie_root (C : Crypto) (db : NodeReader) {n : Nat}
    (hlen : ∀ p ∈ entries, p.1.length = n) (hsorted : entries.Pairwise fun p q ↦ p.1 < q.1)
    (hv : ∀ p ∈ entries, p.2 ≠ []) (horder : order.Perm entries) :
    ∃ st root tr tr', StackTrie.new.tryUpdates C entries = .ok st ∧ st.rootHash C = .ok root ∧
      (Trie.newEmpty db).tryUpdates order = .ok tr ∧ tr.hash C = .ok (root, tr') := by
  obtain ⟨st, hst, hroot⟩ := stackTrie_rootHash C (hsorted.imp_of_mem fun hp hq hlt ↦
    before_of_lt ((hlen _ hp).trans (hlen _ hq).symm) hlt) hv
  obtain ⟨tr, htr, -, hholds⟩ := (Trie.holds_newEmpty C db).tryUpdates
    fun p hp ↦ hv p (horder.mem_iff.1 hp)
  obtain ⟨tr', hhash, -, -⟩ := hholds.hash
  have hdistinct : (entries.map Prod.fst).Nodup := by
    refine pairwise_map.2 (hsorted.imp ?_)
    intro p q hlt heq
    rw [heq] at hlt
    exact List.lt_irrefl _ hlt
  refine ⟨st, _, tr, tr', hst, hroot, htr, ?_⟩
  rw [hhash, insertAll_perm .empty hv hdistinct horder]

/-- The entries of the sample, put into a trie from the last one on. -/
theorem stackTrie_root_sample : ∃ st root tr tr',
    StackTrie.new.tryUpdates Sample.crypto Sample.entries = .ok st ∧
      st.rootHash Sample.crypto = .ok root ∧
      (Trie.newEmpty fun _ ↦ none).tryUpdates Sample.entries.reverse = .ok tr ∧
      tr.hash Sample.crypto = .ok (root, tr') :=
  stackTrie_root_eq_trie_root Sample.crypto (fun _ ↦ none) (n := 2) (by decide) (by decide) (by decide)
    (reverse_perm _)

end Run

end GoEntropy.Merkle
