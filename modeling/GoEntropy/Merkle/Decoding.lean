import GoEntropy.Merkle.Denotation

/-!
# Decoding the encoding of a tree

The decoder recovers from the encoding of a tree its top node, with the parts that were embedded and
the hashes of the parts that were not (`decodeNode_blob`). So the encoding determines the tree, as
long as the hashes that occur in it belong to one encoding each (`eq_of_blob_eq`).

This holds for trees that can be stored: values stand where keys end and are not empty, and every
encoding is shorter than `2 ^ 64` bytes, as every slice is.
-/

namespace GoEntropy.Merkle

open GoEntropy.Container Rlp List

/-- A tree that can be stored. -/
structure Storable (C : Crypto) (t : Mpt) : Prop where
  shaped : t.Shaped term
  values : ∀ v, Sub (.leaf v) t → v ≠ []
  fits : ∀ s, Sub s t → isNode s = true → (blob C s).length < 2 ^ 64

section View

variable (C : Crypto)

/-- A child in the decoded form of its parent. -/
def view : Mpt → Node
  | .empty => .nil
  | .leaf v => .value v
  | .extend k c =>
    if 32 ≤ (blob C (.extend k c)).length then .hash (C.keccak256 (blob C (.extend k c)))
    else .short k (view c) ⟨none, false⟩
  | .branch cs =>
    if 32 ≤ (blob C (.branch cs)).length then .hash (C.keccak256 (blob C (.branch cs)))
    else .full (fun i ↦ view (cs i)) ⟨none, false⟩

/-- The decoded form of a node. -/
def unfolded (hash : Option Hash) : Mpt → Node
  | .extend k c => .short k (view C c) ⟨hash, false⟩
  | .branch cs => .full (fun i ↦ view C (cs i)) ⟨hash, false⟩
  | _ => .nil

end View

variable {C : Crypto} {t : Mpt} {k : List Nibble} {c : Mpt} {cs : Nibble → Mpt}

theorem view_of_small (ht : isNode t = true) (h : (blob C t).length < 32) :
    view C t = unfolded C none t := by
  cases t with
  | empty | leaf => cases ht
  | extend | branch => rw [view, if_neg (Nat.not_le.2 h), unfolded]

theorem view_of_large (ht : isNode t = true) (h : 32 ≤ (blob C t).length) :
    view C t = .hash (C.keccak256 (blob C t)) := by
  cases t with
  | empty | leaf => cases ht
  | extend | branch => rw [view, if_pos h]

/-! ## Parts of a tree that can be stored -/

theorem Storable.branch_child (h : Storable C (.branch cs)) {i : Nibble} (hi : i ≠ term) :
    Storable C (cs i) where
  shaped := h.shaped.1 i hi
  values v hv := h.values v (.branch i hv)
  fits s hs := h.fits s (.branch i hs)

theorem Storable.extend_child (h : Storable C (.extend k c)) (hk : term ∉ k) : Storable C c where
  shaped := by
    obtain ⟨-, ⟨-, hc⟩ | ⟨⟨p, -, rfl⟩, -⟩⟩ := h.shaped
    · exact hc
    · simp at hk
  values v hv := h.values v (.extend k hv)
  fits s hs := h.fits s (.extend k hs)

/-- What stands below an extension: a tree, or the value of the key that ends. -/
theorem Storable.extend_cases (h : Storable C (.extend k c)) :
    (term ∉ k ∧ Storable C c) ∨ (Patricia.Ends term k ∧ ∃ v, v ≠ [] ∧ c = .leaf v) := by
  obtain ⟨-, ⟨hk, -⟩ | ⟨hk, v, rfl⟩⟩ := h.shaped
  · exact .inl ⟨hk, h.extend_child hk⟩
  · exact .inr ⟨hk, v, h.values v (.extend k (.refl _)), rfl⟩

theorem Storable.branch_term (h : Storable C (.branch cs)) :
    cs term = .empty ∨ ∃ v, v ≠ [] ∧ cs term = .leaf v := by
  obtain hempty | ⟨v, hleaf⟩ := h.shaped.2
  · exact .inl hempty
  · exact .inr ⟨v, h.values v (.branch term (hleaf ▸ .refl _)), hleaf⟩

theorem Storable.sub {s : Mpt} (h : Storable C t) (hs : Sub s t) (hn : isNode s = true) : Storable C s := by
  induction hs with
  | refl => exact h
  | extend k hs ih =>
    obtain ⟨-, hc⟩ | ⟨-, v, -, rfl⟩ := h.extend_cases
    · exact ih hc
    · cases hs
      cases hn
  | @branch cs i hs ih =>
    by_cases hi : i = term
    · subst hi
      obtain hc | ⟨v, -, hc⟩ := h.branch_term <;> rw [hc] at hs <;> cases hs <;> cases hn
    · exact ih (h.branch_child hi)

theorem exists_items (ht : isNode t = true) : ∃ items, blob C t = framed (flatten items) ∧
    ∀ b ∈ items, b.length ≤ (flatten items).length := by
  have hle : ∀ (items : List Bytes) (b), b ∈ items → b.length ≤ (flatten items).length :=
    fun items b hb ↦ (sublist_flatten_of_mem hb).length_le
  cases t with
  | empty | leaf => cases ht
  | extend k c => exact ⟨_, blob_extend C k c, hle _⟩
  | branch cs => exact ⟨_, blob_branch C cs, hle _⟩

theorem length_le_framed (content : Bytes) : content.length < (framed content).length := by
  have := length_listHeader_pos content.length
  rw [length_framed]
  omega

theorem length_item_lt {items : List Bytes} {b : Bytes} (hb : b ∈ items) :
    b.length < (Rlp.list items).length :=
  (sublist_flatten_of_mem hb).length_le.trans_lt (length_le_framed items.flatten)

theorem ref_leaf (v : Bytes) : ref C (.leaf v) = bytes v := ref_of_not_isNode rfl

/-! ## Decoding -/

section Decode

variable {decode : Option Hash → Bytes → Except DecodeError Node}

theorem length_hashBytes (h : Hash) : (hashBytes h).length = 32 := length_beBytes 32 _

theorem overlong_hashBytes (h : Hash) : overlong (hashBytes h) = false := by
  simp [overlong, length_hashBytes]

theorem blob_empty : blob C .empty = bytes [] := rfl

theorem isItem_ref (hfits : isNode t = true → (blob C t).length < 2 ^ 64)
    (hvalue : ∀ v, t = .leaf v → v.length < 2 ^ 64) : Raw.IsItem (ref C t) := by
  cases hnode : isNode t with
  | false =>
    rw [ref_of_not_isNode hnode]
    cases t with
    | empty =>
      rw [blob_empty]
      exact Raw.isItem_bytes (by simp)
    | leaf v => exact Raw.isItem_bytes (hvalue v rfl)
    | extend | branch => cases hnode
  | true =>
    by_cases hsmall : (blob C t).length < 32
    · obtain ⟨items, hblob, -⟩ := exists_items hnode
      have hlt := hfits hnode
      have := length_le_framed items.flatten
      rw [ref_of_small hsmall, hblob]
      rw [hblob] at hlt
      exact Raw.isItem_framed (by omega)
    · rw [ref_of_large hnode (Nat.not_lt.1 hsmall)]
      exact Raw.isItem_bytes (by simp [length_hashBytes])

theorem decodeRef_ref (ht : t.Shaped term) (hfits : isNode t = true → (blob C t).length < 2 ^ 64)
    (rest : Bytes) (hdecode : isNode t = true → (blob C t).length < 32 →
      decode none (blob C t ++ rest) = .ok (unfolded C none t)) :
    decodeRef decode (ref C t ++ rest) = .ok (view C t, rest) := by
  cases hnode : isNode t with
  | false =>
    cases t with
    | empty =>
      rfl
    | leaf => exact ht.elim
    | extend | branch => cases hnode
  | true =>
    by_cases hsmall : (blob C t).length < 32
    · obtain ⟨items, hblob, -⟩ := exists_items hnode
      have hlen := length_le_framed items.flatten
      have hlt := hfits hnode
      have hdec := hdecode hnode hsmall
      rw [ref_of_small hsmall, view_of_small hnode hsmall]
      rw [hblob] at hdec hlt hsmall ⊢
      rw [decodeRef, Raw.split_framed (by omega)]
      simp only [length_append]
      rw [if_neg (by omega), hdec]
      rfl
    · rw [ref_of_large hnode (Nat.not_lt.1 hsmall), view_of_large hnode (Nat.not_lt.1 hsmall),
        decodeRef, Raw.split_bytes (by simp [length_hashBytes]), overlong_hashBytes]
      simp [length_hashBytes]

theorem decodeRefs_flatten {ts : List Mpt} {rest : Bytes} (i : Nat)
    (h : ∀ t ∈ ts, ∀ r, r.length ≤ ((ts.map (ref C)).flatten ++ rest).length - (ref C t).length →
      decodeRef decode (ref C t ++ r) = .ok (view C t, r)) :
    decodeRefs decode ts.length i ((ts.map (ref C)).flatten ++ rest) = .ok (ts.map (view C), rest) := by
  induction ts generalizing i with
  | nil => rfl
  | cons t ts ih =>
    rw [map_cons, flatten_cons, append_assoc, length_cons, decodeRefs,
      h t mem_cons_self _ (by simp)]
    have hrest := ih (i + 1) fun u hu r hr ↦ h u (mem_cons_of_mem _ hu) r (by
      simp only [map_cons, flatten_cons, length_append] at hr ⊢
      omega)
    simp [wrapError, Except.mapError, hrest]

theorem splitStringOr_bytes (cause : RlpError → DecodeCause) {b : Bytes} (hb : b.length < 2 ^ 64)
    (rest : Bytes) : splitStringOr cause (bytes b ++ rest) = .ok (b, rest) := by
  rw [splitStringOr, Raw.splitString_bytes hb]
  rfl

theorem lt_of_bytes_mem {items : List Bytes} {v : Bytes} (hfits : (Rlp.list items).length < 2 ^ 64)
    (hv : bytes v ∈ items) : v.length < 2 ^ 64 :=
  ((le_length_bytes v).trans_lt (length_item_lt hv)).trans hfits

theorem decodeNodeFrom_list {fuel : Nat} {items : List Bytes} {rest : Bytes} (hash : Option Hash)
    (hitems : ∀ b ∈ items, Raw.IsItem b) (hfits : (Rlp.list items).length < 2 ^ 64) :
    decodeNodeFrom (fuel + 1) hash (Rlp.list items ++ rest) = match items.length with
      | 2 => wrapError .short (decodeShort (decodeNodeFrom fuel) hash items.flatten)
      | 17 => wrapError .full (decodeFull (decodeNodeFrom fuel) hash items.flatten)
      | c => .error (DecodeCause.elements c).bare := by
  have hlen : items.flatten.length < (Rlp.list items).length := length_le_framed items.flatten
  have hsplit : Raw.splitList (Rlp.list items ++ rest) = .ok (items.flatten, rest) :=
    Raw.splitList_framed (hlen.trans hfits) rest
  rw [decodeNodeFrom, if_neg, hsplit]
  · simp only [Raw.countValues_flatten hitems]
    split <;> simp_all
  · rw [length_append]
    omega

theorem fullChildren_ofFn {val : Bytes}
    (hval : (cs term = .empty ∧ val = []) ∨ (cs term = .leaf val ∧ val ≠ [])) :
    fullChildren (ofFn fun j : Fin 16 ↦ view C (cs j.castSucc)) val = fun i ↦ view C (cs i) := by
  funext i
  rw [fullChildren]
  by_cases hi : i = term
  · rw [hi]
    obtain ⟨hcs, rfl⟩ | ⟨hcs, hne⟩ := hval
    · rw [hcs]
      rfl
    · rw [hcs, if_neg fun h0 ↦ hne (eq_nil_of_length_eq_zero h0)]
      rfl
  · have hlt : i.val < 16 := by
      have := Fin.val_ne_of_ne hi
      have hval : (term : Nibble).val = 16 := rfl
      omega
    rw [if_neg hi, List.getElem?_ofFn, dif_pos hlt]
    rfl

theorem ofFn_ref_eq (cs : Nibble → Mpt) : ofFn (fun i ↦ ref C (cs i)) =
    (ofFn fun j : Fin 16 ↦ cs j.castSucc).map (ref C) ++ [ref C (cs term)] := by
  rfl

/-- **The decoder recovers the top node of a tree.** -/
theorem decodeNodeFrom_blob (h : Storable C t) (ht : isNode t = true) (hash : Option Hash)
    (rest : Bytes) {fuel : Nat} (hfuel : (blob C t ++ rest).length < fuel) :
    decodeNodeFrom fuel hash (blob C t ++ rest) = .ok (unfolded C hash t) := by
  induction t generalizing hash rest fuel with
  | empty | leaf => cases ht
  | extend k c ih =>
    obtain ⟨fuel, rfl⟩ : ∃ f, fuel = f + 1 := ⟨fuel - 1, by omega⟩
    have hfits := h.fits _ (.refl _) rfl
    rw [blob_extend] at hfits hfuel ⊢
    have hleaf : ∀ v, c = .leaf v → v.length < 2 ^ 64 := by
      rintro v rfl
      exact lt_of_bytes_mem hfits (by simp [ref_leaf])
    have hkey : (hexToCompact k).length < 2 ^ 64 := lt_of_bytes_mem hfits (by simp)
    have hroundtrip : compactToHex (hexToCompact k) = k := by
      obtain ⟨hk, -⟩ | ⟨hk, -⟩ := h.extend_cases
      · exact compactToHex_hexToCompact (.inl hk)
      · exact compactToHex_hexToCompact (.inr hk)
    have hitem : Raw.IsItem (ref C c) := isItem_ref (h.fits c (.extend k (.refl _))) hleaf
    rw [decodeNodeFrom_list hash (by simp [Raw.isItem_bytes hkey, hitem]) hfits]
    simp only [flatten_cons, flatten_nil, append_nil, decodeShort,
      splitStringOr_bytes _ hkey, hroundtrip]
    obtain ⟨hk, hc⟩ | ⟨hk, v, -, rfl⟩ := h.extend_cases
    · rw [hasTerm_of_notMem hk]
      have href : decodeRef (decodeNodeFrom fuel) (ref C c ++ []) = .ok (view C c, []) := by
        refine decodeRef_ref hc.shaped (hc.fits c (.refl c)) [] fun hnode hsmall ↦
          ih hc hnode none [] ?_
        have hlt := length_item_lt (show ref C c ∈ [bytes (hexToCompact k), ref C c] by simp)
        have hsame := congrArg length (ref_of_small hsmall)
        rw [length_append] at hfuel
        rw [append_nil]
        omega
      rw [append_nil] at href
      rw [href]
      rfl
    · have hsplit := splitStringOr_bytes .invalidValue (hleaf v rfl) []
      rw [append_nil] at hsplit
      rw [hasTerm_of_ends hk, ref_leaf, hsplit]
      rfl
  | branch cs ih =>
    obtain ⟨fuel, rfl⟩ : ∃ f, fuel = f + 1 := ⟨fuel - 1, by omega⟩
    have hfits := h.fits _ (.refl _) rfl
    rw [blob_branch] at hfits hfuel ⊢
    have hlen := length_le_framed (ofFn fun i ↦ ref C (cs i)).flatten
    have htotal : (Rlp.list (.ofFn fun i ↦ ref C (cs i))).length =
      (framed (ofFn fun i ↦ ref C (cs i)).flatten).length := rfl
    have hle : ∀ i, (ref C (cs i)).length ≤ (ofFn fun i ↦ ref C (cs i)).flatten.length := fun i ↦
      (sublist_flatten_of_mem (mem_ofFn.2 ⟨i, rfl⟩ : ref C (cs i) ∈ _)).length_le
    have hleaf : ∀ i v, cs i = .leaf v → v.length < 2 ^ 64 := fun i v hi ↦
      lt_of_bytes_mem hfits (mem_ofFn.2 ⟨i, by rw [hi, ref_leaf]⟩)
    have hitems : ∀ b ∈ ofFn (fun i ↦ ref C (cs i)), Raw.IsItem b := by
      intro b hb
      obtain ⟨i, rfl⟩ := (mem_ofFn).1 hb
      exact isItem_ref (h.fits _ (.branch i (.refl _))) (hleaf i)
    rw [decodeNodeFrom_list hash hitems hfits]
    obtain ⟨val, hval, hterm⟩ : ∃ val, ((cs term = .empty ∧ val = []) ∨ (cs term = .leaf val ∧ val ≠ [])) ∧
        ref C (cs term) = bytes val := by
      obtain hempty | ⟨v, hv, hleaf'⟩ := h.branch_term
      · exact ⟨[], .inl ⟨hempty, rfl⟩, by rw [hempty, ref_of_not_isNode rfl, blob_empty]⟩
      · exact ⟨v, .inr ⟨hleaf', hv⟩, by rw [hleaf', ref_leaf]⟩
    have hvalLen : val.length < 2 ^ 64 := by
      obtain ⟨-, rfl⟩ | ⟨hv, -⟩ := hval
      · simp
      · exact hleaf term val hv
    have hcontent : (ofFn fun i ↦ ref C (cs i)).flatten.length =
        ((ofFn fun j ↦ cs j.castSucc).map (ref C)).flatten.length + (bytes val).length := by
      rw [ofFn_ref_eq, flatten_append, hterm, length_append]
      simp
    have hrefs : decodeRefs (decodeNodeFrom fuel) 16 0 (ofFn fun i ↦ ref C (cs i)).flatten =
        .ok (.ofFn fun j ↦ view C (cs j.castSucc), bytes val) := by
      have hrun : decodeRefs (decodeNodeFrom fuel) (ofFn fun j ↦ cs j.castSucc).length 0
          (((ofFn fun j ↦ cs j.castSucc).map (ref C)).flatten ++ bytes val) =
            .ok ((ofFn fun j ↦ cs j.castSucc).map (view C), bytes val) := by
        refine decodeRefs_flatten 0 fun u hu r hr ↦ ?_
        obtain ⟨j, rfl⟩ := (mem_ofFn).1 hu
        have hj : (j.castSucc : Nibble) ≠ term := Fin.ne_of_lt (Fin.castSucc_lt_last j)
        refine decodeRef_ref (h.branch_child hj).shaped (h.fits _ (.branch _ (.refl _))) r
          fun hnode hsmall ↦ ih _ (h.branch_child hj) hnode none r ?_
        have hj' := hle j.castSucc
        rw [ref_of_small hsmall] at hr hj'
        rw [length_append] at hfuel hr ⊢
        omega
      rw [ofFn_ref_eq, hterm]
      simpa using hrun
    have hsplit := splitStringOr_bytes .rlp hvalLen []
    rw [append_nil] at hsplit
    rw [decodeFull, hrefs]
    simp only [hsplit, fullChildren_ofFn hval]
    rfl

theorem decodeNode_blob (h : Storable C t) (ht : isNode t = true) (hash : Option Hash) :
    decodeNode hash (blob C t) = .ok (unfolded C hash t) := by
  simpa [decodeNode] using decodeNodeFrom_blob h ht hash [] (Nat.lt_succ_self _)

end Decode

/-! ## The encoding determines the tree -/

section Injective

variable {u : Mpt}

theorem unfolded_eq_of_view_eq (ht : Storable C t) (hu : Storable C u) (htn : isNode t = true)
    (hun : isNode u = true) (hinj : Set.InjOn C.keccak256 (blobs C t ∪ blobs C u))
    (h : view C t = view C u) : unfolded C none t = unfolded C none u := by
  have hhash : ∀ {e : Mpt} {x : Hash}, unfolded C none e ≠ .hash x := by
    intro e x hx
    cases e <;> cases hx
  by_cases hts : (blob C t).length < 32 <;> by_cases hus : (blob C u).length < 32
  · rwa [view_of_small htn hts, view_of_small hun hus] at h
  · rw [view_of_small htn hts, view_of_large hun (Nat.not_lt.1 hus)] at h
    exact absurd h hhash
  · rw [view_of_large htn (Nat.not_lt.1 hts), view_of_small hun hus] at h
    exact absurd h.symm hhash
  · rw [view_of_large htn (Nat.not_lt.1 hts), view_of_large hun (Nat.not_lt.1 hus)] at h
    have hblob := hinj (.inl (blob_mem_blobs (.refl t) htn)) (.inr (blob_mem_blobs (.refl u) hun))
      (Node.hash.inj h)
    have hdec := decodeNode_blob ht htn none
    rw [hblob, decodeNode_blob hu hun] at hdec
    exact (Except.ok.inj hdec).symm

theorem eq_of_view_eq (ht : isNode t = true → Storable C t) (hu : isNode u = true → Storable C u)
    (hinj : Set.InjOn C.keccak256 (blobs C t ∪ blobs C u)) (h : view C t = view C u) : t = u := by
  induction t generalizing u with
  | empty | leaf v =>
    cases u with
    | empty | leaf v' => cases h <;> rfl
    | extend | branch =>
      simp only [view] at h
      split at h <;> cases h
  | extend k c ih =>
    cases u with
    | empty | leaf v =>
      simp only [view] at h
      split at h <;> cases h
    | branch => cases unfolded_eq_of_view_eq (ht rfl) (hu rfl) rfl rfl hinj h
    | extend k' c' =>
      have heq := unfolded_eq_of_view_eq (ht rfl) (hu rfl) rfl rfl hinj h
      simp only [unfolded, Node.short.injEq, and_true] at heq
      obtain ⟨rfl, hview⟩ := heq
      have hsub : ∀ c, Sub c (.extend k c) := fun c ↦ .extend k (.refl c)
      rw [ih ((ht rfl).sub (hsub c)) ((hu rfl).sub (hsub c'))
        (hinj.mono (Set.union_subset_union (blobs_mono (hsub c)) (blobs_mono (hsub c')))) hview]
  | branch cs ih =>
    cases u with
    | empty | leaf v =>
      simp only [view] at h
      split at h <;> cases h
    | extend => cases unfolded_eq_of_view_eq (ht rfl) (hu rfl) rfl rfl hinj h
    | branch cs' =>
      have heq := unfolded_eq_of_view_eq (ht rfl) (hu rfl) rfl rfl hinj h
      simp only [unfolded, Node.full.injEq, and_true] at heq
      congr 1
      funext i
      have hsub : ∀ cs : Nibble → Mpt, Sub (cs i) (.branch cs) := fun cs ↦ .branch i (.refl _)
      exact ih i ((ht rfl).sub (hsub cs)) ((hu rfl).sub (hsub cs'))
        (hinj.mono (Set.union_subset_union (blobs_mono (hsub cs)) (blobs_mono (hsub cs')))) (congrFun heq i)

/-- **The encoding determines the tree.** -/
theorem eq_of_blob_eq (ht : Storable C t) (hu : Storable C u) (htn : isNode t = true)
    (hun : isNode u = true) (hinj : Set.InjOn C.keccak256 (blobs C t ∪ blobs C u))
    (h : blob C t = blob C u) : t = u := by
  refine eq_of_view_eq (fun _ ↦ ht) (fun _ ↦ hu) hinj ?_
  by_cases hsmall : (blob C t).length < 32
  · have hdec := decodeNode_blob ht htn none
    rw [h, decodeNode_blob hu hun] at hdec
    rw [view_of_small htn hsmall, view_of_small hun (h ▸ hsmall), Except.ok.inj hdec]
  · rw [view_of_large htn (Nat.not_lt.1 hsmall), view_of_large hun (h ▸ Nat.not_lt.1 hsmall), h]

end Injective

end GoEntropy.Merkle
