import GoEntropy.Merkle.Decoding
import GoEntropy.Merkle.Trie

/-!
# Walks along a key

`tryGet` and `insert` do on a node what `lookup` and `insert` of Patricia trees do on the tree it
stands for. A walk inside a node is described with what `onHash` does at a hash node as a
hypothesis, which is needed only if the walk meets one (`Node.meets`). The bound on loads is counted
in digits of the key.
-/

namespace GoEntropy.Merkle

open GoEntropy.Container Patricia Function List

/-! ## The database -/

section Served

variable (C : Crypto) (db : NodeReader)

/-- The database has the node of a tree. The node may refer to parts of the tree by their hashes. -/
def ServedAt (t : Mpt) : Prop :=
  ∃ n, db (C.keccak256 (blob C t)) = some n ∧ (∀ x, n ≠ .hash x) ∧ Rooted C (Sub · t) n t

/-- The database has the nodes of a tree, as far as they are referred to by their hashes. -/
def Served (t : Mpt) : Prop :=
  ServedAt C db t ∧ ∀ s, Sub s t → isNode s = true → 32 ≤ (blob C s).length → ServedAt C db s

end Served

variable {C : Crypto} {db : NodeReader} {Q : Mpt → Prop} {n : Node} {t : Mpt} {key : List Nibble}

theorem Served.load (h : Served C db t) : ∃ n, db (C.keccak256 (blob C t)) = some n ∧
    (∀ x, n ≠ .hash x) ∧ Rooted C (Served C db) n t := by
  obtain ⟨n, hdb, hn, hroot⟩ := h.1
  refine ⟨n, hdb, hn, hroot.outline.mono (fun u hu hlarge hsub ↦ ?_) hn, hroot.cached⟩
  exact ⟨h.2 u hsub hu hlarge, fun s hs ↦ h.2 s (hs.trans hsub)⟩

/-! ## Walks that meet hash nodes -/

/-- Whether the walk along a key meets a hash node. -/
def Node.meets : Node → List Nibble → Bool
  | .nil, _ => false
  | .value _, _ => false
  | .hash _, _ => true
  | .short k val _, key => if k <+: key then val.meets (key.drop k.length) else false
  | .full _ _, [] => false
  | .full cs _, a :: key => (cs a).meets key

@[simp] theorem meets_short_append (k r : List Nibble) (n : Node) (flags : NodeFlag) :
    (Node.short k n flags).meets (k ++ r) = n.meets r := by
  rw [Node.meets, if_pos (prefix_append _ _), drop_left]

/-! ## Reading -/

section Get

variable {onHash : Hash → List Nibble → List Nibble → Except TrieError (Option Bytes × Node × Bool)}

/-- The node that comes back from reading: the node itself if nothing was loaded, otherwise a node
that stands for the same tree. -/
structure Reread (C : Crypto) (Q : Mpt → Prop) (n : Node) (t : Mpt) (m : Node) (didResolve : Bool) : Prop where
  same : didResolve = false → m = n
  notHash : didResolve = true → ∀ x, m ≠ .hash x
  outline : didResolve = true → Outline C Q m t
  cached : didResolve = true → ((∃ x, n = .hash x) ∧ Rooted C Q m t) ∨ m.cachedHash = n.cachedHash

theorem Reread.denotes {m : Node} {r : Bool} (h : Reread C Q n t m r) (hn : Denotes C Q n t) :
    Denotes C Q (if r then m else n) t := by
  split
  · next hr =>
    refine (h.outline hr).denotes (h.notHash hr) fun x hx ↦ ?_
    obtain ⟨⟨y, rfl⟩, hroot⟩ | hsame := h.cached hr
    · cases hn with
      | hash _ hlarge _ => exact ⟨hroot.cached x hx, hlarge⟩
    · exact hn.cached x (hsame ▸ hx)
  · exact hn

theorem Reread.rooted {m : Node} {r : Bool} (h : Reread C Q n t m r) (hn : Rooted C Q n t) :
    Rooted C Q m t := by
  cases r with
  | false => rwa [h.same rfl]
  | true =>
    obtain ⟨-, hroot⟩ | hsame := h.cached rfl
    · exact hroot
    · exact ⟨h.outline rfl, fun x hx ↦ hn.cached x (hsame ▸ hx)⟩

theorem reread_self (C : Crypto) (Q : Mpt → Prop) (n : Node) (t : Mpt) : Reread C Q n t n false :=
  ⟨fun _ ↦ rfl, nofun, nofun, nofun⟩

theorem tryGetFrom_spec {b : Nat} (hn : Outline C Q n t) (hkey : t.Reads term key)
    (hlen : key.length ≤ b + 1) (hhash : (∃ x, n = .hash x) → key.length ≤ b)
    (hload : ∀ u path key, isNode u = true → Q u → u.Reads term key → key.length ≤ b →
      ∃ m, onHash (C.keccak256 (blob C u)) path key = .ok (u.lookup key, m, true) ∧
        (∀ x, m ≠ .hash x) ∧ Rooted C Q m u) (path : List Nibble) :
    ∃ m r, tryGetFrom onHash n path key = .ok (t.lookup key, m, r) ∧ Reread C Q n t m r := by
  induction n generalizing t key path with
  | nil =>
    cases hn
    exact ⟨.nil, false, by simp [tryGetFrom], reread_self ..⟩
  | value v =>
    cases hn
    obtain rfl := hkey.eq_nil
    exact ⟨.value v, false, by simp [tryGetFrom], reread_self ..⟩
  | hash x =>
    cases hn with
    | @hash t hnode hQ =>
      obtain ⟨m, hm, hmh, hroot⟩ := hload t path key hnode hQ hkey (hhash ⟨_, rfl⟩)
      exact ⟨m, true, by rw [tryGetFrom, hm], by simp, fun _ ↦ hmh, fun _ ↦ hroot.outline,
        fun _ ↦ .inl ⟨⟨_, rfl⟩, hroot⟩⟩
  | short k val flags ih =>
    cases hn with
    | @short _ _ c _ hval =>
      obtain ⟨r, rfl, hr⟩ | ⟨p, a, b, s, s', hab, rfl, rfl⟩ := hkey.extend_cases
      · have hk : 0 < k.length := length_pos_of_ne_nil hkey.shaped.1
        rw [length_append] at hlen
        obtain ⟨m, didResolve, hget, hm⟩ := ih hval.outline hr (by omega) (fun _ ↦ by omega) (path ++ k)
        refine ⟨.short k (if didResolve then m else val) flags, didResolve, ?_, fun hr ↦ ?_,
          fun _ ↦ by simp, fun _ ↦ .short (hm.denotes hval), fun _ ↦ .inr rfl⟩
        · rw [tryGetFrom, if_pos (prefix_append _ _), drop_left, hget, lookup_extend_append]
        · rw [hr, if_neg (by decide)]
      · have hnp : ¬ p ++ a :: s <+: p ++ b :: s' := not_prefix_of_diverge hab
        exact ⟨_, false, by rw [tryGetFrom, if_neg hnp, lookup_extend_of_not_le hnp],
          reread_self ..⟩
  | full cs flags ih =>
    cases hn with
    | @full _ ts _ hcs =>
      obtain ⟨a, r, rfl, hr⟩ := hkey.exists_cons
      rw [length_cons] at hlen
      obtain ⟨m, didResolve, hget, hm⟩ :=
        ih a (hcs a).outline hr (by omega) (fun _ ↦ by omega) (path ++ [a])
      refine ⟨.full (if didResolve then update cs a m else cs) flags, didResolve, ?_,
        fun hresolved ↦ ?_, fun _ ↦ by simp, fun hresolved ↦ .full fun i ↦ ?_, fun _ ↦ .inr rfl⟩
      · rw [tryGetFrom, hget, lookup_branch_cons]
      · rw [hresolved, if_neg (by decide)]
      · have hden := hm.denotes (hcs a)
        rw [if_pos hresolved] at hden ⊢
        simpa only [update_eq_self] using rel_update (R := Denotes C Q) hcs hden a i

/-- A hash node stands for a node, and a node reads a digit. -/
theorem length_pos_of_isNode {u : Mpt} (hu : isNode u = true) (hkey : u.Reads term key) :
    0 < key.length := by
  cases u with
  | empty | leaf => cases hu
  | extend => exact length_pos_of_ne_nil hkey.ends.ne_nil
  | branch =>
    obtain ⟨a, r, rfl, -⟩ := hkey.exists_cons
    exact Nat.succ_pos _

/-- **Reading a trie.** -/
theorem tryGet_spec (owner : Hash) {loads : Nat} (hn : Rooted C (Served C db) n t)
    (hkey : t.Reads term key) (hlen : key.length ≤ loads + 1)
    (hhash : (∃ x, n = .hash x) → key.length ≤ loads) (path : List Nibble) :
    ∃ m r, tryGet db owner loads n path key = .ok (t.lookup key, m, r) ∧
      Reread C (Served C db) n t m r := by
  induction loads generalizing n t key path with
  | zero =>
    exact tryGetFrom_spec hn.outline hkey hlen hhash (fun u path key hnode _ hreads hle ↦
      absurd (length_pos_of_isNode hnode hreads) (by omega)) path
  | succ loads ih =>
    refine tryGetFrom_spec hn.outline hkey hlen hhash (fun u path key hnode hQ hreads hle ↦ ?_) path
    obtain ⟨rn, hdb, hrn, hroot⟩ := hQ.load
    obtain ⟨m, r, hget, hm⟩ := ih hroot hreads hle (fun ⟨x, hx⟩ ↦ absurd hx (hrn x)) path
    refine ⟨m, ?_, ?_, hm.rooted hroot⟩
    · simp [load, hdb, resolvedGet, hget, Except.map]
    · cases r with
      | false =>
        rw [hm.same rfl]
        exact hrn
      | true => exact hm.notHash rfl

end Get

/-! ## Insertion -/

section Insert

variable {onHash : Hash → List Nibble → List Nibble → Except TrieError (Bool × Node)} {m : Node}
  {v : Bytes} {k r path p s s' : List Nibble} {a b : Nibble}

theorem denotes_insertNil {c : Mpt} (h : Denotes C Q m c) (k : List Nibble) :
    Denotes C Q (insertNil k m) (graft k c) := by
  rw [insertNil, graft]
  split
  · exact h
  · exact .short h (cached_new _)

theorem denotes_branchOut {m' : Node} {c c' : Mpt} (a b : Nibble) (h : Denotes C Q m c)
    (h' : Denotes C Q m' c') : Denotes C Q (branchOut a m b m') (.branch (forked a c b c')) :=
  .full (rel_update (R := Denotes C Q) (rel_update (fun _ ↦ .nil) h a) h' b) (cached_new _)

theorem insertFrom_nil (value : Node) (n : Node) (path : List Nibble) :
    insertFrom onHash value n path [] = insertHere n value := by
  cases n <;> rfl

theorem insertFrom_short_append (value val : Node) (flags : NodeFlag) (hne : k ++ r ≠ []) :
    insertFrom onHash value (.short k val flags) path (k ++ r) =
      match insertFrom onHash value val (path ++ k) r with
      | .error err => .error err
      | .ok (false, _) => .ok (false, .short k val flags)
      | .ok (true, nn) => .ok (true, .short k nn .new) := by
  rw [insertFrom]
  · simp [prefixLen_append] <;> rfl
  · exact hne

theorem insertFrom_short_diverge (value val : Node) (flags : NodeFlag) (hab : a ≠ b) :
    insertFrom onHash value (.short (p ++ a :: s) val flags) path (p ++ b :: s') =
      .ok (true, insertNil p (branchOut a (insertNil s val) b (insertNil s' value))) := by
  rw [insertFrom]
  · simp only [prefixLen_diverge (.symm hab), take_left, drop_left]
    rw [if_neg (by simp)]
    simp only [length_eq_zero_iff]
    rfl
  · simp

/-- What an insertion returns: whether the tree changed, and a node for the tree with the value. The
node of a tree that did not change is the node itself, or what was loaded for it. -/
structure Inserted (C : Crypto) (Q : Mpt → Prop) (n : Node) (t t' : Mpt) (dirty : Bool) (m : Node) : Prop where
  changed : dirty = true → Denotes C Q m t'
  notHash : dirty = true → ∀ x, m ≠ .hash x
  same : dirty = false → t' = t
  kept : dirty = false → m = n ∨ ((∃ x, n = .hash x) ∧ (∀ x, m ≠ .hash x) ∧ Rooted C Q m t)

theorem inserted_changed (h : Denotes C Q m t') (hm : ∀ x, m ≠ .hash x) : Inserted C Q n t t' true m :=
  ⟨fun _ ↦ h, fun _ ↦ hm, nofun, nofun⟩

theorem inserted_same (h : t' = t) : Inserted C Q n t t' false n :=
  ⟨nofun, nofun, fun _ ↦ h, fun _ ↦ .inl rfl⟩

theorem insertFrom_spec {b : Nat} (hn : Outline C Q n t) (hkey : t.Reads term key)
    (hlen : key.length ≤ b + 1) (hhash : (∃ x, n = .hash x) → key.length ≤ b)
    (hload : n.meets key = true → ∀ u path key, isNode u = true → Q u → u.Reads term key →
      key.length ≤ b → ∃ dirty m, onHash (C.keccak256 (blob C u)) path key = .ok (dirty, m) ∧
        Inserted C Q (.hash (C.keccak256 (blob C u))) u (u.insert key v) dirty m)
    (path : List Nibble) :
    ∃ dirty m, insertFrom onHash (.value v) n path key = .ok (dirty, m) ∧
      Inserted C Q n t (t.insert key v) dirty m := by
  induction n generalizing t key path with
  | nil =>
    cases hn
    cases key with
    | nil =>
      exact ⟨true, .value v, by rw [insertFrom_nil]; rfl, inserted_changed (.value v) (by simp)⟩
    | cons x key =>
      exact ⟨true, .short (x :: key) (.value v) .new, by rw [insertFrom]; simp,
        inserted_changed (.short (.value v) (cached_new _)) (by simp)⟩
  | value w =>
    cases hn
    obtain rfl := hkey.eq_nil
    refine ⟨w != v, .value v, by rw [insertFrom_nil]; rfl, fun _ ↦ .value v, fun _ ↦ by simp, ?_, ?_⟩
    · intro hsame
      obtain rfl : w = v := by simpa using hsame
      rw [Patricia.insert, if_pos rfl]
    · intro hsame
      obtain rfl : w = v := by simpa using hsame
      exact .inl rfl
  | hash x =>
    cases hn with
    | @hash t hnode hQ =>
      obtain ⟨dirty, m, hm, hins⟩ := hload rfl t path key hnode hQ hkey (hhash ⟨_, rfl⟩)
      refine ⟨dirty, m, ?_, hins⟩
      obtain ⟨y, key, rfl⟩ := exists_cons_of_ne_nil
        (ne_nil_of_length_pos (length_pos_of_isNode hnode hkey))
      rw [insertFrom]
      · exact hm
      · simp
  | short k val flags ih =>
    cases hn with
    | @short _ _ c _ hval =>
      obtain ⟨r, rfl, hr⟩ | ⟨p, a, b, s, s', hab, rfl, rfl⟩ := hkey.extend_cases
      · have hk : 0 < k.length := length_pos_of_ne_nil hkey.shaped.1
        rw [length_append] at hlen
        rw [meets_short_append] at hload
        obtain ⟨dirty, m, hm, hins⟩ :=
          ih hval.outline hr (by omega) (fun _ ↦ by omega) hload (path ++ k)
        rw [insertFrom_short_append _ _ _ hkey.ends.ne_nil, hm, insert_extend_append]
        cases dirty with
        | true =>
          exact ⟨true, _, rfl, inserted_changed (.short (hins.changed rfl) (cached_new _)) (by simp)⟩
        | false =>
          exact ⟨false, _, rfl, inserted_same (by rw [hins.same rfl])⟩
      · rw [insertFrom_short_diverge _ _ _ hab, insert_extend_diverge _ _ hab]
        have hden := denotes_insertNil (denotes_branchOut a b (denotes_insertNil hval s)
          (denotes_insertNil (.value v) s')) p
        refine ⟨true, _, rfl, inserted_changed hden fun x hx ↦ ?_⟩
        rw [insertNil] at hx
        split at hx <;> cases hx
  | full cs flags ih =>
    cases hn with
    | @full _ ts _ hcs =>
      obtain ⟨a, r, rfl, hr⟩ := hkey.exists_cons
      rw [length_cons] at hlen
      obtain ⟨dirty, m, hm, hins⟩ :=
        ih a (hcs a).outline hr (by omega) (fun _ ↦ by omega) hload (path ++ [a])
      rw [insertFrom, hm, insert_branch_cons]
      cases dirty with
      | true =>
        refine ⟨true, _, rfl, inserted_changed (.full (fun i ↦ ?_) (cached_new _)) (by simp)⟩
        exact rel_update (R := Denotes C Q) hcs (hins.changed rfl) a i
      | false =>
        refine ⟨false, _, rfl, inserted_same ?_⟩
        rw [hins.same rfl, update_eq_self]

/-- **Inserting into a trie.** -/
theorem insert_spec (owner : Hash) {loads : Nat} (hn : Rooted C (Served C db) n t)
    (hkey : t.Reads term key) (hlen : key.length ≤ loads + 1)
    (hhash : (∃ x, n = .hash x) → key.length ≤ loads) (path : List Nibble) :
    ∃ dirty m, insert db owner (.value v) loads n path key = .ok (dirty, m) ∧
      Inserted C (Served C db) n t (t.insert key v) dirty m := by
  induction loads generalizing n t key path with
  | zero =>
    exact insertFrom_spec hn.outline hkey hlen hhash (fun _ u path key hnode _ hreads hle ↦
      absurd (length_pos_of_isNode hnode hreads) (by omega)) path
  | succ loads ih =>
    refine insertFrom_spec hn.outline hkey hlen hhash (fun _ u path key hnode hQ hreads hle ↦ ?_) path
    obtain ⟨rn, hdb, hrn, hroot⟩ := hQ.load
    obtain ⟨dirty, m, hm, hins⟩ := ih hroot hreads hle (fun ⟨x, hx⟩ ↦ absurd hx (hrn x)) path
    cases dirty with
    | true =>
      refine ⟨true, m, by simp [load, hdb, resolvedChange, hm, Except.map], fun _ ↦ hins.changed rfl,
        fun _ ↦ hins.notHash rfl, nofun, nofun⟩
    | false =>
      exact ⟨false, rn, by simp [load, hdb, resolvedChange, hm, Except.map], nofun, nofun,
        fun _ ↦ hins.same rfl, fun _ ↦ .inr ⟨⟨_, rfl⟩, hrn, hroot⟩⟩

end Insert

end GoEntropy.Merkle
