import GoEntropy.Consensus.Ethash

/-!
# Uncles

A block may include an uncle whose parent is one of the ancestors that were gathered, and the uncles of
the ancestors are banned only as far as their bodies were examined. Both go back seven generations at
most. Two inclusions of one uncle are excluded all the same: its number fixes the number of its parent,
so the parent lies further back than the first block that included it, and the body of that block was
examined on the way (`gather_spec`, `Related`).

The check does not look at the commitment of a header to its uncles. A block that hides its uncles, or an
uncle that names the block itself as its parent, gets through (`accepts_nephew`); the validation of the
body refuses such blocks.
-/

namespace GoEntropy.Ethash

open GoEntropy.Chain (Header Block emptyUncleHash)
open GoEntropy.Container List Option

variable {C : Crypto} {engine : Engine} {config : ChainConfig} {chain : ChainReader C}
  {b g : Block C} {bs : List (Block C)} {header parent : Header}

/-! ## Headers -/

theorem number_of_verifyHeader {uncle checkSeal : Bool} {now : Int64}
    (h : verifyHeader C engine config header parent uncle checkSeal now = .ok ()) :
    header.number = parent.number + 1 := by
  by_contra hne
  simp only [verifyHeader, bind, Except.bind, throw, throwThe, MonadExceptOf.throw] at h
  -- every branch ends in an error
  repeat' split at h
  all_goals cases h

/-! ## Chains -/

def Follows (b p : Block C) : Prop := b.header.parentHash = p.hash ∧ b.header.number = p.header.number + 1

/-- What a reader answers for the blocks of a chain, the last one being the oldest: the block, or
nothing. There is nothing below the oldest block. -/
structure ChainReader.Serves (chain : ChainReader C) (bs : List (Block C)) : Prop where
  header : ∀ b ∈ bs, ∀ h, chain.getHeader b.hash (wrap64 b.header.number) = some h → h = b.header
  block : ∀ b ∈ bs, ∀ b', chain.getBlock b.hash (wrap64 b.header.number) = some b' → b' = b
  below : ∀ g ∈ bs.getLast?, chain.getHeader g.header.parentHash (sub64 (wrap64 g.header.number) 1) = none

variable {p : Block C}

theorem ChainReader.Serves.tail (h : chain.Serves (b :: p :: bs)) : chain.Serves (p :: bs) :=
  ⟨fun a ha ↦ h.header a (mem_cons_of_mem b ha), fun a ha ↦ h.block a (mem_cons_of_mem b ha),
    fun g hg ↦ h.below g (getLast?_cons_cons.trans hg)⟩

theorem sub64_wrap64_succ (n : Nat) : sub64 (wrap64 (n + 1)) 1 = wrap64 n := by
  rw [sub64, wrap64, wrap64, wrap64]
  omega

theorem number_add_of_getElem? {p a : Block C} (hlinked : (p :: bs).IsChain Follows) {i : Nat}
    (hi : (p :: bs)[i]? = some a) : a.header.number + i = p.header.number := by
  induction i generalizing p bs with
  | zero =>
    obtain rfl := some.inj hi
    rfl
  | succ i ih =>
    cases bs with
    | nil => cases hi
    | cons q bs =>
      obtain ⟨hfollows, hlinked⟩ := isChain_cons_cons.1 hlinked
      have hq := ih hlinked hi
      rw [hfollows.2, ← hq, Nat.add_assoc]

theorem number_add_of_le {b' : Block C} (hlinked : bs.IsChain Follows) {i j : Nat} (hle : i ≤ j)
    (hi : bs[i]? = some b) (hj : bs[j]? = some b') : b'.header.number + (j - i) = b.header.number := by
  obtain ⟨hlt, rfl⟩ := List.getElem?_eq_some_iff.1 hi
  have hdrop := hlinked.drop i
  rw [drop_eq_getElem_cons hlt] at hdrop
  refine number_add_of_getElem? hdrop ?_
  rw [← drop_eq_getElem_cons hlt, List.getElem?_drop, Nat.add_sub_cancel' hle, hj]

/-! ## Ancestors and past uncles -/

/-- What is known after some ancestors of a chain were gone through: the ancestors, and the uncles of all
of them but the last one. -/
structure Gathered (bs : List (Block C)) (count : Nat) (family family' : Family) : Prop where
  ancestor : ∀ h hd, family'.ancestors.lookup h = some hd → family.ancestors.lookup h = some hd ∨
    ∃ i < count, ∃ a, bs[i]? = some a ∧ a.hash = h ∧ a.header = hd
  known : ∀ i < count, ∀ a, bs[i]? = some a → (family'.ancestors.lookup a.hash).isSome
  kept : ∀ h, (family.ancestors.lookup h).isSome → (family'.ancestors.lookup h).isSome
  banned : family.banned ⊆ family'.banned
  uncles : ∀ i, i + 1 < count → ∀ a, bs[i]? = some a →
    (a.uncles ≠ [] → a.header.uncleHash ≠ emptyUncleHash C) → ∀ u ∈ a.uncles, u.hash C ∈ family'.banned

theorem Gathered.none (bs : List (Block C)) (family : Family) : Gathered bs 0 family family :=
  ⟨fun _ _ ↦ .inl, nofun, fun _ h ↦ h, subset_rfl, fun i hi ↦ by omega⟩

theorem Gathered.one (family : Family) : Gathered (p :: bs) 1 family
    { family with ancestors := family.ancestors.insert p.hash p.header } := by
  refine ⟨fun h hd hh ↦ ?_, fun i hi a ha ↦ ?_, fun h hh ↦ ?_, subset_rfl,
    fun i hi ↦ by omega⟩
  · rw [lookup_insert_eq_ite] at hh
    split at hh
    · next heq => exact .inr ⟨0, Nat.one_pos, p, rfl, heq.symm, some.inj hh⟩
    · exact .inl hh
  · obtain rfl := Nat.lt_one_iff.1 hi
    obtain rfl := some.inj ha
    rw [AList.lookup_insert]
    rfl
  · rw [lookup_insert_eq_ite]
    split
    · rfl
    · exact hh

/-- The first ancestor is gone through with its uncles, and then the others. -/
theorem Gathered.cons {count : Nat} {family family' : Family} {banned : Finset Hash}
    (hsub : family.banned ⊆ banned)
    (hbanned : (p.uncles ≠ [] → p.header.uncleHash ≠ emptyUncleHash C) → ∀ u ∈ p.uncles, u.hash C ∈ banned)
    (h : Gathered bs count ⟨banned, family.ancestors.insert p.hash p.header⟩ family') :
    Gathered (p :: bs) (count + 1) family family' := by
  have hone := @Gathered.one C bs p family
  refine ⟨fun h' hd hh ↦ ?_, fun i hi a ha ↦ ?_, fun h' hh ↦ h.kept h' (hone.kept h' hh),
    hsub.trans h.banned, fun i hi a ha hcommitted u hu ↦ ?_⟩
  · obtain hold | ⟨i, hi, a, ha, hrest⟩ := h.ancestor h' hd hh
    · obtain hold | ⟨i, hi, a, ha, hrest⟩ := hone.ancestor h' hd hold
      · exact .inl hold
      · exact .inr ⟨i, by omega, a, ha, hrest⟩
    · exact .inr ⟨i + 1, by omega, a, ha, hrest⟩
  · cases i with
    | zero => exact h.kept _ (hone.known 0 Nat.one_pos a ha)
    | succ i => exact h.known i (by omega) a ha
  · cases i with
    | zero =>
      obtain rfl := some.inj ha
      exact h.banned (hbanned hcommitted u hu)
    | succ i => exact h.uncles i (by omega) a ha hcommitted u hu

/-- The loop over the ancestors goes through some of them, one after the other. -/
theorem gather_spec (hlinked : (p :: bs).IsChain Follows) (hserves : chain.Serves (p :: bs))
    (n : Nat) (family : Family) : ∃ count ≤ n, Gathered (p :: bs) count family
      (gather chain n p.hash (wrap64 p.header.number) family) := by
  induction n generalizing p bs family with
  | zero => exact ⟨0, le_rfl, .none _ _⟩
  | succ n ih =>
    -- the ancestors after the first one
    have hrest (family' : Family) : ∃ count ≤ n, Gathered bs count family' (gather chain n
        p.header.parentHash (sub64 (wrap64 p.header.number) 1) family') := by
      cases bs with
      | nil =>
        refine ⟨0, Nat.zero_le n, ?_⟩
        have hnone := hserves.below p rfl
        cases n with
        | zero => exact .none _ _
        | succ n =>
          rw [gather, hnone]
          exact .none _ _
      | cons q bs =>
        obtain ⟨⟨hhash, hnumber⟩, hlinked⟩ := isChain_cons_cons.1 hlinked
        rw [hhash, hnumber, sub64_wrap64_succ]
        exact ih hlinked hserves.tail family'
    rw [gather]
    cases hheader : chain.getHeader p.hash (wrap64 p.header.number) with
    | none => exact ⟨0, Nat.zero_le _, .none _ _⟩
    | some hd =>
      obtain rfl := hserves.header p mem_cons_self hd hheader
      simp only
      split
      · next hcommitted =>
        cases hblock : chain.getBlock p.hash (wrap64 p.header.number) with
        | none => exact ⟨1, by omega, .one family⟩
        | some p' =>
          obtain rfl := hserves.block p mem_cons_self p' hblock
          obtain ⟨count, hcount, hgathered⟩ := hrest ⟨_, _⟩
          refine ⟨count + 1, by omega, .cons Finset.subset_union_left (fun _ u hu ↦ ?_) hgathered⟩
          exact Finset.mem_union_right _ (mem_toFinset.2 (mem_map_of_mem hu))
      · next hcommitted =>
        obtain ⟨count, hcount, hgathered⟩ := hrest ⟨_, _⟩
        refine ⟨count + 1, by omega, .cons subset_rfl (fun hc u hu ↦ ?_) hgathered⟩
        exact absurd (hc (ne_nil_of_mem hu)) hcommitted

/-! ## The uncles of a block -/

theorem verifyEach_spec {now : Header → Int64} {family : Family} {us : List Header}
    (h : verifyEach engine config b now family us = .ok ()) :
    (us.map (Header.hash C)).Nodup ∧ ∀ u ∈ us, u.hash C ∉ family.banned ∧
      family.ancestors.lookup (u.hash C) = none ∧ u.parentHash ≠ b.header.parentHash ∧
      ∃ p, family.ancestors.lookup u.parentHash = some p ∧ u.number = p.number + 1 := by
  induction us generalizing family with
  | nil => exact ⟨.nil, fun u hu ↦ absurd hu not_mem_nil⟩
  | cons u us ih =>
    rw [verifyEach] at h
    split at h
    · cases h
    next hbanned =>
    split at h
    · cases h
    next hancestor =>
    rw [Bool.not_eq_true, isSome_eq_false_iff, isNone_iff_eq_none] at hancestor
    cases hparent : family.ancestors.lookup u.parentHash with
    | none =>
      rw [hparent] at h
      cases h
    | some p =>
      simp only [hparent] at h
      split at h
      · cases h
      next hdangling =>
      split at h
      · cases h
      next hverified =>
      obtain ⟨hnodup, hus⟩ := ih h
      refine ⟨nodup_cons.2 ⟨fun hmem ↦ ?_, hnodup⟩, fun v hv ↦ ?_⟩
      · obtain ⟨v, hv, heq⟩ := mem_map.1 hmem
        refine (hus v hv).1 ?_
        rw [heq]
        exact Finset.mem_insert_self _ _
      · obtain rfl | hv := mem_cons.1 hv
        · exact ⟨hbanned, hancestor, hdangling, p, hparent, number_of_verifyHeader hverified⟩
        · obtain ⟨hout, hrest⟩ := hus v hv
          exact ⟨fun hin ↦ hout (Finset.mem_insert_of_mem hin), hrest⟩

/-- An uncle of a block among the ancestors of the block: a child of one that is not the parent, none of
the ancestors up to there, and not included by those before. -/
def Related (bs : List (Block C)) (u : Header) : Prop :=
  ∃ i, 1 ≤ i ∧ i ≤ 6 ∧ ∃ p, bs[i]? = some p ∧ u.number = p.header.number + 1 ∧
    (∀ k ≤ i, ∀ a, bs[k]? = some a → u.hash C ≠ a.hash) ∧
    ∀ k < i, ∀ a, bs[k]? = some a → (a.uncles ≠ [] → a.header.uncleHash ≠ emptyUncleHash C) →
      u ∉ a.uncles

/-- Verified uncles are different, and each of them is related to the block. -/
theorem verifyUncles_spec {now : Header → Int64}
    (hlinked : (b :: p :: bs).IsChain Follows) (hserves : chain.Serves (p :: bs))
    (hmode : engine.powMode ≠ .fullFake) (h : verifyUncles engine config chain b now = .ok ())
    (hself : ∀ u ∈ b.uncles, u.parentHash ≠ b.hash) :
    b.uncles.Nodup ∧ ∀ u ∈ b.uncles, Related (p :: bs) u := by
  obtain ⟨⟨hhash, hnumber⟩, hlinked⟩ := isChain_cons_cons.1 hlinked
  rw [verifyUncles, if_neg hmode] at h
  split at h
  · cases h
  split at h
  · next hnil =>
    rw [hnil]
    exact ⟨.nil, fun u hu ↦ absurd hu not_mem_nil⟩
  rw [hhash, hnumber, sub64_wrap64_succ] at h
  obtain ⟨count, hcount, hgathered⟩ := gather_spec hlinked hserves 7 ⟨∅, ∅⟩
  obtain ⟨hnodup, huncles⟩ := verifyEach_spec h
  refine ⟨hnodup.of_map _, fun u hu ↦ ?_⟩
  obtain ⟨hbanned, hancestor, hparent, q, hq, hsucc⟩ := huncles u hu
  rw [lookup_insert_eq_ite, if_neg (hself u hu)] at hq
  rw [lookup_insert_eq_ite] at hancestor
  split at hancestor
  · cases hancestor
  obtain hnone | ⟨i, hi, a, ha, hparentHash, rfl⟩ := hgathered.ancestor _ _ hq
  · cases hnone
  refine ⟨i, ?_, by omega, a, ha, hsucc, fun k hk a' ha' heq ↦ ?_, fun k hk a' ha' hcommitted hmem ↦ ?_⟩
  · -- the parent of the block is no parent of an uncle
    refine Nat.one_le_iff_ne_zero.2 fun hzero ↦ hparent ?_
    rw [hzero] at ha
    obtain rfl := some.inj ha
    rw [← hparentHash, hhash]
  · have hknown := hgathered.known k (by omega) a' ha'
    rw [← heq, hancestor] at hknown
    cases hknown
  · exact hbanned (Finset.mem_insert_of_mem (hgathered.uncles k (by omega) a' ha' hcommitted u hmem))

/-! ## Accepted chains -/

/-- A block with one uncle, from what the checks find. The hashes are arguments, so that the checks of a given
block do not evaluate them. -/
theorem verifyUncles_singleton {now : Header → Int64} {u parent : Header} {hash hash' : Hash} {family : Family}
    (hu : b.uncles = [u]) (hhash : b.hash = hash) (hhash' : u.hash C = hash')
    (hfamily : gather chain 7 b.header.parentHash (sub64 (wrap64 b.header.number) 1) ⟨∅, ∅⟩ = family)
    (hbanned : hash' ∉ insert hash family.banned)
    (hancestor : (family.ancestors.insert hash b.header).lookup hash' = none)
    (hparent : (family.ancestors.insert hash b.header).lookup u.parentHash = some parent)
    (hne : u.parentHash ≠ b.header.parentHash)
    (hheader : verifyHeader C engine config u parent true true (now u) = .ok ()) :
    verifyUncles engine config chain b now = .ok () := by
  subst hhash hhash' hfamily
  rw [verifyUncles, hu]
  split
  · rfl
  · rw [if_neg (by simp [maxUncles]), if_neg (cons_ne_nil u []), verifyEach, if_neg hbanned, hancestor]
    simp only [Option.isSome_none, Bool.false_eq_true, if_false, hparent, hne, hheader, verifyEach]

/-- The chains of blocks, the last one first, of which each was accepted on top of the others and of the
genesis block, by whatever reader and at whatever time. -/
inductive Accepted (engine : Engine) (config : ChainConfig) (g : Block C) : List (Block C) → Prop
  | nil : Accepted engine config g []
  | cons {b p : Block C} {bs ancestors : List (Block C)} {chain : ChainReader C} {checkSeal : Bool}
      {unixNow : Int64} {now : Header → Int64} (tail : Accepted engine config g bs)
      (split : bs ++ [g] = p :: ancestors) (serves : chain.Serves (bs ++ [g]))
      (parentHash : b.header.parentHash = p.hash)
      (header : verifyHeader C engine config b.header p.header false checkSeal unixNow = .ok ())
      (uncles : verifyUncles engine config chain b now = .ok ()) : Accepted engine config g (b :: bs)

/-- A block commits to having uncles, and is not the parent of one. -/
def Committed (b : Block C) : Prop :=
  (b.uncles ≠ [] → b.header.uncleHash ≠ emptyUncleHash C) ∧ ∀ u ∈ b.uncles, u.parentHash ≠ b.hash

theorem Accepted.linked (h : Accepted engine config g bs) : (bs ++ [g]).IsChain Follows := by
  induction h with
  | nil => exact .singleton _
  | cons _ hsplit _ hparent hheader _ ih =>
    rw [hsplit] at ih
    rw [cons_append, hsplit]
    exact .cons_cons ⟨hparent, number_of_verifyHeader hheader⟩ ih

theorem Accepted.related (h : Accepted engine config g bs) (hmode : engine.powMode ≠ .fullFake)
    (hcommitted : ∀ b ∈ bs, Committed b) {i : Nat} (hi : bs[i]? = some b) :
    b.uncles.Nodup ∧ ∀ u ∈ b.uncles, Related ((bs ++ [g]).drop (i + 1)) u := by
  induction h generalizing i with
  | nil => cases hi
  | @cons b' p bs ancestors chain checkSeal unixNow now htail hsplit hserves hparent hheader huncles ih =>
    cases i with
    | zero =>
      obtain rfl := some.inj hi
      have hlinked := (Accepted.cons htail hsplit hserves hparent hheader huncles).linked
      rw [cons_append, hsplit] at hlinked
      rw [hsplit] at hserves
      rw [cons_append, hsplit]
      exact verifyUncles_spec hlinked hserves hmode huncles (hcommitted _ mem_cons_self).2
    | succ i => exact ih (fun a ha ↦ hcommitted a (mem_cons_of_mem _ ha)) hi

/-! ## Rewards -/

/-- The accounts that are credited for a block, and the amounts. -/
def credits (header : Header) (uncles : List Header) : List (Address × ℤ) :=
  uncles.map (fun u ↦ (u.coinbase, uncleReward header u)) ++
    [(header.coinbase, frontierBlockReward + uncles.length * (frontierBlockReward / 32))]

theorem accumulateRewards_eq (db : State.StateDatabase C) (s : State.StateDB) (header : Header)
    (uncles : List Header) : accumulateRewards db s header uncles =
      (credits header uncles).foldl (fun s credit ↦ s.addBalance db credit.1 credit.2) s := by
  have hloop (reward : ℤ) : uncles.foldl (fun (p : State.StateDB × ℤ) u ↦
      (p.1.addBalance db u.coinbase (uncleReward header u), p.2 + frontierBlockReward / 32)) (s, reward) =
        ((uncles.map fun u ↦ (u.coinbase, uncleReward header u)).foldl
          (fun s credit ↦ s.addBalance db credit.1 credit.2) s,
          reward + uncles.length * (frontierBlockReward / 32)) := by
    induction uncles generalizing s reward with
    | nil => simp
    | cons u us ih =>
      rw [foldl_cons, ih, length_cons]
      congr 1
      push_cast
      ring
  rw [accumulateRewards, hloop, credits, foldl_append, foldl_cons, foldl_nil]

theorem uncleReward_bounds {header u : Header} (hlow : header.number ≤ u.number + 6)
    (hhigh : u.number + 1 ≤ header.number) :
    0 < uncleReward header u ∧ 8 * uncleReward header u ≤ 7 * frontierBlockReward := by
  rw [uncleReward, frontierBlockReward]
  omega

/-! ## The main result -/

theorem getElem?_concat_of_some {j : Nat} (hj : bs[j]? = some b) : (bs ++ [g])[j]? = some b := by
  rw [List.getElem?_append_left (List.getElem?_eq_some_iff.1 hj).1, hj]

/-- The number of an uncle of an accepted chain says how far back its parent is: it is none of the blocks
up to there, and not included by those before. -/
theorem Accepted.uncle (h : Accepted engine config g bs) (hmode : engine.powMode ≠ .fullFake)
    (hcommitted : ∀ b ∈ bs, Committed b) {i : Nat} (hi : bs[i]? = some b) {u : Header} (hu : u ∈ b.uncles) :
    ∃ n, 1 ≤ n ∧ n ≤ 6 ∧ u.number + n = b.header.number ∧
      (∀ j, i < j → j ≤ i + n + 1 → ∀ a, (bs ++ [g])[j]? = some a → u.hash C ≠ a.hash) ∧
      ∀ j, i < j → j ≤ i + n → ∀ a, bs[j]? = some a → u ∉ a.uncles := by
  obtain ⟨n, hlow, hhigh, p, hp, hsucc, hancestor, hbanned⟩ := (h.related hmode hcommitted hi).2 u hu
  rw [List.getElem?_drop] at hp
  have hnumber := number_add_of_le h.linked (by omega) (getElem?_concat_of_some hi) hp
  refine ⟨n, hlow, hhigh, by omega, fun j hlt hle a hj ↦ ?_, fun j hlt hle a hj ↦ ?_⟩
  · refine hancestor (j - (i + 1)) (by omega) a ?_
    rw [List.getElem?_drop, Nat.add_sub_cancel' hlt, hj]
  · refine hbanned (j - (i + 1)) (by omega) a ?_ (hcommitted a (mem_of_getElem? hj)).1
    rw [List.getElem?_drop, Nat.add_sub_cancel' hlt, getElem?_concat_of_some hj]

/-- **Uncles are rewarded once.** On an accepted chain of blocks that commit to their uncles, no uncle is
included twice, no block is an uncle, the uncles are at most six generations back, and every amount
that is credited is positive. -/
theorem uncles_rewarded_once (h : Accepted engine config g bs) (hmode : engine.powMode ≠ .fullFake)
    (hcommitted : ∀ b ∈ bs, Committed b) :
    (∀ b ∈ bs, b.uncles.Nodup) ∧
    (∀ (i j : Nat) (b b' : Block C), i < j → bs[i]? = some b → bs[j]? = some b' → ∀ u ∈ b.uncles, u ∉ b'.uncles) ∧
    (∀ b ∈ bs, ∀ b' ∈ bs ++ [g], b'.header ∉ b.uncles) ∧
    (∀ b ∈ bs, ∀ u ∈ b.uncles, b.header.number ≤ u.number + 6 ∧ u.number + 1 ≤ b.header.number) ∧
    ∀ b ∈ bs, (∀ (db : State.StateDatabase C) (s : State.StateDB),
        accumulateRewards db s b.header b.uncles =
          (credits b.header b.uncles).foldl (fun s credit ↦ s.addBalance db credit.1 credit.2) s) ∧
      (∀ credit ∈ credits b.header b.uncles, 0 < credit.2) ∧
      ∀ u ∈ b.uncles, 8 * uncleReward b.header u ≤ 7 * frontierBlockReward := by
  have hbounds : ∀ b ∈ bs, ∀ u ∈ b.uncles,
      b.header.number ≤ u.number + 6 ∧ u.number + 1 ≤ b.header.number := fun b hb u hu ↦ by
    obtain ⟨i, hi⟩ := mem_iff_getElem?.1 hb
    obtain ⟨n, hlow, hhigh, hnumber, -⟩ := h.uncle hmode hcommitted hi hu
    omega
  refine ⟨fun b hb ↦ ?_, fun i j b b' hlt hi hj u hu hu' ↦ ?_, fun b hb b' hb' hmem ↦ ?_, hbounds,
    fun b hb ↦ ⟨fun db s ↦ accumulateRewards_eq db s _ _, fun credit hcredit ↦ ?_, fun u hu ↦ ?_⟩⟩
  · obtain ⟨i, hi⟩ := mem_iff_getElem?.1 hb
    exact (h.related hmode hcommitted hi).1
  · -- the earlier block that includes the uncle lies above the parent of the uncle
    obtain ⟨n, -, -, hnumber, -, hbanned⟩ := h.uncle hmode hcommitted hi hu
    have hbound := hbounds b' (mem_of_getElem? hj) u hu'
    have hdistance :=
      number_add_of_le h.linked hlt.le (getElem?_concat_of_some hi) (getElem?_concat_of_some hj)
    exact hbanned j hlt (by omega) b' hj hu'
  · obtain ⟨i, hi⟩ := mem_iff_getElem?.1 hb
    obtain ⟨j, hj⟩ := mem_iff_getElem?.1 hb'
    obtain ⟨n, hlow, -, hnumber, hancestor, -⟩ := h.uncle hmode hcommitted hi hmem
    obtain hlt | hle := Nat.lt_or_ge i j
    · -- an ancestor with the number of the uncle lies above the parent of the uncle
      have hdistance := number_add_of_le h.linked hlt.le (getElem?_concat_of_some hi) hj
      exact hancestor j hlt (by omega) b' hj rfl
    · -- the other blocks have greater numbers
      have hdistance := number_add_of_le h.linked hle hj (getElem?_concat_of_some hi)
      omega
  · obtain hcredit | hcredit := mem_append.1 hcredit
    · obtain ⟨u, hu, rfl⟩ := mem_map.1 hcredit
      obtain ⟨hlow, hhigh⟩ := hbounds b hb u hu
      exact (uncleReward_bounds hlow hhigh).1
    · rw [mem_singleton.1 hcredit]
      have hpos : (0 : ℤ) < frontierBlockReward := by decide
      positivity
  · obtain ⟨hlow, hhigh⟩ := hbounds b hb u hu
    exact (uncleReward_bounds hlow hhigh).2

namespace Sample

def crypto : Crypto where
  keccak256 b := bytesToHash (b.drop (b.length - 8))
  ecrecover _ _ := none
  sha256 b := b
  ripemd160 b := b

/-- The engine of tests, which accepts any seal. -/
def faker : Engine where
  powMode := .fake
  fakeFail := 0
  hashimoto _ _ _ := ([], [])
  sharedSealer := none

def noForks : ChainConfig := ⟨some 1, none, none, none⟩

def head (parentHash uncleHash : Hash) (number difficulty : Nat) (nonce : BitVec 64) : Header where
  parentHash := parentHash
  uncleHash := uncleHash
  coinbase := 0
  root := 0
  txHash := 0
  receiptHash := 0
  bloom := 0
  difficulty := difficulty
  number := number
  gasLimit := 5000
  gasUsed := 0
  time := number.toUInt64
  extra := []
  mixDigest := 0
  nonce := nonce
  baseFee := none

theorem hash_head (parentHash uncleHash : Hash) (number difficulty : Nat) (nonce : BitVec 64) :
    (head parentHash uncleHash number difficulty nonce).hash crypto = nonce.setWidth 256 := by
  obtain ⟨l, hl⟩ : ∃ l, (head parentHash uncleHash number difficulty nonce).encode =
      l ++ beBytes 8 nonce.toNat := by
    rw [Header.encode, Rlp.list]
    simp only [head, toList_none, map_nil, flatten_nil, append_nil, flatten_cons,
      show Rlp.bytes (beBytes 8 nonce.toNat) = [0x88] ++ beBytes 8 nonce.toNat from rfl,
      ← append_assoc]
    exact ⟨_, rfl⟩
  rw [Header.hash, hl, crypto]
  simp only [length_append, length_beBytes, Nat.add_sub_cancel, drop_left, bytesToHash,
    setBytes_beBytes]
  rw [Nat.mod_eq_of_lt (lt_of_lt_of_eq nonce.isLt (by decide)), BitVec.ofNat_toNat]

def noUncles : Hash := emptyUncleHash crypto

def genesis : Block crypto := ⟨head 0 noUncles 0 131072 0, [], []⟩

theorem hash_genesis : genesis.hash = 0 := hash_head 0 noUncles 0 131072 0

def reader (bs : List (Block crypto)) : ChainReader crypto where
  getHeader _ n := (bs.find? fun b ↦ wrap64 b.header.number == n).map Block.header
  getBlock _ n := bs.find? fun b ↦ wrap64 b.header.number == n

theorem serves_reader {bs : List (Block crypto)} (hnodup : (bs.map fun b ↦ wrap64 b.header.number).Nodup)
    (hbelow : ∀ g ∈ bs.getLast?,
      (reader bs).getHeader g.header.parentHash (sub64 (wrap64 g.header.number) 1) = none) :
    (reader bs).Serves bs := by
  have hfind : ∀ b ∈ bs, ∀ b', (reader bs).getBlock b.hash (wrap64 b.header.number) = some b' → b' = b := by
    intro b hb b' hb'
    have hnumber := find?_some hb'
    exact inj_on_of_nodup_map hnodup (mem_of_find?_eq_some hb') hb (eq_of_beq hnumber)
  refine ⟨fun b hb h hh ↦ ?_, hfind, hbelow⟩
  obtain ⟨b', hb', rfl⟩ := map_eq_some_iff.1 hh
  rw [hfind b hb b' hb']

/-- The first block, another one that came too late, and a block that includes it. -/
def first : Block crypto := ⟨head 0 noUncles 1 131136 1, [], []⟩

def late : Header := head 0 noUncles 1 131136 2

def second : Block crypto := ⟨head 1 2 2 131200 3, [late], []⟩

theorem hash_first : first.hash = 1 := hash_head 0 noUncles 1 131136 1

theorem serves_genesis : (reader [genesis]).Serves [genesis] := serves_reader (by decide) fun g hg ↦ by
  obtain rfl := some.inj hg
  decide

theorem accepted_second : Accepted faker noForks genesis [second, first] := by
  have hserves : (reader [first, genesis]).Serves [first, genesis] :=
    serves_reader (by decide) fun g hg ↦ by
      obtain rfl := some.inj hg
      decide
  have hfirst : Accepted faker noForks genesis [first] :=
    @.cons _ _ _ _ _ _ _ _ _ false 0 (fun _ ↦ 0) .nil rfl serves_genesis hash_genesis.symm
      (by decide) (by decide)
  exact @.cons _ _ _ _ _ _ _ _ _ false 0 (fun _ ↦ 0) hfirst rfl hserves hash_first.symm (by decide)
    (verifyUncles_singleton rfl (hash_head ..) (hash_head ..) rfl (by decide) (by decide) rfl
      (by decide) (by decide))

end Sample

open Sample

/-- The late block is the uncle of the second one, and rewarded with seven eighths. -/
theorem uncles_rewarded_once_second :
    second.uncles.length = 1 ∧ (∀ b ∈ [second, first],
      ∀ b' ∈ [second, first, genesis], b'.header ∉ b.uncles) ∧
    ∀ credit ∈ credits second.header second.uncles, 0 < credit.2 := by
  have hcommitted : ∀ b ∈ [second, first], Committed b := by
    intro b hb
    obtain rfl | hb := mem_cons.1 hb
    · refine ⟨fun _ ↦ by decide, fun u hu ↦ ?_⟩
      rw [mem_singleton.1 hu, Block.hash, second, hash_head]
      decide
    · rw [mem_singleton.1 hb]
      exact ⟨absurd rfl, fun u hu ↦ absurd hu not_mem_nil⟩
  obtain ⟨-, -, hblocks, -, hcredits⟩ :=
    uncles_rewarded_once accepted_second (by decide) hcommitted
  exact ⟨rfl, hblocks, (hcredits _ mem_cons_self).2.1⟩

namespace Sample

/-- A block whose header does not tell that it has an uncle, which is a child of the block. -/
def concealing : Block crypto :=
  ⟨head 0 noUncles 1 131136 1, [head 1 noUncles 2 131200 2], []⟩

end Sample

/-- A block that is the parent of its uncle is accepted, and the uncle is rewarded with more than a
block. -/
theorem accepts_nephew : Accepted faker noForks genesis [concealing] ∧
    faker.powMode ≠ .fullFake ∧ ∃ u ∈ concealing.uncles,
      u.number = concealing.header.number + 1 ∧
      8 * uncleReward concealing.header u = 9 * frontierBlockReward := by
  refine ⟨?_, by decide, _, mem_singleton_self _, by decide, by decide⟩
  exact @.cons _ _ _ _ _ _ _ _ _ false 0 (fun _ ↦ 0) .nil rfl serves_genesis hash_genesis.symm (by decide)
    (verifyUncles_singleton rfl (hash_head ..) (hash_head ..) rfl (by decide) (by decide) rfl
      (by decide) (by decide))

end GoEntropy.Ethash
