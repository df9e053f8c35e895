import GoEntropy.Evm.Interface

/-!
# The access list

`accessList` keeps the addresses and storage slots a transaction has touched. An address maps to the
index of its set of slots, or to `-1` while it has none; the sets stand in one slice.

Slots are removed only to undo the addition made last, and `deleteSlot` relies on that: it cuts the
slice at the index of the set it empties. `deleteSlot_openSlots` and `deleteSlot_set` say that this
undoes either kind of addition to a list that is well formed.
-/

namespace GoEntropy.State

open Function
open List

/-- `accessList`. A set of slots is the list of its members, in order of insertion. -/
structure AccessList where
  addresses : Address → Option ℤ
  slots : List (List Hash)

namespace AccessList

/-- `newAccessList`. -/
def empty : AccessList := ⟨fun _ ↦ none, []⟩

variable (al : AccessList) (address : Address) (slot : Hash)

/-- `ContainsAddress`. -/
def containsAddress : Bool := (al.addresses address).isSome

/-- The set of slots at an index; `none` where Go's indexing would panic. -/
def slotmap (idx : ℤ) : Option (List Hash) := if idx < 0 then none else al.slots[idx.toNat]?

/-- `Contains`. -/
def contains : Except Evm.Fault (Bool × Bool) :=
  match al.addresses address with
  | none => .ok (false, false)
  | some idx =>
    if idx = -1 then .ok (true, false)
    else
      match al.slotmap idx with
      | none => .error .indexOutOfRange
      | some slots => .ok (true, slots.contains slot)

/-- `AddAddress`: the new list, and whether it changed. -/
def addAddress : Bool × AccessList :=
  if al.containsAddress address then (false, al)
  else (true, { al with addresses := Function.update al.addresses address (some (-1)) })

/-- Give the address a set of its own, at the end of the slice. -/
def openSlots : AccessList where
  addresses := Function.update al.addresses address (some al.slots.length)
  slots := al.slots ++ [[slot]]

/-- `AddSlot`: whether the address and the slot were added, and the new list. -/
def addSlot : Except Evm.Fault (Bool × Bool × AccessList) :=
  match al.addresses address with
  | none => .ok (true, true, al.openSlots address slot)
  | some idx =>
    if idx = -1 then .ok (false, true, al.openSlots address slot)
    else
      match al.slotmap idx with
      | none => .error .indexOutOfRange
      | some slots =>
        if slots.contains slot then .ok (false, false, al)
        else .ok (false, true, { al with slots := al.slots.set idx.toNat (slots ++ [slot]) })

/-- `DeleteSlot`. A missing address is a panic of the code, a bad index one of the runtime. -/
def deleteSlot : Except Evm.Fault AccessList :=
  match al.addresses address with
  | none => .error .nilPointer
  | some idx =>
    match al.slotmap idx with
    | none => .error .indexOutOfRange
    | some slots =>
      let rest := slots.erase slot
      if rest.isEmpty then
        .ok ⟨Function.update al.addresses address (some (-1)), al.slots.take idx.toNat⟩
      else .ok { al with slots := al.slots.set idx.toNat rest }

/-- `DeleteAddress`. -/
def deleteAddress : AccessList :=
  { al with addresses := Function.update al.addresses address none }

/-- What adding a slot does: the address is new, has no set yet, has the slot, or has other ones. -/
inductive Added : Bool → Bool → AccessList → Prop
  | new (ha : al.addresses address = none) : Added true true (al.openSlots address slot)
  | first (ha : al.addresses address = some (-1)) : Added false true (al.openSlots address slot)
  | known {idx slots} (ha : al.addresses address = some idx) (hs : al.slotmap idx = some slots)
    (hmem : slot ∈ slots) : Added false false al
  | another {idx slots} (ha : al.addresses address = some idx) (hs : al.slotmap idx = some slots)
    (hnot : slot ∉ slots) : Added false true { al with slots := al.slots.set idx.toNat (slots ++ [slot]) }

/-! ## Well-formed lists -/

/-- Every index points at a non-empty set of slots, which belongs to one address. -/
structure WF : Prop where
  slotmap_of_address : ∀ a idx, al.addresses a = some idx → idx ≠ -1 →
    ∃ slots, al.slotmap idx = some slots
  nonempty : ∀ slots ∈ al.slots, slots ≠ []
  injective : ∀ a a' idx, al.addresses a = some idx → al.addresses a' = some idx → idx ≠ -1 →
    a = a'

variable {al address slot}

theorem wf_empty : empty.WF where
  slotmap_of_address := nofun
  nonempty := nofun
  injective := nofun

variable {slots : List Hash} {idx : ℤ}

theorem slotmap_eq_some :
    al.slotmap idx = some slots ↔ 0 ≤ idx ∧ al.slots[idx.toNat]? = some slots := by
  unfold slotmap
  split
  · simp only [reduceCtorEq, false_iff]
    omega
  · simp only [iff_and_self]
    omega

@[simp] theorem containsAddress_eq_true :
    al.containsAddress address = true ↔ ∃ idx, al.addresses address = some idx := by
  rw [containsAddress, Option.isSome_iff_exists]

theorem WF.addAddress (h : al.WF) : (al.addAddress address).2.WF := by
  unfold AccessList.addAddress
  split
  · exact h
  · -- the new address has no set, so it can be neither of the two
    have hother : ∀ a idx, update al.addresses address (some (-1)) a = some idx → idx ≠ -1 →
        al.addresses a = some idx := by
      intro a idx ha hidx
      by_cases haa : a = address
      · rw [haa, update_self, Option.some_inj] at ha
        exact absurd ha.symm hidx
      · rwa [update_of_ne haa] at ha
    exact ⟨fun a idx ha hidx ↦ h.slotmap_of_address a idx (hother a idx ha hidx) hidx, h.nonempty,
      fun a a' idx ha ha' hidx ↦
        h.injective a a' idx (hother a idx ha hidx) (hother a' idx ha' hidx) hidx⟩

variable {a : Address}

theorem WF.lt_length (h : al.WF) (ha : al.addresses a = some idx)
    (hidx : idx ≠ -1) : 0 ≤ idx ∧ idx < al.slots.length := by
  obtain ⟨slots, hs⟩ := h.slotmap_of_address a idx ha hidx
  obtain ⟨h₀, hget⟩ := slotmap_eq_some.1 hs
  have := (List.getElem?_eq_some_iff.1 hget).1
  omega

theorem addresses_openSlots : (al.openSlots address slot).addresses address = some (al.slots.length : ℤ) := by
  simp [AccessList.openSlots]

theorem slotmap_openSlots : (al.openSlots address slot).slotmap al.slots.length = some [slot] :=
  slotmap_eq_some.2 ⟨by omega, by simp [AccessList.openSlots]⟩

theorem slotmap_openSlots_of (hs : al.slotmap idx = some slots) :
    (al.openSlots address slot).slotmap idx = some slots := by
  obtain ⟨h₀, hget⟩ := slotmap_eq_some.1 hs
  refine slotmap_eq_some.2 ⟨h₀, ?_⟩
  rw [AccessList.openSlots, List.getElem?_append_left (List.getElem?_eq_some_iff.1 hget).1, hget]

private theorem WF.openSlots (h : al.WF) : (al.openSlots address slot).WF := by
  refine ⟨fun a idx ha hidx ↦ ?_, fun slots hs ↦ ?_, fun a a' idx ha ha' hidx ↦ ?_⟩
  · by_cases haa : a = address
    · rw [haa, addresses_openSlots, Option.some_inj] at ha
      exact ⟨[slot], ha ▸ slotmap_openSlots⟩
    · simp only [AccessList.openSlots, update_of_ne haa] at ha
      obtain ⟨slots, hs⟩ := h.slotmap_of_address a idx ha hidx
      exact ⟨slots, slotmap_openSlots_of hs⟩
  · rcases mem_append.1 hs with hs | hs
    · exact h.nonempty slots hs
    · simp [mem_singleton.1 hs]
  · -- the new index is beyond the ones in use
    have hnew : ∀ c, c ≠ address → al.addresses c ≠ some (al.slots.length : ℤ) := fun c _ hc ↦ by
      have := h.lt_length hc (by omega)
      omega
    simp only [AccessList.openSlots] at ha ha'
    by_cases haa : a = address <;> by_cases haa' : a' = address
    · rw [haa, haa']
    · rw [haa, update_self] at ha
      rw [update_of_ne haa', ← ha] at ha'
      exact absurd ha' (hnew a' haa')
    · rw [haa', update_self] at ha'
      rw [update_of_ne haa, ← ha'] at ha
      exact absurd ha (hnew a haa)
    · rw [update_of_ne haa] at ha
      rw [update_of_ne haa'] at ha'
      exact h.injective a a' idx ha ha' hidx

theorem WF.addSlot (h : al.WF) (address : Address) (slot : Hash) :
    ∃ ac sc al', al.addSlot address slot = .ok (ac, sc, al') ∧ al'.WF := by
  unfold AccessList.addSlot
  cases ha : al.addresses address with
  | none => exact ⟨_, _, _, rfl, h.openSlots⟩
  | some idx =>
    by_cases hidx : idx = -1
    · exact ⟨_, _, _, if_pos hidx, h.openSlots⟩
    · obtain ⟨slots, hs⟩ := h.slotmap_of_address address idx ha hidx
      simp only [if_neg hidx, hs]
      split
      · exact ⟨_, _, _, rfl, h⟩
      · refine ⟨_, _, _, rfl, ⟨fun a idx' ha' hidx' ↦ ?_, fun slots' hs' ↦ ?_, h.injective⟩⟩
        · obtain ⟨slots', hs'⟩ := h.slotmap_of_address a idx' ha' hidx'
          obtain ⟨h₀, hget⟩ := slotmap_eq_some.1 hs'
          have hlt : idx'.toNat < (al.slots.set idx.toNat (slots ++ [slot])).length := by
            simpa using (List.getElem?_eq_some_iff.1 hget).1
          exact ⟨_, slotmap_eq_some.2 ⟨h₀, getElem?_eq_getElem hlt⟩⟩
        · rcases mem_or_eq_of_mem_set hs' with hs' | rfl
          · exact h.nonempty slots' hs'
          · simp

/-! ## Undoing an addition -/

theorem deleteAddress_addAddress (h : al.containsAddress address = false) :
    (al.addAddress address).2.deleteAddress address = al := by
  rw [AccessList.addAddress, if_neg (by simp [h])]
  cases al with
  | mk addresses slots =>
    have hnone : addresses address = none := by simpa [containsAddress] using h
    simp only [deleteAddress, update_idem]
    rw [← hnone, update_eq_self]

theorem deleteSlot_openSlots :
    (al.openSlots address slot).deleteSlot address slot =
      .ok ⟨update al.addresses address (some (-1)), al.slots⟩ := by
  simp only [deleteSlot, addresses_openSlots, slotmap_openSlots]
  simp [AccessList.openSlots]

theorem deleteSlot_set (ha : al.addresses address = some idx)
    (hs : al.slotmap idx = some slots) (hne : slots ≠ []) (hnot : slot ∉ slots) :
    { al with slots := al.slots.set idx.toNat (slots ++ [slot]) }.deleteSlot address slot =
      .ok al := by
  obtain ⟨h₀, hget⟩ := slotmap_eq_some.1 hs
  have hlt := (List.getElem?_eq_some_iff.1 hget).1
  have hs' : { al with slots := al.slots.set idx.toNat (slots ++ [slot]) }.slotmap idx =
      some (slots ++ [slot]) := slotmap_eq_some.2 ⟨h₀, by simp [hlt]⟩
  have herase : (slots ++ [slot]).erase slot = slots := by
    rw [erase_append_right _ hnot, erase_cons_head, append_nil]
  simp only [deleteSlot, ha, hs', herase, List.isEmpty_iff, if_neg hne, List.set_set]
  rw [← (List.getElem?_eq_some_iff.1 hget).2, set_getElem_self]

/-! ## Membership -/

theorem contains_error {e : Evm.Fault} (h : al.contains address slot = .error e) :
    e = .indexOutOfRange := by
  unfold contains at h
  split at h
  · cases h
  · split at h
    · cases h
    · split at h
      · cases h
        rfl
      · cases h

theorem addSlot_error {e : Evm.Fault} (h : al.addSlot address slot = .error e) :
    e = .indexOutOfRange := by
  unfold AccessList.addSlot at h
  split at h
  · cases h
  · split at h
    · cases h
    · split at h
      · cases h
        rfl
      · split at h <;> cases h

theorem added {ac sc : Bool} {al' : AccessList} (h : al.addSlot address slot = .ok (ac, sc, al')) :
    al.Added address slot ac sc al' := by
  unfold AccessList.addSlot at h
  split at h
  · next ha => cases h; exact .new ha
  · next idx ha =>
    split at h
    · next hidx => cases h; exact .first (hidx ▸ ha)
    · split at h
      · cases h
      · next slots hs =>
        split at h
        · next hmem => cases h; exact .known ha hs (by simpa using hmem)
        · next hnot => cases h; exact .another ha hs (by simpa using hnot)

theorem containsAddress_of_contains {found : Bool × Bool}
    (h : al.contains address slot = .ok found) : found.1 = al.containsAddress address := by
  unfold contains at h
  split at h
  · next ha => cases h; simp [containsAddress, ha]
  · next ha =>
    split at h
    · cases h; simp [ha]
    · split at h
      · cases h
      · cases h; simp [ha]

theorem containsAddress_addAddress :
    (al.addAddress address).2.containsAddress a = true ↔
      a = address ∨ al.containsAddress a = true := by
  by_cases ha : a = address
  · unfold AccessList.addAddress
    split <;> simp_all
  · unfold AccessList.addAddress
    split <;> simp [ha]

theorem containsAddress_of_addSlot {ac sc : Bool} {al' : AccessList}
    (h : al.addSlot address slot = .ok (ac, sc, al')) :
    al'.containsAddress a = true ↔ a = address ∨ al.containsAddress a = true := by
  have hopen : (al.openSlots address slot).containsAddress a = true ↔
      a = address ∨ al.containsAddress a = true := by
    by_cases ha : a = address
    · simp [AccessList.openSlots, ha]
    · simp [AccessList.openSlots, ha]
  have hself : ∀ idx, al.addresses address = some idx →
      (al.containsAddress a = true ↔ a = address ∨ al.containsAddress a = true) := by
    intro idx hidx
    refine ⟨.inr, fun hor ↦ hor.elim (fun ha ↦ ?_) id⟩
    rw [ha, containsAddress, hidx, Option.isSome_some]
  cases added h with
  | new | first => exact hopen
  | known ha | another ha => exact hself _ ha

/-! ## Slots -/

def slotsOf (al : AccessList) (a : Address) : List Hash :=
  ((al.addresses a).bind al.slotmap).getD []

theorem slotmap_neg_one : al.slotmap (-1) = none := rfl

theorem WF.contains_eq (h : al.WF) (a : Address) (k : Hash) :
    al.contains a k = .ok (al.containsAddress a, decide (k ∈ al.slotsOf a)) := by
  unfold contains slotsOf containsAddress
  cases ha : al.addresses a with
  | none => simp
  | some idx =>
    by_cases hidx : idx = -1
    · subst hidx
      simp [slotmap_neg_one]
    · obtain ⟨slots, hs⟩ := h.slotmap_of_address a idx ha hidx
      simp [hidx, hs]

theorem slotsOf_congr {al' : AccessList} (ha : al'.addresses a = al.addresses a)
    (hs : ∀ idx, al.addresses a = some idx → idx ≠ -1 → al'.slotmap idx = al.slotmap idx) :
    al'.slotsOf a = al.slotsOf a := by
  rw [slotsOf, slotsOf, ha]
  cases hidx : al.addresses a with
  | none => rfl
  | some idx =>
    by_cases hneg : idx = -1
    · rw [hneg]
      rfl
    · rw [Option.bind_some, Option.bind_some, hs idx hidx hneg]

theorem slotsOf_addAddress (a : Address) : (al.addAddress address).2.slotsOf a = al.slotsOf a := by
  unfold AccessList.addAddress
  split
  · rfl
  · next hnot =>
    by_cases ha : a = address
    · have hnone : al.addresses a = none := by
        rw [ha]
        simpa [containsAddress] using hnot
      simp [slotsOf, ha ▸ hnone, ha, slotmap_neg_one]
    · exact slotsOf_congr (update_of_ne ha _ _) fun _ _ _ ↦ rfl

theorem WF.slotsOf_openSlots (h : al.WF) (hnone : al.slotsOf address = []) (a : Address) (k : Hash) :
    k ∈ (al.openSlots address slot).slotsOf a ↔ (a = address ∧ k = slot) ∨ k ∈ al.slotsOf a := by
  by_cases ha : a = address
  · subst ha
    rw [hnone, slotsOf, addresses_openSlots, Option.bind_some, slotmap_openSlots]
    simp
  · have hslots : (al.openSlots address slot).slotsOf a = al.slotsOf a := by
      refine slotsOf_congr (update_of_ne ha _ _) fun idx hidx hneg ↦ ?_
      obtain ⟨slots, hs⟩ := h.slotmap_of_address a idx hidx hneg
      rw [hs, slotmap_openSlots_of hs]
    rw [hslots]
    simp [ha]

theorem WF.slotsOf_set (h : al.WF)
    (hidx : al.addresses address = some idx) (hs : al.slotmap idx = some slots)
    (a : Address) (k : Hash) :
    k ∈ { al with slots := al.slots.set idx.toNat (slots ++ [slot]) }.slotsOf a ↔
      (a = address ∧ k = slot) ∨ k ∈ al.slotsOf a := by
  obtain ⟨h₀, hget⟩ := slotmap_eq_some.1 hs
  have hlt := (List.getElem?_eq_some_iff.1 hget).1
  by_cases ha : a = address
  · subst ha
    have hs' : { al with slots := al.slots.set idx.toNat (slots ++ [slot]) }.slotmap idx =
        some (slots ++ [slot]) := slotmap_eq_some.2 ⟨h₀, by simp [hlt]⟩
    have hold : al.slotsOf a = slots := by rw [slotsOf, hidx, Option.bind_some, hs, Option.getD_some]
    have hnew : { al with slots := al.slots.set idx.toNat (slots ++ [slot]) }.slotsOf a =
        slots ++ [slot] := by
      rw [slotsOf]
      rw [hidx, Option.bind_some, hs', Option.getD_some]
    rw [hold, hnew, mem_append, mem_singleton]
    tauto
  · have hslots : { al with slots := al.slots.set idx.toNat (slots ++ [slot]) }.slotsOf a =
        al.slotsOf a := by
      refine slotsOf_congr rfl fun idx' hidx' hneg' ↦ ?_
      have hne : idx' ≠ idx := fun heq ↦
        ha (h.injective a address idx (heq ▸ hidx') hidx (by omega))
      have h₀' := (h.lt_length hidx' hneg').1
      rw [slotmap, slotmap]
      rw [getElem?_set_ne (by omega)]
    rw [hslots]
    simp [ha]

theorem WF.mem_slotsOf_addSlot (h : al.WF) {ac sc : Bool} {al' : AccessList}
    (hadd : al.addSlot address slot = .ok (ac, sc, al')) (a : Address) (k : Hash) :
    k ∈ al'.slotsOf a ↔ (a = address ∧ k = slot) ∨ k ∈ al.slotsOf a := by
  cases added hadd with
  | new ha => exact h.slotsOf_openSlots (by simp [slotsOf, ha]) a k
  | first ha => exact h.slotsOf_openSlots (by simp [slotsOf, ha, slotmap_neg_one]) a k
  | known ha hs hmem =>
    refine ⟨.inr, ?_⟩
    rintro (⟨rfl, rfl⟩ | hk)
    · simpa [slotsOf, ha, hs] using hmem
    · exact hk
  | another ha hs => exact h.slotsOf_set ha hs a k

/-! ## Lists with the same contents -/

/-- The lists are well formed and contain the same addresses and slots. -/
structure Same (al al' : AccessList) : Prop where
  wf : al.WF
  wf' : al'.WF
  address : ∀ a, al.containsAddress a = al'.containsAddress a
  slot : ∀ a k, k ∈ al.slotsOf a ↔ k ∈ al'.slotsOf a

variable {al' : AccessList}

theorem Same.contains (h : al.Same al') (a : Address) (k : Hash) :
    al.contains a k = al'.contains a k := by
  rw [h.wf.contains_eq, h.wf'.contains_eq, h.address, decide_eq_decide.2 (h.slot a k)]

theorem Same.addAddress (h : al.Same al') (a : Address) :
    (al.addAddress a).2.Same (al'.addAddress a).2 where
  wf := h.wf.addAddress
  wf' := h.wf'.addAddress
  address b := by
    rw [Bool.eq_iff_iff, containsAddress_addAddress, containsAddress_addAddress, h.address]
  slot b k := by rw [slotsOf_addAddress, slotsOf_addAddress, h.slot]

theorem Same.addSlot (h : al.Same al') (a : Address) (k : Hash) :
    ∃ ac sc al₁ ac' sc' al₁', al.addSlot a k = .ok (ac, sc, al₁) ∧
      al'.addSlot a k = .ok (ac', sc', al₁') ∧ al₁.Same al₁' := by
  obtain ⟨ac, sc, al₁, hadd, hwf⟩ := h.wf.addSlot a k
  obtain ⟨ac', sc', al₁', hadd', hwf'⟩ := h.wf'.addSlot a k
  refine ⟨ac, sc, al₁, ac', sc', al₁', hadd, hadd', hwf, hwf', fun b ↦ ?_, fun b j ↦ ?_⟩
  · rw [Bool.eq_iff_iff, containsAddress_of_addSlot hadd, containsAddress_of_addSlot hadd', h.address]
  · rw [h.wf.mem_slotsOf_addSlot hadd, h.wf'.mem_slotsOf_addSlot hadd', h.slot]

end AccessList

end GoEntropy.State
