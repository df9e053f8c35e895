import GoEntropy.Rlp.Agreement

/-!
# Iterating over encoded lists

The iterator of `iterator.go` takes the items of a list off one by one. A header that `readKind` refuses
has no size: the iterator then stays where it is, and `Next` answers true for ever. So a loop over the items
ends if and only if every header is readable (`iteration_ends_iff`).
-/

namespace GoEntropy.Rlp.Raw

/-- `listIterator`. -/
structure ListIterator where
  data : Bytes
  next : Bytes
  err : Option RlpError

/-- `NewListIterator`. -/
def newListIterator (data : Bytes) : Except RlpError ListIterator :=
  match readKind data with
  | .error e => .error e
  | .ok (.list, t, c) => .ok ⟨(data.drop t).take c, [], none⟩
  | .ok _ => .error .expectedList

namespace ListIterator

/-- `Next`: the iterator one step further, or nothing at the end. -/
def step (it : ListIterator) : Option ListIterator :=
  if it.data = [] then none
  else
    let (t, c, err) :=
      match readKind it.data with
      | .error e => (0, 0, some e)
      | .ok (_, t, c) => (t, c, none)
    some ⟨it.data.drop (t + c), it.data.take (t + c), err⟩

/-- The values that a loop over `Next` sees, if one of this many calls ends it. -/
def loop : (calls : Nat) → ListIterator → Option (List Bytes)
  | 0, _ => none
  | calls + 1, it =>
    match it.step with
    | none => some []
    | some it => (loop calls it).map (it.next :: ·)

end ListIterator

theorem length_drop_lt {b : Bytes} {k : Kind} {t c : Nat} (h : readKind b = .ok (k, t, c)) :
    (b.drop (t + c)).length < b.length := by
  have hsplit : split b = .ok (k, (b.drop t).take c, b.drop (t + c)) := by
    rw [split, h]
    rfl
  obtain ⟨-, hb⟩ | ⟨-, hb⟩ := split_sound hsplit
  · have hlen := congrArg List.length hb
    have hpos : 0 < (bytes ((b.drop t).take c)).length := encode_pos (.bytes _)
    rw [List.length_append] at hlen
    omega
  · have hlen := congrArg List.length hb
    have hpos := length_listHeader_pos ((b.drop t).take c).length
    rw [List.length_append, length_framed] at hlen
    omega

namespace ListIterator

variable {it : ListIterator} {values : List Bytes} {n rounds i : Nat}

/-- What a step does: it takes a value off, or stays before a header that is refused. -/
theorem step_cases (it : ListIterator) : (it.data = [] ∧ it.step = none) ∨
    it.data ≠ [] ∧ ((∃ k t c, readKind it.data = .ok (k, t, c) ∧
        it.step = some ⟨it.data.drop (t + c), it.data.take (t + c), none⟩) ∨
      ∃ e, readKind it.data = .error e ∧ it.step = some ⟨it.data, [], some e⟩) := by
  unfold step
  by_cases hnil : it.data = []
  · exact .inl ⟨hnil, if_pos hnil⟩
  refine .inr ⟨hnil, ?_⟩
  rw [if_neg hnil]
  cases readKind it.data with
  | ok found => exact .inl ⟨_, _, _, rfl, rfl⟩
  | error e => exact .inr ⟨e, rfl, rfl⟩

/-- The values of a loop that ends are the content, and their headers are readable. -/
theorem spec_of_loop (h : it.loop n = some values) :
    values.flatten = it.data ∧ ∀ rounds i, ∃ count, countFrom rounds it.data i = .ok count := by
  induction n generalizing it values with
  | zero => cases h
  | succ n ih =>
    obtain ⟨hnil, hstep⟩ | ⟨hne, ⟨k, t, c, hread, hstep⟩ | ⟨e, hread, hstep⟩⟩ := it.step_cases
    all_goals rw [loop, hstep] at h
    · cases h
      exact hnil ▸ ⟨rfl, fun rounds i ↦ ⟨i, by cases rounds <;> rfl⟩⟩
    · obtain ⟨rest, hrest, rfl⟩ := Option.map_eq_some_iff.1 h
      obtain ⟨hflat, hcount⟩ := ih hrest
      refine ⟨(congrArg _ hflat).trans (List.take_append_drop _ _), fun rounds i ↦ ?_⟩
      cases rounds with
      | zero => exact ⟨i, rfl⟩
      | succ rounds =>
        rw [countFrom_succ hne, hread]
        exact hcount rounds (i + 1)
    · -- the next round reads the same header
      obtain ⟨rest, hrest, -⟩ := Option.map_eq_some_iff.1 h
      obtain ⟨count, hcount⟩ := (ih hrest).2 1 0
      rw [countFrom_succ hne, hread] at hcount
      cases hcount

/-- A loop over readable headers ends: each round leaves fewer bytes. -/
theorem loop_of_countFrom {count : Nat} (hn : it.data.length < n) (hr : it.data.length ≤ rounds)
    (h : countFrom rounds it.data i = .ok count) : ∃ values, it.loop n = some values := by
  induction n generalizing it rounds i with
  | zero => omega
  | succ n ih =>
    obtain ⟨-, hstep⟩ | ⟨hne, hread⟩ := it.step_cases
    · exact ⟨[], by rw [loop, hstep]⟩
    obtain ⟨r, rfl⟩ := Nat.exists_eq_add_one.2 (Nat.lt_of_lt_of_le (List.length_pos_iff.2 hne) hr)
    rw [countFrom_succ hne] at h
    obtain ⟨k, t, c, hread, hstep⟩ | ⟨e, hread, -⟩ := hread
    · rw [hread] at h
      have hlt := length_drop_lt hread
      obtain ⟨values, hvalues⟩ := @ih ⟨it.data.drop (t + c), it.data.take (t + c), none⟩ r (i + 1)
        (Nat.lt_of_lt_of_le hlt (Nat.le_of_lt_succ hn)) (Nat.le_of_lt_succ (Nat.lt_of_lt_of_le hlt hr)) h
      exact ⟨_, by rw [loop, hstep]; exact congrArg (Option.map _) hvalues⟩
    · rw [hread] at h
      cases h

end ListIterator

/-- **A loop over a list ends if and only if the headers of its items are readable.** It has no more rounds
than there are bytes then, and the values are the content. -/
theorem iteration_ends_iff (data : Bytes) (it : ListIterator) (h : newListIterator data = .ok it) :
    ((∃ values, it.loop (data.length + 1) = some values) ∧
        ∀ values, it.loop (data.length + 1) = some values → values.flatten = it.data) ↔
      ∃ n, countValues it.data = .ok n := by
  constructor
  · rintro ⟨⟨values, hvalues⟩, -⟩
    exact (ListIterator.spec_of_loop hvalues).2 _ _
  · rintro ⟨n, hn⟩
    have hle : it.data.length ≤ data.length := by
      unfold newListIterator at h
      split at h <;> cases h
      simp
    exact ⟨ListIterator.loop_of_countFrom (Nat.lt_succ_of_le hle) le_rfl hn, fun values hvalues ↦
      (ListIterator.spec_of_loop hvalues).1⟩

theorem iteration_ends_iff_bytes : ∃ values, ListIterator.loop 4 ⟨[0x01, 0x02], [], none⟩ = some values ∧
    values.flatten = [0x01, 0x02] := by
  obtain ⟨⟨values, hvalues⟩, hflat⟩ := (iteration_ends_iff [0xC2, 0x01, 0x02] _ rfl).2 ⟨2, rfl⟩
  exact ⟨values, hvalues, hflat values hvalues⟩

/-- The list of a string of one byte that is cut off: the loop does not end. -/
theorem iteration_never_ends : ∃ it, newListIterator [0xC1, 0x81] = .ok it ∧ ∀ n, it.loop n = none := by
  refine ⟨_, rfl, fun n ↦ Option.eq_none_iff_forall_ne_some.2 fun values hvalues ↦ ?_⟩
  obtain ⟨count, hcount⟩ := (ListIterator.spec_of_loop hvalues).2 1 0
  cases hcount

end GoEntropy.Rlp.Raw
