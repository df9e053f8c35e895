import GoEntropy.Rlp.Codec

/-!
# Lists

The content of a list is read between `List` and `ListEnd`. If the content of a list has a codec, so
has the list. The limit of the list at its end is the announced size, reduced by what was read, modulo
2 ^ 64. Both numbers are below 2 ^ 63, so it is zero only if they are equal.
-/

namespace GoEntropy.Rlp

open Decoder Rlp.Stream
open List hiding take

variable {α β : Type} {dec : Decoder α} {enc : α → Bytes} {s s' s'' : Stream} {n m bound : Nat} {e : RlpError}

abbrev listHeader (n : Nat) : Bytes := puthead 0xC0 0xF7 n

/-- The encoding of a list with the given content. -/
def framed (content : Bytes) : Bytes := listHeader content.length ++ content

theorem length_framed (content : Bytes) :
    (framed content).length = (listHeader content.length).length + content.length :=
  length_append

theorem length_listHeader_pos (n : Nat) : 0 < (listHeader n).length := by
  obtain ⟨b, tl, h⟩ := puthead_eq_cons 0xC0 0xF7 n
  simp [h]

/-- A list of the given size has been entered. -/
structure Entered (s : Stream) (n : Nat) (s' : Stream) : Prop where
  ready : s'.Ready
  header : listHeader n <+: s.input
  fits : (listHeader n).length + n ≤ s.input.length
  input : s'.input = s.input.drop (listHeader n).length
  stack : s'.stack = n :: s.stack.modifyHead (sub64 · ((listHeader n).length + n))

theorem Entered.length_lt (h : Entered s n s') (hlen : s.input.length < bound + 1) :
    s'.input.length < bound := by
  have hpos := length_listHeader_pos n
  have hfits := h.fits
  rw [h.input, length_drop]
  omega

section

variable (hs : s.Ready)

include hs

theorem enter_ahead (hheader : listHeader n <+: s.input)
    (hroom : s.Allows (listHeader n).length) (hfits : (listHeader n).length + n ≤ s.input.length) :
    Entered s n ((s.ahead .list n 0 (listHeader n)).enter n) := by
  have hshort := hs.short
  have hstack : ((s.ahead .list n 0 (listHeader n)).enter n).stack =
      n :: s.stack.modifyHead (sub64 · ((listHeader n).length + n)) := by
    cases hst : s.stack with
    | nil => simp [enter, ahead, take, listLimit, hst]
    | cons l rest =>
      have hle : (listHeader n).length ≤ l := hroom l (by simp [listLimit, hst])
      have hl : l < 2 ^ 64 := hs.limits l (by simp [hst])
      have hsub : sub64 (l - (listHeader n).length) n = sub64 l ((listHeader n).length + n) := by
        rw [← sub64_of_le hle hl, sub64_sub64 (by omega) (by omega)]
      simp [enter, ahead, take, listLimit, setLimit, hst, hsub]
  have hinput : ((s.ahead .list n 0 (listHeader n)).enter n).input =
      s.input.drop (listHeader n).length := by
    unfold enter
    split <;> rfl
  have hremaining : ((s.ahead .list n 0 (listHeader n)).enter n).remaining =
      s.remaining - (listHeader n).length := by
    unfold enter
    split <;> rfl
  refine ⟨⟨rfl, ?_, ?_, ?_, ?_⟩, hheader, hfits, hinput, hstack⟩
  · unfold enter
    split <;> exact hs.limited
  · rw [hinput, hremaining, hs.remaining, length_drop]
  · rw [hinput, length_drop]
    omega
  · intro l hl
    rw [hstack] at hl
    rcases mem_cons.1 hl with rfl | hl
    · omega
    · exact modifyHead_lt hs.limits l hl

theorem openList_ok (hok : openList s = (.ok n, s')) : Entered s n s' := by
  obtain ⟨⟨k, m⟩, t, hkind, hlist⟩ := bind_eq_ok.1 hok
  obtain ⟨x, hd, hheader, hstarts, hroom, _, hfits, rfl⟩ := (getKind_eq_ok hs).1 hkind
  cases hheader with
  | byte | string => cases hlist
  | list hn =>
    cases hlist
    exact enter_ahead hs hstarts hroom hfits

theorem openList_complete (hheader : listHeader n <+: s.input)
    (hroom : s.Allows ((listHeader n).length + n)) (hfits : (listHeader n).length + n ≤ s.input.length) :
    ∃ s', openList s = (.ok n, s') ∧ Entered s n s' := by
  have hshort := hs.short
  have hkind : getKind s = (.ok (.list, n), s.ahead .list n 0 (listHeader n)) := (getKind_eq_ok hs).2
    ⟨0, listHeader n, .list (by omega), hheader, hroom.mono (by omega), hroom.mono (by omega), hfits, rfl⟩
  refine ⟨_, ?_, enter_ahead hs hheader (hroom.mono (by omega)) hfits⟩
  unfold openList
  rw [bind_ok hkind]
  rfl

theorem openList_error (herr : openList s = (.error e, s')) :
    e.Plain ∨ (e = .eol ∧ s.listLimit = some 0 ∧ s' = s) := by
  rcases bind_eq_error.1 herr with hkind | ⟨⟨k, m⟩, t, _, hlist⟩
  · exact getKind_error hs hkind
  · cases k with
    | byte | string =>
      cases hlist
      exact .inl ⟨by simp, by simp⟩
    | list => cases hlist

theorem listEnd_complete (h : Entered s n s') (h' : Advanced s' n s'') :
    ∃ t, listEnd s'' = (.ok (), t) ∧ Advanced s ((listHeader n).length + n) t := by
  have hshort := hs.short
  have hfits := h.fits
  have hzero : sub64 n n = 0 := by rw [sub64_of_le le_rfl (by omega), Nat.sub_self]
  have hstack : s''.stack = 0 :: s.stack.modifyHead (sub64 · ((listHeader n).length + n)) := by
    rw [h'.stack, h.stack, modifyHead_cons, hzero]
  refine ⟨{ s'' with stack := s''.stack.tail, kind := none, size := 0 }, ?_, ?_⟩
  · simp [listEnd, listLimit, hstack]
  · refine ⟨⟨rfl, h'.ready.limited, h'.ready.remaining, h'.ready.short, ?_⟩, hfits, ?_, ?_⟩
    · intro l hl
      exact h'.ready.limits l (mem_of_mem_tail hl)
    · rw [h'.input, h.input, drop_drop]
    · rw [hstack, tail_cons]

theorem listEnd_sound (h : Entered s n s') (h' : Advanced s' m s'') {t : Stream}
    (hend : listEnd s'' = (.ok (), t)) : m = n := by
  have hshort := hs.short
  have hshort' := h.ready.short
  have hfits := h.fits
  have hm := h'.le
  have hstack : s''.stack.head? = some (sub64 n m) := by
    rw [h'.stack, h.stack, modifyHead_cons, head?_cons]
  unfold listEnd listLimit at hend
  simp only [hstack] at hend
  split at hend
  · cases hend
  · rename_i hzero
    -- The two numbers agree modulo 2 ^ 64.
    unfold sub64 wrap64 at hzero
    omega

end

theorem listEnd_error (herr : listEnd s = (.error e, s')) : e.Plain := by
  unfold listEnd at herr
  split at herr
  · cases herr
    exact ⟨by simp, by simp⟩
  · split at herr <;> cases herr
    exact ⟨by simp, by simp⟩

/-! ## Codecs of lists -/

theorem codec_of_content {f g : RlpError → RlpError} (h : Content bound dec enc) (hf : KeepsEol f)
    (hg : KeepsEol g) :
    Codec (bound + 1) (do
      let _ ← mapError f openList
      let v ← dec
      mapError g listEnd
      pure v) fun v ↦ framed (enc v) where
  complete := by
    intro s v hs hlen hinput hroom
    rw [length_framed] at hroom ⊢
    have hfits := hinput.length_le
    rw [length_framed] at hfits
    obtain ⟨s1, hopen, hentered⟩ := openList_complete hs ((List.prefix_append _ _).trans hinput) hroom
      hfits
    have hcontent : enc v <+: s1.input := by
      obtain ⟨rest, hrest⟩ := hinput
      rw [hentered.input, ← hrest, framed, append_assoc, drop_left]
      exact List.prefix_append _ _
    obtain ⟨s2, hdec, hadv⟩ := h.complete hentered.ready (hentered.length_lt hlen) hcontent
      (by simp [listLimit, hentered.stack])
    obtain ⟨s3, hend, hadv⟩ := listEnd_complete hs hentered hadv
    refine ⟨s3, ?_, hadv⟩
    rw [bind_ok (mapError_eq_ok.2 hopen), bind_ok hdec,
      bind_ok (mapError_eq_ok.2 hend)]
    rfl
  sound := by
    intro s s' v hs hlen hok
    obtain ⟨n, s1, hopen, hok⟩ := bind_eq_ok.1 hok
    obtain ⟨w, s2, hdec, hok⟩ := bind_eq_ok.1 hok
    obtain ⟨_, s3, hend, hpure⟩ := bind_eq_ok.1 hok
    cases hpure
    have hentered := openList_ok hs (mapError_eq_ok.1 hopen)
    have hend := mapError_eq_ok.1 hend
    obtain ⟨hcontent, hadv⟩ := h.sound hentered.ready (hentered.length_lt hlen) hdec
    obtain rfl := listEnd_sound hs hentered hadv hend
    obtain ⟨t, hend', hadv⟩ := listEnd_complete hs hentered hadv
    rw [hend] at hend'
    obtain rfl := (Prod.mk.inj hend').2
    rw [length_framed]
    refine ⟨?_, hadv⟩
    obtain ⟨rest, hrest⟩ := hentered.header
    rw [hentered.input, ← hrest, drop_left] at hcontent
    rw [← hrest]
    exact (prefix_append_right_inj _).2 hcontent
  eol hs _ hend := bind_error (mapError_eq_error.2 ⟨.eol, bind_error (getKind_eol hs hend), hf.eol.symm⟩)
  error := by
    intro s s' e hs hlen herr
    rcases bind_eq_error.1 herr with hwrap | ⟨n, s1, hopen, herr⟩
    · obtain ⟨e', hopen, rfl⟩ := mapError_eq_error.1 hwrap
      rcases openList_error hs hopen with hplain | ⟨rfl, hend, rfl⟩
      · exact .inl (hf.plain hplain)
      · exact .inr ⟨hf.eol, hend, rfl⟩
    · have hentered := openList_ok hs (mapError_eq_ok.1 hopen)
      rcases bind_eq_error.1 herr with hdec | ⟨w, s2, hdec, herr⟩
      · exact .inl (h.error hentered.ready (hentered.length_lt hlen) hdec)
      · rcases bind_eq_error.1 herr with hwrap | ⟨_, s3, _, hpure⟩
        · obtain ⟨e', hend, rfl⟩ := mapError_eq_error.1 hwrap
          exact .inl (hg.plain (listEnd_error hend))
        · cases hpure
  pos v := by
    rw [length_framed]
    have := length_listHeader_pos (enc v).length
    omega

/-! ## Elements -/

theorem Advanced.refl (hs : s.Ready) : Advanced s 0 s := by
  refine ⟨hs, Nat.zero_le _, rfl, ?_⟩
  cases hst : s.stack with
  | nil => rfl
  | cons l rest =>
    have hl : l < 2 ^ 64 := hs.limits l (by simp [hst])
    rw [modifyHead_cons, sub64_of_le (Nat.zero_le l) hl, Nat.sub_zero]

theorem Advanced.listLimit (hs : s.Ready) (h : Advanced s n s') (hlist : s.listLimit = some (n + m)) :
    s'.listLimit = some m := by
  obtain ⟨rest, hst⟩ := head?_eq_some_iff.1 hlist
  have hl : n + m < 2 ^ 64 := hs.limits (n + m) (by simp [hst])
  unfold Stream.listLimit
  rw [h.stack, hst, modifyHead_cons, head?_cons, sub64_of_le (by omega) hl,
    Nat.add_sub_cancel_left]

theorem Advanced.prefix_append {b c : Bytes} (h : Advanced s b.length s') (hb : b <+: s.input)
    (hc : c <+: s'.input) : b ++ c <+: s.input := by
  obtain ⟨rest, hrest⟩ := hb
  rw [h.input, ← hrest, drop_left] at hc
  rw [← hrest]
  exact (prefix_append_right_inj b).2 hc

theorem Advanced.prefix_of_append {b c : Bytes} (h : Advanced s b.length s') (hbc : b ++ c <+: s.input) :
    c <+: s'.input := by
  obtain ⟨rest, hrest⟩ := hbc
  rw [h.input, ← hrest, append_assoc, drop_left]
  exact List.prefix_append c rest

theorem Advanced.length_le (h : Advanced s n s') : s'.input.length + n = s.input.length := by
  have := h.le
  rw [h.input, length_drop]
  omega

theorem plain_addErrorContext (h : e.Plain) (ctx : Context) : (addErrorContext e ctx).Plain := by
  cases e <;> first | exact h | exact ⟨by simp [addErrorContext], by simp [addErrorContext]⟩

theorem Codec.complete_append (h : Codec bound dec enc) {v : α} {rest : Bytes} (hs : s.Ready)
    (hlen : s.input.length < bound) (hinput : enc v ++ rest <+: s.input)
    (hlist : s.listLimit = some (enc v ++ rest).length) :
    ∃ s', dec s = (.ok v, s') ∧ Advanced s (enc v).length s' ∧ s'.input.length < bound ∧
      rest <+: s'.input ∧ s'.listLimit = some rest.length := by
  rw [length_append] at hlist
  obtain ⟨s', hdec, hadv⟩ := h.complete hs hlen ((List.prefix_append _ _).trans hinput)
    (fun l hl ↦ by rw [hlist, Option.mem_some_iff] at hl; omega)
  have hlen' := hadv.length_le
  exact ⟨s', hdec, hadv, by omega, hadv.prefix_of_append hinput, hadv.listLimit hs hlist⟩

theorem Codec.sound_append (h : Codec bound dec enc) {v : α} {rest : Bytes} (hs : s.Ready)
    (hlen : s.input.length < bound) (hok : dec s = (.ok v, s'))
    (hrest : s'.Ready → s'.input.length < bound → rest <+: s'.input ∧ Advanced s' rest.length s'') :
    enc v ++ rest <+: s.input ∧ Advanced s (enc v ++ rest).length s'' := by
  obtain ⟨hv, hadv⟩ := h.sound hs hlen hok
  have hlen' := hadv.length_le
  obtain ⟨hrest, hadv'⟩ := hrest hadv.ready (by omega)
  rw [length_append]
  exact ⟨hadv.prefix_append hv hrest, hadv.trans hs hadv'⟩

variable {fuel i : Nat}

theorem decodeElemsFrom_ok {v : α} (h : dec s = (.ok v, s')) :
    decodeElemsFrom dec (fuel + 1) i s = (cons v <$> decodeElemsFrom dec fuel (i + 1)) s' := by
  simp only [decodeElemsFrom, h]

theorem decodeElemsFrom_eol (h : dec s = (.error .eol, s')) :
    decodeElemsFrom dec (fuel + 1) i s = (.ok [], s') := by
  simp only [decodeElemsFrom, h]

theorem decodeElemsFrom_plain (h : dec s = (.error e, s')) (he : e ≠ .eol) :
    decodeElemsFrom dec (fuel + 1) i s = (.error (addErrorContext e (.index i)), s') := by
  simp only [decodeElemsFrom, h]

theorem map_ok {g : α → β} {v : α} (h : dec s = (.ok v, s')) : (g <$> dec) s = (.ok (g v), s') :=
  bind_ok (f := fun a ↦ pure (g a)) h

theorem map_eq_ok {g : α → β} {w : β} :
    (g <$> dec) s = (.ok w, s') ↔ ∃ v, dec s = (.ok v, s') ∧ w = g v := by
  refine .trans (bind_eq_ok (f := fun a ↦ pure (g a))) ⟨?_, ?_⟩
  · rintro ⟨v, t, hdec, hpure⟩
    cases hpure
    exact ⟨v, hdec, rfl⟩
  · rintro ⟨v, hdec, rfl⟩
    exact ⟨v, s', hdec, rfl⟩

theorem map_eq_error {g : α → β} : (g <$> dec) s = (.error e, s') ↔ dec s = (.error e, s') := by
  refine .trans (bind_eq_error (f := fun a ↦ pure (g a))) ⟨?_, .inl⟩
  rintro (hdec | ⟨v, t, _, hpure⟩)
  · exact hdec
  · cases hpure

theorem decodeElemsFrom_complete (h : Codec bound dec enc) (vs : List α) :
    ∀ {s : Stream} {fuel i : Nat}, s.Ready → s.input.length < bound → vs.length < fuel →
      vs.flatMap enc <+: s.input → s.listLimit = some (vs.flatMap enc).length →
      ∃ s', decodeElemsFrom dec fuel i s = (.ok vs, s') ∧ Advanced s (vs.flatMap enc).length s' := by
  induction vs with
  | nil =>
    intro s fuel i hs hlen hfuel _ hlist
    obtain ⟨fuel, rfl⟩ := Nat.exists_eq_succ_of_ne_zero (Nat.ne_of_gt hfuel)
    exact ⟨s, decodeElemsFrom_eol (h.eol hs hlen hlist), .refl hs⟩
  | cons v vs ih =>
    intro s fuel i hs hlen hfuel hinput hlist
    obtain ⟨fuel, rfl⟩ := Nat.exists_eq_succ_of_ne_zero (Nat.ne_of_gt (Nat.zero_lt_of_lt hfuel))
    rw [flatMap_cons] at hinput hlist ⊢
    rw [length_append]
    obtain ⟨s1, hdec, hadv, hlen1, hinput1, hlist1⟩ := h.complete_append hs hlen hinput hlist
    obtain ⟨s2, hrest, hadv2⟩ := ih hadv.ready hlen1 (Nat.lt_of_succ_lt_succ hfuel) hinput1
      hlist1
    refine ⟨s2, ?_, hadv.trans hs hadv2⟩
    rw [decodeElemsFrom_ok hdec, map_ok hrest]

theorem decodeElemsFrom_sound (h : Codec bound dec enc) (fuel : Nat) :
    ∀ {s s' : Stream} {i : Nat} {vs : List α}, s.Ready → s.input.length < bound →
      decodeElemsFrom dec fuel i s = (.ok vs, s') →
      vs.flatMap enc <+: s.input ∧ Advanced s (vs.flatMap enc).length s' := by
  induction fuel with
  | zero =>
    intro s s' i vs _ _ hok
    cases hok
  | succ fuel ih =>
    intro s s' i vs hs hlen hok
    rcases hdec : dec s with ⟨e | v, s1⟩
    · by_cases he : e = .eol
      · subst he
        rw [decodeElemsFrom_eol hdec] at hok
        cases hok
        obtain ⟨hplain, _⟩ | ⟨_, _, rfl⟩ := h.error hs hlen hdec
        · exact absurd rfl hplain
        · exact ⟨List.nil_prefix, .refl hs⟩
      · rw [decodeElemsFrom_plain hdec he] at hok
        cases hok
    · rw [decodeElemsFrom_ok hdec] at hok
      obtain ⟨vs, hrest, rfl⟩ := map_eq_ok.1 hok
      exact h.sound_append hs hlen hdec fun hs1 hlen1 ↦ ih hs1 hlen1 hrest

theorem decodeElemsFrom_error (h : Codec bound dec enc) (fuel : Nat) :
    ∀ {s s' : Stream} {i : Nat} {e : RlpError}, s.Ready → s.input.length < bound →
      s.input.length < fuel → decodeElemsFrom dec fuel i s = (.error e, s') → e.Plain := by
  induction fuel with
  | zero =>
    intro s s' i e _ _ hfuel _
    omega
  | succ fuel ih =>
    intro s s' i e hs hlen hfuel herr
    rcases hdec : dec s with ⟨e' | v, s1⟩
    · by_cases he : e' = .eol
      · rw [decodeElemsFrom_eol (he ▸ hdec)] at herr
        cases herr
      · rw [decodeElemsFrom_plain hdec he] at herr
        cases herr
        rcases h.error hs hlen hdec with hplain | ⟨heol, _⟩
        · exact plain_addErrorContext hplain _
        · exact absurd heol he
    · rw [decodeElemsFrom_ok hdec, map_eq_error] at herr
      obtain ⟨_, hadv⟩ := h.sound hs hlen hdec
      have hlen1 := hadv.length_le
      have hpos := h.pos v
      exact ih hadv.ready (by omega) (by omega) herr

theorem length_le_flatMap (h : ∀ v, 0 < (enc v).length) (vs : List α) :
    vs.length ≤ (vs.flatMap enc).length := by
  induction vs with
  | nil => exact Nat.zero_le _
  | cons v vs ih =>
    have := h v
    rw [flatMap_cons, length_append, length_cons]
    omega

theorem content_decodeSliceElems (h : Codec bound dec enc) :
    Content bound (decodeSliceElems dec) fun vs ↦ vs.flatMap enc where
  complete hs hlen hinput hlist := decodeElemsFrom_complete h _ hs hlen
    (Nat.lt_succ_of_le ((length_le_flatMap h.pos _).trans hinput.length_le)) hinput hlist
  sound hs hlen hok := decodeElemsFrom_sound h _ hs hlen hok
  error hs hlen herr := decodeElemsFrom_error h _ hs hlen (Nat.lt_succ_self _) herr

theorem keepsEol_id : KeepsEol id := ⟨rfl, id⟩

theorem mapError_id : mapError id dec = dec := by
  funext s
  rcases hdec : dec s with ⟨e | v, t⟩
  · exact mapError_eq_error.2 ⟨e, hdec, rfl⟩
  · exact mapError_eq_ok.2 hdec

theorem codec_decodeListSlice (elem : Typ) (h : Codec bound dec enc) :
    Codec (bound + 1) (decodeListSlice elem dec) fun vs ↦ framed (vs.flatMap enc) := by
  refine (codec_of_content (content_decodeSliceElems h) (keepsEol_wrapStreamError (.slice elem))
    keepsEol_id).congr fun s hs hlen ↦ ?_
  unfold decodeListSlice
  rcases hopen : mapError (wrapStreamError · (.slice elem)) openList s with ⟨e | n, s1⟩
  · rw [bind_error hopen, bind_error hopen]
  · have hentered := openList_ok hs (mapError_eq_ok.1 hopen)
    rw [bind_ok hopen, bind_ok hopen, mapError_id]
    split
    · -- An empty list is at its end already.
      rename_i hzero
      have hend : s1.listLimit = some 0 := by simp [listLimit, hentered.stack, hzero]
      have helems : decodeSliceElems dec s1 = (.ok [], s1) :=
        decodeElemsFrom_eol (h.eol hentered.ready (hentered.length_lt hlen) hend)
      rw [bind_ok helems]
    · rfl

/-! ## Arrays -/

/-- A change of errors that makes the end of the list a plain error. -/
def Blames (f : RlpError → RlpError) : Prop := ∀ e : RlpError, e.Plain ∨ e = .eol → (f e).Plain

/-- A first element, whose errors are changed, and the rest of the list. -/
theorem content_first {γ : Type} {f : RlpError → RlpError} {decs : Decoder β} {encs : β → Bytes}
    {encl : γ → Bytes} (g : α → β → γ) (h : Codec bound dec enc) (hf : Blames f)
    (hs : Content bound decs encs) (hg : ∀ w, ∃ v vs, w = g v vs)
    (hencl : ∀ v vs, encl (g v vs) = enc v ++ encs vs) :
    Content bound (do
      let v ← mapError f dec
      let vs ← decs
      pure (g v vs)) encl where
  complete := by
    intro s w hready hlen hinput hlist
    obtain ⟨v, vs, rfl⟩ := hg w
    rw [hencl] at hinput hlist ⊢
    rw [length_append]
    obtain ⟨s1, hdec, hadv, hlen1, hinput1, hlist1⟩ := h.complete_append hready hlen hinput hlist
    obtain ⟨s2, hrest, hadv2⟩ := hs.complete hadv.ready hlen1 hinput1 hlist1
    refine ⟨s2, ?_, hadv.trans hready hadv2⟩
    rw [bind_ok (mapError_eq_ok.2 hdec), bind_ok hrest]
    rfl
  sound := by
    intro s s' w hready hlen hok
    obtain ⟨v, s1, hfirst, hok⟩ := bind_eq_ok.1 hok
    obtain ⟨vs, s2, hrest, hpure⟩ := bind_eq_ok.1 hok
    cases hpure
    rw [hencl]
    exact h.sound_append hready hlen (mapError_eq_ok.1 hfirst) fun hready1 hlen1 ↦
      hs.sound hready1 hlen1 hrest
  error := by
    intro s s' e hready hlen herr
    rcases bind_eq_error.1 herr with hfirst | ⟨v, s1, hfirst, herr⟩
    · obtain ⟨e', hdec, rfl⟩ := mapError_eq_error.1 hfirst
      exact hf e' ((h.error hready hlen hdec).imp_right And.left)
    · obtain ⟨_, hadv⟩ := h.sound hready hlen (mapError_eq_ok.1 hfirst)
      have hlen1 := hadv.length_le
      rcases bind_eq_error.1 herr with hrest | ⟨vs, s2, _, hpure⟩
      · exact hs.error hadv.ready (by omega) hrest
      · cases hpure

variable {typ : Typ}

/-- The error of an element of an array. An array that ends early is an error, like one with a bad
element. -/
def arrayError (typ : Typ) (i : Nat) : RlpError → RlpError
  | .eol => .decodeError "input list has too few elements" typ []
  | err => addErrorContext err (.index i)

theorem blames_arrayError (i : Nat) : Blames (arrayError typ i) := by
  intro e h
  unfold arrayError
  split
  · exact ⟨by simp, by simp⟩
  · next hne => exact plain_addErrorContext (h.resolve_right hne) _

theorem decodeArrayFrom_succ (len i : Nat) : decodeArrayFrom typ dec (len + 1) i = (do
    let v ← mapError (arrayError typ i) dec
    let vs ← decodeArrayFrom typ dec len (i + 1)
    pure (List.Vector.cons v vs)) := by
  funext s
  rcases hdec : dec s with ⟨e | v, t⟩
  · rw [bind_error (mapError_eq_error.2 ⟨e, hdec, rfl⟩)]
    simp only [decodeArrayFrom, hdec]
    cases e <;> rfl
  · rw [bind_ok (mapError_eq_ok.2 hdec)]
    simp only [decodeArrayFrom, hdec]
    rfl

theorem content_decodeArrayFrom (h : Codec bound dec enc) (len i : Nat) :
    Content bound (decodeArrayFrom typ dec len i) fun v ↦ v.toList.flatMap enc := by
  induction len generalizing i with
  | zero =>
    refine ⟨fun {s v} hs _ _ _ ↦ ⟨s, ?_, ?_⟩, fun {s s' v} hs _ hok ↦ ?_, nofun⟩
    · rw [v.eq_nil]
      rfl
    · rw [v.eq_nil]
      exact .refl hs
    · cases hok
      exact ⟨List.nil_prefix, .refl hs⟩
  | succ len ih =>
    rw [decodeArrayFrom_succ]
    exact content_first _ h (blames_arrayError i) (ih (i + 1))
      (fun w ↦ ⟨w.head, w.tail, w.cons_head_tail.symm⟩) fun v vs ↦ by
        rw [List.Vector.toList_cons, flatMap_cons]

theorem codec_decodeListArray (elem : Typ) (h : Codec bound dec enc) (len : Nat) :
    Codec (bound + 1) (decodeListArray elem dec len) fun v ↦ framed (v.toList.flatMap enc) :=
  codec_of_content (content_decodeArrayFrom h len 0) (keepsEol_wrapStreamError _)
    (keepsEol_wrapStreamError _)

end GoEntropy.Rlp
