import Mathlib

/-!
# Programs over an interface

A component that works on shared mutable state through a fixed list of methods is two things: the
*program* that decides which method to call next from the answers it got so far, and the *handler*
that keeps the state and answers. Keeping the two apart is what lets one program run on two
implementations of the same interface, and lets a fact about the calls a program can make be proved
without knowing who answers them.

A `Prog I ε α` is a well-founded tree: it returns a value, stops with a fault, or calls an operation
of `I` and continues with the answer. A `Handler I ε σ` answers operations in a state `σ` and may
itself fault.

## What is provided

- `Prog.run`, the execution of a program by a handler;
- `Prog.Uses`, the set of operations a program can call whatever the answers are;
- `Prog.Returns`, a property of every value a program can return;
- `Prog.Along`, a property of every operation actually called, at the state it is called in;
- `Prog.wp`, a weakest precondition relative to an assumption and a guarantee on calls;
- `Handler.Simulates` and `Prog.run_simulates`, the simulation rule;
- `Relator` and `Prog.Related`, programs that correspond call by call, and their simulation rule;
- `Handler.observed`, a handler with an observer's account beside its state.
-/

namespace Interaction

/-- An interface: the operations, and the type of answers each of them has. -/
structure Interface where
  /-- The operations, with their arguments. -/
  Op : Type
  /-- The answers of an operation. -/
  Res : Op → Type

/-- A program over `I` that returns an `α` or stops with a fault in `ε`. -/
inductive Prog (I : Interface) (ε α : Type) : Type where
  /-- Return a value. -/
  | pure (a : α)
  /-- Stop with a fault. -/
  | fault (e : ε)
  /-- Call an operation and continue with its answer. -/
  | call (o : I.Op) (k : I.Res o → Prog I ε α)

/-- A handler answers every operation from a state, or faults. -/
def Handler (I : Interface) (ε σ : Type) : Type :=
  (o : I.Op) → σ → Except ε (I.Res o × σ)

/-- What a handler answers, without the state it goes to. -/
def Handler.answer {I : Interface} {ε σ : Type} (h : Handler I ε σ) (o : I.Op) (s : σ) :
    Except ε (I.Res o) := (h o s).map Prod.fst

namespace Prog

variable {I : Interface} {ε α β γ σ τ : Type}

/-! ## Sequencing -/

/-- Run `x`, then the program its result selects. -/
def bind : Prog I ε α → (α → Prog I ε β) → Prog I ε β
  | pure a, f => f a
  | fault e, _ => fault e
  | call o k, f => call o fun r ↦ (k r).bind f

instance : Monad (Prog I ε) where
  pure := Prog.pure
  bind := Prog.bind

/-- The program that only calls `o`. -/
def perform (o : I.Op) : Prog I ε (I.Res o) := call o pure

@[simp] theorem call_bind (o : I.Op) (k : I.Res o → Prog I ε α) (f : α → Prog I ε β) :
    (call o k >>= f) = call o fun r ↦ k r >>= f := rfl

theorem bind_pure' (x : Prog I ε α) : (x >>= Prog.pure) = x := by
  induction x with
  | pure a | fault e => rfl
  | call o k ih => exact congrArg (call o) (funext ih)

theorem bind_assoc' (x : Prog I ε α) (f : α → Prog I ε β) (g : β → Prog I ε γ) :
    ((x >>= f) >>= g) = x >>= fun a ↦ f a >>= g := by
  induction x with
  | pure a | fault e => rfl
  | call o k ih => exact congrArg (call o) (funext ih)

instance : LawfulMonad (Prog I ε) :=
  LawfulMonad.mk' _ (fun x ↦ bind_pure' x) (fun _ _ ↦ rfl) (fun x f g ↦ bind_assoc' x f g)

/-! ## Execution -/

/-- Execute a program: the handler answers each call and hands the state on. -/
def run (h : Handler I ε σ) : Prog I ε α → σ → Except ε (α × σ)
  | pure a, s => .ok (a, s)
  | fault e, _ => .error e
  | call o k, s =>
    match h o s with
    | .ok (r, s') => (k r).run h s'
    | .error e => .error e

theorem run_bind (h : Handler I ε σ) (x : Prog I ε α) (f : α → Prog I ε β) (s : σ) :
    (x >>= f).run h s =
      match x.run h s with
      | .ok (a, s') => (f a).run h s'
      | .error e => .error e := by
  induction x generalizing s with
  | pure a | fault e => rfl
  | call o k ih =>
    rw [call_bind, run, run]
    cases h o s with
    | error e => rfl
    | ok p => exact ih p.1 p.2

variable {x : Prog I ε α} {h : Handler I ε σ} {f : α → Prog I ε β} {s : σ}

theorem run_bind_ok {p : β × σ} (hrun : (x >>= f).run h s = .ok p) :
    ∃ a s', x.run h s = .ok (a, s') ∧ (f a).run h s' = .ok p := by
  rw [run_bind] at hrun
  cases hx : x.run h s with
  | error e => rw [hx] at hrun; cases hrun
  | ok q =>
    rw [hx] at hrun
    exact ⟨q.1, q.2, rfl, hrun⟩

variable {o : I.Op}

theorem run_call_ok {k : I.Res o → Prog I ε α} {q : α × σ}
    (hrun : (call o k).run h s = .ok q) : ∃ p, h o s = .ok p ∧ (k p.1).run h p.2 = .ok q := by
  rw [run] at hrun
  cases hs : h o s with
  | error e => rw [hs] at hrun; cases hrun
  | ok p => rw [hs] at hrun; exact ⟨p, rfl, hrun⟩

/-! ## The operations a program can call -/

/-- Whatever it is answered, the program only calls operations in `S` and only faults in `F`. -/
def Uses (S : I.Op → Prop) (F : ε → Prop) : Prog I ε α → Prop
  | pure _ => True
  | fault e => F e
  | call o k => S o ∧ ∀ r, (k r).Uses S F

section Uses

variable {S T : I.Op → Prop} {F F' : ε → Prop}

@[simp] theorem uses_pure (a : α) : (Prog.pure a : Prog I ε α).Uses S F := trivial

@[simp] theorem uses_fault {e : ε} : (fault e : Prog I ε α).Uses S F ↔ F e := .rfl

@[simp] theorem uses_perform : (perform o : Prog I ε (I.Res o)).Uses S F ↔ S o :=
  ⟨fun h ↦ h.1, fun h ↦ ⟨h, fun _ ↦ trivial⟩⟩

theorem Uses.mono (hx : x.Uses S F) (hST : ∀ o, S o → T o) (hF : ∀ e, F e → F' e) : x.Uses T F' := by
  induction x with
  | pure a => trivial
  | fault e => exact hF e hx
  | call o k ih => exact ⟨hST o hx.1, fun r ↦ ih r (hx.2 r)⟩

theorem uses_true (x : Prog I ε α) : x.Uses (fun _ ↦ True) fun _ ↦ True := by
  induction x with
  | pure a | fault e => trivial
  | call o k ih => exact ⟨trivial, ih⟩

end Uses

/-! ## The values a program can return -/

/-- Whatever it is answered, the program only returns values in `Q`. -/
def Returns (Q : α → Prop) : Prog I ε α → Prop
  | pure a => Q a
  | fault _ => True
  | call _ k => ∀ r, (k r).Returns Q

section Returns

variable {Q Q' : α → Prop}

theorem Returns.bind {P : β → Prop} (hx : x.Returns Q)
    (hf : ∀ a, Q a → (f a).Returns P) : (x >>= f).Returns P := by
  induction x with
  | pure a => exact hf a hx
  | fault e => trivial
  | call o k ih => exact fun r ↦ ih r (hx r)

theorem Returns.mono (hx : x.Returns Q) (hQ : ∀ a, Q a → Q' a) :
    x.Returns Q' := by
  induction x with
  | pure a => exact hQ a hx
  | fault e => trivial
  | call o k ih => exact fun r ↦ ih r (hx r)

theorem Returns.of_run (hx : x.Returns Q) {s s' : σ} {a : α} (hrun : x.run h s = .ok (a, s')) : Q a := by
  induction x generalizing s with
  | pure b =>
    cases hrun
    exact hx
  | fault e => cases hrun
  | call o k ih =>
    obtain ⟨p, _, hrun⟩ := run_call_ok hrun
    exact ih p.1 (hx p.1) hrun

theorem returns_true (x : Prog I ε α) : x.Returns fun _ ↦ True := by
  induction x with
  | pure a | fault e => trivial
  | call o k ih => exact ih

theorem Uses.bind_returns {S : I.Op → Prop} {F : ε → Prop}
    (hx : x.Uses S F) (hQ : x.Returns Q) (hf : ∀ a, Q a → (f a).Uses S F) : (x >>= f).Uses S F := by
  induction x with
  | pure a => exact hf a hQ
  | fault e => exact hx
  | call o k ih => exact ⟨hx.1, fun r ↦ ih r (hx.2 r) (hQ r)⟩

theorem Uses.bind {S : I.Op → Prop} {F : ε → Prop} (hx : x.Uses S F) (hf : ∀ a, (f a).Uses S F) :
    (x >>= f).Uses S F := hx.bind_returns (returns_true x) fun a _ ↦ hf a

end Returns

/-- Some answers of the state make the program return the value. -/
def CanReturn : Prog I ε α → α → Prop
  | pure a, b => a = b
  | fault _, _ => False
  | call _ k, b => ∃ r, (k r).CanReturn b

theorem Returns.of_canReturn {Q : α → Prop} {a : α} (hx : x.Returns Q) (h : x.CanReturn a) : Q a := by
  induction x with
  | pure b => exact h ▸ hx
  | fault e => exact h.elim
  | call o k ih =>
    obtain ⟨r, hr⟩ := h
    exact ih r (hx r) hr

theorem returns_of_canReturn {Q : α → Prop} (h : ∀ a, x.CanReturn a → Q a) :
    x.Returns Q := by
  induction x with
  | pure a => exact h a rfl
  | fault e => trivial
  | call o k ih => exact fun r ↦ ih r fun a ha ↦ h a ⟨r, ha⟩

theorem canReturn_bind {b : β} :
    (x >>= f).CanReturn b ↔ ∃ a, x.CanReturn a ∧ (f a).CanReturn b := by
  induction x with
  | pure a => exact ⟨fun h ↦ ⟨a, rfl, h⟩, fun ⟨_, ha, h⟩ ↦ ha ▸ h⟩
  | fault e => exact ⟨fun h ↦ h.elim, fun ⟨_, ha, _⟩ ↦ ha.elim⟩
  | call o k ih =>
    constructor
    · rintro ⟨r, hr⟩
      obtain ⟨a, ha, hb⟩ := (ih r).1 hr
      exact ⟨a, ⟨r, ha⟩, hb⟩
    · rintro ⟨a, ⟨r, ha⟩, hb⟩
      exact ⟨r, (ih r).2 ⟨a, ha, hb⟩⟩

/-! ## The calls actually made -/

/-- `P` holds of every operation the execution calls, at the state it is called in. -/
def Along (h : Handler I ε σ) (P : I.Op → σ → Prop) : Prog I ε α → σ → Prop
  | pure _, _ => True
  | fault _, _ => True
  | call o k, s =>
    P o s ∧
      match h o s with
      | .ok (r, s') => (k r).Along h P s'
      | .error _ => True

theorem along_of_ok {P : I.Op → σ → Prop} {k : I.Res o → Prog I ε α} {p : I.Res o × σ} (hs : h o s = .ok p) :
    (call o k).Along h P s ↔ P o s ∧ (k p.1).Along h P p.2 := by
  simp only [Along, hs]

theorem along_of_error {P : I.Op → σ → Prop} {k : I.Res o → Prog I ε α} {e : ε} (hs : h o s = .error e) :
    (call o k).Along h P s ↔ P o s := by
  simp only [Along, hs, and_true]

theorem along_true (x : Prog I ε α) (s : σ) :
    x.Along h (fun _ _ ↦ True) s := by
  induction x generalizing s with
  | pure a | fault e => trivial
  | call o k ih =>
    cases hs : h o s with
    | error e => exact (along_of_error hs).2 trivial
    | ok p => exact (along_of_ok hs).2 ⟨trivial, ih p.1 p.2⟩

theorem Along.imp {P P' P'' : I.Op → σ → Prop} (hP : ∀ o s, P o s → P' o s → P'' o s)
    (hx : x.Along h P s) (hx' : x.Along h P' s) : x.Along h P'' s := by
  induction x generalizing s with
  | pure a | fault e => trivial
  | call o k ih =>
    cases hs : h o s with
    | error e =>
      rw [along_of_error hs] at hx hx' ⊢
      exact hP o s hx hx'
    | ok p =>
      rw [along_of_ok hs] at hx hx' ⊢
      exact ⟨hP o s hx.1 hx'.1, ih p.1 hx.2 hx'.2⟩

theorem along_of_run_ne {e : ε} (hx : x.run h s ≠ .error e) : x.Along h (fun o s ↦ h o s ≠ .error e) s := by
  induction x generalizing s with
  | pure a | fault e' => trivial
  | call o k ih =>
    rw [run] at hx
    cases hs : h o s with
    | error e' =>
      rw [hs] at hx
      rw [along_of_error hs, hs]
      rintro ⟨⟩
      exact hx rfl
    | ok p =>
      rw [hs] at hx
      rw [along_of_ok hs, hs]
      exact ⟨nofun, ih p.1 hx⟩

/-- Whether a decidable property holds along a run can be checked by running the program. -/
instance decidableAlong (h : Handler I ε σ) (P : I.Op → σ → Prop) [∀ o s, Decidable (P o s)] :
    (x : Prog I ε α) → (s : σ) → Decidable (x.Along h P s)
  | pure _, _ => .isTrue trivial
  | fault _, _ => .isTrue trivial
  | call o k, s =>
    match hs : h o s with
    | .error _ => decidable_of_iff _ (along_of_error hs).symm
    | .ok p =>
      have := decidableAlong h P (k p.1) p.2
      decidable_of_iff _ (along_of_ok hs).symm

/-! ## Weakest preconditions

`wp h A G E x s Q` says: as long as every call made so far met the assumption `A`, the next call
meets the guarantee `G`; a fault, if one is reached, is one `E` allows; and if the program returns,
it returns a value and a state in `Q`. The assumption is a hypothesis on the run and not on the
program, so it may speak about the state at the moment of the call. -/

/-- Weakest precondition of `x` at `s`, relative to an assumption and a guarantee on calls. -/
def wp (h : Handler I ε σ) (A G : I.Op → σ → Prop) (E : ε → Prop) :
    Prog I ε α → σ → (α → σ → Prop) → Prop
  | pure a, s, Q => Q a s
  | fault e, _, _ => E e
  | call o k, s, Q =>
    A o s → G o s ∧
      match h o s with
      | .ok (r, s') => (k r).wp h A G E s' Q
      | .error e => E e

section wp

variable {h : Handler I ε σ} {A G : I.Op → σ → Prop} {E : ε → Prop} {Q : β → σ → Prop}

theorem wp_bind :
    (x >>= f).wp h A G E s Q ↔ x.wp h A G E s fun a s' ↦ (f a).wp h A G E s' Q := by
  induction x generalizing s with
  | pure a | fault e => rfl
  | call o k ih =>
    simp only [call_bind, wp]
    cases h o s with
    | error e => rfl
    | ok p => simp [ih]

theorem wp.imp {Q Q' : α → σ → Prop} {P : α → Prop} (hx : x.wp h A G E s Q) (hP : x.Returns P)
    (hQ : ∀ a s', Q a s' → P a → Q' a s') : x.wp h A G E s Q' := by
  induction x generalizing s with
  | pure a => exact hQ a s hx hP
  | fault e => exact hx
  | call o k ih =>
    intro hA
    refine ⟨(hx hA).1, ?_⟩
    have hk := (hx hA).2
    cases hs : h o s with
    | error e => rwa [hs] at hk
    | ok p =>
      rw [hs] at hk
      exact ih p.1 hk (hP p.1)

theorem wp.mono {Q Q' : α → σ → Prop} (hx : x.wp h A G E s Q) (hQ : ∀ a s', Q a s' → Q' a s') :
    x.wp h A G E s Q' := hx.imp (returns_true x) fun a s' ha _ ↦ hQ a s' ha

theorem wp.and_returns {Q : α → σ → Prop} {P : α → Prop} (hx : x.wp h A G E s Q)
    (hP : x.Returns P) : x.wp h A G E s fun a s' ↦ Q a s' ∧ P a := hx.imp hP fun _ _ ↦ .intro

/-- Sequential composition: the first program establishes what the second one needs. -/
theorem wp.bind {P : α → σ → Prop} (hx : x.wp h A G E s P)
    (hf : ∀ a s', P a s' → (f a).wp h A G E s' Q) : (x >>= f).wp h A G E s Q :=
  wp_bind.2 (hx.mono hf)

theorem wp_map {g : α → β} :
    (g <$> x).wp h A G E s Q ↔ x.wp h A G E s fun a s' ↦ Q (g a) s' := by
  rw [map_eq_pure_bind, wp_bind]
  rfl

theorem wp_perform {Q : I.Res o → σ → Prop} :
    (perform o : Prog I ε (I.Res o)).wp h A G E s Q ↔
      (A o s → G o s ∧
        match h o s with
        | .ok (r, s') => Q r s'
        | .error e => E e) := .rfl

/-- **Soundness.** Under the assumption along the run, the guarantee holds along the run, and the
outcome is an allowed fault or a result in the postcondition. -/
theorem wp.sound {Q : α → σ → Prop} (hx : x.wp h A G E s Q) (hA : x.Along h A s) :
    x.Along h G s ∧
      match x.run h s with
      | .ok (a, s') => Q a s'
      | .error e => E e := by
  induction x generalizing s with
  | pure a | fault e => exact ⟨trivial, hx⟩
  | call o k ih =>
    simp only [Along] at hA ⊢
    obtain ⟨hA₀, hA'⟩ := hA
    obtain ⟨hG, hk⟩ := hx hA₀
    rw [run]
    cases hs : h o s with
    | error e =>
      rw [hs] at hk
      exact ⟨⟨hG, trivial⟩, hk⟩
    | ok p =>
      rw [hs] at hk hA'
      obtain ⟨hAl, hrun⟩ := ih p.1 hk hA'
      exact ⟨⟨hG, hAl⟩, hrun⟩

/-- Without assumptions, a run that returns returns a result in the postcondition. -/
theorem wp.of_run {s s' : σ} {a : α} {Q : α → σ → Prop}
    (hx : x.wp h (fun _ _ ↦ True) G E s Q) (hrun : x.run h s = .ok (a, s')) : Q a s' := by
  have hQ := (hx.sound (along_true x s)).2
  rwa [hrun] at hQ

/-- A transition relation kept by every operation a program can call is kept by the program. -/
theorem wp_of_uses {S : I.Op → Prop} {T : σ → σ → Prop} (hrefl : ∀ s, T s s)
    (htrans : ∀ s t u, T s t → T t u → T s u)
    (hop : ∀ o, S o → ∀ s, A o s → G o s ∧
      match h o s with
      | .ok (_, s') => T s s'
      | .error e => E e)
    (hx : x.Uses S E) (s : σ) : x.wp h A G E s fun _ s' ↦ T s s' := by
  induction x generalizing s with
  | pure a => exact hrefl s
  | fault e => exact hx
  | call o k ih =>
    intro hA
    obtain ⟨hG, hs'⟩ := hop o hx.1 s hA
    refine ⟨hG, ?_⟩
    cases hs : h o s with
    | error e => rwa [hs] at hs'
    | ok p =>
      rw [hs] at hs'
      exact (ih p.1 (hx.2 p.1) p.2).mono fun _ u ↦ htrans s p.2 u hs'

end wp

end Prog

/-! ## Simulation -/

/-- Two outcomes are alike: the same fault, or related results in related states. -/
def Alike {ε α β σ τ : Type} (Q : α → β → Prop) (R : σ → τ → Prop) :
    Except ε (α × σ) → Except ε (β × τ) → Prop
  | .ok (a, s), .ok (b, t) => Q a b ∧ R s t
  | .error e, .error e' => e = e'
  | _, _ => False

section Alike

variable {ε α β σ τ : Type} {Q : α → β → Prop} {R : σ → τ → Prop} {x : Except ε (α × σ)}
  {y : Except ε (β × τ)}

theorem Alike.cases (h : Alike Q R x y) : (∃ e, x = .error e ∧ y = .error e) ∨
    ∃ p q, x = .ok p ∧ y = .ok q ∧ Q p.1 q.1 ∧ R p.2 q.2 := by
  cases x with
  | error e =>
    cases y with
    | error e' => exact .inl ⟨e, rfl, congrArg _ h.symm⟩
    | ok q => exact h.elim
  | ok p =>
    cases y with
    | error e => exact h.elim
    | ok q => exact .inr ⟨p, q, rfl, rfl, h⟩

theorem Alike.mono {Q' : α → β → Prop} {R' : σ → τ → Prop} (h : Alike Q R x y)
    (hQ : ∀ a b, Q a b → Q' a b) (hR : ∀ s t, R s t → R' s t) : Alike Q' R' x y := by
  obtain ⟨e, rfl, rfl⟩ | ⟨p, q, rfl, rfl, hpq, hst⟩ := h.cases
  · exact rfl
  · exact ⟨hQ _ _ hpq, hR _ _ hst⟩

/-- Outcomes that are alike on one level are alike on the level they stand for. -/
theorem Alike.lower {σ' τ' : Type} {A : σ' → σ → Prop} {B : τ' → τ → Prop}
    {x' : Except ε (α × σ')} {y' : Except ε (β × τ')} (hx : Alike Eq A x' x) (hy : Alike Eq B y' y)
    (h : Alike Q R x y) : Alike Q (fun s t ↦ ∃ s' t', A s s' ∧ B t t' ∧ R s' t') x' y' := by
  obtain ⟨e, rfl, rfl⟩ | ⟨p, p', rfl, rfl, hp, hA⟩ := hx.cases
  · obtain ⟨e, rfl, rfl⟩ | ⟨q, q', rfl, rfl, _⟩ := hy.cases
    · exact h
    · exact h.elim
  · obtain ⟨e, rfl, rfl⟩ | ⟨q, q', rfl, rfl, hq, hB⟩ := hy.cases
    · exact h.elim
    · refine ⟨?_, p'.2, q'.2, hA, hB, h.2⟩
      rw [hp, hq]
      exact h.1

end Alike

/-- `R` is a simulation for the operations in `S`: related states answer alike, fault alike, and
stay related. -/
def Handler.Simulates {I : Interface} {ε σ τ : Type} (h : Handler I ε σ) (g : Handler I ε τ)
    (S : I.Op → Prop) (R : σ → τ → Prop) : Prop :=
  ∀ o, S o → ∀ s t, R s t → Alike Eq R (h o s) (g o t)

variable {I : Interface} {ε σ τ : Type} {h : Handler I ε σ} {g : Handler I ε τ} {S : I.Op → Prop}
  {R : σ → τ → Prop}

theorem Handler.Simulates.answer_eq (hR : h.Simulates g S R) {o : I.Op} (ho : S o) {s : σ} {t : τ}
    (hst : R s t) : h.answer o s = g.answer o t := by
  unfold answer
  obtain ⟨e, hs, ht⟩ | ⟨p, q, hs, ht, hr, _⟩ := (hR o ho s t hst).cases
  · rw [hs, ht]
    rfl
  · rw [hs, ht]
    exact congrArg _ hr

theorem Handler.Simulates.symm (hR : h.Simulates g S R) : g.Simulates h S fun t s ↦ R s t := by
  intro o ho t s hst
  obtain ⟨e, hs, ht⟩ | ⟨p, q, hs, ht, hr, hst'⟩ := (hR o ho s t hst).cases
  · rw [hs, ht]
    exact rfl
  · rw [hs, ht]
    exact ⟨hr.symm, hst'⟩

namespace Prog

variable {α : Type} {F : ε → Prop} {x : Prog I ε α} (hR : h.Simulates g S R)

include hR

/-- **Simulation rule.** A program that only calls operations a simulation covers runs alike from
related states. -/
theorem run_simulates (hx : x.Uses S F) {s : σ} {t : τ}
    (hst : R s t) : Alike Eq R (x.run h s) (x.run g t) := by
  induction x generalizing s t with
  | pure a => exact ⟨rfl, hst⟩
  | fault e => exact rfl
  | call o k ih =>
    rw [run, run]
    obtain ⟨e, hs, ht⟩ | ⟨p, q, hs, ht, hr, hst'⟩ := (hR o hx.1 s t hst).cases
    · rw [hs, ht]
      exact rfl
    · rw [hs, ht]
      dsimp only
      rw [hr]
      exact ih q.1 (hx.2 q.1) hst'

theorem run_simulates_ok (hx : x.Uses S F) {s s' : σ}
    {t : τ} {a : α} (hst : R s t) (hrun : x.run h s = .ok (a, s')) :
    ∃ t', x.run g t = .ok (a, t') ∧ R s' t' := by
  obtain ⟨e, hs, _⟩ | ⟨p, q, hs, ht, hr, hst'⟩ := (run_simulates hR hx hst).cases
  · cases hrun.symm.trans hs
  · cases hrun.symm.trans hs
    exact ⟨q.2, by rw [ht, show a = q.1 from hr], hst'⟩

theorem run_simulates_error (hx : x.Uses S F) {s : σ}
    {t : τ} {e : ε} (hst : R s t) (hrun : x.run h s = .error e) : x.run g t = .error e := by
  obtain ⟨e, hs, ht⟩ | ⟨p, q, hs, _⟩ := (run_simulates hR hx hst).cases
  · cases hrun.symm.trans hs
    exact ht
  · cases hrun.symm.trans hs

/-- What is known of a run is known of a related run. -/
theorem wp.of_simulates (hx : x.Uses S F) {s : σ} {t : τ}
    (hst : R s t) {A G : I.Op → τ → Prop} {E : ε → Prop} {Q : α → τ → Prop}
    (hwp : x.wp g A G E t Q) (hA : x.Along g A t) :
    match x.run h s with
    | .ok (a, s') => ∃ t', R s' t' ∧ Q a t'
    | .error e => E e := by
  have hrun := (hwp.sound hA).2
  cases hs : x.run h s with
  | ok p =>
    obtain ⟨t', ht, hst'⟩ := run_simulates_ok hR hx hst hs
    rw [ht] at hrun
    exact ⟨t', hst', hrun⟩
  | error e =>
    rw [run_simulates_error hR hx hst hs] at hrun
    exact hrun

/-- A property of calls that holds of a state whenever it holds of a related one, from one run to the
other. -/
theorem Along.of_simulates {P : I.Op → σ → Prop} {P' : I.Op → τ → Prop}
    (hP : ∀ o s t, R s t → P' o t → P o s) (hx : x.Uses S F) {s : σ} {t : τ}
    (hst : R s t) (ht : x.Along g P' t) : x.Along h P s := by
  induction x generalizing s t with
  | pure a | fault e => trivial
  | call o k ih =>
    simp only [Along] at ht ⊢
    refine ⟨hP o s t hst ht.1, ?_⟩
    have hk := ht.2
    obtain ⟨e, hs, ht⟩ | ⟨p, q, hs, ht, hr, hst'⟩ := (hR o hx.1 s t hst).cases
    · rw [hs]
      trivial
    · rw [ht] at hk
      rw [hs]
      dsimp only at hk ⊢
      rw [hr]
      exact ih q.1 (hx.2 q.1) hst' hk

/-- A property of calls that related states agree on holds along both runs or along neither. -/
theorem along_simulates {P : I.Op → σ → Prop} {P' : I.Op → τ → Prop}
    (hP : ∀ o s t, R s t → (P o s ↔ P' o t)) (hx : x.Uses S F) {s : σ} {t : τ}
    (hst : R s t) : x.Along h P s ↔ x.Along g P' t :=
  ⟨.of_simulates hR.symm (fun o t s hst ↦ (hP o s t hst).1) hx hst,
    .of_simulates hR (fun o s t hst ↦ (hP o s t hst).2) hx hst⟩

end Prog

/-! ## Programs that correspond call by call

Two runs of one program need not receive the same answers: identifiers handed out by the state may
differ, and the program then names other identifiers in later calls. A relator says which calls
correspond and which answers to them do. -/

/-- Which operations of an interface correspond, and which of their answers. -/
structure Relator (I : Interface) where
  /-- Corresponding operations. -/
  op : I.Op → I.Op → Prop
  /-- Corresponding answers. -/
  res : ∀ o o', I.Res o → I.Res o' → Prop

/-- Under `ρ`, corresponding operations in related states get corresponding answers. -/
def Handler.SimulatesUnder {I : Interface} {ε σ τ : Type} (h : Handler I ε σ) (g : Handler I ε τ)
    (ρ : Relator I) (R : σ → τ → Prop) : Prop :=
  ∀ o o', ρ.op o o' → ∀ s t, R s t → Alike (ρ.res o o') R (h o s) (g o' t)

namespace Prog

variable {I : Interface} {ε α β σ τ : Type} {ρ : Relator I}

/-- The two programs make corresponding calls whenever they got corresponding answers, and return
related values or the same fault. -/
def Related (ρ : Relator I) (Q : α → β → Prop) : Prog I ε α → Prog I ε β → Prop
  | pure a, pure b => Q a b
  | fault e, fault e' => e = e'
  | call o k, call o' k' => ρ.op o o' ∧ ∀ r r', ρ.res o o' r r' → (k r).Related ρ Q (k' r')
  | _, _ => False

variable {x : Prog I ε α} {y : Prog I ε β}

/-- The relation of the values may be weakened, with what the first program can return at all. -/
theorem Related.imp {Q Q' : α → β → Prop} {P : α → Prop}
    (hxy : x.Related ρ Q y) (hP : x.Returns P) (hQ : ∀ a b, Q a b → P a → Q' a b) :
    x.Related ρ Q' y := by
  induction x generalizing y with
  | pure a =>
    cases y with
    | pure b => exact hQ a b hxy hP
    | fault e | call o k => exact hxy
  | fault e => cases y <;> exact hxy
  | call o k ih =>
    cases y with
    | pure b | fault e => exact hxy
    | call o' k' => exact ⟨hxy.1, fun r r' hr ↦ ih r (hxy.2 r r' hr) (hP r)⟩

theorem Related.mono {Q Q' : α → β → Prop}
    (hxy : x.Related ρ Q y) (hQ : ∀ a b, Q a b → Q' a b) : x.Related ρ Q' y :=
  hxy.imp (returns_true x) fun a b hab _ ↦ hQ a b hab

variable {Q : α → β → Prop}

theorem Related.and_returns {P : α → Prop}
    (hxy : x.Related ρ Q y) (hP : x.Returns P) : x.Related ρ (fun a b ↦ Q a b ∧ P a) y :=
  hxy.imp hP fun _ _ ↦ .intro

theorem Related.bind {α' β' : Type} {Q' : α' → β' → Prop}
    {f : α → Prog I ε α'} {g : β → Prog I ε β'} (hxy : x.Related ρ Q y)
    (hfg : ∀ a b, Q a b → (f a).Related ρ Q' (g b)) : (x >>= f).Related ρ Q' (y >>= g) := by
  induction x generalizing y with
  | pure a =>
    cases y with
    | pure b => exact hfg a b hxy
    | fault e | call o k => exact hxy.elim
  | fault e =>
    cases y with
    | fault e' => exact hxy
    | pure b | call o k => exact hxy.elim
  | call o k ih =>
    cases y with
    | pure b | fault e => exact hxy.elim
    | call o' k' => exact ⟨hxy.1, fun r r' hr ↦ ih r (hxy.2 r r' hr)⟩

theorem related_perform {o o' : I.Op} (ho : ρ.op o o') :
    (perform o : Prog I ε _).Related ρ (ρ.res o o') (perform o') :=
  ⟨ho, fun _ _ hr ↦ hr⟩

/-- A program is in lockstep with itself if its operations are, with the same answers. -/
theorem related_of_uses {S : I.Op → Prop} {F : ε → Prop}
    (hS : ∀ o, S o → ρ.op o o ∧ ∀ r r', ρ.res o o r r' → r = r')
    (hx : x.Uses S F) : x.Related ρ Eq x := by
  induction x with
  | pure a | fault e => rfl
  | call o k ih =>
    obtain ⟨hop, hres⟩ := hS o hx.1
    refine ⟨hop, fun r r' hr ↦ ?_⟩
    rw [← hres r r' hr]
    exact ih r (hx.2 r)

/-- **Relational simulation rule.** Corresponding programs on handlers that correspond run to the
same fault, or to related values in related states. -/
theorem Related.run (hxy : x.Related ρ Q y)
    {h : Handler I ε σ} {g : Handler I ε τ} {R : σ → τ → Prop} (hR : h.SimulatesUnder g ρ R) {s : σ}
    {t : τ} (hst : R s t) : Alike Q R (x.run h s) (y.run g t) := by
  induction x generalizing y s t with
  | pure a =>
    cases y with
    | pure b => exact ⟨hxy, hst⟩
    | fault e | call o k => exact hxy.elim
  | fault e =>
    cases y with
    | fault e' => exact hxy
    | pure b | call o k => exact hxy.elim
  | call o k ih =>
    cases y with
    | pure b | fault e => exact hxy.elim
    | call o' k' =>
      rw [Prog.run, Prog.run]
      obtain ⟨e, hs, ht⟩ | ⟨p, q, hs, ht, hr, hst'⟩ := (hR o o' hxy.1 s t hst).cases
      · rw [hs, ht]
        exact rfl
      · rw [hs, ht]
        exact ih p.1 (hxy.2 p.1 q.1 hr) hst'

end Prog

/-! ## Observed runs

An observer watches the operations and their answers and keeps an account of its own. It does not
influence the run. -/

/-- The handler that also keeps an observer's account. -/
def Handler.observed {I : Interface} {ε σ γ : Type} (h : Handler I ε σ)
    (obs : (o : I.Op) → I.Res o → γ → γ) : Handler I ε (σ × γ) := fun o s ↦
  match h o s.1 with
  | .ok (r, s') => .ok (r, (s', obs o r s.2))
  | .error e => .error e

theorem Handler.Simulates.observed {γ : Type} (hR : h.Simulates g S R)
    (obs : (o : I.Op) → I.Res o → γ → γ) :
    (h.observed obs).Simulates (g.observed obs) S fun s t ↦ R s.1 t.1 ∧ s.2 = t.2 := by
  intro o ho s t hst
  obtain ⟨hst, hobs⟩ := hst
  unfold Handler.observed
  obtain ⟨e, hs, ht⟩ | ⟨p, q, hs, ht, hpq, hst'⟩ := (hR o ho s.1 t.1 hst).cases
  · rw [hs, ht]
    exact rfl
  · rw [hs, ht]
    refine ⟨hpq, hst', ?_⟩
    rw [hpq, hobs]

namespace Prog

variable {I : Interface} {ε α σ γ : Type}

theorem run_of_observed {h : Handler I ε σ} {obs : (o : I.Op) → I.Res o → γ → γ} {x : Prog I ε α}
    {s s' : σ × γ} {a : α} (hrun : x.run (h.observed obs) s = .ok (a, s')) :
    x.run h s.1 = .ok (a, s'.1) := by
  induction x generalizing s with
  | pure b =>
    cases hrun
    rfl
  | fault e => cases hrun
  | call o k ih =>
    rw [run, Handler.observed] at hrun
    rw [run]
    cases hs : h o s.1 with
    | error e => rw [hs] at hrun; cases hrun
    | ok p =>
      rw [hs] at hrun
      exact ih p.1 hrun

/-- A run that returns does so under observation, with the observer's account beside it. -/
theorem run_observed {h : Handler I ε σ} (obs : (o : I.Op) → I.Res o → γ → γ) {x : Prog I ε α}
    {s s' : σ} {a : α} (hrun : x.run h s = .ok (a, s')) (c : γ) :
    ∃ c', x.run (h.observed obs) (s, c) = .ok (a, (s', c')) := by
  induction x generalizing s c with
  | pure b =>
    cases hrun
    exact ⟨c, rfl⟩
  | fault e => cases hrun
  | call o k ih =>
    obtain ⟨p, hs, hrun⟩ := run_call_ok hrun
    rw [run, Handler.observed, hs]
    exact ih p.1 hrun _

end Prog

end Interaction
