import RegIR.Fault
import Mathlib.Data.List.Forall2

/-!
# Inverting checked computations

A computation that may fail is taken apart from its result: which intermediate results it
had, if it succeeded, and which of its steps failed first, if it did not. Narrowing is
inverted to exact arithmetic, so that no later proof looks at a range check again.

## Main results

* `bind_eq_ok_iff`, `bind_eq_error_iff`: a sequence of two computations.
* `mapM_eq_ok_iff`, `mapM_eq_error_iff`: a computation for every element of a list.
* `Ends.bind`, `Ends.mapM`: what is known of a result, and of a failure, step by step.
* `Mirrors.bind`, `Mirrors.mapM`, `Mirrors.foldlM`: two computations that succeed together, step
  by step.
* `narrow32_eq_ok_iff`, `narrowSigned32_eq_ok_iff`, `successor32_eq_ok_iff`: a narrowed word
  is the exact number.
* `narrow32_eq_error_iff`: when a number cannot be narrowed.
-/

namespace RegIR

section Except

variable {ε α β : Type}

/-- A sequence succeeds when both parts do. -/
theorem bind_eq_ok_iff {x : Except ε α} {f : α → Except ε β} {b : β} :
    x >>= f = .ok b ↔ ∃ a, x = .ok a ∧ f a = .ok b := by
  cases x with
  | error e => simp [bind, Except.bind]
  | ok a => simp [bind, Except.bind]

/-- A sequence fails when its first part does, or its second part after the first. -/
theorem bind_eq_error_iff {x : Except ε α} {f : α → Except ε β} {e : ε} :
    x >>= f = .error e ↔ x = .error e ∨ ∃ a, x = .ok a ∧ f a = .error e := by
  cases x with
  | error e => simp [bind, Except.bind]
  | ok a => simp [bind, Except.bind]

/-- A result that is there from the start. -/
theorem pure_eq_ok_iff {a b : α} : (pure a : Except ε α) = .ok b ↔ a = b := by
  simp [pure, Except.pure]

/-- A computation for every element succeeds when it succeeds for each of them, with the
results in order. -/
theorem mapM_eq_ok_iff {f : α → Except ε β} {xs : List α} {ys : List β} :
    xs.mapM f = .ok ys ↔ List.Forall₂ (fun x y => f x = .ok y) xs ys := by
  induction xs generalizing ys with
  | nil =>
      rw [List.mapM_nil, pure_eq_ok_iff, List.forall₂_nil_left_iff]
      exact eq_comm
  | cons x xs ih =>
      simp only [List.mapM_cons, bind_eq_ok_iff, pure_eq_ok_iff, ih,
        List.forall₂_cons_left_iff]
      constructor
      · rintro ⟨y, hy, ys, hys, rfl⟩
        exact ⟨y, ys, hy, hys, rfl⟩
      · rintro ⟨y, ys, hy, hys, rfl⟩
        exact ⟨y, hy, ys, hys, rfl⟩

/-- Related lists have related elements at every position. -/
theorem exists_getElem?_of_forall₂ {R : α → β → Prop} {xs : List α} {ys : List β} {n : Nat}
    {x : α} (h : List.Forall₂ R xs ys) (hx : xs[n]? = some x) :
    ∃ y, ys[n]? = some y ∧ R x y := by
  obtain ⟨hlen, hget⟩ := List.forall₂_iff_get.mp h
  obtain ⟨hn, rfl⟩ := List.getElem?_eq_some_iff.mp hx
  exact ⟨_, List.getElem?_eq_getElem (hlen ▸ hn), hget n hn (hlen ▸ hn)⟩

/-- A computation for every element fails at the first element for which it fails. -/
theorem mapM_eq_error_iff {f : α → Except ε β} {xs : List α} {e : ε} :
    xs.mapM f = .error e ↔
      ∃ before x after, xs = before ++ x :: after ∧
        (∀ y ∈ before, ∃ b, f y = .ok b) ∧ f x = .error e := by
  induction xs with
  | nil => simp [pure, Except.pure]
  | cons x xs ih =>
      simp only [List.mapM_cons, bind_eq_error_iff, ih]
      constructor
      · rintro (hx | ⟨y, hy, hxs | ⟨ys, -, hys⟩⟩)
        · exact ⟨[], x, xs, rfl, by simp, hx⟩
        · obtain ⟨before, z, after, rfl, hbefore, hz⟩ := hxs
          refine ⟨x :: before, z, after, rfl, ?_, hz⟩
          simpa using ⟨⟨y, hy⟩, hbefore⟩
        · cases hys
      · rintro ⟨before, z, after, heq, hbefore, hz⟩
        cases before with
        | nil =>
            obtain ⟨rfl, rfl⟩ := List.cons.inj heq
            exact .inl hz
        | cons y before =>
            obtain ⟨rfl, rfl⟩ := List.cons.inj heq
            obtain ⟨b, hb⟩ := hbefore _ List.mem_cons_self
            refine .inr ⟨b, hb, .inl ⟨before, z, after, rfl, ?_, hz⟩⟩
            exact fun y hy => hbefore y (List.mem_cons_of_mem _ hy)

/-! ### Both ends of a computation -/

/-- `Ends x Q E`: the computation succeeds with a result in `Q`, or fails with a reason
in `E`. -/
def Ends (x : Except ε α) (Q : α → Prop) (E : ε → Prop) : Prop :=
  match x with
  | .ok a => Q a
  | .error e => E e

instance {x : Except ε α} {Q : α → Prop} {E : ε → Prop} [DecidablePred Q] [DecidablePred E] :
    Decidable (Ends x Q E) :=
  match x with
  | .ok a => inferInstanceAs (Decidable (Q a))
  | .error e => inferInstanceAs (Decidable (E e))

namespace Ends

variable {x : Except ε α} {f : α → Except ε β} {P Q : α → Prop} {R : β → Prop} {E : ε → Prop}

/-- What is known of a result. -/
theorem of_ok {a : α} (h : Ends x Q E) (hx : x = .ok a) : Q a := by
  subst hx
  exact h

/-- What is known of a failure. -/
theorem of_error {e : ε} (h : Ends x Q E) (hx : x = .error e) : E e := by
  subst hx
  exact h

/-- A computation that cannot fail succeeds. -/
theorem exists_ok (h : Ends x Q fun _ => False) : ∃ a, x = .ok a ∧ Q a := by
  cases x with
  | ok a => exact ⟨a, rfl, h⟩
  | error e => exact h.elim

/-- A computation of which only the failures are known succeeds with its result. -/
theorem of_errors (h : ∀ e, x = .error e → E e) : Ends x (fun a => x = .ok a) E := by
  cases x with
  | ok a => exact rfl
  | error e => exact h e rfl

/-- A result is the result of its computation. -/
theorem with_eq (h : Ends x Q E) : Ends x (fun a => x = .ok a ∧ Q a) E := by
  cases x with
  | ok a => exact ⟨rfl, h⟩
  | error e => exact h

/-- A result that is there from the start. -/
theorem pure {a : α} (h : Q a) : Ends (Pure.pure a : Except ε α) Q E :=
  h

/-- More may be allowed of a result. -/
theorem mono (h : Ends x P E) (himp : ∀ a, P a → Q a) : Ends x Q E := by
  cases x with
  | ok a => exact himp a h
  | error e => exact h

/-- A sequence fails like its parts, and its second part may use what is known of the result
of the first. -/
theorem bind (h : Ends x Q E) (hf : ∀ a, Q a → Ends (f a) R E) : Ends (x >>= f) R E := by
  cases x with
  | ok a => exact hf a h
  | error e => exact h

/-- A computation for every element of a list. -/
theorem mapM {xs : List α} (h : ∀ a ∈ xs, Ends (f a) R E) :
    Ends (xs.mapM f) (fun ys => ys.length = xs.length ∧ ∀ b ∈ ys, R b) E := by
  induction xs with
  | nil => exact ⟨rfl, fun _ hb => absurd hb List.not_mem_nil⟩
  | cons a xs ih =>
      rw [List.forall_mem_cons] at h
      rw [List.mapM_cons]
      refine h.1.bind fun b hb => ?_
      refine (ih h.2).bind fun bs hbs => ?_
      exact ⟨congrArg (· + 1) hbs.1, List.forall_mem_cons.mpr ⟨hb, hbs.2⟩⟩

end Ends

/-! ### Two computations side by side -/

section Mirrors

variable {ε' α' β' : Type}

/-- `Mirrors g x y`: both computations succeed or both fail, and the result of `y` is the image
of the result of `x` under `g`. Their failures may differ. -/
def Mirrors (g : α → α') (x : Except ε α) (y : Except ε' α') : Prop :=
  match x, y with
  | .ok a, .ok b => b = g a
  | .error _, .error _ => True
  | _, _ => False

namespace Mirrors

variable {x : Except ε α} {y : Except ε' α'} {f : α → Except ε β} {f' : α' → Except ε' β'}
  {g : α → α'} {k : β → β'}

/-- A computation mirrors itself. -/
protected theorem refl (x : Except ε α) : Mirrors id x x := by
  cases x with
  | ok a => exact rfl
  | error e => trivial

/-- Results that are there from the start. -/
theorem pure {b : α'} {a : α} (h : b = g a) :
    Mirrors g (Pure.pure a : Except ε α) (Pure.pure b : Except ε' α') :=
  h

/-- The result of the second computation. -/
theorem ok {a : α} (h : Mirrors g x y) (hx : x = .ok a) : y = .ok (g a) := by
  subst hx
  cases y with
  | ok b => exact congrArg _ h
  | error e => exact h.elim

/-- A result of the second computation is the image of one of the first. -/
theorem ok_right {b : α'} (h : Mirrors g x y) (hy : y = .ok b) :
    ∃ a, x = .ok a ∧ b = g a := by
  subst hy
  cases x with
  | ok a => exact ⟨a, rfl, h⟩
  | error e => exact h.elim

/-- Both computations succeed or none does. -/
theorem exists_ok_iff (h : Mirrors g x y) : (∃ a, x = .ok a) ↔ ∃ b, y = .ok b := by
  constructor
  · rintro ⟨a, hx⟩
    exact ⟨_, h.ok hx⟩
  · rintro ⟨b, hy⟩
    obtain ⟨a, hx, -⟩ := h.ok_right hy
    exact ⟨a, hx⟩

/-- A sequence: the second parts are compared at a result and its image. -/
theorem bind (h : Mirrors g x y) (hf : ∀ a, Mirrors k (f a) (f' (g a))) :
    Mirrors k (x >>= f) (y >>= f') := by
  cases x with
  | ok a =>
      obtain rfl := h.ok rfl
      exact hf a
  | error e =>
      cases y with
      | ok b => exact h.elim
      | error e' => trivial

/-- A sequence whose first parts have the same results. -/
theorem seq {y : Except ε' α} {f' : α → Except ε' β'} (h : Mirrors id x y)
    (hf : ∀ a, Mirrors k (f a) (f' a)) : Mirrors k (x >>= f) (y >>= f') :=
  h.bind hf

/-- A computation for every element of two lists that correspond position by position. -/
theorem mapIdxM {xs : List α} {h : Nat → α → α'} {k : Nat → β → β'}
    (hf : ∀ n, ∀ a ∈ xs, Mirrors (k n) (f a) (f' (h n a))) :
    Mirrors (List.mapIdx k) (xs.mapM f) ((xs.mapIdx h).mapM f') := by
  induction xs generalizing h k with
  | nil => exact rfl
  | cons a xs ih =>
      rw [List.mapIdx_cons, List.mapM_cons, List.mapM_cons]
      refine (hf 0 a List.mem_cons_self).bind fun b => ?_
      refine (ih fun n c hc => hf (n + 1) c (List.mem_cons_of_mem _ hc)).bind fun bs => ?_
      exact Mirrors.pure (by rw [List.mapIdx_cons])

/-- A computation for every element of a list and of its image, with the same results. -/
theorem mapM {xs : List α} {h : α → α'} {f' : α' → Except ε' β}
    (hf : ∀ a ∈ xs, Mirrors id (f a) (f' (h a))) :
    Mirrors id (xs.mapM f) ((xs.map h).mapM f') := by
  induction xs with
  | nil => exact rfl
  | cons a xs ih =>
      rw [List.map_cons, List.mapM_cons, List.mapM_cons]
      refine (hf a List.mem_cons_self).seq fun b => ?_
      refine (ih fun c hc => hf c (List.mem_cons_of_mem _ hc)).seq fun bs => ?_
      exact Mirrors.pure rfl

/-- A loop over the elements of a list and of its image, from the same start. -/
theorem foldlM {γ : Type} {xs : List α} {h : α → α'} {step : γ → α → Except ε γ}
    {step' : γ → α' → Except ε' γ} (hstep : ∀ c, ∀ a, Mirrors id (step c a) (step' c (h a)))
    (c : γ) : Mirrors id (xs.foldlM step c) ((xs.map h).foldlM step' c) := by
  induction xs generalizing c with
  | nil => exact rfl
  | cons a xs ih =>
      rw [List.map_cons, List.foldlM_cons, List.foldlM_cons]
      exact (hstep c a).seq ih

end Mirrors

end Mirrors

end Except

section Lift

variable {ε α : Type}

/-- A checked computation succeeds alike where errors may be reported too. -/
theorem liftM_eq_ok_iff {x : Checked α} {a : α} :
    (liftM x : Outcome ε α) = .ok a ↔ x = .ok a := by
  cases x with
  | error f => exact ⟨nofun, nofun⟩
  | ok b => exact ⟨fun h => congrArg _ (Except.ok.inj h), fun h => congrArg _ (Except.ok.inj h)⟩

/-- A checked computation faults alike where errors may be reported too. -/
theorem liftM_eq_error_iff {x : Checked α} {e : Failure ε} :
    (liftM x : Outcome ε α) = .error e ↔ ∃ f, x = .error f ∧ e = .fault f := by
  cases x with
  | error f => exact ⟨fun h => ⟨f, rfl, (Except.error.inj h).symm⟩,
      fun ⟨_, hf, he⟩ => he ▸ Except.error.inj hf ▸ rfl⟩
  | ok b => exact ⟨nofun, nofun⟩

/-- A checked computation reports no errors. -/
theorem liftM_ne_error {x : Checked α} {e : ε} :
    (liftM x : Outcome ε α) ≠ .error (.error e) := by
  cases x with
  | error f => exact nofun
  | ok b => exact nofun

/-- A checked computation, where errors may be reported too. -/
theorem Ends.liftM {x : Checked α} {Q : α → Prop} {E : Failure ε → Prop}
    (hok : ∀ a, x = .ok a → Q a) (hfault : ∀ f, x = .error f → E (.fault f)) :
    Ends (liftM x : Outcome ε α) Q E := by
  cases x with
  | ok a => exact hok a rfl
  | error f => exact hfault f rfl

/-- Checked computations side by side, where errors may be reported too. -/
theorem Mirrors.liftM {α' ε' : Type} {g : α → α'} {x : Checked α} {y : Checked α'}
    (h : Mirrors g x y) : Mirrors g (liftM x : Outcome ε α) (liftM y : Outcome ε' α') := by
  cases x <;> cases y <;> exact h

end Lift

/-! ### Narrowing -/

/-- A number that fits a word is that word, and no other number does. -/
theorem narrow32_eq_ok_iff {operation : Arithmetic} {n : Nat} {w : UInt32} :
    narrow32 operation n = .ok w ↔ w.toNat = n := by
  rw [narrow32]
  split
  next h =>
    rw [Except.ok.injEq]
    constructor
    · rintro rfl
      exact UInt32.toNat_ofNat_of_lt' h
    · rintro rfl
      exact UInt32.ofNat_toNat
  next h =>
    have hw := w.toNat_lt_size
    simp only [reduceCtorEq, false_iff]
    omega

/-- A number is narrowed with a fault exactly if it does not fit. -/
theorem narrow32_eq_error_iff {operation : Arithmetic} {n : Nat} {f : Fault} :
    narrow32 operation n = .error f ↔ UInt32.size ≤ n ∧ f = .overflow operation := by
  rw [narrow32]
  split
  next h =>
    simp only [reduceCtorEq, false_iff, not_and]
    omega
  next h =>
    rw [Except.error.injEq, eq_comm]
    exact ⟨fun hf => ⟨Nat.le_of_not_lt h, hf⟩, fun hf => hf.2⟩

/-- An integer that fits a signed word is that word, and no other integer does. -/
theorem narrowSigned32_eq_ok_iff {operation : Arithmetic} {n : Int} {w : Int32} :
    narrowSigned32 operation n = .ok w ↔ w.toInt = n := by
  rw [narrowSigned32]
  split
  next h =>
    rw [Except.ok.injEq]
    constructor
    · rintro rfl
      exact Int32.toInt_ofInt_of_le h.1 h.2
    · rintro rfl
      exact Int32.ofInt_toInt w
  next h =>
    have hlow := w.le_toInt
    have hhigh := w.toInt_lt
    simp only [reduceCtorEq, false_iff]
    rintro rfl
    exact h ⟨hlow, hhigh⟩

/-- The successor of a counter is exact. -/
theorem successor32_eq_ok_iff {n w : UInt32} :
    successor32 n = .ok w ↔ w.toNat = n.toNat + 1 :=
  narrow32_eq_ok_iff

/-- A word below half the range is the same number when it is read as a signed one. -/
theorem toInt_toInt32 {w : UInt32} (h : w.toNat < 0x80000000) : w.toInt32.toInt = w.toNat := by
  have hword : 2 * w.toBitVec.toNat < 2 ^ 32 := by
    rw [UInt32.toNat_toBitVec]
    omega
  exact BitVec.toInt_eq_toNat_of_lt hword

/-- Such a word has a negative. -/
theorem toInt_neg_toInt32 {w : UInt32} (h : w.toNat < 0x80000000) :
    (-w.toInt32).toInt = -(w.toNat : Int) := by
  rw [Int32.toInt_neg, toInt_toInt32 h]
  exact Int.bmod_eq_of_le (by omega) (by omega)

end RegIR
