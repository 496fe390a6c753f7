/-
# Programs over a state that survives a throw

`Program S ε α` is a computation under a lock: it reads and writes a state `S`, and returns an `α`
or throws an `ε`. What it wrote before a throw STAYS written, as it does for the members of an object
whose method throws; that is why the state stands outside the `Except`.

`Holds P m Q R` is the triple: from `P`, `m` returns with `Q` or throws with `R`. One rule for each
form of program; `repeatWhile` is the loop, with its invariant rule. `Yields P m a` is for a program
that only LOOKS as if it had effects: under `P` it returns `a`, and `P` holds again. `zoom` runs a
program on a part of the state.
-/
import Mathlib.Tactic.Common

namespace Effects

/-- A computation that may throw, over a state that survives the throw. -/
def Program (S ε α : Type) := S → Except ε α × S

namespace Program

variable {S ε α β : Type}
variable {s : S} {x : Except ε α × S} {E : ε → S → Prop} {a : α} {m : Program S ε α} {c : Prop}
  {f : α → Program S ε β} {result : Except ε α} {M : α → S → Prop} {T : Type} {part : S → T}
  {put : T → S → S}

def ret (a : α) : Program S ε α := fun s => (.ok a, s)

def andThen (m : Program S ε α) (f : α → Program S ε β) : Program S ε β := fun s =>
  match m s with
  | (.ok a, s') => f a s'
  | (.error e, s') => (.error e, s')

instance : Monad (Program S ε) where
  pure := ret
  bind := andThen

/-- The current state. -/
def read : Program S ε S := fun s => (.ok s, s)

/-- Change the state. -/
def update (f : S → S) : Program S ε Unit := fun s => (.ok (), f s)

def raise (e : ε) : Program S ε α := fun s => (.error e, s)

/-- Run a check that does not touch the state. -/
def check (result : Except ε α) : Program S ε α := fun s => (result, s)

/-- Run a program on a part of the state. -/
def zoom {T : Type} (part : S → T) (put : T → S → S) (m : Program T ε α) : Program S ε α := fun s =>
  ((m (part s)).1, put (m (part s)).2 s)

/-- `for (x : list) { body }`. -/
def forEach (body : β → Program S ε Unit) : List β → Program S ε Unit
  | [] => pure ()
  | x :: rest => do
    body x
    forEach body rest

/-- A loop with an accumulator. -/
def foldOver (step : α → β → Program S ε α) : α → List β → Program S ε α
  | a, [] => pure a
  | a, x :: rest => do
    let a' ← step a x
    foldOver step a' rest

/-- `if (c) { body }`. -/
def when (c : Prop) [Decidable c] (body : Program S ε Unit) : Program S ε Unit :=
  if c then body else ret ()

/-- Run the body as long as the condition holds, `fuel` times at most. -/
def repeatWhile (c : S → Bool) (body : Program S ε Unit) : Nat → Program S ε Unit
  | 0 => pure ()
  | fuel + 1 => do
    let s ← read
    if c s then
      body
      repeatWhile c body fuel
    else
      pure ()

@[simp] theorem pure_apply (a : α) (s : S) : (pure a : Program S ε α) s = (.ok a, s) := rfl

@[simp] theorem read_apply (s : S) : (read : Program S ε S) s = (.ok s, s) := rfl

@[simp] theorem update_apply (f : S → S) (s : S) :
    (update f : Program S ε Unit) s = (.ok (), f s) := rfl

@[simp] theorem raise_apply (e : ε) (s : S) : (raise e : Program S ε α) s = (.error e, s) := rfl

@[simp] theorem when_pos [Decidable c] (h : c) (m : Program S ε Unit) : when c m = m := if_pos h

@[simp] theorem when_neg [Decidable c] (h : ¬ c) (m : Program S ε Unit) :
    when c m = pure () := if_neg h

theorem bind_apply (m : Program S ε α) (f : α → Program S ε β) (s : S) :
    (m >>= f) s = match m s with
      | (.ok a, s') => f a s'
      | (.error e, s') => (.error e, s') := rfl

theorem bind_bind {γ : Type} (m : Program S ε α) (f : α → Program S ε β) (g : β → Program S ε γ) :
    m >>= f >>= g = m >>= fun a => f a >>= g := by
  funext s
  rw [bind_apply, bind_apply, bind_apply]
  rcases m s with ⟨result, t⟩
  cases result <;> rfl

@[simp] theorem pure_bind_apply (a : α) (f : α → Program S ε β) (s : S) :
    ((pure a : Program S ε α) >>= f) s = f a s := rfl

@[simp] theorem read_bind_apply (f : S → Program S ε β) (s : S) : (read >>= f) s = f s s := rfl

@[simp] theorem update_bind_apply (g : S → S) (f : Unit → Program S ε β) (s : S) :
    (update g >>= f) s = f () (g s) := rfl

@[simp] theorem check_ok_bind (a : α) (f : α → Program S ε β) (s : S) :
    (check (.ok a) >>= f) s = f a s := rfl

/-- The last round of a loop whose other rounds returned. -/
theorem forEach_append_one {body : β → Program S ε Unit} {list : List β} {s' : S}
    (h : forEach body list s = (.ok (), s')) (x : β) :
    forEach body (list ++ [x]) s = body x s' := by
  induction list generalizing s with
  | nil =>
    obtain rfl : s = s' := (Prod.mk.inj h).2
    show (body x >>= fun _ => pure ()) s = body x s
    rw [bind_apply]
    rcases body x s with ⟨result, t⟩
    cases result <;> rfl
  | cons y rest ih =>
    have hrun : (body y >>= fun _ => forEach body rest) s = (.ok (), s') := h
    show (body y >>= fun _ => forEach body (rest ++ [x])) s = _
    rw [bind_apply] at hrun ⊢
    rcases hy : body y s with ⟨result, t⟩
    rw [hy] at hrun
    cases result with
    | error e => cases (Prod.mk.inj hrun).1
    | ok u => exact ih hrun

/-- The outcome of a program satisfies one condition if it returned and another if it threw. -/
def Outcome (Q : α → S → Prop) (R : S → Prop) : Except ε α × S → Prop
  | (.ok a, s) => Q a s
  | (.error _, s) => R s

/-- **The triple.** -/
def Holds (P : S → Prop) (m : Program S ε α) (Q : α → S → Prop) (R : S → Prop) : Prop :=
  ∀ s, P s → Outcome Q R (m s)

/-! ## The rules -/

variable {P P' : S → Prop} {Q Q' : α → S → Prop} {R R' : S → Prop}

theorem Outcome.mono (h : Outcome Q R x) (hQ : ∀ a s, Q a s → Q' a s) (hR : ∀ s, R s → R' s) :
    Outcome Q' R' x := by
  obtain ⟨r, s⟩ := x
  cases r with
  | ok a => exact hQ a s h
  | error e => exact hR s h

/-- A program that never throws returns. -/
theorem Outcome.returns (h : Outcome Q (fun _ => False) x) : ∃ a s, x = (.ok a, s) ∧ Q a s := by
  obtain ⟨result, s⟩ := x
  cases result with
  | ok a => exact ⟨a, s, rfl, h⟩
  | error e => exact h.elim

theorem Outcome.of_ok (h : Outcome Q R x) (hok : x.1 = .ok a) : Q a x.2 := by
  obtain ⟨result, s⟩ := x
  obtain rfl : result = .ok a := hok
  exact h

theorem Outcome.of_throw (h : Outcome Q R x) {e : ε} (hthrow : x = (.error e, s)) : R s := by
  rw [hthrow] at h
  exact h

theorem Outcome.bind {Q : β → S → Prop} (hm : Outcome M R (m s))
    (hf : ∀ a s', M a s' → Outcome Q R (f a s')) : Outcome Q R ((m >>= f) s) := by
  rw [bind_apply]
  rcases hms : m s with ⟨r, s'⟩
  rw [hms] at hm
  cases r with
  | ok a => exact hf a s' hm
  | error e => exact hm

theorem Outcome.check (hok : ∀ a, result = .ok a → Q a s) (herror : ∀ e, result = .error e → R s) :
    Outcome Q R (check result s) := by
  cases result with
  | ok a => exact hok a rfl
  | error e => exact herror e rfl

theorem Outcome.zoom {m : Program T ε α} {Q : α → T → Prop} {R : T → Prop}
    (h : Outcome Q R (m (part s))) :
    Outcome (fun a s' => ∃ t, Q a t ∧ s' = put t s) (fun s' => ∃ t, R t ∧ s' = put t s)
      (Program.zoom part put m s) := by
  unfold Program.zoom
  rcases hm : m (part s) with ⟨r, t⟩
  rw [hm] at h
  cases r with
  | ok a => exact ⟨t, h, rfl⟩
  | error e => exact ⟨t, h, rfl⟩

theorem Holds.pre (h : Holds P m Q R) (hP : ∀ s, P' s → P s) : Holds P' m Q R :=
  fun s hs => h s (hP s hs)

theorem Holds.ret (h : ∀ s, P s → Q a s) : Holds P (pure a : Program S ε α) Q R :=
  h

theorem Holds.raise {e : ε} (h : ∀ s, P s → R s) : Holds P (raise e : Program S ε α) Q R :=
  h

theorem Holds.update {f : S → S} {Q : Unit → S → Prop} (h : ∀ s, P s → Q () (f s)) :
    Holds P (update f : Program S ε Unit) Q R :=
  h

theorem Holds.bind {Q : β → S → Prop} (hm : Holds P m M R) (hf : ∀ a, Holds (M a) (f a) Q R) :
    Holds P (m >>= f) Q R :=
  fun s hs => (hm s hs).bind hf

theorem Holds.read_bind {f : S → Program S ε β} {Q : β → S → Prop}
    (h : ∀ x, P x → Holds (fun s => s = x) (f x) Q R) : Holds P (read >>= f) Q R := by
  intro s hs
  exact h s hs s rfl

theorem Holds.update_bind {g : S → S} {f : Unit → Program S ε β} {Q : β → S → Prop}
    (h : Holds (fun s => ∃ s₀, P s₀ ∧ s = g s₀) (f ()) Q R) :
    Holds P (Program.update g >>= f) Q R := by
  intro s hs
  exact h (g s) ⟨s, hs, rfl⟩

theorem Holds.check (hok : ∀ a, result = .ok a → ∀ s, P s → Q a s) (herror : ∀ s, P s → R s) :
    Holds P (check result) Q R :=
  fun s hs => Outcome.check (fun a ha => hok a ha s hs) fun _ _ => herror s hs

theorem Holds.ite [Decidable c] {m' : Program S ε α} (h : c → Holds P m Q R)
    (h' : ¬ c → Holds P m' Q R) : Holds P (if c then m else m') Q R := by
  split_ifs with hc
  · exact h hc
  · exact h' hc

theorem Holds.when [Decidable c] {m : Program S ε Unit} {Q : Unit → S → Prop}
    (h : c → Holds P m Q R) (h' : ¬ c → ∀ s, P s → Q () s) : Holds P (Program.when c m) Q R :=
  Holds.ite h fun hc => Holds.ret (h' hc)

/-- **The loop rule.** The invariant holds at the exit, and the loop has left because its condition
failed: the measure bounds the fuel. -/
theorem Holds.repeatWhile {c : S → Bool} {body : Program S ε Unit} {I : S → Prop} {μ : S → Nat}
    (hpos : ∀ s, I s → c s = true → 0 < μ s)
    (hbody : ∀ s, I s → c s = true →
      Outcome (fun _ s' => I s' ∧ μ s' < μ s) R (body s)) (fuel : Nat) :
    Holds (fun s => I s ∧ μ s ≤ fuel) (Program.repeatWhile c body fuel)
      (fun _ s => I s ∧ c s = false) R := by
  induction fuel with
  | zero =>
    rintro s ⟨hI, hμ⟩
    show I s ∧ c s = false
    refine ⟨hI, ?_⟩
    by_contra hc
    have := hpos s hI (by simpa using hc)
    omega
  | succ fuel ih =>
    rintro s ⟨hI, hμ⟩
    by_cases hc : c s = true
    · have hout := hbody s hI hc
      simp only [Program.repeatWhile, read_bind_apply, if_pos hc]
      rw [bind_apply]
      rcases hbs : body s with ⟨r, s'⟩
      rw [hbs] at hout
      cases r with
      | ok a => exact ih s' ⟨hout.1, by have := hout.2; omega⟩
      | error e => exact hout
    · simp only [Program.repeatWhile, read_bind_apply, if_neg hc]
      exact ⟨hI, by simpa using hc⟩

/-! ## Which exceptions -/

/-- The outcome of a program, with a condition that also sees the exception. -/
def Ends (Q : α → S → Prop) (E : ε → S → Prop) : Except ε α × S → Prop
  | (.ok a, s) => Q a s
  | (.error e, s) => E e s

theorem Ends.mono {E' : ε → S → Prop} (h : Ends Q E x) (hQ : ∀ a s, Q a s → Q' a s)
    (hE : ∀ e s, E e s → E' e s) : Ends Q' E' x := by
  obtain ⟨r, s⟩ := x
  cases r with
  | ok a => exact hQ a s h
  | error e => exact hE e s h

theorem Ends.outcome (h : Ends Q E x) (hE : ∀ e s, E e s → R s) : Outcome Q R x := by
  obtain ⟨r, s⟩ := x
  cases r with
  | ok a => exact h
  | error e => exact hE e s h

theorem Ends.returns (h : Ends Q (fun _ _ => False) x) : ∃ a s, x = (.ok a, s) ∧ Q a s :=
  (h.outcome fun _ _ hfalse => hfalse).returns

theorem Ends.and {E' : ε → S → Prop} (h : Ends Q E x) (h' : Ends Q' E' x) :
    Ends (fun a s => Q a s ∧ Q' a s) (fun e s => E e s ∧ E' e s) x := by
  obtain ⟨r, s⟩ := x
  cases r with
  | ok a => exact ⟨h, h'⟩
  | error e => exact ⟨h, h'⟩

theorem Ends.bind {Q : β → S → Prop} (hm : Ends M E (m s)) (hf : ∀ a s', M a s' → Ends Q E (f a s')) :
    Ends Q E ((m >>= f) s) := by
  rw [bind_apply]
  rcases hms : m s with ⟨r, s'⟩
  rw [hms] at hm
  cases r with
  | ok a => exact hf a s' hm
  | error e => exact hm

theorem Ends.check (hok : ∀ a, result = .ok a → Q a s) (herror : ∀ e, result = .error e → E e s) :
    Ends Q E (Program.check result s) := by
  cases result with
  | ok a => exact hok a rfl
  | error e => exact herror e rfl

theorem Outcome.ends_of (h : Outcome Q R x) (hR : ∀ e s, R s → E e s) : Ends Q E x := by
  obtain ⟨r, s⟩ := x
  cases r with
  | ok a => exact h
  | error e => exact hR e s h

/-- What every round keeps, the loop keeps. -/
theorem Ends.repeatWhile {c : S → Bool} {body : Program S ε Unit} {I : S → Prop}
    (hbody : ∀ s, I s → c s = true → Ends (fun _ => I) E (body s)) (fuel : Nat) (hs : I s) :
    Ends (fun _ => I) E (Program.repeatWhile c body fuel s) := by
  induction fuel generalizing s with
  | zero => exact hs
  | succ fuel ih =>
    rw [Program.repeatWhile, read_bind_apply]
    split_ifs with hc
    · exact Ends.bind (hbody s hs hc) fun _ _ hs' => ih hs'
    · exact hs

/-! ## Programs that only read -/

/-- **Reading.** From a state with `P` the program returns `a`, and `P` holds again. -/
def Yields (P : S → Prop) (m : Program S ε α) (a : α) : Prop :=
  ∀ s, P s → ∃ s', m s = (.ok a, s') ∧ P s'

theorem Yields.ret (a : α) : Yields P (pure a : Program S ε α) a := fun s hs => ⟨s, rfl, hs⟩

theorem Yields.bind {b : β} (hm : Yields P m a) (hf : Yields P (f a) b) : Yields P (m >>= f) b := by
  intro s hs
  obtain ⟨s', hms, hs'⟩ := hm s hs
  obtain ⟨s'', hfs, hs''⟩ := hf s' hs'
  refine ⟨s'', ?_, hs''⟩
  rw [bind_apply, hms]
  exact hfs

theorem Yields.check (h : result = .ok a) : Yields P (Program.check result) a :=
  fun s hs => ⟨s, by rw [h]; rfl, hs⟩

/-- The accumulator loop computes the fold of what its steps yield. -/
theorem Yields.foldOver {step : α → β → Program S ε α} {f : α → β → α} {l : List β}
    (h : ∀ a, ∀ x ∈ l, Yields P (step a x) (f a x)) (a : α) :
    Yields P (Program.foldOver step a l) (l.foldl f a) := by
  induction l generalizing a with
  | nil => exact Yields.ret a
  | cons x rest ih =>
    exact (h a x (by simp)).bind (ih (fun a' y hy => h a' y (by simp [hy])) (f a x))

theorem Yields.zoom {P : T → Prop} {m : Program T ε α} (h : Yields P m a) (hs : P (part s)) :
    ∃ t, P t ∧ Program.zoom part put m s = (.ok a, put t s) := by
  obtain ⟨t, hm, ht⟩ := h (part s) hs
  refine ⟨t, ht, ?_⟩
  unfold Program.zoom
  rw [hm]

theorem Yields.zoom_bind {P : T → Prop} {m : Program T ε α} (h : Yields P m a)
    (f : α → Program S ε β) (hs : P (part s)) :
    ∃ t, P t ∧ (Program.zoom part put m >>= f) s = f a (put t s) := by
  obtain ⟨t, ht, hzoom⟩ : ∃ t, P t ∧ Program.zoom part put m s = (.ok a, put t s) := h.zoom hs
  refine ⟨t, ht, ?_⟩
  rw [bind_apply, hzoom]

end Program

end Effects
