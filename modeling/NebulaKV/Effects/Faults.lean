/-
# Programs in a world that may fail

`UnderFaults S ε` is a state with a script of failures: at every point where the world may fail the next
line of the script says whether it does, and with which exception. A script that has run out fails no
more, so EVERY pattern of failures is a script. `attempt` is such a point, `safely` runs a program that
has none, `guarded` runs one that may fail before or behind its effect.

`Mirrors R m' m s` ties a program with such points to the one without: on an empty script they are the
same, a run that returns is a run of `m`, and wherever a failure stops the run, it leaves the state in
`R`. One rule for each form of program.
-/
import NebulaKV.Effects.Program

namespace Effects

/-- A state, and the failures to come. -/
structure UnderFaults (S ε : Type) where
  state : S
  faults : List (Option ε)

namespace UnderFaults

open Program

variable {S T ε α β : Type}

/-- A point where the world may fail. -/
def attempt : Program (UnderFaults S ε) ε Unit := fun s =>
  match s.faults with
  | [] => (.ok (), s)
  | none :: rest => (.ok (), { s with faults := rest })
  | some e :: rest => (.error e, { s with faults := rest })

/-- A program that the world cannot touch. -/
def safely (m : Program S ε α) : Program (UnderFaults S ε) ε α :=
  Program.zoom state (fun t s => { s with state := t }) m

/-- A program that may fail before it does anything, or when all is done. -/
def guarded (m : Program S ε α) : Program (UnderFaults S ε) ε α := do
  attempt
  let a ← safely m
  attempt
  return a

/-- Run a program on a part of the state, under the same script. -/
def within (part : S → T) (put : T → S → S) (m : Program (UnderFaults T ε) ε α) :
    Program (UnderFaults S ε) ε α :=
  Program.zoom (fun s => ⟨part s.state, s.faults⟩) (fun t s => ⟨put t.state s.state, t.faults⟩) m

/-- **The program with failures does what the program without them does**, as far as it comes. -/
structure Mirrors (R : S → Prop) (m' : Program (UnderFaults S ε) ε α) (m : Program S ε α) (s : S) :
    Prop where
  quiet : m' ⟨s, []⟩ = ((m s).1, ⟨(m s).2, []⟩)
  runs : ∀ faults, Outcome (fun a t => m s = (.ok a, t.state)) (fun t => R t.state) (m' ⟨s, faults⟩)

/-! ## The rules -/

variable {R R' : S → Prop} {s : S}
variable {m : Program S ε α} {m' : Program (UnderFaults S ε) ε α}
variable {f' : α → Program (UnderFaults S ε) ε β} {f : α → Program S ε β}

theorem Mirrors.mono (h : Mirrors R m' m s) (hR : ∀ t, R t → R' t) : Mirrors R' m' m s :=
  ⟨h.quiet, fun faults => (h.runs faults).mono (fun _ _ hq => hq) fun t => hR t.state⟩

theorem Mirrors.safely (h : ∀ e t, m s = (.error e, t) → R t) : Mirrors R (safely m) m s := by
  refine ⟨rfl, fun faults => ?_⟩
  unfold UnderFaults.safely Program.zoom
  dsimp only
  rcases hm : m s with ⟨result, t⟩
  cases result with
  | ok a => rfl
  | error e => exact h e t hm

theorem Mirrors.ret (a : α) : Mirrors R (pure a : Program (UnderFaults S ε) ε α) (pure a) s :=
  ⟨rfl, fun _ => rfl⟩

theorem Mirrors.bind (hm : Mirrors R m' m s)
    (hf : ∀ a t, m s = (.ok a, t) → Mirrors R (f' a) (f a) t) :
    Mirrors R (m' >>= f') (m >>= f) s := by
  refine ⟨?_, fun faults => ?_⟩
  · rw [bind_apply, hm.quiet, bind_apply]
    rcases hms : m s with ⟨result, t⟩
    cases result with
    | ok a => exact (hf a t hms).quiet
    | error e => rfl
  · refine Outcome.bind (hm.runs faults) fun a t hms => ?_
    rw [bind_apply, hms]
    exact (hf a t.state hms).runs t.faults

/-- A failure here leaves the state as it is. -/
theorem Mirrors.attempt_bind {f' : Unit → Program (UnderFaults S ε) ε α} (hR : R s)
    (hf : Mirrors R (f' ()) m s) : Mirrors R (attempt >>= f') m s := by
  refine ⟨hf.quiet, fun faults => ?_⟩
  cases faults with
  | nil => exact hf.runs []
  | cons fault rest =>
    cases fault with
    | none => exact hf.runs rest
    | some e => exact hR

/-- A failure at the end, when all is done. -/
theorem Mirrors.then_attempt (hm : Mirrors R m' m s) (hR : ∀ a t, m s = (.ok a, t) → R t) :
    Mirrors R (do let a ← m'; attempt; return a) m s := by
  have hpure : m = (m >>= pure) := by
    funext s
    rw [bind_apply]
    rcases m s with ⟨result, t⟩
    cases result <;> rfl
  rw [hpure]
  exact hm.bind fun a t hms => Mirrors.attempt_bind (hR a t hms) (Mirrors.ret a)

theorem Mirrors.guarded (hR : R s) (hdone : ∀ a t, m s = (.ok a, t) → R t)
    (herror : ∀ e t, m s = (.error e, t) → R t) : Mirrors R (guarded m) m s :=
  Mirrors.attempt_bind hR ((Mirrors.safely herror).then_attempt hdone)

theorem Mirrors.read_bind {f' : S → Program (UnderFaults S ε) ε α} {f : S → Program S ε α}
    (h : Mirrors R (f' s) (f s) s) :
    Mirrors R (UnderFaults.safely Program.read >>= f') (Program.read >>= f) s :=
  ⟨h.quiet, h.runs⟩

theorem Mirrors.check_bind {result : Except ε α} (hR : R s)
    (h : ∀ a, result = .ok a → Mirrors R (f' a) (f a) s) :
    Mirrors R (UnderFaults.safely (Program.check result) >>= f') (Program.check result >>= f) s := by
  refine Mirrors.bind (Mirrors.safely fun e t ht => ?_) fun a t ht => ?_
  · obtain rfl : s = t := (Prod.mk.inj ht).2
    exact hR
  · obtain ⟨hok, rfl⟩ : result = .ok a ∧ s = t := Prod.mk.inj ht
    exact h a hok

/-- A change on the way that the rest of the program makes again. -/
theorem Mirrors.update_bind {g : S → S} {f' : Unit → Program (UnderFaults S ε) ε α}
    (h : Mirrors R (f' ()) m (g s)) (hagain : m (g s) = m s) :
    Mirrors R (UnderFaults.safely (Program.update g) >>= f') m s := by
  refine ⟨?_, fun faults => ?_⟩
  · rw [← hagain]
    exact h.quiet
  · rw [← hagain]
    exact h.runs faults

theorem Mirrors.within {part : S → T} {put : T → S → S} {m' : Program (UnderFaults T ε) ε α}
    {m : Program T ε α} {R : T → Prop} (h : Mirrors R m' m (part s)) :
    Mirrors (fun s' => ∃ t, R t ∧ s' = put t s) (within part put m') (Program.zoom part put m) s := by
  refine ⟨?_, fun faults => ?_⟩
  · unfold UnderFaults.within Program.zoom
    dsimp only
    rw [h.quiet]
  · have hruns := h.runs faults
    unfold UnderFaults.within Program.zoom
    dsimp only
    rcases hm : m' ⟨part s, faults⟩ with ⟨result, t⟩
    rw [hm] at hruns
    cases result with
    | ok a =>
      have hms : m (part s) = (.ok a, t.state) := hruns
      show ((m (part s)).1, put (m (part s)).2 s) = _
      rw [hms]
    | error e => exact ⟨t.state, hruns, rfl⟩

end UnderFaults

end Effects
