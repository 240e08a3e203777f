import BlockArchive.Error

/-! # Attempts

An attempt is a computation on a state that either answers or fails.

* **A failure undoes nothing.** `Attempt ε σ α` answers with an `α` or fails with an `ε`, and in
  both cases leaves a state: what it did before it failed stays done, as with files.
* **`Action σ α`** is an attempt that fails with the errors of this library.
* **Pairs.** Larger states are pairs whose second half is the disk.  `onSecond` lets an attempt on
  the second half work on the pair, `onFirst` one on a part of the first half; `split` runs an
  attempt on a value of its own beside the state and reports its failure as an answer.
* **Outcomes.** The `outcome_` lemmas say of each way to build an attempt what it answers and what
  state it leaves; `outcome_bind` and `outcome_tryCatch` say how attempts follow one another. -/

namespace BlockArchive

/-- A computation on a state that may fail; what it did before it failed stays done. -/
abbrev Attempt (ε σ α : Type) : Type := ExceptT ε (StateM σ) α

/-- An attempt that fails with the errors of this library. -/
abbrev Action (σ α : Type) : Type := Attempt Error σ α

namespace Attempt

variable {ε σ τ υ α β : Type}

/-- The outcome of an attempt and the state it leaves. -/
def outcome (attempt : Attempt ε σ α) (state : σ) : Except ε α × σ :=
  attempt.run.run state

/-- An attempt given by its outcome for every state. -/
def ofOutcome (f : σ → Except ε α × σ) : Attempt ε σ α :=
  f

/-- An attempt on the second half of a state. -/
def onSecond (attempt : Attempt ε τ α) : Attempt ε (σ × τ) α :=
  ofOutcome fun (a, b) =>
    let (answer, b') := attempt.outcome b
    (answer, (a, b'))

/-- An attempt on a part of the first half of a state, together with the second half. -/
def onFirst (view : σ → υ) (put : υ → σ → σ) (attempt : Attempt ε (υ × τ) α) :
    Attempt ε (σ × τ) α :=
  ofOutcome fun (a, b) =>
    let (answer, (u, b')) := attempt.outcome (view a, b)
    (answer, (put u a, b'))

/-- Runs an attempt that works on a value of its own beside the state.  Its outcome is the answer,
together with what became of the value. -/
def split {δ : Type} (start : τ) (attempt : Attempt ε (τ × σ) α) :
    Attempt δ σ (Except ε α × τ) :=
  ofOutcome fun b =>
    let (answer, (t, b')) := attempt.outcome (start, b)
    (.ok (answer, t), b')

/-- The first half of the state. -/
def current : Attempt ε (σ × τ) σ := do
  return (← get).1

/-- Changes the first half of the state. -/
def update (f : σ → σ) : Attempt ε (σ × τ) Unit :=
  modify fun (a, b) => (f a, b)

/-- An answer, or a failure, without any effect. -/
def ofExcept : Except ε α → Attempt ε σ α
  | .ok a => pure a
  | .error e => throw e

/-! ### Outcomes -/

theorem outcome_pure (a : α) (s : σ) : (pure a : Attempt ε σ α).outcome s = (.ok a, s) := rfl

theorem outcome_throw (e : ε) (s : σ) :
    (throw e : Attempt ε σ α).outcome s = (.error e, s) := rfl

/-- The second attempt starts from the state that the first leaves, if that one answers. -/
theorem outcome_bind (first : Attempt ε σ α) (next : α → Attempt ε σ β) (s : σ) :
    (first >>= next).outcome s =
      match first.outcome s with
      | (.ok a, s') => (next a).outcome s'
      | (.error e, s') => (.error e, s') := by
  change (ExceptT.bindCont next (first.outcome s).1).run (first.outcome s).2 = _
  cases first.outcome s with
  | mk answer _ => cases answer <;> rfl

theorem outcome_bind_ok {first : Attempt ε σ α} {s s' : σ} {a : α}
    (h : first.outcome s = (.ok a, s')) (next : α → Attempt ε σ β) :
    (first >>= next).outcome s = (next a).outcome s' := by
  rw [outcome_bind, h]

theorem outcome_bind_error {first : Attempt ε σ α} {s s' : σ} {e : ε}
    (h : first.outcome s = (.error e, s')) (next : α → Attempt ε σ β) :
    (first >>= next).outcome s = (.error e, s') := by
  rw [outcome_bind, h]

/-- Two attempts answer together only if each does. -/
theorem exists_of_outcome_bind {first : Attempt ε σ α} {next : α → Attempt ε σ β} {s s' : σ} {b : β}
    (h : (first >>= next).outcome s = (.ok b, s')) :
    ∃ a s₁, first.outcome s = (.ok a, s₁) ∧ (next a).outcome s₁ = (.ok b, s') := by
  rw [outcome_bind] at h
  cases hfirst : first.outcome s with
  | mk answer s₁ =>
      rw [hfirst] at h
      cases answer with
      | ok a => exact ⟨a, s₁, rfl, h⟩
      | error e => simp at h

/-- Steps that are taken only under a condition, before what comes next in any case. -/
theorem outcome_ite {c : Prop} [Decidable c] {first next : Attempt ε σ α} {s s' : σ}
    (hthen : c → first.outcome s = next.outcome s') (helse : ¬c → s = s') :
    (if c then first else next).outcome s = next.outcome s' := by
  split
  · next h => exact hthen h
  · next h => rw [helse h]

/-- The handler starts from the state in which the failure left things. -/
theorem outcome_tryCatch (attempt : Attempt ε σ α) (handler : ε → Attempt ε σ α) (s : σ) :
    (tryCatch attempt handler).outcome s =
      match attempt.outcome s with
      | (.ok a, s') => (.ok a, s')
      | (.error e, s') => (handler e).outcome s' := by
  change (match (attempt.outcome s).1 with
    | .ok a => (pure a : Attempt ε σ α)
    | .error e => handler e).outcome (attempt.outcome s).2 = _
  cases attempt.outcome s with
  | mk answer _ => cases answer <;> rfl

theorem outcome_get (s : σ) : (get : Attempt ε σ σ).outcome s = (.ok s, s) := rfl

theorem outcome_modify (f : σ → σ) (s : σ) :
    (modify f : Attempt ε σ Unit).outcome s = (.ok (), f s) := rfl

theorem outcome_onSecond (attempt : Attempt ε τ α) (s : σ) (t : τ) :
    (attempt.onSecond : Attempt ε (σ × τ) α).outcome (s, t) =
      ((attempt.outcome t).1, (s, (attempt.outcome t).2)) := rfl

theorem outcome_onSecond_of {attempt : Attempt ε τ α} {t t' : τ} {answer : Except ε α}
    (h : attempt.outcome t = (answer, t')) (s : σ) :
    (attempt.onSecond : Attempt ε (σ × τ) α).outcome (s, t) = (answer, (s, t')) := by
  rw [outcome_onSecond, h]

theorem outcome_onFirst (view : σ → υ) (put : υ → σ → σ) (attempt : Attempt ε (υ × τ) α)
    (s : σ) (t : τ) :
    (onFirst view put attempt).outcome (s, t) =
      let result := attempt.outcome (view s, t)
      (result.1, (put result.2.1 s, result.2.2)) := rfl

theorem outcome_split {δ : Type} (start : τ) (attempt : Attempt ε (τ × σ) α) (s : σ) :
    (split start attempt : Attempt δ σ (Except ε α × τ)).outcome s =
      let result := attempt.outcome (start, s)
      (.ok (result.1, result.2.1), result.2.2) := rfl

theorem outcome_current (s : σ) (t : τ) :
    (current : Attempt ε (σ × τ) σ).outcome (s, t) = (.ok s, (s, t)) := rfl

theorem outcome_update (f : σ → σ) (s : σ) (t : τ) :
    (update f : Attempt ε (σ × τ) Unit).outcome (s, t) = (.ok (), (f s, t)) := rfl

theorem outcome_ofExcept (answer : Except ε α) (s : σ) :
    (ofExcept answer : Attempt ε σ α).outcome s = (answer, s) := by
  cases answer <;> rfl

end Attempt

namespace Action

variable {σ α : Type}

/-- An answer of the file system. -/
def ofIo : Except IoError α → Action σ α
  | .ok a => pure a
  | .error e => throw (.io e)

theorem outcome_ofIo (answer : Except IoError α) (s : σ) :
    (ofIo answer : Action σ α).outcome s = (answer.mapError .io, s) := by
  cases answer <;> rfl

end Action

end BlockArchive
