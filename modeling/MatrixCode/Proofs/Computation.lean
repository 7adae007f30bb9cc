import MatrixCode.Proofs.Reading

/-!
Computations on a state that may fail. A computation succeeds with a result, or it fails; in
both cases it leaves a state. A sequence of steps succeeds when all of them do, and fails with
the first that does. Most computations that fail do so before they have changed anything.
-/

namespace MatrixCode

section

variable {σ α β : Type}

/-- Run in the state `s`, the computation succeeds with `a` and leaves the state `s'`. -/
def Yields (x : ExceptT Failure (StateM σ) α) (s : σ) (a : α) (s' : σ) : Prop :=
  x.run.run s = (.ok a, s')

/-- Run in the state `s`, the computation fails and leaves the state `s'`. -/
def Fails (x : ExceptT Failure (StateM σ) α) (s s' : σ) : Prop :=
  ∃ e, x.run.run s = (.error e, s')

variable {x : ExceptT Failure (StateM σ) α} {f : α → ExceptT Failure (StateM σ) β} {s s₁ s' : σ}
  {a : α} {b : β}

theorem yields_or_fails (x : ExceptT Failure (StateM σ) α) (s : σ) :
    (∃ a s', Yields x s a s') ∨ ∃ s', Fails x s s' := by
  cases hx : x.run.run s with
  | mk r s' =>
      cases r with
      | ok a => exact .inl ⟨a, s', hx⟩
      | error e => exact .inr ⟨s', e, hx⟩

theorem yields_of_toOption (h : (x.run.run s).1.toOption = some a) :
    Yields x s a (x.run.run s).2 :=
  Prod.ext (Outcome.toOption_eq_some.mp h) rfl

theorem exists_yields (h : (x.run.run s).1.toOption.isSome) : ∃ a, Yields x s a (x.run.run s).2 := by
  obtain ⟨a, ha⟩ := Option.isSome_iff_exists.mp h
  exact ⟨a, yields_of_toOption ha⟩

theorem fails_of_toOption (h : (x.run.run s).1.toOption = none) : Fails x s (x.run.run s).2 := by
  obtain ⟨a, s', ran⟩ | ⟨s', e, failed⟩ := yields_or_fails x s
  · rw [ran] at h
    cases h
  · exact ⟨e, by rw [failed]⟩

theorem Yields.bind (first : Yields x s a s₁) (rest : Yields (f a) s₁ b s') :
    Yields (x >>= f) s b s' := by
  rw [Yields, ExceptT.run_bind, StateT.run_bind, first]
  exact rest

theorem Yields.of_bind (ran : Yields (x >>= f) s b s') :
    ∃ a s₁, Yields x s a s₁ ∧ Yields (f a) s₁ b s' := by
  rw [Yields, ExceptT.run_bind, StateT.run_bind] at ran
  cases hx : x.run.run s with
  | mk r s₁ =>
      rw [hx] at ran
      cases r with
      | error e => cases ran
      | ok a => exact ⟨a, s₁, hx, ran⟩

theorem Yields.of_mapM_cons {g : β → ExceptT Failure (StateM σ) α} {bs : List β} {as : List α}
    (ran : Yields ((b :: bs).mapM g) s as s') :
    ∃ a as' s₁, Yields (g b) s a s₁ ∧ Yields (bs.mapM g) s₁ as' s' := by
  rw [List.mapM_cons] at ran
  obtain ⟨a, s₁, first, ran⟩ := ran.of_bind
  obtain ⟨as', s₂, rest, returned⟩ := ran.of_bind
  cases returned
  exact ⟨a, as', s₁, first, rest⟩

theorem Fails.bind (first : Fails x s s') : Fails (x >>= f) s s' := by
  obtain ⟨e, first⟩ := first
  refine ⟨e, ?_⟩
  rw [ExceptT.run_bind, StateT.run_bind, first]
  rfl

theorem Yields.bind_fails (first : Yields x s a s₁) (rest : Fails (f a) s₁ s') :
    Fails (x >>= f) s s' := by
  obtain ⟨e, rest⟩ := rest
  refine ⟨e, ?_⟩
  rw [ExceptT.run_bind, StateT.run_bind, first]
  exact rest

theorem Fails.of_bind (failed : Fails (x >>= f) s s') :
    Fails x s s' ∨ ∃ a s₁, Yields x s a s₁ ∧ Fails (f a) s₁ s' := by
  obtain ⟨e, failed⟩ := failed
  rw [ExceptT.run_bind, StateT.run_bind] at failed
  cases hx : x.run.run s with
  | mk r s₁ =>
      rw [hx] at failed
      cases r with
      | error e' =>
          cases failed
          exact .inl ⟨e, hx⟩
      | ok a => exact .inr ⟨a, s₁, hx, e, failed⟩

theorem Yields.not_fails {s'' : σ} (ran : Yields x s a s') : ¬Fails x s s'' := by
  rintro ⟨e, failed⟩
  rw [ran] at failed
  cases failed

theorem Yields.unique {a' : α} (first : Yields x s a s₁) (second : Yields x s a' s') : s₁ = s' := by
  rw [Yields, first] at second
  exact (Prod.mk.inj second).2

theorem Fails.unique (first : Fails x s s₁) (second : Fails x s s') : s₁ = s' := by
  obtain ⟨e, first⟩ := first
  obtain ⟨e', second⟩ := second
  rw [first] at second
  exact (Prod.mk.inj second).2

theorem run_tryCatch (x : ExceptT Failure (StateM σ) α)
    (handler : Failure → ExceptT Failure (StateM σ) α) (s : σ) :
    (tryCatch x handler).run.run s = match x.run.run s with
      | (.ok a, s') => (.ok a, s')
      | (.error e, s') => (handler e).run.run s' := by
  change (ExceptT.tryCatch x handler).run.run s = _
  rw [ExceptT.tryCatch, ExceptT.run_mk, StateT.run_bind, show StateT.run x s = x.run.run s from rfl]
  cases hx : x.run.run s with
  | mk r s' => cases r <;> rfl

theorem Yields.tryCatch {handler : Failure → ExceptT Failure (StateM σ) α} (ran : Yields x s a s') :
    Yields (tryCatch x handler) s a s' := by
  rw [Yields, run_tryCatch, ran]

/-- A failure that is handled by something that fails as well. -/
theorem Fails.tryCatch {handler : Failure → ExceptT Failure (StateM σ) α} (first : Fails x s s₁)
    (second : ∀ e, Fails (handler e) s₁ s') : Fails (tryCatch x handler) s s' := by
  obtain ⟨e, first⟩ := first
  rw [Fails, run_tryCatch, first]
  exact second e

/-- What follows a look at the state. -/
theorem run_get_bind (f : σ → ExceptT Failure (StateM σ) β) (s : σ) :
    (get >>= f).run.run s = (f s).run.run s := rfl

/-- An outcome without a state, as a computation. -/
theorem run_outcome (o : Outcome α) (s : σ) :
    (liftM o : ExceptT Failure (StateM σ) α).run.run s = (o, s) := by
  cases o <;> rfl

theorem yields_outcome {o : Outcome α} (h : o.toOption = some a) (s : σ) :
    Yields (liftM o) s a s := by
  rw [Yields, run_outcome, Outcome.toOption_eq_some.mp h]

theorem fails_outcome {o : Outcome α} (h : o.toOption = none) (s : σ) : Fails (liftM o) s s := by
  cases o with
  | ok a => cases h
  | error e => exact ⟨e, run_outcome _ s⟩

end

section

variable {ε σ α β : Type} {s : σ}

theorem completed_throw (e : ε) : completed (throw e : ExceptT ε (StateM σ) α) s = .error e := rfl

theorem completed_map (f : α → β) (x : ExceptT ε (StateM σ) α) :
    completed (f <$> x) s = (fun r => (f r.1, r.2)) <$> completed x s := by
  rw [completed, completed, ExceptT.run_map, StateT.run_map]
  cases x.run.run s with
  | mk result s' => cases result <;> rfl

theorem completed_lift (o : Except ε α) :
    completed (liftM o : ExceptT ε (StateM σ) α) s = (fun a => (a, s)) <$> o := by
  cases o <;> rfl

theorem completed_lift_bind (o : Except ε α) (f : α → ExceptT ε (StateM σ) β) :
    completed ((liftM o : ExceptT ε (StateM σ) α) >>= f) s = o >>= fun a => completed (f a) s := by
  cases o <;> rfl

theorem completed_get_bind (f : σ → ExceptT ε (StateM σ) β) :
    completed (get >>= f) s = completed (f s) s := rfl

theorem completed_stateful (i : Instruction) (x : ExceptT Fault (StateM σ) α) :
    completed (i.stateful x) s = i.kernel (completed x s) := by
  rw [completed, completed, Instruction.stateful, ExceptT.run_mk, StateT.run_map]
  cases x.run.run s with
  | mk result s' => cases result <;> rfl

/-- When the computation fails, it leaves the state as it was. -/
def Atomic (x : ExceptT ε (StateM σ) α) (s : σ) : Prop :=
  ∀ e s', x.run.run s = (.error e, s') → s' = s

namespace Atomic

variable {x : ExceptT ε (StateM σ) α} {f : α → ExceptT ε (StateM σ) β}

theorem throw (e : ε) : Atomic (MonadExcept.throw e : ExceptT ε (StateM σ) α) s := by
  rintro _ _ ⟨⟩
  rfl

theorem lift (o : Except ε α) : Atomic (liftM o : ExceptT ε (StateM σ) α) s := by
  cases o <;> rintro _ _ ⟨⟩
  rfl

theorem look {f : σ → ExceptT ε (StateM σ) β} (rest : Atomic (f s) s) : Atomic (get >>= f) s := rest

/-- What comes behind a check. -/
theorem check (o : Except ε α) (rest : ∀ a, Atomic (f a) s) :
    Atomic ((liftM o : ExceptT ε (StateM σ) α) >>= f) s := by
  cases o with
  | ok a => exact rest a
  | error e =>
      rintro _ _ ⟨⟩
      rfl

theorem stateful {x : ExceptT Fault (StateM σ) α} (atomic : Atomic x s) (i : Instruction) :
    Atomic (i.stateful x) s := by
  intro e s' failed
  rw [Instruction.stateful, ExceptT.run_mk, StateT.run_map] at failed
  cases ran : x.run.run s with
  | mk result s'' =>
      rw [ran] at failed
      cases result with
      | ok a => cases failed
      | error fault =>
          cases failed
          exact atomic fault _ ran

/-- The state that is left is given by what is completed. -/
theorem run_eq (atomic : Atomic x s) :
    x.run.run s = match completed x s with
      | .ok (a, s') => (.ok a, s')
      | .error e => (.error e, s) := by
  rw [completed]
  cases ran : x.run.run s with
  | mk result s' =>
      cases result with
      | ok a => rfl
      | error e => rw [atomic e s' ran]

end Atomic
end
end MatrixCode
