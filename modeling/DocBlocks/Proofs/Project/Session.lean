import DocBlocks.Project.Session

/-!
# Running work

What the steps of work do to a session, one equation for each step. Work that is put together runs
its parts one after the other, and what comes behind a failure is not run: `Work.run_bind`.
-/

namespace DocBlocks

namespace Work

variable {ε δ α β : Type} {s s' : Session} {a : α} {e : ε}

theorem run_bind (w : Work ε α) (f : α → Work ε β) (s : Session) :
    (w >>= f).run s = match w.run s with
      | (.ok a, s') => (f a).run s'
      | (.error e, s') => (.error e, s') := by
  rw [ExceptT.run_bind]
  rcases h : w.run s with ⟨e | a, s'⟩
  · simp [bind, StateT.bind, h]
    rfl
  · simp [bind, StateT.bind, h]

theorem run_bind_of_ok {w : Work ε α} (f : α → Work ε β) (h : w.run s = (.ok a, s')) :
    (w >>= f).run s = (f a).run s' := by
  rw [run_bind, h]

theorem run_bind_of_error {w : Work ε α} (f : α → Work ε β) (h : w.run s = (.error e, s')) :
    (w >>= f).run s = (.error e, s') := by
  rw [run_bind, h]

@[simp] theorem run_files (s : Session) : (files : Work ε FileSystem).run s = (.ok s.files, s) :=
  rfl

@[simp] theorem run_info (text : String) (s : Session) :
    (info text : Work ε Unit).run s = (.ok (), { s with log := s.log ++ [⟨.info, text⟩] }) := rfl

@[simp] theorem run_warn (text : String) (s : Session) :
    (warn text : Work ε Unit).run s = (.ok (), { s with log := s.log ++ [⟨.warn, text⟩] }) := rfl

@[simp] theorem run_print (text : String) (s : Session) :
    (print text : Work ε Unit).run s = (.ok (), { s with output := s.output ++ text }) := rfl

@[simp] theorem run_ofExcept (describe : δ → ε) (x : Except δ α) (s : Session) :
    (ofExcept describe x : Work ε α).run s = (x.mapError describe, s) := by
  cases x <;> rfl

theorem run_change (describe : IoFault → ε) (c : Change α) (s : Session) :
    (change describe c).run s =
      ((c.run s.files).1.mapError describe, { s with files := (c.run s.files).2 }) := by
  have hstep : (change describe c).run s =
      (ofExcept describe (c.run s.files).1).run { s with files := (c.run s.files).2 } := rfl
  rw [hstep, run_ofExcept]

theorem run_describing (describe : ε → δ) (w : Work ε α) (s : Session) :
    (describing describe w).run s = ((w.run s).1.mapError describe, (w.run s).2) := rfl

theorem run_tryCatch_of_ok {w : Work ε α} (handle : ε → Work ε α) (h : w.run s = (.ok a, s')) :
    (tryCatch w handle).run s = (.ok a, s') := by
  have hw : w s = (.ok a, s') := h
  simp only [tryCatch, tryCatchThe, MonadExceptOf.tryCatch, ExceptT.tryCatch, ExceptT.mk, ExceptT.run]
  show StateT.bind _ _ s = _
  rw [StateT.bind, hw]
  rfl

theorem run_tryCatch_of_error {w : Work ε α} (handle : ε → Work ε α)
    (h : w.run s = (.error e, s')) : (tryCatch w handle).run s = (handle e).run s' := by
  have hw : w s = (.error e, s') := h
  simp only [tryCatch, tryCatchThe, MonadExceptOf.tryCatch, ExceptT.tryCatch, ExceptT.mk, ExceptT.run]
  show StateT.bind _ _ s = _
  rw [StateT.bind, hw]
  rfl

end Work

end DocBlocks
