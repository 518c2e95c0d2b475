import SchemaGen.Event
import SchemaGen.Fault

/-!
# Traced computations

A computation that may fail and reports events on the way. The events reported before a failure
are kept. The projections of each operation are `simp` lemmas, so a proof reads off the result and
the events of a computation without unfolding it.
-/

namespace SchemaGen

/-- A result, or the fault in its place, and the events reported until then. -/
structure Traced (α : Type) where
  events : List Event
  result : Except Fault α

namespace Traced

variable {α β : Type}

/-- A result without events. -/
def pure (a : α) : Traced α := ⟨[], .ok a⟩

/-- A fault without events. -/
def fail (fault : Fault) : Traced α := ⟨[], .error fault⟩

/-- One event. -/
def report (event : Event) : Traced Unit := ⟨[event], .ok ()⟩

/-- A computation that reports nothing. -/
def ofExcept (e : Except Fault α) : Traced α := ⟨[], e⟩

/-- Goes on with the result, after the events of the first part. -/
def bind (x : Traced α) (f : α → Traced β) : Traced β :=
  match x.result with
  | .ok a => ⟨x.events ++ (f a).events, (f a).result⟩
  | .error fault => ⟨x.events, .error fault⟩

instance : Monad Traced where
  pure := pure
  bind := bind

instance : MonadLift (Except Fault) Traced where
  monadLift := ofExcept

instance : LawfulMonad Traced := LawfulMonad.mk' Traced
  (by
    intro α x
    obtain ⟨events, result⟩ := x
    cases result <;> simp [Functor.map, bind, pure])
  (by
    intro α β x f
    simp [Bind.bind, Pure.pure, bind, pure])
  (by
    intro α β γ x f g
    obtain ⟨events, result⟩ := x
    cases result with
    | error fault => rfl
    | ok a =>
      simp only [Bind.bind, bind]
      cases (f a).result <;> simp)

@[simp] theorem pure_events (a : α) : (Pure.pure a : Traced α).events = [] := rfl
@[simp] theorem pure_result (a : α) : (Pure.pure a : Traced α).result = .ok a := rfl
@[simp] theorem fail_events (fault : Fault) : (fail fault : Traced α).events = [] := rfl
@[simp] theorem fail_result (fault : Fault) : (fail fault : Traced α).result = .error fault := rfl
@[simp] theorem report_events (event : Event) : (report event).events = [event] := rfl
@[simp] theorem report_result (event : Event) : (report event).result = .ok () := rfl
@[simp] theorem ofExcept_events (e : Except Fault α) : (ofExcept e).events = [] := rfl
@[simp] theorem ofExcept_result (e : Except Fault α) : (ofExcept e).result = e := rfl

@[simp] theorem bind_result (x : Traced α) (f : α → Traced β) :
    (x >>= f).result = x.result >>= fun a => (f a).result := by
  obtain ⟨events, result⟩ := x
  cases result <;> rfl

theorem bind_ok {x : Traced α} {a : α} (h : x.result = .ok a) (f : α → Traced β) :
    (x >>= f).result = (f a).result := by
  rw [bind_result, h]
  rfl

theorem bind_error {x : Traced α} {fault : Fault} (h : x.result = .error fault)
    (f : α → Traced β) : (x >>= f).result = .error fault := by
  rw [bind_result, h]
  rfl

/-- A step that reports nothing goes on with its result. -/
theorem lift_ok {e : Except Fault α} {a : α} (h : e = .ok a) (f : α → Traced β) :
    ((liftM e : Traced α) >>= f).result = (f a).result :=
  bind_ok h f

theorem bind_events (x : Traced α) (f : α → Traced β) :
    (x >>= f).events = x.events ++ (match x.result with
      | .ok a => (f a).events
      | .error _ => []) := by
  obtain ⟨events, result⟩ := x
  cases result <;> simp [Bind.bind, bind]

theorem bind_events_of_ok {x : Traced α} {a : α} (h : x.result = .ok a) (f : α → Traced β) :
    (x >>= f).events = x.events ++ (f a).events := by
  rw [bind_events, h]

/-- Reports of two steps come one after the other. -/
theorem bind_eq_of_ok {x : Traced α} {f : α → Traced β} {a : α}
    {first second : List Event} {result : Except Fault β} (hx : x = ⟨first, .ok a⟩)
    (hf : f a = ⟨second, result⟩) : (x >>= f) = ⟨first ++ second, result⟩ := by
  subst hx
  show Traced.mk (first ++ (f a).events) (f a).result = _
  rw [hf]

/-- A step without reports that succeeds. -/
theorem liftM_bind_of_ok {e : Except Fault α} {a : α} (h : e = .ok a)
    (f : α → Traced β) : ((liftM e : Traced α) >>= f) = f a := by
  rw [h]
  rfl

end Traced

/-! ## Results -/

theorem map_eq_ok_iff {α β ε : Type} {x : Except ε α} {f : α → β} {b : β} :
    x.map f = .ok b ↔ ∃ a, x = .ok a ∧ f a = b := by
  cases x <;> simp [Except.map]

theorem bind_eq_ok_iff {α β ε : Type} {x : Except ε α} {f : α → Except ε β} {b : β} :
    x >>= f = .ok b ↔ ∃ a, x = .ok a ∧ f a = .ok b := by
  cases x <;> simp [bind, Except.bind]

end SchemaGen
