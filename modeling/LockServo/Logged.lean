/-!
# Values with the events on the way to them

`Logged ε α` is a value and the events emitted while it was computed, first to last.
-/

namespace LockServo

structure Logged (ε α : Type) where
  value : α
  events : List ε

namespace Logged

variable {ε α β : Type}

protected def pure (value : α) : Logged ε α := ⟨value, []⟩

protected def bind (x : Logged ε α) (f : α → Logged ε β) : Logged ε β :=
  ⟨(f x.value).value, x.events ++ (f x.value).events⟩

instance : Monad (Logged ε) where
  pure := Logged.pure
  bind := Logged.bind

instance : LawfulMonad (Logged ε) := LawfulMonad.mk' (Logged ε)
  (by intro α x; cases x; simp [Functor.map, Logged.bind, Logged.pure])
  (by intro α β x f; simp [Bind.bind, Pure.pure, Logged.bind, Logged.pure])
  (by intro α β γ x f g; simp [Bind.bind, Logged.bind, List.append_assoc])

def emit (event : ε) : Logged ε Unit := ⟨(), [event]⟩

@[simp] theorem pure_value (a : α) : (pure a : Logged ε α).value = a := rfl

@[simp] theorem pure_events (a : α) : (pure a : Logged ε α).events = [] := rfl

@[simp] theorem bind_value (x : Logged ε α) (f : α → Logged ε β) :
    (x >>= f).value = (f x.value).value := rfl

@[simp] theorem bind_events (x : Logged ε α) (f : α → Logged ε β) :
    (x >>= f).events = x.events ++ (f x.value).events := rfl

@[simp] theorem map_value (f : α → β) (x : Logged ε α) : (f <$> x).value = f x.value := rfl

@[simp] theorem map_events (f : α → β) (x : Logged ε α) : (f <$> x).events = x.events := by
  change x.events ++ [] = x.events
  rw [List.append_nil]

@[simp] theorem emit_events (event : ε) : (emit event).events = [event] := rfl

end Logged

end LockServo
