import Sharp.Fault
import Sharp.Token.Note

/-!
# Readers and writers

Reading a program either ends in a fault or gives a value together with what was found on the way.
`Logged` is that combination for any kind of findings: they are collected in order, and a fault
drops them.
-/

namespace Sharp

/-- A kind of findings: they can be put one after another. -/
class Log (ω : Type) where
  none : ω
  append : ω → ω → ω
  none_append : ∀ u, append none u = u
  append_none : ∀ u, append u none = u
  append_assoc : ∀ u v w, append (append u v) w = append u (append v w)

instance {α : Type} : Log (List α) where
  none := []
  append := List.append
  none_append := List.nil_append
  append_none := List.append_nil
  append_assoc := List.append_assoc

/-- A fault, or a value and what was logged before it was known. -/
inductive Logged (ω α : Type) : Type where
  | fail (fault : Fault)
  | done (value : α) (log : ω)
  deriving Repr

namespace Logged

variable {ω : Type} [Log ω] {α β γ : Type}

def tell (u : ω) : Logged ω Unit :=
  .done () u

def after (u : ω) : Logged ω α → Logged ω α
  | .fail fault => .fail fault
  | .done a v => .done a (Log.append u v)

/-- Continues with the value; the two logs follow each other. -/
def bind (x : Logged ω α) (f : α → Logged ω β) : Logged ω β :=
  match x with
  | .fail fault => .fail fault
  | .done a u => (f a).after u

instance : Monad (Logged ω) where
  pure a := .done a Log.none
  bind := bind

def ofExcept : Except Fault α → Logged ω α
  | .error fault => .fail fault
  | .ok a => pure a

def toExcept : Logged ω α → Except Fault α
  | .fail fault => .error fault
  | .done a _ => .ok a

@[simp] theorem pure_eq (a : α) : (pure a : Logged ω α) = .done a Log.none :=
  rfl

@[simp] theorem fail_bind (fault : Fault) (f : α → Logged ω β) :
    (.fail fault : Logged ω α) >>= f = .fail fault :=
  rfl

@[simp] theorem done_bind (a : α) (u : ω) (f : α → Logged ω β) :
    (.done a u : Logged ω α) >>= f = (f a).after u :=
  rfl

theorem bind_eq_done {x : Logged ω α} {f : α → Logged ω β} {b : β} {w : ω} :
    x >>= f = .done b w ↔
      ∃ a u v, x = .done a u ∧ f a = .done b v ∧ w = Log.append u v := by
  cases x with
  | fail fault => simp
  | done a u =>
    cases h : f a with
    | fail fault => simp [h, after]
    | done b' v =>
      simp only [done_bind, h, after, done.injEq]
      constructor
      · rintro ⟨rfl, rfl⟩
        exact ⟨a, u, v, ⟨rfl, rfl⟩, h, rfl⟩
      · rintro ⟨_, _, _, ⟨rfl, rfl⟩, h', rfl⟩
        rw [h] at h'
        cases h'
        exact ⟨rfl, rfl⟩

instance : LawfulMonad (Logged ω) :=
  LawfulMonad.mk' (Logged ω)
    (by
      intro α x
      match x with
      | .fail _ => rfl
      | .done a u => exact congrArg (Logged.done a) (Log.append_none u))
    (by
      intro α β a f
      simp only [pure_eq, done_bind]
      cases f a with
      | fail _ => rfl
      | done b v => exact congrArg (Logged.done b) (Log.none_append v))
    (by
      intro α β γ x f g
      match x with
      | .fail _ => rfl
      | .done a u =>
        simp only [done_bind]
        cases f a with
        | fail _ => rfl
        | done b v =>
          simp only [after, done_bind]
          cases g b with
          | fail _ => rfl
          | done c w => simp only [Log.append_assoc])

end Logged

/-- A computation that logs notes on the tokens it reads. -/
abbrev Reading (α : Type) : Type :=
  Logged (List Note) α

def note (t : Token) (role : Role) : Reading Unit :=
  .tell [⟨t, role⟩]

end Sharp
