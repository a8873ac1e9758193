import MethodEdit.EditError

/-!
Operations that can be refused. What an operation did before it was refused stays done, so a refused
one also has a state after it.
-/
namespace MethodEdit

/-- An operation on a state of type `σ`. -/
def Edit (σ α : Type) : Type := σ → Except EditError α × σ

namespace Edit

variable {σ α β : Type}

instance : Monad (Edit σ) where
  pure a := fun s => (.ok a, s)
  bind op next := fun s =>
    match op s with
    | (.ok a, t) => next a t
    | (.error e, t) => (.error e, t)

instance : MonadStateOf σ (Edit σ) where
  get := fun s => (.ok s, s)
  set t := fun _ => (.ok ⟨⟩, t)
  modifyGet f := fun s => (.ok (f s).1, (f s).2)

instance : MonadExceptOf EditError (Edit σ) where
  throw e := fun s => (.error e, s)
  tryCatch op handle := fun s =>
    match op s with
    | (.ok a, t) => (.ok a, t)
    | (.error e, t) => handle e t

/-- A check of data does nothing to the state. -/
instance : MonadLift (Except EditError) (Edit σ) := ⟨fun x s => (x, s)⟩

@[simp] theorem run_pure (a : α) (s : σ) : (pure a : Edit σ α) s = (.ok a, s) := rfl

@[simp] theorem run_get (s : σ) : (get : Edit σ σ) s = (.ok s, s) := rfl

@[simp] theorem run_set (s t : σ) : (set t : Edit σ PUnit) s = (.ok ⟨⟩, t) := rfl

@[simp] theorem run_modify (f : σ → σ) (s : σ) :
    (modify f : Edit σ PUnit) s = (.ok ⟨⟩, f s) := rfl

@[simp] theorem run_throw (e : EditError) (s : σ) : (throw e : Edit σ α) s = (.error e, s) := rfl

@[simp] theorem run_lift (x : Except EditError α) (s : σ) :
    (liftM x : Edit σ α) s = (x, s) := rfl

@[simp] theorem run_bind (op : Edit σ α) (next : α → Edit σ β) (s : σ) :
    (op >>= next) s =
      match op s with
      | (.ok a, t) => next a t
      | (.error e, t) => (.error e, t) := rfl

end Edit

end MethodEdit
