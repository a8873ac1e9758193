import Mathlib.Order.Defs.Unbundled
import MethodEdit.Edit

/-!
What an operation does to the state in any case, what it yields if it is not refused, and what it
leaves if it is. All three are found out step by step.
-/
namespace MethodEdit

theorem bind_eq_ok_iff {ε α β : Type} {x : Except ε α} {next : α → Except ε β} {b : β} :
    (x >>= next) = .ok b ↔ ∃ a, x = .ok a ∧ next a = .ok b := by
  cases x with
  | error e => simp [bind, Except.bind]
  | ok a => simp [bind, Except.bind]

theorem lift_eq_ok_iff {α : Type} {x : Except ModelError α} {a : α} :
    (liftM x : Except EditError α) = .ok a ↔ x = .ok a := by
  cases x with
  | error e => exact ⟨nofun, nofun⟩
  | ok b => exact ⟨fun h => by cases h; rfl, fun h => by cases h; rfl⟩

theorem Instruction.validate_eq_ok_iff {i : Instruction} {a : Unit} :
    i.validate = .ok a ↔ i.isValid = true := by
  simp [validate]

theorem Instruction.make_eq_ok_iff {opcode : Opcode} {operand : Operand} {i : Instruction} :
    make opcode operand = .ok i ↔
      opcode.accepts operand = true ∧ i = { opcode, operand } := by
  simp only [make, bind_eq_ok_iff, validate_eq_ok_iff, isValid]
  constructor
  · intro ⟨_, hv, hi⟩
    exact ⟨hv, (Except.ok.inj hi).symm⟩
  · intro ⟨hv, hi⟩
    exact ⟨(), hv, by rw [hi]; rfl⟩

namespace Edit

variable {σ α β : Type} {op : Edit σ α} {next : α → Edit σ β} {s t : σ}

theorem run_bind_eq_ok_iff {b : β} {u : σ} :
    (op >>= next) s = (.ok b, u) ↔ ∃ a t, op s = (.ok a, t) ∧ next a t = (.ok b, u) := by
  rw [run_bind]
  cases op s with
  | mk result t =>
    cases result with
    | error e => simp
    | ok a =>
      constructor
      · exact fun h => ⟨a, t, rfl, h⟩
      · rintro ⟨_, _, ⟨⟩, h⟩
        exact h

/-- Whatever becomes of the operation, the state after it is related to the one before it. -/
def Moves (R : σ → σ → Prop) (op : Edit σ α) : Prop := ∀ s, R s (op s).2

namespace Moves

variable {R : σ → σ → Prop} [IsPreorder σ R]

theorem pure (a : α) : Moves R (Pure.pure a : Edit σ α) := fun s => refl_of R s

theorem get : Moves R (MonadState.get : Edit σ σ) := fun s => refl_of R s

theorem throw (e : EditError) : Moves R (MonadExcept.throw e : Edit σ α) := fun s => refl_of R s

theorem lift (x : Except EditError α) : Moves R (liftM x : Edit σ α) := fun s => refl_of R s

omit [IsPreorder σ R] in
theorem mono {R' : σ → σ → Prop} (h : Moves R op) (hR : ∀ s t, R s t → R' s t) : Moves R' op :=
  fun s => hR s _ (h s)

end Moves

/-- If the operation is not refused, its result and the state after it are as said. -/
def Yields (op : Edit σ α) (s : σ) (Q : α → σ → Prop) : Prop := ∀ a t, op s = (.ok a, t) → Q a t

namespace Yields

variable {Q : α → σ → Prop} {Q' : β → σ → Prop}

theorem of_ok {a : α} {t : σ} (ho : op s = (.ok a, t)) (h : Q a t) : Yields op s Q := by
  intro b u hu
  cases ho.symm.trans hu
  exact h

theorem of_error {e : EditError} {t : σ} (ho : op s = (.error e, t)) : Yields op s Q := by
  intro b u hu
  cases ho.symm.trans hu

theorem pure {a : α} (h : Q a s) : Yields (Pure.pure a) s Q := of_ok rfl h

theorem throw (e : EditError) : Yields (MonadExcept.throw e) s Q := of_error rfl

theorem get {next : σ → Edit σ β} (h : Yields (next s) s Q') :
    Yields (MonadState.get >>= next) s Q' := h

theorem lift {x : Except EditError α} (h : ∀ a, x = .ok a → Yields (next a) s Q') :
    Yields (liftM x >>= next) s Q' := by
  cases x with
  | error e => exact of_error rfl
  | ok a => exact h a rfl

theorem bind (h : Yields op s Q) (hn : ∀ a t, Q a t → Yields (next a) t Q') :
    Yields (op >>= next) s Q' := by
  intro b u hu
  rw [run_bind] at hu
  cases heq : op s with
  | mk result t =>
    rw [heq] at hu
    cases result with
    | error e => cases hu
    | ok a => exact hn a t (h a t heq) b u hu

theorem mono {Q₁ Q₂ : α → σ → Prop} (h : Yields op s Q₁) (hQ : ∀ a t, Q₁ a t → Q₂ a t) :
    Yields op s Q₂ := fun a t ht => hQ a t (h a t ht)

theorem moved {R : σ → σ → Prop} (h : Yields op s Q) (hm : Moves R op) :
    Yields op s fun a t => R s t ∧ Q a t := by
  intro a t ht
  have hR := hm s
  rw [ht] at hR
  exact ⟨hR, h a t ht⟩

theorem trivial : Yields op s fun _ _ => True := fun _ _ _ => True.intro

end Yields

/-- If the operation is refused, the state after it is as said. -/
def Refuses (op : Edit σ α) (s : σ) (Q : σ → Prop) : Prop := ∀ e t, op s = (.error e, t) → Q t

namespace Refuses

variable {Q : σ → Prop}

theorem of_ok {a : α} {t : σ} (ho : op s = (.ok a, t)) : Refuses op s Q := by
  intro e u hu
  cases ho.symm.trans hu

theorem of_error {e : EditError} {t : σ} (ho : op s = (.error e, t)) (h : Q t) :
    Refuses op s Q := by
  intro e' u hu
  cases ho.symm.trans hu
  exact h

theorem pure (a : α) : Refuses (Pure.pure a) s Q := of_ok rfl

theorem throw {e : EditError} (h : Q s) : Refuses (MonadExcept.throw e : Edit σ α) s Q :=
  of_error rfl h

theorem get {next : σ → Edit σ β} (h : Refuses (next s) s Q) :
    Refuses (MonadState.get >>= next) s Q := h

theorem lift {x : Except EditError α} (he : ∀ e, x = .error e → Q s)
    (h : ∀ a, x = .ok a → Refuses (next a) s Q) : Refuses (liftM x >>= next) s Q := by
  cases x with
  | error e => exact of_error rfl (he e rfl)
  | ok a => exact h a rfl

theorem bind (h : Refuses op s Q) (hn : ∀ a t, op s = (.ok a, t) → Refuses (next a) t Q) :
    Refuses (op >>= next) s Q := by
  intro e u hu
  rw [run_bind] at hu
  cases heq : op s with
  | mk result t =>
    rw [heq] at hu
    cases result with
    | error e' =>
      cases hu
      exact h e u heq
    | ok a => exact hn a t heq e u hu

theorem mono {Q' : σ → Prop} (h : Refuses op s Q) (hQ : ∀ t, Q t → Q' t) : Refuses op s Q' :=
  fun e t ht => hQ t (h e t ht)

end Refuses

theorem rel_bind {R : σ → σ → Prop} [IsPreorder σ R] (h : R s (op s).2)
    (hn : ∀ a t, op s = (.ok a, t) → R t (next a t).2) : R s ((op >>= next) s).2 := by
  rw [run_bind]
  cases heq : op s with
  | mk result t =>
    rw [heq] at h
    cases result with
    | error e => exact h
    | ok a => exact trans_of R h (hn a t heq)

theorem rel_after {R : σ → σ → Prop} [IsPreorder σ R] (hn : ∀ a, Moves R (next a)) (s : σ) :
    R (op s).2 ((op >>= next) s).2 := by
  rw [run_bind]
  cases op s with
  | mk result t =>
    cases result with
    | error e => exact refl_of R t
    | ok a => exact hn a t

theorem snd_bind_pure (op : Edit σ α) (f : α → β) (s : σ) :
    ((op >>= fun a => (pure (f a) : Edit σ β)) s).2 = (op s).2 := by
  rw [run_bind]
  cases op s with
  | mk result t => cases result <;> rfl

theorem Moves.bind_yields {R : σ → σ → Prop} [IsPreorder σ R] {Q : σ → α → σ → Prop}
    (h : Moves R op) (hy : ∀ s, Yields op s (Q s)) (hn : ∀ s a t, Q s a t → R t (next a t).2) :
    Moves R (op >>= next) :=
  fun s => rel_bind (h s) fun a t ht => hn s a t (hy s a t ht)

theorem Moves.bind {R : σ → σ → Prop} [IsPreorder σ R] (h : Moves R op)
    (hn : ∀ a, Moves R (next a)) : Moves R (op >>= next) :=
  h.bind_yields (fun _ => .trivial) fun _ a t _ => hn a t

end Edit

end MethodEdit
