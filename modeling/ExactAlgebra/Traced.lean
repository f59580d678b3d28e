import ExactAlgebra.Note

/-!
# Traced computations

A computation that may fail and that makes notes as it goes. The notes made before a failure stay,
so a log shows how far a run came. The outcome does not depend on the notes: `outcome` turns a
traced computation into one that may just fail, step by step (`outcome_bind`).
-/

namespace ExactAlgebra

/-- The notes of a computation, and its result or the error that ended it. -/
structure Traced (α : Type) where
  notes : List Note
  outcome : Except Error α

namespace Traced

variable {α β γ : Type}

/-- A result without notes. -/
protected def pure (a : α) : Traced α := ⟨[], .ok a⟩

/-- Goes on with the result of a computation, if it has one. -/
protected def bind (x : Traced α) (f : α → Traced β) : Traced β :=
  match x.outcome with
  | .ok a => ⟨x.notes ++ (f a).notes, (f a).outcome⟩
  | .error e => ⟨x.notes, .error e⟩

instance : Monad Traced where
  pure := Traced.pure
  bind := Traced.bind

/-- A computation without notes. -/
def lift (x : Except Error α) : Traced α := ⟨[], x⟩

instance : MonadLift (Except Error) Traced := ⟨lift⟩

/-- Ends with an error. -/
def fail (e : Error) : Traced α := ⟨[], .error e⟩

/-- Makes a note. -/
def tell (n : Note) : Traced Unit := ⟨[n], .ok ()⟩

/-- Runs a computation on each element of a list, from the first on. -/
def mapAll (f : α → Traced β) : List α → Traced (List β)
  | [] => pure []
  | a :: as => do
    let b ← f a
    let bs ← mapAll f as
    return b :: bs

/-! ### Outcomes -/

@[simp] theorem outcome_pure (a : α) : (pure a : Traced α).outcome = .ok a := rfl

@[simp] theorem outcome_bind (x : Traced α) (f : α → Traced β) :
    (x >>= f).outcome = x.outcome >>= fun a => (f a).outcome := by
  rcases x with ⟨notes, _ | a⟩ <;> rfl

@[simp] theorem outcome_lift (x : Except Error α) : (lift x).outcome = x := rfl

@[simp] theorem outcome_fail (e : Error) : (fail e : Traced α).outcome = .error e := rfl

@[simp] theorem outcome_tell (n : Note) : (tell n).outcome = .ok () := rfl

private theorem id_map' (x : Traced α) : id <$> x = x := by
  rcases x with ⟨notes, _ | a⟩
  · rfl
  · exact congrArg (Traced.mk · (.ok a)) (List.append_nil notes)

private theorem bind_assoc' (x : Traced α) (f : α → Traced β) (g : β → Traced γ) :
    x >>= f >>= g = x >>= fun a => f a >>= g := by
  rcases x with ⟨notes, _ | a⟩
  · rfl
  · rcases h : f a with ⟨more, _ | b⟩
    · simp [bind, Traced.bind, h]
    · simp [bind, Traced.bind, h, List.append_assoc]

instance : LawfulMonad Traced :=
  .mk' Traced id_map' (fun _ _ => rfl) bind_assoc'

end Traced

end ExactAlgebra
