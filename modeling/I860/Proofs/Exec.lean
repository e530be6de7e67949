import I860.Cpu.State

/-!
# Running programs on the processor

A program in `Exec` is a function of the state, and what the proofs need of
the monad is what each of its operations does to one state. The lemmas here
say that and nothing else, so that no later proof has to open the monad: a
program is run by rewriting with them from its first operation on.
-/

namespace I860.Exec

variable {β α γ : Type}

theorem bind_apply (x : Exec β α) (f : α → Exec β γ) (c : Cpu β) :
    (x >>= f) c =
      match x c with
      | .ok a d => f a d
      | .error e d => .error e d := by
  show EStateM.bind x f c = _
  unfold EStateM.bind
  cases x c <;> rfl

@[simp] theorem pure_apply (a : α) (c : Cpu β) :
    (pure a : Exec β α) c = .ok a c := rfl

@[simp] theorem get_apply (c : Cpu β) : (get : Exec β (Cpu β)) c = .ok c c := rfl

@[simp] theorem set_apply (c d : Cpu β) : (set d : Exec β PUnit) c = .ok ⟨⟩ d := rfl

@[simp] theorem modify_apply (f : Cpu β → Cpu β) (c : Cpu β) :
    (modify f : Exec β PUnit) c = .ok ⟨⟩ (f c) := rfl

@[simp] theorem throw_apply (e : Fault) (c : Cpu β) :
    (throw e : Exec β α) c = .error e c := rfl

@[simp] theorem raise_apply (kind : TrapKind) (c : Cpu β) :
    (raise kind : Exec β α) c =
      .error (.trap (.ofKind kind)) (c.setPsr (c.control.psr.setTrap kind)) := rfl

/-- A program that ends by changing the state, if it has completed. -/
theorem ok_of_bind_modify {x : Exec β α} {f : α → Cpu β → Cpu β} {c d : Cpu β}
    (h : (x >>= fun a => modify (f a)) c = .ok () d) : ∃ a e, x c = .ok a e ∧ d = f a e := by
  rw [bind_apply] at h
  split at h
  · next a e hx =>
      cases h
      exact ⟨a, e, hx, rfl⟩
  · cases h

theorem ite_apply (p : Prop) [Decidable p] (x y : Exec β α) (c : Cpu β) :
    (if p then x else y) c = if p then x c else y c := by
  split <;> rfl

end I860.Exec
