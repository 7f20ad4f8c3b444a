import Mathlib.Logic.Basic
import Mathlib.Logic.Function.Basic

/-!
# Fallible steps on a state

A step returns a value or an error and, either way, the state it leaves behind: what was
changed before a failure stays changed. `Sat` is the partial-correctness triple with one
postcondition for each way to return, and `Same` compares two steps on different states; the
rules below follow the two ways of composing steps.
-/

namespace ProtonDrive.FallibleSteps

structure Outcome (ε σ α : Type) where
  result : Except ε α
  state : σ

namespace Outcome

variable {ε σ α β : Type}

/-- Continue after a success; an error returns at once. -/
def andThen (o : Outcome ε σ α) (f : α → σ → Outcome ε σ β) : Outcome ε σ β :=
  match o with
  | ⟨.ok a, s⟩ => f a s
  | ⟨.error e, s⟩ => ⟨.error e, s⟩

/-- Handle an error in the state it left behind; a success passes through. -/
def recover (o : Outcome ε σ α) (g : ε → σ → Outcome ε σ α) : Outcome ε σ α :=
  match o with
  | ⟨.ok a, s⟩ => ⟨.ok a, s⟩
  | ⟨.error e, s⟩ => g e s

/-- The same outcome, its error told in other terms. -/
def mapError {ε' : Type} (f : ε → ε') (o : Outcome ε σ α) : Outcome ε' σ α :=
  match o with
  | ⟨.ok a, s⟩ => ⟨.ok a, s⟩
  | ⟨.error e, s⟩ => ⟨.error (f e), s⟩

/-- The outcome as seen through a view of the value and a view of the state. -/
def image {τ γ : Type} (f : α → γ) (g : σ → τ) (o : Outcome ε σ α) : Outcome ε τ γ :=
  match o with
  | ⟨.ok a, s⟩ => ⟨.ok (f a), g s⟩
  | ⟨.error e, s⟩ => ⟨.error e, g s⟩

/-- Whatever the step returns, the postcondition of that way to return holds. -/
def Sat (o : Outcome ε σ α) (ok : α → σ → Prop) (err : ε → σ → Prop) : Prop :=
  match o with
  | ⟨.ok a, s⟩ => ok a s
  | ⟨.error e, s⟩ => err e s

@[simp] theorem andThen_ok (a : α) (s : σ) (f : α → σ → Outcome ε σ β) :
    (⟨.ok a, s⟩ : Outcome ε σ α).andThen f = f a s := rfl

@[simp] theorem andThen_error (e : ε) (s : σ) (f : α → σ → Outcome ε σ β) :
    (⟨.error e, s⟩ : Outcome ε σ α).andThen f = ⟨.error e, s⟩ := rfl

@[simp] theorem recover_ok (a : α) (s : σ) (g : ε → σ → Outcome ε σ α) :
    (⟨.ok a, s⟩ : Outcome ε σ α).recover g = ⟨.ok a, s⟩ := rfl

@[simp] theorem recover_error (e : ε) (s : σ) (g : ε → σ → Outcome ε σ α) :
    (⟨.error e, s⟩ : Outcome ε σ α).recover g = g e s := rfl

/-- What only changes the value leaves the state. -/
theorem state_andThen_ok (o : Outcome ε σ α) (f : α → β) :
    (o.andThen fun a s => ⟨.ok (f a), s⟩).state = o.state := by
  rcases o with ⟨e | a, s⟩ <;> rfl

theorem mapError_injective {ε' : Type} {f : ε → ε'} (hf : Function.Injective f)
    {o o' : Outcome ε σ α} (h : o.mapError f = o'.mapError f) : o = o' := by
  rcases o with ⟨e | a, s⟩ <;> rcases o' with ⟨e' | a', s'⟩ <;>
    simp_all [mapError, hf.eq_iff]

/-- A sequence is viewed piece by piece. -/
theorem image_andThen {τ γ δ : Type} {v : α → γ} {v' : β → δ} {g : σ → τ}
    {o : Outcome ε σ α} {o' : Outcome ε τ γ} {f : α → σ → Outcome ε σ β}
    {f' : γ → τ → Outcome ε τ δ} (h : o.image v g = o')
    (hf : ∀ a s, (f a s).image v' g = f' (v a) (g s)) :
    (o.andThen f).image v' g = o'.andThen f' := by
  subst h
  rcases o with ⟨e | a, s⟩
  · rfl
  · exact hf a s

theorem image_recover {τ γ : Type} {v : α → γ} {g : σ → τ} {o : Outcome ε σ α}
    {o' : Outcome ε τ γ} {f : ε → σ → Outcome ε σ α} {f' : ε → τ → Outcome ε τ γ}
    (h : o.image v g = o') (hf : ∀ e s, (f e s).image v g = f' e (g s)) :
    (o.recover f).image v g = o'.recover f' := by
  subst h
  rcases o with ⟨e | a, s⟩
  · exact hf e s
  · rfl

variable {ok ok' : α → σ → Prop} {err err' : ε → σ → Prop}

theorem Sat.mono {o : Outcome ε σ α} (h : o.Sat ok err) (hok : ∀ a s, ok a s → ok' a s)
    (herr : ∀ e s, err e s → err' e s) : o.Sat ok' err' := by
  rcases o with ⟨e | a, s⟩
  · exact herr e s h
  · exact hok a s h

theorem Sat.and {o : Outcome ε σ α} (h : o.Sat ok err) (h' : o.Sat ok' err') :
    o.Sat (fun a s => ok a s ∧ ok' a s) (fun e s => err e s ∧ err' e s) := by
  rcases o with ⟨e | a, s⟩
  · exact ⟨h, h'⟩
  · exact ⟨h, h'⟩

theorem Sat.andThen {o : Outcome ε σ α} {f : α → σ → Outcome ε σ β} {post : β → σ → Prop}
    (h : o.Sat ok err) (hf : ∀ a s, ok a s → (f a s).Sat post err) :
    (o.andThen f).Sat post err := by
  rcases o with ⟨e | a, s⟩
  · exact h
  · exact hf a s h

theorem Sat.recover {o : Outcome ε σ α} {g : ε → σ → Outcome ε σ α} (h : o.Sat ok err)
    (hg : ∀ e s, err e s → (g e s).Sat ok err') : (o.recover g).Sat ok err' := by
  rcases o with ⟨e | a, s⟩
  · exact hg e s h
  · exact h

theorem Sat.image {τ γ : Type} {f : α → γ} {g : σ → τ} {o : Outcome ε σ α}
    {ok : γ → τ → Prop} {err : ε → τ → Prop}
    (h : o.Sat (fun a s => ok (f a) (g s)) (fun e s => err e (g s))) :
    (o.image f g).Sat ok err := by
  rcases o with ⟨e | a, s⟩
  · exact h
  · exact h

/-- A property of the state alone holds after the step, however it returns. -/
theorem Sat.state {o : Outcome ε σ α} {P : σ → Prop} (h : o.Sat (fun _ => P) (fun _ => P)) :
    P o.state := by
  rcases o with ⟨e | a, s⟩ <;> exact h

section Same

variable {τ : Type} {R : σ → τ → Prop} {o : Outcome ε σ α} {o' : Outcome ε τ α}

/-- Two steps return the same and leave related states. -/
def Same (R : σ → τ → Prop) (o : Outcome ε σ α) (o' : Outcome ε τ α) : Prop :=
  o.result = o'.result ∧ R o.state o'.state

theorem Same.andThen {f : α → σ → Outcome ε σ β} {f' : α → τ → Outcome ε τ β}
    (h : o.Same R o') (hf : ∀ a s s', R s s' → (f a s).Same R (f' a s')) :
    (o.andThen f).Same R (o'.andThen f') := by
  rcases o with ⟨e | a, s⟩ <;> rcases o' with ⟨e' | a', s'⟩ <;> obtain ⟨hr, hs⟩ := h <;> cases hr
  · exact ⟨rfl, hs⟩
  · exact hf a s s' hs

theorem Same.recover {g : ε → σ → Outcome ε σ α} {g' : ε → τ → Outcome ε τ α}
    (h : o.Same R o') (hg : ∀ e s s', R s s' → (g e s).Same R (g' e s')) :
    (o.recover g).Same R (o'.recover g') := by
  rcases o with ⟨e | a, s⟩ <;> rcases o' with ⟨e' | a', s'⟩ <;> obtain ⟨hr, hs⟩ := h <;> cases hr
  · exact hg e s s' hs
  · exact ⟨rfl, hs⟩

end Same

theorem Sat.of_ok {o : Outcome ε σ α} (h : o.Sat ok err) {a : α} (ha : o.result = .ok a) :
    ok a o.state := by
  rcases o with ⟨e | b, s⟩
  · cases ha
  · cases ha; exact h

theorem Sat.of_error {o : Outcome ε σ α} (h : o.Sat ok err) {e : ε}
    (he : o.result = .error e) : err e o.state := by
  rcases o with ⟨d | b, s⟩
  · cases he; exact h
  · cases he

end Outcome

end ProtonDrive.FallibleSteps
