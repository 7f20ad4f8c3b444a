import ProtonDrive.FallibleSteps

/-!
# Programs that ask one query at a time

A program returns, fails, or asks a query and goes on with the answer. Run against a handler
it is a fallible step on the handler's state, with a trace of what it asked. A contract says
which queries may be asked in a phase and which answers lead to which phase; the weakest
precondition of a program under a contract carries over to its runs, and it can be followed
query by query when programs interleave.
-/

namespace ProtonDrive.Programs
open FallibleSteps

inductive Prog (ε Q : Type) (R : Q → Type) (α : Type)
  | ret (a : α)
  | fail (e : ε)
  | ask (q : Q) (next : R q → Prog ε Q R α)

variable {ε ε' σ Q α β B : Type} {R : Q → Type}

namespace Prog

def bind : Prog ε Q R α → (α → Prog ε Q R β) → Prog ε Q R β
  | .ret a, f => f a
  | .fail e, _ => .fail e
  | .ask q next, f => .ask q fun r => (next r).bind f

instance : Monad (Prog ε Q R) where
  pure := .ret
  bind := .bind

def query (q : Q) : Prog ε Q R (R q) := .ask q .ret

/-- Handle an error; a success passes through. -/
def recover : Prog ε Q R α → (ε → Prog ε' Q R α) → Prog ε' Q R α
  | .ret a, _ => .ret a
  | .fail e, g => g e
  | .ask q next, g => .ask q fun r => (next r).recover g

def mapError (f : ε → ε') (p : Prog ε Q R α) : Prog ε' Q R α := p.recover fun e => .fail (f e)

/-- The program asks nothing more. -/
def done : Prog ε Q R α → Bool
  | .ask .. => false
  | _ => true

section Runs

variable (h : (q : Q) → σ → R q × σ)

/-- Every query goes to the handler. -/
def run : Prog ε Q R α → σ → Outcome ε σ α
  | .ret a, s => ⟨.ok a, s⟩
  | .fail e, s => ⟨.error e, s⟩
  | .ask q next, s => (next (h q s).1).run (h q s).2

/-- What a run asks, in order. -/
def trace : Prog ε Q R α → σ → List Q
  | .ret _, _ => []
  | .fail _, _ => []
  | .ask q next, s => q :: (next (h q s).1).trace (h q s).2

@[simp] theorem run_bind (p : Prog ε Q R α) (f : α → Prog ε Q R β) (s : σ) :
    (p >>= f).run h s = (p.run h s).andThen fun a s => (f a).run h s := by
  induction p generalizing s with
  | ret a => rfl
  | fail e => rfl
  | ask q next ih => exact ih (h q s).1 (h q s).2

@[simp] theorem run_recover (p : Prog ε Q R α) (g : ε → Prog ε Q R α) (s : σ) :
    (p.recover g).run h s = (p.run h s).recover fun e s => (g e).run h s := by
  induction p generalizing s with
  | ret a => rfl
  | fail e => rfl
  | ask q next ih => exact ih (h q s).1 (h q s).2

theorem run_mapError (f : ε → ε') (p : Prog ε Q R α) (s : σ) :
    (p.mapError f).run h s = match p.run h s with
      | ⟨.ok a, s⟩ => ⟨.ok a, s⟩
      | ⟨.error e, s⟩ => ⟨.error (f e), s⟩ := by
  induction p generalizing s with
  | ret a => rfl
  | fail e => rfl
  | ask q next ih => exact ih (h q s).1 (h q s).2

theorem trace_bind (p : Prog ε Q R α) (f : α → Prog ε Q R β) (s : σ) :
    (p >>= f).trace h s = p.trace h s ++ match p.run h s with
      | ⟨.ok a, s⟩ => (f a).trace h s
      | ⟨.error _, _⟩ => [] := by
  induction p generalizing s with
  | ret a => rfl
  | fail e => rfl
  | ask q next ih => exact congrArg (q :: ·) (ih (h q s).1 (h q s).2)

theorem trace_recover (p : Prog ε Q R α) (g : ε → Prog ε' Q R α) (s : σ) :
    (p.recover g).trace h s = p.trace h s ++ match p.run h s with
      | ⟨.ok _, _⟩ => []
      | ⟨.error e, s⟩ => (g e).trace h s := by
  induction p generalizing s with
  | ret a => rfl
  | fail e => rfl
  | ask q next ih => exact congrArg (q :: ·) (ih (h q s).1 (h q s).2)

/-- A run asks these queries and ends this way. -/
def Yields (p : Prog ε Q R α) (s : σ) (qs : List Q) (o : Outcome ε σ α) : Prop :=
  p.trace h s = qs ∧ p.run h s = o

variable {h}

theorem Yields.pure (a : α) (s : σ) :
    (Pure.pure a : Prog ε Q R α).Yields h s [] ⟨.ok a, s⟩ := ⟨rfl, rfl⟩

theorem Yields.ask {q : Q} {r : R q} {f : R q → Prog ε Q R α} {s t : σ} {qs : List Q}
    {o : Outcome ε σ α} (ha : h q s = (r, t)) (hf : (f r).Yields h t qs o) :
    (query q >>= f).Yields h s (q :: qs) o := by
  have hr : r = (h q s).1 := by rw [ha]
  have ht : t = (h q s).2 := by rw [ha]
  subst hr ht
  exact ⟨congrArg (q :: ·) hf.1, hf.2⟩

theorem Yields.bind {p : Prog ε Q R α} {f : α → Prog ε Q R β} {s t : σ} {a : α}
    {qs qs' : List Q} {o : Outcome ε σ β} (hp : p.Yields h s qs ⟨.ok a, t⟩)
    (hf : (f a).Yields h t qs' o) : (p >>= f).Yields h s (qs ++ qs') o := by
  induction p generalizing s qs with
  | ret b =>
    obtain ⟨rfl, hrun⟩ := hp
    cases hrun
    exact hf
  | fail e => cases hp.2
  | ask q next ih =>
    obtain ⟨rfl, hrun⟩ := hp
    obtain ⟨ht, hr⟩ := ih (h q s).1 ⟨rfl, hrun⟩
    exact ⟨congrArg (q :: ·) ht, hr⟩

theorem Yields.mapError {f : ε → ε'} {p : Prog ε Q R α} {s t : σ} {a : α} {qs : List Q}
    (hp : p.Yields h s qs ⟨.ok a, t⟩) : (p.mapError f).Yields h s qs ⟨.ok a, t⟩ := by
  induction p generalizing s qs with
  | ret b =>
    obtain ⟨rfl, hrun⟩ := hp
    cases hrun
    exact ⟨rfl, rfl⟩
  | fail e => cases hp.2
  | ask q next ih =>
    obtain ⟨rfl, hrun⟩ := hp
    obtain ⟨ht, hr⟩ := ih (h q s).1 ⟨rfl, hrun⟩
    exact ⟨congrArg (q :: ·) ht, hr⟩

end Runs

end Prog

/-- What a program may ask in a phase, and to which phases an answer can lead. -/
structure Contract (B Q : Type) (R : Q → Type) where
  ok : B → Q → Prop
  next : B → (q : Q) → R q → B → Prop

/-- The contract of phases that never change, each with the answers that it allows. -/
def Contract.fixed (A : B → (q : Q) → R q → Prop) : Contract B Q R where
  ok _ _ := True
  next b q r b' := b' = b ∧ A b q r

namespace Prog

variable (c : Contract B Q R)

/-- From the phase on, the program only asks what it may, whatever allowed answers it gets. -/
def wp : Prog ε Q R α → (α → B → Prop) → (ε → B → Prop) → B → Prop
  | .ret a, post, _, b => post a b
  | .fail e, _, err, b => err e b
  | .ask q next, post, err, b => c.ok b q ∧ ∀ r b', c.next b q r b' → (next r).wp post err b'

variable {c : Contract B Q R} {post post' : α → B → Prop} {err : ε → B → Prop}
  {err' : ε → B → Prop} {p : Prog ε Q R α} {b : B}

theorem wp_bind {f : α → Prog ε Q R β} {post : β → B → Prop} {mid : α → B → Prop}
    (h : p.wp c mid err b) (hf : ∀ a b, mid a b → (f a).wp c post err b) :
    (p >>= f).wp c post err b := by
  induction p generalizing b with
  | ret a => exact hf a b h
  | fail e => exact h
  | ask q next ih => exact ⟨h.1, fun r b' hn => ih r (h.2 r b' hn)⟩

theorem wp_recover {g : ε → Prog ε' Q R α} {err' : ε' → B → Prop} (h : p.wp c post err b)
    (hg : ∀ e b, err e b → (g e).wp c post err' b) : (p.recover g).wp c post err' b := by
  induction p generalizing b with
  | ret a => exact h
  | fail e => exact hg e b h
  | ask q next ih => exact ⟨h.1, fun r b' hn => ih r (h.2 r b' hn)⟩

/-- A handler that keeps the contract, for the states that `I` relates to a phase. -/
def Keeps (c : Contract B Q R) (h : (q : Q) → σ → R q × σ) (I : B → σ → Prop) : Prop :=
  ∀ b s q, I b s → c.ok b q → ∃ b', c.next b q (h q s).1 b' ∧ I b' (h q s).2

/-- What the weakest precondition promises holds at the end of a run. -/
theorem wp_run {h : (q : Q) → σ → R q × σ} {I : B → σ → Prop} (hk : Keeps c h I)
    (hp : p.wp c post err b) {s : σ} (hs : I b s) :
    (p.run h s).Sat (fun a s => ∃ b, post a b ∧ I b s) (fun e s => ∃ b, err e b ∧ I b s) := by
  induction p generalizing b s with
  | ret a => exact ⟨b, hp, hs⟩
  | fail e => exact ⟨b, hp, hs⟩
  | ask q next ih =>
    obtain ⟨b', hn, hs'⟩ := hk b s q hs hp.1
    exact ih (h q s).1 (hp.2 _ b' hn) hs'

end Prog

end ProtonDrive.Programs
