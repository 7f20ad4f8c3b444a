import ProtonDrive.Programs
import Mathlib.Logic.Function.Basic
import Mathlib.Tactic.SplitIfs

/-!
# Programs on a shared state

Any number of threads run programs against one state, query by query and in any order. The
queries may be answered by different handlers, and the state may be disturbed in between. A
contract that every handler keeps, also for the threads that are not asking, and that every
disturbance leaves alone is kept in every interleaving: each program ends as its weakest
precondition promises, whatever the others do.
-/

namespace ProtonDrive.SharedPrograms
open FallibleSteps Programs

variable {ε σ Q α B T J : Type} {R : Q → Type}

/-- How a query is answered. -/
abbrev Handler (σ Q : Type) (R : Q → Type) := (q : Q) → σ → R q × σ

/-- The state the threads share, with the job of each thread and what remains of its program. -/
structure State (T J ε σ Q : Type) (R : Q → Type) (α : Type) where
  shared : σ
  threads : T → Option (J × Prog ε Q R α)

namespace State

def opened (x : σ) : State T J ε σ Q R α := ⟨x, fun _ => none⟩

/-- The thread has nothing left to ask. -/
def Idle (s : State T J ε σ Q R α) (t : T) : Prop := ∀ j p, s.threads t = some (j, p) → p.done

variable [DecidableEq T]

/-- A thread takes a job. -/
def start (body : J → Prog ε Q R α) (t : T) (j : J) (s : State T J ε σ Q R α) :
    State T J ε σ Q R α :=
  { s with threads := Function.update s.threads t (some (j, body j)) }

/-- A thread asks its next query. -/
def advance (h : Handler σ Q R) (t : T) (s : State T J ε σ Q R α) : State T J ε σ Q R α :=
  match s.threads t with
  | some (j, .ask q next) =>
    ⟨(h q s.shared).2, Function.update s.threads t (some (j, next (h q s.shared).1))⟩
  | _ => s

end State

/-- The interleavings of the threads, from the states in `init`. -/
inductive Reached [DecidableEq T] (body : J → Prog ε Q R α) (H : Handler σ Q R → Prop)
    (D : σ → σ → Prop) (init : σ → Prop) : State T J ε σ Q R α → Prop
  | opened {x : σ} (hx : init x) : Reached body H D init (.opened x)
  | start {s : State T J ε σ Q R α} (hs : Reached body H D init s) {t : T} (ht : s.Idle t)
      (j : J) : Reached body H D init (s.start body t j)
  | advance {s : State T J ε σ Q R α} (hs : Reached body H D init s) {h : Handler σ Q R}
      (hh : H h) (t : T) : Reached body H D init (s.advance h t)
  | disturb {s : State T J ε σ Q R α} (hs : Reached body H D init s) {x : σ}
      (hx : D s.shared x) : Reached body H D init { s with shared := x }

/-- The contract of one phase: what may be asked, and what is answered. -/
def promise (ok : Q → Prop) (A : (q : Q) → R q → Prop) : Contract Unit Q R where
  ok _ := ok
  next _ q r _ := A q r

/-- The handlers keep the contract for the thread that asks and for all others, and so do the
disturbances. -/
structure Shares (c : Contract B Q R) (H : Handler σ Q R → Prop) (D : σ → σ → Prop)
    (I : B → σ → Prop) : Prop where
  keeps : ∀ h, H h → Prog.Keeps c h I
  frame : ∀ h, H h → ∀ b b' s q, I b s → I b' s → c.ok b q → I b' (h q s).2
  disturbed : ∀ b s s', I b s → D s s' → I b s'

/-- One phase has no others to leave alone. -/
theorem shares_promise {ok : Q → Prop} {A : (q : Q) → R q → Prop} {H : Handler σ Q R → Prop}
    {D : σ → σ → Prop} {I : σ → Prop}
    (hH : ∀ h, H h → ∀ s q, I s → ok q → A q (h q s).1 ∧ I (h q s).2)
    (hD : ∀ s s', I s → D s s' → I s') : Shares (promise ok A) H D fun _ => I where
  keeps h hh _ s q hs hq := ⟨(), hH h hh s q hs hq⟩
  frame h hh _ _ s q hs _ hq := (hH h hh s q hs hq).2
  disturbed _ := hD

section Rules

variable {c : Contract B Q R} {post post' : α → B → Prop} {err err' : ε → B → Prop} {b : B}

theorem wp_mono {p : Prog ε Q R α} (h : p.wp c post err b)
    (hpost : ∀ a b, post a b → post' a b) (herr : ∀ e b, err e b → err' e b) :
    p.wp c post' err' b := by
  induction p generalizing b with
  | ret a => exact hpost a b h
  | fail e => exact herr e b h
  | ask q next ih => exact ⟨h.1, fun r b' hn => ih r (h.2 r b' hn)⟩

theorem wp_query {q : Q} {f : R q → Prog ε Q R α} (hok : c.ok b q)
    (h : ∀ r b', c.next b q r b' → (f r).wp c post err b') :
    (Prog.query q >>= f).wp c post err b := ⟨hok, h⟩

variable {ok : Q → Prop} {A : (q : Q) → R q → Prop}

/-- A run under a handler that keeps a promise asks nothing else. -/
theorem mem_trace_of_wp {p : Prog ε Q R α} {post : α → Unit → Prop} {err : ε → Unit → Prop}
    (hp : p.wp (promise ok A) post err ()) {h : Handler σ Q R} (hA : ∀ q s, A q (h q s).1) {s : σ}
    {q : Q} (hq : q ∈ p.trace h s) : ok q := by
  induction p generalizing s with
  | ret a => cases hq
  | fail e => cases hq
  | ask q' next ih =>
    rcases List.mem_cons.mp hq with rfl | hq
    · exact hp.1
    · exact ih _ (hp.2 _ () (hA q' s)) hq

/-- Two handlers that answer alike what a program may ask. -/
theorem run_alike {p : Prog ε Q R α} {post : α → Unit → Prop} {err : ε → Unit → Prop}
    (hp : p.wp (promise ok fun _ _ => True) post err ()) {τ : Type} (h : Handler σ Q R)
    (h' : Handler τ Q R) {I : σ → τ → Prop}
    (hI : ∀ q s t, ok q → I s t → (h q s).1 = (h' q t).1 ∧ I (h q s).2 (h' q t).2) {s : σ} {t : τ}
    (hs : I s t) :
    (p.run h s).result = (p.run h' t).result ∧ I (p.run h s).state (p.run h' t).state := by
  induction p generalizing s t with
  | ret a => exact ⟨rfl, hs⟩
  | fail e => exact ⟨rfl, hs⟩
  | ask q next ih =>
    obtain ⟨hr, hst⟩ := hI q s t hp.1 hs
    rw [Prog.run, Prog.run, ← hr]
    exact ih _ (hp.2 _ () trivial) hst

/-- A query under a promise: go on with whatever is promised. -/
theorem wp_promised {q : Q} {f : R q → Prog ε Q R α} {post : α → Unit → Prop}
    {err : ε → Unit → Prop} (hok : ok q)
    (h : ∀ r, A q r → (f r).wp (promise ok A) post err ()) :
    (Prog.query q >>= f).wp (promise ok A) post err () :=
  wp_query hok fun r _ hr => h r hr

/-- A query and its answer. -/
abbrev Exchange (Q : Type) (R : Q → Type) := (q : Q) × R q

end Rules

section Interleavings

variable [DecidableEq T] {body : J → Prog ε Q R α} {c : Contract B Q R}
  {H : Handler σ Q R → Prop} {D : σ → σ → Prop} {init : σ → Prop} {I : B → σ → Prop} {b₀ : J → B}
  {post : J → α → B → Prop} {err : J → ε → B → Prop} {s : State T J ε σ Q R α}

/-- Every job can be taken, and what remains of every program keeps its promise. -/
structure Inv (c : Contract B Q R) (I : B → σ → Prop) (b₀ : J → B) (post : J → α → B → Prop)
    (err : J → ε → B → Prop) (s : State T J ε σ Q R α) : Prop where
  ready : ∀ j, I (b₀ j) s.shared
  threads : ∀ t j p, s.threads t = some (j, p) →
    ∃ b, p.wp c (post j) (err j) b ∧ I b s.shared

omit [DecidableEq T] in
theorem inv_opened {x : σ} (hx : ∀ j, I (b₀ j) x) :
    Inv c I b₀ post err (.opened x : State T J ε σ Q R α) :=
  ⟨hx, fun _ _ _ h => nomatch h⟩

theorem Inv.start (h : Inv c I b₀ post err s)
    (hbody : ∀ j, (body j).wp c (post j) (err j) (b₀ j)) (t : T) (j : J) :
    Inv c I b₀ post err (s.start body t j) := by
  refine ⟨h.ready, ?_⟩
  intro u i p hu
  simp only [State.start, Function.update_apply] at hu
  split_ifs at hu with hut
  · cases hu
    exact ⟨b₀ j, hbody j, h.ready j⟩
  · exact h.threads u i p hu

theorem Inv.advance (h : Inv c I b₀ post err s) (hS : Shares c H D I) {f : Handler σ Q R}
    (hf : H f) (t : T) : Inv c I b₀ post err (s.advance f t) := by
  unfold State.advance
  split
  · rename_i j q next ht
    obtain ⟨b, ⟨hok, hnext⟩, hb⟩ := h.threads t j _ ht
    obtain ⟨b', hn, hb'⟩ := hS.keeps f hf b s.shared q hb hok
    refine ⟨fun i => hS.frame f hf b (b₀ i) s.shared q hb (h.ready i) hok, ?_⟩
    intro u i p hu
    simp only [Function.update_apply] at hu
    split_ifs at hu with hut
    · cases hu
      exact ⟨b', hnext _ _ hn, hb'⟩
    · obtain ⟨bu, hwp, hbu⟩ := h.threads u i p hu
      exact ⟨bu, hwp, hS.frame f hf b bu s.shared q hb hbu hok⟩
  · exact h

omit [DecidableEq T] in
theorem Inv.disturb (h : Inv c I b₀ post err s) (hS : Shares c H D I) {x : σ}
    (hx : D s.shared x) : Inv c I b₀ post err { s with shared := x } := by
  refine ⟨fun j => hS.disturbed _ _ _ (h.ready j) hx, ?_⟩
  intro t j p ht
  obtain ⟨b, hwp, hb⟩ := h.threads t j p ht
  exact ⟨b, hwp, hS.disturbed _ _ _ hb hx⟩

theorem inv_reached (hS : Shares c H D I) (hinit : ∀ x, init x → ∀ j, I (b₀ j) x)
    (hbody : ∀ j, (body j).wp c (post j) (err j) (b₀ j)) (h : Reached body H D init s) :
    Inv c I b₀ post err s := by
  induction h with
  | opened hx => exact inv_opened (hinit _ hx)
  | start hs ht j ih => exact ih.start hbody _ j
  | advance hs hf t ih => exact ih.advance hS hf t
  | disturb hs hx ih => exact ih.disturb hS hx

/-- However the threads interleave, a program that has returned has returned what was promised. -/
theorem Reached.returned (hS : Shares c H D I) (hinit : ∀ x, init x → ∀ j, I (b₀ j) x)
    (hbody : ∀ j, (body j).wp c (post j) (err j) (b₀ j)) (h : Reached body H D init s) {t : T}
    {j : J} {a : α} (ht : s.threads t = some (j, .ret a)) : ∃ b, post j a b ∧ I b s.shared :=
  (inv_reached hS hinit hbody h).threads t j _ ht

theorem Reached.failed (hS : Shares c H D I) (hinit : ∀ x, init x → ∀ j, I (b₀ j) x)
    (hbody : ∀ j, (body j).wp c (post j) (err j) (b₀ j)) (h : Reached body H D init s) {t : T}
    {j : J} {e : ε} (ht : s.threads t = some (j, .fail e)) : ∃ b, err j e b ∧ I b s.shared :=
  (inv_reached hS hinit hbody h).threads t j _ ht

/-- A program that has come to its end. -/
def ended : Except ε α → Prog ε Q R α
  | .ok a => .ret a
  | .error e => .fail e

/-- A thread that is left alone runs its program to the end. -/
theorem Reached.completes (h : Reached body H D init s) {f : Handler σ Q R} (hf : H f) {t : T}
    {j : J} {p : Prog ε Q R α} (ht : s.threads t = some (j, p)) :
    Reached body H D init ⟨(p.run f s.shared).state,
      Function.update s.threads t (some (j, ended (p.run f s.shared).result))⟩ := by
  induction p generalizing s with
  | ret a =>
    have hs : Function.update s.threads t (some (j, .ret a)) = s.threads := by
      rw [← ht, Function.update_eq_self]
    simpa only [Prog.run, ended, hs] using h
  | fail e =>
    have hs : Function.update s.threads t (some (j, .fail e)) = s.threads := by
      rw [← ht, Function.update_eq_self]
    simpa only [Prog.run, ended, hs] using h
  | ask q next ih =>
    have hstep : s.advance f t = ⟨(f q s.shared).2,
        Function.update s.threads t (some (j, next (f q s.shared).1))⟩ := by
      simp only [State.advance, ht]
    have hnext := h.advance hf t
    rw [hstep] at hnext
    have hend := ih _ hnext (Function.update_self ..)
    rwa [Function.update_idem] at hend

end Interleavings

end ProtonDrive.SharedPrograms
