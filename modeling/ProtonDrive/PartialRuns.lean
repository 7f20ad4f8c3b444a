import Mathlib.Init

/-!
# Runs of a machine that may stop

A machine takes one action at a time until an action leaves it without a state. What holds
throughout a run is compared with a condition on the actions it takes.
-/

namespace ProtonDrive.PartialRuns

variable {σ α : Type} {step : σ → α → Option σ} {P : σ → Prop} {Q : σ → α → Prop} {I : σ → Prop}
  {s : σ}

/-- The property holds in every state of the run. -/
def Always (step : σ → α → Option σ) (P : σ → Prop) : σ → List α → Prop
  | s, [] => P s
  | s, a :: as => P s ∧ ∀ s', step s a = some s' → Always step P s' as

/-- Every action of the run meets the condition in the state it is taken in. -/
def Along (step : σ → α → Option σ) (Q : σ → α → Prop) : σ → List α → Prop
  | _, [] => True
  | s, a :: as => Q s a ∧ ∀ s', step s a = some s' → Along step Q s' as

/-- Some action of the run meets the condition in the state it is taken in. -/
def Sometime (step : σ → α → Option σ) (Q : σ → α → Prop) : σ → List α → Prop
  | _, [] => False
  | s, a :: as => Q s a ∨ ∃ s', step s a = some s' ∧ Sometime step Q s' as

/-- Every action that meets the first condition comes before one that meets the second. -/
def Followed (step : σ → α → Option σ) (W R : σ → α → Prop) : σ → List α → Prop
  | _, [] => True
  | s, a :: as => ∀ s', step s a = some s' →
    (W s a → Sometime step R s' as) ∧ Followed step W R s' as

theorem Always.head {as : List α} (h : Always step P s as) : P s := by
  cases as with
  | nil => exact h
  | cons a as => exact h.1

theorem Always.last {as : List α} {s' : σ} (h : Always step P s as)
    (hr : as.foldlM step s = some s') : P s' := by
  induction as generalizing s with
  | nil =>
    cases hr
    exact h
  | cons a as ih =>
    obtain ⟨s₁, hs, hr⟩ := Option.bind_eq_some_iff.mp hr
    exact ih (h.2 s₁ hs) hr

theorem Along.cons {a : α} {as : List α} {s' : σ} (hq : Q s a) (hs : step s a = some s')
    (h : Along step Q s' as) : Along step Q s (a :: as) := by
  refine ⟨hq, fun s'' hs' => ?_⟩
  rw [hs] at hs'
  cases hs'
  exact h

theorem Along.and {Q' : σ → α → Prop} {as : List α} (h : Along step Q s as)
    (h' : Along step Q' s as) : Along step (fun s a => Q s a ∧ Q' s a) s as := by
  induction as generalizing s with
  | nil => trivial
  | cons a as ih => exact ⟨⟨h.1, h'.1⟩, fun s' hs => ih (h.2 s' hs) (h'.2 s' hs)⟩

/-- A condition on the actions alone is met along every run of such actions. -/
theorem along_of_forall {as : List α} (h : ∀ a ∈ as, ∀ s, Q s a) : Along step Q s as := by
  induction as generalizing s with
  | nil => trivial
  | cons a as ih =>
    exact ⟨h a List.mem_cons_self s, fun s' _ => ih fun b hb => h b (List.mem_cons_of_mem a hb)⟩

/-- An invariant that holds as long as the actions meet the condition. -/
theorem always_of_along (hP : ∀ s, I s → P s)
    (hI : ∀ s a s', I s → Q s a → step s a = some s' → I s') (hi : I s) {as : List α}
    (h : Along step Q s as) : Always step P s as := by
  induction as generalizing s with
  | nil => exact hP s hi
  | cons a as ih => exact ⟨hP s hi, fun s' hs => ih (hI s a s' hi h.1 hs) (h.2 s' hs)⟩

/-- A condition that implies another one as long as it is met itself. -/
theorem Along.imp {Q' : σ → α → Prop} (hI : ∀ s a s', I s → Q s a → step s a = some s' → I s')
    (hQ : ∀ s a, I s → Q s a → Q' s a) (hi : I s) {as : List α} (h : Along step Q s as) :
    Along step Q' s as := by
  induction as generalizing s with
  | nil => trivial
  | cons a as ih =>
    exact ⟨hQ s a hi h.1, fun s' hs => ih (hI s a s' hi h.1 hs) (h.2 s' hs)⟩

/-- A condition that says which actions keep a property says which runs do. -/
theorem always_iff_along (hI : ∀ s a s', I s → step s a = some s' → I s')
    (hQ : ∀ s a, I s → P s → (Q s a ↔ ∀ s', step s a = some s' → P s')) (hi : I s) (hp : P s)
    (as : List α) : Always step P s as ↔ Along step Q s as := by
  induction as generalizing s with
  | nil => exact iff_of_true hp trivial
  | cons a as ih =>
    constructor
    · rintro ⟨-, h⟩
      refine ⟨(hQ s a hi hp).mpr fun s' hs => (h s' hs).head, fun s' hs => ?_⟩
      exact (ih (hI s a s' hi hs) (h s' hs).head).mp (h s' hs)
    · rintro ⟨hq, h⟩
      refine ⟨hp, fun s' hs => ?_⟩
      exact (ih (hI s a s' hi hs) ((hQ s a hi hp).mp hq s' hs)).mpr (h s' hs)

/-- What is right after an action that sets it right, and not after one that sets it wrong: how the
rest of the run has to go for it to be right in the end. -/
theorem followed_cons {W R : σ → α → Prop} {right right' : Prop} {a : α} {as : List α} {s' : σ}
    (hs : step s a = some s') (hR : R s a → right') (hW : W s a → ¬R s a ∧ ¬right')
    (hkeep : ¬R s a → ¬W s a → (right' ↔ right)) :
    (Followed step W R s (a :: as) ∧ (right ∨ Sometime step R s (a :: as))) ↔
      (Followed step W R s' as ∧ (right' ∨ Sometime step R s' as)) := by
  have hfollowed : Followed step W R s (a :: as) ↔
      (W s a → Sometime step R s' as) ∧ Followed step W R s' as := by
    constructor
    · exact fun h => h s' hs
    · intro h s'' hs'
      cases hs.symm.trans hs'
      exact h
  have hsometime : Sometime step R s (a :: as) ↔ R s a ∨ Sometime step R s' as := by
    refine or_congr_right ⟨?_, fun h => ⟨s', hs, h⟩⟩
    rintro ⟨s'', hs', h⟩
    cases hs.symm.trans hs'
    exact h
  rw [hfollowed, hsometime]
  by_cases hr : R s a
  · have hno : ¬W s a := fun h => (hW h).1 hr
    have hright : right' := hR hr
    simp [hr, hno, hright]
  · by_cases hw : W s a
    · -- only a later action can set it right
      have hwrong : ¬right' := (hW hw).2
      simp only [hr, hw, hwrong, true_implies, false_or]
      exact ⟨fun h => ⟨h.1.2, h.1.1⟩, fun h => ⟨⟨h.2, h.1⟩, .inr h.2⟩⟩
    · have hsame : right' ↔ right := hkeep hr hw
      simp [hr, hw, hsame]

section Accounts

variable {β : Type} {due : σ → List β} {adds : α → List β} {ok : α → Prop}

theorem foldlM_invariant (hI : ∀ s a s', I s → ok a → step s a = some s' → I s') {as : List α}
    {s' : σ} (hok : ∀ a ∈ as, ok a) (hi : I s) (hr : as.foldlM step s = some s') : I s' := by
  induction as generalizing s with
  | nil =>
    cases hr
    exact hi
  | cons a as ih =>
    obtain ⟨s₁, hs, hr⟩ := Option.bind_eq_some_iff.mp hr
    have hi₁ : I s₁ := hI s a s₁ hi (hok a List.mem_cons_self) hs
    exact ih (fun b hb => hok b (List.mem_cons_of_mem a hb)) hi₁ hr

/-- What is due grows by no more than the actions add; it adds up in exactly the runs whose every
action loses nothing. -/
theorem due_run (hI : ∀ s a s', I s → ok a → step s a = some s' → I s')
    (hsub : ∀ s a s', I s → ok a → step s a = some s' → (due s').Sublist (due s ++ adds a))
    (heq : ∀ s a s', I s → ok a → step s a = some s' → (due s' = due s ++ adds a ↔ Q s a))
    {as : List α} {s' : σ} (hok : ∀ a ∈ as, ok a) (hi : I s) (hr : as.foldlM step s = some s') :
    (due s').Sublist (due s ++ as.flatMap adds) ∧
      (due s' = due s ++ as.flatMap adds ↔ Along step Q s as) := by
  induction as generalizing s with
  | nil =>
    cases hr
    simp [Along]
  | cons a as ih =>
    obtain ⟨s₁, hs, hr⟩ := Option.bind_eq_some_iff.mp hr
    have ha : ok a := hok a List.mem_cons_self
    obtain ⟨hrest, hiff⟩ := ih (fun b hb => hok b (List.mem_cons_of_mem a hb)) (hI s a s₁ hi ha hs)
      hr
    have hfirst : (due s₁ ++ as.flatMap adds).Sublist (due s ++ (a :: as).flatMap adds) := by
      rw [List.flatMap_cons, ← List.append_assoc]
      exact (hsub s a s₁ hi ha hs).append_right _
    refine ⟨hrest.trans hfirst, ?_⟩
    have hsplit : due s' = due s ++ (a :: as).flatMap adds ↔
        due s₁ = due s ++ adds a ∧ due s' = due s₁ ++ as.flatMap adds := by
      rw [List.flatMap_cons, ← List.append_assoc]
      constructor
      · intro h
        -- nothing fits strictly between equal ends
        have hall : due s₁ ++ as.flatMap adds = due s ++ adds a ++ as.flatMap adds := by
          rw [List.flatMap_cons, ← List.append_assoc] at hfirst
          exact hfirst.eq_of_length_le (h ▸ hrest).length_le
        exact ⟨List.append_cancel_right hall, h.trans hall.symm⟩
      · rintro ⟨h, h'⟩
        rw [h', h]
    rw [hsplit, heq s a s₁ hi ha hs, hiff]
    constructor
    · rintro ⟨hq, h⟩
      exact .cons hq hs h
    · rintro ⟨hq, h⟩
      exact ⟨hq, h s₁ hs⟩

end Accounts

end ProtonDrive.PartialRuns
