import Mathlib.Data.List.Basic

/-!
# Runs of a Fallible Step Function

A run is `List.foldlM` of a step function that may fail.  `Along step P` says that every step
the run takes starts in a state and on an input related by `P`.

- `invariant` : what each step preserves holds at the end of a run
- `exists_ok` : a run whose steps cannot fail goes through
- `ne_error_iff` : a run does not fail in one way, exactly when no step of it does
-/

namespace Lib.Runs

universe u

variable {σ : Type u} {α ε : Type*} {step : σ → α → Except ε σ} {P : σ → α → Prop}

/-- A computation that ended well, taken apart. -/
theorem bind_eq_ok_iff {β γ : Type u} {m : Except ε β} {f : β → Except ε γ} {c : γ} :
    (m >>= f) = .ok c ↔ ∃ b, m = .ok b ∧ f b = .ok c := by
  cases m with
  | error e =>
    constructor
    · intro h
      cases h
    · intro h
      obtain ⟨_, heq, _⟩ := h
      cases heq
  | ok b =>
    constructor
    · intro h
      exact ⟨b, rfl, h⟩
    · intro h
      obtain ⟨_, heq, h⟩ := h
      cases heq
      exact h

/-- A last step that cannot fail does not matter for how a computation fails. -/
theorem bind_ok_ne_error_iff {β γ : Type u} {m : Except ε β} {f : β → γ} {e : ε} :
    (m >>= fun b => .ok (f b)) ≠ .error e ↔ m ≠ .error e := by
  cases m with
  | error e' =>
    constructor
    · intro h heq
      apply h
      cases heq
      rfl
    · intro h heq
      apply h
      cases heq
      rfl
  | ok b =>
    constructor
    · intro _ heq
      cases heq
    · intro _ heq
      cases heq

/-- A run is its first step and the run after it. -/
theorem foldlM_cons_eq_ok {s s'' : σ} {x : α} {xs : List α} :
    (x :: xs).foldlM step s = .ok s'' ↔ ∃ s', step s x = .ok s' ∧ xs.foldlM step s' = .ok s'' := by
  rw [List.foldlM_cons]
  exact bind_eq_ok_iff

theorem foldlM_append_eq_ok {s s'' : σ} {xs ys : List α} :
    (xs ++ ys).foldlM step s = .ok s'' ↔
      ∃ s', xs.foldlM step s = .ok s' ∧ ys.foldlM step s' = .ok s'' := by
  rw [List.foldlM_append]
  exact bind_eq_ok_iff

/-- Every step of the run meets `P`. -/
def Along (step : σ → α → Except ε σ) (P : σ → α → Prop) : σ → List α → Prop
  | _, [] => True
  | s, x :: xs => P s x ∧ ∀ s', step s x = .ok s' → Along step P s' xs

theorem along_cons_of_ok {s s' : σ} {x : α} {xs : List α} (h : step s x = .ok s') :
    Along step P s (x :: xs) ↔ P s x ∧ Along step P s' xs := by
  constructor
  · intro hP
    exact ⟨hP.1, hP.2 s' h⟩
  · intro hP
    refine ⟨hP.1, fun s'' hs'' => ?_⟩
    rw [h] at hs''
    cases hs''
    exact hP.2

theorem along_cons_of_error {s : σ} {e : ε} {x : α} {xs : List α} (h : step s x = .error e) :
    Along step P s (x :: xs) ↔ P s x := by
  constructor
  · intro hP
    exact hP.1
  · intro hP
    refine ⟨hP, fun s' hs' => ?_⟩
    rw [h] at hs'
    cases hs'

instance [∀ s x, Decidable (P s x)] : ∀ (s : σ) (xs : List α), Decidable (Along step P s xs)
  | _, [] => isTrue trivial
  | s, x :: xs =>
    match h : step s x with
    | .ok s' =>
      have := instDecidableAlong s' xs
      decidable_of_iff _ (along_cons_of_ok h).symm
    | .error _ => decidable_of_iff _ (along_cons_of_error h).symm

theorem along_append {xs ys : List α} :
    ∀ {s s' : σ}, xs.foldlM step s = .ok s' →
      (Along step P s (xs ++ ys) ↔ Along step P s xs ∧ Along step P s' ys) := by
  induction xs with
  | nil =>
    intro s s' hrun
    cases hrun
    exact (and_iff_right trivial).symm
  | cons x xs ih =>
    intro s s' hrun
    obtain ⟨s₁, hs₁, hrest⟩ := foldlM_cons_eq_ok.mp hrun
    rw [List.cons_append, along_cons_of_ok hs₁, along_cons_of_ok hs₁, ih hrest, and_assoc]

theorem Along.mono {Q : σ → α → Prop} (h : ∀ s x, P s x → Q s x) {xs : List α} :
    ∀ {s : σ}, Along step P s xs → Along step Q s xs := by
  induction xs with
  | nil =>
    intro s _
    trivial
  | cons x xs ih =>
    intro s hP
    exact ⟨h s x hP.1, fun s' hs' => ih (hP.2 s' hs')⟩

/-- What every step of a run meets, every step of an initial part of it meets. -/
theorem Along.of_isPrefix {xs ys : List α} :
    ∀ {s : σ}, Along step P s ys → xs <+: ys → Along step P s xs := by
  induction xs generalizing ys with
  | nil =>
    intro s _ _
    trivial
  | cons x xs ih =>
    intro s h hpast
    obtain ⟨rest, rfl⟩ := hpast
    exact ⟨h.1, fun s' hs' => ih (h.2 s' hs') (List.prefix_append ..)⟩

/-- What is known of every input may be used at every step. -/
theorem Along.and_forall {Q : α → Prop} {xs : List α} (hQ : ∀ x ∈ xs, Q x) :
    ∀ {s : σ}, Along step P s xs → Along step (fun s x => P s x ∧ Q x) s xs := by
  induction xs with
  | nil =>
    intro s _
    trivial
  | cons x xs ih =>
    intro s hP
    obtain ⟨hx, hxs⟩ := List.forall_mem_cons.mp hQ
    exact ⟨⟨hP.1, hx⟩, fun s' hs' => ih hxs (hP.2 s' hs')⟩

theorem along_trivial {xs : List α} : ∀ {s : σ}, Along step (fun _ _ => True) s xs := by
  induction xs with
  | nil =>
    intro s
    trivial
  | cons x xs ih =>
    intro s
    exact ⟨trivial, fun _ _ => ih⟩

/-- **What every step preserves holds at the end of a run**; induction on the inputs. -/
theorem invariant {I : σ → Prop}
    (hstep : ∀ s x s', I s → P s x → step s x = .ok s' → I s') {xs : List α} :
    ∀ {s s' : σ}, I s → Along step P s xs → xs.foldlM step s = .ok s' → I s' := by
  induction xs with
  | nil =>
    intro s s' hI _ hrun
    cases hrun
    exact hI
  | cons x xs ih =>
    intro s s' hI hP hrun
    obtain ⟨s₁, hs₁, hrest⟩ := foldlM_cons_eq_ok.mp hrun
    exact ih (hstep s x s₁ hI hP.1 hs₁) (hP.2 s₁ hs₁) hrest

/-- An invariant of steps on any input. -/
theorem invariant_of_step {I : σ → Prop}
    (hstep : ∀ s x s', I s → step s x = .ok s' → I s') {xs : List α} {s s' : σ} (hI : I s)
    (hrun : xs.foldlM step s = .ok s') : I s' :=
  invariant (P := fun _ _ => True) (fun s x s' hI _ => hstep s x s' hI) hI along_trivial hrun

/-- **A run seen through a map** is a run of another machine, if each step is a step of it. -/
theorem simulates {τ : Type u} {step' : τ → α → Except ε τ} {g : σ → τ}
    (hstep : ∀ s x s', step s x = .ok s' → step' (g s) x = .ok (g s')) {xs : List α} :
    ∀ {s s' : σ}, xs.foldlM step s = .ok s' → xs.foldlM step' (g s) = .ok (g s') := by
  induction xs with
  | nil =>
    intro s s' hrun
    cases hrun
    rfl
  | cons x xs ih =>
    intro s s' hrun
    obtain ⟨s₁, hs₁, hrest⟩ := foldlM_cons_eq_ok.mp hrun
    exact foldlM_cons_eq_ok.mpr ⟨g s₁, hstep s x s₁ hs₁, ih hrest⟩

/-- **What a run made true, one of its steps made true**; induction on the inputs. -/
theorem exists_turning_step {Q : σ → Prop} {xs : List α} :
    ∀ {s s' : σ}, ¬ Q s → Q s' → xs.foldlM step s = .ok s' →
      ∃ before x after s₁ s₂, xs = before ++ x :: after ∧ before.foldlM step s = .ok s₁ ∧
        step s₁ x = .ok s₂ ∧ ¬ Q s₁ ∧ Q s₂ := by
  induction xs with
  | nil =>
    intro s s' hs hs' hrun
    cases hrun
    exact absurd hs' hs
  | cons x xs ih =>
    intro s s' hs hs' hrun
    obtain ⟨s₁, hs₁, hrest⟩ := foldlM_cons_eq_ok.mp hrun
    by_cases hQ : Q s₁
    · exact ⟨[], x, xs, s, s₁, rfl, rfl, hs₁, hs, hQ⟩
    · -- the step is a later one
      obtain ⟨before, y, after, s₂, s₃, hxs, hbefore, hy, hs₂, hs₃⟩ := ih hQ hs' hrest
      exact ⟨x :: before, y, after, s₂, s₃, congrArg (x :: ·) hxs,
        foldlM_cons_eq_ok.mpr ⟨s₁, hs₁, hbefore⟩, hy, hs₂, hs₃⟩

/-- What an invariant says of every state it says of every step of a run. -/
theorem along_of_invariant {I : σ → Prop} (hP : ∀ s x, I s → P s x)
    (hstep : ∀ s x s', I s → step s x = .ok s' → I s') {xs : List α} :
    ∀ {s : σ}, I s → Along step P s xs := by
  induction xs with
  | nil =>
    intro s _
    trivial
  | cons x xs ih =>
    intro s hI
    exact ⟨hP s x hI, fun s' hs' => ih (hstep s x s' hI hs')⟩

/-- Conditions that agree wherever an invariant holds agree along a run. -/
theorem along_congr {I : σ → Prop} {Q : σ → α → Prop} (hPQ : ∀ s x, I s → (P s x ↔ Q s x))
    (hstep : ∀ s x s', I s → step s x = .ok s' → I s') {xs : List α} :
    ∀ {s : σ}, I s → (Along step P s xs ↔ Along step Q s xs) := by
  induction xs with
  | nil =>
    intro s _
    exact Iff.rfl
  | cons x xs ih =>
    intro s hI
    exact and_congr (hPQ s x hI)
      (forall_congr' fun s' => forall_congr' fun hs' => ih (hstep s x s' hI hs'))

/-- **A run whose steps cannot fail goes through**, and what they preserve holds at its end. -/
theorem exists_ok {I : σ → Prop}
    (hstep : ∀ s x, I s → P s x → ∃ s', step s x = .ok s' ∧ I s') {xs : List α} :
    ∀ {s : σ}, I s → Along step P s xs → ∃ s', xs.foldlM step s = .ok s' ∧ I s' := by
  induction xs with
  | nil =>
    intro s hI _
    exact ⟨s, rfl, hI⟩
  | cons x xs ih =>
    intro s hI hP
    obtain ⟨s₁, hs₁, hI₁⟩ := hstep s x hI hP.1
    obtain ⟨s₂, hs₂, hI₂⟩ := ih hI₁ (hP.2 s₁ hs₁)
    exact ⟨s₂, foldlM_cons_eq_ok.mpr ⟨s₁, hs₁, hs₂⟩, hI₂⟩

/-- **A run fails only as its steps fail**; induction on the inputs. -/
theorem error_of_step {I : σ → Prop} {Q : ε → Prop}
    (hstep : ∀ s x s', I s → P s x → step s x = .ok s' → I s')
    (herror : ∀ s x e, I s → P s x → step s x = .error e → Q e) {xs : List α} {e : ε} :
    ∀ {s : σ}, I s → Along step P s xs → xs.foldlM step s = .error e → Q e := by
  induction xs with
  | nil =>
    intro s _ _ hrun
    cases hrun
  | cons x xs ih =>
    intro s hI hP hrun
    rw [List.foldlM_cons] at hrun
    cases hs : step s x with
    | error e' =>
      rw [hs] at hrun
      cases hrun
      exact herror s x _ hI hP.1 hs
    | ok s' =>
      rw [hs] at hrun
      exact ih (hstep s x s' hI hP.1 hs) (hP.2 s' hs) hrun

/-- A run fails in the way `e` exactly when one of its steps does. -/
theorem ne_error_iff {e : ε} (hstep : ∀ s x, step s x ≠ .error e ↔ P s x) {xs : List α} :
    ∀ {s : σ}, xs.foldlM step s ≠ .error e ↔ Along step P s xs := by
  induction xs with
  | nil =>
    intro s
    constructor
    · intro _
      trivial
    · intro _ h
      cases h
  | cons x xs ih =>
    intro s
    have hunfold : Along step P s (x :: xs) ↔
        step s x ≠ .error e ∧ ∀ s', step s x = .ok s' → xs.foldlM step s' ≠ .error e := by
      rw [hstep]
      constructor
      · intro h
        exact ⟨h.1, fun s' hs' => ih.mpr (h.2 s' hs')⟩
      · intro h
        exact ⟨h.1, fun s' hs' => ih.mp (h.2 s' hs')⟩
    rw [hunfold, List.foldlM_cons]
    cases step s x with
    | ok s' =>
      constructor
      · intro h
        refine ⟨(nomatch ·), fun s'' heq => ?_⟩
        cases heq
        exact h
      · intro h
        exact h.2 s' rfl
    | error e' =>
      constructor
      · intro h
        exact ⟨h, fun _ heq => (nomatch heq)⟩
      · intro h
        exact h.1

end Lib.Runs
