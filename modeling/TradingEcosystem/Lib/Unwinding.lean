import TradingEcosystem.Lib.Runs

/-!
# Two Runs Seen by One Observer

An observer sees `view s` of a state.  Some inputs are the observer's (`relevant`).  When those
change the view in a way the view decides, and the others leave it, two runs with the same
relevant inputs look the same to the observer.

- `Isolated` : the two conditions, under an invariant
- `Isolated.run_filter` : the observer cannot tell a run from the run of the relevant inputs alone
- `Isolated.view_eq` : two runs that go through
- `Isolated.isPrefix_or_isPrefix` : two runs that may stop early, and what was put out until then
-/

namespace Lib.Unwinding

open Lib.Runs

universe u

variable {σ π : Type u} {α β ε : Type*} {step : σ → α → Except ε σ}

/-- Computations that agree up to a view still do so after a continuation that the view decides. -/
theorem map_bind_congr {σ' π' τ : Type u} {x y : Except ε σ'} {f g : σ' → Except ε σ}
    {p : σ' → π'} {q : σ → τ} (h : x.map p = y.map p)
    (hfg : ∀ a b, p a = p b → (f a).map q = (g b).map q) :
    (x >>= f).map q = (y >>= g).map q := by
  cases x with
  | error fault =>
    cases y with
    | error fault' =>
      cases h
      rfl
    | ok b => cases h
  | ok a =>
    cases y with
    | error fault' => cases h
    | ok b => exact hfg a b (Except.ok.inj h)

/-- The inputs that are not relevant leave the view; the relevant ones change it, or fail, as the
view alone says. -/
structure Isolated (step : σ → α → Except ε σ) (view : σ → π) (relevant : α → Bool)
    (I : σ → Prop) : Prop where
  invariant : ∀ s x s', I s → step s x = .ok s' → I s'
  decided : ∀ s s' x, relevant x = true → view s = view s' →
    (step s x).map view = (step s' x).map view
  frame : ∀ s x s', I s → relevant x = false → step s x = .ok s' → view s' = view s

/-- The state a run ends in, or stops in when a step fails. -/
def lastState (step : σ → α → Except ε σ) : σ → List α → σ
  | s, [] => s
  | s, x :: xs =>
    match step s x with
    | .ok s' => lastState step s' xs
    | .error _ => s

/-- Some first inputs lead to the last state. -/
theorem exists_prefix_lastState (step : σ → α → Except ε σ) (xs : List α) :
    ∀ s, ∃ ys, ys <+: xs ∧ ys.foldlM step s = .ok (lastState step s xs) := by
  induction xs with
  | nil =>
    intro s
    exact ⟨[], List.prefix_refl _, rfl⟩
  | cons x xs ih =>
    intro s
    unfold lastState
    cases hstep : step s x with
    | error fault => exact ⟨[], List.nil_prefix, rfl⟩
    | ok s' =>
      obtain ⟨ys, hys, hrun⟩ := ih s'
      exact ⟨x :: ys, List.cons_prefix_cons.mpr ⟨rfl, hys⟩,
        foldlM_cons_eq_ok.mpr ⟨s', hstep, hrun⟩⟩

namespace Isolated

variable {view : σ → π} {relevant : α → Bool} {I : σ → Prop}

/-- **The observer cannot tell a run from the run of the relevant inputs alone**; induction on the
inputs. -/
theorem run_filter (h : Isolated step view relevant I) {xs : List α} :
    ∀ {s s' s₁ : σ}, I s → view s = view s' → xs.foldlM step s = .ok s₁ →
      ∃ s₁', (xs.filter relevant).foldlM step s' = .ok s₁' ∧ view s₁ = view s₁' := by
  induction xs with
  | nil =>
    intro s s' s₁ _ hview hrun
    obtain rfl := Except.ok.inj hrun
    exact ⟨s', rfl, hview⟩
  | cons x xs ih =>
    intro s s' s₁ hI hview hrun
    obtain ⟨s₂, hstep, hrest⟩ := foldlM_cons_eq_ok.mp hrun
    have hI₂ := h.invariant s x s₂ hI hstep
    cases hx : relevant x with
    | true =>
      -- both runs take the step
      have hdecided := h.decided s s' x hx hview
      rw [hstep] at hdecided
      cases hstep' : step s' x with
      | error fault =>
        rw [hstep'] at hdecided
        cases hdecided
      | ok s₂' =>
        rw [hstep'] at hdecided
        obtain ⟨s₁', hrun', hview'⟩ := ih hI₂ (Except.ok.inj hdecided) hrest
        rw [List.filter_cons_of_pos hx]
        exact ⟨s₁', foldlM_cons_eq_ok.mpr ⟨s₂', hstep', hrun'⟩, hview'⟩
    | false =>
      rw [List.filter_cons_of_neg (by simp [hx])]
      exact ih hI₂ ((h.frame s x s₂ hI hx hstep).trans hview) hrest

/-- **Two runs with the same relevant inputs end in states that look the same.** -/
theorem view_eq (h : Isolated step view relevant I) {xs xs' : List α} {s s₁ s₂ : σ} (hI : I s)
    (hxs : xs.filter relevant = xs'.filter relevant) (h₁ : xs.foldlM step s = .ok s₁)
    (h₂ : xs'.foldlM step s = .ok s₂) : view s₁ = view s₂ := by
  obtain ⟨s₁', hrun₁, hview₁⟩ := h.run_filter hI rfl h₁
  obtain ⟨s₂', hrun₂, hview₂⟩ := h.run_filter hI rfl h₂
  rw [hxs] at hrun₁
  obtain rfl := Except.ok.inj (hrun₁.symm.trans hrun₂)
  exact hview₁.trans hview₂.symm

/-- **One of two runs with the same relevant inputs has put out what the other has, and perhaps
more**, also when a fault stops them early.  `out` only ever grows. -/
theorem isPrefix_or_isPrefix (h : Isolated step view relevant I) (out : π → List β)
    (hout : ∀ s x s', step s x = .ok s' → out (view s) <+: out (view s')) {xs xs' : List α}
    {s : σ} (hI : I s) (hxs : xs.filter relevant = xs'.filter relevant) :
    out (view (lastState step s xs)) <+: out (view (lastState step s xs')) ∨
      out (view (lastState step s xs')) <+: out (view (lastState step s xs)) := by
  have hgrows : ∀ {zs : List α} {a b : σ}, zs.foldlM step a = .ok b →
      out (view a) <+: out (view b) := fun {zs a b} hrun =>
    invariant_of_step (I := fun b => out (view a) <+: out (view b))
      (fun _ x _ hb hstep => hb.trans (hout _ x _ hstep)) (List.prefix_refl _) hrun
  -- each run is, to the observer, a run of some first relevant inputs
  have hreduced : ∀ xs : List α, ∃ ys, ys <+: xs.filter relevant ∧ ∃ a,
      ys.foldlM step s = .ok a ∧ view (lastState step s xs) = view a := by
    intro xs
    obtain ⟨ys, hys, hrun⟩ := exists_prefix_lastState step xs s
    obtain ⟨a, hrun', hview⟩ := h.run_filter hI rfl hrun
    exact ⟨ys.filter relevant, hys.filter relevant, a, hrun', hview⟩
  obtain ⟨ys, hys, a, ha, hview⟩ := hreduced xs
  obtain ⟨ys', hys', a', ha', hview'⟩ := hreduced xs'
  rw [hxs] at hys
  rw [hview, hview']
  rcases List.prefix_or_prefix_of_prefix hys hys' with ⟨zs, rfl⟩ | ⟨zs, rfl⟩
  · obtain ⟨b, hb, hrest⟩ := foldlM_append_eq_ok.mp ha'
    obtain rfl := Except.ok.inj (ha.symm.trans hb)
    exact .inl (hgrows hrest)
  · obtain ⟨b, hb, hrest⟩ := foldlM_append_eq_ok.mp ha
    obtain rfl := Except.ok.inj (ha'.symm.trans hb)
    exact .inr (hgrows hrest)

end Isolated

end Lib.Unwinding
