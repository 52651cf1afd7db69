import Mathlib.Data.List.Nodup
import Mathlib.Logic.Function.Basic

/-!
# A Ring that Holds the End of a Log

Values written one after the other into `n` slots, each in the slot of its number modulo `n`.

- `Holds` : the slots hold the last `n` entries of the log
- `HoldsBehind` : they do but for slots that are being written
- `Holds.latest` : what a slot holds is the latest entry written to it
- `Holds.eq_iff` : an entry is still there exactly when its slot was not written again
-/

namespace Lib.RingLog

variable {T : Type*} {n : ℕ} {slots : ℕ → T} {log : List T} {k : ℕ} {v : T}

/-- Numbers less than `n` apart are in different slots. -/
theorem eq_of_mod_eq {i j : ℕ} (hij : i ≤ j) (hj : j < i + n) (h : i % n = j % n) : i = j := by
  have hdvd : n ∣ j - i := Nat.dvd_of_mod_eq_zero (Nat.sub_mod_eq_zero_of_mod_eq h.symm)
  have hzero : j - i = 0 := Nat.eq_zero_of_dvd_of_lt hdvd (by omega)
  omega

/-- The next slot of the ring. -/
theorem succ_mod (i : ℕ) : (i % n + 1) % n = (i + 1) % n := by
  simp [Nat.add_mod]

/-- The last `n` entries of the log are in their slots. -/
def Holds (n : ℕ) (slots : ℕ → T) (log : List T) : Prop :=
  ∀ k v, log[k]? = some v → log.length ≤ k + n → slots (k % n) = v

theorem holds_nil : Holds n slots [] := by
  intro k v hv
  simp at hv

/-- Writing the next entry overwrites the one `n` before it. -/
theorem Holds.snoc (h : Holds n slots log) (v : T) :
    Holds n (Function.update slots (log.length % n) v) (log ++ [v]) := by
  intro k w hw hlast
  rw [List.length_append, List.length_singleton] at hlast
  by_cases hk : k < log.length
  · -- an older entry is in another slot
    rw [List.getElem?_append_left hk] at hw
    have hne : k % n ≠ log.length % n := by
      intro heq
      have := eq_of_mod_eq (Nat.le_of_lt hk) (by omega) heq
      omega
    rw [Function.update_of_ne hne]
    exact h k w hw (by omega)
  · have hlt : k < (log ++ [v]).length := (List.getElem?_eq_some_iff.mp hw).1
    rw [List.length_append, List.length_singleton] at hlt
    have heq : k = log.length := by omega
    subst heq
    rw [List.getElem?_concat_length, Option.some.injEq] at hw
    rw [Function.update_self, hw]

/-! ## A slot that is being written -/

/-- The same, when the slots of `ahead` more entries may have been written already. -/
def HoldsBehind (ahead n : ℕ) (slots : ℕ → T) (log : List T) : Prop :=
  ∀ k v, log[k]? = some v → log.length + ahead ≤ k + n → slots (k % n) = v

/-- Whatever is put into the slot of the next entry leaves the others. -/
theorem Holds.stage (h : Holds n slots log) (w : T) :
    HoldsBehind 1 n (Function.update slots (log.length % n) w) log := by
  intro k v hv hlast
  have hk := (List.getElem?_eq_some_iff.mp hv).1
  have hne : k % n ≠ log.length % n := by
    intro heq
    have := eq_of_mod_eq (Nat.le_of_lt hk) (by omega) heq
    omega
  rw [Function.update_of_ne hne]
  exact h k v hv (by omega)

/-- The next entry is complete. -/
theorem HoldsBehind.snoc (h : HoldsBehind 1 n slots log) (v : T) :
    Holds n (Function.update slots (log.length % n) v) (log ++ [v]) := by
  intro k w hw hlast
  rw [List.length_append, List.length_singleton] at hlast
  by_cases hk : k < log.length
  · rw [List.getElem?_append_left hk] at hw
    have hne : k % n ≠ log.length % n := by
      intro heq
      have := eq_of_mod_eq (Nat.le_of_lt hk) (by omega) heq
      omega
    rw [Function.update_of_ne hne]
    exact h k w hw hlast
  · have hlt : k < (log ++ [v]).length := (List.getElem?_eq_some_iff.mp hw).1
    rw [List.length_append, List.length_singleton] at hlt
    obtain rfl : k = log.length := by omega
    rw [List.getElem?_concat_length, Option.some.injEq] at hw
    rw [Function.update_self, hw]

/-- The latest entry in the slot of entry `k`. -/
theorem Holds.latest (hn : 0 < n) (h : Holds n slots log) (hk : k < log.length) :
    ∃ j v, k ≤ j ∧ log.length ≤ j + n ∧ log[j]? = some v ∧ slots (k % n) = v := by
  obtain ⟨turns, hturns⟩ : ∃ turns, turns = (log.length - 1 - k) / n := ⟨_, rfl⟩
  have hdiv := Nat.div_add_mod (log.length - 1 - k) n
  have hmod := Nat.mod_lt (log.length - 1 - k) hn
  rw [← hturns] at hdiv
  have hj : k + n * turns < log.length := by omega
  have hslot : (k + n * turns) % n = k % n := Nat.add_mul_mod_self_left ..
  refine ⟨k + n * turns, log[k + n * turns], Nat.le_add_right .., by omega, by simp [hj], ?_⟩
  rw [← hslot]
  exact h _ _ (by simp [hj]) (by omega)

/-- **An entry is still in its slot** exactly when fewer than `n` entries were written since. -/
theorem Holds.eq_iff (hn : 0 < n) (h : Holds n slots log) (hdistinct : log.Nodup)
    (hv : log[k]? = some v) : slots (k % n) = v ↔ log.length ≤ k + n := by
  constructor
  · intro heq
    have hk : k < log.length := (List.getElem?_eq_some_iff.mp hv).1
    obtain ⟨j, w, _, hlast, hw, hslot⟩ := h.latest hn hk
    -- the slot holds entry `j`, so the two entries are the same
    have hsame : log[k]? = log[j]? := by rw [hv, hw, ← hslot, heq]
    have hkj : k = j := (List.getElem?_inj hk hdistinct).mp hsame
    omega
  · intro hlast
    exact h k v hv hlast

end Lib.RingLog
