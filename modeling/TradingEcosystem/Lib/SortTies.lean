import Mathlib.Data.List.Rotate
import Mathlib.Data.List.Sort
import Mathlib.Order.Defs.LinearOrder

/-!
# Sorting with Ties

A sort by a key that promises nothing for equal keys may return any sorted permutation.

- `tieSort` : such a sort, which rotates a class of elements with equal keys
- `filter_tieSort` : the class, as this sort returns it
- `filter_eq_of_perm` : a class of equal elements is returned as it was, whatever the sort
-/

namespace Lib.SortTies

variable {α κ : Type*} [LinearOrder κ] (key : α → κ) (p : α → Bool)

/-- Sort by the key, after rotating the elements that satisfy `p`. -/
def tieSort (l : List α) : List α :=
  ((l.filter p).rotate 1 ++ l.filter fun a => !p a).mergeSort fun a b => decide (key a ≤ key b)

theorem tieSort_perm (l : List α) : (tieSort key p l).Perm l := by
  apply (List.mergeSort_perm ..).trans
  apply List.Perm.trans ?_ (List.filter_append_perm p l)
  exact (List.rotate_perm ..).append_right _

theorem tieSort_sorted (l : List α) :
    (tieSort key p l).Pairwise fun a b => key a ≤ key b := by
  apply List.Pairwise.imp (fun h => of_decide_eq_true h)
  apply List.pairwise_mergeSort
  · intro a b c hab hbc
    exact decide_eq_true ((of_decide_eq_true hab).trans (of_decide_eq_true hbc))
  · intro a b
    simpa using le_total (key a) (key b)

/-- A class with equal keys comes out rotated by one. -/
theorem filter_tieSort {l : List α} (htie : ∀ a ∈ l.filter p, ∀ b ∈ l.filter p, key a = key b) :
    (tieSort key p l).filter p = (l.filter p).rotate 1 := by
  -- the rotated class is sorted, and a merge sort keeps sorted sublists
  have hsorted : ((l.filter p).rotate 1).Pairwise fun a b => decide (key a ≤ key b) = true := by
    apply List.pairwise_of_forall_mem_list
    intro a ha b hb
    exact decide_eq_true (htie a (List.mem_rotate.mp ha) b (List.mem_rotate.mp hb)).le
  have hsub : ((l.filter p).rotate 1).Sublist (tieSort key p l) := by
    apply List.sublist_mergeSort _ _ hsorted (List.sublist_append_left ..)
    · intro a b c hab hbc
      exact decide_eq_true ((of_decide_eq_true hab).trans (of_decide_eq_true hbc))
    · intro a b
      simpa using le_total (key a) (key b)
  have hclass : ((l.filter p).rotate 1).filter p = (l.filter p).rotate 1 := by
    apply List.filter_eq_self.mpr
    intro a ha
    exact List.of_mem_filter (List.mem_rotate.mp ha)
  have hsub' := hsub.filter p
  rw [hclass] at hsub'
  apply Eq.symm
  apply hsub'.eq_of_length
  rw [List.length_rotate]
  exact ((tieSort_perm key p l).filter p).length_eq.symm

/-- Equal elements cannot be told apart. -/
theorem filter_eq_of_perm {l l' : List α} (hperm : l'.Perm l)
    (heq : ∀ a ∈ l.filter p, ∀ b ∈ l.filter p, a = b) : l'.filter p = l.filter p := by
  have hperm' : (l'.filter p).Perm (l.filter p) := hperm.filter p
  cases hl : l.filter p with
  | nil =>
    rw [hl] at hperm'
    exact hperm'.eq_nil
  | cons a as =>
    have hrep : l.filter p = List.replicate (l.filter p).length a := by
      apply List.eq_replicate_iff.mpr
      refine ⟨rfl, fun b hb => heq b hb a ?_⟩
      rw [hl]
      exact List.mem_cons_self ..
    rw [hrep] at hperm'
    rw [List.perm_replicate.mp hperm', ← hrep, hl]

/-- A class that no sort by the key disturbs holds equal elements only. -/
theorem eq_of_rotate_eq {l : List α} (hrotate : (l.filter p).rotate 1 = l.filter p) :
    ∀ a ∈ l.filter p, ∀ b ∈ l.filter p, a = b := by
  intro a ha b hb
  have : Nonempty α := ⟨a⟩
  obtain ⟨x, hx⟩ := List.rotate_one_eq_self_iff_eq_replicate.mp hrotate
  rw [hx] at ha hb
  rw [List.eq_of_mem_replicate ha, List.eq_of_mem_replicate hb]

end Lib.SortTies
