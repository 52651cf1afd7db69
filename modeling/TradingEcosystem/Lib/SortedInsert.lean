import Mathlib.Data.List.Sort
import Mathlib.Data.List.Nodup

/-!
# Insertion into a Sorted List

`List.orderedInsert r a l` puts `a` in front of the first element it strictly precedes.  With
`r` a strict order this is insertion behind every element of the same rank, which is how a
queue with priorities serves equal priorities first come, first served.
-/

namespace Lib.SortedInsert

variable {α β : Type*} {r : α → α → Prop} [DecidableRel r]

/-- Insertion splits the list: nothing before the new element is preceded by it. -/
theorem orderedInsert_split (a : α) (l : List α) :
    ∃ L R, l = L ++ R ∧ l.orderedInsert r a = L ++ a :: R ∧ (∀ x ∈ L, ¬ r a x) ∧
      (∀ x ∈ R.head?, r a x) := by
  induction l with
  | nil => exact ⟨[], [], rfl, rfl, by simp, by simp⟩
  | cons b l ih =>
    by_cases hab : r a b
    · exact ⟨[], b :: l, rfl, by simp [hab], by simp, by simpa using hab⟩
    · obtain ⟨L, R, hl, hins, hL, hR⟩ := ih
      refine ⟨b :: L, R, by simp [hl], by simp [hab, hins], ?_, hR⟩
      intro x hx
      rcases List.mem_cons.mp hx with rfl | hx
      · exact hab
      · exact hL x hx

/-- A split with these two properties is where the new element goes. -/
theorem orderedInsert_append {a : α} {L R : List α} (hL : ∀ x ∈ L, ¬ r a x)
    (hR : ∀ x ∈ R.head?, r a x) : (L ++ R).orderedInsert r a = L ++ a :: R := by
  induction L with
  | nil =>
    cases R with
    | nil => rfl
    | cons y R =>
      have hy : r a y := hR y rfl
      simp [hy]
  | cons x L ih =>
    have hx : ¬ r a x := hL x (List.mem_cons_self ..)
    simp [hx, ih fun y hy => hL y (List.mem_cons_of_mem _ hy)]

/-- A sorted list stays sorted when `a` precedes what it is put in front of and follows the
elements it does not precede. -/
theorem pairwise_orderedInsert {s : α → α → Prop} {a : α} {l : List α} (hl : l.Pairwise s)
    (hbefore : ∀ x ∈ l, r a x → s a x) (hafter : ∀ x ∈ l, ¬ r a x → s x a)
    (htrans : ∀ x ∈ l, ∀ y ∈ l, r a x → s x y → r a y) :
    (l.orderedInsert r a).Pairwise s := by
  obtain ⟨L, R, rfl, hins, hL, hR⟩ := orderedInsert_split (r := r) a l
  rw [hins]
  rw [List.pairwise_append] at hl ⊢
  refine ⟨hl.1, ?_, ?_⟩
  · refine List.pairwise_cons.mpr ⟨?_, hl.2.1⟩
    intro y hy
    cases R with
    | nil => simp at hy
    | cons x R =>
      have hx : r a x := hR x rfl
      have hay : r a y := by
        rcases List.mem_cons.mp hy with rfl | hy'
        · exact hx
        · exact htrans x (by simp) y (by simp [hy']) hx ((List.pairwise_cons.mp hl.2.1).1 y hy')
      exact hbefore y (List.mem_append_right _ hy) hay
  · intro x hx y hy
    rcases List.mem_cons.mp hy with rfl | hy
    · exact hafter x (List.mem_append_left _ hx) (hL x hx)
    · exact hl.2.2 x hx y hy

/-- Two lists sorted by one strict order with the same elements are equal. -/
theorem eq_of_pairwise_of_mem_iff {s : α → α → Prop} {l l' : List α} (hl : l.Pairwise s)
    (hl' : l'.Pairwise s) (hirr : ∀ x ∈ l, ¬ s x x) (hasymm : ∀ x ∈ l, ∀ y ∈ l, s x y → ¬ s y x)
    (hmem : ∀ x, x ∈ l ↔ x ∈ l') : l = l' := by
  have hnd : l.Nodup := hl.imp_of_mem (fun {x y} hx _ hxy heq => hirr x hx (by rwa [← heq] at hxy))
  have hnd' : l'.Nodup := hl'.imp_of_mem
    (fun {x y} hx _ hxy heq => hirr x ((hmem x).mpr hx) (by rwa [← heq] at hxy))
  have hperm : l.Perm l' := (List.perm_ext_iff_of_nodup hnd hnd').mpr hmem
  have hantisymm : ∀ x y, x ∈ l → y ∈ l' → s x y → s y x → x = y := fun x y hx hy hxy hyx =>
    absurd hyx (hasymm x hx y ((hmem y).mpr hy) hxy)
  exact hperm.eq_of_pairwise hantisymm hl hl'

end Lib.SortedInsert
