import Mathlib.Algebra.BigOperators.Group.Finset.Piecewise
import Mathlib.Algebra.BigOperators.Group.List.Basic
import Mathlib.Tactic.Abel

/-!
# Accounts of a Ledger

Entries, each in the account of its owner.  An entry adds an amount to the account or takes it off,
and every amount added somewhere was taken off somewhere.

- `balance` : what the entries of an owner come to
- `sum_balance` : the accounts together come to all the entries
- `DoubleEntry` : the entries added and the entries taken off have the same amounts
- `DoubleEntry.sum_balance` : then the accounts together come to nothing
-/

namespace Lib.Ledger

variable {ι α β M : Type*} [DecidableEq ι]

section balance

variable [AddCommMonoid M] {owner : α → ι} {amount : α → M} {entries : List α}

/-- The account of an owner. -/
def account (owner : α → ι) (entries : List α) (i : ι) : List α :=
  entries.filter fun a => decide (owner a = i)

theorem mem_account {a : α} {i : ι} : a ∈ account owner entries i ↔ a ∈ entries ∧ owner a = i := by
  unfold account
  rw [List.mem_filter, decide_eq_true_iff]

/-- What the entries of an owner come to. -/
def balance (owner : α → ι) (amount : α → M) (entries : List α) (i : ι) : M :=
  ((account owner entries i).map amount).sum

theorem balance_cons (a : α) (i : ι) :
    balance owner amount (a :: entries) i =
      (if owner a = i then amount a else 0) + balance owner amount entries i := by
  unfold balance account
  rw [List.filter_cons]
  by_cases hi : owner a = i
  · rw [if_pos hi, if_pos (by simp [hi]), List.map_cons, List.sum_cons]
  · rw [if_neg hi, if_neg (by simp [hi]), zero_add]

/-- **The accounts together come to all the entries**; induction on the entries. -/
theorem sum_balance {owners : Finset ι} (howners : ∀ a ∈ entries, owner a ∈ owners) :
    ∑ i ∈ owners, balance owner amount entries i = (entries.map amount).sum := by
  induction entries with
  | nil => simp [balance, account]
  | cons a entries ih =>
    -- the first entry is in exactly one of the accounts
    have hfirst : ∑ i ∈ owners, (if owner a = i then amount a else 0) = amount a := by
      rw [Finset.sum_ite_eq, if_pos (howners a (List.mem_cons_self ..))]
    simp only [balance_cons]
    rw [Finset.sum_add_distrib, hfirst, ih fun b hb => howners b (List.mem_cons_of_mem _ hb),
      List.map_cons, List.sum_cons]

end balance

section doubleEntry

variable [AddCommGroup M] {plus : α → Bool} {terms : α → β} {value : β → M} {entries : List α}

/-- The entries added and the entries taken off are on the same terms. -/
def DoubleEntry (plus : α → Bool) (terms : α → β) (entries : List α) : Prop :=
  ((entries.filter plus).map terms).Perm ((entries.filter fun a => !plus a).map terms)

/-- What an entry does to its account. -/
def signed (plus : α → Bool) (terms : α → β) (value : β → M) (a : α) : M :=
  if plus a then value (terms a) else -value (terms a)

/-- What is added and what is taken off. -/
theorem sum_signed :
    (entries.map (signed plus terms value)).sum =
      (((entries.filter plus).map terms).map value).sum -
        (((entries.filter fun a => !plus a).map terms).map value).sum := by
  induction entries with
  | nil => simp
  | cons a entries ih =>
    rw [List.map_cons, List.sum_cons, ih, List.filter_cons, List.filter_cons]
    cases hplus : plus a with
    | true =>
      simp [signed, hplus]
      abel
    | false =>
      simp [signed, hplus]
      abel

theorem DoubleEntry.sum_signed (h : DoubleEntry plus terms entries) (value : β → M) :
    (entries.map (signed plus terms value)).sum = 0 := by
  rw [Ledger.sum_signed, (h.map value).sum_eq, sub_self]

/-- **The accounts together come to nothing.** -/
theorem DoubleEntry.sum_balance {owner : α → ι} {owners : Finset ι}
    (h : DoubleEntry plus terms entries) (value : β → M)
    (howners : ∀ a ∈ entries, owner a ∈ owners) :
    ∑ i ∈ owners, balance owner (signed plus terms value) entries i = 0 := by
  rw [Ledger.sum_balance howners, h.sum_signed value]

theorem DoubleEntry.nil : DoubleEntry plus terms [] := List.Perm.refl _

theorem DoubleEntry.append {entries' : List α} (h : DoubleEntry plus terms entries)
    (h' : DoubleEntry plus terms entries') : DoubleEntry plus terms (entries ++ entries') := by
  unfold DoubleEntry at *
  rw [List.filter_append, List.filter_append, List.map_append, List.map_append]
  exact List.Perm.append h h'

end doubleEntry

end Lib.Ledger
