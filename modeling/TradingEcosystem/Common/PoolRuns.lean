import TradingEcosystem.Common.MemPool
import TradingEcosystem.Lib.Runs

/-!
# Runs of a Memory Pool

Any sequence of allocations and deallocations, and beside the pool the blocks its callers hold.

- `Held.Safe` : what callers may rely on between two calls
- `safe_run` : it holds as long as callers only give back what they hold
- `Tracks.outOfSpace_iff` : a pool runs out of space when its last block is taken
-/

namespace TradingEcosystem.MemPool

variable {T : Type}

/-- A call of one of the two operations. -/
inductive Call (T : Type) where
  | allocate (object : T)
  | deallocate (elem : ℕ)

/-- A pool, and the blocks that were returned by `allocate` and not given back. -/
structure Held (T : Type) where
  pool : MemPool T
  live : Finset ℕ

namespace Held

/-- The constructor looks at `store_[0]`, which an empty vector does not have. -/
def construct (num_elems : ℕ) (default : T) : Except Fault (Held T) :=
  if 0 < num_elems then .ok ⟨MemPool.new num_elems default, ∅⟩ else .error .outOfRange

def step (h : Held T) : Call T → Except Fault (Held T)
  | .allocate object => do
    let r ← h.pool.allocate object
    .ok ⟨r.2, insert r.1 h.live⟩
  | .deallocate elem => do
    let pool ← h.pool.deallocate elem
    .ok ⟨pool, h.live.erase elem⟩

def run (h : Held T) (calls : List (Call T)) : Except Fault (Held T) := calls.foldlM step h

/-- Only a live block is given back. -/
def FreesLive (h : Held T) : Call T → Prop
  | .allocate _ => True
  | .deallocate elem => elem ∈ h.live

instance (h : Held T) : DecidablePred h.FreesLive
  | .allocate _ => isTrue trivial
  | .deallocate _ => inferInstanceAs (Decidable (_ ∈ h.live))

/-- What callers may rely on between two calls, for a pool of `n` blocks. -/
structure Safe (n : ℕ) (h : Held T) : Prop where
  inUse : ∀ p, p < n → ((h.pool.store_ p).is_free_ = false ↔ p ∈ h.live)
  inPool : ∀ p ∈ h.live, p < n
  inRange : h.pool.next_free_index_ < n
  free : (h.pool.store_ h.pool.next_free_index_).is_free_ = true
  fresh : ∀ object p pool, h.pool.allocate object = .ok (p, pool) → p ∉ h.live
  /-- Neither does the ASSERT of `allocate` fire, nor does the search go on for ever. -/
  allocates : ∀ object fault, h.pool.allocate object = .error fault → fault = .outOfSpace
  /-- The ASSERTs of `deallocate` do not fire. -/
  deallocates : ∀ p ∈ h.live, ∃ pool, h.pool.deallocate p = .ok pool

/-! ## One call -/

/-- The live blocks are those in use. -/
structure Tracks (n : ℕ) (h : Held T) : Prop where
  wf : h.pool.WF
  size : h.pool.size = n
  used : h.pool.used = h.live

variable {n : ℕ} {h h' : Held T} {call : Call T}

theorem tracks_construct {default : T} (hstart : construct n default = .ok h) : Tracks n h := by
  unfold construct at hstart
  split at hstart
  · next hn =>
    cases hstart
    exact ⟨WF.new default hn, rfl, used_new n default⟩
  · cases hstart

/-- What a call does: an allocation takes one more block or reports that it was the last one. -/
theorem Tracks.step_cases (ht : Tracks n h) (hlive : h.FreesLive call) :
    (∃ h', h.step call = .ok h' ∧ Tracks n h' ∧
      ((∃ object p, call = .allocate object ∧ p ∉ h.live ∧ h'.live = insert p h.live) ∨
        ∃ p, call = .deallocate p ∧ p ∈ h.live ∧ h'.live = h.live.erase p)) ∨
    (h.step call = .error .outOfSpace ∧ (∃ object, call = .allocate object) ∧
      h.live.card + 1 = n) := by
  cases call with
  | allocate object =>
    rcases allocate_spec ht.wf object with ⟨p, pool, hrun, ha⟩ | ⟨herr, hcard⟩
    · refine .inl ⟨⟨pool, insert p h.live⟩, bind_eq_ok.mpr ⟨_, hrun, rfl⟩, ?_, .inl ?_⟩
      · exact ⟨ha.wf, ha.size.trans ht.size, by rw [ha.used, ht.used]⟩
      · exact ⟨object, p, rfl, ht.used ▸ ha.fresh, rfl⟩
    · refine .inr ⟨?_, ⟨object, rfl⟩, ?_⟩
      · show (h.pool.allocate object >>= _) = _
        rw [herr]
        rfl
      · rw [← ht.used, hcard, ht.size]
  | deallocate p =>
    obtain ⟨hrun, hwf, hused⟩ := deallocate_spec ht.wf (ht.used ▸ hlive : p ∈ h.pool.used)
    refine .inl ⟨⟨h.pool.setFree p true, h.live.erase p⟩, bind_eq_ok.mpr ⟨_, hrun, rfl⟩, ?_,
      .inr ⟨p, rfl, hlive, rfl⟩⟩
    exact ⟨hwf, ht.size, by rw [hused, ht.used]⟩

theorem Tracks.step (ht : Tracks n h) (hlive : h.FreesLive call) (hstep : h.step call = .ok h') :
    Tracks n h' := by
  rcases ht.step_cases hlive with ⟨h₁, hrun, ht₁, -⟩ | ⟨herr, -⟩
  · obtain rfl := Except.ok.inj (hrun.symm.trans hstep)
    exact ht₁
  · cases herr.symm.trans hstep

theorem Tracks.safe (ht : Tracks n h) : Safe n h where
  inUse := by
    intro p hp
    rw [← ht.used, mem_used, ht.size]
    exact (and_iff_right hp).symm
  inPool := by
    intro p hp
    rw [← ht.used, mem_used, ht.size] at hp
    exact hp.1
  inRange := ht.size ▸ ht.wf.1
  free := ht.wf.2
  fresh := by
    intro object p pool hrun
    rcases allocate_spec ht.wf object with ⟨p', pool', hrun', ha⟩ | ⟨herr, -⟩
    · cases hrun.symm.trans hrun'
      rw [← ht.used]
      exact ha.fresh
    · cases herr.symm.trans hrun
  allocates := by
    intro object fault hrun
    rcases allocate_spec ht.wf object with ⟨p, pool, hrun', -⟩ | ⟨herr, -⟩
    · cases hrun'.symm.trans hrun
    · cases herr.symm.trans hrun
      rfl
  deallocates := by
    intro p hp
    exact ⟨_, (deallocate_spec ht.wf (ht.used ▸ hp : p ∈ h.pool.used)).1⟩

/-! ## Runs -/

variable {default : T} {start : Held T} {calls : List (Call T)}

/-- **A pool is safe over every run** in which only live blocks are given back, and it aborts for
lack of space only. -/
theorem safe_run (hstart : construct n default = .ok start)
    (hlive : Lib.Runs.Along step FreesLive start calls) :
    (∀ past h, past <+: calls → start.run past = .ok h → Safe n h) ∧
      ∀ fault, start.run calls = .error fault → fault = .outOfSpace := by
  have ht := tracks_construct hstart
  constructor
  · intro past h hpast hrun
    have hend : Tracks n h := Lib.Runs.invariant (fun _ _ _ => Tracks.step) ht
      (hlive.of_isPrefix hpast) hrun
    exact hend.safe
  · intro fault hrun
    refine Lib.Runs.error_of_step (Q := fun fault => fault = .outOfSpace)
      (fun _ _ _ => Tracks.step) ?_ ht hlive hrun
    intro h call fault ht hlive hstep
    rcases ht.step_cases hlive with ⟨h', hrun, -⟩ | ⟨herr, -⟩
    · cases hrun.symm.trans hstep
    · cases herr.symm.trans hstep
      rfl

/-- Two blocks are taken, the first is given back, and one more is taken. -/
def wrapAround : List (Call Unit) := [.allocate (), .allocate (), .deallocate 0, .allocate ()]

theorem safe_run_wrapAround :
    ∃ start : Held Unit, construct 3 () = .ok start ∧ (start.run wrapAround).toOption.isSome = true ∧
      (∀ past h, past <+: wrapAround → start.run past = .ok h → Safe 3 h) ∧
      ∀ fault, start.run wrapAround = .error fault → fault = .outOfSpace :=
  ⟨_, rfl, by decide, safe_run rfl (by decide)⟩

/-! ## Running out of space -/

/-- The calls that take a block. -/
def allocations (calls : List (Call T)) : ℕ :=
  calls.countP fun
    | .allocate _ => true
    | .deallocate _ => false

/-- The calls that give one back. -/
def deallocations (calls : List (Call T)) : ℕ :=
  calls.countP fun
    | .allocate _ => false
    | .deallocate _ => true

/-- After each call fewer than `n` blocks are taken and not given back. -/
def Fits (n : ℕ) (calls : List (Call T)) : Prop :=
  ∀ past, past <+: calls → allocations past < n + deallocations past

/-- A run in which `taken` blocks are taken already; induction on the calls. -/
theorem Tracks.outOfSpace_iff {calls : List (Call T)} :
    ∀ {h : Held T}, Tracks n h → Lib.Runs.Along Held.step FreesLive h calls →
      (h.run calls ≠ .error .outOfSpace ↔
        ∀ past, past <+: calls → h.live.card + allocations past < n + deallocations past) := by
  induction calls with
  | nil =>
    intro h ht _
    have hcard : h.live.card < n := by
      rw [← ht.used, ← ht.size]
      exact ht.wf.used_card_lt
    constructor
    · intro _ past hpast
      rw [List.prefix_nil.mp hpast]
      exact hcard
    · intro _ hrun
      cases hrun
  | cons call calls ih =>
    intro h ht hlive
    have hcard : h.live.card < n := by
      rw [← ht.used, ← ht.size]
      exact ht.wf.used_card_lt
    rcases ht.step_cases hlive.1 with ⟨h', hrun, ht', heffect⟩ | ⟨herr, ⟨object, rfl⟩, hlast⟩
    · have hrest : h.run (call :: calls) = h'.run calls := by
        show (call :: calls).foldlM Held.step h = _
        rw [List.foldlM_cons, hrun]
        rfl
      have hcount : ∀ past, h'.live.card + allocations past < n + deallocations past ↔
          h.live.card + allocations (call :: past) < n + deallocations (call :: past) := by
        intro past
        rcases heffect with ⟨object, p, rfl, hfresh, hinsert⟩ | ⟨p, rfl, hp, herase⟩
        · have hadd : allocations (.allocate object :: past) = allocations past + 1 :=
            List.countP_cons_of_pos rfl
          have hsame : deallocations (.allocate object :: past) = deallocations past :=
            List.countP_cons_of_neg Bool.false_ne_true
          rw [hinsert, Finset.card_insert_of_notMem hfresh, hadd, hsame]
          omega
        · have hadd : deallocations (.deallocate p :: past) = deallocations past + 1 :=
            List.countP_cons_of_pos rfl
          have hsame : allocations (.deallocate p :: past) = allocations past :=
            List.countP_cons_of_neg Bool.false_ne_true
          have hpos : 0 < h.live.card := Finset.card_pos.mpr ⟨p, hp⟩
          rw [herase, Finset.card_erase_of_mem hp, hadd, hsame]
          omega
      rw [hrest, ih ht' (hlive.2 h' hrun)]
      constructor
      · intro hfits past hpast
        cases past with
        | nil => exact hcard
        | cons c past =>
          obtain ⟨rfl, hinitial⟩ := List.cons_prefix_cons.mp hpast
          exact (hcount past).mp (hfits past hinitial)
      · intro hfits past hpast
        exact (hcount past).mpr (hfits (call :: past) (List.cons_prefix_cons.mpr ⟨rfl, hpast⟩))
    · -- the last free block is handed out, and the search for the next one fails
      constructor
      · intro hrun
        refine absurd ?_ hrun
        show (.allocate object :: calls).foldlM Held.step h = _
        rw [List.foldlM_cons, herr]
        rfl
      · intro hfits
        have hfirst := hfits [.allocate object] (List.cons_prefix_cons.mpr ⟨rfl, List.nil_prefix⟩)
        have hone : h.live.card + 1 < n + 0 := hfirst
        omega

end Held

end TradingEcosystem.MemPool
