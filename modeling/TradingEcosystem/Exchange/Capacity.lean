import TradingEcosystem.Book.LevelCount
import TradingEcosystem.Common.PoolRuns
import TradingEcosystem.Exchange.MEOrderBook

/-!
# What Fits into the Exchange's Book

A pool of `n` blocks is out of space when the last block is handed out, so it never holds more than
`n - 1` objects.  The pool of the levels has as many blocks as there are price slots.

- `LevelsFit.run` : what every run of a book keeps
- `outOfSpace_iff_fits` : the runs of a pool that do not abort, and the levels of a book
-/

namespace TradingEcosystem

open LimitBook

namespace MEOrderBook

variable {b b' : MEOrderBook}

/-- The occupied slots of the book lead to different levels of its pool. -/
def LevelsFit (b : MEOrderBook) : Prop := SlotsHeld ME_MAX_PRICE_LEVELS b.book

theorem levelsFit_new (ticker_id : ℕ) : LevelsFit (MEOrderBook.new ticker_id) where
  wf := MemPool.WF.new _ (by decide)
  size := rfl
  used := fun _ _ h => absurd h (Option.some_ne_none _).symm
  inj := fun _ _ _ h => absurd h (Option.some_ne_none _).symm

theorem LevelsFit.removeOrder (h : b.LevelsFit) {o : ℕ} (hrun : b.removeOrder o = .ok b') :
    b'.LevelsFit := by
  obtain ⟨book, hbook, hrun⟩ := bind_eq_ok.mp hrun
  cases hrun
  exact SlotsHeld.removeOrder h hbook

section add

variable {ticker_id client_id client_order_id new_market_order_id : ℕ} {side : Side} {price : ℤ}

theorem LevelsFit.matchOrder (h : b.LevelsFit) {itr leaves_qty leaves : ℕ}
    (hrun : b.matchOrder ticker_id client_id side client_order_id new_market_order_id itr
      leaves_qty = .ok (b', leaves)) : b'.LevelsFit := by
  unfold MEOrderBook.matchOrder at hrun
  simp only at hrun
  have htraded : ∀ fill_qty, SlotsHeld ME_MAX_PRICE_LEVELS (b.book.modInfo itr fun order =>
      { order with qty_ := qtySub order.qty_ fill_qty }) := fun _ => SlotsHeld.of_eq h rfl rfl
  split at hrun
  · -- the resting order is used up
    obtain ⟨b₁, hremove, hrun⟩ := bind_eq_ok.mp hrun
    cases hrun
    refine LevelsFit.removeOrder ?_ hremove
    exact htraded _
  · cases hrun
    exact htraded _

/-- Induction on the iterations of the loop. -/
theorem LevelsFit.matchLoop {fuel : ℕ} :
    ∀ {b : MEOrderBook} {leaves_qty leaves : ℕ}, b.LevelsFit →
      MEOrderBook.matchLoop ticker_id client_id side client_order_id new_market_order_id price fuel
        b leaves_qty = .ok (b', leaves) → b'.LevelsFit := by
  induction fuel with
  | zero =>
    intro b leaves_qty leaves _ hrun
    cases hrun
  | succ fuel ih =>
    intro b leaves_qty leaves h hrun
    rw [MEOrderBook.matchLoop] at hrun
    split at hrun
    · cases hrun
      exact h
    · split at hrun
      · cases hrun
        exact h
      · obtain ⟨itr, -, hrun⟩ := bind_eq_ok.mp hrun
        split at hrun
        · cases hrun
          exact h
        · obtain ⟨⟨b₁, left⟩, hmatch, hloop⟩ := bind_eq_ok.mp hrun
          exact ih (h.matchOrder hmatch) hloop

theorem LevelsFit.checkForMatch (h : b.LevelsFit) {qty : ℕ} {r : MEOrderBook × ℕ}
    (hrun : b.checkForMatch client_id client_order_id ticker_id side price qty new_market_order_id =
      .ok r) : r.1.LevelsFit := by
  unfold MEOrderBook.checkForMatch at hrun
  split at hrun
  · exact LevelsFit.matchLoop h hrun
  · cases hrun
    exact h

theorem LevelsFit.add (h : b.LevelsFit) {qty : ℕ}
    (hrun : b.add client_id client_order_id ticker_id side price qty = .ok b') :
    b'.LevelsFit := by
  obtain ⟨⟨b₁, leaves⟩, hcheck, hrun⟩ := bind_eq_ok.mp hrun
  have hmatched : b₁.LevelsFit := by
    refine LevelsFit.checkForMatch ?_ hcheck
    exact h
  simp only at hrun
  split at hrun
  · obtain ⟨priority, -, hrun⟩ := bind_eq_ok.mp hrun
    obtain ⟨book, hinsert, hrun⟩ := bind_eq_ok.mp hrun
    cases hrun
    exact SlotsHeld.insertOrder hmatched hinsert
  · cases hrun
    exact hmatched

end add

theorem LevelsFit.cancel (h : b.LevelsFit) {client_id order_id ticker_id : ℕ}
    (hrun : b.cancel client_id order_id ticker_id = .ok b') : b'.LevelsFit := by
  obtain ⟨found, -, hrun⟩ := bind_eq_ok.mp hrun
  cases found with
  | none =>
    cases hrun
    exact h
  | some o =>
    obtain ⟨b₁, hremove, hrun⟩ := bind_eq_ok.mp hrun
    cases hrun
    have h₁ := h.removeOrder hremove
    exact h₁

theorem LevelsFit.step {call : Call} (h : b.LevelsFit) (hrun : b.step call = .ok b') :
    b'.LevelsFit := by
  cases call with
  | add client_id client_order_id side price qty => exact h.add hrun
  | cancel client_id order_id => exact h.cancel hrun

/-- **The levels of a book fit into their pool**, whatever calls are made. -/
theorem LevelsFit.run {ticker_id : ℕ} {calls : List Call}
    (hrun : (MEOrderBook.new ticker_id).run calls = .ok b) : b.LevelsFit :=
  Lib.Runs.invariant_of_step (fun _ _ _ => LevelsFit.step) (levelsFit_new ticker_id) hrun

end MEOrderBook

open MemPool (Call Held)
open MemPool.Held (Fits FreesLive construct)

/-- **A pool of `n` blocks holds `n - 1` objects, and no more**: a run aborts for lack of space
exactly when the last block is taken.  A book never has a level in each of its price slots. -/
theorem outOfSpace_iff_fits {T : Type} {n : ℕ} {default : T} {start : Held T}
    {calls : List (Call T)} (hstart : construct n default = .ok start)
    (hlive : Lib.Runs.Along Held.step FreesLive start calls) :
    (start.run calls ≠ .error .outOfSpace ↔ Fits n calls) ∧
      ∀ ticker_id bookCalls b, (MEOrderBook.new ticker_id).run bookCalls = .ok b →
        ∃ i < ME_MAX_PRICE_LEVELS, b.book.price_orders_at_price_ i = none := by
  constructor
  · have hnone : start.live = ∅ := by
      unfold construct at hstart
      split at hstart
      · cases hstart
        rfl
      · cases hstart
    rw [(MemPool.Held.tracks_construct hstart).outOfSpace_iff hlive, hnone, Finset.card_empty]
    simp only [Nat.zero_add]
    exact Iff.rfl
  · intro ticker_id bookCalls b hrun
    exact SlotsHeld.exists_free_slot (MEOrderBook.LevelsFit.run hrun)

/-- Two of three blocks are held at a time. -/
def twoOfThree : List (Call Unit) :=
  [.allocate (), .allocate (), .deallocate 1, .allocate ()]

theorem outOfSpace_iff_fits_twoOfThree :
    ∃ start : Held Unit, construct 3 () = .ok start ∧
      (start.run twoOfThree).toOption.map (fun h => h.live.card) = some 2 ∧
      ((start.run twoOfThree ≠ .error .outOfSpace ↔ Fits 3 twoOfThree) ∧
        ∀ ticker_id bookCalls b, (MEOrderBook.new ticker_id).run bookCalls = .ok b →
          ∃ i < ME_MAX_PRICE_LEVELS, b.book.price_orders_at_price_ i = none) :=
  ⟨_, rfl, by decide, outOfSpace_iff_fits rfl (by decide)⟩

/-- A pool of one block cannot hold one object. -/
theorem not_pool_holds_one :
    ¬ ∀ (n : ℕ) (start : Held Unit) (calls : List (Call Unit)), 1 ≤ n →
      construct n () = .ok start → Lib.Runs.Along Held.step FreesLive start calls →
      (∀ past h, past <+: calls → start.run past = .ok h → h.live.card ≤ n) →
      start.run calls ≠ .error .outOfSpace := by
  intro h
  refine h 1 ⟨MemPool.new 1 (), ∅⟩ [.allocate ()] (Nat.le_refl 1) rfl (by decide) ?_ (by rfl)
  intro past s hpast hrun
  rcases List.prefix_cons_iff.mp hpast with rfl | ⟨past', rfl, hpast'⟩
  · cases hrun
    exact Nat.zero_le _
  · obtain rfl := List.prefix_nil.mp hpast'
    cases hrun

end TradingEcosystem
