import Mathlib.Data.Int.Lemmas
import Mathlib.Tactic.Common

/-!
# Common Types

The constants and scalar types of `common/types.h`, the messages exchanged between the
components, and the ways a noexcept component can stop the process.

The typedefs `OrderId`, `TickerId`, `ClientId`, `Priority` and `Qty` are unsigned, so they are
natural numbers here; `Price` is signed.  Ids, priorities and sequence numbers only ever count
upwards from one, far below 64 bits.  Quantities are `uint32_t` and their subtraction wraps
(`qtySub`).
-/

namespace TradingEcosystem

/-! ## Constants -/

def ME_MAX_TICKERS : ℕ := 8
def ME_MAX_CLIENT_UPDATES : ℕ := 256 * 1024
def ME_MAX_MARKET_UPDATES : ℕ := 256 * 1024
def ME_MAX_NUM_CLIENTS : ℕ := 256
def ME_MAX_ORDER_IDS : ℕ := 1024 * 1024
def ME_MAX_PRICE_LEVELS : ℕ := 256

/-! ## Scalar types -/

def OrderId_INVALID : ℕ := 2 ^ 64 - 1
def TickerId_INVALID : ℕ := 2 ^ 32 - 1
def ClientId_INVALID : ℕ := 2 ^ 32 - 1
def Price_INVALID : ℤ := 2 ^ 63 - 1
def Qty_INVALID : ℕ := 2 ^ 32 - 1
def Priority_INVALID : ℕ := 2 ^ 64 - 1

/-- `a - b` on the `uint32_t` of `Qty`. -/
def qtySub (a b : ℕ) : ℕ := (a + 2 ^ 32 - b) % 2 ^ 32

theorem qtySub_eq {a b : ℕ} (hb : b ≤ a) (ha : a < 2 ^ 32) : qtySub a b = a - b := by
  unfold qtySub
  omega

theorem qtySub_lt (a b : ℕ) : qtySub a b < 2 ^ 32 := Nat.mod_lt _ (by decide)

/-- `enum class Side : int8_t`; a byte received from the network may hold any value. -/
inductive Side where
  | INVALID
  | BUY
  | SELL
  | MAX
  | UNKNOWN (value : ℕ)
  deriving DecidableEq, Repr, Inhabited

/-- The two sides an order can really have. -/
def Side.IsTrading (s : Side) : Prop := s = .BUY ∨ s = .SELL

instance (s : Side) : Decidable s.IsTrading := inferInstanceAs (Decidable (_ ∨ _))

/-- The side an order trades against. -/
def Side.opposite : Side → Side
  | .BUY => .SELL
  | _ => .BUY

theorem Side.IsTrading.opposite {s : Side} (hs : s.IsTrading) : s.opposite.IsTrading := by
  rcases hs with rfl | rfl
  · exact .inr rfl
  · exact .inl rfl

theorem Side.IsTrading.opposite_ne {s : Side} (hs : s.IsTrading) : s.opposite ≠ s := by
  rcases hs with rfl | rfl <;> decide

theorem Side.IsTrading.eq_or_eq_opposite {s s' : Side} (hs : s.IsTrading) (hs' : s'.IsTrading) :
    s' = s ∨ s' = s.opposite := by
  rcases hs with rfl | rfl <;> rcases hs' with rfl | rfl <;> decide

/-- What is listed on the two sides. -/
theorem Side.mem_append_iff {α : Type} {f : Side → List α} {x : α} :
    x ∈ f .BUY ++ f .SELL ↔ ∃ s, s.IsTrading ∧ x ∈ f s := by
  constructor
  · intro h
    rcases List.mem_append.mp h with h | h
    · exact ⟨.BUY, .inl rfl, h⟩
    · exact ⟨.SELL, .inr rfl, h⟩
  · rintro ⟨s, rfl | rfl, h⟩
    · exact List.mem_append_left _ h
    · exact List.mem_append_right _ h

/-- Slot of a price in the arrays of `ME_MAX_PRICE_LEVELS` entries: the `int64_t` price is
converted to `size_t` before the remainder is taken. -/
def priceToIndex (price : ℤ) : ℕ := (price % 2 ^ 64).toNat % ME_MAX_PRICE_LEVELS

theorem priceToIndex_eq (price : ℤ) : (priceToIndex price : ℤ) = price % 256 := by
  simp only [priceToIndex, ME_MAX_PRICE_LEVELS]
  omega

/-- Two prices of one window of `ME_MAX_PRICE_LEVELS` values never share a slot. -/
theorem priceToIndex_inj {base p q : ℤ} (hp : base ≤ p ∧ p < base + ME_MAX_PRICE_LEVELS)
    (hq : base ≤ q ∧ q < base + ME_MAX_PRICE_LEVELS) (h : priceToIndex p = priceToIndex q) :
    p = q := by
  have hp' := priceToIndex_eq p
  have hq' := priceToIndex_eq q
  simp only [ME_MAX_PRICE_LEVELS] at hp hq
  omega

/-! ## Messages -/

inductive ClientRequestType where
  | INVALID
  | NEW
  | CANCEL
  | UNKNOWN (value : ℕ)
  deriving DecidableEq, Repr, Inhabited

structure MEClientRequest where
  type_ : ClientRequestType := .INVALID
  client_id_ : ℕ := ClientId_INVALID
  ticker_id_ : ℕ := TickerId_INVALID
  order_id_ : ℕ := OrderId_INVALID
  side_ : Side := .INVALID
  price_ : ℤ := Price_INVALID
  qty_ : ℕ := Qty_INVALID
  deriving DecidableEq, Repr, Inhabited

inductive ClientResponseType where
  | INVALID
  | ACCEPTED
  | CANCELED
  | FILLED
  | CANCEL_REJECTED
  deriving DecidableEq, Repr, Inhabited

structure MEClientResponse where
  type_ : ClientResponseType := .INVALID
  client_id_ : ℕ := ClientId_INVALID
  ticker_id_ : ℕ := TickerId_INVALID
  client_order_id_ : ℕ := OrderId_INVALID
  market_order_id_ : ℕ := OrderId_INVALID
  side_ : Side := .INVALID
  price_ : ℤ := Price_INVALID
  exec_qty_ : ℕ := Qty_INVALID
  leaves_qty_ : ℕ := Qty_INVALID
  deriving DecidableEq, Repr, Inhabited

inductive MarketUpdateType where
  | INVALID
  | CLEAR
  | ADD
  | MODIFY
  | CANCEL
  | TRADE
  | SNAPSHOT_START
  | SNAPSHOT_END
  deriving DecidableEq, Repr, Inhabited

structure MEMarketUpdate where
  type_ : MarketUpdateType := .INVALID
  order_id_ : ℕ := OrderId_INVALID
  ticker_id_ : ℕ := TickerId_INVALID
  side_ : Side := .INVALID
  price_ : ℤ := Price_INVALID
  qty_ : ℕ := Qty_INVALID
  priority_ : ℕ := Priority_INVALID
  deriving DecidableEq, Repr, Inhabited

/-- A market update as it is numbered by the publisher. -/
structure MDPMarketUpdate where
  seq_num_ : ℕ := 0
  me_market_update_ : MEMarketUpdate
  deriving DecidableEq, Repr, Inhabited

/-- Updates numbered one after the other, the first one `first`. -/
def numbered (first : ℕ) (updates : List MEMarketUpdate) : List MDPMarketUpdate :=
  (updates.zipIdx first).map fun p => { seq_num_ := p.2, me_market_update_ := p.1 }

theorem numbered_cons (first : ℕ) (u : MEMarketUpdate) (updates : List MEMarketUpdate) :
    numbered first (u :: updates) =
      { seq_num_ := first, me_market_update_ := u } :: numbered (first + 1) updates := rfl

theorem numbered_append (first : ℕ) (updates updates' : List MEMarketUpdate) :
    numbered first (updates ++ updates') =
      numbered first updates ++ numbered (first + updates.length) updates' := by
  unfold numbered
  rw [List.zipIdx_append, List.map_append, Nat.add_comm]

theorem getElem?_numbered (first : ℕ) (updates : List MEMarketUpdate) (i : ℕ) :
    (numbered first updates)[i]? =
      updates[i]?.map fun u => { seq_num_ := first + i, me_market_update_ := u } := by
  unfold numbered
  rw [List.getElem?_map, List.getElem?_zipIdx, Option.map_map]
  rfl

theorem numbered_take (first : ℕ) (updates : List MEMarketUpdate) (k : ℕ) :
    numbered first (updates.take k) = (numbered first updates).take k := by
  apply List.ext_getElem?
  intro i
  simp only [getElem?_numbered, List.getElem?_take]
  split
  · rfl
  · rfl

theorem map_seq_num_numbered (first : ℕ) (updates : List MEMarketUpdate) :
    (numbered first updates).map MDPMarketUpdate.seq_num_ =
      List.range' first (numbered first updates).length := by
  unfold numbered
  rw [List.map_map, List.length_map, List.length_zipIdx]
  exact List.zipIdx_map_snd ..

theorem map_me_market_update_numbered (first : ℕ) (updates : List MEMarketUpdate) :
    (numbered first updates).map MDPMarketUpdate.me_market_update_ = updates := by
  unfold numbered
  rw [List.map_map]
  exact List.zipIdx_map_fst ..

/-! ## Faults -/

/-- How a component stops the process instead of returning. -/
inductive Fault where
  /-- `ASSERT(...)` or `FATAL(...)` fired. -/
  | assert
  /-- The ASSERT "Memory Pool out of space." fired. -/
  | outOfSpace
  /-- `.at(i)` threw out of a noexcept function. -/
  | outOfRange
  /-- A null pointer was dereferenced. -/
  | nullDeref
  /-- A loop of the source did not end within the bound given to it. -/
  | diverges
  deriving DecidableEq, Repr

/-- Follow a pointer that may be null; an address is the index of a block in its pool. -/
def deref : Option ℕ → Except Fault ℕ
  | some p => .ok p
  | none => .error .nullDeref

@[simp] theorem deref_some (p : ℕ) : deref (some p) = .ok p := rfl
@[simp] theorem deref_none : deref none = .error .nullDeref := rfl

theorem deref_eq_ok {x : Option ℕ} {p : ℕ} : deref x = .ok p ↔ x = some p := by
  cases x with
  | none => simp
  | some q => simp

@[simp] theorem ok_bind {α β : Type} (a : α) (f : α → Except Fault β) :
    ((Except.ok a : Except Fault α) >>= f) = f a := rfl

@[simp] theorem error_bind {α β : Type} (e : Fault) (f : α → Except Fault β) :
    ((Except.error e : Except Fault α) >>= f) = .error e := rfl

/-- A computation that ended well did not run out of space. -/
theorem ne_outOfSpace_of_isOk {α : Type} {x : Except Fault α} (h : x.isOk = true) :
    x ≠ .error .outOfSpace := by
  rintro rfl
  cases h

theorem exists_ok_of_isOk {α : Type} {x : Except Fault α} (h : x.isOk = true) :
    ∃ a, x = .ok a := by
  cases x with
  | error e => cases h
  | ok a => exact ⟨a, rfl⟩

/-- What a computation that ended well went through. -/
theorem bind_eq_ok {α β : Type} {x : Except Fault α} {f : α → Except Fault β} {b : β} :
    (x >>= f) = .ok b ↔ ∃ a, x = .ok a ∧ f a = .ok b := by
  cases x with
  | error e => simp
  | ok a => simp

end TradingEcosystem
