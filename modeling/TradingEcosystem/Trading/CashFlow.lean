import TradingEcosystem.Trading.Overflow
import Mathlib.Algebra.Order.Field.Rat
import Mathlib.Tactic.FieldSimp
import Mathlib.Tactic.LinearCombination
import Mathlib.Tactic.Ring

/-!
# Profit and Cash

What the profit of a position is for: bought quantities cost money and sold ones bring it in, and
the rest of the position is worth its market price.

Here `double` is an exact rational, integers are unbounded and a division by zero has no result.

- `ExactPosition` : `PositionInfo` read that way
- `ExactPosition.Inv` : the total paid or received for the open position and the realised profit
  add up to the cash
- `ExactPosition.total_pnl_exact` : the profit is the cash and the value of the position
- `ExactPosition.toInfo_run` : `PositionInfo` does the same in a run without an overflow
-/

namespace TradingEcosystem

/-- A position in one ticker. -/
structure ExactPosition where
  position_ : ℤ := 0
  real_pnl_ : ℚ := 0
  unreal_pnl_ : ℚ := 0
  total_pnl_ : ℚ := 0
  open_vwap_ : Side → ℚ := fun _ => 0
  volume_ : ℕ := 0

namespace ExactPosition

/-- There is no division by zero. -/
def divide (a b : ℚ) : Option ℚ := if b = 0 then none else some (a / b)

theorem divide_eq {a b : ℚ} (hb : b ≠ 0) : divide a b = some (a / b) := if_neg hb

/-- `std::abs(position_)`. -/
def absPosition (p : ExactPosition) : ℚ := |(p.position_ : ℚ)|

/-- What the open position would earn at `price`. -/
def unrealized (p : ExactPosition) (price : ℚ) : Option ℚ :=
  if p.position_ > 0 then
    (divide (p.open_vwap_ .BUY) p.absPosition).map fun vwap => (price - vwap) * p.absPosition
  else
    (divide (p.open_vwap_ .SELL) p.absPosition).map fun vwap => (vwap - price) * p.absPosition

/-- The fill opened or increased the position. -/
def increase (p : ExactPosition) (r : MEClientResponse) : ExactPosition :=
  { p with
    open_vwap_ := Function.update p.open_vwap_ r.side_
      (p.open_vwap_ r.side_ + r.price_ * r.exec_qty_) }

/-- The fill decreased the position, which was `old_position` before. -/
def decrease (p : ExactPosition) (old_position : ℤ) (r : MEClientResponse) :
    Option ExactPosition := do
  let opp_side := if r.side_ = .BUY then Side.SELL else Side.BUY
  let opp_side_vwap ← divide (p.open_vwap_ opp_side) |(old_position : ℚ)|
  let open_vwap := Function.update p.open_vwap_ opp_side (opp_side_vwap * p.absPosition)
  some { p with
    real_pnl_ := p.real_pnl_ + (min (r.exec_qty_ : ℤ) |old_position| : ℤ) *
      (opp_side_vwap - r.price_) * sideToValue r.side_
    open_vwap_ :=
      if p.position_ * old_position < 0 then
        -- the position changed its sign
        Function.update (Function.update open_vwap r.side_ (r.price_ * p.absPosition)) opp_side 0
      else
        open_vwap }

/-- The unrealised part of the profit after a fill at `price`. -/
def mark (p : ExactPosition) (price : ℤ) : Option ExactPosition :=
  if p.position_ = 0 then
    some { p with
      open_vwap_ := Function.update (Function.update p.open_vwap_ .SELL 0) .BUY 0
      unreal_pnl_ := 0 }
  else
    (p.unrealized price).map fun unreal_pnl => { p with unreal_pnl_ := unreal_pnl }

def sumPnl (p : ExactPosition) : ExactPosition :=
  { p with total_pnl_ := p.unreal_pnl_ + p.real_pnl_ }

/-- Process an execution. -/
def addFill (p : ExactPosition) (r : MEClientResponse) : Option ExactPosition := do
  let old_position := p.position_
  let p := { p with
    position_ := p.position_ + r.exec_qty_ * sideToValue r.side_
    volume_ := (p.volume_ + r.exec_qty_) % 2 ^ 32 }
  -- away from zero the open cost grows, towards zero or past it a profit or loss is realised
  let p ← (if old_position * sideToValue r.side_ ≥ 0 then some (p.increase r)
    else p.decrease old_position r)
  let p ← p.mark r.price_
  some p.sumPnl

/-- `(bbo->bid_price_ + bbo->ask_price_) * 0.5`. -/
def midPrice (bbo : BBO) : ℚ := (bbo.bid_price_ + bbo.ask_price_ : ℤ) * (1 / 2)

/-- Process a change of the best prices. -/
def updateBBO (p : ExactPosition) (bbo : BBO) : Option ExactPosition :=
  if p.position_ ≠ 0 ∧ bbo.bid_price_ ≠ Price_INVALID ∧ bbo.ask_price_ ≠ Price_INVALID then
    (p.unrealized (midPrice bbo)).map fun unreal_pnl => { p with unreal_pnl_ := unreal_pnl }.sumPnl
  else
    some p

/-! ## The account -/

/-- What a position is told about. -/
inductive Event where
  | fill (r : MEClientResponse)
  | bbo (bbo : BBO)

def step (p : ExactPosition) : Event → Option ExactPosition
  | .fill r => p.addFill r
  | .bbo bbo => p.updateBBO bbo

def run (p : ExactPosition) (events : List Event) : Option ExactPosition := events.foldlM step p

/-- The fills of a run. -/
def fillsOf (events : List Event) : List MEClientResponse :=
  events.filterMap fun
    | .fill r => some r
    | .bbo _ => none

/-- What the fills of one side were worth. -/
def traded (s : Side) (rs : List MEClientResponse) : ℚ :=
  ((rs.filter fun r => r.side_ = s).map fun r => (r.price_ * r.exec_qty_ : ℚ)).sum

/-- Money from what was sold minus money for what was bought. -/
def cash (rs : List MEClientResponse) : ℚ := traded .SELL rs - traded .BUY rs

theorem traded_append (s : Side) (rs : List MEClientResponse) (r : MEClientResponse) :
    traded s (rs ++ [r]) = traded s rs + if r.side_ = s then (r.price_ * r.exec_qty_ : ℚ) else 0 := by
  unfold traded
  rw [List.filter_append, List.map_append, List.sum_append]
  by_cases hs : r.side_ = s
  · simp [hs]
  · simp [hs]

theorem cash_append {r : MEClientResponse} (hside : r.side_.IsTrading) (rs : List MEClientResponse) :
    cash (rs ++ [r]) = cash rs - sideToValue r.side_ * (r.price_ * r.exec_qty_) := by
  unfold cash
  rw [traded_append, traded_append]
  rcases hside with hs | hs
  · simp [hs, sideToValue]
    ring
  · simp [hs, sideToValue]
    ring

/-- **The account is in balance**: nothing is held for the side that is not open, and what was
paid or received for the open position makes up for the rest of the cash. -/
structure Balanced (rs : List MEClientResponse) (p : ExactPosition) : Prop where
  position : p.position_ = PositionInfo.net rs
  long : p.position_ ≥ 0 → p.open_vwap_ .SELL = 0
  short : p.position_ ≤ 0 → p.open_vwap_ .BUY = 0
  cash : p.real_pnl_ - p.open_vwap_ .BUY + p.open_vwap_ .SELL = cash rs

/-- And a flat position has made what the cash says. -/
structure Inv (rs : List MEClientResponse) (p : ExactPosition) : Prop extends Balanced rs p where
  flat : p.position_ = 0 → p.total_pnl_ = ExactPosition.cash rs

theorem inv_new : Inv [] {} where
  position := rfl
  long := fun _ => rfl
  short := fun _ => rfl
  cash := by simp [ExactPosition.cash, traded]
  flat := fun _ => by simp [ExactPosition.cash, traded]

variable {rs : List MEClientResponse} {p p' : ExactPosition} {r : MEClientResponse}

/-- The unrealised profit is the value of the position less what was paid for it. -/
theorem Balanced.unrealized_eq (h : Balanced rs p) (hopen : p.position_ ≠ 0) (price : ℚ) :
    p.unrealized price =
      some (p.position_ * price - p.open_vwap_ .BUY + p.open_vwap_ .SELL) := by
  have hne : (p.position_ : ℚ) ≠ 0 := by exact_mod_cast hopen
  have habs : p.absPosition ≠ 0 := abs_ne_zero.mpr hne
  unfold unrealized
  split
  · rename_i hlong
    have hsize : p.absPosition = p.position_ := by
      unfold absPosition
      exact abs_of_pos (by exact_mod_cast hlong)
    rw [divide_eq habs, Option.map_some, h.long (le_of_lt hlong), hsize]
    congr 1
    field_simp
    ring
  · rename_i hshort
    have hneg : p.position_ < 0 := lt_of_le_of_ne (not_lt.mp hshort) hopen
    have hsize : p.absPosition = -p.position_ := by
      unfold absPosition
      exact abs_of_neg (by exact_mod_cast hneg)
    rw [divide_eq habs, Option.map_some, h.short (le_of_lt hneg), hsize]
    congr 1
    field_simp
    ring

/-- A position with the executed quantity added. -/
def filled (p : ExactPosition) (r : MEClientResponse) : ExactPosition :=
  { p with
    position_ := p.position_ + r.exec_qty_ * sideToValue r.side_
    volume_ := (p.volume_ + r.exec_qty_) % 2 ^ 32 }

/-- Nothing is held for a side that is not open. -/
theorem Balanced.closed (h : Balanced rs p) {s : Side} (hs : s.IsTrading)
    (hposition : p.position_ * sideToValue s ≤ 0) : p.open_vwap_ s = 0 := by
  rcases hs with rfl | rfl
  · exact h.short (by simpa [sideToValue] using hposition)
  · exact h.long (by simpa [sideToValue] using hposition)

/-- The balance, seen from one side. -/
theorem Balanced.cash_side (h : Balanced rs p) {s : Side} (hs : s.IsTrading) :
    p.real_pnl_ - sideToValue s * (p.open_vwap_ s - p.open_vwap_ s.opposite) =
      ExactPosition.cash rs := by
  rw [← h.cash]
  rcases hs with rfl | rfl <;> simp [sideToValue, Side.opposite] <;> ring

theorem balanced_of_side {s : Side} (hs : s.IsTrading)
    (hposition : p.position_ = PositionInfo.net rs)
    (hown : p.position_ * sideToValue s ≤ 0 → p.open_vwap_ s = 0)
    (hopp : p.position_ * sideToValue s ≥ 0 → p.open_vwap_ s.opposite = 0)
    (hcash : p.real_pnl_ - sideToValue s * (p.open_vwap_ s - p.open_vwap_ s.opposite) = cash rs) :
    Balanced rs p := by
  rcases hs with rfl | rfl
  · refine ⟨hposition, fun h => hopp ?_, fun h => hown ?_, ?_⟩
    · simpa [sideToValue] using h
    · simpa [sideToValue] using h
    · rw [← hcash]
      simp [sideToValue, Side.opposite]
      ring
  · refine ⟨hposition, fun h => hown ?_, fun h => hopp ?_, ?_⟩
    · simpa [sideToValue] using h
    · simpa [sideToValue] using h
    · rw [← hcash]
      simp [sideToValue, Side.opposite]
      ring

theorem position_filled (h : Balanced rs p) (r : MEClientResponse) :
    (p.filled r).position_ = PositionInfo.net (rs ++ [r]) := by
  rw [PositionInfo.net_append, ← h.position]
  rfl

/-- A side's value is its own inverse. -/
theorem sideToValue_mul_self {s : Side} (hs : s.IsTrading) : sideToValue s * sideToValue s = 1 := by
  rcases hs with rfl | rfl <;> rfl

/-- A fill on a side moves the position towards that side. -/
theorem filled_mul_sideToValue (hside : r.side_.IsTrading) :
    (p.filled r).position_ * sideToValue r.side_ =
      p.position_ * sideToValue r.side_ + r.exec_qty_ := by
  show (p.position_ + r.exec_qty_ * sideToValue r.side_) * sideToValue r.side_ = _
  rw [add_mul, mul_assoc, sideToValue_mul_self hside, mul_one]

/-- The product with the side's value has the size of the position. -/
theorem abs_eq_abs_mul {s : Side} (hs : s.IsTrading) (x : ℤ) : |x| = |x * sideToValue s| := by
  rcases sideToValue_of_isTrading hs with h | h
  · rw [h, mul_one]
  · rw [h, mul_neg, mul_one, abs_neg]

theorem absPosition_eq (p : ExactPosition) {s : Side} (hs : s.IsTrading) :
    p.absPosition = (|p.position_ * sideToValue s| : ℤ) := by
  rw [← abs_eq_abs_mul hs, Int.cast_abs]
  rfl

/-- A fill that opens or increases the position. -/
theorem Balanced.increase (h : Balanced rs p) (hside : r.side_.IsTrading)
    (hwith : p.position_ * sideToValue r.side_ ≥ 0) :
    Balanced (rs ++ [r]) ((p.filled r).increase r) := by
  have hmoved := filled_mul_sideToValue (p := p) hside
  have hopposite := h.closed hside.opposite (by
    rcases hside with hs | hs <;> rw [hs] at hwith ⊢ <;> simp [sideToValue, Side.opposite] at * <;>
      exact hwith)
  have hne := hside.opposite_ne
  refine balanced_of_side hside (position_filled h r) (fun hown => ?_) (fun _ => ?_) ?_
  · -- nothing was traded
    have hown' : (p.filled r).position_ * sideToValue r.side_ ≤ 0 := hown
    have hqty : r.exec_qty_ = 0 := by omega
    have hempty := h.closed hside (by omega)
    simp [ExactPosition.increase, filled, hqty, hempty]
  · simpa [ExactPosition.increase, filled, Function.update_of_ne hne] using hopposite
  · rw [cash_append hside, ← h.cash_side hside]
    simp only [ExactPosition.increase, filled, Function.update_self, Function.update_of_ne hne]
    ring

/-- The position changes its sign when more is traded than was open. -/
theorem flip_iff (hside : r.side_.IsTrading) (hagainst : p.position_ * sideToValue r.side_ < 0) :
    (p.filled r).position_ * p.position_ < 0 ↔
      0 < p.position_ * sideToValue r.side_ + r.exec_qty_ := by
  have hmoved := filled_mul_sideToValue (p := p) hside
  have hproduct : (p.filled r).position_ * p.position_ =
      (p.filled r).position_ * sideToValue r.side_ * (p.position_ * sideToValue r.side_) := by
    linear_combination
      -((p.filled r).position_ * p.position_) * sideToValue_mul_self hside
  rw [hproduct, hmoved]
  constructor
  · intro h
    exact pos_of_mul_neg_left h hagainst.le
  · intro h
    exact mul_neg_of_pos_of_neg h hagainst

/-- What a fill against the position leaves: what it closes is realised, and what is left of the
average price depends on whether the position changed its sign. -/
theorem decrease_spec (p : ExactPosition) (hside : r.side_.IsTrading) (hopen : p.position_ ≠ 0) :
    ∃ p', (p.filled r).decrease p.position_ r = some p' ∧
      p'.position_ = (p.filled r).position_ ∧
      p'.real_pnl_ = p.real_pnl_ + (min (r.exec_qty_ : ℤ) |p.position_| : ℤ) *
        (p.open_vwap_ r.side_.opposite / |(p.position_ : ℚ)| - r.price_) * sideToValue r.side_ ∧
      p'.open_vwap_ r.side_ = (if (p.filled r).position_ * p.position_ < 0 then
        r.price_ * (p.filled r).absPosition else p.open_vwap_ r.side_) ∧
      p'.open_vwap_ r.side_.opposite = (if (p.filled r).position_ * p.position_ < 0 then 0
        else p.open_vwap_ r.side_.opposite / |(p.position_ : ℚ)| * (p.filled r).absPosition) := by
  have hopposite : (if r.side_ = .BUY then Side.SELL else Side.BUY) = r.side_.opposite := by
    rcases hside with hs | hs <;> rw [hs] <;> rfl
  have hsize : |(p.position_ : ℚ)| ≠ 0 := abs_ne_zero.mpr (by exact_mod_cast hopen)
  have hne := hside.opposite_ne
  unfold ExactPosition.decrease
  simp only [hopposite, divide_eq hsize, Option.bind_eq_bind, Option.bind_some]
  refine ⟨_, rfl, rfl, rfl, ?_, ?_⟩
  · split
    · simp [Function.update_of_ne hne.symm]
    · simp [Function.update_of_ne hne.symm, filled]
  · split
    · simp
    · simp [filled]

/-- A fill against the position. -/
theorem Balanced.decrease (h : Balanced rs p) (hside : r.side_.IsTrading)
    (hagainst : p.position_ * sideToValue r.side_ < 0) :
    ∃ p', (p.filled r).decrease p.position_ r = some p' ∧ Balanced (rs ++ [r]) p' ∧
      p'.position_ = (p.filled r).position_ := by
  have hopen : p.position_ ≠ 0 := by
    intro heq
    rw [heq, zero_mul] at hagainst
    exact lt_irrefl 0 hagainst
  obtain ⟨p', hrun, hposition, hreal, hown, hopp⟩ := decrease_spec p hside hopen
  refine ⟨p', hrun, ?_, hposition⟩
  have hmoved := filled_mul_sideToValue (p := p) hside
  have hcash := h.cash_side hside
  have hempty := h.closed hside hagainst.le
  have hflip := flip_iff (p := p) hside hagainst
  -- the sizes of the position before and after the fill
  have hold : |(p.position_ : ℚ)| = -((p.position_ * sideToValue r.side_ : ℤ) : ℚ) := by
    rw [← Int.cast_abs, abs_eq_abs_mul hside, abs_of_neg hagainst, Int.cast_neg]
  have hsize : (p.filled r).absPosition =
      (|p.position_ * sideToValue r.side_ + r.exec_qty_| : ℤ) := by
    rw [absPosition_eq _ hside, hmoved]
  rw [abs_eq_abs_mul hside, abs_of_neg hagainst, hold] at hreal
  rw [hsize] at hown hopp
  rw [hold] at hopp
  generalize p.position_ * sideToValue r.side_ = x at *
  have hx : (x : ℚ) ≠ 0 := by exact_mod_cast hagainst.ne
  rw [hempty] at hcash
  refine balanced_of_side hside (by rw [hposition]; exact position_filled h r) ?_ ?_ ?_
  · -- what is left is not on the side of the fill
    rw [hposition, hmoved]
    intro hleft
    rw [hown, if_neg (by rw [hflip]; omega), hempty]
  · rw [hposition, hmoved]
    intro hleft
    rw [hopp]
    split
    · rfl
    · rename_i hstays
      have hzero : x + r.exec_qty_ = 0 := by
        rw [hflip] at hstays
        omega
      rw [hzero]
      simp
  · rw [cash_append hside, ← hcash, hreal, hown, hopp]
    split
    · rename_i hflipped
      rw [hflip] at hflipped
      rw [min_eq_right (by omega), abs_of_pos hflipped]
      push_cast
      field_simp
      ring
    · rename_i hstays
      rw [hflip] at hstays
      rw [min_eq_left (by omega), abs_of_nonpos (by omega), hempty]
      push_cast
      field_simp
      ring

/-- The end of a fill: what is open is marked at its price. -/
theorem Balanced.mark (h : Balanced rs p) (price : ℤ) :
    ∃ p', p.mark price = some p' ∧ Inv rs p'.sumPnl ∧
      p'.sumPnl.total_pnl_ = ExactPosition.cash rs + p'.sumPnl.position_ * price := by
  unfold ExactPosition.mark
  by_cases hflat : p.position_ = 0
  · rw [if_pos hflat]
    have hbuy := h.short hflat.le
    have hsell := h.long hflat.ge
    have hreal : p.real_pnl_ = ExactPosition.cash rs := by
      rw [← h.cash, hbuy, hsell]
      ring
    refine ⟨_, rfl, ⟨⟨h.position, fun _ => ?_, fun _ => ?_, ?_⟩, fun _ => ?_⟩, ?_⟩
    · simp [sumPnl]
    · simp [sumPnl]
    · simp [sumPnl, hreal]
    · simp [sumPnl, hreal]
    · simp [sumPnl, hreal, hflat]
  · rw [if_neg hflat, h.unrealized_eq hflat]
    refine ⟨_, rfl, ⟨⟨h.position, h.long, h.short, h.cash⟩, fun hzero => absurd hzero hflat⟩, ?_⟩
    rw [← h.cash]
    simp only [sumPnl]
    ring

/-- A fill keeps the account and marks the profit at its price. -/
theorem Inv.addFill (h : Inv rs p) (hside : r.side_.IsTrading) :
    ∃ p', p.addFill r = some p' ∧ Inv (rs ++ [r]) p' ∧
      p'.total_pnl_ = ExactPosition.cash (rs ++ [r]) + p'.position_ * r.price_ := by
  have hbooked : ∃ p', (if p.position_ * sideToValue r.side_ ≥ 0 then some ((p.filled r).increase r)
      else (p.filled r).decrease p.position_ r) = some p' ∧ Balanced (rs ++ [r]) p' := by
    by_cases hwith : p.position_ * sideToValue r.side_ ≥ 0
    · rw [if_pos hwith]
      exact ⟨_, rfl, h.toBalanced.increase hside hwith⟩
    · rw [if_neg hwith]
      obtain ⟨p', hrun, hbalanced, -⟩ := h.toBalanced.decrease hside (not_le.mp hwith)
      exact ⟨p', hrun, hbalanced⟩
  obtain ⟨p', hrun, hbalanced⟩ := hbooked
  obtain ⟨p'', hmark, hinv, htotal⟩ := hbalanced.mark r.price_
  refine ⟨p''.sumPnl, ?_, hinv, htotal⟩
  unfold ExactPosition.addFill
  change ((if p.position_ * sideToValue r.side_ ≥ 0 then some ((p.filled r).increase r)
      else (p.filled r).decrease p.position_ r) >>= fun p => p.mark r.price_ >>= fun p =>
        some p.sumPnl) = _
  rw [hrun]
  simp [hmark]

/-- So does a change of the best prices. -/
theorem Inv.updateBBO (h : Inv rs p) (bbo : BBO) :
    ∃ p', p.updateBBO bbo = some p' ∧ Inv rs p' ∧
      (p.position_ ≠ 0 → bbo.bid_price_ ≠ Price_INVALID → bbo.ask_price_ ≠ Price_INVALID →
        p'.total_pnl_ = ExactPosition.cash rs + p'.position_ * midPrice bbo) := by
  unfold ExactPosition.updateBBO
  split
  · rename_i hopen
    rw [h.toBalanced.unrealized_eq hopen.1]
    refine ⟨_, rfl, ⟨⟨h.position, h.long, h.short, h.cash⟩, fun hzero => absurd hzero hopen.1⟩,
      fun _ _ _ => ?_⟩
    rw [← h.cash]
    simp only [sumPnl]
    ring
  · rename_i hkept
    exact ⟨p, rfl, h, fun hopen hbid hask => absurd ⟨hopen, hbid, hask⟩ hkept⟩

/-! ## Runs -/

theorem run_append (p : ExactPosition) (events : List Event) (e : Event) :
    p.run (events ++ [e]) = (p.run events).bind fun p => p.step e := by
  simp [run, List.foldlM_append]

theorem fillsOf_append (events : List Event) (e : Event) :
    fillsOf (events ++ [e]) = fillsOf events ++ fillsOf [e] := by
  simp [fillsOf]

/-- No event divides by zero, and the account is kept. -/
theorem inv_run {events : List Event} (hside : ∀ r ∈ fillsOf events, r.side_.IsTrading) :
    ∃ p, run {} events = some p ∧ Inv (fillsOf events) p := by
  induction events using List.reverseRecOn with
  | nil => exact ⟨{}, rfl, inv_new⟩
  | append_singleton events e ih =>
    rw [fillsOf_append] at hside ⊢
    obtain ⟨p, hrun, hinv⟩ := ih fun r hr => hside r (List.mem_append_left _ hr)
    rw [run_append, hrun]
    cases e with
    | fill r =>
      obtain ⟨p', hstep, hinv', -⟩ :=
        hinv.addFill (hside r (List.mem_append_right _ (List.mem_singleton_self r)))
      exact ⟨p', hstep, hinv'⟩
    | bbo bbo =>
      obtain ⟨p', hstep, hinv', -⟩ := hinv.updateBBO bbo
      refine ⟨p', hstep, ?_⟩
      rw [show fillsOf [Event.bbo bbo] = [] from rfl, List.append_nil]
      exact hinv'

/-- **The profit is the cash and the value of the position**: at the price of the last fill, or at
the middle of the last best prices. -/
theorem total_pnl_exact {events : List Event}
    (hside : ∀ r ∈ fillsOf events, r.side_.IsTrading) :
    ∃ p, run {} events = some p ∧
      p.position_ = PositionInfo.net (fillsOf events) ∧
      (p.position_ ≥ 0 → p.open_vwap_ .SELL = 0) ∧
      (p.position_ ≤ 0 → p.open_vwap_ .BUY = 0) ∧
      (p.position_ = 0 → p.total_pnl_ = cash (fillsOf events)) ∧
      (∀ events' r, events = events' ++ [.fill r] →
        p.total_pnl_ = cash (fillsOf events) + p.position_ * r.price_) ∧
      ∀ events' bbo, events = events' ++ [.bbo bbo] → p.position_ ≠ 0 →
        bbo.bid_price_ ≠ Price_INVALID → bbo.ask_price_ ≠ Price_INVALID →
          p.total_pnl_ = cash (fillsOf events) + p.position_ * midPrice bbo := by
  obtain ⟨p, hrun, hinv⟩ := inv_run hside
  refine ⟨p, hrun, hinv.position, hinv.long, hinv.short, hinv.flat, ?_, ?_⟩
  · -- a fill marks the position to its own price
    rintro events r rfl
    rw [fillsOf_append] at hside ⊢
    obtain ⟨q, hq, hbefore⟩ := inv_run fun r hr => hside r (List.mem_append_left _ hr)
    obtain ⟨q', hstep, -, htotal⟩ :=
      hbefore.addFill (hside r (List.mem_append_right _ (List.mem_singleton_self r)))
    rw [run_append, hq] at hrun
    obtain rfl : q' = p := Option.some.inj (hstep.symm.trans hrun)
    exact htotal
  · -- a change of the best prices marks it to the mid price
    rintro events bbo rfl hopen hbid hask
    rw [fillsOf_append] at hside ⊢
    obtain ⟨q, hq, hbefore⟩ := inv_run fun r hr => hside r (List.mem_append_left _ hr)
    obtain ⟨q', hstep, hafter, htotal⟩ := hbefore.updateBBO bbo
    rw [run_append, hq] at hrun
    obtain rfl : q' = p := Option.some.inj (hstep.symm.trans hrun)
    rw [show fillsOf [Event.bbo bbo] = [] from rfl, List.append_nil]
    refine htotal ?_ hbid hask
    rwa [hbefore.position, ← hafter.position]

/-- Buying at 1, selling more at 1 and a change of the best prices. -/
def flip : List Event :=
  [.fill (PositionInfo.filled .BUY 3), .fill (PositionInfo.filled .SELL 5),
    .bbo { bid_price_ := 2, ask_price_ := 5 }]

theorem total_pnl_exact_flip :
    ∃ p, run {} flip = some p ∧ p.position_ = -2 ∧ p.open_vwap_ .BUY = 0 ∧ p.total_pnl_ = -5 := by
  have hside : ∀ r ∈ fillsOf flip, r.side_.IsTrading := by decide
  obtain ⟨p, hrun, hposition, -, hshort, -, -, hbbo⟩ := total_pnl_exact hside
  have hnet : p.position_ = -2 := hposition
  refine ⟨p, hrun, hnet, hshort (by omega), ?_⟩
  rw [hbbo [.fill (PositionInfo.filled .BUY 3), .fill (PositionInfo.filled .SELL 5)] _ rfl
    (by omega) (by decide) (by decide), hnet]
  decide +kernel

/-! ## The position of the code -/

/-- The position as `PositionInfo` keeps it, in exact arithmetic. -/
def toInfo (p : ExactPosition) : PositionInfo (Option ℚ) where
  position_ := p.position_
  real_pnl_ := some p.real_pnl_
  unreal_pnl_ := some p.unreal_pnl_
  total_pnl_ := some p.total_pnl_
  open_vwap_ := fun s => some (p.open_vwap_ s)
  volume_ := p.volume_

/-- One entry of `open_vwap_` is written. -/
theorem update_some (f : Side → ℚ) (s : Side) (x : ℚ) :
    Function.update (fun s => some (f s)) s (some x) =
      fun s' => some (Function.update f s x s') := by
  funext s'
  by_cases hs : s' = s
  · simp [hs]
  · simp [Function.update_of_ne hs]

theorem div_some {a b x : ℚ} (h : divide a b = some x) :
    Arith.exact.div (some a) (some b) = some x := by
  unfold divide at h
  simpa [Arith.exact] using h

theorem toInfo_absPosition (hsize : |p.position_| < 2 ^ 31) :
    p.toInfo.absPosition .exact = some p.absPosition := by
  have hfits : FitsInt32 |p.position_| := fitsInt32_of_abs_lt (by rwa [abs_abs])
  unfold PositionInfo.absPosition absPosition
  rw [show p.toInfo.position_ = p.position_ from rfl, Arith.exact.int32_eq _ hfits, ← Int.cast_abs]
  rfl

theorem toInfo_unrealized {price x : ℚ} (hsize : |p.position_| < 2 ^ 31)
    (h : p.unrealized price = some x) : p.toInfo.unrealized .exact (some price) = some x := by
  unfold unrealized at h
  unfold PositionInfo.unrealized
  rw [toInfo_absPosition hsize]
  split at h
  · rename_i hlong
    obtain ⟨vwap, hvwap, rfl⟩ := Option.map_eq_some_iff.mp h
    rw [if_pos (show p.toInfo.position_ > 0 from hlong), show p.toInfo.open_vwap_ .BUY =
      some (p.open_vwap_ .BUY) from rfl, div_some hvwap]
    rfl
  · rename_i hshort
    obtain ⟨vwap, hvwap, rfl⟩ := Option.map_eq_some_iff.mp h
    rw [if_neg (show ¬ p.toInfo.position_ > 0 from hshort), show p.toInfo.open_vwap_ .SELL =
      some (p.open_vwap_ .SELL) from rfl, div_some hvwap]
    rfl

theorem toInfo_increase (p : ExactPosition) (r : MEClientResponse) :
    p.toInfo.increase .exact r = (p.increase r).toInfo := by
  have hnotional : Arith.exact.ofInt (Arith.exact.int64 (r.price_ * r.exec_qty_)) =
      some (r.price_ * r.exec_qty_ : ℚ) := by
    simp [Arith.exact]
  unfold PositionInfo.increase increase
  simp only [hnotional]
  unfold toInfo
  simp only [← update_some]
  rfl

/-- The position after the fill of `p.addFill r` is booked against it. -/
theorem toInfo_decrease (hsmall : PositionInfo.SmallFill p.position_ r)
    (hagainst : p.position_ * sideToValue r.side_ < 0) (hold : |p.position_| < 2 ^ 31)
    (hnew : |(p.filled r).position_| < 2 ^ 31) (h : (p.filled r).decrease p.position_ r = some p') :
    (p.filled r).toInfo.decrease .exact p.position_ r = p'.toInfo := by
  obtain ⟨hqty, hproduct⟩ := hsmall hagainst
  have hproduct : Arith.exact.int32 ((p.filled r).position_ * p.position_) =
      (p.filled r).position_ * p.position_ := Arith.exact.int32_eq _ hproduct
  have hsize : ∀ {x : ℤ}, |x| < 2 ^ 31 → Arith.exact.int32 |x| = |x| := fun hx =>
    Arith.exact.int32_eq _ (fitsInt32_of_abs_lt (by rwa [abs_abs]))
  have hexec : toInt32 r.exec_qty_ = r.exec_qty_ := toInt32_of_fits ⟨by omega, by omega⟩
  unfold decrease at h
  obtain ⟨vwap, hvwap, h⟩ := Option.bind_eq_some_iff.mp h
  obtain rfl := Option.some.inj h
  have hdiv : Arith.exact.div (some (p.open_vwap_ (if r.side_ = .BUY then Side.SELL else Side.BUY)))
      (Arith.exact.ofInt |p.position_|) = some vwap := by
    rw [show Arith.exact.ofInt |p.position_| = some |(p.position_ : ℚ)| by simp [Arith.exact]]
    exact div_some hvwap
  unfold PositionInfo.decrease
  rw [toInfo_absPosition hnew]
  simp only [toInfo, hsize hold, hsize hnew, hexec, hproduct]
  rw [show (p.filled r).open_vwap_ = p.open_vwap_ from rfl, hdiv]
  refine (PositionInfo.mk.injEq ..).mpr ⟨rfl, ?_, rfl, rfl, ?_, rfl⟩
  · simp [Arith.exact, filled]
  · split
    · simp only [← update_some]
      simp [Arith.exact, absPosition, filled]
    · simp only [← update_some]
      simp [Arith.exact, absPosition, filled]

theorem toInfo_mark {price : ℤ} (hsize : |p.position_| < 2 ^ 31) (h : p.mark price = some p') :
    p.toInfo.mark .exact price = p'.toInfo := by
  unfold mark at h
  unfold PositionInfo.mark
  split at h
  · rename_i hflat
    rw [if_pos (show p.toInfo.position_ = 0 from hflat)]
    obtain rfl := Option.some.inj h
    unfold toInfo
    simp only [← update_some]
    rfl
  · rename_i hopen
    obtain ⟨unreal_pnl, hunreal, rfl⟩ := Option.map_eq_some_iff.mp h
    rw [if_neg (show ¬ p.toInfo.position_ = 0 from hopen)]
    have hcode := toInfo_unrealized hsize hunreal
    rw [show Arith.exact.ofInt price = some (price : ℚ) from rfl, hcode]
    rfl

theorem toInfo_sumPnl (p : ExactPosition) : p.toInfo.sumPnl .exact = p.sumPnl.toInfo := rfl

/-- **A fill that does not overflow** does the same to the position of the code. -/
theorem toInfo_addFill (hside : r.side_.IsTrading) (hsmall : PositionInfo.SmallFill p.position_ r)
    (hold : |p.position_| < 2 ^ 31) (hnew : |(p.filled r).position_| < 2 ^ 31)
    (h : p.addFill r = some p') : p.toInfo.addFill .exact r = p'.toInfo := by
  have hsign := Arith.exact.int32_eq _ (PositionInfo.fitsInt32_mul_sideToValue hside hold)
  have hposition : p.toInfo.filledPosition r = (p.filled r).position_ :=
    PositionInfo.filledPosition_eq hnew
  obtain ⟨booked, hbooked, h⟩ := Option.bind_eq_some_iff.mp h
  obtain ⟨marked, hmarked, h⟩ := Option.bind_eq_some_iff.mp h
  obtain rfl := Option.some.inj h
  -- booking does not move the position
  have hkept : booked.position_ = (p.filled r).position_ ∧
      (if p.position_ * sideToValue r.side_ ≥ 0 then (p.filled r).toInfo.increase .exact r
        else (p.filled r).toInfo.decrease .exact p.position_ r) = booked.toInfo := by
    change (if p.position_ * sideToValue r.side_ ≥ 0 then some ((p.filled r).increase r)
      else (p.filled r).decrease p.position_ r) = some booked at hbooked
    split at hbooked
    · rename_i hwith
      obtain rfl := Option.some.inj hbooked
      exact ⟨rfl, (if_pos hwith).trans (toInfo_increase _ r)⟩
    · rename_i hagainst
      have hcode := toInfo_decrease hsmall (not_le.mp hagainst) hold hnew hbooked
      refine ⟨?_, (if_neg hagainst).trans hcode⟩
      obtain ⟨vwap, -, hbooked⟩ := Option.bind_eq_some_iff.mp hbooked
      rw [← Option.some.inj hbooked]
  have hsize : |booked.position_| < 2 ^ 31 := by rwa [hkept.1]
  rw [← toInfo_sumPnl, ← toInfo_mark hsize hmarked, ← hkept.2]
  unfold PositionInfo.addFill
  simp only [hposition, show p.toInfo.position_ = p.position_ from rfl, hsign]
  rfl

/-- So does a change of the best prices. -/
theorem toInfo_updateBBO {bbo : BBO} (hsize : |p.position_| < 2 ^ 31)
    (h : p.updateBBO bbo = some p') : p.toInfo.updateBBO .exact bbo = p'.toInfo := by
  have hmid : Arith.exact.mul (Arith.exact.ofInt (Arith.exact.int64
      (bbo.bid_price_ + bbo.ask_price_))) Arith.exact.half = some (midPrice bbo) := by
    simp [Arith.exact, midPrice]
  unfold updateBBO at h
  unfold PositionInfo.updateBBO
  rw [show p.toInfo.position_ = p.position_ from rfl]
  split at h
  · rename_i hopen
    obtain ⟨unreal_pnl, hunreal, rfl⟩ := Option.map_eq_some_iff.mp h
    simp only [if_pos hopen, hmid, toInfo_unrealized hsize hunreal]
    rfl
  · rename_i hkept
    obtain rfl := Option.some.inj h
    rw [if_neg hkept]

/-- What the position keeper does with an event. -/
def infoStep (p : PositionInfo (Option ℚ)) : Event → PositionInfo (Option ℚ)
  | .fill r => p.addFill .exact r
  | .bbo bbo => p.updateBBO .exact bbo

/-- **Without an overflow the position keeper computes the exact account**, over any run. -/
theorem toInfo_run {events : List Event} (hside : ∀ r ∈ fillsOf events, r.side_.IsTrading)
    (hrange : ∀ es, es <+: events → |PositionInfo.net (fillsOf es)| < 2 ^ 31)
    (hsmall : ∀ es r es', events = es ++ .fill r :: es' →
      PositionInfo.SmallFill (PositionInfo.net (fillsOf es)) r) :
    ∃ p, run {} events = some p ∧
      events.foldl infoStep (.new .exact fun _ => some 0) = p.toInfo := by
  induction events using List.reverseRecOn with
  | nil => exact ⟨{}, rfl, rfl⟩
  | append_singleton events e ih =>
    have hside' : ∀ r ∈ fillsOf events, r.side_.IsTrading := fun r hr =>
      hside r (by rw [fillsOf_append]; exact List.mem_append_left _ hr)
    obtain ⟨p, hrun, hcode⟩ := ih hside'
      (fun es hes => hrange es (hes.trans (List.prefix_append ..)))
      fun es r es' hsplit => hsmall es r (es' ++ [e]) (by rw [hsplit, List.append_assoc]; rfl)
    obtain ⟨q, hq, hinv⟩ := inv_run hside'
    obtain rfl : q = p := Option.some.inj (hq.symm.trans hrun)
    have hold : |q.position_| < 2 ^ 31 := by
      rw [hinv.position]
      exact hrange events (List.prefix_append ..)
    rw [run_append, hrun, List.foldl_append, hcode]
    cases e with
    | fill r =>
      have hr : r.side_.IsTrading := hside r (by simp [fillsOf])
      have hnew : |(q.filled r).position_| < 2 ^ 31 := by
        rw [position_filled hinv.toBalanced]
        have := hrange _ List.prefix_rfl
        rwa [fillsOf_append] at this
      obtain ⟨q', hstep, -, -⟩ := hinv.addFill hr
      refine ⟨q', hstep, toInfo_addFill hr ?_ hold hnew hstep⟩
      rw [hinv.position]
      exact hsmall events r [] rfl
    | bbo bbo =>
      obtain ⟨q', hstep, -, -⟩ := hinv.updateBBO bbo
      exact ⟨q', hstep, toInfo_updateBBO hold hstep⟩

end ExactPosition

end TradingEcosystem
