import TradingEcosystem.Exchange.MatchingEngine

/-!
# Price-Time Priority, Seen from Outside

Whoever reads the responses and the trades of a ticker can check the exchange, without its book.
An order is known from its ACCEPTED response, and done with when a response says so.

- `Ahead` : what is to be served first, judged by the responses
- `FairFill` : a fill that passes over no order
- `FairLog` : all fills do, and nothing else trades
- `Known` : the open orders are those that rest in the book
- `price_time_priority` : the log of a ticker is fair, and no two open orders could trade
-/

namespace TradingEcosystem

open MEOrderBook (Call)

namespace Audit

/-! ## Reading a log -/

/-- Nothing is left of the order a response is about. -/
def Ends (r : MEClientResponse) : Prop :=
  match r.type_ with
  | .CANCELED => True
  | .ACCEPTED | .FILLED => r.leaves_qty_ = 0
  | .CANCEL_REJECTED | .INVALID => False

def Accepted (log : List MEEvent) (o : MEClientResponse) : Prop :=
  o ∈ clientResponses log ∧ o.type_ = .ACCEPTED

def Finished (log : List MEEvent) (market_order_id : ℕ) : Prop :=
  ∃ r ∈ clientResponses log, r.market_order_id_ = market_order_id ∧ Ends r

/-- The two responses are about one order. -/
def SameOrder (r o : MEClientResponse) : Prop :=
  r.client_id_ = o.client_id_ ∧ r.client_order_id_ = o.client_order_id_ ∧
    r.market_order_id_ = o.market_order_id_ ∧ r.side_ = o.side_

/-- Of two accepted orders of a side, `o` has the better price, or the same price and was accepted
earlier. -/
def Ahead (o o' : MEClientResponse) : Prop :=
  o.side_ = o'.side_ ∧ (o.side_.better o.price_ o'.price_ = true ∨
    o.price_ = o'.price_ ∧ o.market_order_id_ < o'.market_order_id_)

/-- **A fair fill**, after `log`: `taker` and `maker` are told, then the trade is published. -/
structure FairFill (log : List MEEvent) (taker maker : MEClientResponse) (trade : MEMarketUpdate) :
    Prop where
  types : taker.type_ = .FILLED ∧ maker.type_ = .FILLED ∧ trade.type_ = .TRADE
  sides : taker.side_.IsTrading ∧ maker.side_ = taker.side_.opposite ∧ trade.side_ = taker.side_
  prices : taker.price_ = trade.price_ ∧ maker.price_ = trade.price_
  qtys : 0 < trade.qty_ ∧ taker.exec_qty_ = trade.qty_ ∧ maker.exec_qty_ = trade.qty_
  /-- As much as there is. -/
  most : taker.leaves_qty_ = 0 ∨ maker.leaves_qty_ = 0
  /-- The taker is the order accepted last, and its limit allows the price. -/
  taker_open : ∃ o, Accepted log o ∧ SameOrder taker o ∧ ¬ Finished log o.market_order_id_ ∧
    PriorityBook.crosses o.side_ o.price_ trade.price_ = true ∧
    ∀ o', Accepted log o' → o'.market_order_id_ ≤ o.market_order_id_
  /-- The maker has its own price, and all orders ahead of it are done with. -/
  maker_next : ∃ o, Accepted log o ∧ SameOrder maker o ∧ ¬ Finished log o.market_order_id_ ∧
    o.price_ = trade.price_ ∧
    ∀ o', Accepted log o' → Ahead o' o → Finished log o'.market_order_id_

/-- Neither a fill nor a trade. -/
def Quiet : MEEvent → Prop
  | .response r => r.type_ ≠ .FILLED
  | .update u => u.type_ ≠ .TRADE

/-- **A fair log**: all fills in it are. -/
inductive FairLog : List MEEvent → Prop
  | nil : FairLog []
  | quiet {log : List MEEvent} {event : MEEvent} (h : FairLog log) (hquiet : Quiet event) :
      FairLog (log ++ [event])
  | fill {log : List MEEvent} {taker maker : MEClientResponse} {trade : MEMarketUpdate}
      (h : FairLog log) (hfill : FairFill log taker maker trade) :
      FairLog (log ++ [.response taker, .response maker, .update trade])

/-- No bid and ask that are both open could trade. -/
def Uncrossed (log : List MEEvent) : Prop :=
  ∀ bid ask, Accepted log bid → Accepted log ask → bid.side_ = .BUY → ask.side_ = .SELL →
    ask.price_ ≤ bid.price_ →
    Finished log bid.market_order_id_ ∨ Finished log ask.market_order_id_

section reading

variable {log events : List MEEvent} {o r : MEClientResponse} {u : MEMarketUpdate} {id : ℕ}

@[simp] theorem not_finished_nil : ¬ Finished [] id := by
  rintro ⟨r, hr, -⟩
  cases hr

@[simp] theorem finished_response :
    Finished (.response r :: log) id ↔ r.market_order_id_ = id ∧ Ends r ∨ Finished log id :=
  List.exists_mem_cons_iff _ r (clientResponses log)

@[simp] theorem finished_update : Finished (.update u :: log) id ↔ Finished log id := Iff.rfl

@[simp] theorem not_accepted_nil : ¬ Accepted [] o := fun h => absurd h.1 List.not_mem_nil

@[simp] theorem accepted_response :
    Accepted (.response r :: log) o ↔ o = r ∧ r.type_ = .ACCEPTED ∨ Accepted log o := by
  show (o ∈ r :: clientResponses log ∧ _) ↔ _
  rw [List.mem_cons, or_and_right]
  exact or_congr_left (and_congr_right fun heq => by rw [heq])

@[simp] theorem accepted_update : Accepted (.update u :: log) o ↔ Accepted log o := Iff.rfl

theorem accepted_append :
    Accepted (log ++ events) o ↔ Accepted log o ∨ Accepted events o := by
  unfold Accepted
  rw [clientResponses_append, List.mem_append, or_and_right]

theorem finished_append :
    Finished (log ++ events) id ↔ Finished log id ∨ Finished events id := by
  unfold Finished
  simp only [clientResponses_append, List.mem_append, or_and_right, exists_or]

/-- Quiet events, one after the other. -/
theorem FairLog.append (h : FairLog log) (hquiet : ∀ event ∈ events, Quiet event) :
    FairLog (log ++ events) := by
  induction events using List.reverseRecOn with
  | nil =>
    rw [List.append_nil]
    exact h
  | append_singleton events event ih =>
    rw [← List.append_assoc]
    exact (ih fun x hx => hquiet x (List.mem_append_left _ hx)).quiet
      (hquiet event (List.mem_append_right _ (List.mem_singleton_self event)))

end reading

/-! ## The open orders -/

/-- The response that accepted an order. -/
def IsAcceptance (x : MEOrderInfo) (o : MEClientResponse) : Prop :=
  o.client_id_ = x.client_id_ ∧ o.client_order_id_ = x.client_order_id_ ∧
    o.market_order_id_ = x.market_order_id_ ∧ o.side_ = x.side_ ∧ o.price_ = x.price_

/-- **What a log tells of the open orders** `xs`, when `next_id` comes next. -/
structure Known (xs : List MEOrderInfo) (next_id : ℕ) (log : List MEEvent) : Prop where
  fair : FairLog log
  told : ∀ x ∈ xs, (∃ o, Accepted log o ∧ IsAcceptance x o) ∧ ¬ Finished log x.market_order_id_
  accounted : ∀ o, Accepted log o →
    Finished log o.market_order_id_ ∨ ∃ x ∈ xs, IsAcceptance x o
  ids : ∀ r ∈ clientResponses log, r.market_order_id_ < next_id ∨ r.type_ = .CANCEL_REJECTED

open PriorityBook (noQty)

variable {xs ys : List MEOrderInfo} {next_id : ℕ} {log events : List MEEvent}

theorem isAcceptance_congr {x y : MEOrderInfo} {o : MEClientResponse} (h : noQty x = noQty y) :
    IsAcceptance x o ↔ IsAcceptance y o := by
  cases x
  cases y
  simp only [noQty, MEOrderInfo.mk.injEq] at h
  simp [IsAcceptance, h]

theorem market_order_id_congr {x y : MEOrderInfo} (h : noQty x = noQty y) :
    x.market_order_id_ = y.market_order_id_ :=
  (congrArg MEOrderInfo.market_order_id_ h :)

theorem Known.ids_accepted (h : Known xs next_id log) {o : MEClientResponse}
    (ho : Accepted log o) : o.market_order_id_ < next_id := by
  rcases h.ids o ho.1 with hid | htype
  · exact hid
  · rw [ho.2] at htype
    cases htype

/-- **Some orders end**: the events accept none, end those that leave the list, and no others. -/
theorem Known.move (h : Known xs next_id log) (hfair : FairLog (log ++ events))
    (hnone : ∀ o, ¬ Accepted events o)
    (hids : ∀ r ∈ clientResponses events,
      r.market_order_id_ < next_id ∨ r.type_ = .CANCEL_REJECTED)
    (hstay : ∀ y ∈ ys, (∃ x ∈ xs, noQty x = noQty y) ∧ ¬ Finished events y.market_order_id_)
    (hleave : ∀ x ∈ xs, Finished events x.market_order_id_ ∨ ∃ y ∈ ys, noQty x = noQty y) :
    Known ys next_id (log ++ events) where
  fair := hfair
  told := by
    intro y hy
    obtain ⟨⟨x, hx, heq⟩, hopen⟩ := hstay y hy
    obtain ⟨⟨o, ho, hacc⟩, hfin⟩ := h.told x hx
    refine ⟨⟨o, accepted_append.mpr (.inl ho), (isAcceptance_congr heq).mp hacc⟩, fun hdone => ?_⟩
    rcases finished_append.mp hdone with hdone | hdone
    · rw [← market_order_id_congr heq] at hdone
      exact hfin hdone
    · exact hopen hdone
  accounted := by
    intro o ho
    have ho' : Accepted log o := (accepted_append.mp ho).resolve_right (hnone o)
    rw [finished_append]
    rcases h.accounted o ho' with hdone | ⟨x, hx, hacc⟩
    · exact .inl (.inl hdone)
    · rcases hleave x hx with hdone | ⟨y, hy, heq⟩
      · rw [hacc.2.2.1]
        exact .inl (.inr hdone)
      · exact .inr ⟨y, hy, (isAcceptance_congr heq).mp hacc⟩
  ids := by
    intro r hr
    rw [clientResponses_append] at hr
    rcases List.mem_append.mp hr with hr | hr
    · exact h.ids r hr
    · exact hids r hr

theorem Known.perm (h : Known xs next_id log) (hperm : xs.Perm ys) :
    Known ys next_id log where
  fair := h.fair
  told := fun y hy => h.told y (hperm.mem_iff.mpr hy)
  accounted := fun o ho => (h.accounted o ho).imp_right fun ⟨x, hx, hacc⟩ =>
    ⟨x, hperm.mem_iff.mp hx, hacc⟩
  ids := h.ids

theorem Known.empty : Known [] next_id [] where
  fair := .nil
  told := fun _ hx => absurd hx List.not_mem_nil
  accounted := fun _ ho => absurd ho.1 List.not_mem_nil
  ids := fun _ hr => absurd hr List.not_mem_nil

/-! ## The match of an order -/

/-- The incoming order is open until nothing is left of it. -/
def incoming (t : MEOrderInfo) (leaves : ℕ) : List MEOrderInfo := if leaves = 0 then [] else [t]

theorem mem_incoming {t x : MEOrderInfo} {leaves : ℕ} :
    x ∈ incoming t leaves ↔ leaves ≠ 0 ∧ x = t := by
  unfold incoming
  split
  · next h0 => simp [h0]
  · next h0 => simp [h0]

/-- **An order is accepted.** -/
theorem Known.accept {t : MEOrderInfo} (h : Known xs next_id log)
    (hid : t.market_order_id_ = next_id) :
    Known (incoming t t.qty_ ++ xs) (next_id + 1) (log ++ [PriorityBook.acceptedEvent t]) := by
  set r : MEClientResponse :=
    { type_ := .ACCEPTED, client_id_ := t.client_id_, ticker_id_ := t.ticker_id_,
      client_order_id_ := t.client_order_id_, market_order_id_ := t.market_order_id_,
      side_ := t.side_, price_ := t.price_, exec_qty_ := 0, leaves_qty_ := t.qty_ } with hr
  have hevent : PriorityBook.acceptedEvent t = .response r := rfl
  have hresponses : clientResponses [MEEvent.response r] = [r] := rfl
  have hacc : IsAcceptance t r := ⟨rfl, rfl, rfl, rfl, rfl⟩
  -- nothing was told of the new id
  have hfresh : ¬ Finished log next_id := by
    rintro ⟨r', hr', hid', hends⟩
    rcases h.ids r' hr' with hlt | htype
    · exact absurd hid' (Nat.ne_of_lt hlt)
    · rw [Ends, htype] at hends
      exact hends
  have hends : ∀ {id : ℕ}, Finished [.response r] id ↔ t.market_order_id_ = id ∧ t.qty_ = 0 := by
    intro id
    simp [Ends, hr]
  rw [hevent]
  refine ⟨h.fair.quiet (by simp [Quiet, hr]), ?told, ?accounted, ?ids⟩
  case told =>
    intro x hx
    rcases List.mem_append.mp hx with hx | hx
    · obtain ⟨hqty, rfl⟩ := mem_incoming.mp hx
      refine ⟨⟨r, accepted_append.mpr (.inr ⟨List.mem_singleton_self r, rfl⟩), hacc⟩, ?_⟩
      rw [finished_append, hends, hid]
      rintro (hdone | ⟨-, h0⟩)
      · exact hfresh hdone
      · exact hqty h0
    · obtain ⟨⟨o, ho, hacc⟩, hopen⟩ := h.told x hx
      refine ⟨⟨o, accepted_append.mpr (.inl ho), hacc⟩, ?_⟩
      have hlt : x.market_order_id_ < next_id := hacc.2.2.1 ▸ h.ids_accepted ho
      rw [finished_append, hends]
      rintro (hdone | ⟨heq, -⟩)
      · exact hopen hdone
      · omega
  case accounted =>
    intro o ho
    rw [finished_append, hends]
    rcases accepted_append.mp ho with ho | ⟨ho, -⟩
    · rcases h.accounted o ho with hdone | ⟨x, hx, hacc⟩
      · exact .inl (.inl hdone)
      · exact .inr ⟨x, List.mem_append_right _ hx, hacc⟩
    · obtain rfl := List.mem_singleton.mp ho
      by_cases h0 : t.qty_ = 0
      · exact .inl (.inr ⟨rfl, h0⟩)
      · exact .inr ⟨t, List.mem_append_left _ (mem_incoming.mpr ⟨h0, rfl⟩), hacc⟩
  case ids =>
    intro r' hr'
    rw [clientResponses_append, hresponses] at hr'
    rcases List.mem_append.mp hr' with hr' | hr'
    · exact (h.ids r' hr').imp_left Nat.lt_succ_of_lt
    · obtain rfl := List.mem_singleton.mp hr'
      left
      show t.market_order_id_ < next_id + 1
      omega

/-- How the incoming order stands to the orders of its own side and to the makers it meets. -/
structure Facing (t : MEOrderInfo) (own makers : List MEOrderInfo) : Prop where
  side : t.side_.IsTrading
  own_side : ∀ x ∈ own, x.side_ = t.side_
  maker_side : ∀ x ∈ makers, x.side_ = t.side_.opposite
  sorted : makers.Pairwise (PriorityBook.ServedBefore t.side_.opposite)
  qty : ∀ x ∈ makers, 0 < x.qty_
  fresh : ∀ x ∈ own ++ makers, x.market_order_id_ < t.market_order_id_
  nodup : ((own ++ makers).map MEOrderInfo.market_order_id_).Nodup

section match_

variable {t m : MEOrderInfo} {own makers : List MEOrderInfo}

theorem Facing.tail (h : Facing t own (m :: makers)) : Facing t own makers where
  side := h.side
  own_side := h.own_side
  maker_side := fun x hx => h.maker_side x (List.mem_cons_of_mem _ hx)
  sorted := (List.pairwise_cons.mp h.sorted).2
  qty := fun x hx => h.qty x (List.mem_cons_of_mem _ hx)
  fresh := fun x hx => h.fresh x
    (((List.sublist_cons_self m makers).append_left own).subset hx)
  nodup := h.nodup.sublist (((List.sublist_cons_self m makers).append_left own).map _)

/-- The id of the first maker is its own. -/
theorem Facing.ne_head (h : Facing t own (m :: makers)) :
    ∀ x ∈ own ++ makers, m.market_order_id_ ≠ x.market_order_id_ := by
  have hnd := h.nodup
  rw [List.map_append, List.map_cons, List.nodup_middle, ← List.map_append, List.nodup_cons] at hnd
  intro x hx heq
  exact hnd.1 (heq ▸ List.mem_map_of_mem hx)

/-- All open orders ahead of the first maker are done with. -/
theorem Known.first (h : Known xs next_id log) (hf : Facing t own (m :: makers))
    (hxs : ∀ x ∈ xs, x = t ∨ x ∈ own ∨ x ∈ m :: makers) {o o' : MEClientResponse}
    (hm : IsAcceptance m o) (ho' : Accepted log o') (hahead : Ahead o' o) :
    Finished log o'.market_order_id_ := by
  rcases h.accounted o' ho' with hdone | ⟨x, hx, hacc⟩
  · exact hdone
  · exfalso
    obtain ⟨-, -, hmid, hmside, hmprice⟩ := hm
    obtain ⟨-, -, hxid, hxside, hxprice⟩ := hacc
    obtain ⟨hsame, hahead⟩ := hahead
    have hmopp := hf.maker_side m (List.mem_cons_self ..)
    have hxopp : x.side_ = t.side_.opposite := by
      rw [← hxside, hsame, hmside, hmopp]
    rw [hxside, hxopp, hxprice, hmprice, hxid, hmid] at hahead
    rcases hxs x hx with rfl | hown | hmaker
    · exact hf.side.opposite_ne hxopp.symm
    · exact hf.side.opposite_ne (hxopp.symm.trans (hf.own_side x hown))
    · rcases List.mem_cons.mp hmaker with rfl | hmaker
      · rw [Side.better_irrefl] at hahead
        rcases hahead with hahead | ⟨-, hlt⟩
        · cases hahead
        · exact Nat.lt_irrefl _ hlt
      · -- the makers are served in their order
        rcases (List.pairwise_cons.mp hf.sorted).1 x hmaker with hbetter | ⟨hprice, -, hlt⟩
        · rw [Side.better_asymm hbetter] at hahead
          rcases hahead with hahead | ⟨hprice, -⟩
          · cases hahead
          · rw [hprice, Side.better_irrefl] at hbetter
            cases hbetter
        · rw [hprice, Side.better_irrefl] at hahead
          rcases hahead with hahead | ⟨-, hlt'⟩
          · cases hahead
          · exact Nat.lt_asymm hlt hlt'

/-- What is left of the maker. -/
def remaining (m : MEOrderInfo) (fill : ℕ) : List MEOrderInfo :=
  if m.qty_ = fill then [] else [{ m with qty_ := m.qty_ - fill }]

theorem mem_remaining {m x : MEOrderInfo} {fill : ℕ} :
    x ∈ remaining m fill ↔ m.qty_ ≠ fill ∧ x = { m with qty_ := m.qty_ - fill } := by
  unfold remaining
  split
  · next h => simp [h]
  · next h => simp [h]

/-- What the taker is told of a fill. -/
def takerFill (ticker_id : ℕ) (t m : MEOrderInfo) (fill leaves : ℕ) : MEClientResponse :=
  { type_ := .FILLED, client_id_ := t.client_id_, ticker_id_ := ticker_id,
    client_order_id_ := t.client_order_id_, market_order_id_ := t.market_order_id_,
    side_ := t.side_, price_ := m.price_, exec_qty_ := fill, leaves_qty_ := leaves }

/-- What the maker is told of it. -/
def makerFill (ticker_id : ℕ) (m : MEOrderInfo) (fill : ℕ) : MEClientResponse :=
  { type_ := .FILLED, client_id_ := m.client_id_, ticker_id_ := ticker_id,
    client_order_id_ := m.client_order_id_, market_order_id_ := m.market_order_id_,
    side_ := m.side_, price_ := m.price_, exec_qty_ := fill, leaves_qty_ := m.qty_ - fill }

def tradeUpdate (ticker_id : ℕ) (t m : MEOrderInfo) (fill : ℕ) : MEMarketUpdate :=
  { type_ := .TRADE, order_id_ := OrderId_INVALID, ticker_id_ := ticker_id, side_ := t.side_,
    price_ := m.price_, qty_ := fill, priority_ := Priority_INVALID }

/-- The update after the trade is about the maker. -/
theorem fillEvents_eq (ticker_id : ℕ) (t m : MEOrderInfo) (fill leaves : ℕ) :
    ∃ u : MEMarketUpdate, u.type_ ≠ .TRADE ∧
      PriorityBook.fillEvents ticker_id t m fill leaves =
        [.response (takerFill ticker_id t m fill leaves), .response (makerFill ticker_id m fill),
          .update (tradeUpdate ticker_id t m fill)] ++ [.update u] := by
  refine ⟨_, ?_, rfl⟩
  split <;> simp

/-- **The fill is fair.** -/
theorem Known.fairFill {ticker_id leaves fill : ℕ}
    (h : Known (incoming t leaves ++ (own ++ m :: makers)) next_id log)
    (hf : Facing t own (m :: makers)) (hnext : next_id = t.market_order_id_ + 1)
    (hleaves : leaves ≠ 0) (hcross : PriorityBook.crosses t.side_ t.price_ m.price_ = true)
    (hfill : fill = min leaves m.qty_) :
    FairLog (log ++ PriorityBook.fillEvents ticker_id t m fill (leaves - fill)) := by
  have hm : m ∈ own ++ m :: makers := List.mem_append_right _ (List.mem_cons_self ..)
  have hqty := hf.qty m (List.mem_cons_self ..)
  obtain ⟨⟨ot, hot, htacc⟩, htopen⟩ :=
    h.told t (List.mem_append_left _ (mem_incoming.mpr ⟨hleaves, rfl⟩))
  obtain ⟨⟨om, hom, hmacc⟩, hmopen⟩ := h.told m (List.mem_append_right _ hm)
  have hxs : ∀ x ∈ incoming t leaves ++ (own ++ m :: makers), x = t ∨ x ∈ own ∨ x ∈ m :: makers := by
    intro x hx
    rcases List.mem_append.mp hx with hx | hx
    · exact .inl (mem_incoming.mp hx).2
    · exact .inr (List.mem_append.mp hx)
  have hfair : FairFill log (takerFill ticker_id t m fill (leaves - fill))
      (makerFill ticker_id m fill) (tradeUpdate ticker_id t m fill) := by
    refine ⟨⟨rfl, rfl, rfl⟩, ⟨hf.side, hf.maker_side m (List.mem_cons_self ..), rfl⟩, ⟨rfl, rfl⟩,
      ⟨?_, rfl, rfl⟩, ?_, ⟨ot, hot, ?_, ?_, ?_, ?_⟩, ⟨om, hom, ?_, ?_, ?_, ?_⟩⟩
    · show 0 < fill
      omega
    · show leaves - fill = 0 ∨ m.qty_ - fill = 0
      omega
    · exact ⟨htacc.1.symm, htacc.2.1.symm, htacc.2.2.1.symm, htacc.2.2.2.1.symm⟩
    · rw [htacc.2.2.1]
      exact htopen
    · rw [htacc.2.2.2.1, htacc.2.2.2.2]
      exact hcross
    · intro o' ho'
      have hlt := h.ids_accepted ho'
      rw [htacc.2.2.1]
      omega
    · exact ⟨hmacc.1.symm, hmacc.2.1.symm, hmacc.2.2.1.symm, hmacc.2.2.2.1.symm⟩
    · rw [hmacc.2.2.1]
      exact hmopen
    · exact hmacc.2.2.2.2
    · exact fun o' ho' hahead => h.first hf hxs hmacc ho' hahead
  obtain ⟨u, hu, hevents⟩ := fillEvents_eq ticker_id t m fill (leaves - fill)
  rw [hevents, ← List.append_assoc]
  exact (h.fair.fill hfair).quiet hu

theorem finished_fillEvents {ticker_id fill leaves id : ℕ} :
    Finished (PriorityBook.fillEvents ticker_id t m fill leaves) id ↔
      t.market_order_id_ = id ∧ leaves = 0 ∨ m.market_order_id_ = id ∧ m.qty_ - fill = 0 := by
  simp [PriorityBook.fillEvents, Ends]

/-- **After the fill** the taker and the maker are open as long as something is left of them. -/
theorem Known.fill (ticker_id : ℕ) {leaves fill : ℕ}
    (h : Known (incoming t leaves ++ (own ++ m :: makers)) next_id log)
    (hf : Facing t own (m :: makers)) (hnext : next_id = t.market_order_id_ + 1)
    (hleaves : leaves ≠ 0) (hcross : PriorityBook.crosses t.side_ t.price_ m.price_ = true)
    (hfill : fill = min leaves m.qty_) :
    Known (incoming t (leaves - fill) ++ (own ++ (remaining m fill ++ makers))) next_id
      (log ++ PriorityBook.fillEvents ticker_id t m fill (leaves - fill)) := by
  have hm : m ∈ own ++ m :: makers := List.mem_append_right _ (List.mem_cons_self ..)
  have hmt : m.market_order_id_ < t.market_order_id_ := hf.fresh m hm
  have hfill_le : fill ≤ m.qty_ := hfill ▸ Nat.min_le_right ..
  -- the other orders stay what they are
  have hother : ∀ x ∈ own ++ makers, x ∈ incoming t leaves ++ (own ++ m :: makers) ∧
      ¬ Finished (PriorityBook.fillEvents ticker_id t m fill (leaves - fill)) x.market_order_id_ := by
    intro x hx
    have hx' : x ∈ own ++ m :: makers :=
      ((List.sublist_cons_self m makers).append_left own).subset hx
    refine ⟨List.mem_append_right _ hx', ?_⟩
    have hlt := hf.fresh x hx'
    have hne := hf.ne_head x hx
    rw [finished_fillEvents]
    omega
  refine h.move (h.fairFill hf hnext hleaves hcross hfill) ?accepts ?ids ?stay ?leave
  case accepts =>
    intro o
    simp [PriorityBook.fillEvents]
  case ids =>
    intro r hr
    left
    have hresponses : clientResponses
        (PriorityBook.fillEvents ticker_id t m fill (leaves - fill)) =
        [takerFill ticker_id t m fill (leaves - fill), makerFill ticker_id m fill] := rfl
    rw [hresponses, List.mem_pair] at hr
    rcases hr with rfl | rfl
    · show t.market_order_id_ < next_id
      omega
    · show m.market_order_id_ < next_id
      omega
  case stay =>
    intro y hy
    rcases List.mem_append.mp hy with hy | hy
    · obtain ⟨hopen, rfl⟩ := mem_incoming.mp hy
      refine ⟨⟨y, List.mem_append_left _ (mem_incoming.mpr ⟨hleaves, rfl⟩), rfl⟩, ?_⟩
      rw [finished_fillEvents]
      omega
    · rcases List.mem_append.mp hy with hy | hy
      · obtain ⟨hy', hopen⟩ := hother y (List.mem_append_left _ hy)
        exact ⟨⟨y, hy', rfl⟩, hopen⟩
      · rcases List.mem_append.mp hy with hy | hy
        · obtain ⟨hpart, rfl⟩ := mem_remaining.mp hy
          refine ⟨⟨m, List.mem_append_right _ hm, rfl⟩, ?_⟩
          rw [finished_fillEvents]
          simp only
          omega
        · obtain ⟨hy', hopen⟩ := hother y (List.mem_append_right _ hy)
          exact ⟨⟨y, hy', rfl⟩, hopen⟩
  case leave =>
    intro x hx
    rcases List.mem_append.mp hx with hx | hx
    · obtain ⟨-, rfl⟩ := mem_incoming.mp hx
      by_cases h0 : leaves - fill = 0
      · exact .inl (finished_fillEvents.mpr (.inl ⟨rfl, h0⟩))
      · exact .inr ⟨x, List.mem_append_left _ (mem_incoming.mpr ⟨h0, rfl⟩), rfl⟩
    · rcases List.mem_append.mp hx with hx | hx
      · exact .inr ⟨x, List.mem_append_right _ (List.mem_append_left _ hx), rfl⟩
      · rcases List.mem_cons.mp hx with rfl | hx
        · by_cases hfull : x.qty_ = fill
          · exact .inl (finished_fillEvents.mpr (.inr ⟨rfl, by omega⟩))
          · exact .inr ⟨_, List.mem_append_right _ (List.mem_append_right _
              (List.mem_append_left _ (mem_remaining.mpr ⟨hfull, rfl⟩))), rfl⟩
        · exact .inr ⟨x, List.mem_append_right _ (List.mem_append_right _
            (List.mem_append_right _ hx)), rfl⟩

end match_

/-- **After the match**; induction on the makers. -/
theorem Known.sweep (ticker_id : ℕ) {t : MEOrderInfo} {own makers : List MEOrderInfo} :
    ∀ {leaves : ℕ} {log : List MEEvent}, Facing t own makers → next_id = t.market_order_id_ + 1 →
      Known (incoming t leaves ++ (own ++ makers)) next_id log →
      Known (incoming t (PriorityBook.sweep ticker_id t makers leaves).2.1 ++
          (own ++ (PriorityBook.sweep ticker_id t makers leaves).1)) next_id
        (log ++ (PriorityBook.sweep ticker_id t makers leaves).2.2) := by
  induction makers with
  | nil =>
    intro leaves log _ _ h
    simpa [PriorityBook.sweep] using h
  | cons m makers ih =>
    intro leaves log hf hnext h
    rw [PriorityBook.sweep]
    split
    · simpa using h
    · next hgo =>
      obtain ⟨hleaves, hcross⟩ := not_or.mp hgo
      rw [Bool.not_eq_false] at hcross
      have hfilled := h.fill ticker_id hf hnext hleaves hcross rfl
      simp only
      split
      · next hfull =>
        -- the maker is used up, and the next one is met
        rw [remaining, if_pos hfull, List.nil_append] at hfilled
        have hrest := ih hf.tail hnext hfilled
        rw [List.append_assoc] at hrest
        exact hrest
      · next hpart =>
        rw [remaining, if_neg hpart] at hfilled
        exact hfilled

/-! ## Runs -/

section run

open PriorityBook (WF Admits)

variable {P : PriorityBook} {ticker_id : ℕ}

theorem facing_taker (hwf : P.WF) {s : Side} (hs : s.IsTrading) (client_id client_order_id : ℕ)
    (price : ℤ) (qty : ℕ) :
    Facing (P.taker ticker_id client_id client_order_id s price qty) (P.side s)
      (P.side s.opposite) where
  side := hs
  own_side := fun x hx => hwf.side _ hs x hx
  maker_side := fun x hx => hwf.side _ hs.opposite x hx
  sorted := hwf.sorted _ hs.opposite
  qty := fun x hx => (hwf.qty x (PriorityBook.mem_orders.mpr ⟨_, hs.opposite, hx⟩)).1
  fresh := fun x hx => hwf.ids x ((PriorityBook.orders_perm P hs).mem_iff.mpr hx)
  nodup := (((PriorityBook.orders_perm P hs).map _).nodup_iff).mp hwf.ids_nodup

/-- What is left of the incoming order comes to rest. -/
theorem Known.rest {t o : MEOrderInfo} {leaves : ℕ}
    (h : Known (incoming t leaves ++ xs) next_id log) (ho : noQty t = noQty o) :
    Known (incoming o leaves ++ xs) next_id
      (log ++ if leaves = 0 then [] else [PriorityBook.addEvent o]) := by
  unfold incoming at h ⊢
  split at h
  · next h0 =>
    rw [if_pos h0, if_pos h0, List.append_nil]
    exact h
  · next h0 =>
    rw [if_neg h0, if_neg h0]
    refine h.move (h.fair.quiet (by simp [Quiet, PriorityBook.addEvent])) ?_ ?_ ?_ ?_
    · intro o'
      simp [PriorityBook.addEvent]
    · intro r hr
      cases hr
    · intro y hy
      refine ⟨?_, by simp [PriorityBook.addEvent]⟩
      rcases List.mem_cons.mp hy with rfl | hy
      · exact ⟨t, List.mem_cons_self .., ho⟩
      · exact ⟨y, List.mem_cons_of_mem _ hy, rfl⟩
    · intro x hx
      rcases List.mem_cons.mp hx with rfl | hx
      · exact .inr ⟨o, List.mem_cons_self .., ho⟩
      · exact .inr ⟨x, List.mem_cons_of_mem _ hx, rfl⟩

/-- **A new order.** -/
theorem Known.add (h : Known P.orders P.next_id log) (hwf : P.WF) {s : Side} (hs : s.IsTrading)
    (client_id client_order_id : ℕ) (price : ℤ) (qty : ℕ) :
    Known (P.add ticker_id client_id client_order_id s price qty).1.orders
      (P.add ticker_id client_id client_order_id s price qty).1.next_id
      (log ++ (P.add ticker_id client_id client_order_id s price qty).2) := by
  obtain ⟨hopp, hnext, hown⟩ := P.side_add ticker_id client_id client_order_id price qty hs
  have hperm := PriorityBook.orders_perm
    (P.add ticker_id client_id client_order_id s price qty).1 hs
  rw [hopp, hown] at hperm
  have haccepted := (h.perm (PriorityBook.orders_perm P hs)).accept
    (t := P.taker ticker_id client_id client_order_id s price qty) rfl
  have hmatched := haccepted.sweep ticker_id
    (facing_taker hwf hs client_id client_order_id price qty) rfl
  set t := P.taker ticker_id client_id client_order_id s price qty with ht
  set swept := PriorityBook.sweep ticker_id t (P.side s.opposite) qty with hswept
  set o : MEOrderInfo := { t with qty_ := swept.2.1 } with ho
  have hevents : (P.add ticker_id client_id client_order_id s price qty).2 =
      [PriorityBook.acceptedEvent t] ++ swept.2.2 ++
        if swept.2.1 = 0 then [] else [PriorityBook.addEvent o] := by
    rw [PriorityBook.add, ← ht, ← hswept]
    split
    · exact (List.append_nil _).symm
    · rfl
  have hstored : (P.add ticker_id client_id client_order_id s price qty).1.orders.Perm
      (incoming o swept.2.1 ++ (P.side s ++ swept.1)) := by
    refine hperm.trans ?_
    unfold incoming
    split
    · exact List.Perm.refl _
    · exact (List.perm_orderedInsert _ o _).append_right _
  have hqty : t.qty_ = qty := rfl
  rw [hqty, ← hswept] at hmatched
  have hrested := hmatched.rest (o := o) rfl
  rw [hnext, hevents, ← List.append_assoc, ← List.append_assoc]
  exact hrested.perm hstored.symm

/-- **A cancellation** ends the order it finds. -/
theorem Known.cancel (h : Known P.orders P.next_id log) (hwf : P.WF) (client_id order_id : ℕ) :
    Known (P.cancel ticker_id client_id order_id).1.orders
      (P.cancel ticker_id client_id order_id).1.next_id
      (log ++ (P.cancel ticker_id client_id order_id).2) := by
  simp only [PriorityBook.cancel]
  cases hfind : P.find (client_id, order_id) with
  | none =>
    simp only
    refine h.move (h.fair.quiet (by simp [Quiet])) ?_ ?_ ?_ ?_
    · intro o
      simp
    · intro r hr
      rw [List.mem_singleton.mp hr]
      exact .inr rfl
    · exact fun y hy => ⟨⟨y, hy, rfl⟩, by simp [Ends]⟩
    · exact fun x hx => .inr ⟨x, hx, rfl⟩
  | some o =>
    have ho : o ∈ P.orders := List.mem_of_find?_eq_some hfind
    have hkey : PriorityBook.key o = (client_id, order_id) := by
      simpa using List.find?_some hfind
    have herase := PriorityBook.erase_orders P (client_id, order_id)
    have hoid := hwf.ids o ho
    simp only
    refine h.move (h.fair.append ?quiet) ?accepts ?ids ?stay ?leave
    case quiet => simp [Quiet]
    case accepts =>
      intro o'
      simp
    case ids =>
      intro r hr
      rw [List.mem_singleton.mp hr]
      exact .inl hoid
    case stay =>
      intro y hy
      rw [herase] at hy
      obtain ⟨hy, hne⟩ := List.mem_filter.mp hy
      refine ⟨⟨y, hy, rfl⟩, ?_⟩
      -- another order has another id
      have hid : o.market_order_id_ ≠ y.market_order_id_ := by
        intro heq
        rw [List.inj_on_of_nodup_map hwf.ids_nodup ho hy heq] at hkey
        exact of_decide_eq_true hne hkey
      simp [Ends, hid]
    case leave =>
      intro x hx
      by_cases hx' : PriorityBook.key x = (client_id, order_id)
      · rw [List.inj_on_of_nodup_map hwf.keys hx ho (hx'.trans hkey.symm)]
        exact .inl (by simp [Ends])
      · right
        refine ⟨x, ?_, rfl⟩
        rw [herase]
        exact List.mem_filter.mpr ⟨hx, decide_eq_true hx'⟩

theorem Known.step {c : Call} (h : Known P.orders P.next_id log) (hwf : P.WF) (hadm : P.Admits c) :
    Known (P.step ticker_id c).1.orders (P.step ticker_id c).1.next_id
      (log ++ (P.step ticker_id c).2) := by
  cases c with
  | add client_id client_order_id s price qty => exact h.add hwf hadm.1 ..
  | cancel client_id order_id => exact h.cancel hwf ..

/-- **The log of a run tells what rests in the book**; induction on the calls. -/
theorem Known.run {calls : List Call} :
    ∀ {P : PriorityBook} {log : List MEEvent}, Known P.orders P.next_id log → P.WF →
      P.Admitted ticker_id calls →
      Known (P.run ticker_id calls).1.orders (P.run ticker_id calls).1.next_id
        (log ++ (P.run ticker_id calls).2) := by
  induction calls with
  | nil =>
    intro P log h _ _
    rw [PriorityBook.run, List.append_nil]
    exact h
  | cons c calls ih =>
    intro P log h hwf hadm
    have hrest := ih (h.step hwf hadm.1) (hwf.step hadm.1) hadm.2
    rw [List.append_assoc] at hrest
    exact hrest

/-- A book whose sides do not cross leaves no two open orders that could trade. -/
theorem Known.uncrossed (h : Known P.orders P.next_id log) (hwf : P.WF) : Uncrossed log := by
  intro bid ask hbid hask hbuy hsell hprice
  rcases h.accounted bid hbid with hdone | ⟨x, hx, -, -, -, hxside, hxprice⟩
  · exact .inl hdone
  rcases h.accounted ask hask with hdone | ⟨y, hy, -, -, -, hyside, hyprice⟩
  · exact .inr hdone
  rw [hxside] at hbuy
  rw [hyside] at hsell
  -- both rest in the book, the bid below the ask
  have hbids : x ∈ P.bids := by
    rcases List.mem_append.mp hx with hx | hx
    · exact hx
    · have hsell' := hwf.side .SELL (.inr rfl) x hx
      rw [hbuy] at hsell'
      cases hsell'
  have hasks : y ∈ P.asks := by
    rcases List.mem_append.mp hy with hy | hy
    · have hbuy' := hwf.side .BUY (.inl rfl) y hy
      rw [hsell] at hbuy'
      cases hbuy'
    · exact hy
  have hlt := hwf.uncrossed x hbids y hasks
  omega

end run

end Audit

/-- **Price-time priority, seen from outside**: whatever valid requests the clients send, for any
tickers and in any order, the log of each ticker is fair, and leaves no two open orders that could
trade. -/
theorem price_time_priority {base : ℕ → ℤ} {requests : List MEClientRequest} {e : MatchingEngine}
    (hdis : MatchingEngine.Dispatched requests)
    (hvalid : ∀ t, t < ME_MAX_TICKERS → ValidCalls (base t) (callsOf t requests))
    (hrun : MatchingEngine.new.run requests = .ok e) {ticker_id : ℕ}
    (hticker : ticker_id < ME_MAX_TICKERS) :
    Audit.FairLog (eventsOf ticker_id e.sent) ∧ Audit.Uncrossed (eventsOf ticker_id e.sent) := by
  have hadm : ∀ t, t < ME_MAX_TICKERS →
      PriorityBook.empty.Admitted t (callsOf t requests) := fun t ht =>
    PriorityBook.ValidCalls.admitted t (hvalid t ht)
  rcases MatchingEngine.run_spec MatchingEngine.refines_new hdis hadm with
    ⟨e', events, hrun', hsent, -, -, hbooks⟩ | herr
  · obtain rfl : e' = e := Except.ok.inj (hrun'.symm.trans hrun)
    have hknown := Audit.Known.run (P := .empty) Audit.Known.empty PriorityBook.WF.empty
      (hadm _ hticker)
    have hwf := PriorityBook.WF.empty.run (hadm _ hticker)
    have hevents : eventsOf ticker_id e'.sent =
        (PriorityBook.run ticker_id .empty (callsOf ticker_id requests)).2 := by
      rw [hsent]
      exact (hbooks _ hticker).2
    rw [hevents]
    exact ⟨hknown.fair, hknown.uncrossed hwf⟩
  · cases herr.symm.trans hrun

/-- Three bids, the second and the third at the better price, and an ask that takes all of the
second and a part of the third. -/
def threeBids : List MEClientRequest :=
  let order (client_id : ℕ) (side : Side) (price : ℤ) (qty : ℕ) : MEClientRequest :=
    { type_ := .NEW, client_id_ := client_id, ticker_id_ := 0, order_id_ := 1, side_ := side,
      price_ := price, qty_ := qty }
  [order 1 .BUY 10 5, order 2 .BUY 11 5, order 3 .BUY 11 5, order 4 .SELL 10 8]

theorem price_time_priority_threeBids : ∃ e, MatchingEngine.new.run threeBids = .ok e ∧
    (clientResponses e.sent).map (fun r => (r.type_, r.client_id_)) =
      [(.ACCEPTED, 1), (.ACCEPTED, 2), (.ACCEPTED, 3), (.ACCEPTED, 4),
        (.FILLED, 4), (.FILLED, 2), (.FILLED, 4), (.FILLED, 3)] ∧
    Audit.FairLog (eventsOf 0 e.sent) ∧ Audit.Uncrossed (eventsOf 0 e.sent) := by
  have hfills : (MatchingEngine.new.run threeBids).toOption.map
      (fun e => (clientResponses e.sent).map fun r => (r.type_, r.client_id_)) =
      some [(.ACCEPTED, 1), (.ACCEPTED, 2), (.ACCEPTED, 3), (.ACCEPTED, 4),
        (.FILLED, 4), (.FILLED, 2), (.FILLED, 4), (.FILLED, 3)] := by decide +kernel
  cases hrun : MatchingEngine.new.run threeBids with
  | error err =>
    rw [hrun] at hfills
    cases hfills
  | ok e =>
    rw [hrun] at hfills
    have hvalid : ∀ t, t < ME_MAX_TICKERS → ValidCalls 0 (callsOf t threeBids) := by
      intro t _
      by_cases ht : t = 0
      · subst ht
        exact ⟨by simp [callsOf, threeBids, MEClientRequest.call?, Call.Valid, Side.IsTrading,
          ME_MAX_NUM_CLIENTS, ME_MAX_ORDER_IDS, ME_MAX_PRICE_LEVELS], by decide⟩
      · have hnil : callsOf t threeBids = [] := by simp [callsOf, threeBids, Ne.symm ht]
        rw [hnil]
        exact ⟨by simp, List.nodup_nil⟩
    refine ⟨e, rfl, Option.some.inj hfills, ?_⟩
    exact price_time_priority
      (by simp [MatchingEngine.Dispatched, threeBids, MEClientRequest.call?, ME_MAX_TICKERS])
      hvalid hrun (by decide)

end TradingEcosystem
