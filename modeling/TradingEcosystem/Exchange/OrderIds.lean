import TradingEcosystem.Book.Frames
import TradingEcosystem.Exchange.MEOrderBook
import TradingEcosystem.Lib.Runs

/-!
# Market Order Ids

Every message about an order should carry the id that was generated for it.  `checkForMatch` takes
the id as a `Qty`, so the fills of an incoming order carry its last 32 bits.

- `Ledger` : what is noted while a book runs, in whatever state its memory is: the order stored in
  each block, and for each message the order it is about
- `OneId` : every message carries the id generated for its order, and no two orders share an id
- `oneId_run_iff` : in every run, exactly when the ids of incoming orders that trade fit a `Qty`
-/

namespace TradingEcosystem

open LimitBook
open Lib.Runs (Along)

/-- The market order id a message carries. -/
def MEEvent.market_order_id : MEEvent → ℕ
  | .response r => r.market_order_id_
  | .update u => u.order_id_

namespace MEOrderBook

/-! ## The ledger -/

/-- What is noted while a book runs. -/
structure Ledger where
  /-- By block of the pool: the id generated for the order that was stored there last. -/
  owner : ℕ → ℕ
  /-- The ids that were generated. -/
  generated : List ℕ := []
  /-- By message: the id generated for the order it is about, if it is about one. -/
  about : List (Option ℕ) := []

namespace Ledger

def note (L : Ledger) (about : List (Option ℕ)) : Ledger := { L with about := L.about ++ about }

/-- A new order, and the client is told that it was accepted. -/
def accepted (L : Ledger) (id : ℕ) : Ledger :=
  { L with generated := L.generated ++ [id] }.note [some id]

/-- `match` tells both clients, the market of the trade, and what becomes of the resting order. -/
def matched (L : Ledger) (id itr : ℕ) : Ledger :=
  L.note [some id, some (L.owner itr), none, some (L.owner itr)]

/-- What is left of the order is stored and announced. -/
def stored (L : Ledger) (id block : ℕ) : Ledger :=
  { L with owner := Function.update L.owner block id }.note [some id]

end Ledger

/-- `add`, up to the message that the order was accepted. -/
def accepted (b : MEOrderBook) (client_id client_order_id : ℕ) (side : Side) (price : ℤ)
    (qty : ℕ) : MEOrderBook :=
  b.generateNewMarketOrderId.2.sendClientResponse
    { type_ := .ACCEPTED, client_id_ := client_id, ticker_id_ := b.ticker_id_,
      client_order_id_ := client_order_id, market_order_id_ := b.next_market_order_id_,
      side_ := side, price_ := price, exec_qty_ := 0, leaves_qty_ := qty }

/-- The resting order that the next iteration of `checkForMatch` looks at. -/
def firstOpposite (b : MEOrderBook) (side : Side) : Option ℕ :=
  (b.book.best side.opposite).bind fun l => (b.book.level l).first_order_

/-- `matchLoop`, noting whom its messages are about.  `id` was generated for the incoming order. -/
def matchLoopLedger (ticker_id client_id : ℕ) (side : Side)
    (client_order_id new_market_order_id : ℕ) (price : ℤ) (id : ℕ) :
    ℕ → MEOrderBook → ℕ → Ledger → Ledger
  | 0, _, _, L => L
  | fuel + 1, b, leaves_qty, L =>
    match b.firstOpposite side with
    | none => L
    | some itr =>
      if leaves_qty = 0 ∨ side.worse price (b.order itr).price_ = true then
        L
      else
        match b.matchOrder ticker_id client_id side client_order_id new_market_order_id itr
          leaves_qty with
        | .error _ => L
        | .ok r =>
          matchLoopLedger ticker_id client_id side client_order_id new_market_order_id price id
            fuel r.1 r.2 (L.matched id itr)

/-- `checkForMatch`, with the fuel and the truncated id it gives the loop. -/
def checkForMatchLedger (b : MEOrderBook) (client_id client_order_id ticker_id : ℕ) (side : Side)
    (price : ℤ) (qty id : ℕ) (L : Ledger) : Ledger :=
  if side = .BUY ∨ side = .SELL then
    matchLoopLedger ticker_id client_id side client_order_id (id % 2 ^ 32) price id
      (b.book.order_pool_.size + 1) b qty L
  else
    L

/-- One call. -/
def stepLedger (b : MEOrderBook) (L : Ledger) : Call → Ledger
  | .add client_id client_order_id side price qty =>
    let id := b.next_market_order_id_
    let b' := b.accepted client_id client_order_id side price qty
    let L' := b'.checkForMatchLedger client_id client_order_id b.ticker_id_ side price qty id
      (L.accepted id)
    match b'.checkForMatch client_id client_order_id b.ticker_id_ side price qty id with
    | .error _ => L'
    | .ok r => if r.2 ≠ 0 then L'.stored id r.1.book.order_pool_.next_free_index_ else L'
  | .cancel client_id order_id =>
    match b.findCancelable client_id order_id with
    | .ok (some o) => L.note [some (L.owner o), some (L.owner o)]
    | _ => L.note [none]

/-- The calls of a run. -/
def runLedger : MEOrderBook → Ledger → List Call → Ledger
  | _, L, [] => L
  | b, L, call :: calls =>
    match b.step call with
    | .error _ => L
    | .ok b' => runLedger b' (b.stepLedger L call) calls

/-- A message is about no order, or carries the id that was generated for its order. -/
def Carries (about : Option ℕ) (event : MEEvent) : Prop :=
  about = none ∨ about = some event.market_order_id

instance (about : Option ℕ) (event : MEEvent) : Decidable (Carries about event) :=
  inferInstanceAs (Decidable (_ ∨ _))

/-- **An order keeps one market order id**: every message sent carries the one generated for its
order, and no id was generated twice. -/
def OneId (b : MEOrderBook) (L : Ledger) : Prop :=
  List.Forall₂ Carries L.about b.sent ∧ L.generated.Nodup

/-- An incoming order of this price would trade. -/
def Trades (b : MEOrderBook) (side : Side) (price : ℤ) (qty : ℕ) : Prop :=
  (side = .BUY ∨ side = .SELL) ∧ qty ≠ 0 ∧
    ∃ itr ∈ b.firstOpposite side, side.worse price (b.order itr).price_ = false

instance (b : MEOrderBook) (side : Side) (price : ℤ) (qty : ℕ) :
    Decidable (b.Trades side price qty) := inferInstanceAs (Decidable (_ ∧ _ ∧ _))

/-- If an incoming order trades, its id fits a `Qty`. -/
def IdFitsQty (b : MEOrderBook) : Call → Prop
  | .add _ _ side price qty => b.Trades side price qty → b.next_market_order_id_ < 2 ^ 32
  | .cancel _ _ => True

instance (b : MEOrderBook) : DecidablePred b.IdFitsQty
  | .add .. => inferInstanceAs (Decidable (_ → _))
  | .cancel .. => isTrue trivial

/-- What the ledger says of a book. -/
structure Noted (b : MEOrderBook) (L : Ledger) : Prop where
  owner : ∀ p, (b.order p).market_order_id_ = L.owner p
  length : L.about.length = b.sent.length
  generated : ∀ id ∈ L.generated, id < b.next_market_order_id_
  distinct : L.generated.Nodup

/-! ## One match -/

variable {b b' : MEOrderBook} {L : Ledger} {ticker_id client_id client_order_id : ℕ} {side : Side}
  {price : ℤ} {new_market_order_id itr leaves_qty leaves_qty' id : ℕ}

theorem order_removeOrder {o : ℕ} (hrun : b.removeOrder o = .ok b') :
    (∀ p, b'.order p = b.order p) ∧ b'.sent = b.sent ∧
      b'.next_market_order_id_ = b.next_market_order_id_ := by
  obtain ⟨book, hbook, hrun⟩ := bind_eq_ok.mp hrun
  cases hrun
  exact ⟨sameInfo_removeOrder hbook, rfl, rfl⟩

/-- Only the quantity of an order is written. -/
theorem market_order_id_modInfo (book : LimitBook MEOrderInfo (ℕ × ℕ)) (o : ℕ) (qty : ℕ → ℕ)
    (p : ℕ) :
    ((book.modInfo o fun order => { order with qty_ := qty order.qty_ }).order p).info.market_order_id_
      = (book.order p).info.market_order_id_ := by
  unfold modInfo
  rw [order_modOrder]
  split
  · next heq => rw [heq]
  · rfl

/-- The four messages of a match. -/
theorem sent_four (b : MEOrderBook) (taker maker : MEClientResponse) (trade update : MEMarketUpdate) :
    ((((b.sendClientResponse taker).sendClientResponse maker).sendMarketUpdate
      trade).sendMarketUpdate update).sent =
        b.sent ++ [.response taker, .response maker, .update trade, .update update] := by
  simp [sendMarketUpdate, sendClientResponse]

/-- What a match sends, whatever the state of the memory. -/
theorem matchOrder_sent
    (hrun : b.matchOrder ticker_id client_id side client_order_id new_market_order_id itr leaves_qty
      = .ok (b', leaves_qty')) :
    (∃ taker maker trade update, b'.sent = b.sent ++ [taker, maker, trade, update] ∧
      taker.market_order_id = new_market_order_id ∧
      maker.market_order_id = (b.order itr).market_order_id_ ∧
      update.market_order_id = (b.order itr).market_order_id_) ∧
    (∀ p, (b'.order p).market_order_id_ = (b.order p).market_order_id_) ∧
    b'.next_market_order_id_ = b.next_market_order_id_ := by
  have hid := market_order_id_modInfo b.book itr
    (fun qty => qtySub qty (min leaves_qty (b.order itr).qty_))
  unfold matchOrder at hrun
  simp only at hrun
  split at hrun
  · -- the resting order is used up
    obtain ⟨b₁, hremove, hrun⟩ := bind_eq_ok.mp hrun
    cases hrun
    obtain ⟨horder, hsent, hnext⟩ := order_removeOrder hremove
    refine ⟨⟨_, _, _, _, hsent.trans (sent_four ..), rfl,
      hid itr, hid itr⟩, fun p => ?_, hnext⟩
    rw [horder]
    exact hid p
  · cases hrun
    exact ⟨⟨_, _, _, _, sent_four .., rfl, hid itr, hid itr⟩,
      hid, rfl⟩

/-! ## One call -/

/-- The messages sent so far carry the ids of their orders. -/
def AllCarry (b : MEOrderBook) (L : Ledger) : Prop := List.Forall₂ Carries L.about b.sent

theorem forall₂_append_iff {α β : Type} {R : α → β → Prop} {xs xs' : List α} {ys ys' : List β}
    (hlength : xs.length = ys.length) :
    List.Forall₂ R (xs ++ xs') (ys ++ ys') ↔ List.Forall₂ R xs ys ∧ List.Forall₂ R xs' ys' := by
  induction xs generalizing ys with
  | nil =>
    obtain rfl := List.eq_nil_of_length_eq_zero hlength.symm
    simp
  | cons x xs ih =>
    cases ys with
    | nil => cases hlength
    | cons y ys => simp [ih (Nat.succ.inj hlength), and_assoc]

/-- **A match** tells the truth about the resting order, and about the incoming one if the id it is
given is the one that was generated. -/
theorem Noted.matchOrder (id : ℕ) (h : Noted b L)
    (hrun : b.matchOrder ticker_id client_id side client_order_id new_market_order_id itr leaves_qty
      = .ok (b', leaves_qty')) :
    Noted b' (L.matched id itr) ∧ b'.next_market_order_id_ = b.next_market_order_id_ ∧
      (AllCarry b' (L.matched id itr) ↔ AllCarry b L ∧ new_market_order_id = id) := by
  obtain ⟨⟨taker, maker, trade, update, hsent, htaker, hmaker, hupdate⟩, hids, hnext⟩ :=
    matchOrder_sent hrun
  rw [h.owner itr] at hmaker hupdate
  refine ⟨⟨fun p => ?owner, ?length, ?generated, h.distinct⟩, hnext, ?carry⟩
  case owner =>
    rw [hids]
    exact h.owner p
  case length =>
    rw [hsent, List.length_append, ← h.length]
    exact List.length_append
  case generated =>
    rw [hnext]
    exact h.generated
  case carry =>
    unfold AllCarry
    rw [hsent]
    refine (forall₂_append_iff h.length).trans (and_congr_right fun _ => ?_)
    simp [Carries, htaker, hmaker, hupdate, eq_comm]

/-- The next iteration of the loop trades. -/
def GoesOn (b : MEOrderBook) (side : Side) (price : ℤ) (leaves_qty : ℕ) : Prop :=
  leaves_qty ≠ 0 ∧ ∃ itr ∈ b.firstOpposite side, side.worse price (b.order itr).price_ = false

/-- An iteration of the loop: it stops, or matches the order it looks at. -/
theorem matchLoop_cases {fuel : ℕ}
    (hrun : matchLoop ticker_id client_id side client_order_id new_market_order_id price (fuel + 1) b
      leaves_qty = .ok (b', leaves_qty')) :
    (¬ b.GoesOn side price leaves_qty ∧ b' = b) ∨
    ∃ itr b₁ left, b.GoesOn side price leaves_qty ∧ b.firstOpposite side = some itr ∧
      side.worse price (b.order itr).price_ = false ∧
      b.matchOrder ticker_id client_id side client_order_id new_market_order_id itr leaves_qty =
        .ok (b₁, left) ∧
      matchLoop ticker_id client_id side client_order_id new_market_order_id price fuel b₁ left =
        .ok (b', leaves_qty') := by
  unfold matchLoop at hrun
  by_cases hzero : leaves_qty = 0
  · rw [if_pos hzero] at hrun
    cases hrun
    exact .inl ⟨fun hgo => hgo.1 hzero, rfl⟩
  · rw [if_neg hzero] at hrun
    split at hrun
    · -- no order is left on the other side
      rename_i hbest
      cases hrun
      refine .inl ⟨fun hgo => ?_, rfl⟩
      obtain ⟨-, itr, hitr, -⟩ := hgo
      simp [firstOpposite, hbest] at hitr
    · rename_i l hbest
      obtain ⟨itr, hfirst, hrun⟩ := bind_eq_ok.mp hrun
      have hitr : b.firstOpposite side = some itr := by
        simp [firstOpposite, hbest, deref_eq_ok.mp hfirst]
      split at hrun
      · -- the first one does not trade at this price
        rename_i hworse
        cases hrun
        refine .inl ⟨fun hgo => ?_, rfl⟩
        obtain ⟨-, itr', hitr', hcrosses⟩ := hgo
        obtain rfl := Option.some.inj (hitr.symm.trans hitr')
        exact Bool.false_ne_true (hcrosses.symm.trans hworse)
      · rename_i hcrosses
        obtain ⟨⟨b₁, left⟩, hmatch, hrun⟩ := bind_eq_ok.mp hrun
        have hcrosses := Bool.eq_false_iff.mpr hcrosses
        exact .inr ⟨itr, b₁, left, ⟨hzero, itr, hitr, hcrosses⟩, hitr, hcrosses, hmatch, hrun⟩

/-- **The loop of `checkForMatch`**: once it trades at all, its messages are right exactly if it was
given the id that was generated; induction on its iterations. -/
theorem Noted.matchLoop (id : ℕ) {fuel : ℕ} :
    ∀ {b : MEOrderBook} {L : Ledger} {leaves_qty : ℕ}, Noted b L →
      matchLoop ticker_id client_id side client_order_id new_market_order_id price fuel b leaves_qty
        = .ok (b', leaves_qty') →
      ∃ L', matchLoopLedger ticker_id client_id side client_order_id new_market_order_id price id fuel
          b leaves_qty L = L' ∧ Noted b' L' ∧
        b'.next_market_order_id_ = b.next_market_order_id_ ∧
        (AllCarry b' L' ↔
          AllCarry b L ∧ (b.GoesOn side price leaves_qty → new_market_order_id = id)) := by
  induction fuel with
  | zero =>
    intro b L leaves_qty _ hrun
    cases hrun
  | succ fuel ih =>
    intro b L leaves_qty h hrun
    unfold matchLoopLedger
    rcases matchLoop_cases hrun with ⟨hstop, rfl⟩ | ⟨itr, b₁, left, hgo, hitr, hcrosses, hmatch, hrun⟩
    · refine ⟨L, ?_, h, rfl, (and_iff_left fun hgo => absurd hgo hstop).symm⟩
      split
      · rfl
      · rename_i itr hitr
        apply if_pos
        by_contra hgo
        obtain ⟨hzero, hcrosses⟩ := not_or.mp hgo
        exact hstop ⟨hzero, itr, hitr, Bool.eq_false_iff.mpr hcrosses⟩
    · have hgo' : ¬ (leaves_qty = 0 ∨ side.worse price (b.order itr).price_ = true) := by
        rintro (hzero | hworse)
        · exact hgo.1 hzero
        · exact Bool.false_ne_true (hcrosses.symm.trans hworse)
      obtain ⟨h₁, hnext₁, hcarry₁⟩ := h.matchOrder id hmatch
      obtain ⟨L', hL', h', hnext', hcarry'⟩ := ih h₁ hrun
      simp only [hitr, if_neg hgo', hmatch]
      refine ⟨L', hL', h', hnext'.trans hnext₁, ?_⟩
      -- this iteration has told with which id the loop goes on
      rw [hcarry', hcarry₁]
      constructor
      · rintro ⟨⟨hbefore, hid⟩, -⟩
        exact ⟨hbefore, fun _ => hid⟩
      · rintro ⟨hbefore, hid⟩
        exact ⟨⟨hbefore, hid hgo⟩, fun _ => hid hgo⟩

/-- One message more, about the order it carries the id of or about none. -/
theorem allCarry_note {event : MEEvent} {about : Option ℕ} (hlength : L.about.length = b.sent.length)
    (hsent : b'.sent = b.sent ++ [event]) (hevent : Carries about event) :
    AllCarry b' (L.note [about]) ↔ AllCarry b L := by
  unfold AllCarry
  rw [hsent]
  refine (forall₂_append_iff hlength).trans (and_iff_left ?_)
  exact .cons hevent .nil

/-- The message that an order is accepted. -/
theorem Noted.accepted (h : Noted b L) (client_id client_order_id : ℕ) (side : Side) (price : ℤ)
    (qty : ℕ) :
    Noted (b.accepted client_id client_order_id side price qty)
        (L.accepted b.next_market_order_id_) ∧
      (AllCarry (b.accepted client_id client_order_id side price qty)
        (L.accepted b.next_market_order_id_) ↔ AllCarry b L) := by
  refine ⟨⟨h.owner, ?length, fun id hid => ?generated, ?distinct⟩, ?carry⟩
  case length =>
    show (L.about ++ _).length = (b.sent ++ _).length
    rw [List.length_append, List.length_append, h.length]
    rfl
  case generated =>
    show id < b.next_market_order_id_ + 1
    rcases List.mem_append.mp hid with hid | hid
    · exact Nat.lt_succ_of_lt (h.generated id hid)
    · rw [List.mem_singleton.mp hid]
      exact Nat.lt_succ_self _
  case distinct =>
    refine List.nodup_append.mpr ⟨h.distinct, List.nodup_singleton _, ?_⟩
    intro id hid id' hid' heq
    rw [List.mem_singleton.mp hid'] at heq
    exact Nat.ne_of_lt (h.generated id hid) heq
  case carry =>
    exact allCarry_note (L := { L with generated := _ }) h.length rfl (.inr rfl)

/-- What is left of an order is stored under the id that was generated. -/
theorem Noted.addRemaining (h : Noted b L)
    (hrun : b.addRemaining client_id client_order_id ticker_id id side price leaves_qty = .ok b') :
    Noted b' (L.stored id b.book.order_pool_.next_free_index_) ∧
      (AllCarry b' (L.stored id b.book.order_pool_.next_free_index_) ↔ AllCarry b L) ∧
      b'.next_market_order_id_ = b.next_market_order_id_ := by
  obtain ⟨priority, -, hrun⟩ := bind_eq_ok.mp hrun
  obtain ⟨book, hbook, hrun⟩ := bind_eq_ok.mp hrun
  cases hrun
  refine ⟨⟨fun p => ?_, ?_, h.generated, h.distinct⟩, ?_, rfl⟩
  · show (book.order p).info.market_order_id_ = Function.update L.owner _ id p
    rw [insertOrder_info hbook p]
    by_cases hp : p = b.book.order_pool_.next_free_index_
    · rw [if_pos hp, hp, Function.update_self]
    · rw [if_neg hp, Function.update_of_ne hp]
      exact h.owner p
  · show (L.about ++ _).length = (b.sent ++ _).length
    rw [List.length_append, List.length_append, h.length]
    rfl
  · exact allCarry_note (L := { L with owner := _ }) h.length rfl (.inr rfl)

/-- `add`, taken apart. -/
theorem add_eq_ok {qty : ℕ}
    (hrun : b.add client_id client_order_id ticker_id side price qty = .ok b')
    (hticker : ticker_id = b.ticker_id_) :
    ∃ r, (b.accepted client_id client_order_id side price qty).checkForMatch client_id
        client_order_id ticker_id side price qty b.next_market_order_id_ = .ok r ∧
      ((r.2 ≠ 0 ∧ r.1.addRemaining client_id client_order_id ticker_id b.next_market_order_id_ side
          price r.2 = .ok b') ∨ (r.2 = 0 ∧ b' = r.1)) := by
  subst hticker
  obtain ⟨r, hmatch, hrun⟩ := bind_eq_ok.mp hrun
  refine ⟨r, hmatch, ?_⟩
  simp only at hrun
  split at hrun
  · rename_i hleft
    exact .inl ⟨hleft, hrun⟩
  · rename_i hleft
    exact .inr ⟨not_not.mp hleft, (Except.ok.inj hrun).symm⟩

/-- The search for orders to trade with. -/
theorem Noted.checkForMatch {qty : ℕ} {r : MEOrderBook × ℕ} (h : Noted b L)
    (hrun : b.checkForMatch client_id client_order_id ticker_id side price qty id = .ok r) :
    ∃ L', b.checkForMatchLedger client_id client_order_id ticker_id side price qty id L = L' ∧
      Noted r.1 L' ∧ r.1.next_market_order_id_ = b.next_market_order_id_ ∧
      (AllCarry r.1 L' ↔ AllCarry b L ∧ (b.Trades side price qty → id < 2 ^ 32)) := by
  unfold MEOrderBook.checkForMatch at hrun
  unfold checkForMatchLedger
  split at hrun
  · rename_i hside
    obtain ⟨L', hL', h', hnext, hcarry⟩ := h.matchLoop id hrun
    rw [if_pos hside]
    refine ⟨L', hL', h', hnext, hcarry.trans (and_congr_right fun _ => ?_)⟩
    have htrades : b.Trades side price qty ↔ b.GoesOn side price qty := and_iff_right hside
    have hfits : id % 2 ^ 32 = id ↔ id < 2 ^ 32 := Nat.mod_eq_iff_lt (by decide)
    rw [htrades, hfits]
  · rename_i hside
    cases hrun
    rw [if_neg hside]
    exact ⟨L, rfl, h, rfl, (and_iff_left fun htrades => absurd htrades.1 hside).symm⟩

/-- **One call** keeps the ledger, and its messages are right exactly if an id that is used in a
trade fits a `Qty`. -/
theorem Noted.step {call : Call} (h : Noted b L) (hrun : b.step call = .ok b') :
    Noted b' (b.stepLedger L call) ∧
      (AllCarry b' (b.stepLedger L call) ↔ AllCarry b L ∧ b.IdFitsQty call) := by
  cases call with
  | add client_id client_order_id side price qty =>
    obtain ⟨r, hmatch, hrest⟩ := add_eq_ok hrun rfl
    obtain ⟨haccepted, hcarry₁⟩ := h.accepted client_id client_order_id side price qty
    obtain ⟨L', hL', h', -, hcarry'⟩ := haccepted.checkForMatch hmatch
    have htrades : (b.accepted client_id client_order_id side price qty).Trades side price qty ↔
        b.Trades side price qty := Iff.rfl
    rw [hcarry₁, htrades] at hcarry'
    unfold stepLedger
    simp only [hmatch, hL']
    rcases hrest with ⟨hleft, hremaining⟩ | ⟨hnone, rfl⟩
    · obtain ⟨hstored, hcarry, -⟩ := h'.addRemaining hremaining
      rw [if_pos hleft]
      exact ⟨hstored, hcarry.trans hcarry'⟩
    · rw [if_neg (not_not.mpr hnone)]
      exact ⟨h', hcarry'⟩
  | cancel client_id order_id =>
    obtain ⟨found, hfound, hrun⟩ := bind_eq_ok.mp hrun
    unfold stepLedger
    simp only [hfound]
    cases found with
    | none =>
      -- rejected
      cases hrun
      refine ⟨⟨h.owner, ?_, h.generated, h.distinct⟩, ?_⟩
      · show (L.about ++ _).length = (b.sent ++ _).length
        rw [List.length_append, List.length_append, h.length]
        rfl
      · exact (allCarry_note h.length rfl (.inl rfl)).trans (and_iff_left trivial).symm
    | some o =>
      obtain ⟨b₁, hremove, hrun⟩ := bind_eq_ok.mp hrun
      obtain ⟨horder, hsent, hnext⟩ := order_removeOrder hremove
      cases hrun
      refine ⟨⟨fun p => ?_, ?_, ?_, h.distinct⟩, ?_⟩
      · show (b₁.order p).market_order_id_ = _
        rw [horder]
        exact h.owner p
      · show (L.about ++ _).length = (b₁.sent ++ [_] ++ [_]).length
        rw [hsent]
        simp [h.length]
      · show ∀ id ∈ L.generated, id < b₁.next_market_order_id_
        rw [hnext]
        exact h.generated
      · unfold AllCarry
        show List.Forall₂ Carries (L.about ++ [some (L.owner o), some (L.owner o)])
          (b₁.sent ++ [_] ++ [_]) ↔ _
        rw [hsent, List.append_assoc]
        refine (forall₂_append_iff h.length).trans (and_congr_right fun _ => ?_)
        rw [← h.owner o]
        exact iff_of_true (.cons (.inr rfl) (.cons (.inr rfl) .nil)) trivial

/-! ## Runs -/

/-- A run from any state of the book; induction on the calls. -/
theorem Noted.run {calls : List Call} :
    ∀ {b : MEOrderBook} {L : Ledger}, Noted b L → b.run calls = .ok b' →
      Noted b' (b.runLedger L calls) ∧
        (AllCarry b' (b.runLedger L calls) ↔ AllCarry b L ∧ Along MEOrderBook.step IdFitsQty b calls) := by
  induction calls with
  | nil =>
    intro b L h hrun
    cases hrun
    exact ⟨h, (and_iff_left trivial).symm⟩
  | cons call calls ih =>
    intro b L h hrun
    obtain ⟨b₁, hstep, hrest⟩ := Lib.Runs.foldlM_cons_eq_ok.mp hrun
    obtain ⟨h₁, hcarry⟩ := h.step hstep
    obtain ⟨h', hcarry'⟩ := ih h₁ hrest
    unfold runLedger
    simp only [hstep]
    rw [Lib.Runs.along_cons_of_ok hstep, hcarry', hcarry, and_assoc]
    exact ⟨h', Iff.rfl⟩

/-- A new book whose next market order id is `next_market_order_id`. -/
def newFrom (ticker_id next_market_order_id : ℕ) : MEOrderBook :=
  { new ticker_id with next_market_order_id_ := next_market_order_id }

/-- Nothing was sent yet, and every block holds a default order. -/
def Ledger.new : Ledger where
  owner := fun _ => OrderId_INVALID

theorem noted_newFrom (ticker_id next_market_order_id : ℕ) :
    Noted (newFrom ticker_id next_market_order_id) .new where
  owner := fun _ => rfl
  length := rfl
  generated := fun _ hid => absurd hid List.not_mem_nil
  distinct := List.nodup_nil

/-- **An order keeps one market order id** in every message of a run, whatever the calls and
wherever the counter starts, exactly when the id of every incoming order that trades fits a
`Qty`. -/
theorem oneId_run_iff (ticker_id next_market_order_id : ℕ) {calls : List Call}
    (hrun : (newFrom ticker_id next_market_order_id).run calls = .ok b) :
    OneId b ((newFrom ticker_id next_market_order_id).runLedger .new calls) ↔
      Along step IdFitsQty (newFrom ticker_id next_market_order_id) calls := by
  obtain ⟨h, hcarry⟩ := (noted_newFrom ticker_id next_market_order_id).run hrun
  exact (and_iff_left h.distinct).trans (hcarry.trans (and_iff_right .nil))

/-- An order to sell rests, and one to buy trades with it. -/
def sellAndBuy : List Call := [.add 1 1 .SELL 10 5, .add 2 1 .BUY 10 3]

/-- With the counter below 2^32 this is fine. -/
theorem oneId_run_iff_sellAndBuy :
    ∃ b, (newFrom 0 1).run sellAndBuy = .ok b ∧ OneId b ((newFrom 0 1).runLedger .new sellAndBuy) := by
  obtain ⟨b, hrun⟩ := exists_ok_of_isOk (show ((newFrom 0 1).run sellAndBuy).isOk = true by
    decide +kernel)
  exact ⟨b, hrun, (oneId_run_iff 0 1 hrun).mpr (by decide +kernel)⟩

/-- **A truncated id**: with the counter at 2^32 the buyer is told that order 1 was filled, and
it was accepted as order 4294967297. -/
theorem not_oneId_sellAndBuy :
    ¬ ∀ b, (newFrom 0 (2 ^ 32)).run sellAndBuy = .ok b →
      OneId b ((newFrom 0 (2 ^ 32)).runLedger .new sellAndBuy) := by
  intro h
  obtain ⟨b, hrun⟩ := exists_ok_of_isOk (show ((newFrom 0 (2 ^ 32)).run sellAndBuy).isOk = true by
    decide +kernel)
  have hfits := (((noted_newFrom 0 (2 ^ 32)).run hrun).2.mp (h b hrun).1).2
  revert hfits
  decide +kernel

end MEOrderBook

end TradingEcosystem
