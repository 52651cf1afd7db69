import TradingEcosystem.Trading.OrderManager

/-!
# An Order Manager and an Exchange

What connects an order manager to an exchange: a channel of requests and a channel of responses,
both first in first out, and the orders the exchange works for the client.  The exchange here is
any that answers a new order with ACCEPTED, then with FILLEDs that lower what is left of it, with
at most one CANCELED, and with CANCEL_REJECTED when the order to cancel is finished.

- `Link.Answer`, `Link.Step` : what the exchange may do
- `Told` : what is left to be told about an order
- `Phase` : what the state of an order manager's order says about the messages in flight
-/

namespace TradingEcosystem

/-- An order the exchange works. -/
structure WorkingOrder where
  side_ : Side
  leaves_qty_ : ℕ
  deriving DecidableEq, Repr

/-- What is in flight between the two parties, and what the exchange works. -/
structure Link where
  requests : List MEClientRequest
  responses : List MEClientResponse
  /-- By ticker and client order id. -/
  working : ℕ → ℕ → Option WorkingOrder

namespace Link

def empty : Link := ⟨[], [], fun _ _ => none⟩

/-- The order manager sent requests. -/
def ask (k : Link) (requests : List MEClientRequest) : Link :=
  { k with requests := k.requests ++ requests }

/-- The exchange sends responses. -/
def send (k : Link) (responses : List MEClientResponse) : Link :=
  { k with responses := k.responses ++ responses }

def setWorking (k : Link) (ticker_id order_id : ℕ) (w : Option WorkingOrder) : Link :=
  { k with
    working := fun t id => if t = ticker_id ∧ id = order_id then w else k.working t id }

/-- One answer of the exchange, to a request or about an order it works.  It need not keep an order
of quantity zero. -/
inductive Answer : Link → Link → Prop where
  | accept {k : Link} {q : MEClientRequest} {rest : List MEClientRequest} {r : MEClientResponse}
      (hrequests : k.requests = q :: rest) (hnew : q.type_ = .NEW)
      (htype : r.type_ = .ACCEPTED) (hticker : r.ticker_id_ = q.ticker_id_)
      (hid : r.client_order_id_ = q.order_id_) (hside : r.side_ = q.side_) :
      Answer k (({ k with requests := rest }.setWorking q.ticker_id_ q.order_id_
        (some ⟨q.side_, q.qty_⟩)).send [r])
  | fill {k : Link} {r : MEClientResponse} {w : WorkingOrder}
      (hw : k.working r.ticker_id_ r.client_order_id_ = some w) (htype : r.type_ = .FILLED)
      (hside : r.side_ = w.side_) (hexec : 0 < r.exec_qty_)
      (hleaves : r.exec_qty_ + r.leaves_qty_ = w.leaves_qty_) :
      Answer k ((k.setWorking r.ticker_id_ r.client_order_id_
        (if r.leaves_qty_ = 0 then none else some ⟨w.side_, r.leaves_qty_⟩)).send [r])
  | cancel {k : Link} {q : MEClientRequest} {rest : List MEClientRequest} {r : MEClientResponse}
      {w : WorkingOrder} (hrequests : k.requests = q :: rest) (hcancel : q.type_ = .CANCEL)
      (hw : k.working q.ticker_id_ q.order_id_ = some w) (htype : r.type_ = .CANCELED)
      (hticker : r.ticker_id_ = q.ticker_id_) (hid : r.client_order_id_ = q.order_id_)
      (hside : r.side_ = w.side_) :
      Answer k (({ k with requests := rest }.setWorking q.ticker_id_ q.order_id_ none).send [r])
  | reject {k : Link} {q : MEClientRequest} {rest : List MEClientRequest} {r : MEClientResponse}
      (hrequests : k.requests = q :: rest) (hcancel : q.type_ = .CANCEL)
      (hw : k.working q.ticker_id_ q.order_id_ = none) (htype : r.type_ = .CANCEL_REJECTED) :
      Answer k ({ k with requests := rest }.send [r])
  | drop {k : Link} {ticker_id order_id : ℕ} {w : WorkingOrder}
      (hw : k.working ticker_id order_id = some w) (hzero : w.leaves_qty_ = 0) :
      Answer k (k.setWorking ticker_id order_id none)

/-- One step of the exchange.  It may also take an order off its book unasked. -/
inductive Step : Link → Link → Prop where
  | answer {k k' : Link} (h : Answer k k') : Step k k'
  | expire {k : Link} {r : MEClientResponse} {w : WorkingOrder}
      (hw : k.working r.ticker_id_ r.client_order_id_ = some w) (htype : r.type_ = .CANCELED)
      (hside : r.side_ = w.side_) :
      Step k ((k.setWorking r.ticker_id_ r.client_order_id_ none).send [r])

/-! ## The part of one ticker and side -/

/-- The new orders asked for. -/
def newsFor (k : Link) (ticker_id : ℕ) (side : Side) : List MEClientRequest :=
  k.requests.filter fun q => decide (q.type_ = .NEW ∧ q.ticker_id_ = ticker_id ∧ q.side_ = side)

/-- A response that says something about an order of a ticker and side. -/
def Concerns (ticker_id : ℕ) (side : Side) (r : MEClientResponse) : Prop :=
  (r.type_ = .ACCEPTED ∨ r.type_ = .FILLED ∨ r.type_ = .CANCELED) ∧ r.ticker_id_ = ticker_id ∧
    r.side_ = side

instance (ticker_id : ℕ) (side : Side) : DecidablePred (Concerns ticker_id side) := fun _ =>
  inferInstanceAs (Decidable (_ ∧ _))

def answersFor (k : Link) (ticker_id : ℕ) (side : Side) : List MEClientResponse :=
  k.responses.filter fun r => decide (Concerns ticker_id side r)

/-- The quantity left of an order, if it is of the side. -/
def leavesOn (side : Side) (w : Option WorkingOrder) : Option ℕ :=
  w.bind fun w => if w.side_ = side then some w.leaves_qty_ else none

/-- The quantities left at the exchange, by order id. -/
def openFor (k : Link) (ticker_id : ℕ) (side : Side) : ℕ → Option ℕ :=
  fun id => leavesOn side (k.working ticker_id id)

section

variable {k : Link} {t t' id : ℕ} {s s' : Side} {w : Option WorkingOrder}

@[simp] theorem leavesOn_some (l : ℕ) : leavesOn s (some ⟨s, l⟩) = some l := if_pos rfl

theorem leavesOn_some_of_ne {w : WorkingOrder} (h : w.side_ ≠ s) : leavesOn s (some w) = none :=
  if_neg h

theorem openFor_setWorking_self :
    (k.setWorking t id w).openFor t s = Function.update (k.openFor t s) id (leavesOn s w) := by
  funext id'
  by_cases hid : id' = id
  · subst hid
    simp [openFor, setWorking]
  · simp [openFor, setWorking, hid]

theorem openFor_setWorking_of_ne (ht : t' ≠ t) :
    (k.setWorking t id w).openFor t' s = k.openFor t' s := by
  funext id'
  simp [openFor, setWorking, ht]

theorem answersFor_send (responses : List MEClientResponse) :
    (k.send responses).answersFor t s =
      k.answersFor t s ++ responses.filter fun r => decide (Concerns t s r) :=
  List.filter_append ..

theorem newsFor_ask (requests : List MEClientRequest) :
    (k.ask requests).newsFor t s =
      k.newsFor t s ++ requests.filter fun q =>
        decide (q.type_ = .NEW ∧ q.ticker_id_ = t ∧ q.side_ = s) :=
  List.filter_append ..

end

end Link

open Link

/-! ## What is left to be told -/

/-- The owner of an order was told that `qty` is left of it; `rs` is still to be told, and then
`left` remains at the exchange.  Only an order of quantity zero can be gone without a word. -/
def Told : ℕ → List MEClientResponse → Option ℕ → Prop
  | qty, [], left => left = some qty ∨ qty = 0 ∧ left = none
  | qty, r :: rs, left =>
    (r.type_ = .CANCELED ∧ rs = [] ∧ left = none) ∨
      r.type_ = .FILLED ∧ 0 < r.exec_qty_ ∧ r.exec_qty_ + r.leaves_qty_ = qty ∧
        if r.leaves_qty_ = 0 then rs = [] ∧ left = none else Told r.leaves_qty_ rs left

namespace Told

variable {qty left : ℕ} {rs more : List MEClientResponse} {r : MEClientResponse} {left' : Option ℕ}

/-- What is told of an order that is open goes on from what is left of it; induction on what is
still to be told. -/
theorem append (hmore : Told left more left') :
    ∀ {qty : ℕ}, Told qty rs (some left) → Told qty (rs ++ more) left' := by
  induction rs with
  | nil =>
    intro qty h
    rcases h with h | ⟨_, h⟩
    · obtain rfl := Option.some.inj h
      exact hmore
    · cases h
  | cons first rs ih =>
    intro qty h
    rcases h with ⟨_, _, h⟩ | ⟨hfilled, hpos, hsum, h⟩
    · -- a CANCELED leaves nothing open
      cases h
    · refine .inr ⟨hfilled, hpos, hsum, ?_⟩
      split at h
      · cases h.2
      · next hopen =>
        rw [if_neg hopen]
        exact ih h

/-- The exchange fills an order. -/
theorem fill (htype : r.type_ = .FILLED) (hexec : 0 < r.exec_qty_)
    (hleaves : r.exec_qty_ + r.leaves_qty_ = left) (h : Told qty rs (some left)) :
    Told qty (rs ++ [r]) (if r.leaves_qty_ = 0 then none else some r.leaves_qty_) := by
  have hfill : Told left [r] (if r.leaves_qty_ = 0 then none else some r.leaves_qty_) := by
    refine .inr ⟨htype, hexec, hleaves, ?_⟩
    split
    · exact ⟨rfl, rfl⟩
    · exact .inl rfl
  exact append hfill h

/-- The exchange takes an order off its book. -/
theorem close (htype : r.type_ = .CANCELED) (h : Told qty rs (some left)) :
    Told qty (rs ++ [r]) none := by
  have hend : Told left [r] none := .inl ⟨htype, rfl, rfl⟩
  exact append hend h

/-- The exchange forgets an order of quantity zero. -/
theorem drop (h : Told qty rs (some 0)) : Told qty rs none := by
  have hnone : Told 0 [] none := .inr ⟨rfl, rfl⟩
  have hgone := append hnone h
  rw [List.append_nil] at hgone
  exact hgone

end Told

/-! ## The phases of an order -/

/-- What the state of the order manager's order of a ticker and side says about that ticker and
side: the new orders asked for, the answers in flight, and what is open at the exchange. -/
def Phase (client_id : ℕ) (o : OMOrder) (news : List MEClientRequest)
    (answers : List MEClientResponse) (left : ℕ → Option ℕ) : Prop :=
  match o.order_state_ with
  -- nothing is in flight and nothing is open
  | .INVALID | .DEAD => news = [] ∧ answers = [] ∧ ∀ id, left id = none
  -- the request is on its way, or it was accepted and the answers are
  | .PENDING_NEW =>
    (news = [o.newRequest client_id] ∧ answers = [] ∧ ∀ id, left id = none) ∨
      news = [] ∧ (∃ r rs, answers = r :: rs ∧ r.type_ = .ACCEPTED ∧
        Told o.qty_ rs (left o.order_id_)) ∧ ∀ id, id ≠ o.order_id_ → left id = none
  -- the answers on their way take the quantity known here to what is open
  | .LIVE | .PENDING_CANCEL =>
    news = [] ∧ Told o.qty_ answers (left o.order_id_) ∧ ∀ id, id ≠ o.order_id_ → left id = none

namespace Phase

variable {c id l : ℕ} {o : OMOrder} {news : List MEClientRequest}
  {answers more : List MEClientResponse} {left : ℕ → Option ℕ} {l' : Option ℕ}
  {r : MEClientResponse}

/-- The states an order may be in, as far as they matter here. -/
theorem state_cases (o : OMOrder) :
    (o.order_state_ = .INVALID ∨ o.order_state_ = .DEAD) ∨ o.order_state_ = .PENDING_NEW ∨
      o.order_state_ = .LIVE ∨ o.order_state_ = .PENDING_CANCEL := by
  cases o.order_state_ <;> simp

/-- Nothing is under way for an order that is not working. -/
theorem idle_iff (hstate : o.order_state_ = .INVALID ∨ o.order_state_ = .DEAD) :
    Phase c o news answers left ↔ news = [] ∧ answers = [] ∧ ∀ id, left id = none := by
  unfold Phase
  rcases hstate with hstate | hstate
  · simp only [hstate]
  · simp only [hstate]

/-- An order that was asked for is in the channel, or was accepted. -/
theorem asked_iff (hstate : o.order_state_ = .PENDING_NEW) :
    Phase c o news answers left ↔
      (news = [o.newRequest c] ∧ answers = [] ∧ ∀ id, left id = none) ∨
        news = [] ∧ (∃ r rs, answers = r :: rs ∧ r.type_ = .ACCEPTED ∧
          Told o.qty_ rs (left o.order_id_)) ∧ ∀ id, id ≠ o.order_id_ → left id = none := by
  unfold Phase
  simp only [hstate]

/-- An order that is working is told of. -/
theorem working_iff (hstate : o.order_state_ = .LIVE ∨ o.order_state_ = .PENDING_CANCEL) :
    Phase c o news answers left ↔ news = [] ∧ Told o.qty_ answers (left o.order_id_) ∧
      ∀ id, id ≠ o.order_id_ → left id = none := by
  unfold Phase
  rcases hstate with hstate | hstate
  · simp only [hstate]
  · simp only [hstate]

/-- What is open after a step that concerns the order `order_id` only. -/
theorem others_update {order_id : ℕ} (hid : id = order_id)
    (hothers : ∀ id, id ≠ order_id → left id = none) (l' : Option ℕ) :
    ∀ id', id' ≠ order_id → Function.update left id l' id' = none := by
  intro id' hne
  rw [Function.update_of_ne (hid ▸ hne)]
  exact hothers id' hne

/-- An order that is open is the one the order manager keeps. -/
theorem id_of_open (h : Phase c o news answers left) (hleft : left id = some l) :
    id = o.order_id_ := by
  by_contra hne
  rcases state_cases o with hstate | hstate | hstate
  · cases (((idle_iff hstate).mp h).2.2 id).symm.trans hleft
  · rcases (asked_iff hstate).mp h with ⟨_, _, hnone⟩ | ⟨_, _, hothers⟩
    · cases (hnone id).symm.trans hleft
    · cases (hothers id hne).symm.trans hleft
  · cases (((working_iff hstate).mp h).2.2 id hne).symm.trans hleft

/-- The exchange says something about an order it works. -/
theorem answer (h : Phase c o news answers left) (hleft : left id = some l)
    (htold : ∀ qty rs, Told qty rs (some l) → Told qty (rs ++ more) l') :
    Phase c o news (answers ++ more) (Function.update left id l') := by
  have hid := h.id_of_open hleft
  rcases state_cases o with hstate | hstate | hstate
  · cases (((idle_iff hstate).mp h).2.2 id).symm.trans hleft
  · rw [asked_iff hstate] at h ⊢
    rcases h with ⟨_, _, hnone⟩ | ⟨hnews, ⟨r, rs, rfl, hr, hrs⟩, hothers⟩
    · cases (hnone id).symm.trans hleft
    · refine .inr ⟨hnews, ⟨r, rs ++ more, rfl, hr, ?_⟩, others_update hid hothers l'⟩
      rw [← hid, hleft] at hrs
      rw [← hid, Function.update_self]
      exact htold _ _ hrs
  · rw [working_iff hstate] at h ⊢
    obtain ⟨hnews, hrs, hothers⟩ := h
    refine ⟨hnews, ?_, others_update hid hothers l'⟩
    rw [← hid, hleft] at hrs
    rw [← hid, Function.update_self]
    exact htold _ _ hrs

/-- The only new order asked for is the one the order manager keeps. -/
theorem mem_news {q : MEClientRequest} (h : Phase c o news answers left) (hq : q ∈ news) :
    q = o.newRequest c ∧ o.order_state_ = .PENDING_NEW := by
  have hnil : news ≠ [] := List.ne_nil_of_mem hq
  rcases state_cases o with hstate | hstate | hstate
  · exact absurd ((idle_iff hstate).mp h).1 hnil
  · rcases (asked_iff hstate).mp h with ⟨hnews, _⟩ | ⟨hnews, _⟩
    · rw [hnews] at hq
      exact ⟨List.mem_singleton.mp hq, hstate⟩
    · exact absurd hnews hnil
  · exact absurd ((working_iff hstate).mp h).1 hnil

/-- The exchange accepts the order asked for. -/
theorem accept {q : MEClientRequest} {rest : List MEClientRequest}
    (h : Phase c o (q :: rest) answers left) (hr : r.type_ = .ACCEPTED) :
    rest = [] ∧ q = o.newRequest c ∧ o.order_state_ = .PENDING_NEW ∧
      Phase c o [] (answers ++ [r]) (Function.update left q.order_id_ (some q.qty_)) := by
  obtain ⟨rfl, hstate⟩ := h.mem_news (List.mem_cons_self ..)
  rw [asked_iff hstate] at h ⊢
  rcases h with ⟨hnews, rfl, hnone⟩ | ⟨hnews, _⟩
  · obtain ⟨-, rfl⟩ := List.cons.inj hnews
    refine ⟨rfl, rfl, hstate, .inr ⟨rfl, ⟨r, [], rfl, hr, ?_⟩, ?_⟩⟩
    · rw [show (o.newRequest c).order_id_ = o.order_id_ from rfl, Function.update_self]
      exact .inl rfl
    · exact others_update rfl (fun id _ => hnone id) _
  · cases hnews

/-- Only an order that was sent is answered. -/
theorem sent_of_cons (h : Phase c o news (r :: answers) left) : o.order_state_ ≠ .INVALID := by
  intro hinvalid
  cases ((idle_iff (.inl hinvalid)).mp h).2.1

/-- **What an answer finds the order in**: asked for and accepted now, or working. -/
theorem answer_cases (h : Phase c o news (r :: answers) left) :
    (o.order_state_ = .PENDING_NEW ∧ r.type_ = .ACCEPTED ∧ Told o.qty_ answers (left o.order_id_) ∨
      (o.order_state_ = .LIVE ∨ o.order_state_ = .PENDING_CANCEL) ∧
        Told o.qty_ (r :: answers) (left o.order_id_)) ∧
      news = [] ∧ ∀ id, id ≠ o.order_id_ → left id = none := by
  rcases state_cases o with hstate | hstate | hstate
  · cases ((idle_iff hstate).mp h).2.1
  · rcases (asked_iff hstate).mp h with ⟨_, hnil, _⟩ | ⟨hnews, ⟨a, rs, hcons, ha, htold⟩, hothers⟩
    · cases hnil
    · obtain ⟨rfl, rfl⟩ := List.cons.inj hcons
      exact ⟨.inl ⟨hstate, ha, htold⟩, hnews, hothers⟩
  · obtain ⟨hnews, htold, hothers⟩ := (working_iff hstate).mp h
    exact ⟨.inr ⟨hstate, htold⟩, hnews, hothers⟩

/-- The order manager hears the next answer. -/
theorem deliver (h : Phase c o news (r :: answers) left) :
    Phase c (OrderManager.updated o r) news answers left := by
  obtain ⟨hcases, hnews, hothers⟩ := h.answer_cases
  have hgone : left o.order_id_ = none → ∀ id, left id = none := by
    intro hnone id
    by_cases hid : id = o.order_id_
    · rw [hid]
      exact hnone
    · exact hothers id hid
  rcases hcases with ⟨_, haccepted, htold⟩ | ⟨hstate, htold⟩
  · rw [OrderManager.updated_of_accepted haccepted]
    exact (working_iff (.inl rfl)).mpr ⟨hnews, htold, hothers⟩
  · -- an order that is working hears of a fill or of its end
    rcases htold with ⟨hcanceled, hlast, hnone⟩ | ⟨hfilled, _, _, hrest⟩
    · rw [OrderManager.updated_of_canceled hcanceled]
      exact (idle_iff (.inr rfl)).mpr ⟨hnews, hlast, hgone hnone⟩
    · split at hrest
      · next hzero =>
        rw [OrderManager.updated_of_filled hfilled hzero]
        exact (idle_iff (.inr rfl)).mpr ⟨hnews, hrest.1, hgone hrest.2⟩
      · next hopen =>
        rw [OrderManager.updated_of_partly_filled hfilled hopen]
        have hstate' : ({ o with qty_ := r.leaves_qty_ } : OMOrder).order_state_ = .LIVE ∨
            ({ o with qty_ := r.leaves_qty_ } : OMOrder).order_state_ = .PENDING_CANCEL := hstate
        exact (working_iff hstate').mpr ⟨hnews, hrest, hothers⟩

end Phase

end TradingEcosystem
