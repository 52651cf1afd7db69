import TradingEcosystem.System.AtMostOne

/-!
# No Order Is Stuck

What an order manager waits for is on its way: an order that is asked for or being canceled has a
message in flight that moves it on, and a live one rests.

- `Prompt` : a cancel is in flight exactly for the orders being canceled, or they are finished
- `Prompt.of_answer`, `Prompt.moveOrder`, `Prompt.deliver` : kept by both parties
- `NotStuck`, `notStuck_run` : every run in which no order of quantity zero is sent
-/

namespace TradingEcosystem

open Link Relation OrderManager
open PriorityBook (key)

variable {F σ ι : Type}

/-- What an order manager waits for. -/
structure Prompt (m : OrderManager) (k : Link) : Prop where
  /-- Nobody cancels an order that the order manager did not cancel. -/
  uncanceled : ∀ t s, s.IsTrading → ((m.ticker_side_order_ t s).order_state_ = .PENDING_NEW ∨
      (m.ticker_side_order_ t s).order_state_ = .LIVE) →
    (∀ q ∈ k.requests, q.type_ = .CANCEL →
      q.order_id_ ≠ (m.ticker_side_order_ t s).order_id_) ∧
    ∀ r ∈ k.answersFor t s, r.type_ ≠ .CANCELED
  /-- The cancel is in flight, or nothing of the order is open. -/
  canceling : ∀ t s, s.IsTrading → (m.ticker_side_order_ t s).order_state_ = .PENDING_CANCEL →
    (∃ q ∈ k.requests, q.type_ = .CANCEL ∧ q.ticker_id_ = t ∧
      q.order_id_ = (m.ticker_side_order_ t s).order_id_) ∨
    k.openFor t s (m.ticker_side_order_ t s).order_id_ = none
  qty : ∀ t s, s.IsTrading → ((m.ticker_side_order_ t s).order_state_ = .PENDING_NEW ∨
      (m.ticker_side_order_ t s).order_state_ = .LIVE ∨
      (m.ticker_side_order_ t s).order_state_ = .PENDING_CANCEL) →
    (m.ticker_side_order_ t s).qty_ ≠ 0

/-- An order that is gone from the exchange, and was not empty, is about to be heard of for the
last time; induction on what is to be told. -/
theorem Told.exists_final {rs : List MEClientResponse} :
    ∀ {qty : ℕ}, qty ≠ 0 → Told qty rs none → ∃ r ∈ rs, r.IsFinal := by
  induction rs with
  | nil =>
    intro qty hqty h
    rcases h with h | ⟨hzero, _⟩
    · cases h
    · exact absurd hzero hqty
  | cons r rs ih =>
    intro qty _ h
    rcases h with ⟨hcanceled, _⟩ | ⟨hfilled, _, _, h⟩
    · exact ⟨r, List.mem_cons_self .., .inl hcanceled⟩
    · split at h
      · next hzero => exact ⟨r, List.mem_cons_self .., .inr ⟨hfilled, hzero⟩⟩
      · next hopen =>
        obtain ⟨r', hr', hfinal⟩ := ih hopen h
        exact ⟨r', List.mem_cons_of_mem _ hr', hfinal⟩

/-- The states an answer leads to. -/
theorem Phase.updated_state {c : ℕ} {o : OMOrder} {news : List MEClientRequest}
    {r : MEClientResponse} {answers : List MEClientResponse} {left : ℕ → Option ℕ}
    (h : Phase c o news (r :: answers) left) :
    (updated o r).order_state_ = .DEAD ∨
      (((o.order_state_ = .PENDING_NEW ∨ o.order_state_ = .LIVE) ∧
          (updated o r).order_state_ = .LIVE ∨
        o.order_state_ = .PENDING_CANCEL ∧ (updated o r).order_state_ = .PENDING_CANCEL) ∧
      (o.qty_ ≠ 0 → (updated o r).qty_ ≠ 0)) := by
  obtain ⟨hcases, _⟩ := h.answer_cases
  rcases hcases with ⟨hstate, haccepted, _⟩ | ⟨hstate, htold⟩
  · rw [updated_of_accepted haccepted]
    exact .inr ⟨.inl ⟨.inl hstate, rfl⟩, fun hqty => hqty⟩
  · rcases htold with ⟨hcanceled, _⟩ | ⟨hfilled, _⟩
    · rw [updated_of_canceled hcanceled]
      exact .inl rfl
    · by_cases hzero : r.leaves_qty_ = 0
      · rw [updated_of_filled hfilled hzero]
        exact .inl rfl
      · -- a fill that leaves something leaves the state
        rw [updated_of_partly_filled hfilled hzero]
        refine .inr ⟨?_, fun _ => hzero⟩
        rcases hstate with hlive | hpending
        · exact .inl ⟨.inr hlive, hlive⟩
        · exact .inr ⟨hpending, hpending⟩

namespace Prompt

variable {m m' : OrderManager} {k k' : Link} {t : ℕ} {s : Side} {r : MEClientResponse}

theorem new (client_id : ℕ) : Prompt (OrderManager.new client_id) Link.empty where
  uncanceled := by
    intro t s _ hstate
    rcases hstate with hstate | hstate
    · cases hstate
    · cases hstate
  canceling := by
    intro t s _ hstate
    cases hstate
  qty := by
    intro t s _ hstate
    rcases hstate with hstate | hstate | hstate
    · cases hstate
    · cases hstate
    · cases hstate

/-! ### The exchange -/

/-- What an answer may do to the messages in flight and to what is open. -/
theorem of_changes (h : Prompt m k) (hrequests : ∀ q ∈ k'.requests, q ∈ k.requests)
    (hanswers : ∀ t s, s.IsTrading → ((m.ticker_side_order_ t s).order_state_ = .PENDING_NEW ∨
        (m.ticker_side_order_ t s).order_state_ = .LIVE) →
      ∀ r ∈ k'.answersFor t s, r ∈ k.answersFor t s ∨ r.type_ ≠ .CANCELED)
    (htaken : ∀ t s, s.IsTrading → ∀ q ∈ k.requests, q.type_ = .CANCEL → q.ticker_id_ = t →
      q ∈ k'.requests ∨ k'.openFor t s q.order_id_ = none)
    (hopen : ∀ t s, s.IsTrading → (m.ticker_side_order_ t s).order_state_ = .PENDING_CANCEL →
      ∀ id, k.openFor t s id = none → k'.openFor t s id = none) : Prompt m k' where
  uncanceled := by
    intro t s hs hstate
    obtain ⟨hnone, hcanceled⟩ := h.uncanceled t s hs hstate
    refine ⟨fun q hq => hnone q (hrequests q hq), fun r hr => ?_⟩
    rcases hanswers t s hs hstate r hr with hold | hnew
    · exact hcanceled r hold
    · exact hnew
  canceling := by
    intro t s hs hstate
    rcases h.canceling t s hs hstate with ⟨q, hq, htype, hticker, hid⟩ | hnone
    · rcases htaken t s hs q hq htype hticker with hkept | hgone
      · exact .inl ⟨q, hkept, htype, hticker, hid⟩
      · exact .inr (hid ▸ hgone)
    · exact .inr (hopen t s hs hstate _ hnone)
  qty := h.qty

theorem mem_answersFor_send {responses : List MEClientResponse}
    (hr : r ∈ (k.send responses).answersFor t s) :
    r ∈ k.answersFor t s ∨ r ∈ responses ∧ Concerns t s r := by
  rw [answersFor_send] at hr
  rcases List.mem_append.mp hr with hr | hr
  · exact .inl hr
  · obtain ⟨hmem, hconcerns⟩ := List.mem_filter.mp hr
    exact .inr ⟨hmem, of_decide_eq_true hconcerns⟩

/-- What is not open stays so, if the order that changes is not opened. -/
theorem openFor_setWorking_eq_none {t' id id' : ℕ} {w : Option WorkingOrder}
    (hnone : k.openFor t s id = none) (hw : t = t' → id = id' → leavesOn s w = none) :
    (k.setWorking t' id' w).openFor t s id = none := by
  by_cases ht : t = t'
  · subst ht
    rw [openFor_setWorking_self]
    by_cases hid : id = id'
    · subst hid
      rw [Function.update_self]
      exact hw rfl rfl
    · rw [Function.update_of_ne hid]
      exact hnone
  · rw [openFor_setWorking_of_ne ht]
    exact hnone

/-- **An answer of the exchange keeps the promise.** -/
theorem of_answer (h : Prompt m k) (hslots : Slots m k) (hanswer : Answer k k') : Prompt m k' := by
  -- one more response, of another type
  have hne : ∀ {r : MEClientResponse} {type : ClientResponseType}, r.type_ = type →
      type ≠ .CANCELED → ∀ (k : Link) t s, ∀ r' ∈ (k.send [r]).answersFor t s,
        r' ∈ k.answersFor t s ∨ r'.type_ ≠ .CANCELED := by
    intro r type htype hcanceled k t s r' hr'
    apply (mem_answersFor_send hr').imp_right
    intro hr'
    rw [List.mem_singleton.mp hr'.1, htype]
    exact hcanceled
  cases hanswer with
  | @accept q rest r hrequests hnew htype hticker hid hside =>
    apply h.of_changes
    · intro q' hq'
      exact hrequests ▸ List.mem_cons_of_mem _ hq'
    · intro t s _ _ r' hr'
      exact hne htype (by decide) _ t s r' hr'
    · intro t s _ q' hq' hcancel _
      left
      rw [hrequests] at hq'
      rcases List.mem_cons.mp hq' with rfl | hq'
      · cases hnew.symm.trans hcancel
      · exact hq'
    · intro t s hs hstate id hnone
      refine openFor_setWorking_eq_none (k := { k with requests := rest }) hnone fun ht _ => ?_
      apply leavesOn_some_of_ne
      -- the order of this side is not the one asked for
      rintro rfl
      subst ht
      have hmem : q ∈ k.requests := hrequests ▸ List.mem_cons_self ..
      cases hstate.symm.trans (hslots.slot_of_new hmem hnew).2
  | @fill r w hw htype hside hexec hleaves =>
    apply h.of_changes
    · intro q hq
      exact hq
    · intro t s _ _ r' hr'
      exact hne htype (by decide) _ t s r' hr'
    · intro t s _ q hq _ _
      exact .inl hq
    · intro t s hs hstate id hnone
      refine openFor_setWorking_eq_none (k := k) hnone fun ht hid => ?_
      subst ht hid
      split
      · rfl
      · apply leavesOn_some_of_ne
        intro heq
        rw [openFor, hw] at hnone
        cases hnone.symm.trans (if_pos heq)
  | @cancel q rest r w hrequests hcancel hw htype hticker hid hside =>
    have hmem : q ∈ k.requests := hrequests ▸ List.mem_cons_self ..
    apply h.of_changes
    · intro q' hq'
      exact hrequests ▸ List.mem_cons_of_mem _ hq'
    · intro t s hs hstate r' hr'
      rcases mem_answersFor_send hr' with hold | ⟨hr'', hconcerns⟩
      · exact .inl hold
      · -- the order manager would have to cancel an order it did not cancel
        rw [List.mem_singleton.mp hr''] at hconcerns
        obtain ⟨_, ht, hside'⟩ := hconcerns
        rw [hticker] at ht
        rw [hside] at hside'
        subst ht hside'
        have hself := (hslots.phase q.ticker_id_ w.side_ hs).id_of_open
          (Slots.openFor_of_working hw)
        exact absurd hself ((h.uncanceled q.ticker_id_ w.side_ hs hstate).1 q hmem hcancel)
    · intro t s _ q' hq' _ ht
      rw [hrequests] at hq'
      rcases List.mem_cons.mp hq' with rfl | hq'
      · right
        subst ht
        show (({ k with requests := rest } : Link).setWorking _ _ none).openFor _ s _ = none
        rw [openFor_setWorking_self, Function.update_self]
        rfl
      · exact .inl hq'
    · intro t s hs hstate id hnone
      exact openFor_setWorking_eq_none (k := { k with requests := rest }) hnone fun _ _ => rfl
  | @reject q rest r hrequests hcancel hw htype =>
    apply h.of_changes
    · intro q' hq'
      exact hrequests ▸ List.mem_cons_of_mem _ hq'
    · intro t s _ _ r' hr'
      exact hne htype (by decide) _ t s r' hr'
    · intro t s _ q' hq' _ ht
      rw [hrequests] at hq'
      rcases List.mem_cons.mp hq' with rfl | hq'
      · right
        subst ht
        show leavesOn s (k.working _ _) = none
        rw [hw]
        rfl
      · exact .inl hq'
    · intro t s _ _ id hnone
      exact hnone
  | @drop t' id' w hw hzero =>
    apply h.of_changes
    · intro q hq
      exact hq
    · intro t s _ _ r hr
      exact .inl hr
    · intro t s _ q hq _ _
      exact .inl hq
    · intro t s hs hstate id hnone
      exact openFor_setWorking_eq_none (k := k) hnone fun _ _ => rfl

theorem of_answers (h : Prompt m k) (hslots : Slots m k) (hanswers : ReflTransGen Answer k k') :
    Prompt m k' := by
  induction hanswers with
  | refl => exact h
  | tail hbefore hanswer ih => exact ih.of_answer (hslots.of_answers hbefore) hanswer

/-! ### The order manager -/

/-- An order is put in its place and a request about it is sent. -/
theorem replace {o : OMOrder} {q : MEClientRequest} (m' : OrderManager) (h : Prompt m k)
    (hslot : ∀ t' s', m'.ticker_side_order_ t' s' =
      if t' = t ∧ s' = s then o else m.ticker_side_order_ t' s')
    (hcancel : q.type_ = .CANCEL → ∀ t' s', s'.IsTrading → ¬ (t' = t ∧ s' = s) →
      (m.ticker_side_order_ t' s').order_state_ ≠ .INVALID →
      q.order_id_ ≠ (m.ticker_side_order_ t' s').order_id_)
    (huncanceled : o.order_state_ = .PENDING_NEW ∨ o.order_state_ = .LIVE →
      (∀ q' ∈ k.requests ++ [q], q'.type_ = .CANCEL → q'.order_id_ ≠ o.order_id_) ∧
        ∀ r ∈ k.answersFor t s, r.type_ ≠ .CANCELED)
    (hcanceling : o.order_state_ = .PENDING_CANCEL →
      q.type_ = .CANCEL ∧ q.ticker_id_ = t ∧ q.order_id_ = o.order_id_)
    (hqty : o.qty_ ≠ 0) : Prompt m' (k.ask [q]) where
  uncanceled := by
    intro t' s' hs' hstate
    rw [hslot] at hstate ⊢
    by_cases heq : t' = t ∧ s' = s
    · rw [if_pos heq] at hstate ⊢
      obtain ⟨rfl, rfl⟩ := heq
      exact huncanceled hstate
    · rw [if_neg heq] at hstate ⊢
      obtain ⟨hnone, hcanceled⟩ := h.uncanceled t' s' hs' hstate
      refine ⟨fun q' hq' htype => ?_, hcanceled⟩
      rcases List.mem_append.mp hq' with hq' | hq'
      · exact hnone q' hq' htype
      · obtain rfl := List.mem_singleton.mp hq'
        apply hcancel htype t' s' hs' heq
        intro hinvalid
        rw [hinvalid] at hstate
        rcases hstate with hstate | hstate
        · cases hstate
        · cases hstate
  canceling := by
    intro t' s' hs' hstate
    rw [hslot] at hstate ⊢
    by_cases heq : t' = t ∧ s' = s
    · rw [if_pos heq] at hstate ⊢
      obtain ⟨rfl, rfl⟩ := heq
      obtain ⟨htype, hticker, hid⟩ := hcanceling hstate
      exact .inl ⟨q, List.mem_append_right _ (List.mem_singleton_self q), htype, hticker, hid⟩
    · rw [if_neg heq] at hstate ⊢
      rcases h.canceling t' s' hs' hstate with ⟨q', hq', hrest⟩ | hnone
      · exact .inl ⟨q', List.mem_append_left _ hq', hrest⟩
      · exact .inr hnone
  qty := by
    intro t' s' hs' hstate
    rw [hslot] at hstate ⊢
    by_cases heq : t' = t ∧ s' = s
    · rw [if_pos heq]
      exact hqty
    · rw [if_neg heq] at hstate ⊢
      exact h.qty t' s' hs' hstate

/-- **A move keeps the promise**, if it sends no order of quantity zero. -/
theorem moveOrder (h : Prompt m k) (hslots : Slots m k) (hs : s.IsTrading) (N : Arith F)
    (risk : RiskInfo F) (t : ℕ) (price : ℤ) (qty : ℕ) {requests : List MEClientRequest}
    (hsent : (m.moveOrder N risk t price s qty).sent = m.sent ++ requests)
    (hqty : ∀ q ∈ requests, q.type_ = .NEW → q.qty_ ≠ 0) :
    Prompt (m.moveOrder N risk t price s qty) (k.ask requests) := by
  have houtcome := moveOrder_outcome N risk m t price s qty
  generalize m.moveOrder N risk t price s qty = moved at houtcome hsent ⊢
  cases houtcome with
  | kept =>
    obtain rfl : requests = [] := List.self_eq_append_right.mp hsent
    rw [ask, List.append_nil]
    exact h
  | sent hstate _ =>
    obtain rfl := List.append_cancel_left hsent
    have hidle := (Phase.idle_iff hstate).mp (hslots.phase t s hs)
    apply h.replace (m.newOrder t price s qty) (fun _ _ => rfl)
    · intro htype
      cases htype
    · intro _
      constructor
      · -- the id is fresh
        intro q hq htype
        rcases List.mem_append.mp hq with hq | hq
        · exact Nat.ne_of_lt (hslots.asked q hq).1
        · rw [List.mem_singleton.mp hq] at htype
          cases htype
      · intro r hr
        rw [hidle.2.1] at hr
        cases hr
    · intro hcanceling
      cases hcanceling
    · exact hqty _ (List.mem_singleton_self _) rfl
  | canceled hstate =>
    obtain rfl := List.append_cancel_left hsent
    have hinvalid : (m.ticker_side_order_ t s).order_state_ ≠ .INVALID := by
      rw [hstate]
      intro hinvalid
      cases hinvalid
    apply h.replace (m.cancelOrder t s) (fun _ _ => rfl)
    · intro _ t' s' hs' hne hinvalid' heq
      obtain ⟨ht, hside⟩ := hslots.distinct t s t' s' hs hs' hinvalid hinvalid' heq
      exact hne ⟨ht.symm, hside.symm⟩
    · intro hworking
      rcases hworking with hworking | hworking
      · cases hworking
      · cases hworking
    · intro _
      exact ⟨rfl, (hslots.label t s hs hinvalid).1, rfl⟩
    · exact h.qty t s hs (.inr (.inl hstate))

theorem moveOrders {N : Arith F} {risk : RiskInfo F} {bid_price ask_price : ℤ} {clip : ℕ}
    (h : Prompt m k) (hslots : Slots m k)
    (hm' : m.moveOrders N risk t bid_price ask_price clip = .ok m')
    (hqty : ∀ q ∈ m'.sent.drop m.sent.length, q.type_ = .NEW → q.qty_ ≠ 0) :
    Prompt m' (k.ask (m'.sent.drop m.sent.length)) := by
  obtain ⟨_, rfl⟩ := moveOrders_eq hm'
  obtain ⟨bids, hbids, hslots₁⟩ := hslots.moveOrder (.inl rfl) N risk t bid_price clip
  obtain ⟨asks, hasks, _⟩ := hslots₁.moveOrder (.inr rfl) N risk t ask_price clip
  rw [hasks, hbids, List.append_assoc, List.drop_left] at hqty ⊢
  have h₁ := h.moveOrder hslots (.inl rfl) N risk t bid_price clip hbids
    fun q hq => hqty q (List.mem_append_left _ hq)
  have h₂ := h₁.moveOrder hslots₁ (.inr rfl) N risk t ask_price clip hasks
    fun q hq => hqty q (List.mem_append_right _ hq)
  rw [ask, ask, List.append_assoc] at h₂
  exact h₂

/-- **A response keeps the promise.** -/
theorem deliver {rest : List MEClientResponse} (h : Prompt m k) (hslots : Slots m k)
    (hresponses : k.responses = r :: rest) (hm' : m.onOrderUpdate r = .ok m') :
    Prompt m' { k with responses := rest } := by
  have hanswers : ∀ t s, ∀ r' ∈ ({ k with responses := rest } : Link).answersFor t s,
      r' ∈ k.answersFor t s := by
    intro t s r' hr'
    obtain ⟨hmem, hconcerns⟩ := List.mem_filter.mp hr'
    exact List.mem_filter.mpr ⟨hresponses ▸ List.mem_cons_of_mem _ hmem, hconcerns⟩
  -- an order is left, or it hears of what it waits for
  have hslot : ∀ t s, s.IsTrading → m'.ticker_side_order_ t s = m.ticker_side_order_ t s ∨
      (m'.ticker_side_order_ t s).order_state_ = .DEAD ∨
      ((m'.ticker_side_order_ t s).order_id_ = (m.ticker_side_order_ t s).order_id_ ∧
        (((m.ticker_side_order_ t s).order_state_ = .PENDING_NEW ∨
            (m.ticker_side_order_ t s).order_state_ = .LIVE) ∧
          (m'.ticker_side_order_ t s).order_state_ = .LIVE ∨
        (m.ticker_side_order_ t s).order_state_ = .PENDING_CANCEL ∧
          (m'.ticker_side_order_ t s).order_state_ = .PENDING_CANCEL) ∧
        ((m.ticker_side_order_ t s).qty_ ≠ 0 → (m'.ticker_side_order_ t s).qty_ ≠ 0)) := by
    intro t s hs
    rw [order_onOrderUpdate hm']
    split
    · next heq =>
      obtain ⟨rfl, rfl⟩ := heq
      by_cases hconcerns : Concerns r.ticker_id_ r.side_ r
      · have hphase := hslots.phase r.ticker_id_ r.side_ hs
        have hcons : k.answersFor r.ticker_id_ r.side_ =
            r :: ({ k with responses := rest } : Link).answersFor r.ticker_id_ r.side_ := by
          simp only [answersFor, hresponses]
          exact List.filter_cons_of_pos (decide_eq_true hconcerns)
        rw [hcons] at hphase
        rcases hphase.updated_state with hdead | ⟨hstates, hqty⟩
        · exact .inr (.inl hdead)
        · exact .inr (.inr ⟨(Slots.labels_updated _ r).2.2, hstates, hqty⟩)
      · exact .inl (Slots.updated_of_not_concerns hconcerns)
    · exact .inl rfl
  refine ⟨?_, ?_, ?_⟩
  · intro t s hs hstate
    have hbefore : ((m.ticker_side_order_ t s).order_state_ = .PENDING_NEW ∨
        (m.ticker_side_order_ t s).order_state_ = .LIVE) ∧
        (m'.ticker_side_order_ t s).order_id_ = (m.ticker_side_order_ t s).order_id_ := by
      rcases hslot t s hs with hsame | hdead | ⟨hid, ⟨hold, _⟩ | ⟨_, hcancel⟩, _⟩
      · rw [hsame] at hstate ⊢
        exact ⟨hstate, rfl⟩
      · rw [hdead] at hstate
        rcases hstate with hstate | hstate
        · cases hstate
        · cases hstate
      · exact ⟨hold, hid⟩
      · rw [hcancel] at hstate
        rcases hstate with hstate | hstate
        · cases hstate
        · cases hstate
    obtain ⟨hnone, hcanceled⟩ := h.uncanceled t s hs hbefore.1
    rw [hbefore.2]
    exact ⟨hnone, fun r' hr' => hcanceled r' (hanswers t s r' hr')⟩
  · intro t s hs hstate
    have hbefore : (m.ticker_side_order_ t s).order_state_ = .PENDING_CANCEL ∧
        (m'.ticker_side_order_ t s).order_id_ = (m.ticker_side_order_ t s).order_id_ := by
      rcases hslot t s hs with hsame | hdead | ⟨hid, ⟨_, hlive⟩ | ⟨hold, _⟩, _⟩
      · rw [hsame] at hstate ⊢
        exact ⟨hstate, rfl⟩
      · cases hdead.symm.trans hstate
      · cases hlive.symm.trans hstate
      · exact ⟨hold, hid⟩
    have hcanceling := h.canceling t s hs hbefore.1
    rw [hbefore.2]
    exact hcanceling
  · intro t s hs hstate
    rcases hslot t s hs with hsame | hdead | ⟨_, hstates, hqty⟩
    · rw [hsame] at hstate ⊢
      exact h.qty t s hs hstate
    · rw [hdead] at hstate
      rcases hstate with hstate | hstate | hstate
      · cases hstate
      · cases hstate
      · cases hstate
    · apply hqty
      rcases hstates with ⟨hnew | hlive, _⟩ | ⟨hcancel, _⟩
      · exact h.qty t s hs (.inl hnew)
      · exact h.qty t s hs (.inr (.inl hlive))
      · exact h.qty t s hs (.inr (.inr hcancel))

end Prompt

/-! ## What is on its way -/

/-- The engine takes requests that fit, of a client or of others. -/
inductive Line.Serves (client_id : ℕ) : Line → Line → Prop where
  | own {l l' : Line} {q : MEClientRequest} {rest : List MEClientRequest}
      (hrequests : l.requests = q :: rest) (hfits : l.matching_engine.Fits q)
      (h : l.processNext client_id = .ok l') : Serves client_id l l'
  | other {l l' : Line} {q : MEClientRequest} (hclient : q.client_id_ ≠ client_id)
      (hfits : l.matching_engine.Fits q) (h : l.process client_id q = .ok l') :
      Serves client_id l l'

/-- The response takes an order of a ticker and side out of its state. -/
def MovesOn (t : ℕ) (s : Side) (o : OMOrder) (r : MEClientResponse) : Prop :=
  r.ticker_id_ = t ∧ r.side_ = s ∧ (updated o r).order_state_ ≠ o.order_state_

theorem movesOn_of_final {t : ℕ} {s : Side} {o : OMOrder} {r : MEClientResponse}
    (hfinal : r.IsFinal) (hconcerns : Concerns t s r) (hstate : o.order_state_ ≠ .DEAD) :
    MovesOn t s o r := by
  refine ⟨hconcerns.2.1, hconcerns.2.2, ?_⟩
  have hdead : (updated o r).order_state_ = .DEAD := by
    rcases hfinal with hcanceled | ⟨hfilled, hzero⟩
    · rw [updated_of_canceled hcanceled]
    · rw [updated_of_filled hfilled hzero]
  rw [hdead]
  exact hstate.symm

namespace Member

variable {A : Party F σ ι} {x : Member σ} {P : ℕ → PriorityBook} {k : Link} {t : ℕ} {s : Side}

/-- A message in flight takes the order out of its state: a response that does it, or a request
about the order, after which such a response is in flight, whatever the engine does before. -/
def UnderWay (A : Party F σ ι) (x : Member σ) (t : ℕ) (s : Side) : Prop :=
  let o := (A.orders x.party).ticker_side_order_ t s
  (∃ r ∈ x.line.responses, MovesOn t s o r) ∨
    ∃ q ∈ x.line.requests, q.ticker_id_ = t ∧ q.order_id_ = o.order_id_ ∧
      ∀ line line' rest, ReflTransGen (Line.Serves A.client_id) x.line line →
        line.requests = q :: rest → line.matching_engine.Fits q →
        line.processNext A.client_id = .ok line' → ∃ r ∈ line'.responses, MovesOn t s o r

/-- An order that is pending is about to move on, and a live one rests or is about to be heard of
for the last time. -/
structure NotStuck (A : Party F σ ι) (x : Member σ) (t : ℕ) (s : Side) : Prop where
  pending : ((A.orders x.party).ticker_side_order_ t s).order_state_ = .PENDING_NEW ∨
    ((A.orders x.party).ticker_side_order_ t s).order_state_ = .PENDING_CANCEL → UnderWay A x t s
  live : ((A.orders x.party).ticker_side_order_ t s).order_state_ = .LIVE →
    (∃ y ∈ (x.line.matching_engine.ticker_order_book_ t).toPriorityBook.side s,
      key y = (A.client_id, ((A.orders x.party).ticker_side_order_ t s).order_id_)) ∨
    ∃ r ∈ x.line.responses, r.type_ = .FILLED ∧ r.leaves_qty_ = 0 ∧ r.ticker_id_ = t ∧
      r.side_ = s ∧
      r.client_order_id_ = ((A.orders x.party).ticker_side_order_ t s).order_id_

/-- The engine takes requests: the client's orders stay, and go on agreeing. -/
theorem Agrees.serves {line : Line} (h : Agrees A x P k)
    (hserves : ReflTransGen (Line.Serves A.client_id) x.line line) :
    ∃ P' k', ReflTransGen Answer k k' ∧ Agrees A { x with line := line } P' k' := by
  induction hserves with
  | refl => exact ⟨P, k, .refl, h⟩
  | tail _ hserve ih =>
    obtain ⟨P₁, k₁, hanswers, h₁⟩ := ih
    cases hserve with
    | own hrequests hfits hline =>
      obtain ⟨k₂, hanswers₂, h₂⟩ := h₁.own hrequests hfits hline
      exact ⟨_, k₂, hanswers.trans hanswers₂, h₂⟩
    | other hclient hfits hline =>
      obtain ⟨k₂, hanswers₂, h₂⟩ := h₁.other hclient hfits hline
      exact ⟨_, k₂, hanswers.trans hanswers₂, h₂⟩

theorem mem_responses {r : MEClientResponse} (h : Agrees A x P k) (hr : r ∈ k.answersFor t s) :
    r ∈ x.line.responses ∧ Concerns t s r := by
  obtain ⟨hmem, hconcerns⟩ := List.mem_filter.mp hr
  rw [h.line.responses] at hmem
  exact ⟨hmem, of_decide_eq_true hconcerns⟩

/-- An order that was asked for, and is no longer in the channel, has been accepted. -/
theorem Agrees.accepted_in_flight (h : Agrees A x P k) (hs : s.IsTrading)
    (hstate : ((A.orders x.party).ticker_side_order_ t s).order_state_ = .PENDING_NEW)
    (hnews : k.newsFor t s = []) : ∃ r ∈ x.line.responses,
      MovesOn t s ((A.orders x.party).ticker_side_order_ t s) r := by
  have hphase := h.slots.phase t s hs
  rcases (Phase.asked_iff hstate).mp hphase with ⟨hone, _⟩ | ⟨_, ⟨r, rs, hanswers, htype, _⟩, _⟩
  · cases hnews.symm.trans hone
  · have hmem : r ∈ k.answersFor t s := hanswers ▸ List.mem_cons_self ..
    obtain ⟨hr, hconcerns⟩ := mem_responses h hmem
    refine ⟨r, hr, hconcerns.2.1, hconcerns.2.2, ?_⟩
    rw [updated_of_accepted htype, hstate]
    intro hpending
    cases hpending

/-- What is told of a working order. -/
theorem Agrees.told (h : Agrees A x P k) (hs : s.IsTrading)
    (hstate : ((A.orders x.party).ticker_side_order_ t s).order_state_ = .LIVE ∨
      ((A.orders x.party).ticker_side_order_ t s).order_state_ = .PENDING_CANCEL) :
    Told ((A.orders x.party).ticker_side_order_ t s).qty_ (k.answersFor t s)
      (k.openFor t s ((A.orders x.party).ticker_side_order_ t s).order_id_) :=
  ((Phase.working_iff hstate).mp (h.slots.phase t s hs)).2.1

/-- A working order that is gone from the exchange is about to be heard of for the last time. -/
theorem Agrees.final_in_flight (h : Agrees A x P k) (hprompt : Prompt (A.orders x.party) k)
    (hs : s.IsTrading)
    (hstate : ((A.orders x.party).ticker_side_order_ t s).order_state_ = .LIVE ∨
      ((A.orders x.party).ticker_side_order_ t s).order_state_ = .PENDING_CANCEL)
    (hnone : k.openFor t s ((A.orders x.party).ticker_side_order_ t s).order_id_ = none) :
    ∃ r ∈ k.answersFor t s, r.IsFinal := by
  have htold := h.told hs hstate
  rw [hnone] at htold
  exact Told.exists_final (hprompt.qty t s hs (.inr hstate)) htold

/-- A cancel leaves no order of its id. -/
theorem key_of_mem_cancel {P : PriorityBook} {t client_id order_id : ℕ} {y : MEOrderInfo}
    (hy : y ∈ (P.cancel t client_id order_id).1.orders) : key y ≠ (client_id, order_id) := by
  unfold PriorityBook.cancel at hy
  split at hy
  · next hfind =>
    intro heq
    exact List.find?_eq_none.mp hfind y hy (decide_eq_true heq)
  · rw [PriorityBook.erase_orders] at hy
    exact of_decide_eq_true (List.mem_filter.mp hy).2

/-- The engine takes the cancel of an order: nothing of it is open. -/
theorem Agrees.openFor_eq_none_of_cancel {q : MEClientRequest} {rest : List MEClientRequest}
    {line : Line} {k' : Link} (h : Agrees A x P k) (hrequests : x.line.requests = q :: rest)
    (hcancel : q.type_ = .CANCEL) (h' : Agrees A { x with line := line } (booksAfter P q) k') :
    k'.openFor q.ticker_id_ s q.order_id_ = none := by
  have hmem : q ∈ x.line.requests := hrequests ▸ List.mem_cons_self ..
  have hclient := (h.mine q hmem).1
  have hcall : q.call? = some (.cancel q.client_id_ q.order_id_) := by
    unfold MEClientRequest.call?
    rw [hcancel]
  have hworks := h'.line.works q.ticker_id_
  rw [booksAfter_eq hcall, Function.update_self, ← hclient] at hworks
  have hnone : k'.working q.ticker_id_ q.order_id_ = none :=
    hworks.eq_none fun y hy => key_of_mem_cancel hy
  rw [openFor, hnone]
  rfl

/-- **An order that is asked for moves on.** -/
theorem Agrees.underWay_of_new (h : Agrees A x P k) (hs : s.IsTrading)
    (hstate : ((A.orders x.party).ticker_side_order_ t s).order_state_ = .PENDING_NEW) :
    UnderWay A x t s := by
  have hphase := h.slots.phase t s hs
  have hnews : k.newsFor t s = [] ∨ k.newsFor t s =
      [((A.orders x.party).ticker_side_order_ t s).newRequest (A.orders x.party).client_id_] := by
    exact ((Phase.asked_iff hstate).mp hphase).symm.imp And.left And.left
  rcases hnews with hnews | hnews
  · exact .inl (h.accepted_in_flight hs hstate hnews)
  · right
    set q := ((A.orders x.party).ticker_side_order_ t s).newRequest (A.orders x.party).client_id_
    have hmem : q ∈ k.newsFor t s := hnews ▸ List.mem_singleton_self q
    obtain ⟨hrequest, hlabel⟩ := List.mem_filter.mp hmem
    have hlabel := of_decide_eq_true hlabel
    refine ⟨q, h.line.requests ▸ hrequest, hlabel.2.1, rfl, ?_⟩
    intro line line' rest hserves hrequests hfits hline
    obtain ⟨P₁, k₁, _, h₁⟩ := h.serves hserves
    obtain ⟨k₂, _, h₂⟩ := h₁.own hrequests hfits hline
    apply h₂.accepted_in_flight hs hstate
    -- it was the only new order in the channel
    have hphase₁ := h₁.slots.phase t s hs
    have hcons : k₁.newsFor t s = q :: k₂.newsFor t s := by
      unfold newsFor
      rw [h₁.line.requests, h₂.line.requests, Line.requests_processNext hrequests hline, hrequests]
      exact List.filter_cons_of_pos (decide_eq_true hlabel)
    rw [Phase.asked_iff hstate, hcons] at hphase₁
    rcases hphase₁ with ⟨hone, _⟩ | ⟨hnil, _⟩
    · exact (List.cons.inj hone).2
    · cases hnil

/-- **An order that is being canceled moves on.** -/
theorem Agrees.underWay_of_cancel (h : Agrees A x P k) (hprompt : Prompt (A.orders x.party) k)
    (hs : s.IsTrading)
    (hstate : ((A.orders x.party).ticker_side_order_ t s).order_state_ = .PENDING_CANCEL) :
    UnderWay A x t s := by
  -- wherever nothing of the order is open
  have hmoves : ∀ {line : Line} {P' : ℕ → PriorityBook} {k' : Link},
      Agrees A { x with line := line } P' k' → Prompt (A.orders x.party) k' →
      k'.openFor t s ((A.orders x.party).ticker_side_order_ t s).order_id_ = none →
      ∃ r ∈ line.responses, MovesOn t s ((A.orders x.party).ticker_side_order_ t s) r := by
    intro line P' k' h' hprompt' hnone
    obtain ⟨r, hr, hfinal⟩ := h'.final_in_flight hprompt' hs (.inr hstate) hnone
    obtain ⟨hmem, hconcerns⟩ := mem_responses h' hr
    refine ⟨r, hmem, movesOn_of_final hfinal hconcerns ?_⟩
    rw [hstate]
    intro hdead
    cases hdead
  rcases hprompt.canceling t s hs hstate with ⟨q, hq, htype, hticker, hid⟩ | hnone
  · refine .inr ⟨q, h.line.requests ▸ hq, hticker, hid, ?_⟩
    intro line line' rest hserves hrequests hfits hline
    obtain ⟨P₁, k₁, hanswers₁, h₁⟩ := h.serves hserves
    obtain ⟨k₂, hanswers₂, h₂⟩ := h₁.own hrequests hfits hline
    have hprompt₂ := hprompt.of_answers h.slots (hanswers₁.trans hanswers₂)
    apply hmoves h₂ hprompt₂
    rw [← hid, ← hticker]
    exact h₁.openFor_eq_none_of_cancel hrequests htype h₂
  · exact .inl (hmoves h hprompt hnone)

/-- **No order is stuck** where the promise holds. -/
theorem Agrees.notStuck (h : Agrees A x P k) (hprompt : Prompt (A.orders x.party) k)
    (hs : s.IsTrading) : NotStuck A x t s where
  pending := by
    intro hstate
    rcases hstate with hnew | hcancel
    · exact h.underWay_of_new hs hnew
    · exact h.underWay_of_cancel hprompt hs hcancel
  live := by
    intro hstate
    cases hleft : k.openFor t s ((A.orders x.party).ticker_side_order_ t s).order_id_ with
    | some l =>
      -- what the exchange works is an order of its book
      left
      obtain ⟨w, hw, hside⟩ := Option.bind_eq_some_iff.mp hleft
      obtain ⟨y, hy, hkey, rfl⟩ := (h.line.works t _ w).mp hw
      obtain ⟨sh, hbook⟩ := h.line.engine.books t
      obtain ⟨s', hs', hmem⟩ := PriorityBook.mem_orders.mp hy
      have hyside : y.side_ = s := by
        split at hside
        · assumption
        · cases hside
      have hss : s' = s := ((h.line.engine.wf t).side s' hs' y hmem).symm.trans hyside
      rw [hbook.toPriorityBook_eq]
      exact ⟨y, hss ▸ hmem, hkey⟩
    | none =>
      -- the order is done, and the response that says so has not been delivered
      right
      obtain ⟨r, hr, hfinal⟩ := h.final_in_flight hprompt hs (.inl hstate) hleft
      obtain ⟨hmem, hconcerns⟩ := mem_responses h hr
      have hnot := (hprompt.uncanceled t s hs (.inr hstate)).2 r hr
      obtain ⟨hfilled, hzero⟩ := hfinal.resolve_left hnot
      obtain ⟨_, rfl, rfl⟩ := hconcerns
      refine ⟨r, hmem, hfilled, hzero, rfl, rfl, ?_⟩
      exact (h.slots.answered r (h.line.responses ▸ hmem) ⟨.inr (.inl hfilled), rfl, rfl⟩).2

/-! ## Runs -/

variable {event : Event ι} {x' : Member σ}

/-- One step keeps the promise, if the orders sent are not of quantity zero. -/
theorem Agrees.step_prompt (h : Agrees A x P k) (hprompt : Prompt (A.orders x.party) k)
    (hmeets : Meets A x event) (hstep : Member.step A x event = .ok x')
    (hqty : ∀ q ∈ (A.orders x'.party).sent, q.type_ = .NEW → q.qty_ ≠ 0) :
    ∃ P' k', Agrees A x' P' k' ∧ Prompt (A.orders x'.party) k' := by
  rcases step_cases hstep with ⟨rfl, _⟩ | ⟨i, party, hi, _, rfl⟩ |
    ⟨q, rest, line, hrequests, hline, htaken, rfl⟩ | ⟨q, line, hevent, hline, htaken, rfl⟩ |
    ⟨r, rest, party, hresponses, hr, _, rfl⟩
  · exact ⟨P, k, h, hprompt⟩
  · refine ⟨P, _, h.input hi, ?_⟩
    rcases A.moves hi with heq | ⟨_, _, _, _, _, hmoves⟩
    · show Prompt (A.orders party) (k.ask ((A.orders party).sent.drop _))
      rw [heq, List.drop_length, ask, List.append_nil]
      exact hprompt
    · exact hprompt.moveOrders h.slots hmoves fun q hq => hqty q (List.drop_subset _ _ hq)
  · obtain ⟨k', hanswers, h'⟩ := h.own hrequests (hmeets.1 q htaken) hline
    exact ⟨_, k', h', hprompt.of_answers h.slots hanswers⟩
  · obtain ⟨k', hanswers, h'⟩ := h.other (hmeets.2 q (hevent ▸ rfl)) (hmeets.1 q htaken) hline
    exact ⟨_, k', h', hprompt.of_answers h.slots hanswers⟩
  · exact ⟨P, _, h.response hresponses hr,
      hprompt.deliver h.slots (h.line.responses.trans hresponses) (A.updates hr)⟩

theorem prompt_new (A : Party F σ ι) : Prompt (A.orders (new A).party) Link.empty := by
  rw [show A.orders (new A).party = _ from A.orders_init]
  exact Prompt.new A.client_id

/-- No order is stuck in a run whose requests fit and whose orders are not of quantity zero. -/
theorem notStuck_of_run {events : List (Event ι)}
    (hmeets : Lib.Runs.Along (step A) (Meets A) (new A) events)
    (hrun : run A (new A) events = .ok x)
    (hqty : ∀ q ∈ (A.orders x.party).sent, q.type_ = .NEW → q.qty_ ≠ 0) (t : ℕ)
    (hs : s.IsTrading) : NotStuck A x t s := by
  -- what is sent later does not matter for the states before
  have hinv : (∀ q ∈ (A.orders x.party).sent, q.type_ = .NEW → q.qty_ ≠ 0) →
      ∃ P k, Agrees A x P k ∧ Prompt (A.orders x.party) k := by
    refine Lib.Runs.invariant (I := fun x =>
      (∀ q ∈ (A.orders x.party).sent, q.type_ = .NEW → q.qty_ ≠ 0) →
        ∃ P k, Agrees A x P k ∧ Prompt (A.orders x.party) k) ?_ ?_ hmeets hrun
    · intro x event x' hx hevent hstep hqty
      obtain ⟨P, k, h, hprompt⟩ := hx fun q hq => hqty q ((sent_step hstep).subset hq)
      exact h.step_prompt hprompt hevent hstep hqty
    · intro _
      exact ⟨_, _, agrees_new A, prompt_new A⟩
  obtain ⟨P, k, h, hprompt⟩ := hinv hqty
  exact h.notStuck hprompt hs

end Member

/-! ## The quantities a trade engine sends -/

namespace OrderManager

variable {m m' : OrderManager} {t : ℕ}

/-- A new order is for the ticker that is moved, and of the quantity asked for. -/
theorem new_of_moveOrder {N : Arith F} {risk : RiskInfo F} {price : ℤ} {s : Side} {qty : ℕ}
    {q : MEClientRequest} (hq : q ∈ (m.moveOrder N risk t price s qty).sent)
    (hnew : q.type_ = .NEW) : q ∈ m.sent ∨ q.ticker_id_ = t ∧ q.qty_ = qty := by
  have houtcome := moveOrder_outcome N risk m t price s qty
  generalize m.moveOrder N risk t price s qty = moved at houtcome hq
  cases houtcome with
  | kept => exact .inl hq
  | sent =>
    rcases List.mem_append.mp hq with hq | hq
    · exact .inl hq
    · rw [List.mem_singleton.mp hq]
      exact .inr ⟨rfl, rfl⟩
  | canceled =>
    rcases List.mem_append.mp hq with hq | hq
    · exact .inl hq
    · rw [List.mem_singleton.mp hq] at hnew
      cases hnew

end OrderManager

namespace Member

variable {S : Setup F} {htrades : S.Trades}

/-- Every order a trade engine sends is of its ticker's `clip_`. -/
theorem qty_of_sent {events : List (Event MEMarketUpdate)} {x : Member (TradeEngine F)}
    (hrun : run (TradeEngine.party S htrades) (new (TradeEngine.party S htrades)) events = .ok x) :
    ∀ q ∈ x.party.order_manager_.sent, q.type_ = .NEW → q.qty_ = (S.ticker_cfg q.ticker_id_).clip_ := by
  refine Lib.Runs.invariant_of_step (I := fun x : Member (TradeEngine F) =>
    ∀ q ∈ x.party.order_manager_.sent, q.type_ = .NEW →
      q.qty_ = (S.ticker_cfg q.ticker_id_).clip_) ?_ (fun _ hq => (List.not_mem_nil hq).elim) hrun
  intro x event x' h hstep
  rcases step_cases hstep with ⟨rfl, _⟩ | ⟨u, e', hu, _, rfl⟩ | ⟨_, _, _, _, _, _, rfl⟩ |
    ⟨_, _, _, _, _, rfl⟩ | ⟨r, rest, e', _, hr, _, rfl⟩
  · exact h
  · intro q hq hnew
    rcases (TradeEngine.onMarketUpdate_spec hu).orders with heq | ⟨bid_price, ask_price, hmoves⟩
    · rw [show (_ : TradeEngine F).order_manager_ = _ from heq] at hq
      exact h q hq hnew
    · obtain ⟨_, hmoved⟩ := OrderManager.moveOrders_eq hmoves
      rw [show (_ : TradeEngine F).order_manager_ = _ from hmoved] at hq
      rcases OrderManager.new_of_moveOrder hq hnew with hq | ⟨hticker, hqty⟩
      · rcases OrderManager.new_of_moveOrder hq hnew with hq | ⟨hticker, hqty⟩
        · exact h q hq hnew
        · rw [hticker]
          exact hqty
      · rw [hticker]
        exact hqty
  · exact h
  · exact h
  · intro q hq hnew
    have hsends := OrderManager.sends_onOrderUpdate
      ((TradeEngine.party S htrades).updates hr)
    have hsent : e'.order_manager_.sent = x.party.order_manager_.sent :=
      hsends.sent.trans (List.append_nil _)
    rw [show (_ : TradeEngine F).order_manager_.sent = _ from hsent] at hq
    exact h q hq hnew

/-- **No order is stuck or a phantom, over every run** whose requests fit and in which no order is
sent for a ticker that is configured with `clip_` zero. -/
theorem notStuck_run {events : List (Event MEMarketUpdate)} {x : Member (TradeEngine F)}
    (hmeets : Lib.Runs.Along (step (TradeEngine.party S htrades))
      (Meets (TradeEngine.party S htrades)) (new (TradeEngine.party S htrades)) events)
    (hrun : run (TradeEngine.party S htrades) (new (TradeEngine.party S htrades)) events = .ok x)
    (hclip : ∀ q ∈ x.party.order_manager_.sent, q.type_ = .NEW →
      (S.ticker_cfg q.ticker_id_).clip_ ≠ 0) (t : ℕ) {s : Side} (hs : s.IsTrading) :
    NotStuck (TradeEngine.party S htrades) x t s := by
  apply notStuck_of_run hmeets hrun _ t hs
  intro q hq hnew
  rw [qty_of_sent hrun q hq hnew]
  exact hclip q hq hnew

/-! ### An order of quantity zero -/

/-- The engine's first quotes: two bids and two asks come, and the exchange takes both orders. -/
def quoted : List (Event MEMarketUpdate) :=
  [.input (TradeEngine.added 0 1 .BUY 99), .input (TradeEngine.added 0 2 .BUY 100),
    .input (TradeEngine.added 0 3 .SELL 106), .input (TradeEngine.added 0 4 .SELL 105),
    .request, .response, .request]

/-- A quote that was accepted rests. -/
theorem notStuck_run_quoted : ∃ x,
    run (TradeEngine.party TradeEngine.makerSetup (.inl rfl))
      (new (TradeEngine.party TradeEngine.makerSetup (.inl rfl))) quoted = .ok x ∧
    (x.party.order_manager_.ticker_side_order_ 0 .BUY).order_state_ = .LIVE ∧
    NotStuck (TradeEngine.party TradeEngine.makerSetup (.inl rfl)) x 0 .BUY := by
  have hcheck : ((run (TradeEngine.party TradeEngine.makerSetup (.inl rfl))
      (new (TradeEngine.party TradeEngine.makerSetup (.inl rfl))) quoted).toOption.map fun x =>
        (x.party.order_manager_.ticker_side_order_ 0 .BUY).order_state_) = some .LIVE := by
    decide +kernel
  cases hrun : run (TradeEngine.party TradeEngine.makerSetup (.inl rfl))
      (new (TradeEngine.party TradeEngine.makerSetup (.inl rfl))) quoted with
  | error fault =>
    rw [hrun] at hcheck
    cases hcheck
  | ok x =>
    rw [hrun] at hcheck
    have hclip : ∀ q ∈ x.party.order_manager_.sent, q.type_ = .NEW →
        (TradeEngine.makerSetup.ticker_cfg q.ticker_id_).clip_ ≠ 0 := by
      intro q _ _
      exact Nat.succ_ne_zero 9
    exact ⟨x, rfl, Option.some.inj hcheck,
      notStuck_run (by decide +kernel) hrun hclip 0 (.inl rfl)⟩

/-- A market maker whose tickers are left at the default configuration. -/
def defaultSetup : Setup (Option ℚ) :=
  { TradeEngine.makerSetup with ticker_cfg := fun _ => TradeEngineCfg.default Arith.exact }

/-- With the default configuration an order of quantity zero is sent, accepted and live, but never
rests. -/
theorem not_notStuck_defaultSetup :
    ¬ ∀ (S : Setup (Option ℚ)) (htrades : S.Trades) (events : List (Event MEMarketUpdate))
        (x : Member (TradeEngine (Option ℚ))),
      Lib.Runs.Along (step (TradeEngine.party S htrades)) (Meets (TradeEngine.party S htrades))
        (new (TradeEngine.party S htrades)) events →
      run (TradeEngine.party S htrades) (new (TradeEngine.party S htrades)) events = .ok x →
      ∀ t s, s.IsTrading → NotStuck (TradeEngine.party S htrades) x t s := by
  intro h
  have hcheck : ((run (TradeEngine.party defaultSetup (.inl rfl))
      (new (TradeEngine.party defaultSetup (.inl rfl))) quoted).toOption.map fun x =>
        ((x.party.order_manager_.ticker_side_order_ 0 .BUY).order_state_,
          (x.line.matching_engine.ticker_order_book_ 0).toPriorityBook.side .BUY,
          x.line.responses.map MEClientResponse.type_)) =
      some (.LIVE, [], [.ACCEPTED]) := by decide +kernel
  cases hrun : run (TradeEngine.party defaultSetup (.inl rfl))
      (new (TradeEngine.party defaultSetup (.inl rfl))) quoted with
  | error fault =>
    rw [hrun] at hcheck
    cases hcheck
  | ok x =>
    rw [hrun] at hcheck
    have hlive := (h defaultSetup (.inl rfl) quoted x (by decide +kernel) hrun 0 .BUY (.inl rfl)).live
    obtain ⟨hstate, hrest⟩ := Prod.mk.inj (Option.some.inj hcheck)
    obtain ⟨hbids, htypes⟩ := Prod.mk.inj hrest
    rcases hlive hstate with ⟨y, hy, _⟩ | ⟨r, hr, hfilled, _⟩
    · rw [hbids] at hy
      cases hy
    · have hmem : r.type_ ∈ x.line.responses.map MEClientResponse.type_ := List.mem_map_of_mem hr
      rw [htypes, hfilled] at hmem
      cases List.mem_singleton.mp hmem

end Member

end TradingEcosystem
