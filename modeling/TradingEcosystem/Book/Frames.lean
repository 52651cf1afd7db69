import TradingEcosystem.Book.Levels

/-!
# What Any Memory Keeps

What the operations of a book leave alone when nothing is known of the shape of its memory: the
lists may be linked wrongly, slots shared and blocks freed while pointers to them are kept.

- `linkAfter_frame` and the like : operations on levels only write links between levels
- `SameInfo` : the data of every order, in use or not, is what it was
- `sameInfo_removeOrder`, `insertOrder_info` : the operations on orders write data only into the
  block they allocate
-/

namespace TradingEcosystem.LimitBook

variable {I K : Type} {b b' b'' : LimitBook I K}

/-! ## Operations on levels -/

theorem linkAfter_frame {new target : ℕ} (hrun : b.linkAfter new target = .ok b') :
    LevelFrame b b' := by
  obtain ⟨target_next, -, hrun⟩ := bind_eq_ok.mp hrun
  cases hrun
  iterate 4 refine LevelFrame.modLevel ?_ (fun _ => rfl) (fun _ => rfl) (fun _ => rfl)
  exact LevelFrame.refl b

theorem linkBefore_frame {new target : ℕ} (hrun : b.linkBefore new target = .ok b') :
    LevelFrame b b' := by
  obtain ⟨target_prev, -, hrun⟩ := bind_eq_ok.mp hrun
  cases hrun
  iterate 4 refine LevelFrame.modLevel ?_ (fun _ => rfl) (fun _ => rfl) (fun _ => rfl)
  exact LevelFrame.refl b

theorem addOrdersAtPrice_frame {new : ℕ} (hrun : b.addOrdersAtPrice new = .ok b') :
    LevelFrame b b' := by
  unfold addOrdersAtPrice at hrun
  have hslot := LevelFrame.setOrdersAtPrice b (b.level new).price_ (some new)
  simp only at hrun
  split at hrun
  · -- the first level of its side
    cases hrun
    refine LevelFrame.modLevel ?_ (fun _ => rfl) (fun _ => rfl) (fun _ => rfl)
    exact hslot.trans (LevelFrame.setBest ..)
  · next best _ =>
    obtain ⟨⟨target, add_after⟩, -, hrun⟩ := bind_eq_ok.mp hrun
    simp only at hrun
    split at hrun
    · have hlink : ∃ target', (b.setOrdersAtPrice (b.level new).price_ (some new)).linkAfter new
          target' = .ok b' := by
        split at hrun
        · obtain ⟨target', -, hrun⟩ := bind_eq_ok.mp hrun
          exact ⟨target', hrun⟩
        · exact ⟨target, hrun⟩
      obtain ⟨target', hlink⟩ := hlink
      exact hslot.trans (linkAfter_frame hlink)
    · obtain ⟨b₁, hlink, hrun⟩ := bind_eq_ok.mp hrun
      have h₁ := hslot.trans (linkBefore_frame hlink)
      split at hrun
      · -- the new level is the best one of its side
        cases hrun
        apply LevelFrame.trans _ (LevelFrame.setBest ..)
        exact h₁.modLevel (fun _ => rfl) (fun _ => rfl) (fun _ => rfl)
      · cases hrun
        exact h₁

theorem unlinkLevel_frame {side : Side} {l : ℕ} (hrun : b.unlinkLevel side l = .ok b') :
    LevelFrame b b' := by
  unfold unlinkLevel at hrun
  simp only at hrun
  split at hrun
  · -- the last level of its side
    cases hrun
    exact LevelFrame.setBest ..
  · obtain ⟨prev, -, hrun⟩ := bind_eq_ok.mp hrun
    obtain ⟨next, -, hrun⟩ := bind_eq_ok.mp hrun
    cases hrun
    refine LevelFrame.modLevel ?_ (fun _ => rfl) (fun _ => rfl) (fun _ => rfl)
    have hlinks : LevelFrame b ((b.modLevel prev fun e =>
        { e with next_entry_ := (b.level l).next_entry_ }).modLevel next fun e =>
          { e with prev_entry_ := ((b.modLevel prev fun e =>
            { e with next_entry_ := (b.level l).next_entry_ }).level l).prev_entry_ }) := by
      iterate 2 refine LevelFrame.modLevel ?_ (fun _ => rfl) (fun _ => rfl) (fun _ => rfl)
      exact LevelFrame.refl b
    split
    · exact hlinks.trans (LevelFrame.setBest ..)
    · exact hlinks

/-! ## The data of the orders -/

/-- The data of every order, in use or not, is what it was. -/
def SameInfo (b b' : LimitBook I K) : Prop := ∀ p, (b'.order p).info = (b.order p).info

namespace SameInfo

theorem refl (b : LimitBook I K) : SameInfo b b := fun _ => rfl

theorem trans (h : SameInfo b b') (h' : SameInfo b' b'') : SameInfo b b'' :=
  fun p => (h' p).trans (h p)

theorem frame (h : SameInfo b b') (hframe : LevelFrame b' b'') : SameInfo b b'' := by
  intro p
  rw [hframe.order, h p]

/-- Writing the links of an order. -/
theorem modOrder (h : SameInfo b b') {o : ℕ} {f : QueuedOrder I → QueuedOrder I}
    (hf : ∀ e, (f e).info = e.info) : SameInfo b (b'.modOrder o f) := by
  intro p
  rw [order_modOrder]
  split
  · next heq =>
    rw [hf, heq, h]
  · exact h p

theorem setKey [OrderInfo I K] [DecidableEq K] (h : SameInfo b b') {k : K} {o : Option ℕ}
    (hrun : b'.setKey k o = .ok b'') : SameInfo b b'' := by
  unfold LimitBook.setKey at hrun
  split at hrun
  · cases hrun
    exact h
  · cases hrun

end SameInfo

theorem sameInfo_removeOrdersAtPrice {side : Side} {price : ℤ}
    (hrun : b.removeOrdersAtPrice side price = .ok b') : SameInfo b b' := by
  obtain ⟨l, -, hrun⟩ := bind_eq_ok.mp hrun
  obtain ⟨b₁, hunlink, hrun⟩ := bind_eq_ok.mp hrun
  obtain ⟨pool, -, hrun⟩ := bind_eq_ok.mp hrun
  cases hrun
  have hunlinked := (SameInfo.refl b).frame (unlinkLevel_frame hunlink)
  exact fun p => hunlinked p

variable [OrderInfo I K] [DecidableEq K]

omit [DecidableEq K] in
theorem sameInfo_unlinkOrder {o : ℕ} (hrun : b.unlinkOrder o = .ok b') : SameInfo b b' := by
  obtain ⟨before, -, hrun⟩ := bind_eq_ok.mp hrun
  obtain ⟨after, -, hrun⟩ := bind_eq_ok.mp hrun
  obtain ⟨l, -, hrun⟩ := bind_eq_ok.mp hrun
  cases hrun
  have hlinks := ((SameInfo.refl b).modOrder (o := before)
    (f := fun e => { e with next_order_ := (b.order o).next_order_ }) fun _ => rfl).modOrder
    (o := after) (f := fun e => { e with prev_order_ := some before }) fun _ => rfl
  refine SameInfo.modOrder ?_ fun _ => rfl
  split
  · exact hlinks
  · exact hlinks

/-- **Removing an order** leaves its data where it was. -/
theorem sameInfo_removeOrder {o : ℕ} (hrun : b.removeOrder o = .ok b') : SameInfo b b' := by
  have hunlinked : ∀ {b₁ : LimitBook I K}, SameInfo b b₁ → (do
      let b ← b₁.setKey (OrderInfo.key (b₁.order o).info) none
      let pool ← b.order_pool_.deallocate o
      .ok { b with order_pool_ := pool }) = .ok b' → SameInfo b b' := by
    intro b₁ h₁ hrun
    obtain ⟨b₂, hkey, hrun⟩ := bind_eq_ok.mp hrun
    obtain ⟨pool, hpool, hrun⟩ := bind_eq_ok.mp hrun
    cases hrun
    intro p
    show (pool.get p).info = _
    rw [MemPool.get_deallocate hpool]
    exact h₁.setKey hkey p
  unfold LimitBook.removeOrder at hrun
  split at hrun
  · obtain ⟨b₁, hremove, hrun⟩ := bind_eq_ok.mp hrun
    exact hunlinked (sameInfo_removeOrdersAtPrice hremove) hrun
  · obtain ⟨b₁, hunlink, hrun⟩ := bind_eq_ok.mp hrun
    exact hunlinked (sameInfo_unlinkOrder hunlink) hrun

omit [OrderInfo I K] [DecidableEq K] in
theorem sameInfo_linkOrder {first o : ℕ} (hrun : b.linkOrder first o = .ok b') :
    SameInfo b b' := by
  obtain ⟨last, -, hrun⟩ := bind_eq_ok.mp hrun
  cases hrun
  iterate 4 refine SameInfo.modOrder ?_ fun _ => rfl
  exact SameInfo.refl b

theorem sameInfo_addOrder {o : ℕ} (hrun : b.addOrder o = .ok b') : SameInfo b b' := by
  unfold LimitBook.addOrder at hrun
  simp only at hrun
  split at hrun
  · -- the order opens a level
    obtain ⟨⟨l, pool⟩, -, hrun⟩ := bind_eq_ok.mp hrun
    obtain ⟨b₁, hplace, hkey⟩ := bind_eq_ok.mp hrun
    have halone := (SameInfo.refl b).modOrder (o := o)
      (f := fun e => { e with prev_order_ := some o, next_order_ := some o }) fun _ => rfl
    have hopened : SameInfo b { b.modOrder o fun e =>
      { e with prev_order_ := some o, next_order_ := some o } with orders_at_price_pool_ := pool } :=
      halone
    exact (hopened.frame (addOrdersAtPrice_frame hplace)).setKey hkey
  · -- it goes behind the orders of its level
    obtain ⟨first, -, hrun⟩ := bind_eq_ok.mp hrun
    obtain ⟨b₁, hlink, hkey⟩ := bind_eq_ok.mp hrun
    exact (sameInfo_linkOrder hlink).setKey hkey

/-- **A new order** is stored in the free block the pool has at hand, and nowhere else. -/
theorem insertOrder_info {info : I} (hrun : b.insertOrder info = .ok b') (p : ℕ) :
    (b'.order p).info =
      if p = b.order_pool_.next_free_index_ then info else (b.order p).info := by
  obtain ⟨⟨o, pool⟩, hpool, hadd⟩ := bind_eq_ok.mp hrun
  have hget := MemPool.get_allocate hpool p
  have ho : o = b.order_pool_.next_free_index_ := by
    unfold MemPool.allocate at hpool
    simp only at hpool
    split at hpool
    · cases hpool
    · obtain ⟨pool₁, -, hpool⟩ := bind_eq_ok.mp hpool
      cases hpool
      rfl
  rw [sameInfo_addOrder hadd p]
  show (pool.get p).info = _
  rw [hget, ho]
  split
  · rfl
  · rfl

end TradingEcosystem.LimitBook
