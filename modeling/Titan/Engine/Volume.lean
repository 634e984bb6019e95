import Titan.Engine.Fill
import Titan.Engine.Run

/-! The cached volume of a level against the orders in it.

    Only `removeFromLevel` lowers `totalVolume`, by the remaining quantity of the order that leaves.
    A maker that is filled has none by then, so the counter keeps what was traded as long as the level
    lives. The counter is right again exactly when no level is left behind half matched. -/

namespace Titan
open Schemes

namespace Book
variable {k : Book} {o : Order}

/-- The quantity of the submission runs out inside a price level of the other side: some of its
    orders trade and some quantity stays. -/
def EndsInside (k : Book) (o : Order) : Prop := ∃ p, o.Reaches p ∧
  ahead o.side.opp (k o.side.opp) p < o.effective.toNat ∧
  o.effective.toNat < ahead o.side.opp (k o.side.opp) p + depthAt (k o.side.opp) p

/-- A level that is left behind has not traded, unless the submission ends inside it. -/
theorem not_endsInside_iff (hk : k.Sane) : ¬ k.EndsInside o ↔
    ∀ p, depthAt (k.fillOf o).rest p ≠ 0 → tradedAt (k.fillOf o).trades p = 0 := by
  have hadd := tradedAt_add_depthAt o (q := o.effective) (L := k o.side.opp)
  rw [EndsInside, not_exists]
  refine forall_congr' fun p => ?_
  have h1 := hadd p
  by_cases hr : o.Reaches p
  · have h2 := tradedAt_eq o p o.effective (k o.side.opp) (hk.sorted _) hr
    rw [fillOf]
    constructor
    · intro hn hd
      have := not_and.mp (not_and.mp hn hr)
      omega
    · rintro hn ⟨-, ha, hb⟩
      have := hn (by omega)
      omega
  · rw [fillOf, tradedAt_of_not_reaches o hr]
    exact ⟨fun _ _ => rfl, fun _ h => hr h.1⟩

theorem depthAt_eq_zero_iff {L : List Order} {p : Price} (hpos : ∀ m ∈ L, m.remainingQuantity ≠ 0) :
    depthAt L p = 0 ↔ (L.filter fun m => m.price = p) = [] := by
  constructor
  · intro h
    rw [List.filter_eq_nil_iff]
    intro m hm hp
    have hmem : m ∈ L.filter fun m => m.price = p := List.mem_filter.mpr ⟨hm, hp⟩
    obtain ⟨xs, ys, hxy⟩ := List.mem_iff_append.mp hmem
    rw [depthAt, hxy, total_append, total_cons] at h
    have := UInt32.toNat_inj.not.mpr (hpos m hm)
    simp only [UInt32.toNat_zero] at this
    omega
  · intro h
    rw [depthAt, h, total_nil]

theorem tradedAt_lt (p : Price) (q : Quantity) (L : List Order) :
    tradedAt (fill o q L).trades p < 2 ^ 32 := by
  have h1 := traded_add_left o q L
  have h2 := q.toNat_lt
  have h3 : tradedAt (fill o q L).trades p ≤ traded (fill o q L).trades :=
    (List.filter_sublist.map _).sum_le_sum fun _ _ => Nat.zero_le _
  omega

end Book

namespace PoolOrderBook
variable {b : PoolOrderBook} {s : Side} {p : Price} {o : Order} {i : UInt32} {id : OrderId}

/-- The counters of a side are right. -/
def ExactAt (b : PoolOrderBook) (s : Side) : Prop :=
  ∀ p, b.volumeAtPrice s p = volume (b.levelOrders s p)

/-- All counters are right. -/
def Exact (b : PoolOrderBook) : Prop := ∀ s, b.ExactAt s

theorem volumeAtPrice_eq (b : PoolOrderBook) (s : Side) (p : Price) :
    b.volumeAtPrice s p = (((b.levels s).find? p).map (·.totalVolume)).getD 0 := by
  cases s <;> rfl

theorem volumeAtPrice_congr {b' : PoolOrderBook} (h : b'.levels s = b.levels s) (p : Price) :
    b'.volumeAtPrice s p = b.volumeAtPrice s p := by
  rw [volumeAtPrice_eq, volumeAtPrice_eq, h]

theorem volumeAtPrice_eq_levelAt (b : PoolOrderBook) (s : Side) (p : Price) :
    b.volumeAtPrice s p = (b.levelAt s p).totalVolume := by
  rw [volumeAtPrice_eq, levelAt]
  cases (b.levels s).find? p <;> rfl

theorem exactAt_iff (h : b.Inv) : b.ExactAt s ↔
    ∀ p, b.volumeAtPrice s p = volume (b.book.queueAt s p) := by
  refine forall_congr' fun p => ?_
  rw [h.shape.levelOrders_eq]

/-- A price has a level iff orders rest there. -/
theorem Inv.find?_none_iff (h : b.Inv) :
    (b.levels s).find? p = none ↔ b.book.queueAt s p = [] := by
  have hk := (h.keys_perm s).mem_iff (a := p)
  rw [Book.prices, List.mem_dedup, List.mem_map, List.mem_map] at hk
  rw [SortedMap.find?_eq_none_iff, Book.queueAt, List.filter_eq_nil_iff]
  constructor
  · intro hn o ho hp
    obtain ⟨e, he, hep⟩ := hk.mpr ⟨o, ho, by simpa using hp⟩
    exact hn e he hep
  · intro hn e he hep
    obtain ⟨o, ho, hp⟩ := hk.mp ⟨e, he, hep⟩
    exact hn o ho (by simpa using hp)

theorem Inv.volume_of_empty (h : b.Inv) (hq : b.book.queueAt s p = []) :
    b.volumeAtPrice s p = 0 := by
  rw [volumeAtPrice_eq, h.find?_none_iff.mpr hq]
  rfl

/-! ### Matching -/

/-- The level counters of the other side are those from before, where levels are left. -/
theorem volume_matched (h : b.Inv) (out : List Trade)
    (hq : (b.matched o out).book.book.queueAt o.side.opp p ≠ []) :
    (b.matched o out).book.volumeAtPrice o.side.opp p = b.volumeAtPrice o.side.opp p := by
  obtain ⟨hb, -⟩ := matched_spec h o out
  cases hf : ((b.matched o out).book.levels o.side.opp).find? p with
  | none => exact absurd (hb.inv.find?_none_iff.mp hf) hq
  | some l' =>
    have hmem : (p, l'.totalVolume) ∈ (b.matched o out).book.volumes o.side.opp :=
      List.mem_map_of_mem (f := fun e : Price × PriceLevel => (e.1, e.2.totalVolume))
        (SortedMap.find?_eq_some_iff_mem.mp hf)
    obtain ⟨⟨p', l⟩, hl, he⟩ := List.mem_map.mp (hb.volumes.subset hmem)
    obtain ⟨rfl, hv⟩ := Prod.mk.inj he
    rw [volumeAtPrice_eq, hf, volumeAtPrice_eq]
    have hold : (b.levels o.side.opp).find? p' = some l := SortedMap.find?_eq_some_iff_mem.mpr hl
    rw [hold]
    exact hv.symm

/-- Matching leaves the counters of the other side right iff it does not end inside a level. -/
theorem exactAt_matched_iff (h : b.Good) (out : List Trade) (he : b.ExactAt o.side.opp) :
    (b.matched o out).book.ExactAt o.side.opp ↔ ¬ b.book.EndsInside o := by
  obtain ⟨hb, -, -, hbook⟩ := matched_spec h.1 o out
  rw [exactAt_iff h.1] at he
  rw [exactAt_iff hb.inv, Book.not_endsInside_iff h.2]
  refine forall_congr' fun p => ?_
  have hrest : (b.matched o out).book.book.queueAt o.side.opp p =
      (b.book.fillOf o).rest.filter fun m => m.price = p := by
    rw [hbook, Book.queueAt, Book.setSide_self]
  have hpos : ∀ m ∈ (b.book.fillOf o).rest, m.remainingQuantity ≠ 0 :=
    rest_pos _ _ _ fun m hm => (h.2.orders _ m hm).2.2.2.2
  have hadd := tradedAt_add_depthAt o p o.effective (b.book o.side.opp)
  have hlt := Book.tradedAt_lt (o := o) p o.effective (b.book o.side.opp)
  by_cases hq : (b.book.fillOf o).rest.filter (fun m => m.price = p) = []
  · -- no order is left at this price, and no level
    rw [hrest, hq, volume_nil, hb.inv.volume_of_empty (hrest.trans hq)]
    simp [(Book.depthAt_eq_zero_iff hpos).mpr hq]
  · have hd : depthAt (b.book.fillOf o).rest p ≠ 0 := mt (Book.depthAt_eq_zero_iff hpos).mp hq
    rw [volume_matched h.1 out (by rw [hrest]; exact hq), he p, hrest, volume_eq_iff]
    show depthAt (b.book o.side.opp) p % _ = depthAt (b.book.fillOf o).rest p % _ ↔ _
    rw [Book.fillOf] at hd ⊢
    constructor
    · intro hmod _
      omega
    · intro hz
      have := hz hd
      omega

/-! ### Resting -/

theorem levels_restAt (b : PoolOrderBook) (s : Side) (p : Price) (x : UInt32) :
    (b.restAt s p x).levels s = (b.levels s).insert p
      (b.appendToLevel { b.levelAt s p with price := p } x).2 := by
  rw [restAt_eq, attach, setLevel, levels_setLevels, levels_appendToLevel]

theorem levels_restAt_opp (b : PoolOrderBook) (s : Side) (p : Price) (x : UInt32) :
    (b.restAt s p x).levels s.opp = b.levels s.opp := by
  rw [restAt_eq, attach, setLevel, levels_setLevels_opp, levels_appendToLevel]

/-- Resting adds the order to the counter of its level. -/
theorem volume_rest (h : b.Inv) (hcap : (b.rest o).nodes.length < 2 ^ 32) (p : Price) :
    (b.rest o).volumeAtPrice o.side p =
      b.volumeAtPrice o.side p + if o.price = p then o.remainingQuantity else 0 := by
  rw [rest_eq] at hcap ⊢
  obtain ⟨-, hox, -⟩ := h.shape.allocateNode (o := o) (by simpa using hcap)
  set x := (b.allocateNode o).1
  set b₂ : PoolOrderBook := { (b.allocateNode o).2 with
    orderIndex := (b.allocateNode o).2.orderIndex.insert o.orderId x } with hb₂
  have hlv : b₂.levels o.side = b.levels o.side := by
    rw [← levels_allocateNode (b := b) (o := o)]; cases o.side <;> rfl
  have hat : b₂.levelAt o.side o.price = b.levelAt o.side o.price := by rw [levelAt, hlv, levelAt]
  have hx : b₂.order x = o := hox
  rw [volumeAtPrice_eq, levels_restAt, hlv]
  split_ifs with hp
  · subst hp
    rw [SortedMap.find?_insert_self, Option.map_some, Option.getD_some, totalVolume_appendToLevel,
      hx, hat, volumeAtPrice_eq_levelAt]
  · rw [SortedMap.find?_insert_of_ne _ _ (Ne.symm hp), ← volumeAtPrice_eq, UInt32.add_zero]

theorem volume_rest_opp (b : PoolOrderBook) (o : Order) (p : Price) :
    (b.rest o).volumeAtPrice o.side.opp p = b.volumeAtPrice o.side.opp p := by
  refine volumeAtPrice_congr ?_ p
  rw [rest_eq, levels_restAt_opp, ← levels_allocateNode (b := b) (o := o)]
  cases o.side <;> rfl

/-- Resting keeps the counters of both sides as right or wrong as they are. -/
theorem exact_rest_iff (h : b.Good) (hnew : b.orderIndex.find? o.orderId = none)
    (hcap : (b.rest o).nodes.length < 2 ^ 32) (hown : b.ExactAt o.side) :
    (b.rest o).Exact ↔ b.ExactAt o.side.opp := by
  obtain ⟨hinv, hbook⟩ := rest_spec h.1 hnew hcap
  have hopp : (b.rest o).ExactAt o.side.opp ↔ b.ExactAt o.side.opp := by
    rw [exactAt_iff hinv, exactAt_iff h.1]
    refine forall_congr' fun p => ?_
    rw [volume_rest_opp, hbook, Book.queueAt, Book.rest, Book.setSide_opp, Book.queueAt]
  have hself : (b.rest o).ExactAt o.side := by
    rw [exactAt_iff h.1] at hown
    rw [exactAt_iff hinv]
    intro p
    rw [volume_rest h.1 hcap, hown, hbook, Book.queueAt, Book.queueAt, Book.rest,
      Book.setSide_self, filter_place (h.2.sorted _), volume_append]
    split_ifs <;> simp
  refine ⟨fun he => hopp.mp (he _), fun he s => ?_⟩
  rcases o.side.eq_or_eq_opp s with rfl | rfl
  · exact hself
  · exact hopp.mpr he

/-- A submission leaves all counters right iff it does not end inside a level. -/
theorem exact_submitOrder_iff (h : b.Good) (he : b.Exact) (out : List Trade)
    (hfit : (b.submitOrder o out).2.2.Fits) :
    (b.submitOrder o out).2.2.Exact ↔ ¬ (b.book.Accepts o ∧ b.book.EndsInside o) := by
  by_cases ha : b.book.Accepts o
  · obtain ⟨hb, -, hinc, hbook⟩ := matched_spec h.1 o out
    have hgood : (b.matched o out).book.Good := ⟨hb.inv, hbook ▸ h.2.matched o⟩
    have hown : (b.matched o out).book.ExactAt o.side := by
      have := he o.side
      rw [exactAt_iff h.1] at this
      rw [exactAt_iff hb.inv]
      intro p
      rw [volumeAtPrice_congr hb.run.ownLevels, hbook, Book.queueAt, Book.setSide_of_opp]
      exact this p
    rw [submitOrder_eq h.1, if_pos ha] at hfit ⊢
    rw [and_iff_right ha, ← exactAt_matched_iff h out (he _)]
    split_ifs at hfit ⊢ with hrest
    · have hside : (b.matched o out).incoming.side = o.side := by rw [hinc]
      have hid : (b.matched o out).incoming.orderId = o.orderId := by rw [hinc]
      rw [← hside] at hown ⊢
      refine exact_rest_iff hgood ?_ hfit hown
      rw [hid, hb.inv.index_none_iff, hbook]
      exact Book.find?_fill_none ha.2.2
    · refine ⟨fun hx => hx _, fun hx s => ?_⟩
      rcases o.side.eq_or_eq_opp s with rfl | rfl
      · exact hown
      · exact hx
  · rw [submitOrder_eq h.1, if_neg ha]
    exact iff_of_true he fun hx => ha hx.1

/-! ### Cancelling -/

/-- Unlinking an order takes its remaining quantity off the counter of its level, if the level
    stays. -/
theorem volume_unlink (h : b.Inv) (hi : i ∈ b.queued s)
    (hf : ((b.unlink s (b.order i).price i).levels s).find? p ≠ none) :
    (b.unlink s (b.order i).price i).volumeAtPrice s p = b.volumeAtPrice s p -
      if (b.order i).price = p then (b.order i).remainingQuantity else 0 := by
  obtain ⟨-, pre, l, post, xs, ys, hc, hl⟩ := h.shape.of_queued hi
  have hlv : (b.detach s (b.order i).price l i).levels s =
      (b.levels s).insert (b.order i).price (b.removeFromLevel l i).2 := by
    rw [detach, setLevel, levels_setLevels, levels_removeFromLevel]
  have hd : (b.detach s (b.order i).price l i).volumeAtPrice s p = b.volumeAtPrice s p -
      if (b.order i).price = p then (b.order i).remainingQuantity else 0 := by
    rw [volumeAtPrice_eq, hlv]
    split_ifs with hp
    · subst hp
      rw [SortedMap.find?_insert_self, Option.map_some, Option.getD_some,
        totalVolume_removeFromLevel, volumeAtPrice_eq, SortedMap.find?_of_cut hc]
      rfl
    · rw [SortedMap.find?_insert_of_ne _ _ (Ne.symm hp), ← volumeAtPrice_eq, UInt32.sub_zero]
  rw [unlink_of_cut hc] at hf ⊢
  by_cases hempty : (b.removeFromLevel l i).2.empty = true
  · -- the level goes
    rw [if_pos hempty, eraseLevel, levels_setLevels] at hf
    have hp : p ≠ (b.order i).price := by
      rintro rfl
      exact hf (SortedMap.find?_erase_self ..)
    rw [if_pos hempty, ← hd, volumeAtPrice_eq, eraseLevel, levels_setLevels,
      SortedMap.find?_erase_of_ne _ _ hp, ← volumeAtPrice_eq]
  · rw [if_neg hempty]
    exact hd

theorem levels_unlink_opp (b : PoolOrderBook) (s : Side) (p : Price) (i : UInt32) :
    (b.unlink s p i).levels s.opp = b.levels s.opp := by
  rcases (b.levels s).split p with ⟨l, pre, post, hc⟩ | ⟨pre, post, hc, hpre, hpost⟩
  · rw [unlink_of_cut hc]
    split_ifs
    · rw [eraseLevel, levels_setLevels_opp, detach, setLevel, levels_setLevels_opp,
        levels_removeFromLevel]
    · rw [detach, setLevel, levels_setLevels_opp, levels_removeFromLevel]
  · rw [unlink, SortedMap.find?_of_gap hc hpre hpost]

/-- A cancel takes what its order still asks for off the counter of its level, if the level
    stays. -/
theorem volume_cancelled (h : b.Inv) {id : OrderId} (hf : b.orderIndex.find? id = some i)
    (hq : (b.cancelOrder id).2.book.queueAt s p ≠ []) :
    (b.cancelOrder id).2.volumeAtPrice s p = b.volumeAtPrice s p -
      if s = (b.order i).side ∧ (b.order i).price = p then (b.order i).remainingQuantity else 0 := by
  obtain ⟨hi, -⟩ := (h.indexed.find id i).mp hf
  obtain ⟨t, hit⟩ := b.exists_queued hi
  have hside : (b.order i).side = t := (h.shape.of_queued hit).1
  have hlevel := mt (cancelOrder_spec h id).1.find?_none_iff.mp hq
  rw [cancelOrder_of_find hf, hside] at hlevel ⊢
  have hlv : ∀ b₁ : PoolOrderBook, ∀ u, ({ (b₁.freeNode i) with
      orderIndex := (b₁.freeNode i).orderIndex.erase id } : PoolOrderBook).levels u =
      b₁.levels u := by
    intro b₁ u
    rw [← levels_freeNode (b := b₁) (i := i)]
    cases u <;> rfl
  rw [hlv] at hlevel
  refine (volumeAtPrice_congr (hlv _ s) p).trans ?_
  rcases t.eq_or_eq_opp s with rfl | rfl
  · rw [volume_unlink h hit hlevel]
    simp
  · rw [volumeAtPrice_congr (levels_unlink_opp ..)]
    simp

/-- Cancels keep right counters right. -/
theorem exact_cancelOrder (h : b.Good) (he : b.Exact) (id : OrderId) :
    (b.cancelOrder id).2.Exact := by
  cases hf : b.orderIndex.find? id with
  | none => rw [cancelOrder, hf]; exact he
  | some i =>
    obtain ⟨hi, hid⟩ := (h.1.indexed.find id i).mp hf
    obtain ⟨s, his⟩ := b.exists_queued hi
    have hside : (b.order i).side = s := (h.1.shape.of_queued his).1
    have hinv := (cancelOrder_spec h.1 id).1
    have hmem : b.order i ∈ b.book s := List.mem_map_of_mem his
    obtain ⟨xs, ys, hxy⟩ := List.mem_iff_append.mp hmem
    have hbook : (b.cancelOrder id).2.book = b.book.setSide s (xs ++ ys) := by
      rw [book_cancelOrder h.1, ← hid, Book.cancel_of_cut xs ys h.2.ids hxy (Book.setSide_self b.book s (xs ++ ys))
        (Book.setSide_opp ..)]
    intro t
    rw [exactAt_iff hinv]
    intro p
    have hold := (exactAt_iff h.1).mp (he t) p
    by_cases hq : (b.cancelOrder id).2.book.queueAt t p = []
    · rw [hinv.volume_of_empty hq, hq, volume_nil]
    rw [volume_cancelled h.1 hf hq, hold, hbook, Book.queueAt, Book.queueAt, hside]
    rcases s.eq_or_eq_opp t with rfl | rfl
    · rw [Book.setSide_self, hxy, List.filter_append, List.filter_append, volume_append,
        volume_append]
      by_cases hp : (b.order i).price = p
      · rw [if_pos ⟨rfl, hp⟩, List.filter_cons_of_pos (by simpa using hp), volume_cons]
        grind
      · rw [if_neg fun hx => hp hx.2, List.filter_cons_of_neg (by simpa using hp),
          UInt32.sub_zero]
    · rw [Book.setSide_opp, if_neg fun hx => s.opp_ne hx.1, UInt32.sub_zero]

/-! ### Runs -/

/-- A call leaves no level half matched: it is no accepted submission that ends inside one. -/
def StepsClean (b : PoolOrderBook) : Call → Prop
  | .submit order _ => ¬ (b.book.Accepts order ∧ b.book.EndsInside order)
  | .cancel _ | .clear => True

theorem exact_of_empty (h : b.Inv) (hb : b.book = fun _ => []) : b.Exact := fun s => by
  rw [exactAt_iff h, hb]
  intro p
  rw [h.volume_of_empty (by rw [hb]; rfl)]
  rfl

/-- One call keeps right counters right iff it leaves no level half matched. -/
theorem exact_call_iff (h : b.Good) (he : b.Exact) (c : Call) (hfit : (b.call c).2.Fits) :
    (b.call c).2.Exact ↔ b.StepsClean c := by
  cases c with
  | submit o out => exact exact_submitOrder_iff h he out hfit
  | cancel id => exact iff_of_true (exact_cancelOrder h he id) trivial
  | clear => exact iff_of_true (exact_of_empty (inv_clear h.1).1 (inv_clear h.1).2) trivial

/-- From a state with right counters on, they stay right iff no call leaves a level half matched. -/
theorem exact_history_iff : ∀ (calls : List Call) {b : PoolOrderBook}, b.Good → b.Exact →
    (∀ e ∈ history call b calls, e.after.Fits) →
    ((∀ e ∈ history call b calls, e.after.Exact) ↔
      ∀ e ∈ history call b calls, e.before.StepsClean e.call)
  | [], _, _, _, _ => ⟨fun _ _ he => (nomatch he), fun _ _ he => (nomatch he)⟩
  | c :: cs, b, h, he, hfit => by
    have hfit₁ := hfit _ (List.mem_cons_self ..)
    have hstep := exact_call_iff h he c hfit₁
    rw [history, List.forall_mem_cons, List.forall_mem_cons]
    dsimp only
    rw [hstep]
    refine and_congr_right fun hc => ?_
    exact exact_history_iff cs (good_call b c h hfit₁) (hstep.mpr hc) fun e he =>
      hfit e (List.mem_cons_of_mem _ he)

end PoolOrderBook

/-- The counter of every level is the volume of its orders, and what the reference engine computes. -/
def VolumesAgree (b : PoolOrderBook) (t : StlOrderBook) : Prop := ∀ s p,
  b.volumeAtPrice s p = volume (b.levelOrders s p) ∧ b.volumeAtPrice s p = t.volumeAtPrice s p

theorem Same.volumesAgree_iff {b : PoolOrderBook} {t : StlOrderBook} (h : Same b t) :
    VolumesAgree b t ↔ b.Exact := by
  have hsum : ∀ s p, volume (b.levelOrders s p) = t.volumeAtPrice s p := fun s p => by
    rw [h.pool.shape.levelOrders_eq, h.stl.volumeAtPrice_eq, h.book]
  constructor
  · intro hv s p
    exact (hv s p).1
  · intro he s p
    exact ⟨he s p, (he s p).trans (hsum s p)⟩

theorem forall₂_and_iff {α β : Type} {R : α → β → Prop} {P : α → β → Prop} {Q : α → Prop}
    (hPQ : ∀ a b, R a b → (P a b ↔ Q a)) : ∀ {as : List α} {bs : List β},
    List.Forall₂ R as bs → (List.Forall₂ P as bs ↔ ∀ a ∈ as, Q a)
  | _, _, .nil => by simp
  | _, _, .cons h hs => by
    rw [List.forall₂_cons, List.forall_mem_cons, hPQ _ _ h, forall₂_and_iff hPQ hs]

/-- The counters are right after every call of a run iff no call of it leaves a level half
    matched. -/
theorem volumes_agree_iff (initialCapacity : ℕ) (calls : List Call)
    (hn : (PoolOrderBook.ctor initialCapacity).Fits)
    (hfit : ∀ e ∈ history PoolOrderBook.call (.ctor initialCapacity) calls, e.after.Fits) :
    VolumesAgree (.ctor initialCapacity) {} ∧
    (List.Forall₂ (fun e f => VolumesAgree e.after f.after)
      (history PoolOrderBook.call (.ctor initialCapacity) calls)
      (history StlOrderBook.call {} calls) ↔
    ∀ e ∈ history PoolOrderBook.call (.ctor initialCapacity) calls, e.before.StepsClean e.call) := by
  have hgood := PoolOrderBook.good_ctor hn
  have hstart := PoolOrderBook.exact_of_empty hgood.1
    (PoolOrderBook.inv_ctor (PoolOrderBook.fits_ctor.mp hn)).2
  refine ⟨(same_start hn).volumesAgree_iff.mpr hstart, ?_⟩
  rw [← PoolOrderBook.exact_history_iff calls hgood hstart hfit]
  refine forall₂_and_iff ?_ (history_simulation Same.call calls (same_start hn) hfit)
  rintro e f ⟨-, -, -, hs⟩
  exact hs.volumesAgree_iff

theorem volumes_agree_iff_tradingDay : VolumesAgree (.ctor 1) {} ∧
    (List.Forall₂ (fun e f => VolumesAgree e.after f.after)
      (history PoolOrderBook.call (.ctor 1) tradingDay) (history StlOrderBook.call {} tradingDay) ↔
    ∀ e ∈ history PoolOrderBook.call (.ctor 1) tradingDay, e.before.StepsClean e.call) :=
  volumes_agree_iff 1 tradingDay tradingDay_fits.1 tradingDay_fits.2

/-- A buy of 4 against a sell of 10 ends inside its level, whose counter stays at 10. -/
theorem volumes_drift : ¬ ∀ initialCapacity calls, (PoolOrderBook.ctor initialCapacity).Fits →
    (∀ e ∈ history PoolOrderBook.call (.ctor initialCapacity) calls, e.after.Fits) →
    VolumesAgree (final PoolOrderBook.call (.ctor initialCapacity) calls)
      (final StlOrderBook.call {} calls) := by
  intro h
  have hdrift := (h 2 [.submit { orderId := 1, price := 100, initialQuantity := 10, side := .sell } [],
    .submit { orderId := 2, price := 100, initialQuantity := 4 } []] (by decide) (by decide)
    .sell 100).1
  revert hdrift
  decide

/-! ### The sum of the reference engine -/

/-- The reference engine gives the exact depth of a price iff that fits a quantity. -/
theorem stl_volume_exact_iff {t : StlOrderBook} (h : t.Reachable) (s : Side) (p : Price) :
    (t.volumeAtPrice s p).toNat = t.book.depth s p ↔ t.book.depth s p < 2 ^ 32 := by
  rw [h.good.1.volumeAtPrice_eq, volume, Book.depth]
  constructor
  · intro hexact
    rw [← hexact]
    exact UInt32.toNat_lt _
  · exact UInt32.toNat_ofNat_of_lt'

theorem stl_volume_exact_morning : let t := final StlOrderBook.call {} (tradingDay.take 4)
    (t.volumeAtPrice .sell 101).toNat = t.book.depth .sell 101 ∧ t.book.depth .sell 101 = 12 :=
  ⟨(stl_volume_exact_iff ⟨tradingDay.take 4, rfl⟩ .sell 101).mpr (by decide), by decide⟩

/-- Two sells that fill a level to `2 ^ 32`. -/
def deepLevel : List Call :=
  [.submit { orderId := 1, price := 100, initialQuantity := 4294967295, side := .sell } [],
   .submit { orderId := 2, price := 100, initialQuantity := 1, side := .sell } []]

/-- The sum of a level wraps. -/
theorem stl_volume_wraps : ¬ ∀ t : StlOrderBook, t.Reachable → ∀ s p,
    (t.volumeAtPrice s p).toNat = t.book.depth s p := by
  intro h
  have hwraps := h _ ⟨deepLevel, rfl⟩ .sell 100
  revert hwraps
  decide

end Titan
