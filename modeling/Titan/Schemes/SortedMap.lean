import Mathlib.Order.Defs.Unbundled
import Mathlib.Order.RelClasses
import Mathlib.Data.List.Pairwise
import Mathlib.Tactic

/-! Finite maps as lists of entries in strict key order.

    `SortedMap lt V` is an ordered dictionary under the comparator `lt`: no key occurs twice and
    iteration goes from the least key up. An unordered dictionary is one whose order nobody looks
    at. The lemmas describe every operation by where the key sits: `split` cuts the entries at a
    key, and insertion, removal and lookup then act on the cut. -/

namespace Schemes

structure SortedMap {K : Type*} (lt : K → K → Prop) (V : Type*) where
  entries : List (K × V)
  sorted : entries.Pairwise fun a b => lt a.1 b.1

/-- A list cut at its first entry. -/
theorem cut_head {α : Type*} {xs ys : List α} {x : α} (h : xs = x :: ys) : xs = [] ++ x :: ys := h

namespace SortedMap

variable {K V : Type*} {lt : K → K → Prop}

@[ext] theorem ext {m n : SortedMap lt V} (h : m.entries = n.entries) : m = n := by
  cases m; cases n; cases h; rfl

def empty : SortedMap lt V := ⟨[], .nil⟩

def size (m : SortedMap lt V) : ℕ := m.entries.length

def isEmpty (m : SortedMap lt V) : Bool := m.entries.isEmpty

/-- The first entry in key order. -/
def begin? (m : SortedMap lt V) : Option (K × V) := m.entries.head?

/-! ### Operations -/

section Ops
variable [DecidableEq K]

def find? (m : SortedMap lt V) (k : K) : Option V := (m.entries.find? fun e => e.1 = k).map (·.2)

/-- Remove the entry under `k`, if there is one. -/
def erase (m : SortedMap lt V) (k : K) : SortedMap lt V :=
  ⟨m.entries.filter fun e => e.1 ≠ k, m.sorted.sublist List.filter_sublist⟩

theorem entries_erase (m : SortedMap lt V) (k : K) :
    (m.erase k).entries = m.entries.filter fun e => e.1 ≠ k := rfl

/-- Put `v` under `k` in an entry list, replacing what is there. -/
def put (lt : K → K → Prop) [DecidableRel lt] (k : K) (v : V) : List (K × V) → List (K × V)
  | [] => [(k, v)]
  | e :: es =>
    if lt k e.1 then (k, v) :: e :: es
    else if e.1 = k then (k, v) :: es
    else e :: put lt k v es

theorem mem_put [DecidableRel lt] {k : K} {v : V} {e : K × V} :
    ∀ {es : List (K × V)}, e ∈ put lt k v es → e = (k, v) ∨ e ∈ es
  | [], h => by simpa [put] using h
  | e' :: es, h => by
    rw [put] at h
    split_ifs at h with h1 h2
    · simpa using h
    · rcases List.mem_cons.mp h with rfl | h
      · exact .inl rfl
      · exact .inr (List.mem_cons_of_mem _ h)
    · rcases List.mem_cons.mp h with rfl | h
      · exact .inr (List.mem_cons_self ..)
      · exact (mem_put h).imp_right (List.mem_cons_of_mem _)

theorem put_sorted [DecidableRel lt] [IsStrictTotalOrder K lt] (k : K) (v : V) :
    ∀ {es : List (K × V)}, es.Pairwise (fun a b => lt a.1 b.1) →
      (put lt k v es).Pairwise fun a b => lt a.1 b.1
  | [], _ => List.pairwise_singleton ..
  | e :: es, h => by
    obtain ⟨he, hes⟩ := List.pairwise_cons.mp h
    rw [put]
    split_ifs with h1 h2
    · refine List.pairwise_cons.mpr ⟨fun x hx => ?_, h⟩
      rcases List.mem_cons.mp hx with rfl | hx
      · exact h1
      · exact trans_of lt h1 (he x hx)
    · exact List.pairwise_cons.mpr ⟨fun x hx => h2 ▸ he x hx, hes⟩
    · refine List.pairwise_cons.mpr ⟨fun x hx => ?_, put_sorted k v hes⟩
      rcases mem_put hx with rfl | hx
      · exact (trichotomous_of lt e.1 k).elim id fun h => (h.elim h2 h1).elim
      · exact he x hx

def insert [DecidableRel lt] [IsStrictTotalOrder K lt] (m : SortedMap lt V) (k : K) (v : V) :
    SortedMap lt V :=
  ⟨put lt k v m.entries, put_sorted k v m.sorted⟩

theorem entries_insert [DecidableRel lt] [IsStrictTotalOrder K lt] (m : SortedMap lt V) (k : K)
    (v : V) : (m.insert k v).entries = put lt k v m.entries := rfl

end Ops

/-! ### Cutting the entries at a key -/

section Cut
variable {m : SortedMap lt V} {k : K} {v : V} {pre post : List (K × V)}

theorem lt_of_mem_pre (h : m.entries = pre ++ (k, v) :: post) : ∀ e ∈ pre, lt e.1 k := fun e he =>
  (List.pairwise_append.mp (h ▸ m.sorted)).2.2 e he (k, v) (List.mem_cons_self ..)

theorem lt_of_mem_post (h : m.entries = pre ++ (k, v) :: post) : ∀ e ∈ post, lt k e.1 := fun e he =>
  (List.pairwise_cons.mp (List.pairwise_append.mp (h ▸ m.sorted)).2.1).1 e he

variable [IsStrictTotalOrder K lt]

theorem ne_of_mem_pre (h : ∀ e ∈ pre, lt e.1 k) : ∀ e ∈ pre, e.1 ≠ k := fun e he heq =>
  irrefl_of lt k (heq ▸ h e he)

theorem ne_of_mem_post (h : ∀ e ∈ post, lt k e.1) : ∀ e ∈ post, e.1 ≠ k := fun e he heq =>
  irrefl_of lt k (heq ▸ h e he)

/-- Where a key sits: at one entry, or between two runs of entries. -/
theorem split (m : SortedMap lt V) (k : K) :
    (∃ v pre post, m.entries = pre ++ (k, v) :: post) ∨
    (∃ pre post, m.entries = pre ++ post ∧ (∀ e ∈ pre, lt e.1 k) ∧ ∀ e ∈ post, lt k e.1) := by
  suffices h : ∀ es : List (K × V), es.Pairwise (fun a b => lt a.1 b.1) →
      (∃ v pre post, es = pre ++ (k, v) :: post) ∨
      (∃ pre post, es = pre ++ post ∧ (∀ e ∈ pre, lt e.1 k) ∧ ∀ e ∈ post, lt k e.1) from
    h m.entries m.sorted
  intro es
  induction es with
  | nil => intro _; exact .inr ⟨[], [], rfl, by simp, by simp⟩
  | cons e es ih =>
    intro hs
    obtain ⟨he, hes⟩ := List.pairwise_cons.mp hs
    rcases trichotomous_of lt e.1 k with hlt | heq | hgt
    · rcases ih hes with ⟨v, pre, post, rfl⟩ | ⟨pre, post, rfl, hpre, hpost⟩
      · exact .inl ⟨v, e :: pre, post, rfl⟩
      · exact .inr ⟨e :: pre, post, rfl, List.forall_mem_cons.mpr ⟨hlt, hpre⟩, hpost⟩
    · exact .inl ⟨e.2, [], es, by rw [← heq, List.nil_append]⟩
    · exact .inr ⟨[], e :: es, rfl, by simp,
        List.forall_mem_cons.mpr ⟨hgt, fun x hx => trans_of lt hgt (he x hx)⟩⟩

variable [DecidableEq K]

omit [IsStrictTotalOrder K lt] in
theorem find?_append_of_ne (h : ∀ e ∈ pre, e.1 ≠ k) (es : List (K × V)) :
    (pre ++ es).find? (fun e => e.1 = k) = es.find? fun e => e.1 = k := by
  rw [List.find?_append, List.find?_eq_none.mpr (by simpa using h), Option.none_or]

theorem find?_of_cut (h : m.entries = pre ++ (k, v) :: post) : m.find? k = some v := by
  rw [find?, h, find?_append_of_ne (ne_of_mem_pre (lt_of_mem_pre h))]
  simp

theorem find?_of_gap (h : m.entries = pre ++ post) (hpre : ∀ e ∈ pre, lt e.1 k)
    (hpost : ∀ e ∈ post, lt k e.1) : m.find? k = none := by
  rw [find?, h, find?_append_of_ne (ne_of_mem_pre hpre),
    List.find?_eq_none.mpr (by simpa using ne_of_mem_post hpost), Option.map_none]

theorem find?_eq_some_iff : m.find? k = some v ↔ ∃ pre post, m.entries = pre ++ (k, v) :: post := by
  constructor
  · intro hf
    rcases m.split k with ⟨w, pre, post, h⟩ | ⟨pre, post, h, hpre, hpost⟩
    · rw [find?_of_cut h] at hf; cases hf
      exact ⟨pre, post, h⟩
    · rw [find?_of_gap h hpre hpost] at hf; cases hf
  · rintro ⟨pre, post, h⟩
    exact find?_of_cut h

theorem find?_eq_some_iff_mem : m.find? k = some v ↔ (k, v) ∈ m.entries := by
  rw [find?_eq_some_iff, List.mem_iff_append]

omit [IsStrictTotalOrder K lt] in
theorem find?_eq_none_iff : m.find? k = none ↔ ∀ e ∈ m.entries, e.1 ≠ k := by
  rw [find?, Option.map_eq_none_iff, List.find?_eq_none]
  simp

theorem entries_erase_of_cut (h : m.entries = pre ++ (k, v) :: post) :
    (m.erase k).entries = pre ++ post := by
  have hpre := ne_of_mem_pre (lt_of_mem_pre h)
  have hpost := ne_of_mem_post (lt_of_mem_post h)
  rw [entries_erase, h, List.filter_append, List.filter_cons_of_neg (by simp),
    List.filter_eq_self.mpr (by simpa using hpre), List.filter_eq_self.mpr (by simpa using hpost)]

variable [DecidableRel lt]

theorem put_append_of_lt (hpre : ∀ e ∈ pre, lt e.1 k) (v : V) (es : List (K × V)) :
    put lt k v (pre ++ es) = pre ++ put lt k v es := by
  induction pre with
  | nil => rfl
  | cons e pre ih =>
    have he := hpre e (List.mem_cons_self ..)
    have hne : e.1 ≠ k := fun h => irrefl_of lt k (h ▸ he)
    rw [List.cons_append, put, if_neg (fun h => irrefl_of lt k (trans_of lt h he)), if_neg hne,
      ih fun x hx => hpre x (List.mem_cons_of_mem _ hx), List.cons_append]

theorem entries_insert_of_cut {w : V} (h : m.entries = pre ++ (k, w) :: post) (v : V) :
    (m.insert k v).entries = pre ++ (k, v) :: post := by
  rw [entries_insert, h, put_append_of_lt (lt_of_mem_pre h), put, if_neg (irrefl_of lt k), if_pos rfl]

theorem entries_insert_of_gap (h : m.entries = pre ++ post) (hpre : ∀ e ∈ pre, lt e.1 k)
    (hpost : ∀ e ∈ post, lt k e.1) (v : V) : (m.insert k v).entries = pre ++ (k, v) :: post := by
  rw [entries_insert, h, put_append_of_lt hpre]
  cases post with
  | nil => rfl
  | cons e post => rw [put, if_pos (hpost e (List.mem_cons_self ..))]

end Cut

/-! ### Lookup after an update -/

section Lookup
variable [DecidableEq K] (m : SortedMap lt V) (k : K)

@[simp] theorem find?_erase_self : (m.erase k).find? k = none := by
  rw [find?_eq_none_iff]
  intro e he
  simpa using (List.mem_filter.mp he).2

theorem find?_erase_of_ne {j : K} (h : j ≠ k) : (m.erase k).find? j = m.find? j := by
  rw [find?, find?, entries_erase, List.find?_filter]
  congr 1
  refine List.find?_congr fun e _ => ?_
  by_cases he : e.1 = j
  · simp [he, h]
  · simp [he]

variable [IsStrictTotalOrder K lt]

variable [DecidableRel lt]

@[simp] theorem find?_insert_self (v : V) : (m.insert k v).find? k = some v := by
  rcases m.split k with ⟨w, pre, post, h⟩ | ⟨pre, post, h, hpre, hpost⟩
  · exact find?_of_cut (entries_insert_of_cut h v)
  · exact find?_of_cut (entries_insert_of_gap h hpre hpost v)

theorem find?_insert_of_ne {j : K} (h : j ≠ k) (v : V) : (m.insert k v).find? j = m.find? j := by
  have key : ∀ pre post : List (K × V), ((pre ++ (k, v) :: post).find? fun e => e.1 = j)
      = (pre ++ post).find? fun e => e.1 = j := by
    intro pre post
    rw [List.find?_append, List.find?_append, List.find?_cons_of_neg (by simpa using h.symm)]
  rcases m.split k with ⟨w, pre, post, hm⟩ | ⟨pre, post, hm, hpre, hpost⟩
  · rw [find?, entries_insert_of_cut hm v, key, find?, hm, List.find?_append, List.find?_append,
      List.find?_cons_of_neg (by simpa using h.symm)]
  · rw [find?, entries_insert_of_gap hm hpre hpost v, key, find?, hm]

end Lookup

/-! ### The entries of a dictionary as a bag -/

section Bag
variable [DecidableEq K] [IsStrictTotalOrder K lt] {m : SortedMap lt V} {k : K} {v : V}
  {L : List (K × V)}

omit [DecidableEq K] in
theorem keys_nodup (m : SortedMap lt V) : (m.entries.map (·.1)).Nodup := by
  rw [List.Nodup, List.pairwise_map]
  exact m.sorted.imp fun h => ne_of_irrefl (r := lt) h

theorem find?_iff_of_perm (h : m.entries.Perm L) : m.find? k = some v ↔ (k, v) ∈ L := by
  rw [find?_eq_some_iff_mem, h.mem_iff]

theorem perm_erase (h : m.entries.Perm ((k, v) :: L)) : (m.erase k).entries.Perm L := by
  obtain ⟨pre, post, hm⟩ := find?_eq_some_iff.mp ((find?_iff_of_perm h).mpr (List.mem_cons_self ..))
  rw [entries_erase_of_cut hm]
  rw [hm] at h
  exact (List.perm_middle.symm.trans h).cons_inv

theorem perm_insert [DecidableRel lt] (h : m.entries.Perm L) (hk : m.find? k = none) (v : V) :
    (m.insert k v).entries.Perm ((k, v) :: L) := by
  rcases m.split k with ⟨w, pre, post, hm⟩ | ⟨pre, post, hm, hpre, hpost⟩
  · rw [find?_of_cut hm] at hk; cases hk
  · rw [entries_insert_of_gap hm hpre hpost]
    exact List.perm_middle.trans ((hm ▸ h).cons _)

end Bag

end SortedMap

end Schemes
