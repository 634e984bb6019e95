import Mathlib.Logic.Function.Basic
import Mathlib.Data.List.Nodup
import Mathlib.Data.List.Lattice
import Mathlib.Tactic

/-! Linked queues in an indexed store.

    The store is seen through its link fields only, as functions `next prev : ι → ι` on indices with
    a sentinel `nil`. `Chain` follows one link field; `DQueue` is a doubly linked queue, read forward
    along `next` and backward along `prev`. Appending and unlinking are the usual pointer updates, so
    a program that performs them keeps `DQueue`; everything off the queue is framed by `congr`. -/

namespace Schemes
open Function (update)

variable {ι : Type*}

/-- Following `next` from `a` runs through `xs` and arrives at `z`. -/
def Chain (next : ι → ι) : ι → List ι → ι → Prop
  | a, [], z => a = z
  | a, x :: xs, z => a = x ∧ Chain next (next x) xs z

namespace Chain
variable {next next' : ι → ι} {a z : ι} {xs ys : List ι}

theorem append_iff : ∀ {a : ι} {xs : List ι},
    Chain next a (xs ++ ys) z ↔ ∃ m, Chain next a xs m ∧ Chain next m ys z
  | a, [] => by simp [Chain]
  | a, x :: xs => by
    rw [List.cons_append, Chain, append_iff]
    constructor
    · rintro ⟨rfl, m, h1, h2⟩; exact ⟨m, ⟨rfl, h1⟩, h2⟩
    · rintro ⟨m, ⟨rfl, h1⟩, h2⟩; exact ⟨rfl, m, h1, h2⟩

/-- Frame: a chain depends only on the links of its own members. -/
theorem congr : ∀ {a : ι} {xs : List ι}, (∀ x ∈ xs, next' x = next x) →
    Chain next a xs z → Chain next' a xs z
  | _, [], _, h => h
  | _, x :: xs, hx, ⟨ha, h⟩ =>
    ⟨ha, by
      rw [hx x (List.mem_cons_self ..)]
      exact congr (fun y hy => hx y (List.mem_cons_of_mem _ hy)) h⟩

theorem update_of_notMem [DecidableEq ι] {i v : ι} (hi : i ∉ xs) (h : Chain next a xs z) :
    Chain (update next i v) a xs z :=
  h.congr fun x hx => Function.update_of_ne (show x ≠ i from fun he => hi (he ▸ hx)) ..

theorem start (h : Chain next a xs z) : a = xs.head?.getD z := by
  cases xs with
  | nil => exact h
  | cons x xs => exact h.1

/-- Cutting `i` out of a chain: its predecessor, or the entry point, is redirected past it. -/
theorem bypass [DecidableEq ι] {nil i : ι} {pre post : List ι}
    (h : Chain next a (pre ++ i :: post) z) (hnd : (pre ++ i :: post).Nodup)
    (hnil : nil ∉ pre ++ i :: post) :
    Chain (if pre.getLast?.getD nil = nil then next
        else update next (pre.getLast?.getD nil) (next i))
      (if pre.getLast?.getD nil = nil then next i else a) (pre ++ post) z := by
  rcases List.eq_nil_or_concat pre with rfl | ⟨ys, q, rfl⟩
  · simpa using h.2
  · rw [List.concat_eq_append] at *
    have hq : q ≠ nil := fun he => hnil (by simp [he])
    have hqys : q ∉ ys := by simp [List.nodup_append] at hnd; grind
    have hqpost : q ∉ post := by simp [List.nodup_append] at hnd; grind
    obtain ⟨m, hys, rfl, hi, hpost⟩ : ∃ m, Chain next a ys m ∧ m = q ∧ next q = i ∧
        Chain next (next i) post z := by
      simpa [append_iff, Chain] using h
    simp only [List.getLast?_append, List.getLast?_singleton, Option.some_or, Option.getD_some,
      if_neg hq, List.append_assoc, List.singleton_append]
    refine append_iff.mpr ⟨m, hys.update_of_notMem hqys, rfl, ?_⟩
    rw [Function.update_self]
    exact hpost.update_of_notMem hqpost

end Chain

/-- Read a chain off the store, at most `n` links far. -/
def walk [DecidableEq ι] (nil : ι) (next : ι → ι) : ℕ → ι → List ι
  | 0, _ => []
  | n + 1, a => if a = nil then [] else a :: walk nil next n (next a)

theorem walk_of_chain [DecidableEq ι] {nil : ι} {next : ι → ι} :
    ∀ {n : ℕ} {a : ι} {xs : List ι}, Chain next a xs nil → nil ∉ xs → xs.length ≤ n →
      walk nil next n a = xs
  | 0, _, [], _, _, _ => rfl
  | n + 1, a, [], h, _, _ => by
    have ha : a = nil := h
    rw [walk, if_pos ha]
  | n + 1, a, x :: xs, ⟨ha, h⟩, hnil, hn => by
    subst ha
    rw [walk, if_neg fun he => hnil (by simp [he]),
      walk_of_chain h (fun hx => hnil (List.mem_cons_of_mem _ hx)) (by simpa using hn)]

/-- A doubly linked queue: `xs` from `head` along `next`, and back from `tail` along `prev`. -/
structure DQueue (nil : ι) (next prev : ι → ι) (head tail : ι) (xs : List ι) : Prop where
  fwd : Chain next head xs nil
  bwd : Chain prev tail xs.reverse nil
  nodup : xs.Nodup
  proper : nil ∉ xs

namespace DQueue
variable {nil : ι} {next prev next' prev' : ι → ι} {head tail i : ι} {xs pre post : List ι}

theorem empty : DQueue nil next prev nil nil [] := ⟨rfl, rfl, .nil, List.not_mem_nil⟩

theorem symm (h : DQueue nil next prev head tail xs) :
    DQueue nil prev next tail head xs.reverse :=
  ⟨h.bwd, by rw [List.reverse_reverse]; exact h.fwd, List.nodup_reverse.mpr h.nodup,
    by simpa using h.proper⟩

/-- Frame: a queue depends only on the links of its own members. -/
theorem congr (hn : ∀ x ∈ xs, next' x = next x) (hp : ∀ x ∈ xs, prev' x = prev x)
    (h : DQueue nil next prev head tail xs) : DQueue nil next' prev' head tail xs :=
  ⟨h.fwd.congr hn, h.bwd.congr fun x hx => hp x (by simpa using hx), h.nodup, h.proper⟩

theorem head_eq (h : DQueue nil next prev head tail xs) : head = xs.head?.getD nil := h.fwd.start

theorem head_eq_nil_iff (h : DQueue nil next prev head tail xs) : head = nil ↔ xs = [] := by
  rw [h.head_eq]
  cases xs with
  | nil => simp
  | cons x xs => simpa using fun hx : x = nil => h.proper (by simp [hx])

theorem tail_eq_nil_iff (h : DQueue nil next prev head tail xs) : tail = nil ↔ xs = [] := by
  rw [h.symm.head_eq_nil_iff, List.reverse_eq_nil_iff]

theorem prev_eq (h : DQueue nil next prev head tail (pre ++ i :: post)) :
    prev i = pre.getLast?.getD nil := by
  obtain ⟨m, _, rfl, hp⟩ : ∃ m, Chain prev tail post.reverse m ∧ m = i ∧
      Chain prev (prev i) pre.reverse nil := by
    simpa [Chain.append_iff, Chain] using h.bwd
  rw [hp.start, List.head?_reverse]

theorem next_eq (h : DQueue nil next prev head tail (pre ++ i :: post)) :
    next i = post.head?.getD nil := by
  obtain ⟨m, _, rfl, hp⟩ : ∃ m, Chain next head pre m ∧ m = i ∧
      Chain next (next i) post nil := by
    simpa [Chain.append_iff, Chain] using h.fwd
  rw [hp.start]

variable [DecidableEq ι]

/-- Unlinking a member: its neighbours are linked to each other, the ends move past it. -/
theorem unlink (h : DQueue nil next prev head tail (pre ++ i :: post)) :
    DQueue nil (if prev i = nil then next else update next (prev i) (next i))
      (if next i = nil then prev else update prev (next i) (prev i))
      (if prev i = nil then next i else head) (if next i = nil then prev i else tail)
      (pre ++ post) := by
  have hrev : (pre ++ i :: post).reverse = post.reverse ++ i :: pre.reverse := by simp
  refine ⟨?_, ?_, h.nodup.sublist (by simp), fun hm => h.proper (by simp at hm ⊢; tauto)⟩
  · have := h.fwd.bypass h.nodup h.proper
    rwa [← h.prev_eq] at this
  · have := (hrev ▸ h.bwd).bypass (hrev ▸ h.symm.nodup) (hrev ▸ h.symm.proper)
    rwa [List.getLast?_reverse, ← h.next_eq, ← List.reverse_append] at this

/-- Appending a detached index behind the tail. -/
theorem pushBack (h : DQueue nil next prev head tail xs) (hi : i ∉ xs) (hne : i ≠ nil) :
    DQueue nil (if tail = nil then update next i nil else update (update next i nil) tail i)
      (update prev i tail) (if tail = nil then i else head) i (xs ++ [i]) := by
  have hnd : (xs ++ [i]).Nodup := by
    simpa [List.nodup_append, h.nodup] using fun x hx (he : x = i) => hi (he ▸ hx)
  refine ⟨?_, ?_, hnd, by simpa [hne.symm] using h.proper⟩
  · rcases List.eq_nil_or_concat xs with rfl | ⟨ys, t, rfl⟩
    · rw [if_pos (h.tail_eq_nil_iff.mpr rfl), if_pos (h.tail_eq_nil_iff.mpr rfl)]
      exact ⟨rfl, Function.update_self ..⟩
    · rw [List.concat_eq_append] at *
      have ht : tail = t := by simpa using h.symm.head_eq
      subst ht
      have hti : tail ≠ i := fun he => hi (by simp [he])
      have hys : tail ∉ ys := by have := h.nodup; simp [List.nodup_append] at this; grind
      have hiys : i ∉ ys := fun hm => hi (by simp [hm])
      rw [if_neg fun he => h.proper (by simp [he]), if_neg fun he => h.proper (by simp [he])]
      obtain ⟨m, hm, rfl, _⟩ : ∃ m, Chain next head ys m ∧ m = tail ∧ next tail = nil := by
        simpa [Chain.append_iff, Chain] using h.fwd
      rw [List.append_assoc, List.singleton_append]
      refine Chain.append_iff.mpr ⟨m, (hm.update_of_notMem hiys).update_of_notMem hys, rfl, ?_⟩
      rw [Function.update_self]
      exact ⟨rfl, by rw [Function.update_of_ne hti.symm, Function.update_self]; rfl⟩
  · rw [List.reverse_append, List.reverse_singleton, List.singleton_append]
    refine ⟨rfl, ?_⟩
    rw [Function.update_self]
    exact h.bwd.update_of_notMem (by simpa using hi)

end DQueue

end Schemes
