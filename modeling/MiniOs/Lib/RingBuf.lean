import Mathlib.Data.Nat.ModEq
import Mathlib.Logic.Function.Basic
import Mathlib.Data.List.Basic

/-!
# Ring buffers with free-running counters

The two ends of the queue are counted by machine words that are never reset: they run modulo
`W`, and a cell is found by taking a counter modulo the number `cap` of cells. This works
because `cap` divides `W`.

## Main definitions

- `RingBuf` — the cells and the two counters
- `RingBuf.contents` — the queue that they stand for

## Main results

- `contents_push`, `contents_pop` — the operations on the queue
- `eq_iff_contents_nil`, `full_iff` — what the comparisons of the counters say
-/

namespace MiniOs

/-- The cells, and the counters of the elements taken out and put in. -/
structure RingBuf (α : Type*) where
  data : ℕ → α
  r : ℕ
  w : ℕ

namespace RingBuf

variable {α : Type*} {cap W : ℕ} {q : RingBuf α} {x : α}

def count (W : ℕ) (q : RingBuf α) : ℕ := (q.w + (W - q.r)) % W

/-- The elements, oldest first. -/
def contents (cap W : ℕ) (q : RingBuf α) : List α :=
  (List.range (q.count W)).map fun j => q.data ((q.r + j) % cap)

/-- Write behind the last element. -/
def push (cap W : ℕ) (q : RingBuf α) (x : α) : RingBuf α :=
  { q with data := Function.update q.data (q.w % cap) x, w := (q.w + 1) % W }

/-- Go past the first element. -/
def pop (W : ℕ) (q : RingBuf α) : RingBuf α := { q with r := (q.r + 1) % W }

/-- The counters are machine words and no further apart than the number of cells. -/
structure Ok (cap W : ℕ) (q : RingBuf α) : Prop where
  r_lt : q.r < W
  w_lt : q.w < W
  count_le : q.count W ≤ cap

theorem length_contents : (q.contents cap W).length = q.count W := by
  simp [contents]

theorem Ok.w_eq (h : Ok cap W q) : q.w = (q.r + q.count W) % W := by
  obtain ⟨hr, hw, -⟩ := h
  rw [count]
  by_cases hle : q.r ≤ q.w
  · have hcount : (q.w + (W - q.r)) % W = q.w - q.r := by
      rw [show q.w + (W - q.r) = q.w - q.r + W by omega, Nat.add_mod_right,
        Nat.mod_eq_of_lt (by omega)]
    rw [hcount, show q.r + (q.w - q.r) = q.w by omega, Nat.mod_eq_of_lt hw]
  · rw [Nat.mod_eq_of_lt (show q.w + (W - q.r) < W by omega),
      show q.r + (q.w + (W - q.r)) = q.w + W by omega, Nat.add_mod_right, Nat.mod_eq_of_lt hw]

theorem count_eq {n : ℕ} (hr : q.r < W) (hn : n < W) (hw : q.w = (q.r + n) % W) :
    q.count W = n := by
  rw [count, hw]
  by_cases hlt : q.r + n < W
  · rw [Nat.mod_eq_of_lt hlt, show q.r + n + (W - q.r) = n + W by omega, Nat.add_mod_right,
      Nat.mod_eq_of_lt hn]
  · have hwrap : (q.r + n) % W = q.r + n - W := by
      rw [Nat.mod_eq_sub_mod (by omega), Nat.mod_eq_of_lt (by omega)]
    rw [hwrap, show q.r + n - W + (W - q.r) = n by omega, Nat.mod_eq_of_lt hn]

/-- The counters are equal exactly if the queue is empty. -/
theorem eq_iff_contents_nil (h : Ok cap W q) : q.r = q.w ↔ q.contents cap W = [] := by
  rw [← List.length_eq_zero_iff, length_contents]
  constructor
  · intro heq
    refine count_eq h.r_lt (by have := h.r_lt; omega) ?_
    rw [← heq, Nat.add_zero, Nat.mod_eq_of_lt h.r_lt]
  · intro hzero
    have hw := h.w_eq
    rw [hzero, Nat.add_zero, Nat.mod_eq_of_lt h.r_lt] at hw
    exact hw.symm

/-- The second counter is `cap` ahead exactly if the queue is full. -/
theorem full_iff (h : Ok cap W q) (hcap : cap < W) :
    q.w = (q.r + cap) % W ↔ (q.contents cap W).length = cap := by
  rw [length_contents]
  constructor
  · exact count_eq h.r_lt hcap
  · intro hfull
    rw [h.w_eq, hfull]

theorem count_push (hcap : cap < W) (h : Ok cap W q) (hroom : q.count W < cap) :
    (q.push cap W x).count W = q.count W + 1 := by
  refine count_eq h.r_lt (by omega) ?_
  change (q.w + 1) % W = (q.r + (q.count W + 1)) % W
  rw [h.w_eq, Nat.mod_add_mod, Nat.add_assoc]

theorem Ok.push (hcap : cap < W) (h : Ok cap W q) (hroom : q.count W < cap) :
    Ok cap W (q.push cap W x) where
  r_lt := h.r_lt
  w_lt := Nat.mod_lt _ (by omega)
  count_le := by
    rw [count_push hcap h hroom]
    omega

theorem contents_push (hdvd : cap ∣ W) (hcap : cap < W) (h : Ok cap W q) (hroom : q.count W < cap) :
    (q.push cap W x).contents cap W = q.contents cap W ++ [x] := by
  have hcell : q.w % cap = (q.r + q.count W) % cap := by
    rw [h.w_eq, Nat.mod_mod_of_dvd _ hdvd]
  rw [contents, count_push hcap h hroom, List.range_succ, List.map_append, contents]
  congr 1
  · apply List.map_congr_left
    intro j hj
    rw [List.mem_range] at hj
    refine Function.update_of_ne ?_ _ _
    -- fewer than `cap` elements lie between the two cells
    intro heq
    rw [hcell] at heq
    have hmod : j % cap = q.count W % cap := Nat.ModEq.add_left_cancel' q.r heq
    rw [Nat.mod_eq_of_lt (by omega), Nat.mod_eq_of_lt (by omega)] at hmod
    omega
  · have hlast : (q.push cap W x).data ((q.r + q.count W) % cap) = x := by
      rw [← hcell]
      exact Function.update_self ..
    exact congrArg (fun y => [y]) hlast

theorem count_pop (hcap : cap < W) (h : Ok cap W q) (hne : q.r ≠ q.w) :
    (q.pop W).count W + 1 = q.count W := by
  have hpos : 0 < q.count W := by
    rw [Nat.pos_iff_ne_zero]
    intro hzero
    have hw := h.w_eq
    rw [hzero, Nat.add_zero, Nat.mod_eq_of_lt h.r_lt] at hw
    exact hne hw.symm
  have hle := h.count_le
  have hcount : (q.pop W).count W = q.count W - 1 := by
    refine count_eq (Nat.mod_lt _ (by omega)) (by omega) ?_
    change q.w = ((q.r + 1) % W + (q.count W - 1)) % W
    rw [Nat.mod_add_mod, show q.r + 1 + (q.count W - 1) = q.r + q.count W by omega]
    exact h.w_eq
  omega

theorem Ok.pop (hcap : cap < W) (h : Ok cap W q) (hne : q.r ≠ q.w) : Ok cap W (q.pop W) where
  r_lt := Nat.mod_lt _ (by omega)
  w_lt := h.w_lt
  count_le := by
    have hcount := count_pop hcap h hne
    have hle := h.count_le
    omega

theorem contents_pop (hdvd : cap ∣ W) (hcap : cap < W) (h : Ok cap W q) (hne : q.r ≠ q.w) :
    q.contents cap W = q.data (q.r % cap) :: (q.pop W).contents cap W := by
  rw [contents, ← count_pop hcap h hne, List.range_succ_eq_map, List.map_cons, contents,
    List.map_map, Nat.add_zero]
  congr 1
  apply List.map_congr_left
  intro j _
  change q.data ((q.r + (j + 1)) % cap) = q.data (((q.r + 1) % W + j) % cap)
  congr 1
  rw [Nat.add_mod ((q.r + 1) % W) j cap, Nat.mod_mod_of_dvd _ hdvd, ← Nat.add_mod, Nat.add_assoc,
    Nat.add_comm 1 j]

end RingBuf

end MiniOs
