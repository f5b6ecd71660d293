import Mathlib.Data.List.Chain
import Mathlib.Data.List.Nodup
import Mathlib.Logic.Function.Basic

/-!
# Circular doubly linked lists

The nodes of a list are linked in a circle, with a sentinel between the last and the first one.
`none` stands for the sentinel. The links of nodes that are not in the list do not matter.

## Main definitions

- `Links` — the pointers of all nodes
- `Holds` — the pointers form a list
- `unlink`, `pushFront` — the two operations, one store after the other
- `walk` — a loop along the pointers

## Main results

- `Holds.unlink`, `Holds.pushFront` — what the operations do to the list
- `Holds.walk_next`, `Holds.walk_prev` — a loop finds the first node of its kind, from either end
-/

namespace MiniOs.DList

/-- The pointers of all nodes and of the sentinel. -/
structure Links (α : Type*) where
  next : Option α → Option α
  prev : Option α → Option α

variable {α : Type*} {L : Links α} {l : List α} {b : α}

/-- `y` comes right behind `x`. -/
def Linked (L : Links α) (x y : Option α) : Prop := L.next x = y ∧ L.prev y = x

/-- The pointers form the list `l`. -/
structure Holds (L : Links α) (l : List α) : Prop where
  nodup : l.Nodup
  chain : (none :: (l.map some ++ [none])).IsChain (Linked L)

def empty : Links α := ⟨fun _ => none, fun _ => none⟩

theorem holds_empty : Holds (empty : Links α) [] :=
  ⟨.nil, List.isChain_pair.mpr ⟨rfl, rfl⟩⟩

theorem some_notMem_of_nodup {l₁ l₂ : List α} (h : (l₁ ++ b :: l₂).Nodup) :
    some b ∉ none :: l₁.map some ∧ some b ∉ l₂.map some ++ [none] := by
  have hnot := List.nodup_middle.mp h
  rw [List.nodup_cons, List.mem_append, not_or] at hnot
  constructor
  · simpa using hnot.1.1
  · simpa using hnot.1.2

section Stores

variable [DecidableEq α]

/-- Take a node out of the list. -/
def unlink (L : Links α) (b : α) : Links α :=
  let L₁ := { L with prev := Function.update L.prev (L.next (some b)) (L.prev (some b)) }
  { L₁ with next := Function.update L₁.next (L₁.prev (some b)) (L₁.next (some b)) }

/-- Put a node in front of the list. -/
def pushFront (L : Links α) (b : α) : Links α :=
  let L₁ := { L with next := Function.update L.next (some b) (L.next none) }
  let L₂ := { L₁ with prev := Function.update L₁.prev (some b) none }
  let L₃ := { L₂ with prev := Function.update L₂.prev (L₂.next none) (some b) }
  { L₃ with next := Function.update L₃.next none (some b) }

/-- Between two neighbours `p` and `n` of the node, the stores do not get into each other's way. -/
theorem unlink_eq {p n : Option α} (hp : Linked L p (some b)) (hn : Linked L (some b) n)
    (hne : n ≠ some b) :
    unlink L b = ⟨Function.update L.next p n, Function.update L.prev n p⟩ := by
  simp only [unlink, hn.1, hp.2, Function.update_of_ne hne.symm]

theorem Linked.unlink {p n x y : Option α} (hp : Linked L p (some b)) (hn : Linked L (some b) n)
    (hne : n ≠ some b) (hx : x ≠ some b) (hy : y ≠ some b) (h : Linked L x y) :
    Linked (unlink L b) x y := by
  rw [unlink_eq hp hn hne]
  have hxp : x ≠ p := by
    rintro rfl
    exact hy (h.1.symm.trans hp.1)
  have hyn : y ≠ n := by
    rintro rfl
    exact hx (h.2.symm.trans hn.2)
  exact ⟨(Function.update_of_ne hxp ..).trans h.1, (Function.update_of_ne hyn ..).trans h.2⟩

/-- **Taking out** a node. -/
theorem Holds.unlink (h : Holds L l) (hb : b ∈ l) : Holds (unlink L b) (l.erase b) := by
  obtain ⟨l₁, l₂, rfl⟩ := List.append_of_mem hb
  obtain ⟨hA, hB⟩ := some_notMem_of_nodup h.nodup
  have herase : (l₁ ++ b :: l₂).erase b = l₁ ++ l₂ := by
    have hb₁ : b ∉ l₁ := fun hmem => hA (List.mem_cons_of_mem _ (List.mem_map_of_mem hmem))
    rw [List.erase_append_right _ hb₁, List.erase_cons_head]
  have hsplit : (none :: ((l₁ ++ b :: l₂).map some ++ [none])) =
      (none :: l₁.map some) ++ some b :: (l₂.map some ++ [none]) := by simp
  have hchain := h.chain
  rw [hsplit] at hchain
  obtain ⟨hleft, hmiddle, hpb⟩ := List.isChain_append.mp hchain
  obtain ⟨hbn, hright⟩ := List.isChain_cons.mp hmiddle
  -- the neighbours of the node
  obtain ⟨p, hp⟩ : ∃ p, p ∈ (none :: l₁.map some).getLast? :=
    ⟨_, List.getLast?_eq_getLast_of_ne_nil (List.cons_ne_nil _ _)⟩
  obtain ⟨n, hn⟩ : ∃ n, n ∈ (l₂.map some ++ [none]).head? :=
    ⟨_, List.head?_eq_some_head (by simp)⟩
  have hlp : Linked L p (some b) := hpb p hp (some b) rfl
  have hln : Linked L (some b) n := hbn n hn
  have hnb : n ≠ some b := fun heq => hB (heq ▸ List.mem_of_mem_head? hn)
  have hstay : ∀ x y, x ≠ some b → y ≠ some b → Linked L x y → Linked (DList.unlink L b) x y :=
    fun x y => Linked.unlink hlp hln hnb
  refine ⟨h.nodup.erase b, ?_⟩
  have hjoin : (none :: ((l₁ ++ l₂).map some ++ [none])) =
      (none :: l₁.map some) ++ (l₂.map some ++ [none]) := by simp
  rw [herase, hjoin]
  refine List.IsChain.append ?_ ?_ fun x hx y hy => ?_
  · exact hleft.imp_of_mem_imp fun x y hx hy =>
      hstay x y (fun heq => hA (heq ▸ hx)) fun heq => hA (heq ▸ hy)
  · exact hright.imp_of_mem_imp fun x y hx hy =>
      hstay x y (fun heq => hB (heq ▸ hx)) fun heq => hB (heq ▸ hy)
  · cases Option.mem_unique hx hp
    cases Option.mem_unique hy hn
    rw [unlink_eq hlp hln hnb]
    exact ⟨Function.update_self .., Function.update_self ..⟩

/-- **Putting** a node in front. -/
theorem Holds.pushFront (h : Holds L l) (hb : b ∉ l) : Holds (pushFront L b) (b :: l) := by
  have hchain := h.chain
  rw [List.isChain_cons] at hchain
  obtain ⟨hfirst, hrest⟩ := hchain
  obtain ⟨n, hn⟩ : ∃ n, n ∈ (l.map some ++ [none]).head? := ⟨_, List.head?_eq_some_head (by simp)⟩
  have hln : Linked L none n := hfirst n hn
  have hB : some b ∉ l.map some ++ [none] := by simpa using hb
  have hnb : n ≠ some b := fun heq => hB (heq ▸ List.mem_of_mem_head? hn)
  have hL : DList.pushFront L b =
      ⟨Function.update (Function.update L.next (some b) n) none (some b),
        Function.update (Function.update L.prev (some b) none) n (some b)⟩ := by
    simp only [DList.pushFront, hln.1, Function.update_of_ne (Option.some_ne_none b).symm]
  have hnodup : (l.map some ++ [none]).Nodup := by
    rw [← List.concat_eq_append]
    exact (h.nodup.map (fun _ _ => Option.some.inj)).concat (by simp)
  refine ⟨List.nodup_cons.mpr ⟨hb, h.nodup⟩, ?_⟩
  rw [List.map_cons, List.cons_append, List.isChain_cons_cons, List.isChain_cons, hL]
  dsimp only [Linked]
  refine ⟨⟨Function.update_self .., ?_⟩, fun y hy => ?_, ?_⟩
  · rw [Function.update_of_ne hnb.symm, Function.update_self]
  · cases Option.mem_unique hy hn
    refine ⟨?_, Function.update_self ..⟩
    rw [Function.update_of_ne (Option.some_ne_none b), Function.update_self]
  · refine hrest.imp_of_mem_tail_imp fun x y hx hy hxy => ?_
    -- the first node of the old list has nobody before it, so `y` is another one
    have hyn : y ≠ n := by
      rintro rfl
      obtain ⟨rest, hrest⟩ := List.head?_eq_some_iff.mp hn
      rw [hrest] at hnodup hy
      exact (List.nodup_cons.mp hnodup).1 hy
    have hx0 : x ≠ none := by
      rintro rfl
      exact hyn (hxy.1.symm.trans hln.1)
    have hxb : x ≠ some b := fun heq => hB (heq ▸ hx)
    have hyb : y ≠ some b := fun heq => hB (heq ▸ List.mem_of_mem_tail hy)
    dsimp only [Linked]
    refine ⟨?_, ?_⟩
    · rw [Function.update_of_ne hx0, Function.update_of_ne hxb]
      exact hxy.1
    · rw [Function.update_of_ne hyn, Function.update_of_ne hyb]
      exact hxy.2

end Stores

/-! ### Loops -/

/-- Follow pointers until the sentinel or a node that satisfies `p`. -/
def walk (step : Option α → Option α) (p : α → Bool) : ℕ → Option α → Option α
  | 0, _ => none
  | _ + 1, none => none
  | fuel + 1, some b => if p b then some b else walk step p fuel (step (some b))

theorem walk_eq_find? {step : Option α → Option α} {p : α → Bool} {x : Option α} {fuel : ℕ}
    (hfuel : l.length < fuel)
    (h : (x :: (l.map some ++ [none])).IsChain fun x y => step x = y) :
    walk step p fuel (step x) = l.find? p := by
  induction l generalizing x fuel with
  | nil =>
    have hx : step x = none := (List.isChain_pair (R := fun x y => step x = y)).mp h
    obtain ⟨fuel, rfl⟩ := Nat.exists_eq_succ_of_ne_zero (Nat.ne_of_gt hfuel)
    rw [hx]
    rfl
  | cons b l ih =>
    rw [List.map_cons, List.cons_append, List.isChain_cons_cons] at h
    obtain ⟨fuel, rfl⟩ := Nat.exists_eq_succ_of_ne_zero (Nat.ne_zero_of_lt hfuel)
    rw [h.1, walk, List.find?_cons]
    cases p b with
    | true => rfl
    | false => exact ih (Nat.lt_of_succ_lt_succ hfuel) h.2

/-- **From the front**: the first node of its kind. -/
theorem Holds.walk_next (h : Holds L l) {fuel : ℕ} (hfuel : l.length < fuel) (p : α → Bool) :
    walk L.next p fuel (L.next none) = l.find? p :=
  walk_eq_find? hfuel (h.chain.imp fun _ _ hxy => hxy.1)

/-- **From the back**: the last node of its kind. -/
theorem Holds.walk_prev (h : Holds L l) {fuel : ℕ} (hfuel : l.length < fuel) (p : α → Bool) :
    walk L.prev p fuel (L.prev none) = l.reverse.find? p := by
  refine walk_eq_find? (by rw [List.length_reverse]; exact hfuel) ?_
  have hrev : (none :: (l.reverse.map some ++ [none])) =
      (none :: (l.map some ++ [none])).reverse := by simp
  rw [hrev, List.isChain_reverse]
  exact h.chain.imp fun _ _ hxy => hxy.2

end MiniOs.DList
