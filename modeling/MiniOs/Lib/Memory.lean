import Mathlib.Data.List.Infix

/-!
# Writes into a block of memory

A block is the list of its cells. A write outside the block has no result, so a program
whose run has a result has stayed inside its blocks.

A text that is being built up in a block is a front part of it, and the next write goes
to the cell behind the text.

## Main definitions

- `put`, `putAll` — a write of one cell, and of several in a row

## Main results

- `put_next`, `putAll_next` — writing behind the text
-/

namespace MiniOs.Memory

variable {α : Type*} {text mem l : List α}

def put (mem : List α) (i : ℕ) (a : α) : Option (List α) :=
  if i < mem.length then some (mem.set i a) else none

def putAll (mem : List α) (i : ℕ) : List α → Option (List α)
  | [] => some mem
  | a :: l => do
    let mem ← put mem i a
    putAll mem (i + 1) l

/-- **Writing the next cell.** -/
theorem put_next (h : text <+: mem) (hroom : text.length < mem.length) (a : α) :
    ∃ mem', put mem text.length a = some mem' ∧ text ++ [a] <+: mem' ∧
      mem'.length = mem.length := by
  obtain ⟨rest, rfl⟩ := h
  cases rest with
  | nil =>
    rw [List.append_nil] at hroom
    exact absurd hroom (Nat.lt_irrefl _)
  | cons x rest =>
    refine ⟨text ++ a :: rest, ?_, ⟨rest, by simp⟩, by simp⟩
    rw [put, if_pos hroom, List.set_append_right _ _ (Nat.le_refl _), Nat.sub_self,
      List.set_cons_zero]

/-- **Writing the next cells.** -/
theorem putAll_next (h : text <+: mem) (hroom : text.length + l.length ≤ mem.length) :
    ∃ mem', putAll mem text.length l = some mem' ∧ text ++ l <+: mem' ∧
      mem'.length = mem.length := by
  induction l generalizing text mem with
  | nil => exact ⟨mem, rfl, by rwa [List.append_nil], rfl⟩
  | cons a l ih =>
    rw [List.length_cons] at hroom
    obtain ⟨m, hput, hm, hlen⟩ := put_next h (by omega) a
    have hnext : (text ++ [a]).length + l.length ≤ m.length := by
      rw [List.length_append, List.length_singleton, hlen]
      omega
    obtain ⟨mem', hall, hmem, hlen'⟩ := ih hm hnext
    rw [List.length_append, List.length_singleton] at hall
    rw [List.append_assoc, List.singleton_append] at hmem
    refine ⟨mem', ?_, hmem, hlen'.trans hlen⟩
    rw [putAll, hput]
    exact hall

end MiniOs.Memory
