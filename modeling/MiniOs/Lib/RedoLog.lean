import Mathlib.Data.List.Basic
import Mathlib.Logic.Function.Basic

/-!
# Redo logs

A redo log is a list of addresses with the values that belong there. Replaying it writes the
values in order. Writes that the log is going to make anyway do not change the result, so a
replay can be interrupted at any point and started again.

## Main definitions

- `replay` — write the entries of a log

## Main results

- `replay_update_of_mem` — a write to an address of the log is lost
- `replay_eq` — a log whose entries all come from one memory
-/

namespace MiniOs.RedoLog

variable {α β : Type*} [DecidableEq α]

/-- Write the entries of a log into a memory. -/
def replay : List (α × β) → (α → β) → α → β
  | [], h => h
  | (a, v) :: ws, h => replay ws (Function.update h a v)

theorem replay_cons (a : α) (v : β) (ws : List (α × β)) (h : α → β) :
    replay ((a, v) :: ws) h = replay ws (Function.update h a v) := rfl

theorem replay_update_of_mem {a : α} {ws : List (α × β)} (ha : a ∈ ws.map Prod.fst) (h : α → β)
    (v : β) : replay ws (Function.update h a v) = replay ws h := by
  induction ws generalizing h with
  | nil => cases ha
  | cons w ws ih =>
    obtain ⟨b, u⟩ := w
    rw [replay_cons, replay_cons]
    by_cases hab : a = b
    · rw [hab, Function.update_idem]
    · rw [Function.update_comm hab]
      exact ih ((List.mem_cons.mp ha).resolve_left hab) _

/-- All entries agree with one memory, and so does what the log does not write. -/
theorem replay_eq {ws : List (α × β)} {h f : α → β} (hws : ∀ w ∈ ws, w.2 = f w.1)
    (hh : ∀ a, a ∉ ws.map Prod.fst → h a = f a) : replay ws h = f := by
  induction ws generalizing h with
  | nil =>
    ext a
    exact hh a nofun
  | cons w ws ih =>
    obtain ⟨b, u⟩ := w
    rw [replay_cons]
    refine ih (fun w hw => hws w (List.mem_cons_of_mem _ hw)) fun a ha => ?_
    by_cases hab : a = b
    · rw [hab, Function.update_self]
      exact hws (b, u) List.mem_cons_self
    · rw [Function.update_of_ne hab]
      refine hh a fun hmem => ?_
      exact (List.mem_cons.mp hmem).elim hab ha

end MiniOs.RedoLog
