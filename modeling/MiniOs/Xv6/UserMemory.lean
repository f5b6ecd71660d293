import MiniOs.Xv6.Exec

/-!
# The memory of all processes

Processes are created and reaped, they fork, run new programs, change the size of their memory and
use it, in any order, and the kernel copies to and from their memories. The slots of the process
table are arbitrary. One call runs to its end before the next one starts. The pages that the kernel
has taken for good before the first process are not in the free list of the start.

The kernel never panics on the way, every page is always in exactly one place, and what the
processes see is a private array of bytes for each, in which neither the lazy allocation of pages
nor the reuse of freed ones can be seen.
-/

namespace MiniOs.Xv6.Vm

open PagedMemory

/-- The calls. `reap` is what `kwait` does for a process that has exited. -/
inductive Op (τ : Type*) where
  | spawn (t : τ)
  | fork (t c : τ)
  | reap (t : τ)
  | exec (t : τ) (file : Option (List (Option Segment))) (uargv : ℕ)
  | sbrk (t : τ) (n : ℤ) (eager : Bool)
  | store (t : τ) (va : ℕ) (b : UInt8)
  | load (t : τ) (va : ℕ)
  | copyout (t : τ) (dst : ℕ) (src : List UInt8)
  | copyin (t : τ) (src len : ℕ)

/-- What a call returns. -/
inductive Answer where
  | refused
  | flag (ok : Bool)
  | addr (o : Option ℕ)
  | bytes (o : Option (List UInt8))
  | started (o : Option (ℕ × ℕ))

/-- The physical memory, and the processes in the slots of the process table. -/
structure World (τ : Type*) where
  phys : Phys
  space : τ → Option Space

namespace World

variable {τ : Type*} [DecidableEq τ]

/-- A call of process `t`. -/
def onSpace (w : World τ) (t : τ) (f : Phys → Space → Option (Phys × Space × Answer)) :
    Option (World τ × Answer) :=
  match w.space t with
  | none => some (w, .refused)
  | some s => (f w.phys s).map fun x => (⟨x.1, Function.update w.space t (some x.2.1)⟩, x.2.2)

/-- One call. There is no result if the kernel panics. -/
def step (trampoline : ℕ) (w : World τ) : Op τ → Option (World τ × Answer)
  | .spawn t =>
    match w.space t with
    | some _ => some (w, .refused)
    | none => (allocproc trampoline w.phys).map fun x =>
        (⟨x.1, Function.update w.space t x.2⟩, .flag x.2.isSome)
  | .fork t c =>
    match w.space t, w.space c with
    | some s, none => (kfork trampoline w.phys s).map fun x =>
        (⟨x.1, Function.update w.space c x.2⟩, .flag x.2.isSome)
    | _, _ => some (w, .refused)
  | .reap t =>
    match w.space t with
    | none => some (w, .refused)
    | some s => (freeproc w.phys s).map fun m => (⟨m, Function.update w.space t none⟩, .flag true)
  | .exec t file uargv => w.onSpace t fun m s =>
      (sysExec trampoline m s file uargv).map fun x => (x.1, x.2.1, .started x.2.2)
  | .sbrk t n eager => w.onSpace t fun m s =>
      (sysSbrk m s n eager).map fun x => (x.1, x.2.1, .addr x.2.2)
  | .store t va b => w.onSpace t fun m s =>
      (store m s va b).map fun x => (x.1, x.2.1, .flag x.2.2)
  | .load t va => w.onSpace t fun m s =>
      (load m s va).map fun x => (x.1, x.2.1, .bytes (x.2.2.map fun b => [b]))
  | .copyout t dst src => w.onSpace t fun m s =>
      (copyout m s dst src).map fun x => (x.1, x.2.1, .flag x.2.2)
  | .copyin t src len => w.onSpace t fun m s =>
      (copyin m s src len).map fun x => (x.1, x.2.1, .bytes x.2.2)

/-- Calls in a row, and what they return. -/
def run (trampoline : ℕ) (w : World τ) : List (Op τ) → Option (World τ × List Answer)
  | [] => some (w, [])
  | op :: ops => (w.step trampoline op).bind fun x =>
      (run trampoline x.1 ops).map fun y => (y.1, x.2 :: y.2)

end World

/-! ### What the processes should see -/

structure Memory where
  sz : ℕ
  byte : ℕ → UInt8

/-- A new size. The bytes of the last page stay, and the pages that are given up are zero when they
    come back. -/
def Memory.resize (x : Memory) (sz : ℕ) : Memory :=
  ⟨sz, fun a => if a / PGSIZE < roundUp sz then x.byte a else 0⟩

def Memory.write (x : Memory) (a : ℕ) (l : List UInt8) : Memory :=
  { x with byte := patch x.byte a l }

section Abstract

variable {τ : Type*} [DecidableEq τ]

/-- What a call may do to the memories, by what it returns. -/
def Memory.Step (v : τ → Option Memory) (op : Op τ) (a : Answer) (v' : τ → Option Memory) : Prop :=
  match op with
  | .spawn t => v' = v ∧ a ≠ .flag true ∨
      v t = none ∧ a = .flag true ∧ v' = Function.update v t (some ⟨0, fun _ => 0⟩)
  | .fork t c => v' = v ∧ a ≠ .flag true ∨
      v c = none ∧ v t ≠ none ∧ a = .flag true ∧ v' = Function.update v c (v t)
  | .reap t => v' = Function.update v t none
  | .exec t file uargv => v' = v ∧ (∀ y, a ≠ .started (some y)) ∨
      ∃ x z y gs strs, v t = some x ∧ a = .started (some y) ∧ file = some gs ∧
        Argv x.byte uargv strs ∧ Started gs strs z.byte z.sz y.1 y.2 ∧
        v' = Function.update v t (some z)
  | .sbrk t n _ => v' = v ∧ (∀ y, a ≠ .addr (some y)) ∨
      ∃ x, v t = some x ∧ a = .addr (some x.sz) ∧
        v' = Function.update v t (some (x.resize (brk x.sz n)))
  | .store t va b => v' = v ∧ a ≠ .flag true ∨
      ∃ x, v t = some x ∧ a = .flag true ∧ v' = Function.update v t (some (x.write va [b]))
  | .load t va => v' = v ∧ ∀ x l, v t = some x → a = .bytes (some l) → l = [x.byte va]
  | .copyout t dst src => ∃ n ≤ src.length, (a = .flag true → n = src.length) ∧
      v' = Function.update v t ((v t).map fun x => x.write dst (src.take n))
  | .copyin t src len => v' = v ∧
      ∀ x l, v t = some x → a = .bytes (some l) → l = slice x.byte src len

/-- The memories after calls in a row. -/
def Memory.Follows (v : τ → Option Memory) :
    List (Op τ) → List Answer → (τ → Option Memory) → Prop
  | [], l, v' => l = [] ∧ v' = v
  | op :: ops, l, v' => ∃ a l' u, l = a :: l' ∧ Memory.Step v op a u ∧ Memory.Follows u ops l' v'

def Space.memory (s : Space) (m : Phys) : Memory :=
  ⟨s.sz, s.bytes m⟩

/-- What the processes see. -/
def World.view (w : World τ) (t : τ) : Option Memory :=
  (w.space t).map fun s => s.memory w.phys

end Abstract

/-! ### What a call does to the pages -/

/-- How often page `pg` is used in a slot. -/
def use (o : Option Space) (pg : ℕ) : ℕ :=
  o.elim 0 fun s => s.uses pg

theorem use_none (pg : ℕ) : use none pg = 0 := by
  rw [use, Option.elim_none]

-- not by `rfl`, which would compute the sum in `uses`
theorem use_some (s : Space) (pg : ℕ) : use (some s) pg = s.uses pg := by
  rw [use, Option.elim_some]

/-- A slot has changed, and the free pages with it. -/
structure Change (m : Phys) (o : Option Space) (m' : Phys) (o' : Option Space) : Prop where
  kend : m'.kend = m.kend
  count : ∀ pg, m'.free.count pg + use o' pg = m.free.count pg + use o pg
  mem : ∀ pg, m.free.count pg + use o pg = 0 → m'.mem pg = m.mem pg
  fit : ∀ s, o' = some s → Keyed s.table (roundUp s.sz) ∧ s.sz ≤ TRAPFRAME * PGSIZE

section

variable {m m' : Phys} {s s' : Space}

theorem Turned.change (h : Turned m s m' s') : Change m (some s) m' (some s') where
  kend := h.kend
  count pg := by
    have hheld := h.held pg
    rw [Vm.held, Vm.held] at hheld
    rw [use_some, use_some, Space.uses, Space.uses, h.trapframe]
    omega
  mem pg hpg := by
    refine h.mem pg ?_
    rw [use_some, Space.uses] at hpg
    rw [Vm.held]
    omega
  fit s hs := by
    cases hs
    exact ⟨h.keyed, h.size⟩

theorem Born.change (h : Born m m' s) : Change m none m' (some s) where
  kend := h.kend
  count pg := by
    rw [use_some, use_none, h.count, Nat.add_zero]
  mem pg hpg := h.mem pg (List.count_eq_zero.mp (Nat.eq_zero_of_add_eq_zero_right hpg))
  fit s hs := by
    cases hs
    exact ⟨h.keyed, le_of_roundUp h.keyed.bound⟩

theorem Restored.change (h : Restored m m') : Change m none m' none where
  kend := h.kend
  count pg := by rw [h.count]
  mem pg hpg := h.mem pg (List.count_eq_zero.mp (Nat.eq_zero_of_add_eq_zero_right hpg))
  fit s hs := by cases hs

end

/-! ### The invariant -/

section Invariant

variable {τ : Type*} [Fintype τ]

/-- Every page of `pages` is in one place, and the processes are healthy. -/
structure Inv (pages : List ℕ) (w : World τ) : Prop where
  owns : ∀ pg ∈ pages, w.phys.owns pg
  once : pages.Nodup
  count : ∀ pg, w.phys.free.count pg + ∑ t, use (w.space t) pg = pages.count pg
  fit : ∀ t s, w.space t = some s → Keyed s.table (roundUp s.sz) ∧ s.sz ≤ TRAPFRAME * PGSIZE

variable {pages : List ℕ} {w : World τ} {t : τ} {s : Space} {m' : Phys} {o' : Option Space} {pg : ℕ}

namespace Inv

theorem le_one (h : Inv pages w) (pg : ℕ) :
    w.phys.free.count pg + ∑ t, use (w.space t) pg ≤ 1 := by
  rw [h.count]
  exact List.nodup_iff_count_le_one.mp h.once pg

theorem use_le (w : World τ) (t : τ) (pg : ℕ) : use (w.space t) pg ≤ ∑ t, use (w.space t) pg :=
  Finset.single_le_sum (f := fun t => use (w.space t) pg) (fun _ _ => Nat.zero_le _)
    (Finset.mem_univ t)

theorem owns_of_pos (h : Inv pages w) (hpg : w.phys.free.count pg + ∑ t, use (w.space t) pg ≠ 0) :
    w.phys.owns pg := by
  rw [h.count] at hpg
  exact h.owns pg (List.count_pos_iff.mp (Nat.pos_of_ne_zero hpg))

theorem mine (h : Inv pages w) (hs : w.space t = some s) : Mine w.phys s := by
  have huse : ∀ pg, held w.phys s.table pg ≤ w.phys.free.count pg + ∑ t, use (w.space t) pg := by
    intro pg
    have hle := use_le w t pg
    rw [hs, use_some, Space.uses] at hle
    rw [held]
    omega
  refine ⟨fun pg => (huse pg).trans (h.le_one pg), fun pg hpg => h.owns_of_pos ?_, (h.fit t s hs).1,
    (h.fit t s hs).2⟩
  have hle := huse pg
  omega

theorem pool (h : Inv pages w) : Pool w.phys where
  once pg := (Nat.le_add_right ..).trans (h.le_one pg)
  owns pg hpg := h.owns_of_pos (by
    have hpos : 0 < w.phys.free.count pg := List.count_pos_iff.mpr hpg
    omega)

end Inv

variable [DecidableEq τ]

theorem sum_use_update (space : τ → Option Space) (t : τ) (o : Option Space) (pg : ℕ) :
    ∑ u, use (Function.update space t o u) pg + use (space t) pg =
      ∑ u, use (space u) pg + use o pg := by
  have hmem : t ∈ (Finset.univ : Finset τ) := Finset.mem_univ t
  have hrest : ∑ u ∈ Finset.univ.erase t, use (Function.update space t o u) pg =
      ∑ u ∈ Finset.univ.erase t, use (space u) pg := by
    refine Finset.sum_congr rfl fun u hu => ?_
    rw [Function.update_of_ne (Finset.ne_of_mem_erase hu)]
  rw [← Finset.add_sum_erase _ _ hmem, ← Finset.add_sum_erase _ (fun u => use (space u) pg) hmem,
    hrest,
    Function.update_self]
  omega

/-- **A change of one slot** keeps the invariant, and the other slots do not see it. -/
theorem Inv.change (h : Inv pages w) (hchange : Change w.phys (w.space t) m' o') :
    Inv pages ⟨m', Function.update w.space t o'⟩ ∧
      World.view ⟨m', Function.update w.space t o'⟩ =
        Function.update w.view t (o'.map fun s => s.memory m') := by
  refine ⟨⟨fun pg hpg => ?_, h.once, fun pg => ?_, fun u s hs => ?_⟩, ?_⟩
  · rw [Phys.owns, hchange.kend]
    exact h.owns pg hpg
  · have hsum := sum_use_update w.space t o' pg
    have hcount := hchange.count pg
    rw [← h.count pg]
    dsimp only
    omega
  · dsimp only at hs
    by_cases hu : u = t
    · rw [hu, Function.update_self] at hs
      exact hchange.fit s hs
    · rw [Function.update_of_ne hu] at hs
      exact h.fit u s hs
  · funext u
    rw [World.view]
    dsimp only
    by_cases hu : u = t
    · rw [hu, Function.update_self, Function.update_self]
    · rw [Function.update_of_ne hu, Function.update_of_ne hu, World.view]
      cases hs : w.space u with
      | none => rfl
      | some s =>
        rw [Option.map_some, Option.map_some, Space.memory, Space.memory]
        refine congrArg (fun f => some (Memory.mk s.sz f))
          ((h.fit u s hs).1.bytes_congr fun pg hpos => hchange.mem pg ?_)
        -- a page of another process is neither free nor in this slot
        have hsum := sum_use_update w.space t none pg
        have hle := Inv.use_le ⟨w.phys, Function.update w.space t none⟩ u pg
        have hone := h.le_one pg
        dsimp only at hle
        rw [Function.update_of_ne hu, hs, use_some, Space.uses] at hle
        rw [use_none] at hsum
        omega

/-! ### Calls -/

omit [Fintype τ] in
theorem update_view_self {v : τ → Option Memory} {x : Memory} (hx : v t = some x) :
    Function.update v t (some x) = v := by
  rw [← hx, Function.update_eq_self]

theorem Inv.onSpace (h : Inv pages w) (t : τ) {f : Phys → Space → Option (Phys × Space × Answer)}
    (P : Memory → Answer → Memory → Prop)
    (hf : ∀ s, Mine w.phys s → ∃ m' s' a, f w.phys s = some (m', s', a) ∧ Turned w.phys s m' s' ∧
      P (s.memory w.phys) a (s'.memory m')) :
    ∃ w' a, w.onSpace t f = some (w', a) ∧ Inv pages w' ∧
      (w.view t = none ∧ a = .refused ∧ w'.view = w.view ∨
        ∃ x x', w.view t = some x ∧ P x a x' ∧ w'.view = Function.update w.view t (some x')) := by
  cases hs : w.space t with
  | none =>
    refine ⟨w, .refused, ?_, h, .inl ⟨?_, rfl, rfl⟩⟩
    · rw [World.onSpace, hs]
    · rw [World.view, hs, Option.map_none]
  | some s =>
    obtain ⟨m', s', a, hcall, hturned, hP⟩ := hf s (h.mine hs)
    have hchange : Change w.phys (w.space t) m' (some s') := hs ▸ hturned.change
    obtain ⟨hinv, hview⟩ := h.change hchange
    refine ⟨_, a, ?_, hinv, .inr ⟨s.memory w.phys, s'.memory m', ?_, hP, hview⟩⟩
    · simp only [World.onSpace, hs, hcall, Option.map_some]
    · rw [World.view, hs, Option.map_some]

/-- A call that only reads: it returns what `val` says of the memory, if anything. -/
theorem Inv.onRead (h : Inv pages w) (t : τ) {f : Phys → Space → Option (Phys × Space × Answer)}
    (val : Memory → List UInt8)
    (hf : ∀ s, Mine w.phys s → ∃ m' s' a, f w.phys s = some (m', s', a) ∧ Turned w.phys s m' s' ∧
      s'.memory m' = s.memory w.phys ∧ ∀ l, a = .bytes (some l) → l = val (s.memory w.phys)) :
    ∃ w' a, w.onSpace t f = some (w', a) ∧ Inv pages w' ∧ w'.view = w.view ∧
      ∀ x l, w.view t = some x → a = .bytes (some l) → l = val x := by
  obtain ⟨w', a, hstep, hinv, hview⟩ := h.onSpace t
    (fun x a x' => x' = x ∧ ∀ l, a = .bytes (some l) → l = val x) hf
  refine ⟨w', a, hstep, hinv, ?_⟩
  obtain ⟨-, rfl, hsame⟩ | ⟨x, x', hx, ⟨rfl, hl⟩, hnew⟩ := hview
  · exact ⟨hsame, fun x l hx => by simp⟩
  · refine ⟨by rw [hnew, update_view_self hx], fun y l hy => ?_⟩
    rw [hx] at hy
    cases hy
    exact hl l

theorem Space.memory_eq {s s' : Space} {m m' : Phys} (hsz : s'.sz = s.sz)
    (hbytes : s'.bytes m' = s.bytes m) : s'.memory m' = s.memory m := by
  rw [Space.memory, Space.memory, hsz, hbytes]

theorem Space.resize_self (s : Space) (m : Phys) : (s.memory m).resize s.sz = s.memory m := by
  rw [Space.memory, Memory.resize]
  congr 1
  funext a
  split
  · rfl
  · next ha => rw [Space.bytes, flat, Space.contents, if_neg ha, memset]

theorem Mine.sysSbrk_memory {m : Phys} {s : Space} (h : Mine m s) (n : ℤ) (eager : Bool) :
    ∃ m' s' o, Vm.sysSbrk m s n eager = some (m', s', o) ∧ Turned m s m' s' ∧
      (o = none ∧ s'.memory m' = s.memory m ∨
        o = some s.sz ∧ s'.memory m' = (s.memory m).resize (brk s.sz n)) := by
  obtain ⟨m', s', o, hcall, hturned, hsz, hcontents⟩ := h.sysSbrk n eager
  have hmemory : s'.memory m' = (s.memory m).resize s'.sz := by
    rw [Space.memory, Memory.resize]
    congr 1
    funext a
    rw [Space.bytes, flat, hcontents]
    split <;> rfl
  refine ⟨m', s', o, hcall, hturned, ?_⟩
  rw [hmemory]
  obtain ⟨ho, hsz⟩ | ⟨ho, hsz⟩ := hsz
  · exact .inl ⟨ho, by rw [hsz, s.resize_self]⟩
  · exact .inr ⟨ho, by rw [hsz]⟩

theorem Inv.fill (h : Inv pages w) (hnone : w.space t = none) {m' : Phys} {o : Option Space}
    (hsome : ∀ s, o = some s → Born w.phys m' s) (hback : o = none → Restored w.phys m') :
    Inv pages ⟨m', Function.update w.space t o⟩ ∧
      World.view ⟨m', Function.update w.space t o⟩ =
        Function.update w.view t (o.map fun s => s.memory m') := by
  refine h.change ?_
  rw [hnone]
  cases o with
  | none => exact (hback rfl).change
  | some s => exact (hsome s rfl).change

omit [Fintype τ] [DecidableEq τ] in
theorem World.view_eq_none (hnone : w.space t = none) : w.view t = none := by
  rw [World.view, hnone, Option.map_none]

theorem memory_of_sz_eq_zero {m : Phys} {s : Space} (hsz : s.sz = 0) :
    s.memory m = ⟨0, fun _ => 0⟩ := by
  rw [Space.memory, hsz]
  congr 1
  funext a
  rw [Space.bytes, flat, Space.contents, hsz, roundUp_zero, if_neg (Nat.not_lt_zero _), memset]

theorem Inv.step_spawn (h : Inv pages w) (trampoline : ℕ) (t : τ) :
    ∃ w' a, w.step trampoline (.spawn t) = some (w', a) ∧ Inv pages w' ∧
      Memory.Step w.view (.spawn t) a w'.view := by
  cases hs : w.space t with
  | some s => exact ⟨w, .refused, by simp only [World.step, hs], h, Or.inl ⟨rfl, by simp⟩⟩
  | none =>
    obtain ⟨m', o, hcall, hsome, hback⟩ := allocproc_spec trampoline h.pool
    obtain ⟨hinv, hview⟩ := h.fill hs (fun s ho => (hsome s ho).1) hback
    refine ⟨_, .flag o.isSome, by simp only [World.step, hs, hcall, Option.map_some], hinv, ?_⟩
    cases o with
    | none =>
      refine Or.inl ⟨?_, by simp⟩
      rw [hview, Option.map_none, ← World.view_eq_none hs, Function.update_eq_self]
    | some s =>
      refine Or.inr ⟨World.view_eq_none hs, rfl, ?_⟩
      rw [hview, Option.map_some, memory_of_sz_eq_zero (hsome s rfl).2]

theorem Inv.step_fork (h : Inv pages w) (trampoline : ℕ) (t c : τ) :
    ∃ w' a, w.step trampoline (.fork t c) = some (w', a) ∧ Inv pages w' ∧
      Memory.Step w.view (.fork t c) a w'.view := by
  cases hs : w.space t with
  | none => exact ⟨w, .refused, by simp only [World.step, hs], h, Or.inl ⟨rfl, by simp⟩⟩
  | some s =>
    cases hc : w.space c with
    | some s' => exact ⟨w, .refused, by simp only [World.step, hs, hc], h, Or.inl ⟨rfl, by simp⟩⟩
    | none =>
      have hmine := h.mine hs
      obtain ⟨m', o, hcall, hsome, hback⟩ := kfork_spec trampoline h.pool hmine.keyed
        fun k pte hk hlookup => hmine.page_notMem_free hk hlookup
      obtain ⟨hinv, hview⟩ := h.fill hc (fun s ho => (hsome s ho).1) hback
      refine ⟨_, .flag o.isSome, by simp only [World.step, hs, hc, hcall, Option.map_some],
        hinv, ?_⟩
      cases o with
      | none =>
        refine Or.inl ⟨?_, by simp⟩
        rw [hview, Option.map_none, ← World.view_eq_none hc, Function.update_eq_self]
      | some child =>
        obtain ⟨-, hsz, hcontents⟩ := hsome child rfl
        have hparent : w.view t = some (s.memory w.phys) := by rw [World.view, hs, Option.map_some]
        have hbytes : child.bytes m' = s.bytes w.phys := by
          rw [Space.bytes, Space.bytes, funext hcontents]
        refine Or.inr ⟨World.view_eq_none hc, by simp [hparent], rfl, ?_⟩
        rw [hview, Option.map_some, hparent, Space.memory_eq hsz hbytes]

theorem Inv.step_reap (h : Inv pages w) (trampoline : ℕ) (t : τ) :
    ∃ w' a, w.step trampoline (.reap t) = some (w', a) ∧ Inv pages w' ∧
      Memory.Step w.view (.reap t) a w'.view := by
  cases hs : w.space t with
  | none =>
    refine ⟨w, .refused, by simp only [World.step, hs], h, ?_⟩
    change w.view = Function.update w.view t none
    rw [← World.view_eq_none hs, Function.update_eq_self]
  | some s =>
    have hmine := h.mine hs
    obtain ⟨m', hcall, hkend, hcount, hmem⟩ := freeproc_spec hmine.keyed fun pg hpg => by
      have hle := Inv.use_le w t pg
      rw [hs, use_some] at hle
      exact h.owns_of_pos (by omega)
    have hchange : Change w.phys (w.space t) m' none := by
      rw [hs]
      refine ⟨hkend, fun pg => ?_, fun pg hpg => hmem pg ?_, fun s hs => by cases hs⟩
      · rw [use_none, use_some, hcount, Nat.add_zero]
      · rw [use_some] at hpg
        omega
    obtain ⟨hinv, hview⟩ := h.change hchange
    exact ⟨_, .flag true, by simp only [World.step, hs, hcall, Option.map_some], hinv, hview⟩

theorem Inv.step_exec (h : Inv pages w) (trampoline : ℕ) (t : τ)
    (file : Option (List (Option Segment))) (uargv : ℕ) :
    ∃ w' a, w.step trampoline (.exec t file uargv) = some (w', a) ∧ Inv pages w' ∧
      Memory.Step w.view (.exec t file uargv) a w'.view := by
  obtain ⟨w', a, hstep, hinv, hview⟩ := h.onSpace t
    (f := fun m s => (sysExec trampoline m s file uargv).map fun x => (x.1, x.2.1, .started x.2.2))
    (fun x a x' => ∃ o, a = .started o ∧ (o = none → x' = x) ∧ ∀ y, o = some y → ∃ gs strs,
      file = some gs ∧ Argv x.byte uargv strs ∧ Started gs strs x'.byte x'.sz y.1 y.2)
    fun s hmine => by
      obtain ⟨m', s', o, hcall, strs, hexeced, hargv⟩ := hmine.sysExec trampoline file uargv
      refine ⟨m', s', .started o, by rw [hcall, Option.map_some], hexeced.turned, o, rfl,
        fun ho => ?_, fun y hy => ?_⟩
      · obtain ⟨hsz, hbytes⟩ := hexeced.failed ho
        exact Space.memory_eq hsz hbytes
      · obtain ⟨gs, hgs, hstarted⟩ := hexeced.started y hy
        exact ⟨gs, strs, hgs, hargv (by simp [hy]), hstarted⟩
  refine ⟨w', a, hstep, hinv, ?_⟩
  obtain ⟨-, rfl, hsame⟩ | ⟨x, x', hx, ⟨o, rfl, hfailed, hstarted⟩, hnew⟩ := hview
  · exact Or.inl ⟨hsame, by simp⟩
  · cases o with
    | none => exact Or.inl ⟨by rw [hnew, hfailed rfl, update_view_self hx], by simp⟩
    | some y =>
      obtain ⟨gs, strs, hgs, hargv, hprogram⟩ := hstarted y rfl
      exact Or.inr ⟨x, x', y, gs, strs, hx, rfl, hgs, hargv, hprogram, hnew⟩

theorem Inv.step_sbrk (h : Inv pages w) (trampoline : ℕ) (t : τ) (n : ℤ) (eager : Bool) :
    ∃ w' a, w.step trampoline (.sbrk t n eager) = some (w', a) ∧ Inv pages w' ∧
      Memory.Step w.view (.sbrk t n eager) a w'.view := by
  obtain ⟨w', a, hstep, hinv, hview⟩ := h.onSpace t
    (f := fun m s => (sysSbrk m s n eager).map fun x => (x.1, x.2.1, .addr x.2.2))
    (fun x a x' => a = .addr none ∧ x' = x ∨
      a = .addr (some x.sz) ∧ x' = x.resize (brk x.sz n))
    fun s hmine => by
      obtain ⟨m', s', o, hcall, hturned, hmemory⟩ := hmine.sysSbrk_memory n eager
      refine ⟨m', s', .addr o, by rw [hcall, Option.map_some], hturned, ?_⟩
      exact hmemory.imp (fun ⟨ho, hsame⟩ => ⟨by rw [ho], hsame⟩)
        fun ⟨ho, hnew⟩ => ⟨by rw [ho]; rfl, hnew⟩
  refine ⟨w', a, hstep, hinv, ?_⟩
  obtain ⟨hnone, rfl, hsame⟩ | ⟨x, x', hx, hx', hnew⟩ := hview
  · exact Or.inl ⟨hsame, by simp⟩
  · obtain ⟨rfl, rfl⟩ | ⟨rfl, rfl⟩ := hx'
    · exact Or.inl ⟨by rw [hnew, update_view_self hx], by simp⟩
    · exact Or.inr ⟨x, hx, rfl, hnew⟩

theorem Inv.step_store (h : Inv pages w) (trampoline : ℕ) (t : τ) (va : ℕ) (b : UInt8) :
    ∃ w' a, w.step trampoline (.store t va b) = some (w', a) ∧ Inv pages w' ∧
      Memory.Step w.view (.store t va b) a w'.view := by
  obtain ⟨w', a, hstep, hinv, hview⟩ := h.onSpace t
    (f := fun m s => (store m s va b).map fun x => (x.1, x.2.1, .flag x.2.2))
    (fun x a x' => a ≠ .flag true ∧ x' = x ∨ a = .flag true ∧ x' = x.write va [b])
    fun s hmine => by
      obtain ⟨m', s', ok, hcall, hturned, hsz, hbytes⟩ := hmine.store va b
      refine ⟨m', s', .flag ok, by rw [hcall, Option.map_some], hturned, ?_⟩
      cases ok with
      | false => exact .inl ⟨by simp, Space.memory_eq hsz (by simpa using hbytes)⟩
      | true =>
        refine .inr ⟨rfl, ?_⟩
        rw [Space.memory, hsz, hbytes, if_pos rfl]
        rfl
  refine ⟨w', a, hstep, hinv, ?_⟩
  obtain ⟨hnone, rfl, hsame⟩ | ⟨x, x', hx, hx', hnew⟩ := hview
  · exact Or.inl ⟨hsame, by simp⟩
  · obtain ⟨hne, rfl⟩ | ⟨ha, rfl⟩ := hx'
    · exact Or.inl ⟨by rw [hnew, update_view_self hx], hne⟩
    · exact Or.inr ⟨x, hx, ha, hnew⟩

theorem Inv.step_load (h : Inv pages w) (trampoline : ℕ) (t : τ) (va : ℕ) :
    ∃ w' a, w.step trampoline (.load t va) = some (w', a) ∧ Inv pages w' ∧
      Memory.Step w.view (.load t va) a w'.view := by
  refine h.onRead t
    (f := fun m s => (load m s va).map fun x => (x.1, x.2.1, .bytes (x.2.2.map fun b => [b])))
    (fun x => [x.byte va]) fun s hmine => ?_
  obtain ⟨m', s', o, hcall, hturned, hsz, hbytes, hread⟩ := hmine.load va
  refine ⟨m', s', .bytes (o.map fun b => [b]), by rw [hcall, Option.map_some], hturned,
    Space.memory_eq hsz hbytes, fun l hl => ?_⟩
  injection hl with hl
  obtain ⟨b, hb, rfl⟩ := Option.map_eq_some_iff.mp hl
  rw [hread b hb]
  rfl

theorem Inv.step_copyout (h : Inv pages w) (trampoline : ℕ) (t : τ) (dst : ℕ) (src : List UInt8) :
    ∃ w' a, w.step trampoline (.copyout t dst src) = some (w', a) ∧ Inv pages w' ∧
      Memory.Step w.view (.copyout t dst src) a w'.view := by
  obtain ⟨w', a, hstep, hinv, hview⟩ := h.onSpace t
    (f := fun m s => (copyout m s dst src).map fun x => (x.1, x.2.1, .flag x.2.2))
    (fun x a x' => ∃ n ≤ src.length, (a = .flag true → n = src.length) ∧
      x' = x.write dst (src.take n))
    fun s hmine => by
      obtain ⟨m', s', ok, hcall, hturned, hsz, n, hn, hok, hbytes⟩ := hmine.copyout dst src
      refine ⟨m', s', .flag ok, by rw [hcall, Option.map_some], hturned, n, hn, fun ha => ?_, ?_⟩
      · injection ha with ha
        exact hok ha
      · rw [Space.memory, hsz, hbytes]
        rfl
  refine ⟨w', a, hstep, hinv, ?_⟩
  obtain ⟨hnone, rfl, hsame⟩ | ⟨x, x', hx, ⟨n, hn, hok, rfl⟩, hnew⟩ := hview
  · refine Exists.intro 0 ⟨Nat.zero_le _, by simp, ?_⟩
    rw [hsame, hnone, Option.map_none, ← hnone, Function.update_eq_self]
  · exact Exists.intro n ⟨hn, hok, by rw [hnew, hx, Option.map_some]⟩

theorem Inv.step_copyin (h : Inv pages w) (trampoline : ℕ) (t : τ) (src len : ℕ) :
    ∃ w' a, w.step trampoline (.copyin t src len) = some (w', a) ∧ Inv pages w' ∧
      Memory.Step w.view (.copyin t src len) a w'.view := by
  refine h.onRead t
    (f := fun m s => (copyin m s src len).map fun x => (x.1, x.2.1, .bytes x.2.2))
    (fun x => slice x.byte src len) fun s hmine => ?_
  obtain ⟨m', s', o, hcall, hturned, hsz, hbytes, hread⟩ := hmine.copyin src len
  refine ⟨m', s', .bytes o, by rw [hcall, Option.map_some], hturned,
    Space.memory_eq hsz hbytes, fun l hl => ?_⟩
  injection hl with hl
  exact hread l hl

/-- **Every call** returns, keeps the invariant, and does to the memories what it should. -/
theorem Inv.step (h : Inv pages w) (trampoline : ℕ) (op : Op τ) :
    ∃ w' a, w.step trampoline op = some (w', a) ∧ Inv pages w' ∧
      Memory.Step w.view op a w'.view := by
  cases op with
  | spawn t => exact h.step_spawn trampoline t
  | fork t c => exact h.step_fork trampoline t c
  | reap t => exact h.step_reap trampoline t
  | exec t file uargv => exact h.step_exec trampoline t file uargv
  | sbrk t n eager => exact h.step_sbrk trampoline t n eager
  | store t va b => exact h.step_store trampoline t va b
  | load t va => exact h.step_load trampoline t va
  | copyout t dst src => exact h.step_copyout trampoline t dst src
  | copyin t src len => exact h.step_copyin trampoline t src len

/-- **Calls in a row.** -/
theorem Inv.run (h : Inv pages w) (trampoline : ℕ) (ops : List (Op τ)) :
    ∃ w' l, w.run trampoline ops = some (w', l) ∧ Inv pages w' ∧
      Memory.Follows w.view ops l w'.view := by
  induction ops generalizing w with
  | nil => exact ⟨w, [], rfl, h, rfl, rfl⟩
  | cons op ops ih =>
    obtain ⟨w₁, a, hstep, hinv, hfirst⟩ := h.step trampoline op
    obtain ⟨w', l, hrun, hinv', hrest⟩ := ih hinv
    refine ⟨w', a :: l, ?_, hinv', a, l, w₁.view, rfl, hfirst, hrest⟩
    rw [World.run, hstep, Option.bind_some, hrun, Option.map_some]

/-- No process yet, and the free list `pages`. -/
def World.start (τ : Type*) (pages : List ℕ) (mem : ℕ → Content) (kend : ℕ) : World τ :=
  ⟨⟨pages, mem, kend⟩, fun _ => none⟩

omit [DecidableEq τ] in
theorem start_inv {mem : ℕ → Content} {kend : ℕ} (honce : pages.Nodup)
    (hpages : ∀ pg ∈ pages, kend ≤ pg ∧ pg < PHYSTOP) :
    Inv pages (World.start τ pages mem kend) where
  owns := hpages
  once := honce
  count pg := by
    rw [World.start]
    dsimp only
    rw [Finset.sum_eq_zero fun _ _ => use_none pg, Nat.add_zero]
  fit t s hs := by cases hs

/-- **No page is lost, and none is used twice.** Whatever the processes do, the kernel does not
    panic, and every page that it had at the start is free, or the trap frame, a node of the page
    table or a page of the memory of one process, once. -/
theorem memory_conserved (mem : ℕ → Content) (kend trampoline : ℕ) (honce : pages.Nodup)
    (hpages : ∀ pg ∈ pages, kend ≤ pg ∧ pg < PHYSTOP) (ops : List (Op τ)) :
    ∃ w l, (World.start τ pages mem kend).run trampoline ops = some (w, l) ∧
      ∀ pg ∈ pages, w.phys.free.count pg + ∑ t, use (w.space t) pg = 1 := by
  obtain ⟨w, l, hrun, hinv, -⟩ := (start_inv honce hpages).run trampoline ops
  refine ⟨w, l, hrun, fun pg hpg => ?_⟩
  rw [hinv.count, List.count_eq_one_of_mem honce hpg]

/-- **The memories are private.** Whatever the processes do, what they and the kernel read and write
    are arrays of bytes, one for each process: `fork` copies one, `sys_exec` replaces one by the
    program and the arguments of the old one, and no other call touches another process's. -/
theorem memory_private (mem : ℕ → Content) (kend trampoline : ℕ) (honce : pages.Nodup)
    (hpages : ∀ pg ∈ pages, kend ≤ pg ∧ pg < PHYSTOP) (ops : List (Op τ)) :
    ∃ w l, (World.start τ pages mem kend).run trampoline ops = some (w, l) ∧
      Memory.Follows (fun _ => none) ops l w.view := by
  obtain ⟨w, l, hrun, -, hfollows⟩ := (start_inv honce hpages).run trampoline ops
  exact ⟨w, l, hrun, hfollows⟩

end Invariant

/-- A process, its child, and a byte that only the child writes. -/
def forkAndStore : List (Op Bool) :=
  [.spawn true, .sbrk true 5000 false, .store true 4999 7, .fork true false, .store false 4999 8,
    .load true 4999, .reap false, .load true 0]

theorem memory_conserved_fork :
    ∃ w l, (World.start Bool (List.range' 524320 40) (fun _ => memset 1) 524300).run 524299
        forkAndStore = some (w, l) ∧
      ∀ pg ∈ List.range' 524320 40, w.phys.free.count pg + ∑ t, use (w.space t) pg = 1 :=
  memory_conserved _ _ _ (by decide) (by decide) _

theorem memory_private_fork :
    ∃ w l, (World.start Bool (List.range' 524320 40) (fun _ => memset 1) 524300).run 524299
        forkAndStore = some (w, l) ∧ Memory.Follows (fun _ => none) forkAndStore l w.view :=
  memory_private _ _ _ (by decide) (by decide) _

end MiniOs.Xv6.Vm
