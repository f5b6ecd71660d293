import Mathlib.Algebra.Order.Group.Int
import Mathlib.Logic.Relation
import MiniOs.Lib.Monitor
import MiniOs.Xv6.Proc

/-!
# Parents and children

`kfork`, `kexit` with `reparent`, and `kwait` of `proc.c`, on any number of CPUs. The parent links
are protected by `wait_lock`, on which `kwait` also sleeps, so the three functions are a monitor
with the processes as its threads. The process in slot `i` is thread `i`; it takes steps only
while the slot holds a live process.

Here a process is unused, used, live or a zombie: whether a live process runs, waits for a CPU
or sleeps is its phase in the monitor. A slot changes from unused to used, and from used to live,
under its own lock and without `wait_lock`. Everything else happens under `wait_lock`.

The pid counter is an unbounded integer. The files and the memory of a process are left out, but
for the outcomes of `uvmcopy` in `kfork` and of `copyout` in `kwait`, which are inputs. The lock of
an exiting process, which the scheduler releases for it, is not modelled.
-/

namespace MiniOs.Xv6.Families

open Trace

variable {j np t : Slot} {status : ℤ}

/-- `enum procstate`, where `RUNNABLE`, `RUNNING` and `SLEEPING` are `live`. -/
inductive Life where
  | unused
  | used
  | live
  | zombie
  deriving DecidableEq, Repr

/-- The fields of `struct proc` that matter to parents and children. -/
structure Member where
  state : Life
  pid : ℤ
  parent : Option Slot
  xstate : ℤ
  deriving DecidableEq, Repr

def freed : Member := ⟨.unused, 0, none, 0⟩

/-- The process table and the pid counter. -/
structure Table where
  proc : Slot → Member
  nextpid : ℤ

/-- Run `f` on the fields of slot `j`. -/
def Table.modify (d : Table) (j : Slot) (f : Member → Member) : Table :=
  { d with proc := Function.update d.proc j (f (d.proc j)) }

@[simp]
theorem Table.modify_proc_self {d : Table} {f : Member → Member} :
    (d.modify j f).proc j = f (d.proc j) := Function.update_self ..

theorem Table.modify_proc_of_ne {d : Table} {k : Slot} {f : Member → Member} (hk : k ≠ j) :
    (d.modify j f).proc k = d.proc k := Function.update_of_ne hk ..

@[simp]
theorem Table.modify_nextpid {d : Table} {f : Member → Member} :
    (d.modify j f).nextpid = d.nextpid := rfl

def Table.drawPid (d : Table) : Table := { d with nextpid := d.nextpid + 1 }

@[simp]
theorem Table.drawPid_proc {d : Table} : d.drawPid.proc = d.proc := rfl

@[simp]
theorem Table.drawPid_nextpid {d : Table} : d.drawPid.nextpid = d.nextpid + 1 := rfl

/-- What a process calls, and what it is told. -/
inductive Input where
  /-- `kfork`, where `allocproc` finds slot `np`; the flag says whether all allocations
      succeed. -/
  | fork (np : Slot) (ok : Bool)
  | exit (status : ℤ)
  | wait
  /-- Whether `copyout` of the exit status succeeds, or is not asked for. -/
  | copied (ok : Bool)
  | killed (k : Bool)
  deriving DecidableEq, Repr

inductive Point where
  | user
  /-- In `kfork`, before `np->parent` is written, behind it, and before `np` is `RUNNABLE`. -/
  | forking (np : Slot)
  | forked (np : Slot)
  | starting (np : Slot)
  /-- In `kexit`: in the loop of `reparent`, in its wakeup, and behind the loop. -/
  | reparenting (status : ℤ) (j : ℕ)
  | adopting (status : ℤ) (j : ℕ)
  | dying (status : ℤ) (parent : Option Slot)
  | dead (parent : Option Slot)
  /-- In `kwait`: in the loop, and with a status. -/
  | scanning (j : ℕ) (havekids : Bool)
  | reaped (pid status : ℤ)
  /-- `kwait` has returned. -/
  | waited (r : Option (ℤ × ℤ))
  deriving DecidableEq, Repr

/-- The steps under `wait_lock`. -/
def locked (t : Slot) (i : Input) (d : Table) :
    Point → Option (Monitor.Act Table Point (Option Slot))
  | .forking np =>
    some (.write (d.modify np fun m => { m with parent := some t }) (.forked np))
  | .forked np => some (.release (.starting np))
  | .reparenting status j =>
    if h : j < NPROC then
      if (d.proc ⟨j, h⟩).parent = some t then
        some (.write (d.modify ⟨j, h⟩ fun m => { m with parent := some initproc })
          (.adopting status j))
      else some (.write d (.reparenting status (j + 1)))
    else some (.wakeup (d.proc t).parent (.dying status (d.proc t).parent))
  | .adopting status j => some (.wakeup (some initproc) (.reparenting status (j + 1)))
  | .dying status parent =>
    some (.write (d.modify t fun m => { m with xstate := status, state := .zombie })
      (.dead parent))
  | .dead _ => some (.release .user)
  | .scanning j havekids =>
    if h : j < NPROC then
      if (d.proc ⟨j, h⟩).parent = some t then
        if (d.proc ⟨j, h⟩).state = .zombie then
          match i with
          | .copied true =>
            some (.write (d.modify ⟨j, h⟩ fun _ => freed)
              (.reaped (d.proc ⟨j, h⟩).pid (d.proc ⟨j, h⟩).xstate))
          | .copied false => some (.release (.waited none))
          | _ => none
        else some (.write d (.scanning (j + 1) true))
      else some (.write d (.scanning (j + 1) havekids))
    else
      match i with
      | .killed k =>
        if havekids = false ∨ k then some (.release (.waited none))
        else some (.sleep (some t) (.scanning 0 false))
      | _ => none
  | .reaped pid status => some (.release (.waited (some (pid, status))))
  | .user | .starting _ | .waited _ => none

/-- The steps without `wait_lock`. -/
def free (t : Slot) (i : Input) (d : Table) : Point → Option (Table × Point)
  | .user =>
    if (d.proc t).state = .live then
      match i with
      | .fork np ok =>
        if (d.proc np).state = .unused then
          if ok then
            some ((d.modify np fun m => { m with state := .used, pid := d.nextpid }).drawPid,
              .forking np)
          else some ((d.modify np fun _ => freed).drawPid, .user)
        else none
      | .exit status => if t ≠ initproc then some (d, .reparenting status 0) else none
      | .wait => some (d, .scanning 0 false)
      | _ => none
    else none
  | .starting np => some (d.modify np fun m => { m with state := .live }, .user)
  | .waited _ => some (d, .user)
  | _ => none

/-- The functions, for the process in each slot. -/
def program : Monitor.Program Slot Input Table Point (Option Slot) where
  acquires
    | .forking _ | .reparenting _ 0 | .scanning 0 false => true
    | _ => false
  free := free
  locked := locked

def userinit : Table where
  proc i := if i = initproc then ⟨.live, 1, none, 0⟩ else freed
  nextpid := 2

/-- The processes when the first one starts. -/
def start : Monitor.State Slot Table Point (Option Slot) := ⟨userinit, none, fun _ => .free .user⟩

/-- The slots in the order in which `wakeup` visits them. -/
def slots : List Slot := List.finRange NPROC

/-! ### What the steps do -/

/-- A step without `wait_lock`, with what it needs. -/
inductive Frees (t : Slot) (i : Input) (d : Table) : Point → Table → Point → Prop where
  | fork {np : Slot} (hi : i = .fork np true) (hlive : (d.proc t).state = .live)
      (hnp : (d.proc np).state = .unused) : Frees t i d .user
        (d.modify np fun m => { m with state := .used, pid := d.nextpid }).drawPid (.forking np)
  | noFork {np : Slot} (hi : i = .fork np false) (hnp : (d.proc np).state = .unused) :
      Frees t i d .user (d.modify np fun _ => freed).drawPid .user
  | exit {status : ℤ} (hi : i = .exit status) (hlive : (d.proc t).state = .live)
      (hinit : t ≠ initproc) : Frees t i d .user d (.reparenting status 0)
  | wait (hlive : (d.proc t).state = .live) : Frees t i d .user d (.scanning 0 false)
  | start {np : Slot} : Frees t i d (.starting np) (d.modify np fun m => { m with state := .live })
      .user
  | back {r : Option (ℤ × ℤ)} : Frees t i d (.waited r) d .user

/-- **Inversion** of a step without `wait_lock`. -/
theorem free_frees {i : Input} {d d' : Table} {p q : Point} (h : free t i d p = some (d', q)) :
    Frees t i d p d' q := by
  cases p with
  | user =>
    cases i with
    | fork np ok =>
      simp only [free, Option.ite_none_right_eq_some] at h
      obtain ⟨hlive, hnp, h⟩ := h
      cases ok with
      | true =>
        cases h
        exact .fork rfl hlive hnp
      | false =>
        cases h
        exact .noFork rfl hnp
    | exit status =>
      simp only [free, Option.ite_none_right_eq_some] at h
      obtain ⟨hlive, hinit, h⟩ := h
      cases h
      exact .exit rfl hlive hinit
    | wait =>
      simp only [free, Option.ite_none_right_eq_some] at h
      obtain ⟨hlive, h⟩ := h
      cases h
      exact .wait hlive
    | _ => simp [free] at h
  | starting np =>
    cases h
    exact .start
  | waited r =>
    cases h
    exact .back
  | _ => cases h

/-- A step under `wait_lock`, with what it needs. -/
inductive Acts (t : Slot) (i : Input) (d : Table) :
    Point → Monitor.Act Table Point (Option Slot) → Prop where
  | link {np : Slot} : Acts t i d (.forking np)
      (.write (d.modify np fun m => { m with parent := some t }) (.forked np))
  | linked {np : Slot} : Acts t i d (.forked np) (.release (.starting np))
  | adopt {status : ℤ} {j : Slot} (hj : (d.proc j).parent = some t) :
      Acts t i d (.reparenting status j)
        (.write (d.modify j fun m => { m with parent := some initproc }) (.adopting status j))
  | pass {status : ℤ} {j : Slot} (hj : (d.proc j).parent ≠ some t) :
      Acts t i d (.reparenting status j) (.write d (.reparenting status (j + 1)))
  | adopted {status : ℤ} {j : ℕ} : Acts t i d (.adopting status j)
      (.wakeup (some initproc) (.reparenting status (j + 1)))
  | wakeParent {status : ℤ} {j : ℕ} (hj : NPROC ≤ j) : Acts t i d (.reparenting status j)
      (.wakeup (d.proc t).parent (.dying status (d.proc t).parent))
  | die {status : ℤ} {parent : Option Slot} : Acts t i d (.dying status parent)
      (.write (d.modify t fun m => { m with xstate := status, state := .zombie }) (.dead parent))
  | leave {parent : Option Slot} : Acts t i d (.dead parent) (.release .user)
  | reap {j : Slot} {havekids : Bool} (hi : i = .copied true) (hj : (d.proc j).parent = some t)
      (hz : (d.proc j).state = .zombie) : Acts t i d (.scanning j havekids)
        (.write (d.modify j fun _ => freed) (.reaped (d.proc j).pid (d.proc j).xstate))
  | fault {j : ℕ} {havekids : Bool} (hi : i = .copied false) :
      Acts t i d (.scanning j havekids) (.release (.waited none))
  | child {j : Slot} {havekids : Bool} (hj : (d.proc j).parent = some t)
      (hz : (d.proc j).state ≠ .zombie) :
      Acts t i d (.scanning j havekids) (.write d (.scanning (j + 1) true))
  | other {j : Slot} {havekids : Bool} (hj : (d.proc j).parent ≠ some t) :
      Acts t i d (.scanning j havekids) (.write d (.scanning (j + 1) havekids))
  | giveUp {j : ℕ} {havekids : Bool} (hj : NPROC ≤ j) (h : havekids = false ∨ i = .killed true) :
      Acts t i d (.scanning j havekids) (.release (.waited none))
  | sleep {j : ℕ} (hj : NPROC ≤ j) :
      Acts t i d (.scanning j true) (.sleep (some t) (.scanning 0 false))
  | deliver {pid status : ℤ} :
      Acts t i d (.reaped pid status) (.release (.waited (some (pid, status))))

/-- **Inversion** of a step under `wait_lock`. -/
theorem locked_acts {i : Input} {d : Table} {p : Point}
    {a : Monitor.Act Table Point (Option Slot)} (h : locked t i d p = some a) : Acts t i d p a := by
  cases p with
  | forking np =>
    cases h
    exact .link
  | forked np =>
    cases h
    exact .linked
  | reparenting status j =>
    rw [locked] at h
    by_cases hj : j < NPROC
    · rw [dif_pos hj] at h
      by_cases hp : (d.proc ⟨j, hj⟩).parent = some t
      · rw [if_pos hp] at h
        cases h
        exact .adopt (j := ⟨j, hj⟩) hp
      · rw [if_neg hp] at h
        cases h
        exact .pass (j := ⟨j, hj⟩) hp
    · rw [dif_neg hj] at h
      cases h
      exact .wakeParent (Nat.not_lt.mp hj)
  | adopting status j =>
    cases h
    exact .adopted
  | dying status parent =>
    cases h
    exact .die
  | dead parent =>
    cases h
    exact .leave
  | scanning j havekids =>
    simp only [locked] at h
    by_cases hj : j < NPROC
    · rw [dif_pos hj] at h
      by_cases hp : (d.proc ⟨j, hj⟩).parent = some t
      · rw [if_pos hp] at h
        by_cases hz : (d.proc ⟨j, hj⟩).state = .zombie
        · rw [if_pos hz] at h
          cases i with
          | copied ok =>
            cases ok with
            | true =>
              cases h
              exact .reap (j := ⟨j, hj⟩) rfl hp hz
            | false =>
              cases h
              exact .fault rfl
          | _ => cases h
        · rw [if_neg hz] at h
          cases h
          exact .child (j := ⟨j, hj⟩) hp hz
      · rw [if_neg hp] at h
        cases h
        exact .other (j := ⟨j, hj⟩) hp
    · cases i with
      | killed k =>
        simp only [dif_neg hj] at h
        by_cases hk : havekids = false ∨ k = true
        · rw [if_pos hk] at h
          cases h
          exact .giveUp (Nat.not_lt.mp hj) (hk.imp_right fun hk => by rw [hk])
        · rw [if_neg hk] at h
          cases h
          have hkids : havekids = true := Bool.not_eq_false _ ▸ fun hf => hk (.inl hf)
          subst hkids
          exact .sleep (Nat.not_lt.mp hj)
      | _ => simp [dif_neg hj] at h
  | reaped pid status =>
    cases h
    exact .deliver
  | user => cases h
  | starting np => cases h
  | waited r => cases h

/-! ### The table -/

/-- What holds of the table alone. -/
structure Kin (d : Table) : Prop where
  init_live : (d.proc initproc).state = .live
  init_parent : (d.proc initproc).parent = none
  unused : ∀ j, (d.proc j).state = .unused → d.proc j = freed
  parent_live : ∀ j q, (d.proc j).parent = some q → (d.proc q).state = .live
  has_parent : ∀ j, (d.proc j).state = .live ∨ (d.proc j).state = .zombie → j ≠ initproc →
    (d.proc j).parent ≠ none
  pid : ∀ j, (d.proc j).state ≠ .unused → 0 < (d.proc j).pid ∧ (d.proc j).pid < d.nextpid
  pid_inj : ∀ j k, (d.proc j).state ≠ .unused → (d.proc k).state ≠ .unused →
    (d.proc j).pid = (d.proc k).pid → j = k
  older : ∀ j q, (d.proc j).parent = some q → q = initproc ∨ (d.proc q).pid < (d.proc j).pid

namespace Kin

variable {d : Table} {j : Slot}

theorem nextpid_pos (h : Kin d) : 0 < d.nextpid := by
  have hpid := h.pid initproc (by rw [h.init_live]; decide)
  exact Int.lt_trans hpid.1 hpid.2

theorem parent_none (h : Kin d) (hj : (d.proc j).state = .unused) : (d.proc j).parent = none := by
  rw [h.unused j hj]
  rfl

/-- What a new value for slot `j` has to satisfy. -/
structure Fits (d : Table) (j : Slot) (m : Member) (n : ℤ) : Prop where
  init : j ≠ initproc
  unused : m.state = .unused → m = freed
  childless : (m.state = .live ∧ m.pid = (d.proc j).pid) ∨ ∀ k, (d.proc k).parent ≠ some j
  parent : ∀ q, m.parent = some q → q ≠ j ∧ (d.proc q).state = .live ∧
    (q = initproc ∨ (d.proc q).pid < m.pid)
  has_parent : m.state = .live ∨ m.state = .zombie → m.parent ≠ none
  pid : m.state ≠ .unused → 0 < m.pid ∧ m.pid < n ∧
    ∀ k, k ≠ j → (d.proc k).state ≠ .unused → (d.proc k).pid ≠ m.pid
  nextpid : d.nextpid ≤ n

theorem set (h : Kin d) {m : Member} {n : ℤ} (hm : Fits d j m n) :
    Kin ⟨Function.update d.proc j m, n⟩ := by
  have hother : ∀ k, k ≠ j → Function.update d.proc j m k = d.proc k := fun k hk =>
    Function.update_of_ne hk ..
  have hself : Function.update d.proc j m j = m := Function.update_self ..
  constructor <;> dsimp only
  case init_live =>
    rw [hother _ hm.init.symm]
    exact h.init_live
  case init_parent =>
    rw [hother _ hm.init.symm]
    exact h.init_parent
  case unused =>
    intro k hk
    by_cases hkj : k = j
    · subst hkj
      rw [hself] at hk ⊢
      exact hm.unused hk
    · rw [hother k hkj] at hk ⊢
      exact h.unused k hk
  case parent_live =>
    intro k q hq
    by_cases hkj : k = j
    · subst hkj
      rw [hself] at hq
      obtain ⟨hqk, hlive, -⟩ := hm.parent q hq
      rw [hother q hqk]
      exact hlive
    · rw [hother k hkj] at hq
      by_cases hqj : q = j
      · subst hqj
        rw [hself]
        exact (hm.childless.resolve_right fun hnone => hnone k hq).1
      · rw [hother q hqj]
        exact h.parent_live k q hq
  case has_parent =>
    intro k hk hkinit
    by_cases hkj : k = j
    · subst hkj
      rw [hself] at hk ⊢
      exact hm.has_parent hk
    · rw [hother k hkj] at hk ⊢
      exact h.has_parent k hk hkinit
  case pid =>
    intro k hk
    by_cases hkj : k = j
    · subst hkj
      rw [hself] at hk ⊢
      exact ⟨(hm.pid hk).1, (hm.pid hk).2.1⟩
    · rw [hother k hkj] at hk ⊢
      exact ⟨(h.pid k hk).1, lt_of_lt_of_le (h.pid k hk).2 hm.nextpid⟩
  case pid_inj =>
    intro k l hk hl hkl
    by_cases hkj : k = j <;> by_cases hlj : l = j
    · rw [hkj, hlj]
    · subst hkj
      rw [hself] at hk hkl
      rw [hother l hlj] at hl hkl
      exact absurd hkl.symm ((hm.pid hk).2.2 l hlj hl)
    · subst hlj
      rw [hself] at hl hkl
      rw [hother k hkj] at hk hkl
      exact absurd hkl ((hm.pid hl).2.2 k hkj hk)
    · rw [hother k hkj] at hk hkl
      rw [hother l hlj] at hl hkl
      exact h.pid_inj k l hk hl hkl
  case older =>
    intro k q hq
    by_cases hkj : k = j
    · subst hkj
      rw [hself] at hq ⊢
      obtain ⟨hqk, -, hold⟩ := hm.parent q hq
      rw [hother q hqk]
      exact hold
    · rw [hother k hkj] at hq ⊢
      by_cases hqj : q = j
      · subst hqj
        rw [hself, (hm.childless.resolve_right fun hnone => hnone k hq).2]
        exact h.older k q hq
      · rw [hother q hqj]
        exact h.older k q hq

theorem childless (h : Kin d) (hj : (d.proc j).state ≠ .live) (k : Slot) :
    (d.proc k).parent ≠ some j :=
  fun hk => hj (h.parent_live k j hk)

theorem ne_init (h : Kin d) (hj : (d.proc j).state ≠ .live) : j ≠ initproc := by
  rintro rfl
  exact hj h.init_live

theorem pid_unique (h : Kin d) (hj : (d.proc j).state ≠ .unused) (k : Slot) (hkj : k ≠ j)
    (hk : (d.proc k).state ≠ .unused) : (d.proc k).pid ≠ (d.proc j).pid :=
  fun hpid => hkj (h.pid_inj k j hk hj hpid)

theorem alloc (h : Kin d) (hj : (d.proc j).state = .unused) :
    Kin (d.modify j fun m => { m with state := .used, pid := d.nextpid }).drawPid := by
  have hlive : (d.proc j).state ≠ .live := by rw [hj]; decide
  refine h.set ⟨h.ne_init hlive, nofun, .inr (h.childless hlive), fun q hq => ?_, by simp,
    fun _ => ⟨h.nextpid_pos, Int.lt_succ _, fun k _ hk => (h.pid k hk).2.ne⟩, (Int.lt_succ _).le⟩
  rw [h.parent_none hj] at hq
  cases hq

theorem drawPid (h : Kin d) : Kin d.drawPid where
  __ := h
  pid j hj := ⟨(h.pid j hj).1, (h.pid j hj).2.trans (Int.lt_succ _)⟩

theorem free (h : Kin d) (hj : (d.proc j).state = .zombie) : Kin (d.modify j fun _ => freed) := by
  have hlive : (d.proc j).state ≠ .live := by rw [hj]; decide
  exact h.set ⟨h.ne_init hlive, fun _ => rfl, .inr (h.childless hlive), nofun,
    by simp [freed], fun hstate => absurd rfl hstate, le_rfl⟩

theorem link (h : Kin d) (hj : (d.proc j).state = .used) (ht : (d.proc t).state = .live)
    (hpid : (d.proc t).pid < (d.proc j).pid) :
    Kin (d.modify j fun m => { m with parent := some t }) := by
  have hlive : (d.proc j).state ≠ .live := by rw [hj]; decide
  have hused : (d.proc j).state ≠ .unused := by rw [hj]; decide
  refine h.set ⟨h.ne_init hlive, fun hstate => absurd hstate hused, .inr (h.childless hlive), ?_,
    nofun, fun _ => ⟨(h.pid j hused).1, (h.pid j hused).2, h.pid_unique hused⟩, le_rfl⟩
  rintro q ⟨⟩
  refine ⟨?_, ht, .inr hpid⟩
  rintro rfl
  exact hlive ht

theorem start (h : Kin d) (hj : (d.proc j).state = .used) (hparent : (d.proc j).parent = some t) :
    Kin (d.modify j fun m => { m with state := .live }) := by
  have hlive : (d.proc j).state ≠ .live := by rw [hj]; decide
  have hused : (d.proc j).state ≠ .unused := by rw [hj]; decide
  refine h.set ⟨h.ne_init hlive, nofun, .inr (h.childless hlive), fun q hq => ?_,
    fun _ hnone => ?_, fun _ => ⟨(h.pid j hused).1, (h.pid j hused).2, h.pid_unique hused⟩, le_rfl⟩
  · refine ⟨?_, h.parent_live j q hq, h.older j q hq⟩
    rintro rfl
    exact hlive (h.parent_live q q hq)
  · rw [hparent] at hnone
    cases hnone

theorem adopt (h : Kin d) (hparent : (d.proc j).parent = some t) :
    Kin (d.modify j fun m => { m with parent := some initproc }) := by
  have hinit : j ≠ initproc := by
    rintro rfl
    rw [h.init_parent] at hparent
    cases hparent
  have hused : (d.proc j).state ≠ .unused := by
    intro hj
    rw [h.parent_none hj] at hparent
    cases hparent
  refine h.set ⟨hinit, fun hstate => absurd hstate hused, ?_, ?_, nofun,
    fun _ => ⟨(h.pid j hused).1, (h.pid j hused).2, h.pid_unique hused⟩, le_rfl⟩
  · by_cases hlive : (d.proc j).state = .live
    · exact .inl ⟨hlive, rfl⟩
    · exact .inr (h.childless hlive)
  · rintro q ⟨⟩
    exact ⟨hinit.symm, h.init_live, .inl rfl⟩

theorem die (h : Kin d) (hj : (d.proc j).state = .live) (hinit : j ≠ initproc)
    (hnone : ∀ k, (d.proc k).parent ≠ some j) :
    Kin (d.modify j fun m => { m with xstate := status, state := .zombie }) := by
  have hused : (d.proc j).state ≠ .unused := by rw [hj]; decide
  refine h.set ⟨hinit, nofun, .inr hnone, fun q hq => ⟨?_, h.parent_live j q hq, h.older j q hq⟩,
    fun _ => h.has_parent j (.inl hj) hinit,
    fun _ => ⟨(h.pid j hused).1, (h.pid j hused).2, h.pid_unique hused⟩, le_rfl⟩
  rintro rfl
  exact hnone q hq

end Kin

/-! ### The processes -/

/-- The slot that `kfork` fills at this point. -/
def Point.forks : Point → Option Slot
  | .forking np | .forked np | .starting np => some np
  | _ => none

/-- What process `t` knows at a point, whether it holds `wait_lock` or not. -/
def At (d : Table) (t : Slot) : Point → Prop
  | .user | .dead _ => True
  | .forking np => (d.proc t).state = .live ∧ (d.proc np).state = .used ∧
      (d.proc np).parent = none ∧ (d.proc t).pid < (d.proc np).pid
  | .forked np | .starting np => (d.proc t).state = .live ∧ (d.proc np).state = .used ∧
      (d.proc np).parent = some t
  | .reparenting _ j => (d.proc t).state = .live ∧ t ≠ initproc ∧
      ∀ k : Slot, k < j → (d.proc k).parent ≠ some t
  | .adopting _ j => (d.proc t).state = .live ∧ t ≠ initproc ∧
      ∀ k : Slot, k ≤ j → (d.proc k).parent ≠ some t
  | .dying _ _ => (d.proc t).state = .live ∧ t ≠ initproc ∧ ∀ k, (d.proc k).parent ≠ some t
  | .scanning _ _ | .reaped _ _ | .waited _ => (d.proc t).state = .live

/-- **The invariant**: the table, what each process knows, and that each slot in use that has not
    started is filled by one process. -/
structure Family (d : Table) (pt : Slot → Point) : Prop where
  kin : Kin d
  knows : ∀ t, At d t (pt t)
  one : ∀ t u np, (pt t).forks = some np → (pt u).forks = some np → t = u
  forker : ∀ np, (d.proc np).state = .used → ∃ t, (pt t).forks = some np

theorem At.used {d : Table} {p : Point} (h : At d t p) (hp : p.forks = some np) :
    (d.proc np).state = .used := by
  cases p with
  | forking => cases hp; exact h.2.1
  | forked => cases hp; exact h.2.1
  | starting => cases hp; exact h.2.1
  | _ => cases hp

theorem At.live_of_forks {d : Table} {p : Point} (h : At d t p) (hp : p.forks = some np) :
    (d.proc t).state = .live := by
  cases p with
  | forking => exact h.1
  | forked => exact h.1
  | starting => exact h.1
  | _ => cases hp

/-- The process is in `kexit`, and not a zombie. -/
def Point.exiting : Point → Bool
  | .reparenting _ _ | .adopting _ _ | .dying _ _ => true
  | _ => false

theorem At.live_of_exiting {d : Table} {p : Point} (h : At d t p) (hp : p.exiting = true) :
    (d.proc t).state = .live := by
  cases p with
  | reparenting => exact h.1
  | adopting => exact h.1
  | dying => exact h.1
  | _ => cases hp

/-- The parent of a new process is its forker, or nobody yet. -/
theorem At.parent {d : Table} {q : Slot} {p : Point} (h : At d t p) (hp : p.forks = some np)
    (hq : (d.proc np).parent = some q) : q = t := by
  cases p with
  | forking =>
    cases hp
    rw [h.2.2.1] at hq
    cases hq
  | forked =>
    cases hp
    rw [h.2.2] at hq
    exact (Option.some.inj hq).symm
  | starting =>
    cases hp
    rw [h.2.2] at hq
    exact (Option.some.inj hq).symm
  | _ => cases hp

/-- **Frame lemma**: what a step of another process must leave alone. -/
theorem At.frame {d d' : Table} {p : Point} (h : At d t p) (hlive : (d.proc t).state = .live →
      (d'.proc t).state = .live ∧ (d'.proc t).pid = (d.proc t).pid)
    (hforks : ∀ np, p.forks = some np → d'.proc np = d.proc np)
    (hkids : t ≠ initproc → ∀ k, (d.proc k).parent ≠ some t → (d'.proc k).parent ≠ some t) :
    At d' t p := by
  cases p with
  | user => trivial
  | dead => trivial
  | forking np =>
    obtain ⟨ht, hnp⟩ := h
    rw [At, hforks np rfl, (hlive ht).2]
    exact ⟨(hlive ht).1, hnp⟩
  | forked np =>
    rw [At, hforks np rfl]
    exact ⟨(hlive h.1).1, h.2⟩
  | starting np =>
    rw [At, hforks np rfl]
    exact ⟨(hlive h.1).1, h.2⟩
  | reparenting st j => exact ⟨(hlive h.1).1, h.2.1, fun k hk => hkids h.2.1 k (h.2.2 k hk)⟩
  | adopting st j => exact ⟨(hlive h.1).1, h.2.1, fun k hk => hkids h.2.1 k (h.2.2 k hk)⟩
  | dying st c => exact ⟨(hlive h.1).1, h.2.1, fun k => hkids h.2.1 k (h.2.2 k)⟩
  | scanning j hk => exact (hlive h).1
  | reaped pid st => exact (hlive h).1
  | waited r => exact (hlive h).1

theorem At.modify {d : Table} {f : Member → Member} {p : Point} (h : At d t p)
    (hlive : (d.proc j).state = .live →
      t ≠ j ∨ (f (d.proc j)).state = .live ∧ (f (d.proc j)).pid = (d.proc j).pid)
    (hforks : p.forks ≠ some j)
    (hkids : t ≠ initproc → (d.proc j).parent ≠ some t → (f (d.proc j)).parent ≠ some t) :
    At (d.modify j f) t p := by
  refine h.frame (fun ht => ?_) (fun np hnp => ?_) fun hinit k hk => ?_
  · by_cases htj : t = j
    · subst htj
      rw [Table.modify_proc_self]
      exact (hlive ht).resolve_left (not_not_intro rfl)
    · rw [Table.modify_proc_of_ne htj]
      exact ⟨ht, rfl⟩
  · rw [Table.modify_proc_of_ne]
    rintro rfl
    exact hforks hnp
  · by_cases hkj : k = j
    · subst hkj
      rw [Table.modify_proc_self]
      exact hkids hinit hk
    · rw [Table.modify_proc_of_ne hkj]
      exact hk

namespace Family

variable {d d' : Table} {pt : Slot → Point} {t : Slot} {i : Input} {q : Point}

/-- A step of process `t`, from what it does to the table and to the other processes. -/
theorem move (h : Family d pt) (hkin : Kin d') (hat : At d' t q)
    (hframe : ∀ v, v ≠ t → At d' v (pt v))
    (hone : ∀ u np, u ≠ t → q.forks = some np → (pt u).forks ≠ some np)
    (hforker : ∀ np, (d'.proc np).state = .used →
      q.forks = some np ∨ (d.proc np).state = .used ∧ (pt t).forks ≠ some np) :
    Family d' (Function.update pt t q) := by
  have hself : Function.update pt t q t = q := Function.update_self ..
  have hother : ∀ v, v ≠ t → Function.update pt t q v = pt v := fun v hv =>
    Function.update_of_ne hv ..
  refine ⟨hkin, fun v => ?_, fun u v np hu hv => ?_, fun np hnp => ?_⟩
  · by_cases hv : v = t
    · subst hv
      rw [hself]
      exact hat
    · rw [hother v hv]
      exact hframe v hv
  · by_cases hut : u = t <;> by_cases hvt : v = t
    · rw [hut, hvt]
    · rw [hut, hself] at hu
      rw [hother v hvt] at hv
      exact absurd hv (hone v np hvt hu)
    · rw [hvt, hself] at hv
      rw [hother u hut] at hu
      exact absurd hu (hone u np hut hv)
    · rw [hother u hut] at hu
      rw [hother v hvt] at hv
      exact h.one u v np hu hv
  · obtain hq | ⟨hnp, ht⟩ := hforker np hnp
    · exact ⟨t, by rw [hself, hq]⟩
    · obtain ⟨u, hu⟩ := h.forker np hnp
      refine ⟨u, ?_⟩
      rw [hother u]
      · exact hu
      · rintro rfl
        exact ht hu

theorem go (h : Family d pt) (hat : At d t q) (hforks : q.forks = (pt t).forks) :
    Family d (Function.update pt t q) := by
  refine h.move h.kin hat (fun v _ => h.knows v) (fun u np hu hq hnp => ?_) fun np hnp => ?_
  · rw [hforks] at hq
    exact hu (h.one u t np hnp hq)
  · by_cases hq : q.forks = some np
    · exact .inl hq
    · exact .inr ⟨hnp, hforks ▸ hq⟩

theorem not_forks (h : Family d pt) (hj : (d.proc j).state ≠ .used) (v : Slot) :
    (pt v).forks ≠ some j :=
  fun hv => hj ((h.knows v).used hv)

theorem fork (h : Family d pt) (hpt : pt t = .user) (hlive : (d.proc t).state = .live)
    (hnp : (d.proc np).state = .unused) :
    Family (d.modify np fun m => { m with state := .used, pid := d.nextpid }).drawPid
      (Function.update pt t (.forking np)) := by
  have hused : (d.proc np).state ≠ .used := by rw [hnp]; decide
  have htnp : t ≠ np := by
    rintro rfl
    rw [hlive] at hnp
    cases hnp
  refine h.move (h.kin.alloc hnp) ⟨?_, ?_, ?_, ?_⟩ (fun v _ => ?_) ?_ fun k hk => ?_
  · rw [Table.drawPid_proc, Table.modify_proc_of_ne htnp, hlive]
  · rw [Table.drawPid_proc, Table.modify_proc_self]
  · rw [Table.drawPid_proc, Table.modify_proc_self]
    exact h.kin.parent_none hnp
  · rw [Table.drawPid_proc, Table.modify_proc_of_ne htnp, Table.modify_proc_self]
    exact (h.kin.pid t (by rw [hlive]; decide)).2
  · have hat : At (d.modify np fun m => { m with state := .used, pid := d.nextpid }) v (pt v) := by
      refine (h.knows v).modify (fun hv => ?_) (h.not_forks hused v) fun _ => id
      rw [hnp] at hv
      cases hv
    exact hat
  · rintro u k - ⟨⟩
    exact h.not_forks hused u
  · rw [Table.drawPid_proc] at hk
    by_cases hknp : k = np
    · exact .inl (by rw [hknp]; rfl)
    · rw [Table.modify_proc_of_ne hknp] at hk
      exact .inr ⟨hk, by rw [hpt]; nofun⟩

theorem noFork (h : Family d pt) (hpt : pt t = .user) (hnp : (d.proc np).state = .unused) :
    Family (d.modify np fun _ => freed).drawPid (Function.update pt t .user) := by
  -- the slot was as `freeproc` leaves it, so only the pid counter changes
  have hproc : (d.modify np fun _ => freed).drawPid = d.drawPid := by
    rw [Table.modify, ← h.kin.unused np hnp, Function.update_eq_self]
  rw [hproc]
  refine h.move h.kin.drawPid trivial (fun v _ => h.knows v) nofun fun k hk => .inr ⟨hk, ?_⟩
  rw [hpt]
  nofun

theorem start (h : Family d pt) (hpt : pt t = .starting np) :
    Family (d.modify np fun m => { m with state := .live }) (Function.update pt t .user) := by
  have hknows := h.knows t
  rw [hpt] at hknows
  obtain ⟨-, hused, hparent⟩ := hknows
  refine h.move (h.kin.start hused hparent) trivial (fun v hv => ?_) nofun fun k hk => ?_
  · refine (h.knows v).modify (fun hnp => ?_) (fun hforks => ?_) fun _ => id
    · rw [hused] at hnp
      cases hnp
    · exact hv (h.one v t np hforks (by rw [hpt]; rfl))
  · have hknp : k ≠ np := by
      rintro rfl
      rw [Table.modify_proc_self] at hk
      cases hk
    rw [Table.modify_proc_of_ne hknp] at hk
    refine .inr ⟨hk, ?_⟩
    rw [hpt]
    rintro ⟨⟩
    exact hknp rfl

theorem link (h : Family d pt) (hpt : pt t = .forking np) :
    Family (d.modify np fun m => { m with parent := some t })
      (Function.update pt t (.forked np)) := by
  have hknows := h.knows t
  rw [hpt] at hknows
  obtain ⟨hlive, hused, hnone, hpid⟩ := hknows
  have htnp : t ≠ np := by
    rintro rfl
    rw [hlive] at hused
    cases hused
  refine h.move (h.kin.link hused hlive hpid) ⟨?_, ?_, ?_⟩ (fun v hv => ?_) ?_ fun k hk => ?_
  · rw [Table.modify_proc_of_ne htnp, hlive]
  · rw [Table.modify_proc_self]
    exact hused
  · rw [Table.modify_proc_self]
  · refine (h.knows v).modify (fun hnp => ?_) (fun hforks => ?_) fun _ _ hp => ?_
    · rw [hused] at hnp
      cases hnp
    · exact hv (h.one v t np hforks (by rw [hpt]; rfl))
    · exact hv (Option.some.inj hp).symm
  · rintro u k hu ⟨⟩ hforks
    exact hu (h.one u t np hforks (by rw [hpt]; rfl))
  · by_cases hknp : k = np
    · exact .inl (by rw [hknp]; rfl)
    · rw [Table.modify_proc_of_ne hknp] at hk
      refine .inr ⟨hk, ?_⟩
      rw [hpt]
      rintro ⟨⟩
      exact hknp rfl

theorem modify (h : Family d pt) {f : Member → Member} (hp : (pt t).forks = none)
    (hq : q.forks = none) (hkin : Kin (d.modify j f)) (hat : At (d.modify j f) t q)
    (hframe : ∀ v, v ≠ t → At (d.modify j f) v (pt v))
    (hused : (f (d.proc j)).state = .used → (d.proc j).state = .used) :
    Family (d.modify j f) (Function.update pt t q) := by
  refine h.move hkin hat hframe (fun _ _ _ hf => absurd (hq.symm.trans hf) nofun) fun np hnp => ?_
  refine .inr ⟨?_, fun hf => absurd (hp.symm.trans hf) nofun⟩
  by_cases hj : np = j
  · subst hj
    rw [Table.modify_proc_self] at hnp
    exact hused hnp
  · rw [Table.modify_proc_of_ne hj] at hnp
    exact hnp

theorem adopt (h : Family d pt) (hpt : pt t = .reparenting status j)
    (hj : (d.proc j).parent = some t) :
    Family (d.modify j fun m => { m with parent := some initproc })
      (Function.update pt t (.adopting status j)) := by
  have hknows := h.knows t
  rw [hpt] at hknows
  obtain ⟨hlive, hinit, hkids⟩ := hknows
  refine h.modify (by rw [hpt]; rfl) rfl (h.kin.adopt hj) ⟨?_, hinit, fun k hk => ?_⟩
    (fun v hv => ?_) id
  · by_cases htj : t = j
    · subst htj
      rw [Table.modify_proc_self]
      exact hlive
    · rw [Table.modify_proc_of_ne htj]
      exact hlive
  · by_cases hkj : k = j
    · subst hkj
      rw [Table.modify_proc_self]
      exact fun hinit' => hinit (Option.some.inj hinit').symm
    · rw [Table.modify_proc_of_ne hkj]
      exact hkids k (lt_of_le_of_ne hk fun hval => hkj (Fin.ext hval))
  · refine (h.knows v).modify (fun hj => .inr ⟨hj, rfl⟩) (fun hforks => ?_) fun hv _ hinit' => ?_
    · exact hv ((h.knows v).parent hforks hj).symm
    · exact hv (Option.some.inj hinit').symm

theorem die (h : Family d pt) {c : Option Slot} (hpt : pt t = .dying status c) :
    Family (d.modify t fun m => { m with xstate := status, state := .zombie })
      (Function.update pt t (.dead c)) := by
  have hknows := h.knows t
  rw [hpt] at hknows
  obtain ⟨hlive, hinit, hkids⟩ := hknows
  refine h.modify (by rw [hpt]; rfl) rfl (h.kin.die hlive hinit hkids) trivial
    (fun v hv => ?_) nofun
  exact (h.knows v).modify (fun _ => .inl hv) (h.not_forks (by rw [hlive]; decide) v) fun _ => id

theorem reap (h : Family d pt) {havekids : Bool} {pid : ℤ} (hpt : pt t = .scanning j havekids)
    (hz : (d.proc j).state = .zombie) :
    Family (d.modify j fun _ => freed) (Function.update pt t (.reaped pid status)) := by
  have hlive := h.knows t
  rw [hpt] at hlive
  have htj : t ≠ j := by
    rintro rfl
    rw [At, hz] at hlive
    cases hlive
  refine h.modify (by rw [hpt]; rfl) rfl (h.kin.free hz) ?_ (fun v hv => ?_) nofun
  · rw [At, Table.modify_proc_of_ne htj]
    exact hlive
  · refine (h.knows v).modify (fun hj => ?_) (h.not_forks (by rw [hz]; decide) v) fun _ _ => nofun
    rw [hz] at hj
    cases hj

/-- **Step lemma**, without `wait_lock`. -/
theorem frees (h : Family d pt) (hfree : Frees t i d (pt t) d' q) :
    Family d' (Function.update pt t q) := by
  generalize hpt : pt t = p at hfree
  cases hfree with
  | fork hi hlive hnp => exact h.fork hpt hlive hnp
  | noFork hi hnp => exact h.noFork hpt hnp
  | exit hi hlive hinit =>
    exact h.go ⟨hlive, hinit, fun k hk => absurd hk (Nat.not_lt_zero _)⟩ (by rw [hpt]; rfl)
  | wait hlive => exact h.go hlive (by rw [hpt]; rfl)
  | start => exact h.start hpt
  | back => exact h.go trivial (by rw [hpt]; rfl)

/-- **Step lemma**, under `wait_lock`. -/
theorem acts (h : Family d pt) {a : Monitor.Act Table Point (Option Slot)}
    (hact : Acts t i d (pt t) a) : Family (a.data d) (Function.update pt t a.point) := by
  have hknows := h.knows t
  generalize hpt : pt t = p at hact hknows
  cases hact with
  | link => exact h.link hpt
  | linked => exact h.go hknows (by rw [hpt]; rfl)
  | adopt hj => exact h.adopt hpt hj
  | @pass status j hj =>
    refine h.go ⟨hknows.1, hknows.2.1, fun k hk => ?_⟩ (by rw [hpt]; rfl)
    obtain hk | hk := Nat.lt_succ_iff_lt_or_eq.mp hk
    · exact hknows.2.2 k hk
    · rw [Fin.ext hk]
      exact hj
  | adopted =>
    refine h.go ⟨hknows.1, hknows.2.1, fun k hk => ?_⟩ (by rw [hpt]; rfl)
    exact hknows.2.2 k (Nat.lt_succ_iff.mp hk)
  | wakeParent hj =>
    exact h.go ⟨hknows.1, hknows.2.1, fun k => hknows.2.2 k (k.isLt.trans_le hj)⟩ (by rw [hpt]; rfl)
  | die => exact h.die hpt
  | leave => exact h.go trivial (by rw [hpt]; rfl)
  | reap hi hj hz => exact h.reap hpt hz
  | deliver => exact h.go hknows (by rw [hpt]; rfl)
  | _ => exact h.go hknows (by rw [hpt]; rfl)

end Family

def Good (s : Monitor.State Slot Table Point (Option Slot)) : Prop := Family s.shared s.points

variable {s s' : Monitor.State Slot Table Point (Option Slot)}

theorem step_good {all : List Slot} {e : Monitor.Event Slot Input} (h : Good s)
    (hstep : Monitor.step program all s e = some s') : Good s' :=
  Monitor.step_points (J := Family) (fun _ _ _ _ _ hf => h.frees (free_frees hf))
    (fun _ _ _ _ _ ha => h.acts (locked_acts ha)) h hstep

theorem userinit_proc (hj : j ≠ initproc) : userinit.proc j = freed := if_neg hj

theorem userinit_parent (j : Slot) : (userinit.proc j).parent = none := by
  by_cases hj : j = initproc
  · rw [hj]
    rfl
  · rw [userinit_proc hj]
    rfl

theorem start_good : Good start where
  kin := by
    have hfreed : ∀ j, (userinit.proc j).state ≠ .unused → j = initproc := by
      intro j hj
      by_contra hne
      rw [userinit_proc hne] at hj
      exact hj rfl
    refine ⟨rfl, rfl, fun j hj => ?_, fun j q hq => ?_, fun j hj hne => ?_, fun j hj => ?_,
      fun j k hj hk _ => (hfreed j hj).trans (hfreed k hk).symm, fun j q hq => ?_⟩
    · refine userinit_proc ?_
      rintro rfl
      cases hj
    · exact absurd ((userinit_parent j).symm.trans hq) nofun
    · have hj' : (userinit.proc j).state ≠ .unused := by
        obtain hj | hj := hj <;> exact fun hu => absurd (hj.symm.trans hu) (by decide)
      exact absurd (hfreed j hj') hne
    · rw [hfreed j hj]
      decide
    · exact absurd ((userinit_parent j).symm.trans hq) nofun
  knows _ := trivial
  one _ _ _ h := nomatch h
  forker np h := by
    by_cases hnp : np = initproc
    · rw [hnp] at h
      cases h
    · have hstate : (userinit.proc np).state = .used := h
      rw [userinit_proc hnp] at hstate
      cases hstate

/-! ### The tree -/

end MiniOs.Xv6.Families
