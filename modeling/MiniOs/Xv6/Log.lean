import Mathlib.Algebra.BigOperators.Group.Finset.Basic
import Mathlib.Algebra.BigOperators.Ring.Finset
import Mathlib.Algebra.Order.BigOperators.Group.Finset
import Mathlib.Data.Fintype.BigOperators
import MiniOs.Lib.Monitor

/-!
# The log

`log.c`: file system operations run between `begin_op` and `end_op`, and write blocks with
`log_write`. The last operation to end commits the blocks of all of them. Every thread may read
blocks at any time, and the buffer cache may drop a block that nobody uses.

`log.lock` makes the functions a monitor. A commit runs without the lock, one disk write after
the other. The disk writes a block as a whole.

Of `bio.c`, each buffer is modelled by what it holds of its block, its reference count and the
owner of its sleep lock. `bread` waits for the owner, so it is enabled when there is none. The
number of buffers is not limited here. An operation calls `log_write` right after it has changed
a buffer; all callers in `fs.c` do, but for `writei` when its copy from user memory fails halfway.
The blocks of the on-disk log are used by one thread at a time and written at once, so they are
read from the disk.
-/

namespace MiniOs.Xv6.Logs

open Trace

def maxOpBlocks : ℕ := 10

/-- `LOGBLOCKS` of `param.h`. -/
def logBlocks : ℕ := maxOpBlocks * 3

/-- The disk: the log header, the logged blocks, and the blocks at home. -/
structure Disk (β : Type*) where
  head : List ℕ
  log : ℕ → β
  home : ℕ → β

/-- `struct buf`; `data` is `none` if the block is not cached. -/
structure Buf (τ β : Type*) where
  data : Option β
  refcnt : ℕ
  owner : Option τ

structure Log (τ β : Type*) where
  outstanding : ℕ
  committing : Bool
  ncommit : ℕ
  lh : List ℕ
  buf : ℕ → Buf τ β
  disk : Disk β

inductive Input (β : Type*) where
  | beginOp
  | endOp
  | bread (b : ℕ)
  | brelse (b : ℕ)
  /-- Change a buffer, and call `log_write`. -/
  | update (b : ℕ) (v : β)
  /-- Change a buffer, and do not call `log_write`. -/
  | scribble (b : ℕ) (v : β)
  /-- `bget` takes the buffer of this block for another one. -/
  | recycle (b : ℕ)
  | sync
  /-- The next step of a function. -/
  | go
  deriving DecidableEq, Repr

inductive Point where
  | idle
  /-- In `begin_op`. -/
  | beginning
  | begun
  /-- In an operation that has logged these blocks. -/
  | inOp (ws : List ℕ)
  /-- In `log_write`. -/
  | logging (b : ℕ) (ws : List ℕ)
  | logged (ws : List ℕ)
  /-- In `end_op`. -/
  | ending
  | endedLast
  | endedOther
  | leaving
  /-- In `commit`: at its start, in `write_log`, in `write_head`, in `install_trans`, in the
      second `write_head`. -/
  | commit
  | writeLog (tail : ℕ)
  | writeHead
  | install (tail : ℕ)
  | clearHead
  /-- In `end_op`, after `commit`. -/
  | finishing
  | finished
  /-- In `sys_sync`. -/
  | syncing
  | syncWait (n : ℕ)
  /-- A panic of `log_write`, with the buffer that it was called for, and one of `end_op`. -/
  | logPanic (b : ℕ)
  | endPanic
  deriving DecidableEq, Repr

section Model

variable {τ β : Type*}

/-- What a thread that reads block `b` sees. -/
def Log.view (d : Log τ β) (b : ℕ) : β := (d.buf b).data.getD (d.disk.home b)

/-- Change the buffer of block `b`. -/
def Log.setBuf (d : Log τ β) (b : ℕ) (f : Buf τ β → Buf τ β) : Log τ β :=
  { d with buf := Function.update d.buf b (f (d.buf b)) }

def bread (t : τ) (d : Log τ β) (b : ℕ) : Log τ β :=
  d.setBuf b fun x => ⟨some (d.view b), x.refcnt + 1, some t⟩

def brelse (d : Log τ β) (b : ℕ) : Log τ β :=
  d.setBuf b fun x => { x with refcnt := x.refcnt - 1, owner := none }

/-- `bget` finds the buffer unused and takes it. -/
def recycle (d : Log τ β) (b : ℕ) : Log τ β := d.setBuf b fun x => { x with data := none }

/-- An operation has changed the buffer. -/
def change (d : Log τ β) (b : ℕ) (v : β) : Log τ β := d.setBuf b fun x => { x with data := some v }

def append (d : Log τ β) (b : ℕ) : Log τ β :=
  { d.setBuf b fun x => { x with refcnt := x.refcnt + 1 } with lh := d.lh ++ [b] }

def logBlock (d : Log τ β) (tail b : ℕ) : Log τ β :=
  { d.setBuf b fun x => { x with data := some (d.view b) } with
    disk := { d.disk with log := Function.update d.disk.log tail (d.view b) } }

def writeHead (d : Log τ β) : Log τ β := { d with disk := { d.disk with head := d.lh } }

/-- One round of `install_trans`, with `bunpin`. -/
def installBlock (d : Log τ β) (tail b : ℕ) : Log τ β :=
  { d.setBuf b fun x => { x with data := some (d.disk.log tail), refcnt := x.refcnt - 1 } with
    disk := { d.disk with home := Function.update d.disk.home b (d.disk.log tail) } }

/-- Steps under `log.lock`. -/
def locked (d : Log τ β) : Point → Option (Monitor.Act (Log τ β) Point Unit)
  | .beginning =>
    if d.committing then some (.sleep () .beginning)
    else if logBlocks < d.lh.length + (d.outstanding + 1) * maxOpBlocks then
      some (.sleep () .beginning)
    else some (.write { d with outstanding := d.outstanding + 1 } .begun)
  | .begun => some (.release (.inOp []))
  | .logging b ws =>
    if logBlocks ≤ d.lh.length then some (.write d (.logPanic b))
    else if d.outstanding < 1 then some (.write d (.logPanic b))
    else if b ∈ d.lh then some (.write d (.logged (ws.insert b)))
    else some (.write (append d b) (.logged (ws.insert b)))
  | .logged ws => some (.release (.inOp ws))
  | .ending =>
    if d.committing then
      some (.write { d with outstanding := d.outstanding - 1 } .endPanic)
    else if d.outstanding - 1 = 0 then
      some (.write { d with outstanding := d.outstanding - 1, committing := true } .endedLast)
    else some (.write { d with outstanding := d.outstanding - 1 } .endedOther)
  | .endedLast => some (.release .commit)
  | .endedOther => some (.wakeup () .leaving)
  | .leaving => some (.release .idle)
  | .finishing =>
    some (.write { d with committing := false, ncommit := d.ncommit + 1 } .finished)
  | .finished => some (.wakeup () .leaving)
  | .syncing =>
    if d.committing = true ∨ 0 < d.outstanding then some (.write d (.syncWait (d.ncommit + 1)))
    else some (.release .idle)
  | .syncWait n => if d.ncommit < n then some (.sleep () (.syncWait n)) else some (.release .idle)
  | _ => none

/-- The thread is between two calls. -/
def Point.calls : Point → Bool
  | .idle | .inOp _ => true
  | _ => false

def commitStep (d : Log τ β) : Point → Option (Log τ β × Point)
  | .commit => some (d, if d.lh = [] then .finishing else .writeLog 0)
  | .writeLog tail =>
    match d.lh[tail]? with
    | some b =>
      if (d.buf b).owner = none then some (logBlock d tail b, .writeLog (tail + 1)) else none
    | none => some (d, .writeHead)
  | .writeHead => some (writeHead d, .install 0)
  | .install tail =>
    match d.lh[tail]? with
    | some b =>
      if (d.buf b).owner = none then some (installBlock d tail b, .install (tail + 1)) else none
    | none => some ({ d with lh := [] }, .clearHead)
  | .clearHead => some (writeHead d, .finishing)
  | _ => none

/-- Steps without `log.lock`. -/
def free [DecidableEq τ] (t : τ) (i : Input β) (d : Log τ β) (p : Point) :
    Option (Log τ β × Point) :=
  match i with
  | .beginOp => if p = .idle then some (d, .beginning) else none
  | .sync => if p = .idle then some (d, .syncing) else none
  | .bread b => if p.calls = true ∧ (d.buf b).owner = none then some (bread t d b, p) else none
  | .brelse b => if p.calls = true ∧ (d.buf b).owner = some t then some (brelse d b, p) else none
  | .recycle b => if (d.buf b).refcnt = 0 then some (recycle d b, p) else none
  | .update b v =>
    match p with
    | .inOp ws => if (d.buf b).owner = some t then some (change d b v, .logging b ws) else none
    | _ => none
  | .scribble b v =>
    match p with
    | .inOp ws => if (d.buf b).owner = some t then some (change d b v, .inOp ws) else none
    | _ => none
  | .endOp =>
    match p with
    | .inOp _ => some (d, .ending)
    | _ => none
  | .go => commitStep d p

def program [DecidableEq τ] : Monitor.Program τ (Input β) (Log τ β) Point Unit where
  acquires
    | .beginning | .logging _ _ | .ending | .finishing | .syncing => true
    | _ => false
  free := free
  locked _ _ d p := locked d p

/-- After recovery: nothing is logged or cached. -/
def boot (disk : Disk β) : Log τ β := ⟨0, false, 0, [], fun _ => ⟨none, 0, none⟩, disk⟩

/-- The threads after recovery. -/
def start (disk : Disk β) : Monitor.State τ (Log τ β) Point Unit :=
  ⟨boot disk, none, fun _ => .free .idle⟩

/-! ### What the steps do -/

/-- A step without `log.lock`, with what it needs. -/
inductive Frees (t : τ) (i : Input β) (d : Log τ β) : Point → Log τ β → Point → Prop where
  | recycle {b : ℕ} {p : Point} (href : (d.buf b).refcnt = 0) : Frees t i d p (recycle d b) p
  | beginOp : Frees t i d .idle d .beginning
  | sync : Frees t i d .idle d .syncing
  | bread {b : ℕ} {p : Point} (hp : p.calls = true) (hb : (d.buf b).owner = none) :
      Frees t i d p (bread t d b) p
  | brelse {b : ℕ} {p : Point} (hp : p.calls = true) (hb : (d.buf b).owner = some t) :
      Frees t i d p (brelse d b) p
  | update {b : ℕ} {v : β} {ws : List ℕ} (hi : i = .update b v) (hb : (d.buf b).owner = some t) :
      Frees t i d (.inOp ws) (change d b v) (.logging b ws)
  | scribble {b : ℕ} {v : β} {ws : List ℕ} (hi : i = .scribble b v)
      (hb : (d.buf b).owner = some t) : Frees t i d (.inOp ws) (change d b v) (.inOp ws)
  | endOp {ws : List ℕ} : Frees t i d (.inOp ws) d .ending
  | nothing (hlh : d.lh = []) : Frees t i d .commit d .finishing
  | something (hlh : d.lh ≠ []) : Frees t i d .commit d (.writeLog 0)
  | log {tail b : ℕ} (htail : d.lh[tail]? = some b) (hb : (d.buf b).owner = none) :
      Frees t i d (.writeLog tail) (logBlock d tail b) (.writeLog (tail + 1))
  | logDone {tail : ℕ} (htail : d.lh.length ≤ tail) : Frees t i d (.writeLog tail) d .writeHead
  | head : Frees t i d .writeHead (writeHead d) (.install 0)
  | install {tail b : ℕ} (htail : d.lh[tail]? = some b) (hb : (d.buf b).owner = none) :
      Frees t i d (.install tail) (installBlock d tail b) (.install (tail + 1))
  | installDone {tail : ℕ} (htail : d.lh.length ≤ tail) :
      Frees t i d (.install tail) { d with lh := [] } .clearHead
  | clear : Frees t i d .clearHead (writeHead d) .finishing

theorem commitStep_frees {t : τ} {i : Input β} {d d' : Log τ β} {p q : Point}
    (h : commitStep d p = some (d', q)) : Frees t i d p d' q := by
  cases p with
  | commit =>
    cases h
    split
    · next hlh => exact .nothing hlh
    · next hlh => exact .something hlh
  | writeLog tail =>
    rw [commitStep] at h
    cases htail : d.lh[tail]? with
    | some b =>
      simp only [htail, Option.ite_none_right_eq_some] at h
      obtain ⟨hb, h⟩ := h
      cases h
      exact .log htail hb
    | none =>
      simp only [htail] at h
      cases h
      exact .logDone (List.getElem?_eq_none_iff.mp htail)
  | writeHead =>
    cases h
    exact .head
  | install tail =>
    rw [commitStep] at h
    cases htail : d.lh[tail]? with
    | some b =>
      simp only [htail, Option.ite_none_right_eq_some] at h
      obtain ⟨hb, h⟩ := h
      cases h
      exact .install htail hb
    | none =>
      simp only [htail] at h
      cases h
      exact .installDone (List.getElem?_eq_none_iff.mp htail)
  | clearHead =>
    cases h
    exact .clear
  | _ => cases h

/-- **Inversion** of a step without `log.lock`. -/
theorem free_frees [DecidableEq τ] {t : τ} {i : Input β} {d d' : Log τ β} {p q : Point}
    (h : free t i d p = some (d', q)) : Frees t i d p d' q := by
  cases i with
  | beginOp =>
    rw [free, Option.ite_none_right_eq_some] at h
    obtain ⟨rfl, h⟩ := h
    cases h
    exact .beginOp
  | sync =>
    rw [free, Option.ite_none_right_eq_some] at h
    obtain ⟨rfl, h⟩ := h
    cases h
    exact .sync
  | bread b =>
    rw [free, Option.ite_none_right_eq_some] at h
    obtain ⟨⟨hp, hb⟩, h⟩ := h
    cases h
    exact .bread hp hb
  | brelse b =>
    rw [free, Option.ite_none_right_eq_some] at h
    obtain ⟨⟨hp, hb⟩, h⟩ := h
    cases h
    exact .brelse hp hb
  | recycle b =>
    rw [free, Option.ite_none_right_eq_some] at h
    obtain ⟨href, h⟩ := h
    cases h
    exact .recycle href
  | update b v =>
    cases p with
    | inOp ws =>
      simp only [free, Option.ite_none_right_eq_some] at h
      obtain ⟨hb, h⟩ := h
      cases h
      exact .update rfl hb
    | _ => cases h
  | scribble b v =>
    cases p with
    | inOp ws =>
      simp only [free, Option.ite_none_right_eq_some] at h
      obtain ⟨hb, h⟩ := h
      cases h
      exact .scribble rfl hb
    | _ => cases h
  | endOp =>
    cases p with
    | inOp ws =>
      cases h
      exact .endOp
    | _ => cases h
  | go => exact commitStep_frees h

/-- A step under `log.lock`, with what it needs. -/
inductive Acts (d : Log τ β) : Point → Monitor.Act (Log τ β) Point Unit → Prop where
  | full (h : d.committing = true ∨
      logBlocks < d.lh.length + (d.outstanding + 1) * maxOpBlocks) :
      Acts d .beginning (.sleep () .beginning)
  | enter (hc : d.committing = false)
      (hroom : d.lh.length + (d.outstanding + 1) * maxOpBlocks ≤ logBlocks) :
      Acts d .beginning (.write { d with outstanding := d.outstanding + 1 } .begun)
  | entered : Acts d .begun (.release (.inOp []))
  | tooBig {b : ℕ} {ws : List ℕ} (h : logBlocks ≤ d.lh.length ∨ d.outstanding < 1) :
      Acts d (.logging b ws) (.write d (.logPanic b))
  | absorb {b : ℕ} {ws : List ℕ} (hb : b ∈ d.lh) :
      Acts d (.logging b ws) (.write d (.logged (ws.insert b)))
  | append {b : ℕ} {ws : List ℕ} (hroom : d.lh.length < logBlocks) (hb : b ∉ d.lh) :
      Acts d (.logging b ws) (.write (append d b) (.logged (ws.insert b)))
  | logged {ws : List ℕ} : Acts d (.logged ws) (.release (.inOp ws))
  | bad (hc : d.committing = true) :
      Acts d .ending (.write { d with outstanding := d.outstanding - 1 } .endPanic)
  | last (hc : d.committing = false) (ho : d.outstanding - 1 = 0) :
      Acts d .ending
        (.write { d with outstanding := d.outstanding - 1, committing := true } .endedLast)
  | other (hc : d.committing = false) (ho : d.outstanding - 1 ≠ 0) :
      Acts d .ending (.write { d with outstanding := d.outstanding - 1 } .endedOther)
  | toCommit : Acts d .endedLast (.release .commit)
  | wake : Acts d .endedOther (.wakeup () .leaving)
  | leave : Acts d .leaving (.release .idle)
  | finish : Acts d .finishing
      (.write { d with committing := false, ncommit := d.ncommit + 1 } .finished)
  | wakeAll : Acts d .finished (.wakeup () .leaving)
  | mustWait (h : d.committing = true ∨ 0 < d.outstanding) :
      Acts d .syncing (.write d (.syncWait (d.ncommit + 1)))
  | synced (hc : d.committing = false) (ho : d.outstanding = 0) : Acts d .syncing (.release .idle)
  | syncSleep {n : ℕ} (h : d.ncommit < n) : Acts d (.syncWait n) (.sleep () (.syncWait n))
  | syncDone {n : ℕ} (h : n ≤ d.ncommit) : Acts d (.syncWait n) (.release .idle)

/-- **Inversion** of a step under `log.lock`. -/
theorem locked_acts {d : Log τ β} {p : Point} {a : Monitor.Act (Log τ β) Point Unit}
    (h : locked d p = some a) : Acts d p a := by
  cases p with
  | beginning =>
    rw [locked] at h
    by_cases hc : d.committing = true
    · rw [if_pos hc] at h
      cases h
      exact .full (.inl hc)
    · rw [if_neg hc] at h
      split at h <;> cases h
      · next hfull => exact .full (.inr hfull)
      · next hroom => exact .enter (Bool.eq_false_iff.mpr hc) (Nat.not_lt.mp hroom)
  | begun =>
    cases h
    exact .entered
  | logging b ws =>
    rw [locked] at h
    by_cases hfull : logBlocks ≤ d.lh.length
    · rw [if_pos hfull] at h
      cases h
      exact .tooBig (.inl hfull)
    · rw [if_neg hfull] at h
      by_cases ho : d.outstanding < 1
      · rw [if_pos ho] at h
        cases h
        exact .tooBig (.inr ho)
      · rw [if_neg ho] at h
        split at h <;> cases h
        · next hb => exact .absorb hb
        · next hb => exact .append (Nat.not_le.mp hfull) hb
  | logged ws =>
    cases h
    exact .logged
  | ending =>
    rw [locked] at h
    by_cases hc : d.committing = true
    · rw [if_pos hc] at h
      cases h
      exact .bad hc
    · rw [if_neg hc] at h
      split at h <;> cases h
      · next ho => exact .last (Bool.eq_false_iff.mpr hc) ho
      · next ho => exact .other (Bool.eq_false_iff.mpr hc) ho
  | endedLast =>
    cases h
    exact .toCommit
  | endedOther =>
    cases h
    exact .wake
  | leaving =>
    cases h
    exact .leave
  | finishing =>
    cases h
    exact .finish
  | finished =>
    cases h
    exact .wakeAll
  | syncing =>
    rw [locked] at h
    split at h <;> cases h
    · next hwait => exact .mustWait hwait
    · next hnone =>
      rw [not_or] at hnone
      exact .synced (Bool.eq_false_iff.mpr hnone.1) (Nat.eq_zero_of_not_pos hnone.2)
  | syncWait n =>
    rw [locked] at h
    split at h <;> cases h
    · next hlt => exact .syncSleep hlt
    · next hge => exact .syncDone (Nat.not_lt.mp hge)
  | _ => cases h

end Model

/-! ### Operations and commits -/

def Point.ops : Point → ℕ
  | .begun | .inOp _ | .logging _ _ | .logged _ | .ending | .logPanic _ => 1
  | _ => 0

/-- The thread is between the two changes of `committing`. -/
def Point.commits : Point → Bool
  | .endedLast | .commit | .writeLog _ | .writeHead | .install _ | .clearHead | .finishing => true
  | _ => false

/-- The blocks that the operation has logged. -/
def Point.logs : Point → List ℕ
  | .inOp ws | .logging _ ws | .logged ws => ws
  | _ => []

/-- The commit has emptied the log. -/
def Point.emptied : Point → Bool
  | .clearHead | .finishing => true
  | _ => false

theorem Point.logs_of_ops {p : Point} (h : p.ops = 0) : p.logs = [] := by
  cases p <;> first | rfl | cases h

variable {τ β : Type*}

/-- The steps without `log.lock` leave the counters alone. -/
theorem Frees.counters {t : τ} {i : Input β} {d d' : Log τ β} {p q : Point}
    (h : Frees t i d p d' q) : d'.committing = d.committing ∧ d'.outstanding = d.outstanding ∧
      d'.ncommit = d.ncommit ∧ (d'.lh = d.lh ∨ p.commits = true) := by
  cases h with
  | installDone htail => exact ⟨rfl, rfl, rfl, .inr rfl⟩
  | _ => exact ⟨rfl, rfl, rfl, .inl rfl⟩

theorem insert_subset {b : ℕ} {ws l : List ℕ} (hb : b ∈ l) (hws : ws ⊆ l) : ws.insert b ⊆ l := by
  intro x hx
  obtain rfl | hx := List.mem_insert_iff.mp hx
  · exact hb
  · exact hws hx

theorem Point.commits_of_emptied {p : Point} (h : p.emptied = true) : p.commits = true := by
  cases p <;> first | rfl | cases h

variable [Fintype τ] {d d' : Log τ β} {pt : τ → Point} {t : τ} {i : Input β}
  {q : Point}

theorem sum_update_add [DecidableEq τ] (f : Point → ℕ) (pt : τ → Point) (t : τ) (q : Point) :
    (∑ v, f (Function.update pt t q v)) + f (pt t) = (∑ v, f (pt v)) + f q := by
  have hsum : ∀ g : τ → Point, ∑ v, f (g v) = f (g t) + ∑ v ∈ Finset.univ.erase t, f (g v) :=
    fun g => (Finset.add_sum_erase _ (fun v => f (g v)) (Finset.mem_univ t)).symm
  have hrest : ∑ v ∈ Finset.univ.erase t, f (Function.update pt t q v) =
      ∑ v ∈ Finset.univ.erase t, f (pt v) :=
    Finset.sum_congr rfl fun v hv => by rw [Function.update_of_ne (Finset.ne_of_mem_erase hv)]
  rw [hsum, hsum pt, hrest, Function.update_self]
  omega

/-- **The invariant** of the counters and of the list of blocks. -/
structure Counts (d : Log τ β) (pt : τ → Point) : Prop where
  ops : d.outstanding = ∑ t, (pt t).ops
  committing : d.committing = true ↔ ∃ t, (pt t).commits = true
  one : ∀ t u, (pt t).commits = true → (pt u).commits = true → t = u
  alone : d.committing = true → d.outstanding = 0
  nodup : d.lh.Nodup
  logs : ∀ t, (pt t).logs ⊆ d.lh
  emptied : ∀ t, (pt t).emptied = true → d.lh = []
  quiet : d.committing = false → d.outstanding = 0 → d.lh = []

namespace Counts

theorem no_ops (h : Counts d pt) (hc : d.committing = true) (v : τ) : (pt v).ops = 0 := by
  have hsum := h.ops
  rw [h.alone hc] at hsum
  exact (Finset.sum_eq_zero_iff.mp hsum.symm) v (Finset.mem_univ v)

theorem outstanding_pos (h : Counts d pt) (ht : (pt t).ops = 1) : 0 < d.outstanding := by
  rw [h.ops]
  calc 0 < (pt t).ops := by rw [ht]; decide
    _ ≤ ∑ v, (pt v).ops :=
      Finset.single_le_sum (f := fun v => (pt v).ops) (fun _ _ => Nat.zero_le _) (Finset.mem_univ t)

theorem not_committing (h : Counts d pt) (ht : (pt t).ops = 1) : d.committing = false := by
  by_contra hc
  have hpos := h.outstanding_pos ht
  rw [h.alone (Bool.not_eq_false _ ▸ hc)] at hpos
  exact absurd hpos (Nat.lt_irrefl 0)

theorem committing_of (h : Counts d pt) (ht : (pt t).commits = true) : d.committing = true :=
  h.committing.mpr ⟨t, ht⟩

theorem not_commits (h : Counts d pt) (hc : d.committing = false) (v : τ) :
    (pt v).commits = false :=
  Bool.eq_false_iff.mpr fun hv => absurd (hc.symm.trans (h.committing_of hv)) nofun

theorem not_commits_of_ne (h : Counts d pt) (ht : (pt t).commits = true) {v : τ} (hv : v ≠ t) :
    (pt v).commits = false :=
  Bool.eq_false_iff.mpr fun hcv => hv (h.one v t hcv ht)

variable [DecidableEq τ]

/-- A step of thread `t`, from what it does to the counters and to the list. -/
theorem move (h : Counts d pt) (hops : d'.outstanding + (pt t).ops = d.outstanding + q.ops)
    (hcommitting : d'.committing = true ↔ q.commits = true ∨ ∃ v, v ≠ t ∧ (pt v).commits = true)
    (hone : q.commits = true → ∀ v, v ≠ t → (pt v).commits = false)
    (halone : d'.committing = true → d'.outstanding = 0) (hnodup : d'.lh.Nodup)
    (hlogs : ∀ v, v ≠ t → (pt v).logs ⊆ d'.lh) (hlogs' : q.logs ⊆ d'.lh)
    (hemptied : q.emptied = true ∨ (∃ v, v ≠ t ∧ (pt v).emptied = true) → d'.lh = [])
    (hquiet : d'.committing = false → d'.outstanding = 0 → d'.lh = []) :
    Counts d' (Function.update pt t q) := by
  have hself : Function.update pt t q t = q := Function.update_self ..
  have hother : ∀ v, v ≠ t → Function.update pt t q v = pt v := fun v hv =>
    Function.update_of_ne hv ..
  constructor
  case ops =>
    have hsum := sum_update_add Point.ops pt t q
    have hold := h.ops
    omega
  case committing =>
    rw [hcommitting]
    constructor
    · rintro (hq | ⟨v, hv, hc⟩)
      · exact ⟨t, by rw [hself, hq]⟩
      · exact ⟨v, by rw [hother v hv, hc]⟩
    · rintro ⟨v, hc⟩
      by_cases hv : v = t
      · rw [hv, hself] at hc
        exact .inl hc
      · rw [hother v hv] at hc
        exact .inr ⟨v, hv, hc⟩
  case one =>
    intro u v hu hv
    by_cases hut : u = t <;> by_cases hvt : v = t
    · rw [hut, hvt]
    · rw [hut, hself] at hu
      rw [hother v hvt, hone hu v hvt] at hv
      cases hv
    · rw [hvt, hself] at hv
      rw [hother u hut, hone hv u hut] at hu
      cases hu
    · rw [hother u hut] at hu
      rw [hother v hvt] at hv
      exact h.one u v hu hv
  case alone => exact halone
  case nodup => exact hnodup
  case logs =>
    intro v
    by_cases hv : v = t
    · rw [hv, hself]
      exact hlogs'
    · rw [hother v hv]
      exact hlogs v hv
  case emptied =>
    intro v hv
    by_cases hvt : v = t
    · rw [hvt, hself] at hv
      exact hemptied (.inl hv)
    · rw [hother v hvt] at hv
      exact hemptied (.inr ⟨v, hvt, hv⟩)
  case quiet => exact hquiet

theorem go (h : Counts d pt) (ho : d'.outstanding = d.outstanding)
    (hc : d'.committing = d.committing) (hlh : d'.lh = d.lh) (hops : q.ops = (pt t).ops)
    (hcommits : q.commits = (pt t).commits) (hlogs : q.logs ⊆ d.lh)
    (hemptied : q.emptied = true → d.lh = []) : Counts d' (Function.update pt t q) := by
  refine h.move (by rw [ho, hops]) ?_ (fun hq v hv => ?_) (by rw [hc, ho]; exact h.alone)
    (hlh ▸ h.nodup) (fun v _ => hlh ▸ h.logs v) (hlh ▸ hlogs) ?_
    (by rw [hc, ho, hlh]; exact h.quiet)
  · rw [hc, h.committing, hcommits]
    constructor
    · rintro ⟨v, hv⟩
      by_cases hvt : v = t
      · exact .inl (hvt ▸ hv)
      · exact .inr ⟨v, hvt, hv⟩
    · rintro (ht | ⟨v, -, hv⟩)
      · exact ⟨t, ht⟩
      · exact ⟨v, hv⟩
  · rw [hcommits] at hq
    exact h.not_commits_of_ne hq hv
  · rw [hlh]
    rintro (hq | ⟨v, -, hv⟩)
    · exact hemptied hq
    · exact h.emptied v hv

/-- **Step lemma**, without `log.lock`. -/
theorem frees (h : Counts d pt) (hfree : Frees t i d (pt t) d' q) :
    Counts d' (Function.update pt t q) := by
  have hlogs := h.logs t
  have hemptied := h.emptied t
  generalize hpt : pt t = p at hfree hlogs hemptied
  -- most steps change neither the counters nor the list
  have hgo : d'.outstanding = d.outstanding → d'.committing = d.committing → d'.lh = d.lh →
      q.ops = p.ops → q.commits = p.commits → q.logs ⊆ d.lh → (q.emptied = true → d.lh = []) →
      Counts d' (Function.update pt t q) := fun ho hc hlh hops hcommits hlogs hemptied =>
    h.go ho hc hlh (by rw [hpt, hops]) (by rw [hpt, hcommits]) hlogs hemptied
  cases hfree with
  | recycle href => exact hgo rfl rfl rfl rfl rfl hlogs hemptied
  | bread hp hb => exact hgo rfl rfl rfl rfl rfl hlogs hemptied
  | brelse hp hb => exact hgo rfl rfl rfl rfl rfl hlogs hemptied
  | update hi hb => exact hgo rfl rfl rfl rfl rfl hlogs nofun
  | scribble hi hb => exact hgo rfl rfl rfl rfl rfl hlogs nofun
  | nothing hlh => exact hgo rfl rfl rfl rfl rfl (List.nil_subset _) fun _ => hlh
  | clear => exact hgo rfl rfl rfl rfl rfl (List.nil_subset _) fun _ => hemptied rfl
  | @installDone tail htail =>
    have hc : d.committing = true := h.committing_of (t := t) (by rw [hpt]; rfl)
    have hnone : ∀ v, (pt v).logs = [] := fun v => Point.logs_of_ops (h.no_ops hc v)
    refine h.move (by rw [hpt]; rfl) (iff_of_true hc (.inl rfl)) (fun _ v hv => ?_) h.alone .nil
      (fun v _ => by rw [hnone v]; exact List.nil_subset _) (List.nil_subset _) (fun _ => rfl)
      fun _ _ => rfl
    exact h.not_commits_of_ne (by rw [hpt]; rfl) hv
  | _ => exact hgo rfl rfl rfl rfl rfl (List.nil_subset _) nofun

theorem moveOpen (h : Counts d pt) (hc : d.committing = false) (hc' : d'.committing = false)
    (hq : q.commits = false) (hops : d'.outstanding + (pt t).ops = d.outstanding + q.ops)
    (hnodup : d'.lh.Nodup) (hsub : d.lh ⊆ d'.lh) (hlogs : q.logs ⊆ d'.lh)
    (hquiet : d'.outstanding = 0 → d'.lh = []) : Counts d' (Function.update pt t q) := by
  have hnone : ¬ (q.commits = true ∨ ∃ v, v ≠ t ∧ (pt v).commits = true) := by
    rintro (hq' | ⟨v, -, hv⟩)
    · exact absurd (hq.symm.trans hq') nofun
    · exact absurd ((h.not_commits hc v).symm.trans hv) nofun
  have hfalse : ∀ {P : Prop}, d'.committing = true → P := fun h => absurd (hc'.symm.trans h) nofun
  refine h.move hops (iff_of_false hfalse hnone) (fun h => absurd (hq.symm.trans h) nofun) hfalse
    hnodup (fun v _ => List.Subset.trans (h.logs v) hsub) hlogs (fun hem => absurd ?_ hnone)
    fun _ => hquiet
  exact hem.imp Point.commits_of_emptied fun ⟨v, hv, hem⟩ => ⟨v, hv, Point.commits_of_emptied hem⟩

/-- **Step lemma**, under `log.lock`. -/
theorem acts (h : Counts d pt) {a : Monitor.Act (Log τ β) Point Unit} (hact : Acts d (pt t) a) :
    Counts (a.data d) (Function.update pt t a.point) := by
  have hlogs := h.logs t
  generalize hpt : pt t = p at hact hlogs
  have hgo : ∀ q : Point, q.ops = p.ops → q.commits = p.commits → q.logs ⊆ d.lh →
      q.emptied = false → Counts d (Function.update pt t q) :=
    fun q hops hcommits hlogs hemptied => h.go rfl rfl rfl (by rw [hpt, hops])
      (by rw [hpt, hcommits]) hlogs fun hq => absurd (hemptied.symm.trans hq) nofun
  cases hact with
  | enter hc hroom =>
    exact h.moveOpen hc hc rfl (by rw [hpt]; rfl) h.nodup (List.Subset.refl _)
      (List.nil_subset _) fun ho => absurd ho (Nat.succ_ne_zero _)
  | absorb hb => exact hgo _ rfl rfl (insert_subset hb hlogs) rfl
  | @append b ws hroom hb =>
    have hop : (pt t).ops = 1 := by rw [hpt]; rfl
    have hc := h.not_committing hop
    refine h.moveOpen hc hc rfl (by rw [hpt]; rfl) ?_ (List.subset_append_left ..) ?_ fun ho => ?_
    · change (d.lh ++ [b]).Nodup
      rw [← List.concat_eq_append]
      exact h.nodup.concat hb
    · exact insert_subset (List.mem_append_right _ List.mem_cons_self)
        (List.Subset.trans hlogs (List.subset_append_left ..))
    · exact absurd ho (h.outstanding_pos hop).ne'
  | bad hc =>
    have hop : (pt t).ops = 1 := by rw [hpt]; rfl
    exact absurd (hc.symm.trans (h.not_committing hop)) nofun
  | last hc ho =>
    have hpos := h.outstanding_pos (t := t) (by rw [hpt]; rfl)
    have hnone : ∀ v, (pt v).commits = false := h.not_commits hc
    refine h.move ?_ (iff_of_true rfl (.inl rfl)) (fun _ v _ => hnone v) (fun _ => ho) h.nodup
      (fun v _ => h.logs v) (List.nil_subset _) ?_ nofun
    · rw [hpt]
      change d.outstanding - 1 + 1 = d.outstanding + 0
      omega
    · rintro (hem | ⟨v, -, hem⟩)
      · cases hem
      · exact absurd ((hnone v).symm.trans (Point.commits_of_emptied hem)) nofun
  | other hc ho =>
    have hpos := h.outstanding_pos (t := t) (by rw [hpt]; rfl)
    refine h.moveOpen hc hc rfl ?_ h.nodup (List.Subset.refl _) (List.nil_subset _)
      fun ho' => absurd ho' ho
    rw [hpt]
    change d.outstanding - 1 + 1 = d.outstanding + 0
    omega
  | finish =>
    have hct : (pt t).commits = true := by rw [hpt]; rfl
    have hlh : d.lh = [] := h.emptied t (by rw [hpt]; rfl)
    refine h.move (by rw [hpt]; rfl) (iff_of_false nofun ?_) nofun nofun h.nodup
      (fun v _ => h.logs v) (List.nil_subset _) (fun _ => hlh) fun _ _ => hlh
    rintro (hq | ⟨v, hv, hcv⟩)
    · cases hq
    · exact absurd ((h.not_commits_of_ne hct hv).symm.trans hcv) nofun
  | logged => exact hgo _ rfl rfl hlogs rfl
  | _ => exact hgo _ rfl rfl (List.nil_subset _) rfl

end Counts

variable [DecidableEq τ] {s s' : Monitor.State τ (Log τ β) Point Unit} {all : List τ}

theorem step_counts {e : Monitor.Event τ (Input β)} (h : Counts s.shared s.points)
    (hstep : Monitor.step program all s e = some s') : Counts s'.shared s'.points :=
  Monitor.step_points (J := Counts) (fun _ _ _ _ _ hf => h.frees (free_frees hf))
    (fun _ _ _ _ _ ha => h.acts (locked_acts ha)) h hstep

omit [DecidableEq τ] in
theorem start_counts (disk : Disk β) :
    Counts (start disk : Monitor.State τ (Log τ β) Point Unit).shared (start disk).points where
  ops := (Finset.sum_const_zero).symm
  committing := iff_of_false nofun nofun
  one := nofun
  alone := nofun
  nodup := .nil
  logs _ := List.nil_subset _
  emptied _ _ := rfl
  quiet _ _ := rfl

/-! ### Room in the log -/

/-- The blocks that an operation may still log. -/
def Point.budget : Point → ℕ
  | .begun => maxOpBlocks
  | .inOp ws | .logging _ ws | .logged ws => maxOpBlocks - ws.length
  | _ => 0

def Point.panics : Point → Bool
  | .logPanic _ | .endPanic => true
  | _ => false

/-- There is room for what the operations may still log, and nobody has panicked. -/
structure Room (d : Log τ β) (pt : τ → Point) : Prop where
  room : d.lh.length + ∑ t, (pt t).budget ≤ logBlocks
  calm : ∀ t, (pt t).panics = false

/-- An operation that calls `log_write` has logged fewer than `MAXOPBLOCKS` blocks before. -/
def Modest (_ : τ) (_ : Input β) (_ : Log τ β) : Point → Prop
  | .logging _ ws => ws.length < maxOpBlocks
  | _ => True

instance (t : τ) (i : Input β) (d : Log τ β) : (p : Point) → Decidable (Modest t i d p)
  | .logging _ ws => inferInstanceAs (Decidable (ws.length < maxOpBlocks))
  | .idle | .beginning | .begun | .inOp _ | .logged _ | .ending | .endedLast | .endedOther
  | .leaving | .commit | .writeLog _ | .writeHead | .install _ | .clearHead | .finishing
  | .finished | .syncing | .syncWait _ | .logPanic _ | .endPanic => .isTrue trivial

theorem Point.budget_le (p : Point) : p.budget ≤ p.ops * maxOpBlocks := by
  cases p <;> simp [Point.budget, Point.ops]

namespace Room

theorem move (h : Room d pt) (hroom : d'.lh.length + q.budget ≤ d.lh.length + (pt t).budget)
    (hq : q.panics = false) : Room d' (Function.update pt t q) := by
  refine ⟨?_, fun v => ?_⟩
  · have hsum := sum_update_add Point.budget pt t q
    have hold := h.room
    omega
  · by_cases hv : v = t
    · rw [hv, Function.update_self]
      exact hq
    · rw [Function.update_of_ne hv]
      exact h.calm v

theorem frees (h : Room d pt) (hfree : Frees t i d (pt t) d' q) :
    Room d' (Function.update pt t q) := by
  have hcalm := h.calm t
  generalize hpt : pt t = p at hfree hcalm
  have hmove : d'.lh.length + q.budget ≤ d.lh.length + p.budget → q.panics = false →
      Room d' (Function.update pt t q) := fun hroom => h.move (hpt ▸ hroom)
  cases hfree with
  | recycle href => exact hmove le_rfl hcalm
  | bread hp hb => exact hmove le_rfl hcalm
  | brelse hp hb => exact hmove le_rfl hcalm
  | endOp => exact hmove (Nat.le_add_right ..) rfl
  | installDone htail => exact hmove (Nat.zero_le _) rfl
  | _ => exact hmove le_rfl rfl

theorem acts (h : Room d pt) (hcounts : Counts d pt) (hmodest : Modest t i d (pt t))
    {a : Monitor.Act (Log τ β) Point Unit} (hact : Acts d (pt t) a) :
    Room (a.data d) (Function.update pt t a.point) := by
  have hcalm := h.calm t
  have hlogs := hcounts.logs t
  -- what is left for the others and for this thread
  have hleft : d.lh.length + (pt t).budget ≤ logBlocks := by
    have hsingle := Finset.single_le_sum (f := fun v => (pt v).budget) (fun _ _ => Nat.zero_le _)
      (Finset.mem_univ t)
    have hroom := h.room
    omega
  generalize hpt : pt t = p at hact hmodest hcalm hlogs hleft
  have hmove : ∀ q : Point, q.budget ≤ p.budget → q.panics = false →
      Room d (Function.update pt t q) :=
    fun q hroom => h.move (by rw [hpt]; exact Nat.add_le_add_left hroom _)
  cases hact with
  | enter hc hroom =>
    refine ⟨?_, fun v => ?_⟩
    · have hsum := sum_update_add Point.budget pt t .begun
      have hle : ∑ v, (pt v).budget ≤ d.outstanding * maxOpBlocks := by
        rw [hcounts.ops, Finset.sum_mul]
        exact Finset.sum_le_sum fun v _ => (pt v).budget_le
      rw [hpt] at hsum
      change _ + 0 = _ + maxOpBlocks at hsum
      change d.lh.length + ∑ v, (Function.update pt t Point.begun v).budget ≤ logBlocks
      rw [Nat.add_mul, Nat.one_mul] at hroom
      omega
    · by_cases hv : v = t
      · rw [hv, Function.update_self]
        rfl
      · rw [Function.update_of_ne hv]
        exact h.calm v
  | @tooBig b ws hfull =>
    exfalso
    have hpos := hcounts.outstanding_pos (t := t) (by rw [hpt]; rfl)
    change d.lh.length + (maxOpBlocks - ws.length) ≤ logBlocks at hleft
    change ws.length < maxOpBlocks at hmodest
    omega
  | @absorb b ws hb =>
    refine hmove _ ?_ rfl
    change maxOpBlocks - (ws.insert b).length ≤ maxOpBlocks - ws.length
    have hle : ws.length ≤ (ws.insert b).length := List.length_le_length_insert
    omega
  | @append b ws hroom hb =>
    refine h.move ?_ rfl
    rw [hpt]
    change (d.lh ++ [b]).length + (maxOpBlocks - (ws.insert b).length) ≤
      d.lh.length + (maxOpBlocks - ws.length)
    change ws.length < maxOpBlocks at hmodest
    have hws : b ∉ ws := fun hmem => hb (hlogs hmem)
    rw [List.length_insert_of_not_mem hws, List.length_append, List.length_singleton]
    omega
  | bad hc =>
    have hop : (pt t).ops = 1 := by rw [hpt]; rfl
    exact absurd (hc.symm.trans (hcounts.not_committing hop)) nofun
  | last hc ho => exact h.move (by rw [hpt]; exact le_rfl) rfl
  | other hc ho => exact h.move (by rw [hpt]; exact le_rfl) rfl
  | finish => exact h.move (by rw [hpt]; exact le_rfl) rfl
  | entered => exact hmove _ le_rfl rfl
  | logged => exact hmove _ le_rfl rfl
  | _ => exact hmove _ le_rfl rfl

end Room

/-- **The log never overflows**, in every interleaving of operations each of which has logged
    fewer than `MAXOPBLOCKS` blocks whenever it calls `log_write`: none of the functions panics.
    `outstanding` counts the operations in progress. -/
theorem log_never_full {disk : Disk β} {es : List (Monitor.Event τ (Input β))}
    (hes : Guarded (Monitor.step program all) (Monitor.Admits Modest) (start disk) es)
    (h : exec (Monitor.step program all) (start disk) es = some s) :
    (∀ t, (s.points t).panics = false) ∧ s.shared.lh.length ≤ logBlocks ∧ s.shared.lh.Nodup ∧
      s.shared.outstanding = ∑ t, (s.points t).ops := by
  have hstart : Room (start disk : Monitor.State τ (Log τ β) Point Unit).shared
      (start disk).points := ⟨by simp [start, boot, Monitor.State.points, Monitor.Phase.point,
        Point.budget], fun _ => rfl⟩
  have hinv : Counts s.shared s.points ∧ Room s.shared s.points := by
    refine exec_invariant_of_guarded
      (I := fun s => Counts s.shared s.points ∧ Room s.shared s.points)
      (fun s e s' hs he hstep => ⟨step_counts hs.1 hstep, ?_⟩) ⟨start_counts disk, hstart⟩ hes h
    refine Monitor.step_points (J := Room) (fun t i d q _ hf => hs.2.frees (free_frees hf))
      (fun t i a het hph ha => ?_) hs.2 hstep
    exact hs.2.acts hs.1 (he t i _ het hph) (locked_acts ha)
  refine ⟨hinv.2.calm, ?_, hinv.1.nodup, hinv.1.ops⟩
  have hroom := hinv.2.room
  omega

def first : Fin 3 := 0

def second : Fin 3 := 1

def third : Fin 3 := 2

/-- Thread `t` begins an operation. -/
def enterOp (t : Fin 3) : List (Monitor.Event (Fin 3) (Input ℕ)) :=
  .run t .beginOp :: List.replicate 3 (.run t .go)

/-- It writes `v` to the given blocks. -/
def writes (t : Fin 3) (v : ℕ) (bs : List ℕ) : List (Monitor.Event (Fin 3) (Input ℕ)) :=
  bs.flatMap fun b => [.run t (.bread b), .run t (.update b v), .run t .go, .run t .go,
    .run t .go, .run t (.brelse b)]

/-- It ends the operation, and takes `k` more steps. -/
def leaveOp (t : Fin 3) (k : ℕ) : List (Monitor.Event (Fin 3) (Input ℕ)) :=
  .run t .endOp :: List.replicate k (.run t .go)

def blank : Disk ℕ := ⟨[], fun _ => 0, fun _ => 0⟩

/-- Two operations that overlap and write a block in common, and their commit. -/
def overlapping : List (Monitor.Event (Fin 3) (Input ℕ)) :=
  enterOp first ++ writes first 7 [50, 51] ++ enterOp second ++ writes second 8 [51, 52] ++
    leaveOp first 8 ++ leaveOp second 21

theorem log_never_full_overlapping :
    ∃ s, exec (Monitor.step program (List.finRange 3)) (start blank) overlapping = some s ∧
      s.shared.disk.home 51 = 8 ∧ ∀ t, (s.points t).panics = false := by
  have hrun : (exec (Monitor.step program (List.finRange 3)) (start blank)
      overlapping).isSome = true := by decide +kernel
  have hhome : (exec (Monitor.step program (List.finRange 3)) (start blank) overlapping).map
      (fun s => s.shared.disk.home 51) = some 8 := by decide +kernel
  have hes : Guarded (Monitor.step program (List.finRange 3)) (Monitor.Admits Modest)
      (start blank) overlapping := by decide +kernel
  obtain ⟨s, hs⟩ := Option.isSome_iff_exists.mp hrun
  rw [hs] at hhome
  exact ⟨s, hs, Option.some.inj hhome, (log_never_full hes hs).1⟩

/-- Three operations log ten blocks each, and the first one writes one of its blocks again. -/
def rewriting : List (Monitor.Event (Fin 3) (Input ℕ)) :=
  enterOp first ++ enterOp second ++ enterOp third ++ writes first 7 (List.range' 50 10) ++
    writes second 8 (List.range' 60 10) ++ writes third 9 (List.range' 70 10) ++
    [.run first (.bread 50), .run first (.update 50 7), .run first .go, .run first .go]

/-- **Ten different blocks are one too many**: `log_write` looks for a full log before it looks
    for the block, so the last write of an operation that has logged ten blocks can panic even
    though it needs no room. -/
theorem rewriting_panics :
    ∃ s, exec (Monitor.step program (List.finRange 3)) (start blank) rewriting = some s ∧
      s.points 0 = .logPanic 50 ∧ 50 ∈ s.shared.lh := by
  have hrun : (exec (Monitor.step program (List.finRange 3)) (start blank)
      rewriting).isSome = true := by decide +kernel
  have hstate : (exec (Monitor.step program (List.finRange 3)) (start blank) rewriting).map
      (fun s => (s.points 0, decide (50 ∈ s.shared.lh))) = some (.logPanic 50, true) := by
    decide +kernel
  obtain ⟨s, hs⟩ := Option.isSome_iff_exists.mp hrun
  rw [hs, Option.map_some, Option.some.injEq, Prod.mk.injEq, decide_eq_true_eq] at hstate
  exact ⟨s, hs, hstate.1, hstate.2⟩

end MiniOs.Xv6.Logs
