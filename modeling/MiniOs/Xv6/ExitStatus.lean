import Mathlib.Data.List.Nodup
import MiniOs.Xv6.Family

/-!
# Exit statuses

Who gets the exit status of a process. An observer writes down every `kfork` that has found a
slot, every call of `kexit`, every process that becomes a zombie with its status, and every pid
and status that `kwait` takes from a zombie. Slots are used again, so the history is in terms of
pids.
-/

namespace MiniOs.Xv6.Families

open Trace

variable {j : Slot}

/-- What an observer has seen, latest first. -/
structure History where
  /-- The pids of the new process and of its forker. -/
  forks : List (ℤ × ℤ)
  /-- The pids of the callers of `kexit`. -/
  quits : List ℤ
  /-- The pids and statuses of the processes that became zombies. -/
  exits : List (ℤ × ℤ)
  /-- The pid of a caller of `kwait`, and the pid and status that it got. -/
  reaps : List (ℤ × ℤ × ℤ)

/-- Nothing has been seen. -/
def History.none : History := ⟨[], [], [], []⟩

/-- Process `t` has gone from one point to another. -/
def History.note (g : History) (t : Slot) (d d' : Table) : Point → Point → History
  | .user, .forking np => { g with forks := ((d'.proc np).pid, (d.proc t).pid) :: g.forks }
  | .user, .reparenting _ _ => { g with quits := (d.proc t).pid :: g.quits }
  | .dying status _, .dead _ => { g with exits := ((d.proc t).pid, status) :: g.exits }
  | .scanning _ _, .reaped pid status =>
    { g with reaps := ((d.proc t).pid, pid, status) :: g.reaps }
  | _, _ => g

theorem History.note_self (g : History) (t : Slot) (d d' : Table) (p : Point) :
    g.note t d d' p p = g := by
  cases p <;> rfl

def look (s : Monitor.State Slot Table Point (Option Slot)) (e : Monitor.Event Slot Input)
    (g : History) : History :=
  match e, Monitor.step program slots s e with
  | .run t _, some s' => g.note t s.shared s'.shared (s.points t) (s'.points t)
  | _, _ => g

/-! ### Exits and reaps -/

/-- Every exit is waiting in the table or has been reaped, and never both. -/
structure Ledger (d : Table) (g : History) : Prop where
  fresh : ∀ pid status, (pid, status) ∈ g.exits → pid < d.nextpid
  exits_nodup : (g.exits.map Prod.fst).Nodup
  alive : ∀ j, (d.proc j).state = .used ∨ (d.proc j).state = .live →
    ∀ status, ((d.proc j).pid, status) ∉ g.exits
  zombie : ∀ j, (d.proc j).state = .zombie → ((d.proc j).pid, (d.proc j).xstate) ∈ g.exits
  unreaped : ∀ j, (d.proc j).state = .zombie → ∀ r status, (r, (d.proc j).pid, status) ∉ g.reaps
  settled : ∀ pid status, (pid, status) ∈ g.exits → (∃ r, (r, pid, status) ∈ g.reaps) ∨
    ∃ j, (d.proc j).state = .zombie ∧ (d.proc j).pid = pid ∧ (d.proc j).xstate = status
  reaps_nodup : (g.reaps.map fun x => x.2.1).Nodup
  reaped : ∀ r pid status, (r, pid, status) ∈ g.reaps → (pid, status) ∈ g.exits

namespace Ledger

variable {d d' : Table} {g g' : History} {t : Slot} {i : Input} {p q : Point}

/-- A step that changes no zombie. A process that gets a pid gets a new one. -/
theorem frame (h : Ledger d g) (hexits : g'.exits = g.exits) (hreaps : g'.reaps = g.reaps)
    (hnext : d.nextpid ≤ d'.nextpid)
    (hzombie : ∀ j, (d'.proc j).state = .zombie ∨ (d.proc j).state = .zombie →
      (d'.proc j).state = (d.proc j).state ∧ (d'.proc j).pid = (d.proc j).pid ∧
        (d'.proc j).xstate = (d.proc j).xstate)
    (halive : ∀ j, (d'.proc j).state = .used ∨ (d'.proc j).state = .live →
      ((d.proc j).state = .used ∨ (d.proc j).state = .live) ∧ (d'.proc j).pid = (d.proc j).pid ∨
        d.nextpid ≤ (d'.proc j).pid) : Ledger d' g' where
  fresh pid status hmem := (h.fresh pid status (hexits ▸ hmem)).trans_le hnext
  exits_nodup := hexits ▸ h.exits_nodup
  alive j hj status hmem := by
    rw [hexits] at hmem
    obtain ⟨hj, hpid⟩ | hnew := halive j hj
    · rw [hpid] at hmem
      exact h.alive j hj status hmem
    · exact absurd (h.fresh _ _ hmem) hnew.not_gt
  zombie j hj := by
    obtain ⟨hz, hpid, hx⟩ := hzombie j (.inl hj)
    rw [hexits, hpid, hx]
    exact h.zombie j (hz ▸ hj)
  unreaped j hj := by
    obtain ⟨hz, hpid, -⟩ := hzombie j (.inl hj)
    rw [hreaps, hpid]
    exact h.unreaped j (hz ▸ hj)
  settled pid status hmem := by
    obtain hr | ⟨j, hj, hpid, hx⟩ := h.settled pid status (hexits ▸ hmem)
    · exact .inl (hreaps ▸ hr)
    · obtain ⟨hz, hpid', hx'⟩ := hzombie j (.inr hj)
      exact .inr ⟨j, hz.trans hj, hpid'.trans hpid, hx'.trans hx⟩
  reaps_nodup := hreaps ▸ h.reaps_nodup
  reaped := by
    rw [hreaps, hexits]
    exact h.reaped

/-- A step that changes slot `j`, which is not a zombie before or after it. -/
theorem frame_modify (h : Ledger d g) {f : Member → Member} (hexits : g'.exits = g.exits)
    (hreaps : g'.reaps = g.reaps) (hz : (d.proc j).state ≠ .zombie)
    (hz' : (f (d.proc j)).state ≠ .zombie)
    (halive : (f (d.proc j)).state = .used ∨ (f (d.proc j)).state = .live →
      ((d.proc j).state = .used ∨ (d.proc j).state = .live) ∧
        (f (d.proc j)).pid = (d.proc j).pid) : Ledger (d.modify j f) g' := by
  refine h.frame hexits hreaps le_rfl (fun k hk => ?_) fun k hk => ?_
  · have hkj : k ≠ j := by
      rintro rfl
      rw [Table.modify_proc_self] at hk
      exact hk.elim hz' hz
    rw [Table.modify_proc_of_ne hkj]
    exact ⟨rfl, rfl, rfl⟩
  · by_cases hkj : k = j
    · subst hkj
      rw [Table.modify_proc_self] at hk ⊢
      exact .inl (halive hk)
    · rw [Table.modify_proc_of_ne hkj] at hk ⊢
      exact .inl ⟨hk, rfl⟩

/-- **Step lemma**, without `wait_lock`. -/
theorem frees (h : Ledger d g) (hkin : Kin d) (hknows : At d t p) (hfree : Frees t i d p d' q) :
    Ledger d' (g.note t d d' p q) := by
  cases hfree with
  | @fork np hi hlive hnp =>
    refine h.frame rfl rfl (Int.lt_succ _).le (fun k hk => ?_) fun k hk => ?_
    · rw [Table.drawPid_proc] at hk ⊢
      have hkj : k ≠ np := by
        rintro rfl
        rw [Table.modify_proc_self, hnp] at hk
        obtain hk | hk := hk <;> cases hk
      rw [Table.modify_proc_of_ne hkj]
      exact ⟨rfl, rfl, rfl⟩
    · rw [Table.drawPid_proc] at hk ⊢
      by_cases hkj : k = np
      · subst hkj
        rw [Table.modify_proc_self]
        exact .inr le_rfl
      · rw [Table.modify_proc_of_ne hkj] at hk ⊢
        exact .inl ⟨hk, rfl⟩
  | @noFork np hi hnp =>
    have hproc : (d.modify np fun _ => freed).drawPid = d.drawPid := by
      rw [Table.modify, ← hkin.unused np hnp, Function.update_eq_self]
    rw [hproc]
    exact h.frame rfl rfl (Int.lt_succ _).le (fun _ _ => ⟨rfl, rfl, rfl⟩)
      fun _ hk => .inl ⟨hk, rfl⟩
  | exit hi hlive hinit =>
    exact h.frame rfl rfl le_rfl (fun _ _ => ⟨rfl, rfl, rfl⟩)
      fun _ hk => .inl ⟨hk, rfl⟩
  | wait hlive => exact h
  | @start np =>
    refine h.frame_modify rfl rfl ?_ (by simp) fun _ => ⟨.inl hknows.2.1, rfl⟩
    rw [hknows.2.1]
    decide
  | back => exact h

theorem die (h : Ledger d g) (hkin : Kin d) {status : ℤ} (ht : (d.proc t).state = .live) :
    Ledger (d.modify t fun m => { m with xstate := status, state := .zombie })
      { g with exits := ((d.proc t).pid, status) :: g.exits } := by
  have hused : (d.proc t).state ≠ .unused := by rw [ht]; decide
  have hnew : ∀ status, ((d.proc t).pid, status) ∉ g.exits := h.alive t (.inr ht)
  have hother : ∀ k, k ≠ t → (d.proc k).state ≠ .unused → (d.proc k).pid ≠ (d.proc t).pid :=
    hkin.pid_unique hused
  constructor
  case fresh =>
    intro pid st hmem
    obtain heq | hmem := List.mem_cons.mp hmem
    · cases heq
      exact (hkin.pid t hused).2
    · exact h.fresh pid st hmem
  case exits_nodup =>
    refine List.nodup_cons.mpr ⟨fun hmem => ?_, h.exits_nodup⟩
    obtain ⟨⟨pid, st⟩, hmem, hpid⟩ := List.mem_map.mp hmem
    have hpid' : pid = (d.proc t).pid := hpid
    rw [hpid'] at hmem
    exact hnew st hmem
  case alive =>
    intro j hj st hmem
    have hjt : j ≠ t := by
      rintro rfl
      rw [Table.modify_proc_self] at hj
      obtain hj | hj := hj <;> cases hj
    rw [Table.modify_proc_of_ne hjt] at hj hmem
    obtain heq | hmem := List.mem_cons.mp hmem
    · refine hother j hjt ?_ (Prod.mk.inj heq).1
      obtain hj | hj := hj <;> rw [hj] <;> decide
    · exact h.alive j hj st hmem
  case zombie =>
    intro j hj
    by_cases hjt : j = t
    · subst hjt
      rw [Table.modify_proc_self]
      exact List.mem_cons_self
    · rw [Table.modify_proc_of_ne hjt] at hj ⊢
      exact List.mem_cons_of_mem _ (h.zombie j hj)
  case unreaped =>
    intro j hj r st hmem
    by_cases hjt : j = t
    · subst hjt
      rw [Table.modify_proc_self] at hmem
      exact hnew st (h.reaped r _ st hmem)
    · rw [Table.modify_proc_of_ne hjt] at hj hmem
      exact h.unreaped j hj r st hmem
  case settled =>
    intro pid st hmem
    obtain heq | hmem := List.mem_cons.mp hmem
    · cases heq
      refine .inr ⟨t, ?_⟩
      rw [Table.modify_proc_self]
      exact ⟨rfl, rfl, rfl⟩
    · obtain hr | ⟨j, hj, hpid⟩ := h.settled pid st hmem
      · exact .inl hr
      · have hjt : j ≠ t := by
          rintro rfl
          rw [ht] at hj
          cases hj
        refine .inr ⟨j, ?_⟩
        rw [Table.modify_proc_of_ne hjt]
        exact ⟨hj, hpid⟩
  case reaps_nodup => exact h.reaps_nodup
  case reaped => exact fun r pid st hmem => List.mem_cons_of_mem _ (h.reaped r pid st hmem)

theorem reap (h : Ledger d g) (hkin : Kin d) {r : ℤ} (hj : (d.proc j).state = .zombie) :
    Ledger (d.modify j fun _ => freed)
      { g with reaps := (r, (d.proc j).pid, (d.proc j).xstate) :: g.reaps } := by
  have hused : (d.proc j).state ≠ .unused := by rw [hj]; decide
  -- a slot in use is another one
  have hne : ∀ k, ((d.modify j fun _ => freed).proc k).state ≠ .unused → k ≠ j := by
    rintro k hk rfl
    rw [Table.modify_proc_self] at hk
    exact hk rfl
  constructor
  case fresh => exact h.fresh
  case exits_nodup => exact h.exits_nodup
  case alive =>
    intro k hk
    have hkj := hne k (by obtain hk | hk := hk <;> rw [hk] <;> decide)
    rw [Table.modify_proc_of_ne hkj] at hk ⊢
    exact h.alive k hk
  case zombie =>
    intro k hk
    have hkj := hne k (by rw [hk]; decide)
    rw [Table.modify_proc_of_ne hkj] at hk ⊢
    exact h.zombie k hk
  case unreaped =>
    intro k hk r' st hmem
    have hkj := hne k (by rw [hk]; decide)
    rw [Table.modify_proc_of_ne hkj] at hk hmem
    obtain heq | hmem := List.mem_cons.mp hmem
    · have hpid : (d.proc k).pid = (d.proc j).pid := (Prod.mk.inj (Prod.mk.inj heq).2).1
      exact hkin.pid_unique hused k hkj (by rw [hk]; decide) hpid
    · exact h.unreaped k hk r' st hmem
  case settled =>
    intro pid st hmem
    obtain ⟨r', hr⟩ | ⟨k, hk, hpid, hx⟩ := h.settled pid st hmem
    · exact .inl ⟨r', List.mem_cons_of_mem _ hr⟩
    · by_cases hkj : k = j
      · subst hkj
        exact .inl ⟨r, List.mem_cons.mpr (.inl (by rw [hpid, hx]))⟩
      · refine .inr ⟨k, ?_⟩
        rw [Table.modify_proc_of_ne hkj]
        exact ⟨hk, hpid, hx⟩
  case reaps_nodup =>
    refine List.nodup_cons.mpr ⟨fun hmem => ?_, h.reaps_nodup⟩
    obtain ⟨⟨r', pid, st⟩, hmem, hpid⟩ := List.mem_map.mp hmem
    have hpid' : pid = (d.proc j).pid := hpid
    rw [hpid'] at hmem
    exact h.unreaped j hj r' st hmem
  case reaped =>
    intro r' pid st hmem
    obtain heq | hmem := List.mem_cons.mp hmem
    · cases heq
      exact h.zombie j hj
    · exact h.reaped r' pid st hmem

/-- **Step lemma**, under `wait_lock`. -/
theorem acts (h : Ledger d g) (hkin : Kin d) (hknows : At d t p)
    {a : Monitor.Act Table Point (Option Slot)} (hact : Acts t i d p a) :
    Ledger (a.data d) (g.note t d (a.data d) p a.point) := by
  cases hact with
  | @link np =>
    have hused : (d.proc np).state ≠ .zombie := by rw [hknows.2.1]; decide
    exact h.frame_modify (f := fun m => { m with parent := some t }) rfl rfl hused hused
      fun _ => ⟨.inl hknows.2.1, rfl⟩
  | @adopt status j hj =>
    have hsame : ∀ k, ((d.modify j fun m => { m with parent := some initproc }).proc k).state =
        (d.proc k).state ∧ ((d.modify j fun m => { m with parent := some initproc }).proc k).pid =
        (d.proc k).pid ∧ ((d.modify j fun m => { m with parent := some initproc }).proc k).xstate =
        (d.proc k).xstate := by
      intro k
      by_cases hkj : k = j
      · subst hkj
        rw [Table.modify_proc_self]
        exact ⟨rfl, rfl, rfl⟩
      · rw [Table.modify_proc_of_ne hkj]
        exact ⟨rfl, rfl, rfl⟩
    refine h.frame rfl rfl le_rfl (fun k _ => hsame k) fun k hk => .inl ⟨?_, (hsame k).2.1⟩
    rw [← (hsame k).1]
    exact hk
  | die => exact h.die hkin hknows.1
  | reap hi hj hz => exact h.reap hkin hz
  | _ => exact h

end Ledger

/-! ### Forks and parents -/

/-- `r` forked the process `c`, or it is `init` and the forker of `c` has called `kexit`. -/
def Heir (g : History) (c r : ℤ) : Prop :=
  (c, r) ∈ g.forks ∨ r = 1 ∧ ∃ f ∈ g.quits, (c, f) ∈ g.forks

theorem Heir.mono {g g' : History} {c r : ℤ} (h : Heir g c r) (hforks : g.forks ⊆ g'.forks)
    (hquits : g.quits ⊆ g'.quits) : Heir g' c r := by
  obtain h | ⟨hr, f, hf, h⟩ := h
  · exact .inl (hforks h)
  · exact .inr ⟨hr, f, hquits hf, hforks h⟩

/-- The history explains the parents, those of the past included. -/
structure Lineage (d : Table) (pt : Slot → Point) (g : History) : Prop where
  init : (d.proc initproc).pid = 1
  fresh : ∀ c f, (c, f) ∈ g.forks → c < d.nextpid
  forks_nodup : (g.forks.map Prod.fst).Nodup
  forking : ∀ t np, (pt t).forks = some np → ((d.proc np).pid, (d.proc t).pid) ∈ g.forks
  quit : ∀ t, (pt t).exiting = true → (d.proc t).pid ∈ g.quits
  parent : ∀ j q, (d.proc j).parent = some q → Heir g (d.proc j).pid (d.proc q).pid
  reaped : ∀ r c status, (r, c, status) ∈ g.reaps → Heir g c r

namespace Lineage

variable {d d' : Table} {pt : Slot → Point} {g g' : History} {t : Slot} {i : Input} {q : Point}

/-- A step of process `t`, from what it does to the table and to the history. -/
theorem move (h : Lineage d pt g) (hfam : Family d pt)
    (hpid : ∀ k, (d.proc k).state = .used ∨ (d.proc k).state = .live →
      (d'.proc k).pid = (d.proc k).pid)
    (hforks : g.forks ⊆ g'.forks) (hquits : g.quits ⊆ g'.quits)
    (hfresh : ∀ c f, (c, f) ∈ g'.forks → c < d'.nextpid) (hnodup : (g'.forks.map Prod.fst).Nodup)
    (hforking : ∀ np, q.forks = some np → ((d'.proc np).pid, (d'.proc t).pid) ∈ g'.forks)
    (hquit : q.exiting = true → (d'.proc t).pid ∈ g'.quits)
    (hparent : ∀ j u, (d'.proc j).parent = some u →
      ((d.proc j).parent = some u ∧ (d'.proc j).pid = (d.proc j).pid) ∨
        Heir g' (d'.proc j).pid (d'.proc u).pid)
    (hreaped : ∀ r c status, (r, c, status) ∈ g'.reaps →
      (r, c, status) ∈ g.reaps ∨ Heir g' c r) :
    Lineage d' (Function.update pt t q) g' := by
  have hself : Function.update pt t q t = q := Function.update_self ..
  have hother : ∀ v, v ≠ t → Function.update pt t q v = pt v := fun v hv =>
    Function.update_of_ne hv ..
  refine ⟨?_, hfresh, hnodup, fun v np hv => ?_, fun v hv => ?_, fun j u hj => ?_,
    fun r c status hmem => ?_⟩
  · rw [hpid initproc (.inr hfam.kin.init_live)]
    exact h.init
  · by_cases hvt : v = t
    · subst hvt
      rw [hself] at hv
      exact hforking np hv
    · rw [hother v hvt] at hv
      rw [hpid np (.inl ((hfam.knows v).used hv)), hpid v (.inr ((hfam.knows v).live_of_forks hv))]
      exact hforks (h.forking v np hv)
  · by_cases hvt : v = t
    · subst hvt
      rw [hself] at hv
      exact hquit hv
    · rw [hother v hvt] at hv
      rw [hpid v (.inr ((hfam.knows v).live_of_exiting hv))]
      exact hquits (h.quit v hv)
  · obtain ⟨hj, hpidj⟩ | hheir := hparent j u hj
    · rw [hpidj, hpid u (.inr (hfam.kin.parent_live j u hj))]
      exact (h.parent j u hj).mono hforks hquits
    · exact hheir
  · obtain hmem | hheir := hreaped r c status hmem
    · exact (h.reaped r c status hmem).mono hforks hquits
    · exact hheir

/-- A step that is not noted, changes no pid and makes nobody a parent. -/
theorem go (h : Lineage d pt g) (hfam : Family d pt)
    (hpid : ∀ k, (d.proc k).state = .used ∨ (d.proc k).state = .live →
      (d'.proc k).pid = (d.proc k).pid) (hnext : d.nextpid ≤ d'.nextpid)
    (hforks : ∀ np, q.forks = some np → (pt t).forks = some np)
    (hquit : q.exiting = true → (pt t).exiting = true)
    (hparent : ∀ j u, (d'.proc j).parent = some u →
      (d.proc j).parent = some u ∧ (d'.proc j).pid = (d.proc j).pid) :
    Lineage d' (Function.update pt t q) g := by
  refine h.move hfam hpid (List.Subset.refl _) (List.Subset.refl _)
    (fun c f hmem => (h.fresh c f hmem).trans_le hnext) h.forks_nodup (fun np hnp => ?_)
    (fun hq => ?_) (fun j u hj => .inl (hparent j u hj)) fun _ _ _ => .inl
  · have hnp := hforks np hnp
    rw [hpid np (.inl ((hfam.knows t).used hnp)), hpid t (.inr ((hfam.knows t).live_of_forks hnp))]
    exact h.forking t np hnp
  · have hq := hquit hq
    rw [hpid t (.inr ((hfam.knows t).live_of_exiting hq))]
    exact h.quit t hq

/-- A step to a point that is neither in `kfork` nor in `kexit`. -/
theorem leave (h : Lineage d pt g) (hfam : Family d pt) (hproc : d'.proc = d.proc)
    (hnext : d.nextpid ≤ d'.nextpid) (hforks : q.forks = none) (hquit : q.exiting = false) :
    Lineage d' (Function.update pt t q) g := by
  refine h.go hfam (fun k _ => ?_) hnext (fun np hnp => ?_) (fun hq => ?_) fun j u hj => ?_
  · rw [hproc]
  · rw [hforks] at hnp
    cases hnp
  · rw [hquit] at hq
    cases hq
  · rw [hproc] at hj ⊢
    exact ⟨hj, rfl⟩

theorem modify (h : Lineage d pt g) (hfam : Family d pt) {f : Member → Member}
    (hpid : (f (d.proc j)).pid = (d.proc j).pid)
    (hparent : (f (d.proc j)).parent = (d.proc j).parent)
    (hforks : ∀ np, q.forks = some np → (pt t).forks = some np)
    (hquit : q.exiting = true → (pt t).exiting = true) :
    Lineage (d.modify j f) (Function.update pt t q) g := by
  have hsame : ∀ k, ((d.modify j f).proc k).pid = (d.proc k).pid ∧
      ((d.modify j f).proc k).parent = (d.proc k).parent := by
    intro k
    by_cases hkj : k = j
    · subst hkj
      rw [Table.modify_proc_self]
      exact ⟨hpid, hparent⟩
    · rw [Table.modify_proc_of_ne hkj]
      exact ⟨rfl, rfl⟩
  refine h.go hfam (fun k _ => (hsame k).1) le_rfl hforks hquit fun k u hk => ⟨?_, (hsame k).1⟩
  rw [← (hsame k).2]
  exact hk

theorem exit (h : Lineage d pt g) (xs : List (ℤ × ℤ)) : Lineage d pt { g with exits := xs } :=
  ⟨h.init, h.fresh, h.forks_nodup, h.forking, h.quit, h.parent, h.reaped⟩

theorem fork (h : Lineage d pt g) (hfam : Family d pt) {np : Slot}
    (hlive : (d.proc t).state = .live) (hnp : (d.proc np).state = .unused) :
    Lineage (d.modify np fun m => { m with state := .used, pid := d.nextpid }).drawPid
      (Function.update pt t (.forking np))
      { g with forks := (d.nextpid, (d.proc t).pid) :: g.forks } := by
  have hne : ∀ k, (d.proc k).state = .used ∨ (d.proc k).state = .live → k ≠ np := by
    rintro k hk rfl
    rw [hnp] at hk
    obtain hk | hk := hk <;> cases hk
  refine h.move hfam (fun k hk => ?_) (List.subset_cons_self ..) (List.Subset.refl _)
    (fun c f hmem => ?_) (List.nodup_cons.mpr ⟨fun hmem => ?_, h.forks_nodup⟩) ?_ nofun
    (fun j u hj => ?_) fun _ _ _ => .inl
  · rw [Table.drawPid_proc, Table.modify_proc_of_ne (hne k hk)]
  · rw [Table.drawPid_nextpid, Table.modify_nextpid]
    obtain heq | hmem := List.mem_cons.mp hmem
    · cases heq
      exact Int.lt_succ _
    · exact (h.fresh c f hmem).trans (Int.lt_succ _)
  · obtain ⟨⟨c, f⟩, hmem, hc⟩ := List.mem_map.mp hmem
    have hc' : c = d.nextpid := hc
    exact absurd hc' (h.fresh c f hmem).ne
  · rintro k ⟨⟩
    rw [Table.drawPid_proc, Table.modify_proc_self, Table.modify_proc_of_ne (hne t (.inr hlive))]
    exact List.mem_cons_self
  · rw [Table.drawPid_proc] at hj ⊢
    have hjnp : j ≠ np := by
      rintro rfl
      rw [Table.modify_proc_self] at hj
      have hnone : (d.proc j).parent = some u := hj
      rw [hfam.kin.parent_none hnp] at hnone
      cases hnone
    rw [Table.modify_proc_of_ne hjnp] at hj ⊢
    exact .inl ⟨hj, rfl⟩

/-- **Step lemma**, without `wait_lock`. -/
theorem frees (h : Lineage d pt g) (hfam : Family d pt) (hfree : Frees t i d (pt t) d' q) :
    Lineage d' (Function.update pt t q) (g.note t d d' (pt t) q) := by
  generalize hpt : pt t = p at hfree
  cases hfree with
  | @fork np hi hlive hnp =>
    have hpid : ((d.modify np fun m => { m with state := .used, pid := d.nextpid }).drawPid.proc
        np).pid = d.nextpid := by
      rw [Table.drawPid_proc, Table.modify_proc_self]
    rw [History.note, hpid]
    exact h.fork hfam hlive hnp
  | @noFork np hi hnp =>
    have hproc : (d.modify np fun _ => freed).drawPid = d.drawPid := by
      rw [Table.modify, ← hfam.kin.unused np hnp, Function.update_eq_self]
    rw [hproc]
    exact h.leave hfam rfl (Int.lt_succ _).le rfl rfl
  | exit hi hlive hinit =>
    exact h.move hfam (fun _ _ => rfl) (List.Subset.refl _) (List.subset_cons_self ..) h.fresh
      h.forks_nodup (by simp [Point.forks]) (fun _ => List.mem_cons_self)
      (fun _ _ hj => .inl ⟨hj, rfl⟩) fun _ _ _ => .inl
  | wait hlive => exact h.leave hfam rfl le_rfl rfl rfl
  | start => exact h.modify hfam rfl rfl (by simp [Point.forks]) (by simp [Point.exiting])
  | back => exact h.leave hfam rfl le_rfl rfl rfl

theorem link (h : Lineage d pt g) (hfam : Family d pt) {np : Slot} (hpt : pt t = .forking np) :
    Lineage (d.modify np fun m => { m with parent := some t })
      (Function.update pt t (.forked np)) g := by
  have hpid : ∀ k, ((d.modify np fun m => { m with parent := some t }).proc k).pid =
      (d.proc k).pid := by
    intro k
    by_cases hk : k = np
    · subst hk
      rw [Table.modify_proc_self]
    · rw [Table.modify_proc_of_ne hk]
  have hfork : ((d.proc np).pid, (d.proc t).pid) ∈ g.forks := h.forking t np (by rw [hpt]; rfl)
  refine h.move hfam (fun k _ => hpid k) (List.Subset.refl _) (List.Subset.refl _) h.fresh
    h.forks_nodup ?_ nofun (fun j u hj => ?_) fun _ _ _ => .inl
  · rintro k ⟨⟩
    rw [hpid, hpid]
    exact hfork
  · rw [hpid j, hpid u]
    by_cases hjnp : j = np
    · subst hjnp
      rw [Table.modify_proc_self] at hj
      cases hj
      exact .inr (.inl hfork)
    · rw [Table.modify_proc_of_ne hjnp] at hj
      exact .inl ⟨hj, rfl⟩

theorem adopt (h : Lineage d pt g) (hfam : Family d pt) {status : ℤ}
    (hpt : pt t = .reparenting status j) (hj : (d.proc j).parent = some t) :
    Lineage (d.modify j fun m => { m with parent := some initproc })
      (Function.update pt t (.adopting status j)) g := by
  have hpid : ∀ k, ((d.modify j fun m => { m with parent := some initproc }).proc k).pid =
      (d.proc k).pid := by
    intro k
    by_cases hk : k = j
    · subst hk
      rw [Table.modify_proc_self]
    · rw [Table.modify_proc_of_ne hk]
  have hquit : (d.proc t).pid ∈ g.quits := h.quit t (by rw [hpt]; rfl)
  refine h.move hfam (fun k _ => hpid k) (List.Subset.refl _) (List.Subset.refl _) h.fresh
    h.forks_nodup nofun (fun _ => by rw [hpid]; exact hquit) (fun k u hk => ?_) fun _ _ _ => .inl
  rw [hpid k, hpid u]
  by_cases hkj : k = j
  · subst hkj
    rw [Table.modify_proc_self] at hk
    cases hk
    rw [h.init]
    obtain hfork | ⟨-, hf⟩ := h.parent k t hj
    · exact .inr (.inr ⟨rfl, _, hquit, hfork⟩)
    · exact .inr (.inr ⟨rfl, hf⟩)
  · rw [Table.modify_proc_of_ne hkj] at hk
    exact .inl ⟨hk, rfl⟩

theorem reap (h : Lineage d pt g) (hfam : Family d pt) {pid status : ℤ}
    (hj : (d.proc j).parent = some t) (hz : (d.proc j).state = .zombie) :
    Lineage (d.modify j fun _ => freed) (Function.update pt t (.reaped pid status))
      { g with reaps := ((d.proc t).pid, (d.proc j).pid, (d.proc j).xstate) :: g.reaps } := by
  refine h.move hfam (fun k hk => ?_) (List.Subset.refl _) (List.Subset.refl _) h.fresh
    h.forks_nodup nofun nofun (fun k u hk => .inl ?_) fun r c st hmem => ?_
  · rw [Table.modify_proc_of_ne]
    rintro rfl
    rw [hz] at hk
    obtain hk | hk := hk <;> cases hk
  · have hkj : k ≠ j := by
      rintro rfl
      rw [Table.modify_proc_self] at hk
      cases hk
    rw [Table.modify_proc_of_ne hkj] at hk ⊢
    exact ⟨hk, rfl⟩
  · obtain heq | hmem := List.mem_cons.mp hmem
    · cases heq
      exact .inr (h.parent j t hj)
    · exact .inl hmem

/-- **Step lemma**, under `wait_lock`. -/
theorem acts (h : Lineage d pt g) (hfam : Family d pt)
    {a : Monitor.Act Table Point (Option Slot)} (hact : Acts t i d (pt t) a) :
    Lineage (a.data d) (Function.update pt t a.point) (g.note t d (a.data d) (pt t) a.point) := by
  generalize hpt : pt t = p at hact
  -- the steps that leave the table alone
  have hgo : ∀ q : Point, (∀ np, q.forks = some np → p.forks = some np) →
      (q.exiting = true → p.exiting = true) → Lineage d (Function.update pt t q) g := by
    intro q hforks hquit
    refine h.go hfam (fun _ _ => rfl) le_rfl ?_ ?_ fun _ _ hj => ⟨hj, rfl⟩
    · rw [hpt]
      exact hforks
    · rw [hpt]
      exact hquit
  cases hact with
  | link => exact h.link hfam hpt
  | linked => exact hgo _ (fun _ => id) nofun
  | adopt hj => exact h.adopt hfam hpt hj
  | @die status c =>
    have hdead : Lineage (d.modify t fun m => { m with xstate := status, state := .zombie })
        (Function.update pt t (.dead c)) g := h.modify hfam rfl rfl nofun nofun
    exact hdead.exit _
  | reap hi hj hz => exact h.reap hfam hj hz
  | pass hj | adopted | wakeParent hj => exact hgo _ nofun fun _ => rfl
  | _ => exact h.leave hfam rfl le_rfl rfl rfl

end Lineage

/-! ### Runs -/

variable {s s' : Monitor.State Slot Table Point (Option Slot)}

end MiniOs.Xv6.Families
