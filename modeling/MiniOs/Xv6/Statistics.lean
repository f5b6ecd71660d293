import Mathlib
import MiniOs.Xv6.SlotSteps

/-!
# The scheduler's statistics

Five fields of a process record what the scheduler did with it: `ctime`, `first_run_time`
and `etime` are the ticks at which it was created, first run and exited, and `rtime` and
`wtime` count the ticks it was `RUNNING` and `RUNNABLE`. They are written by `allocproc`,
`note_dispatch`, `update_times` and `kexit`, and stay in the slot until it is reused.

The tick counter is converted to the `int` fields, so the results are about runs in which
it stays below `2^31`.
-/

namespace MiniOs.Xv6

open Trace

variable {a : Account} {now : Int} {ran : Bool}

/-- What an observer of a run notes down. -/
structure History where
  /-- The process in the slot has been dispatched since it was created. -/
  ran : Slot → Bool
  /-- The running times of the processes that have been reaped. -/
  reaped : List Int

/-- Nothing has happened. -/
def History.start : History := ⟨fun _ => false, []⟩

def record (k : Kernel) : Event → History → History
  | .allocproc i, g => { g with ran := Function.update g.ran i false }
  | .dispatch i, g => { g with ran := Function.update g.ran i true }
  | .kwait i, g => { g with reaped := (k.proc i).rtime :: g.reaped }
  | _, g => g

/-- The tick counter stays in the range of `int`. -/
def TicksFit (k : Kernel) (e : Event) : Prop := ∀ user, e = .timer user → k.ticks + 1 < 2 ^ 31

instance (k : Kernel) (e : Event) : Decidable (TicksFit k e) :=
  inferInstanceAs (Decidable (∀ _, _))

/-- How the account of a process is related to the clock. -/
structure Timed (now : Int) (ran : Bool) (s : ProcState) (a : Account) : Prop where
  ctime_nonneg : 0 ≤ a.ctime
  rtime_nonneg : 0 ≤ a.rtime
  wtime_nonneg : 0 ≤ a.wtime
  spent_le : s ≠ .zombie → a.rtime + a.wtime ≤ now - a.ctime
  never_ran : ran = false → a.firstRunTime = -1
  has_run : s ≠ .zombie → ran = true → a.ctime ≤ a.firstRunTime ∧ a.firstRunTime ≤ now
  started : s = .running ∨ s = .sleeping ∨ s = .zombie → ran = true
  exited : s = .zombie → a.ctime ≤ a.firstRunTime ∧ a.firstRunTime ≤ a.etime ∧
    a.rtime + a.wtime ≤ a.etime - a.ctime ∧ a.etime ≤ now

def liveRtime (p : Proc) : Int := if p.state = .unused then 0 else p.rtime

/-- The running times of all processes ever created. -/
def totalRtime (k : Kernel) (g : History) : Int := g.reaped.sum + ∑ x, liveRtime (k.proc x)

variable {b : Build} {k k' : Kernel} {e : Event} {g : History} {x : Slot}

theorem asInt_of_lt {t : ℕ} (h : t < 2 ^ 31) : asInt t = t := if_pos h

theorem record_ran (hx : ¬ Concerns x e) : (record k e g).ran x = g.ran x := by
  cases e with
  | allocproc i => exact Function.update_of_ne (Ne.symm hx) _ _
  | dispatch i => exact Function.update_of_ne (Ne.symm hx) _ _
  | _ => rfl

theorem ticks_of_step (h : step b k e = some k') (hfit : TicksFit k e) (hk : k.ticks < 2 ^ 31) :
    k'.ticks < 2 ^ 31 ∧ ((∃ user, e = .timer user) → (k'.ticks : Int) = k.ticks + 1) ∧
      ((∀ user, e ≠ .timer user) → k'.ticks = k.ticks) := by
  obtain ⟨user, rfl, ht⟩ | ⟨hne, ht⟩ := step_ticks h
  · have hlt : k.ticks + 1 < 2 ^ 31 := hfit user rfl
    rw [Nat.mod_eq_of_lt (by omega)] at ht
    refine ⟨by omega, fun _ => by omega, fun hne => absurd rfl (hne user)⟩
  · refine ⟨by omega, ?_, fun _ => ht⟩
    rintro ⟨user, rfl⟩
    exact absurd rfl (hne user)

/-- Between two states that are not `ZOMBIE` the account stays in order. -/
theorem Timed.of_state {s t : ProcState} (h : Timed now ran s a) (hs : s ≠ .zombie)
    (ht : t ≠ .zombie) (hran : t = .running ∨ t = .sleeping → ran = true) : Timed now ran t a where
  ctime_nonneg := h.ctime_nonneg
  rtime_nonneg := h.rtime_nonneg
  wtime_nonneg := h.wtime_nonneg
  spent_le _ := h.spent_le hs
  never_ran := h.never_ran
  has_run _ := h.has_run hs
  started ht' := by
    obtain ht' | ht' | ht' := ht'
    · exact hran (.inl ht')
    · exact hran (.inr ht')
    · exact absurd ht' ht
  exited ht' := absurd ht' ht

/-- A process has been dispatched exactly if its first run is noted down. -/
theorem Timed.firstRunTime_iff {s : ProcState} (h : Timed now ran s a) :
    a.firstRunTime = -1 ↔ ran = false := by
  refine ⟨fun hfirst => ?_, h.never_ran⟩
  have hnonneg := h.ctime_nonneg
  by_contra hran
  rw [Bool.not_eq_false] at hran
  by_cases hz : s = .zombie
  · have := (h.exited hz).1
    omega
  · have := (h.has_run hz hran).1
    omega

theorem charge_spent (a : Account) (s : ProcState) :
    (a.charge s).rtime + (a.charge s).wtime ≤ a.rtime + a.wtime + 1 ∧
      a.rtime ≤ (a.charge s).rtime ∧ a.wtime ≤ (a.charge s).wtime := by
  cases s <;> simp only [Account.charge] <;> omega

theorem charge_times (a : Account) (s : ProcState) :
    (a.charge s).ctime = a.ctime ∧ (a.charge s).firstRunTime = a.firstRunTime ∧
      (a.charge s).etime = a.etime := by
  cases s <;> exact ⟨rfl, rfl, rfl⟩

/-- A tick leaves a process of state `p` in state `q`, and finds it in state `s` when it is
    charged. -/
theorem Timed.tick {p s q : ProcState} (h : Timed now ran p a)
    (hs : s = p ∨ p = .sleeping ∧ s = .runnable) (hq : q = s ∨ s = .running ∧ q = .runnable) :
    Timed (now + 1) ran q (a.charge s) := by
  obtain ⟨hspent, hrtime, hwtime⟩ := charge_spent a s
  obtain ⟨hctime, hfirst, hetime⟩ := charge_times a s
  have hzombie : q ≠ .zombie → p ≠ .zombie := by
    rintro hq' rfl
    simp_all
  have hstarted : q = .running ∨ q = .sleeping ∨ q = .zombie →
      p = .running ∨ p = .sleeping ∨ p = .zombie := by
    intro hq'
    obtain rfl | ⟨rfl, rfl⟩ := hs <;> grind
  refine ⟨?_, ?_, ?_, fun hne => ?_, ?_, fun hne hran => ?_, fun hq' => h.started (hstarted hq'),
    fun hz => ?_⟩
  · rw [hctime]
    exact h.ctime_nonneg
  · exact Int.le_trans h.rtime_nonneg hrtime
  · exact Int.le_trans h.wtime_nonneg hwtime
  · have := h.spent_le (hzombie hne)
    rw [hctime]
    omega
  · rw [hfirst]
    exact h.never_ran
  · obtain ⟨hlo, hhi⟩ := h.has_run (hzombie hne) hran
    rw [hctime, hfirst]
    omega
  · -- a zombie is not charged
    have hp : p = .zombie ∧ s = .zombie := by
      subst hz
      obtain rfl | ⟨rfl, rfl⟩ := hs <;> simp_all
    obtain ⟨hlo, hhi, hsum, hend⟩ := h.exited hp.1
    rw [hp.2]
    exact ⟨hlo, hhi, hsum, by
      show a.etime ≤ now + 1
      omega⟩

theorem Timed.create (pid : Int) (ticks : ℕ) :
    Timed ticks false .used ⟨pid, ticks, -1, -1, 0, 0⟩ where
  ctime_nonneg := Int.natCast_nonneg _
  rtime_nonneg := Int.le_refl _
  wtime_nonneg := Int.le_refl _
  spent_le _ := by simp
  never_ran _ := rfl
  has_run := by simp
  started := by simp
  exited := by simp

theorem Timed.exit (h : Timed now ran .running a) :
    Timed now ran .zombie { a with etime := now } := by
  have hran := h.started (.inl rfl)
  have hspent := h.spent_le (by simp)
  obtain ⟨hlo, hhi⟩ := h.has_run (by simp) hran
  exact ⟨h.ctime_nonneg, h.rtime_nonneg, h.wtime_nonneg, by simp, h.never_ran, by simp,
    fun _ => hran, fun _ => ⟨hlo, hhi, hspent, Int.le_refl _⟩⟩

/-- A process is dispatched, for the first time or again. -/
theorem Timed.dispatch {ticks : ℕ} (ht : ticks < 2 ^ 31) (h : Timed ticks ran .runnable a) :
    Timed ticks true .running (a.note ticks) := by
  have hspent := h.spent_le (by simp)
  have hfirst : a.ctime ≤ (a.note ticks).firstRunTime ∧ (a.note ticks).firstRunTime ≤ ticks := by
    cases ran with
    | false =>
      have hrtime := h.rtime_nonneg
      have hwtime := h.wtime_nonneg
      simp only [Account.note, h.never_ran rfl, if_pos, asInt_of_lt ht]
      omega
    | true =>
      obtain ⟨hlo, hhi⟩ := h.has_run (by simp) rfl
      have hnonneg := h.ctime_nonneg
      have hne : a.firstRunTime ≠ -1 := by omega
      simp only [Account.note, if_neg hne]
      exact ⟨hlo, hhi⟩
  exact ⟨h.ctime_nonneg, h.rtime_nonneg, h.wtime_nonneg, fun _ => hspent, by simp,
    fun _ _ => hfirst, fun _ => rfl, by simp⟩

/-- **A step keeps the accounts in order.** -/
theorem timed_of_step (hk : Alone k) (ht : k.ticks < 2 ^ 31)
    (hI : (k.proc x).state ≠ .unused →
      Timed k.ticks (g.ran x) (k.proc x).state (k.proc x).account)
    (hfit : TicksFit k e) (h : step b k e = some k') (hlive : (k'.proc x).state ≠ .unused) :
    Timed k'.ticks ((record k e g).ran x) (k'.proc x).state (k'.proc x).account := by
  obtain ⟨-, hclock, hstill⟩ := ticks_of_step h hfit ht
  have hrunning : k.cpu 0 = some x → (k.proc x).state = .running := (hk.running_iff x).mpr
  generalize hq : k'.proc x = q at hlive
  have hchange := hq ▸ step_change hk.1 h x
  cases hchange with
  | spared he hs =>
    have hticks : k'.ticks = k.ticks := hstill fun user hu => he (hu ▸ trivial)
    have hold := hI fun hu => by
      have := hs.state
      simp_all
    rw [hticks, record_ran he, hs.account]
    obtain hsame | ⟨hsleep, hready⟩ := hs.state
    · rw [hsame]
      exact hold
    · -- a process that is woken up has slept, so it has run
      have hran := hold.started (.inr (.inl hsleep))
      exact hold.of_state (by simp [hsleep]) (by simp [hready]) fun _ => hran
  | create hu hs ha =>
    have hticks : k'.ticks = k.ticks := hstill (by simp)
    have hran : (record k (.allocproc x) g).ran x = false := Function.update_self _ _ _
    rw [hticks, hran, ha, hs, asInt_of_lt ht]
    exact Timed.create _ _
  | abort he hu hs => exact absurd hs hlive
  | ready hu hs ha =>
    have hticks : k'.ticks = k.ticks := hstill (by simp)
    have hold := hI (by simp [hu])
    have hran : (record k (.kforkRunnable x) g).ran x = g.ran x := rfl
    rw [hticks, hran, ha]
    exact hold.of_state (by simp [hu]) (by simp [hs]) (by simp [hs])
  | sleep he hc hs ha =>
    have hticks : k'.ticks = k.ticks := hstill fun user hu => by
      rw [hu] at he
      exact he
    have hrun := hrunning hc
    have hold := hI (by simp [hrun])
    have hran := hold.started (.inl hrun)
    rw [hticks, record_ran (not_concerns_of_sleeps he), ha]
    exact hold.of_state (by simp [hrun]) (by simp [hs]) fun _ => hran
  | @exit status _ hc hs ha =>
    have hticks : k'.ticks = k.ticks := hstill (by simp)
    have hrun := hrunning hc
    have hold := hrun ▸ hI (by simp [hrun])
    have hrec : (record k (.kexit status) g).ran x = g.ran x := rfl
    rw [hticks, hrec, ha, hs, asInt_of_lt ht]
    exact hold.exit
  | free hz hs => exact absurd hs hlive
  | run hc hr hs ha =>
    have hticks : k'.ticks = k.ticks := hstill (by simp)
    have hold := hr ▸ hI (by simp [hr])
    have hran : (record k (.dispatch x) g).ran x = true := Function.update_self _ _ _
    rw [hticks, hran, ha, hs]
    exact hold.dispatch ht
  | @tick user _ s hs ha hstate =>
    have hticks := hclock ⟨user, rfl⟩
    have hold := hI fun hu => by
      rw [hu] at hs
      have : s = .unused := by simpa using hs
      rw [this] at hstate
      exact hlive (by simpa using hstate)
    have hrec : (record k (.timer user) g).ran x = g.ran x := rfl
    rw [hrec, ha, hticks]
    exact hold.tick hs hstate

/-! ## The running times of all processes -/

def reapedAt (k : Kernel) (e : Event) (x : Slot) : Int :=
  if e = .kwait x then (k.proc x).rtime else 0

theorem liveRtime_eq (p : Proc) (h : p.state ≠ .unused) : liveRtime p = p.account.rtime :=
  if_neg h

/-- A step that is no tick only moves running times to the observer. -/
theorem liveRtime_of_step (hk : CpuInv k) (h : step b k e = some k')
    (hne : ∀ user, e ≠ .timer user) (x : Slot) :
    liveRtime (k'.proc x) + reapedAt k e x = liveRtime (k.proc x) := by
  generalize hq : k'.proc x = q
  have hchange := hq ▸ step_change hk h x
  have hnone : ¬ e = .kwait x → reapedAt k e x = 0 := fun h => if_neg h
  -- a process that lives on with the same running time
  have hsame : ¬ e = .kwait x → (k.proc x).state ≠ .unused → q.state ≠ .unused →
      q.account.rtime = (k.proc x).account.rtime →
      liveRtime q + reapedAt k e x = liveRtime (k.proc x) := by
    intro hwait hp hq hrtime
    rw [hnone hwait, liveRtime_eq q hq, hrtime, liveRtime_eq _ hp]
    exact Int.add_zero _
  cases hchange with
  | spared he hs =>
    have hreaped : reapedAt k e x = 0 := hnone fun heq => he (heq ▸ rfl)
    have hunused : q.state = .unused ↔ (k.proc x).state = .unused := by
      have := hs.state
      grind
    have hrtime : q.rtime = (k.proc x).rtime := congrArg Account.rtime hs.account
    rw [hreaped, liveRtime, liveRtime, hrtime]
    simp [hunused]
  | create hu hs ha =>
    rw [hnone (by simp), liveRtime_eq q (by simp [hs]), ha, liveRtime, if_pos hu]
    rfl
  | abort he hu hs =>
    rw [hnone fun heq => he (heq ▸ rfl), liveRtime, liveRtime, if_pos hs, if_pos hu]
    rfl
  | ready hu hs ha => exact hsame (by simp) (by simp [hu]) (by simp [hs]) (by rw [ha])
  | sleep he hc hs ha =>
    refine hsame ?_ (by simp [hk.running_of_cpu 0 x hc]) (by simp [hs]) (by rw [ha])
    rintro rfl
    exact he
  | exit hc hs ha =>
    exact hsame (by simp) (by simp [hk.running_of_cpu 0 x hc]) (by simp [hs]) (by rw [ha])
  | free hz hs =>
    rw [reapedAt, if_pos rfl, liveRtime, if_pos hs, liveRtime_eq _ (by simp [hz])]
    exact Int.zero_add _
  | run hc hr hs ha =>
    refine hsame (by simp) (by simp [hr]) (by simp [hs]) ?_
    rw [ha]
    rfl
  | @tick user => exact absurd rfl (hne user)

theorem sum_reapedAt (k : Kernel) (e : Event) (g : History) :
    (record k e g).reaped.sum = g.reaped.sum + ∑ x, reapedAt k e x := by
  cases e with
  | kwait i =>
    have hsum : ∑ x, reapedAt k (.kwait i) x = (k.proc i).rtime := by
      have : ∀ x, reapedAt k (.kwait i) x = if i = x then (k.proc x).rtime else 0 := by
        intro x
        simp [reapedAt]
      simp [this]
    rw [hsum, Int.add_comm]
    exact List.sum_cons
  | _ => simp [reapedAt, record]

theorem liveRtime_of_tick (hk : Alone k) {user : Bool} (h : step b k (.timer user) = some k')
    (x : Slot) :
    liveRtime (k'.proc x) ≤ liveRtime (k.proc x) + if k.cpu 0 = some x then 1 else 0 := by
  generalize hq : k'.proc x = q
  have hchange := hq ▸ step_change hk.1 h x
  have hrunning := hk.running_iff x
  cases hchange with
  | spared he hs => exact absurd trivial he
  | abort he hu hs => exact absurd trivial he
  | sleep he hc hs ha => exact absurd he id
  | @tick _ _ s hs ha hstate =>
    have hrtime : q.rtime = ((k.proc x).account.charge s).rtime := congrArg Account.rtime ha
    by_cases hu : (k.proc x).state = .unused
    · have hq : q.state = .unused := by
        rw [hu] at hs
        have : s = .unused := by simpa using hs
        rw [this] at hstate
        simpa using hstate
      rw [liveRtime, liveRtime, if_pos hq, if_pos hu]
      split <;> decide
    · have hlive : q.state ≠ .unused := by grind
      rw [liveRtime, liveRtime, if_neg hlive, if_neg hu, hrtime]
      by_cases hrun : k.cpu 0 = some x
      · have := hrunning.mpr hrun
        have hs' : s = .running := by
          rw [this] at hs
          simpa using hs
        rw [if_pos hrun, hs']
        exact Int.le_refl _
      · have hs' : s ≠ .running := by
          rintro rfl
          obtain hs | ⟨-, hs⟩ := hs
          · exact hrun (hrunning.mp hs.symm)
          · cases hs
        rw [if_neg hrun, Int.add_zero]
        cases s <;> first | exact absurd rfl hs' | exact Int.le_refl _

/-- **A step keeps the sum of the running times below the clock.** -/
theorem totalRtime_of_step (hk : Alone k) (ht : k.ticks < 2 ^ 31) (hI : totalRtime k g ≤ k.ticks)
    (hfit : TicksFit k e) (h : step b k e = some k') :
    totalRtime k' (record k e g) ≤ k'.ticks := by
  obtain ⟨-, hclock, hstill⟩ := ticks_of_step h hfit ht
  by_cases htimer : ∃ user, e = .timer user
  · obtain ⟨user, rfl⟩ := htimer
    have hsum : ∑ x, liveRtime (k'.proc x) ≤ ∑ x, liveRtime (k.proc x) + 1 := by
      calc ∑ x, liveRtime (k'.proc x)
          ≤ ∑ x, (liveRtime (k.proc x) + if k.cpu 0 = some x then 1 else 0) :=
            Finset.sum_le_sum fun x _ => liveRtime_of_tick hk h x
        _ = ∑ x, liveRtime (k.proc x) + ∑ x, (if k.cpu 0 = some x then 1 else 0) :=
            Finset.sum_add_distrib
        _ ≤ ∑ x, liveRtime (k.proc x) + 1 := by
            refine Int.add_le_add_left ?_ _
            cases k.cpu 0 with
            | none => simp
            | some i => simp
    have hreaped : (record k (.timer user) g).reaped.sum = g.reaped.sum := rfl
    rw [totalRtime, hreaped, hclock ⟨user, rfl⟩]
    rw [totalRtime] at hI
    omega
  · have hne : ∀ user, e ≠ .timer user := fun user hu => htimer ⟨user, hu⟩
    have hsum : ∑ x, liveRtime (k'.proc x) + ∑ x, reapedAt k e x = ∑ x, liveRtime (k.proc x) := by
      rw [← Finset.sum_add_distrib]
      exact Finset.sum_congr rfl fun x _ => liveRtime_of_step hk.1 h hne x
    rw [totalRtime, sum_reapedAt, hstill hne]
    rw [totalRtime] at hI
    omega

/-! ## Whole runs -/

/-- What holds of the statistics at every moment of a run. -/
structure StatInv (k : Kernel) (g : History) : Prop where
  alone : Alone k
  ticks_lt : k.ticks < 2 ^ 31
  timed : ∀ x, (k.proc x).state ≠ .unused →
    Timed k.ticks (g.ran x) (k.proc x).state (k.proc x).account
  total_le : totalRtime k g ≤ k.ticks

theorem StatInv.step (hI : StatInv k g) (hfit : TicksFit k e) (h : step b k e = some k') :
    StatInv k' (record k e g) where
  alone := hI.alone.step h
  ticks_lt := (ticks_of_step h hfit hI.ticks_lt).1
  timed _ hlive := timed_of_step hI.alone hI.ticks_lt (hI.timed _) hfit h hlive
  total_le := totalRtime_of_step hI.alone hI.ticks_lt hI.total_le hfit h

theorem boot_statInv (b : Build) : StatInv (boot b) History.start where
  alone := boot_alone b
  ticks_lt := by
    rw [boot_ticks]
    decide
  timed x hlive := by
    by_cases hx : x = initproc
    · subst hx
      rw [boot_initproc_state, boot_initproc_account, boot_ticks]
      exact ⟨by decide, by decide, by decide, fun _ => by decide, fun _ => rfl,
        by simp [History.start], by decide, by simp⟩
    · exact absurd (by rw [boot_proc_of_ne b hx]; rfl) hlive
  total_le := by
    have hzero : ∀ x, liveRtime ((boot b).proc x) = 0 := by
      intro x
      by_cases hx : x = initproc
      · subst hx
        rw [liveRtime_eq _ (by simp [boot_initproc_state]), boot_initproc_account]
      · rw [boot_proc_of_ne b hx]
        rfl
    rw [totalRtime, boot_ticks, Finset.sum_eq_zero fun x _ => hzero x]
    decide

/-- After the first dispatch `first_run_time` stays until the process is reaped. -/
theorem firstRunTime_of_exec {fs : List Event} (hk : Alone k) (hlive : (k.proc x).state ≠ .unused)
    (hran : (k.proc x).firstRunTime ≠ -1) (hfs : Event.kwait x ∉ fs)
    (h : exec (step b) k fs = some k') :
    (k'.proc x).firstRunTime = (k.proc x).firstRunTime := by
  have hok : Guarded (step b) (fun _ e => e ≠ .kwait x) k fs :=
    guarded_of_forall_mem (fun e he _ => ne_of_mem_of_not_mem he hfs) k
  refine (exec_invariant_of_guarded (I := fun m : Kernel => Alone m ∧
    (m.proc x).state ≠ .unused ∧ (m.proc x).firstRunTime = (k.proc x).firstRunTime)
    ?_ ⟨hk, hlive, rfl⟩ hok h).2.2
  rintro m e m' ⟨hm, hlive, hfirst⟩ hne h
  refine ⟨hm.step h, ?_⟩
  have hsame : ∀ {q : Proc}, q.account.firstRunTime = (m.proc x).account.firstRunTime →
      q.firstRunTime = (k.proc x).firstRunTime := fun hq => Eq.trans hq hfirst
  generalize hq : m'.proc x = q
  have hchange := hq ▸ step_change hm.1 h x
  cases hchange with
  | spared he hs =>
    refine ⟨?_, hsame (by rw [hs.account])⟩
    have := hs.state
    grind
  | create hu hs ha => exact absurd hu hlive
  | abort he hu hs => exact absurd hu hlive
  | ready hu hs ha => exact ⟨by simp [hs], hsame (by rw [ha])⟩
  | sleep he hc hs ha => exact ⟨by simp [hs], hsame (by rw [ha])⟩
  | exit hc hs ha => exact ⟨by simp [hs], hsame (by rw [ha])⟩
  | free hz hs => exact absurd rfl hne
  | run hc hr hs ha =>
    refine ⟨by simp [hs], hsame ?_⟩
    have hset : (m.proc x).account.firstRunTime ≠ -1 := by
      rw [← hfirst] at hran
      exact hran
    rw [ha, Account.note, if_neg hset]
  | @tick user _ s hs ha hstate =>
    refine ⟨by grind, hsame ?_⟩
    rw [ha]
    exact (charge_times _ s).2.1

/-- **The scheduler's statistics are consistent**, on one CPU and under every scheduler, in
    every run in which the tick counter stays below `2^31`. A process has not waited and run
    for longer than it exists; at its exit the three times are in order and enclose the ticks
    it spent; `first_run_time` is `-1` exactly while it has never been dispatched, and stays
    the same from then on; and all processes together have run for at most `ticks`. -/
theorem scheduler_statistics_consistent (b : Build) {es : List Event} {k : Kernel}
    (h : exec (step b) (boot b) es = some k)
    (hticks : Guarded (step b) TicksFit (boot b) es) :
    let g := observe (step b) record (boot b) History.start es
    (∀ x, (k.proc x).state ≠ .unused →
      (k.proc x).rtime + (k.proc x).wtime ≤ k.ticks - (k.proc x).ctime ∧
      ((k.proc x).firstRunTime = -1 ↔ g.ran x = false)) ∧
    (∀ x, (k.proc x).state = .zombie →
      (k.proc x).ctime ≤ (k.proc x).firstRunTime ∧
      (k.proc x).firstRunTime ≤ (k.proc x).etime ∧
      (k.proc x).rtime + (k.proc x).wtime ≤ (k.proc x).etime - (k.proc x).ctime) ∧
    (∀ x fs k', (k.proc x).state ≠ .unused → g.ran x = true → Event.kwait x ∉ fs →
      exec (step b) k fs = some k' → (k'.proc x).firstRunTime = (k.proc x).firstRunTime) ∧
    totalRtime k g ≤ k.ticks := by
  intro g
  have hI : StatInv k g :=
    observe_invariant (fun _ _ _ _ hI hfit h => hI.step hfit h) (boot_statInv b) hticks h
  refine ⟨fun x hx => ⟨?_, (hI.timed x hx).firstRunTime_iff⟩, fun x hx => ?_,
    fun x fs k' hx hran hfs hrun => ?_, hI.total_le⟩
  · have htimed := hI.timed x hx
    by_cases hz : (k.proc x).state = .zombie
    · obtain ⟨-, -, hspent, hend⟩ := htimed.exited hz
      exact Int.le_trans hspent (Int.sub_le_sub_right hend _)
    · exact htimed.spent_le hz
  · obtain ⟨hlo, hhi, hspent, -⟩ := (hI.timed x (by simp [hx])).exited hx
    exact ⟨hlo, hhi, hspent⟩
  · refine firstRunTime_of_exec hI.alone hx (fun hfirst => ?_) hfs hrun
    have := (hI.timed x hx).firstRunTime_iff.mp hfirst
    rw [hran] at this
    cases this

/-- `init` runs for a tick, forks, and waits for a child that runs for two ticks. -/
def forkAndWait : List Event :=
  [.dispatch initproc, .timer true, .dispatch initproc, .allocproc firstChild,
    .kforkParent firstChild, .kforkRunnable firstChild, .timer true, .dispatch initproc,
    .sleepWait, .dispatch firstChild, .timer true, .dispatch firstChild, .timer true,
    .dispatch firstChild, .kexit 0]

theorem scheduler_statistics_consistent_fork :
    ∃ k ∈ exec (step .fcfs) (boot .fcfs) forkAndWait,
      (k.proc firstChild).state = .zombie ∧ (k.proc firstChild).rtime = 2 ∧
      (k.proc firstChild).wtime = 1 ∧
      (k.proc firstChild).rtime + (k.proc firstChild).wtime ≤
        (k.proc firstChild).etime - (k.proc firstChild).ctime := by
  have hrun : ∃ k ∈ exec (step .fcfs) (boot .fcfs) forkAndWait,
      (k.proc firstChild).state = .zombie ∧ (k.proc firstChild).rtime = 2 ∧
      (k.proc firstChild).wtime = 1 := by
    decide +kernel
  obtain ⟨k, hk, hz, hr, hw⟩ := hrun
  have hticks : Guarded (step .fcfs) TicksFit (boot .fcfs) forkAndWait := by decide +kernel
  exact ⟨k, hk, hz, hr, hw,
    ((scheduler_statistics_consistent .fcfs hk hticks).2.1 firstChild hz).2.2⟩

end MiniOs.Xv6
