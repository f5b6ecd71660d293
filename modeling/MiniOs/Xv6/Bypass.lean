import MiniOs.Xv6.Uniprocessor

/-!
# Bounded bypass after a priority boost

When `mlfq_boost` returns, every waiting process is in queue 0 and the order
among them is the order of their arrival stamps. Whatever happens afterwards, a
process that enters a ready queue draws a stamp above all of these, so until a
waiting process `p` is dispatched only those ahead of it at the boost run, each
of them once.
-/

namespace MiniOs.Xv6

open Trace

variable {k₀ k k' m n : Kernel} {p x : Slot}

theorem exec_step_stampRel {es : List Event} (hk : CpuInv k)
    (h : exec (step .mlfq) k es = some k') : StampRel k k' := by
  have hfine : Reaches (sectionStep .mlfq) (fun _ => True) k k' :=
    exec_sections (fun _ _ _ _ => trivial) h
  have hI : CpuInv k' ∧ StampRel k k' := by
    refine hfine.invariant (I := fun m => CpuInv m ∧ StampRel k m) ?_ ⟨hk, .refl k⟩
    rintro m d m' ⟨hm, hrel⟩ - hd
    exact ⟨sectionStep_cpuInv hm hd, hrel.trans (sectionStep_stampRel hm hd)⟩
  exact hI.2

theorem stampInv_of_reaches {Q : Section → Prop} (h : Reaches (sectionStep .mlfq) Q k k')
    (hk : CpuInv k) (hs : StampInv k) : CpuInv k' ∧ StampInv k' := by
  refine h.invariant (I := fun m => CpuInv m ∧ StampInv m) ?_ ⟨hk, hs⟩
  rintro m d m' ⟨hm, hsm⟩ - hd
  exact ⟨sectionStep_cpuInv hm hd, sectionStep_stampInv hm hd hsm⟩

theorem boot_waiting (hx : Waiting (boot .mlfq) x) : x = initproc := by
  by_contra hne
  rw [Waiting, boot_proc_of_ne .mlfq hne] at hx
  cases hx

theorem boot_stampInv : StampInv (boot .mlfq) := by
  intro _
  constructor
  · intro x hx
    rw [boot_waiting hx]
    decide
  · intro x y hx hy _
    rw [boot_waiting hx, boot_waiting hy]

/-- What holds of the waiting process `p` until it is dispatched; `k₀` is the
    kernel when `mlfq_boost` returned. -/
structure Holds (k₀ : Kernel) (p : Slot) (m : Kernel) : Prop where
  cpu : CpuInv m
  rel : StampRel k₀ m
  waiting : Waiting m p
  queue : (m.proc p).queue = 0
  stamp : (m.proc p).enqTime = (k₀.proc p).enqTime

theorem Holds.of_section {d : Section} (hm : Holds k₀ p m) (hd : ∀ c, d ≠ .dispatch c p)
    (h : sectionStep .mlfq m d = some n) : Holds k₀ p n := by
  obtain ⟨hwait, hstamp, hqueue⟩ := sectionStep_stays_waiting hm.cpu h hm.waiting hd
  refine ⟨sectionStep_cpuInv hm.cpu h, hm.rel.trans (sectionStep_stampRel hm.cpu h), hwait, ?_, ?_⟩
  · rcases hqueue with hq | hq
    · rw [hq, hm.queue]
    · exact hq
  · rw [hstamp, hm.stamp]

/-- Every run of the CPU that does not dispatch `p` keeps its place. -/
theorem Holds.run {es : List Event} (hm : Holds k₀ p m) (hes : Event.dispatch p ∉ es)
    (h : exec (step .mlfq) m es = some n) : Holds k₀ p n := by
  have hfine : Reaches (sectionStep .mlfq) (fun d => ∀ c, d ≠ .dispatch c p) m n := by
    refine exec_sections ?_ h
    rintro e he d hwithin c rfl
    have hdisp : e = .dispatch p := hwithin
    exact hes (hdisp ▸ he)
  exact hfine.invariant (fun _ _ _ hI hd hs => hI.of_section hd hs) hm

/-- **No overtaking**: while `p` waits, a process the scan of `scheduler` selects
    was waiting in every state since the boost. -/
theorem waiting_since (hm : Holds k₀ p m) (hs : StampInv k₀) (hp : Waiting k₀ p)
    (hle : m.mlfqSeq ≤ 2 ^ 64) (hx : mlfqScan m = some x) (hn : k₀.mlfqSeq ≤ n.mlfqSeq)
    (hrel : StampRel n m) : Waiting n x := by
  have hplace := place_le_place.mp (place_le_of_mlfqScan hx hm.waiting)
  have hstamp : (m.proc x).enqTime ≤ (k₀.proc p).enqTime := by
    rw [hm.queue, hm.stamp] at hplace
    omega
  -- a stamp drawn after the boost is above the stamp of `p`
  have hold : (k₀.proc p).enqTime < k₀.mlfqSeq := (hs (hm.rel.1.trans hle)).1 p hp
  rcases hrel.2 hle x (waiting_of_mlfqScan hx) with ⟨hw, -⟩ | hnew
  · exact hw
  · omega

/-- The kernel when `mlfq_boost` returns satisfies the invariants of the sections. -/
theorem boostPoint_invs {hist : List Event} (hk : exec (step .mlfq) (boot .mlfq) hist = some k) :
    CpuInv (boostPoint .mlfq k) ∧ StampInv (boostPoint .mlfq k) := by
  have hfine : Reaches (sectionStep .mlfq) (fun _ => True) (boot .mlfq) k :=
    exec_sections (fun _ _ _ _ => trivial) hk
  obtain ⟨hcpu, hstamp⟩ := stampInv_of_reaches hfine (boot_cpuInv .mlfq) boot_stampInv
  exact stampInv_of_reaches (boostPoint_sections (.timer false)) hcpu hstamp

/-- What the boost gives `p` still holds when the interrupt has been handled. -/
theorem holds_timerTrap (hcpu : CpuInv (boostPoint .mlfq k)) (hp : Waiting (boostPoint .mlfq k) p)
    (hboost : (k.ticks + 1) % 2 ^ 32 % 48 = 0) (user : Bool) :
    Holds (boostPoint .mlfq k) p (timerTrap .mlfq k user) := by
  have hqueue : ((boostPoint .mlfq k).proc p).queue = 0 := by
    refine (boostPoint_fresh hboost ?_).1
    rw [hp]
    decide
  have hhere : Holds (boostPoint .mlfq k) p (boostPoint .mlfq k) :=
    ⟨hcpu, .refl _, hp, hqueue, rfl⟩
  refine (timerTrap_sections_of_boostPoint user).invariant ?_ hhere
  intro a d a' ha hd
  refine ha.of_section (fun c hdc => ?_)
  subst hdc
  cases hd

section Run

variable {es es₁ es₂ fs gs : List Event} (hk : Holds k₀ p k) (hs : StampInv k₀)
  (hp : Waiting k₀ p)
include hk hs hp

/-- A process dispatched during the run was waiting at the boost and in every
    state of the run before its dispatch. -/
theorem Holds.waiting_of_dispatched (hes : exec (step .mlfq) k (es₁ ++ .dispatch x :: es₂) = some m)
    (hno : Event.dispatch p ∉ es₁) (hle : m.mlfqSeq < 2 ^ 64) :
    Waiting k₀ x ∧ ∀ fs gs n, es₁ = fs ++ gs → exec (step .mlfq) k fs = some n → Waiting n x := by
  obtain ⟨m₁, hes₁, hrest⟩ := exec_append_eq_some.mp hes
  obtain ⟨m₂, hdisp, -⟩ := exec_cons_eq_some.mp hrest
  have hm₁ := hk.run hno hes₁
  have hle₁ : m₁.mlfqSeq ≤ 2 ^ 64 := by
    have := (exec_step_stampRel hm₁.cpu hrest).1
    omega
  have hscan := (mlfqScan_of_dispatch hdisp).1
  refine ⟨waiting_since hm₁ hs hp hle₁ hscan (Nat.le_refl _) hm₁.rel, ?_⟩
  rintro fs gs n rfl hfs
  have hn := hk.run (fun h => hno (List.mem_append_left gs h)) hfs
  have hgs : exec (step .mlfq) n gs = some m₁ := by
    rw [exec_append, hfs] at hes₁
    exact hes₁
  exact waiting_since hm₁ hs hp hle₁ hscan hn.rel.1 (exec_step_stampRel hn.cpu hgs)

/-- After its first dispatch a process cannot wait any more, so there is no
    second one. -/
theorem Holds.count_dispatch_le (hes : exec (step .mlfq) k es = some m)
    (hno : Event.dispatch p ∉ es) (hle : m.mlfqSeq < 2 ^ 64) (x : Slot) :
    es.count (.dispatch x) ≤ 1 := by
  by_cases hx : Event.dispatch x ∈ es
  · obtain ⟨es₁, es₂, rfl, hfirst⟩ := List.eq_append_cons_of_mem hx
    have hlast : Event.dispatch x ∉ es₂ := by
      intro hagain
      obtain ⟨fs, gs, rfl⟩ := List.append_of_mem hagain
      obtain ⟨m₁, hes₁, hrest⟩ := exec_append_eq_some.mp hes
      obtain ⟨m₂, hdisp, -⟩ := exec_cons_eq_some.mp hrest
      have hsplit : es₁ ++ .dispatch x :: (fs ++ .dispatch x :: gs) =
          (es₁ ++ .dispatch x :: fs) ++ .dispatch x :: gs := by simp
      rw [hsplit] at hes hno
      have hw : Waiting m₂ x := by
        refine (hk.waiting_of_dispatched hs hp hes ?_ hle).2 (es₁ ++ [.dispatch x]) fs m₂ ?_ ?_
        · exact fun h => hno (List.mem_append_left _ h)
        · rw [List.append_assoc, List.singleton_append]
        · exact exec_concat_eq_some.mpr ⟨m₁, hes₁, hdisp⟩
      rw [(mlfqScan_of_dispatch hdisp).2] at hw
      exact not_waiting_runProc m₁ 0 x hw
    rw [List.count_append, List.count_eq_zero_of_not_mem hfirst, List.count_cons_self,
      List.count_eq_zero_of_not_mem hlast]
  · rw [List.count_eq_zero_of_not_mem hx]
    exact Nat.zero_le 1

end Run

/-- **Bounded bypass**: let `p` be `RUNNABLE` when `mlfq_boost` returns. In every
    run after the interrupt that does not dispatch `p`, `p` stays in queue 0 with
    its stamp, every process is dispatched at most once, and a process that is
    dispatched was `RUNNABLE` at the boost and in every state from the boost to
    its dispatch. -/
theorem mlfq_bounded_bypass (hist : List Event) (k k' : Kernel) (user : Bool)
    (hk : exec (step .mlfq) (boot .mlfq) hist = some k)
    (hk' : step .mlfq k (.timer user) = some k') (hboost : k'.ticks % 48 = 0)
    (p : Slot) (hp : Waiting (boostPoint .mlfq k) p)
    (es : List Event) (m : Kernel) (hes : exec (step .mlfq) k' es = some m)
    (hno : Event.dispatch p ∉ es) (hseq : m.mlfqSeq < 2 ^ 64) :
    (Waiting m p ∧ (m.proc p).queue = 0 ∧
      (m.proc p).enqTime = ((boostPoint .mlfq k).proc p).enqTime) ∧
    (∀ x, es.count (.dispatch x) ≤ 1) ∧
    ∀ x es₁ es₂, es = es₁ ++ .dispatch x :: es₂ → Waiting (boostPoint .mlfq k) x ∧
      ∀ fs gs n, es₁ = fs ++ gs → exec (step .mlfq) k' fs = some n → Waiting n x := by
  simp only [step, Option.ite_none_right_eq_some, Option.some.injEq] at hk'
  obtain ⟨-, rfl⟩ := hk'
  rw [timerTrap_ticks] at hboost
  obtain ⟨hcpu, hstamp⟩ := boostPoint_invs hk
  have hstart := holds_timerTrap hcpu hp hboost user
  have hend := hstart.run hno hes
  refine ⟨⟨hend.waiting, hend.queue, hend.stamp⟩, hstart.count_dispatch_le hstamp hp hes hno hseq,
    ?_⟩
  rintro x es₁ es₂ rfl
  exact hstart.waiting_of_dispatched hstamp hp hes (fun h => hno (List.mem_append_left _ h)) hseq

def forkTwice : List Event :=
  [.dispatch initproc, .allocproc firstChild, .kforkParent firstChild,
    .kforkRunnable firstChild, .allocproc secondChild, .kforkParent secondChild,
    .kforkRunnable secondChild]

/-- The second of two processes forked just before the boost keeps its place while
    the first one runs. -/
theorem mlfq_bounded_bypass_forks :
    ∃ hist k k' m, exec (step .mlfq) (boot .mlfq) hist = some k ∧
      step .mlfq k (.timer true) = some k' ∧ k'.ticks = 48 ∧
      exec (step .mlfq) k' [.dispatch firstChild, .timer true] = some m ∧
      Waiting m secondChild ∧ (m.proc secondChild).queue = 0 := by
  have hrun : ∃ k ∈ exec (step .mlfq) (idleBoot 47) forkTwice,
      ∃ k' ∈ step .mlfq k (.timer true), k'.ticks = 48 ∧
        Waiting (boostPoint .mlfq k) secondChild ∧
        ∃ m ∈ exec (step .mlfq) k' [.dispatch firstChild, .timer true],
          m.mlfqSeq < 2 ^ 64 := by
    decide +kernel
  obtain ⟨k, hk, k', hk', hticks, hp, m, hm, hseq⟩ := hrun
  have hist := exec_append_eq_some.mpr ⟨_, exec_idleBoot (n := 47) (by decide), hk⟩
  have hbypass := mlfq_bounded_bypass _ k k' true hist hk' (by rw [hticks]) _ hp _ m hm
    (by decide) hseq
  exact ⟨_, k, k', m, hist, hk', hticks, hm, hbypass.1.1, hbypass.1.2.1⟩

end MiniOs.Xv6
