import MiniOs.Xv6.Commit

/-!
# Crashes

The machine may stop at any moment, between any two writes of a block. What is in memory is
lost. When it starts again, `initlog` reads the header of the log and installs the blocks that it
names, and it may be stopped while it does.
-/

namespace MiniOs.Xv6.Logs

open Trace

/-- A running machine, or one in `recover_from_log`: in the loop of `install_trans`, or behind
    it. -/
inductive System (τ β : Type*) where
  | running (s : Monitor.State τ (Log τ β) Point Unit)
  | recovering (disk : Disk β) (tail : Option ℕ)

inductive Happening (τ β : Type*) where
  | run (e : Monitor.Event τ (Input β))
  | recover
  | crash

variable {τ β : Type*}

def System.disk : System τ β → Disk β
  | .running s => s.shared.disk
  | .recovering disk _ => disk

/-- The block that an operation changes and does not log. -/
def Happening.spoils : Happening τ β → Option ℕ
  | .run (.run _ (.scribble b _)) => some b
  | _ => none

/-- One round of `install_trans` in the recovery. -/
def Disk.install (disk : Disk β) (tail b : ℕ) : Disk β :=
  { disk with home := Function.update disk.home b (disk.log tail) }

def System.step [DecidableEq τ] (all : List τ) : System τ β → Happening τ β → Option (System τ β)
  | .running s, .run e => (Monitor.step program all s e).map .running
  | .recovering disk (some tail), .recover =>
    match disk.head[tail]? with
    | some b => some (.recovering (disk.install tail b) (some (tail + 1)))
    | none => some (.recovering disk none)
  | .recovering disk none, .recover => some (.running (start { disk with head := [] }))
  | x, .crash => some (.recovering x.disk (some 0))
  | _, _ => none

/-- An observer of the commits. After a recovery it starts with what it finds. -/
def System.look [DecidableEq τ] (all : List τ) (x : System τ β) (e : Happening τ β)
    (g : Snaps β) : Snaps β :=
  match x, e, x.step all e with
  | .running s, .run _, some (.running s') =>
    g.note s.shared.committing s'.shared
  | .recovering disk none, .recover, _ => ⟨disk.home, none⟩
  | _, _, _ => g

/-! ### Recovery -/

namespace Disk

variable {K : Disk β} {tail b : ℕ}

theorem entries_install : (K.install tail b).entries = K.entries := rfl

/-- One round of the recovery does not change what the recovery leads to. -/
theorem replayed_install (hb : K.head[tail]? = some b) :
    (K.install tail b).replayed = K.replayed := by
  refine RedoLog.replay_update_of_mem ?_ K.home (K.log tail)
  rw [entries_fst]
  exact List.mem_of_getElem? hb

theorem drop_entries (hb : K.head[tail]? = some b) :
    K.entries.drop tail = (b, K.log tail) :: K.entries.drop (tail + 1) := by
  refine drop_eq_cons ?_
  rw [entries, List.getElem?_mapIdx, hb]
  rfl

/-- What is still to be installed leads to the same blocks. -/
def Installed (K : Disk β) (tail : ℕ) : Prop :=
  RedoLog.replay (K.entries.drop tail) K.home = K.replayed

theorem Installed.install (h : K.Installed tail) (hb : K.head[tail]? = some b) :
    (K.install tail b).Installed (tail + 1) := by
  rw [Installed, drop_entries hb, RedoLog.replay_cons] at h
  rw [Installed, replayed_install hb, entries_install]
  exact h

theorem Installed.home (h : K.Installed tail) (htail : K.head.length ≤ tail) :
    K.home = K.replayed := by
  have hlen : K.entries.length ≤ tail := by
    rw [entries, List.length_mapIdx]
    exact htail
  rw [Installed, List.drop_eq_nil_of_le hlen] at h
  exact h

end Disk

/-! ### Runs -/

/-- What holds of a machine and of what the observer has noted, if only the blocks in `S` have
    been changed and not logged. -/
def Safe [Fintype τ] (S : ℕ → Prop) (g : Snaps β) : System τ β → Prop
  | .running s => Counts s.shared s.points ∧ (∃ k, Buffers S s.shared s.points k) ∧
      Durable S s.shared s.points g
  | .recovering disk (some tail) => (disk.replayed = g.old ∨ g.new = some disk.replayed) ∧
      disk.Installed tail
  | .recovering disk none => (disk.replayed = g.old ∨ g.new = some disk.replayed) ∧
      disk.home = disk.replayed

variable {S : ℕ → Prop} {g : Snaps β}

/-- The disk of a machine holds the last commit, or the one in progress. -/
theorem Safe.replayed [Fintype τ] {x : System τ β} (h : Safe S g x) :
    x.disk.replayed = g.old ∨ g.new = some x.disk.replayed := by
  cases x with
  | running s =>
    obtain ⟨hcounts, -, hdurable⟩ := h
    exact hdurable.replayed hcounts
  | recovering disk tail =>
    cases tail with
    | some tail => exact h.1
    | none => exact h.1

variable [Fintype τ] [DecidableEq τ] {all : List τ}

/-- **Step lemma** for a running machine. -/
theorem step_running {s s' : Monitor.State τ (Log τ β) Point Unit}
    {e : Monitor.Event τ (Input β)} (h : Safe S g (.running s))
    (hS : ∀ b, (Happening.run e).spoils = some b → S b)
    (hstep : Monitor.step program all s e = some s') :
    Safe S (g.note s.shared.committing s'.shared) (.running s') := by
  obtain ⟨hcounts, ⟨k, hbuf⟩, hdurable⟩ := h
  refine ⟨step_counts hcounts hstep, ?_, ?_⟩
  · refine Monitor.step_points (J := fun d pt => ∃ k, Buffers S d pt k)
      (fun t i d q he hf => hbuf.frees hcounts (fun b v hi => hS b ?_) (free_frees hf))
      (fun t i a _ _ ha => hbuf.acts hcounts (locked_acts ha)) ⟨k, hbuf⟩ hstep
    rw [he, hi]
    rfl
  · refine Monitor.step_points
      (J := fun d pt => Durable S d pt (g.note s.shared.committing d))
      (fun t i d q _ hf => ?_) (fun t i a _ _ ha => hdurable.acts hcounts hbuf (locked_acts ha)) ?_
      hstep
    · have hfree := free_frees hf
      rw [Snaps.note_self hfree.counters.1]
      exact hdurable.frees hcounts hbuf hfree
    · rw [Snaps.note_self rfl]
      exact hdurable

omit [DecidableEq τ] in
theorem start_safe {K : Disk β} (hhead : K.head = []) :
    Safe S ⟨K.home, none⟩ (.running (start K) : System τ β) := by
  refine ⟨start_counts K, ⟨0, fun b => ?_, nofun, fun _ => rfl⟩, fun _ => ⟨hhead, rfl, rfl⟩, nofun,
    nofun, fun _ => trivial⟩
  exact ⟨rfl, fun href => absurd rfl href, fun _ _ _ => rfl, nofun⟩

/-- **Step lemma** for the machine. -/
theorem step_safe {x y : System τ β} {e : Happening τ β} (h : Safe S g x)
    (hS : ∀ b, e.spoils = some b → S b) (hstep : x.step all e = some y) :
    Safe S (x.look all e g) y := by
  have hcrash : Safe S g (.recovering x.disk (some 0) : System τ β) := ⟨h.replayed, rfl⟩
  cases x with
  | running s =>
    cases e with
    | run e =>
      obtain ⟨s', hs, rfl⟩ := Option.map_eq_some_iff.mp hstep
      have hlook : System.look all (.running s) (.run e) g =
          g.note s.shared.committing s'.shared := by
        simp only [System.look, hstep]
      rw [hlook]
      exact step_running h hS hs
    | recover => cases hstep
    | crash =>
      cases hstep
      exact hcrash
  | recovering disk tail =>
    cases e with
    | run e => cases tail <;> cases hstep
    | recover =>
      cases tail with
      | some tail =>
        have hlook : System.look all (.recovering disk (some tail) : System τ β) .recover g = g :=
          rfl
        rw [hlook]
        rw [System.step] at hstep
        cases hb : disk.head[tail]? with
        | some b =>
          simp only [hb] at hstep
          cases hstep
          refine ⟨?_, h.2.install hb⟩
          rw [Disk.replayed_install hb]
          exact h.1
        | none =>
          simp only [hb] at hstep
          cases hstep
          exact ⟨h.1, h.2.home (List.getElem?_eq_none_iff.mp hb)⟩
      | none =>
        cases hstep
        exact start_safe rfl
    | crash =>
      have hlook : System.look all (.recovering disk tail : System τ β) .crash g = g := by
        cases tail <;> rfl
      rw [hlook]
      cases tail with
      | some tail =>
        cases hstep
        exact hcrash
      | none =>
        cases hstep
        exact hcrash

/-- **Commits are atomic and durable**, whatever the threads do and whenever the machine crashes,
    also while it recovers. Between two commits the disk holds the last one. During a commit no
    operation is in progress, and the disk holds the last commit or, with its log, the contents
    that are being committed: the blocks in the log as they are when the last operation ends, and
    the other blocks of the last commit. A recovery that is over has brought all blocks of one of
    the two to their homes. Readers see the contents that are being committed, or those of the
    last commit when no operation is in progress, in every block that has not been changed without
    being logged. -/
theorem crash_atomic {disk : Disk β} {es : List (Happening τ β)} {x : System τ β}
    (h : exec (System.step all) (.recovering disk (some 0)) es = some x) :
    let g := observe (System.step all) (System.look all) (.recovering disk (some 0))
      ⟨disk.replayed, none⟩ es
    (x.disk.replayed = g.old ∨ g.new = some x.disk.replayed) ∧
      (∀ k, x = .recovering k none → k.home = g.old ∨ g.new = some k.home) ∧
      ∀ s, x = .running s →
        (s.shared.committing = false → s.shared.disk.home = g.old ∧ g.new = none) ∧
        (s.shared.committing = true → ∀ t, (s.points t).ops = 0) ∧
        ∀ b, (∀ e ∈ es, e.spoils ≠ some b) →
          (s.shared.committing = true → g.new.map (· b) = some (s.shared.view b)) ∧
          (s.shared.committing = false → s.shared.outstanding = 0 →
            s.shared.view b = g.old b) := by
  intro g
  have hsafe : Safe (fun b => ∃ e ∈ es, e.spoils = some b) g x := by
    have hmem : Guarded (System.step all) (fun _ e => e ∈ es) (.recovering disk (some 0)) es :=
      guarded_of_forall_mem (fun e he _ => he) _
    refine observe_invariant
      (I := fun x g => Safe (fun b => ∃ e ∈ es, e.spoils = some b) g x)
      (fun x g e y hx he hstep => ?_) ⟨.inl rfl, rfl⟩ hmem h
    exact step_safe hx (fun b hb => ⟨e, he, hb⟩) hstep
  refine ⟨hsafe.replayed, ?_, ?_⟩
  · rintro k rfl
    have hhome : k.home = k.replayed := hsafe.2
    rw [hhome]
    exact hsafe.1
  · rintro s rfl
    obtain ⟨hcounts, ⟨k, hbuf⟩, hdurable⟩ := hsafe
    refine ⟨fun hc => (hdurable.idle hc).2, fun hc => hcounts.no_ops hc, fun b hb => ?_⟩
    have hclean : ¬ ∃ e ∈ es, e.spoils = some b := fun ⟨e, he, hspoils⟩ => hb e he hspoils
    refine ⟨fun hc => ?_, fun hc ho => ?_⟩
    · rw [hdurable.new hc, hdurable.view hc b hclean]
      rfl
    · have hlh := hcounts.quiet hc ho
      rw [hdurable.view_of_last hcounts hbuf hc (fun v c hv => ?_) hclean,
        Log.committed_of_notMem (by rw [hlh]; exact List.not_mem_nil)]
      have hpos := hcounts.outstanding_pos (Point.ops_of_dirty hv)
      rw [ho] at hpos
      exact absurd hpos (Nat.lt_irrefl 0)

def failedCopy (t : Fin 3) (v b : ℕ) : List (Monitor.Event (Fin 3) (Input ℕ)) :=
  [.run t (.bread b), .run t (.scribble b v), .run t (.brelse b)]

/-- Two operations, one with a failed copy, a crash after the first block of their commit has been
    installed, another crash in the recovery, and a recovery. -/
def twoCrashes : List (Happening (Fin 3) ℕ) :=
  List.replicate 2 .recover ++
    (enterOp first ++ writes first 7 [50, 51] ++ failedCopy first 9 53 ++
      enterOp second ++ writes second 8 [51, 52] ++
      leaveOp first 8 ++ leaveOp second 10).map .run ++
    [.crash, .recover, .recover, .crash] ++ List.replicate 4 .recover

theorem crash_atomic_twoCrashes :
    ∃ x, exec (System.step (List.finRange 3)) (.recovering blank (some 0)) twoCrashes = some x ∧
      (x.disk.home 50, x.disk.home 51, x.disk.home 52, x.disk.home 53) = (7, 8, 8, 0) ∧
      (x.disk.replayed = (observe (System.step (List.finRange 3)) (System.look (List.finRange 3))
          (.recovering blank (some 0)) ⟨blank.replayed, none⟩ twoCrashes).old ∨
        (observe (System.step (List.finRange 3)) (System.look (List.finRange 3))
          (.recovering blank (some 0)) ⟨blank.replayed, none⟩ twoCrashes).new =
            some x.disk.replayed) := by
  have hrun : (exec (System.step (List.finRange 3)) (.recovering blank (some 0))
      twoCrashes).isSome = true := by decide +kernel
  have hhome : (exec (System.step (List.finRange 3)) (.recovering blank (some 0)) twoCrashes).map
      (fun x => (x.disk.home 50, x.disk.home 51, x.disk.home 52, x.disk.home 53)) =
        some (7, 8, 8, 0) := by
    decide +kernel
  obtain ⟨x, hx⟩ := Option.isSome_iff_exists.mp hrun
  rw [hx] at hhome
  exact ⟨x, hx, Option.some.inj hhome, (crash_atomic hx).1⟩

end MiniOs.Xv6.Logs
