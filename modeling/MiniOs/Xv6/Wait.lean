import MiniOs.Xv6.Family

/-!
# Waiting for children

`kwait` sleeps on its own process, and `kexit` wakes the parent and `init`. An exiting process
wakes its parent before it is a zombie, and gives its children to `init` one by one. That is
enough, because it holds `wait_lock` all the time.
-/

namespace MiniOs.Xv6.Families

open Trace

variable {d : Table} {p : Point} {t : Slot}

variable {s : Monitor.State Slot Table Point (Option Slot)}

/-! ### Sleepers -/

def Waits (d : Table) (u : Slot) : Prop :=
  (∃ k, (d.proc k).parent = some u) ∧
    ∀ k, (d.proc k).parent = some u → (d.proc k).state ≠ .zombie

theorem Waits.congr {d' : Table} {u : Slot} (h : Waits d u)
    (hparent : ∀ k, (d'.proc k).parent = some u ↔ (d.proc k).parent = some u)
    (hzombie : ∀ k, (d.proc k).parent = some u → (d'.proc k).state = .zombie →
      (d.proc k).state = .zombie) : Waits d' u := by
  obtain ⟨⟨k, hk⟩, hnone⟩ := h
  refine ⟨⟨k, (hparent k).mpr hk⟩, fun l hl hz => ?_⟩
  have hl' := (hparent l).mp hl
  exact hnone l hl' (hzombie l hl' hz)

/-- A step that changes only slot `j`, which is not a child of `u`, before and after it. -/
theorem Waits.modify {u j : Slot} {f : Member → Member} (h : Waits d u)
    (hj : (d.proc j).parent ≠ some u) (hj' : (f (d.proc j)).parent ≠ some u) :
    Waits (d.modify j f) u := by
  refine h.congr (fun k => ?_) fun k hk hz => ?_
  · by_cases hkj : k = j
    · subst hkj
      rw [Table.modify_proc_self]
      exact iff_of_false hj' hj
    · rw [Table.modify_proc_of_ne hkj]
  · have hkj : k ≠ j := by
      rintro rfl
      exact hj hk
    rwa [Table.modify_proc_of_ne hkj] at hz

/-- Without `wait_lock`, no parent changes and nobody becomes a zombie. -/
theorem Frees.frame {i : Input} {d' : Table} {q : Point} (h : Frees t i d p d' q) (hkin : Kin d)
    (hp : At d t p) (k : Slot) :
    (d'.proc k).parent = (d.proc k).parent ∧
      ((d'.proc k).state = .zombie ↔ (d.proc k).state = .zombie) := by
  cases h with
  | @fork np hi hlive hnp =>
    rw [Table.drawPid_proc]
    by_cases hk : k = np
    · subst hk
      rw [Table.modify_proc_self, hnp]
      exact ⟨rfl, by simp⟩
    · rw [Table.modify_proc_of_ne hk]
      exact ⟨rfl, .rfl⟩
  | @noFork np hi hnp =>
    rw [Table.drawPid_proc, Table.modify, ← hkin.unused np hnp, Function.update_eq_self]
    exact ⟨rfl, .rfl⟩
  | exit => exact ⟨rfl, .rfl⟩
  | wait => exact ⟨rfl, .rfl⟩
  | @start np =>
    by_cases hk : k = np
    · subst hk
      rw [Table.modify_proc_self, hp.2.1]
      exact ⟨rfl, by simp⟩
    · rw [Table.modify_proc_of_ne hk]
      exact ⟨rfl, .rfl⟩
  | back => exact ⟨rfl, .rfl⟩

/-- What the holder of `wait_lock` knows, and when a process sleeps in `kwait`. -/
def spec : Monitor.Spec Slot Table Point (Option Slot) where
  rest _ := True
  held t d
    | .scanning j havekids =>
      (∀ k : Slot, k < j → (d.proc k).parent = some t → (d.proc k).state ≠ .zombie) ∧
        (havekids = true → ∃ k, (d.proc k).parent = some t)
    | .dying _ c | .dead c => (d.proc t).parent = c
    | _ => True
  waits u c q d := c = some u ∧ q = .scanning 0 false ∧ Waits d u
  owes
    | .adopting _ _, c => c = some initproc
    | _, _ => False
  woke
    | .dying _ c', c | .dead c', c => c = c'
    | _, _ => False

theorem spec_write {d' : Table} {q : Point} (hheld : spec.held t d' q)
    (howes : ∀ c, ¬ spec.owes p c) (hwoke : ∀ c, ¬ spec.woke q c)
    (hwaits : ∀ u, u ≠ t → Waits d u → Waits d' u) :
    spec.held t d' q ∧ (∀ c, spec.owes p c → spec.owes q c) ∧
      (∀ c, spec.woke q c → spec.woke p c) ∧
      ∀ u c q', u ≠ t → spec.waits u c q' d →
        spec.waits u c q' d' ∨ spec.owes q c ∨ spec.woke q c :=
  ⟨hheld, fun c h => absurd h (howes c), fun c h => absurd h (hwoke c),
    fun u _ _ hu h => .inl ⟨h.1, h.2.1, hwaits u hu h.2.2⟩⟩

theorem sound_write {i : Input} {q : Point} (hgood : Good s) (hpt : s.points t = p)
    (hheld : spec.held t s.shared p) (hact : Acts t i s.shared p (.write d q)) :
    spec.held t d q ∧ (∀ c, spec.owes p c → spec.owes q c) ∧
      (∀ c, spec.woke q c → spec.woke p c) ∧
      ∀ u c q', u ≠ t → spec.waits u c q' s.shared →
        spec.waits u c q' d ∨ spec.owes q c ∨ spec.woke q c := by
  have hknows := hgood.knows t
  rw [hpt] at hknows
  cases hact with
  | @link np =>
    refine spec_write trivial (fun _ => id) (fun _ => id) fun u hu hw => hw.modify ?_ ?_
    · rw [hknows.2.2.1]
      nofun
    · exact fun hp => hu (Option.some.inj hp).symm
  | @adopt status j hj =>
    refine ⟨trivial, fun _ => False.elim, fun _ => False.elim, ?_⟩
    rintro u c q' hu ⟨rfl, hq', hw⟩
    by_cases hinit : u = initproc
    · exact .inr (.inl (by rw [hinit]; rfl))
    · refine .inl ⟨rfl, hq', hw.modify ?_ ?_⟩
      · rw [hj]
        exact fun hp => hu (Option.some.inj hp).symm
      · exact fun hp => hinit (Option.some.inj hp).symm
  | pass hj => exact spec_write trivial (fun _ => id) (fun _ => id) fun _ _ => id
  | @die status c =>
    have hparent : (s.shared.proc t).parent = c := hheld
    refine ⟨?_, fun _ => False.elim, fun _ => id, ?_⟩
    · change ((s.shared.modify t _).proc t).parent = c
      rw [Table.modify_proc_self]
      exact hparent
    · rintro u c' q' hu ⟨rfl, hq', hw⟩
      by_cases hc : some u = c
      · exact .inr (.inr hc)
      · have hne : (s.shared.proc t).parent ≠ some u := fun hp => hc (hp.symm.trans hparent)
        exact .inl ⟨rfl, hq', hw.modify hne hne⟩
  | @reap j havekids hi hj hz =>
    refine spec_write trivial (fun _ => id) (fun _ => id) fun u hu hw => hw.modify ?_ nofun
    rw [hj]
    exact fun hp => hu (Option.some.inj hp).symm
  | @child j havekids hj hz =>
    refine spec_write ⟨fun k hk hp => ?_, fun _ => ⟨j, hj⟩⟩ (fun _ => id) (fun _ => id)
      fun _ _ => id
    obtain hk | hk := Nat.lt_succ_iff_lt_or_eq.mp hk
    · exact hheld.1 k hk hp
    · rw [Fin.ext hk]
      exact hz
  | @other j havekids hj =>
    refine spec_write ⟨fun k hk hp => ?_, hheld.2⟩ (fun _ => id) (fun _ => id) fun _ _ => id
    obtain hk | hk := Nat.lt_succ_iff_lt_or_eq.mp hk
    · exact hheld.1 k hk hp
    · rw [Fin.ext hk] at hp
      exact absurd hp hj

theorem resumes (hp : program.acquires p = true) : spec.Resumes t p := by
  intro d _
  match p, hp with
  | .forking _, _ => exact ⟨trivial, fun _ => id⟩
  | .reparenting _ 0, _ => exact ⟨trivial, fun _ => id⟩
  | .scanning 0 false, _ =>
    exact ⟨⟨fun k hk => absurd hk (Nat.not_lt_zero _), nofun⟩, fun _ => id⟩

theorem points_eq {ph : Monitor.Phase Slot Point (Option Slot)} (h : s.thread t = ph) :
    s.points t = ph.point := by
  rw [Monitor.State.points, h]

theorem sound : Monitor.Sound program spec Good (fun _ _ _ _ => True) where
  acquire _ _ := resumes
  free s t i p d q hgood hph hf := by
    have hknows := hgood.knows t
    rw [points_eq hph] at hknows
    have hframe := (free_frees hf).frame hgood.kin hknows
    refine ⟨id, fun u p' hheld => ?_, ?_⟩
    · match p', hheld with
      | .scanning j havekids, hheld =>
        refine ⟨fun k hk hp hz => ?_, fun hk => ?_⟩
        · rw [(hframe k).1] at hp
          exact hheld.1 k hk hp ((hframe k).2.mp hz)
        · obtain ⟨k, hk⟩ := hheld.2 hk
          exact ⟨k, (hframe k).1.trans hk⟩
      | .dying _ _, hheld => exact (hframe u).1.trans hheld
      | .dead _, hheld => exact (hframe u).1.trans hheld
      | .user, _ | .forking _, _ | .forked _, _ | .starting _, _ | .reparenting _ _, _
      | .adopting _ _, _ | .reaped _ _, _ | .waited _, _ => trivial
    · rintro u c q' ⟨hc, hq', hw⟩
      refine ⟨hc, hq', hw.congr (fun k => ?_) fun k _ hz => (hframe k).2.mp hz⟩
      rw [(hframe k).1]
  write s t i p d q hgood hph _ hheld ha :=
    sound_write hgood (points_eq hph) hheld (locked_acts ha)
  wakeup s t i p c q hgood hph _ hheld ha := by
    cases locked_acts ha with
    | adopted => exact ⟨trivial, fun _ hc => .inl hc, fun _ => False.elim⟩
    | wakeParent hj => exact ⟨rfl, fun _ => False.elim, fun _ hc => .inl hc⟩
  sleep s t i p c q hgood hph _ hheld ha := by
    cases locked_acts ha with
    | sleep hj =>
      refine ⟨trivial, ⟨rfl, rfl, hheld.2 rfl, fun k => ?_⟩, resumes rfl, fun _ _ _ => False.elim⟩
      exact hheld.1 k (k.isLt.trans_le hj)
  release s t i p q hgood hph _ hheld ha := by
    refine ⟨trivial, ?_⟩
    cases locked_acts ha <;> exact fun _ _ _ => False.elim

/-- **No exit is missed**: while `wait_lock` is free, a process that sleeps in `kwait` has
    children, and none of them has exited. -/
theorem wait_no_lost_wakeup {es : List (Monitor.Event Slot Input)}
    (h : exec (Monitor.step program slots) start es = some s) (hl : s.lock = none) {t : Slot}
    {c : Option Slot} {q : Point} (ht : (s.thread t).SleepsOn c q) :
    (∃ k, (s.shared.proc k).parent = some t) ∧
      ∀ k, (s.shared.proc k).parent = some t → (s.shared.proc k).state ≠ .zombie := by
  have hinv : Monitor.Inv spec s :=
    sound.exec_inv_of_forall List.mem_finRange (fun _ _ _ => step_good) start_good
      (.start rfl trivial fun _ => ⟨_, rfl⟩) h
  exact (hinv.waits_of_unlocked hl ht).2.2

def awaited : List (Monitor.Event Slot Input) :=
  .run initproc (.fork firstChild true) :: List.replicate 5 (.run initproc .wait) ++
    List.replicate 68 (.run initproc (.killed false))

theorem wait_no_lost_wakeup_init :
    ∃ s, exec (Monitor.step program slots) start awaited = some s ∧
      s.thread initproc = .asleep (some initproc) (.scanning 0 false) ∧
      ∀ k, (s.shared.proc k).parent = some initproc → (s.shared.proc k).state ≠ .zombie := by
  have hrun : (exec (Monitor.step program slots) start awaited).isSome = true := by decide +kernel
  have hstate : (exec (Monitor.step program slots) start awaited).map (fun s =>
      (s.thread initproc, s.lock)) =
      some (.asleep (some initproc) (.scanning 0 false), none) := by decide +kernel
  obtain ⟨s, hs⟩ := Option.isSome_iff_exists.mp hrun
  rw [hs, Option.map_some, Option.some.injEq, Prod.mk.injEq] at hstate
  exact ⟨s, hs, hstate.1, (wait_no_lost_wakeup hs hstate.2 (.inr hstate.1)).2⟩

end MiniOs.Xv6.Families
