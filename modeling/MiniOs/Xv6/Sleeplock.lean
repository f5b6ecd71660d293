import MiniOs.Lib.Monitor

/-!
# Sleep locks

`sleeplock.c`: a lock that is held for a long time. The threads that want it sleep, and do not
spin. The field `locked` and the pid of the owner are protected by a spinlock, so the three
functions are a monitor.

The threads call the functions in any order, but `releasesleep` only while they hold the sleep
lock. `holdingsleep` may be called by any thread.
-/

namespace MiniOs.Xv6.Sleeplock

open Trace

/-- `struct sleeplock`, without the spinlock. -/
structure Lock where
  locked : Bool
  pid : Int
  deriving DecidableEq, Repr

def initsleeplock : Lock := ⟨false, 0⟩

inductive Call where
  | acquiresleep
  | releasesleep
  | holdingsleep
  deriving DecidableEq, Repr

/-- Where a thread is. `told r` is the point after `holdingsleep` has returned `r`. -/
inductive Point where
  | outside
  | entering
  | entered
  | inside
  | asking (owner : Bool)
  | told (owner r : Bool)
  | leaving
  | left
  | woken
  deriving DecidableEq, Repr

variable {τ : Type*}

/-- The functions; `pid` gives the pids of the threads. -/
def program (pid : τ → Int) : Monitor.Program τ Call Lock Point Unit where
  acquires
    | .entering | .asking _ | .leaving => true
    | _ => false
  free _ i lk p :=
    match p, i with
    | .outside, .acquiresleep => some (lk, .entering)
    | .outside, .holdingsleep => some (lk, .asking false)
    | .inside, .releasesleep => some (lk, .leaving)
    | .inside, .holdingsleep => some (lk, .asking true)
    | .told owner _, _ => some (lk, if owner then .inside else .outside)
    | _, _ => none
  locked t _ lk p :=
    match p with
    | .entering =>
      if lk.locked then some (.sleep () .entering)
      else some (.write ⟨true, pid t⟩ .entered)
    | .entered => some (.release .inside)
    | .asking owner => some (.release (.told owner (lk.locked && lk.pid == pid t)))
    | .leaving => some (.write ⟨false, 0⟩ .left)
    | .left => some (.wakeup () .woken)
    | .woken => some (.release .outside)
    | _ => none

/-- The threads before any of them has called a function. -/
def start : Monitor.State τ Lock Point Unit := ⟨initsleeplock, none, fun _ => .free .outside⟩

/-- The thread has taken the sleep lock and not given it back. -/
def Point.owner : Point → Bool
  | .entered | .inside | .asking true | .told true _ | .leaving => true
  | _ => false

/-- What a thread can do to the lock and to its own point. -/
inductive Does (pid : τ → Int) (t : τ) (lk : Lock) : Point → Lock → Point → Prop where
  | go {p q : Point} (howner : q.owner = p.owner) (hq : ∀ owner r, q ≠ .told owner r) :
      Does pid t lk p lk q
  | tell {owner : Bool} :
      Does pid t lk (.asking owner) lk (.told owner (lk.locked && lk.pid == pid t))
  | take (hfree : lk.locked = false) : Does pid t lk .entering ⟨true, pid t⟩ .entered
  | give : Does pid t lk .leaving ⟨false, 0⟩ .left

/-- **Inversion** of the steps without the spinlock. -/
theorem free_does {pid : τ → Int} {t : τ} {i : Call} {lk lk' : Lock} {p q : Point}
    (h : (program pid).free t i lk p = some (lk', q)) : Does pid t lk p lk' q := by
  cases p <;> cases i <;>
    simp only [program, Option.some.injEq, Prod.mk.injEq, reduceCtorEq] at h
  case told.acquiresleep owner r | told.releasesleep owner r | told.holdingsleep owner r =>
    obtain ⟨rfl, rfl⟩ := h
    cases owner <;> exact .go rfl nofun
  all_goals
    obtain ⟨rfl, rfl⟩ := h
    exact .go rfl nofun

/-- **Inversion** of the steps under the spinlock. -/
theorem locked_does {pid : τ → Int} {t : τ} {i : Call} {lk : Lock} {p : Point}
    {a : Monitor.Act Lock Point Unit} (h : (program pid).locked t i lk p = some a) :
    Does pid t lk p (a.data lk) a.point := by
  cases p <;> simp only [program, Option.some.injEq, reduceCtorEq] at h
  case entering =>
    split at h <;> cases h
    · exact .go rfl nofun
    · next hfree => exact .take (Bool.eq_false_iff.mpr hfree)
  case asking owner =>
    subst h
    exact .tell
  case leaving =>
    subst h
    exact .give
  all_goals
    subst h
    exact .go rfl nofun

/-! ### Owners -/

/-- The fields of the lock name its owner, and `holdingsleep` told the truth. -/
structure Owned (pid : τ → Int) (s : Monitor.State τ Lock Point Unit) : Prop where
  fields : ∀ t, (s.thread t).point.owner = true → s.shared = ⟨true, pid t⟩
  owner : s.shared.locked = true → ∃ t, (s.thread t).point.owner = true
  told : ∀ t owner r, (s.thread t).point = .told owner r → r = owner

variable {pid : τ → Int} {all : List τ} {s s' : Monitor.State τ Lock Point Unit}

theorem Owned.unique (h : Owned pid s) (hpid : Function.Injective pid) {t u : τ}
    (ht : (s.thread t).point.owner = true) (hu : (s.thread u).point.owner = true) : t = u := by
  have hfields := h.fields t ht
  rw [h.fields u hu] at hfields
  exact hpid (congrArg Lock.pid hfields).symm

/-- A thread that does not own the lock is not taken for its owner. -/
theorem Owned.holding (h : Owned pid s) (hpid : Function.Injective pid) {t : τ} :
    (s.shared.locked && s.shared.pid == pid t) = (s.thread t).point.owner := by
  cases howner : (s.thread t).point.owner with
  | true => simp [h.fields t howner]
  | false =>
    by_contra hr
    simp only [Bool.not_eq_false, Bool.and_eq_true, beq_iff_eq] at hr
    obtain ⟨u, hu⟩ := h.owner hr.1
    have htu : u = t := hpid (by rw [← hr.2, h.fields u hu])
    rw [htu, howner] at hu
    cases hu

/-- A move that changes neither the lock nor who owns it. -/
theorem Owned.of_same (h : Owned pid s) (hlock : s'.shared = s.shared)
    (howner : ∀ v, (s'.thread v).point.owner = (s.thread v).point.owner)
    (htold : ∀ v owner r, (s'.thread v).point = .told owner r → r = owner) : Owned pid s' where
  fields v hv := by
    rw [hlock]
    exact h.fields v (howner v ▸ hv)
  owner hl := by
    rw [hlock] at hl
    obtain ⟨v, hv⟩ := h.owner hl
    exact ⟨v, (howner v).trans hv⟩
  told := htold

/-- **Step lemma** for the owner: thread `t` does something, the others nothing. -/
theorem Does.owned (hpid : Function.Injective pid) (h : Owned pid s) {t : τ} {lk : Lock} {q : Point}
    (hdoes : Does pid t s.shared (s.thread t).point lk q) (hlock : s'.shared = lk)
    (hq : (s'.thread t).point = q) (hother : ∀ v, v ≠ t → s'.thread v = s.thread v) :
    Owned pid s' := by
  have hpoint : ∀ v, v ≠ t → (s'.thread v).point = (s.thread v).point := fun v hv => by
    rw [hother v hv]
  generalize hpt : (s.thread t).point = p at hdoes
  have hsame : s'.shared = s.shared → q.owner = p.owner →
      (∀ owner r, q = .told owner r → r = owner) → Owned pid s' := by
    intro hlock howner htold
    refine h.of_same hlock (fun v => ?_) fun v owner r hv => ?_
    · by_cases hvt : v = t
      · rw [hvt, hq, hpt, howner]
      · rw [hpoint v hvt]
    · by_cases hvt : v = t
      · rw [hvt, hq] at hv
        exact htold owner r hv
      · rw [hpoint v hvt] at hv
        exact h.told v owner r hv
  cases hdoes with
  | go howner hne => exact hsame hlock howner fun owner r hr => absurd hr (hne owner r)
  | @tell owner =>
    have hr : (s.shared.locked && s.shared.pid == pid t) = owner := by
      rw [h.holding hpid, hpt]
      cases owner <;> rfl
    rw [hr] at hq
    refine hsame hlock (by rw [hr]; cases owner <;> rfl) ?_
    rintro o r ⟨⟩
    exact hr
  | take hfree =>
    -- nobody owns a lock that is not locked
    have hnone : ∀ v, (s.thread v).point.owner = false := by
      intro v
      by_contra hv
      have hl := h.fields v (Bool.not_eq_false _ ▸ hv)
      rw [hl] at hfree
      cases hfree
    refine ⟨fun v hv => ?_, fun _ => ⟨t, by rw [hq]; rfl⟩, fun v owner r hv => ?_⟩
    · by_cases hvt : v = t
      · rw [hvt, hlock]
      · rw [hpoint v hvt, hnone v] at hv
        cases hv
    · by_cases hvt : v = t
      · rw [hvt, hq] at hv
        cases hv
      · rw [hpoint v hvt] at hv
        exact h.told v owner r hv
  | give =>
    have howner : (s.thread t).point.owner = true := by rw [hpt]; rfl
    refine ⟨fun v hv => ?_, fun hl => ?_, fun v owner r hv => ?_⟩
    · by_cases hvt : v = t
      · rw [hvt, hq] at hv
        cases hv
      · rw [hpoint v hvt] at hv
        exact absurd (h.unique hpid hv howner) hvt
    · rw [hlock] at hl
      cases hl
    · by_cases hvt : v = t
      · rw [hvt, hq] at hv
        cases hv
      · rw [hpoint v hvt] at hv
        exact h.told v owner r hv

theorem step_owned [DecidableEq τ] (hpid : Function.Injective pid) {e : Monitor.Event τ Call}
    (h : Owned pid s) (hstep : Monitor.step (program pid) all s e = some s') : Owned pid s' := by
  cases Monitor.step_moves hstep with
  | quiet hlock hpoint =>
    refine h.of_same hlock (fun v => by rw [hpoint v]) fun v owner r hv => ?_
    rw [hpoint v] at hv
    exact h.told v owner r hv
  | free hph hp hf hlock hq hother =>
    exact Does.owned hpid h (by rw [hph]; exact free_does hf) hlock hq hother
  | act hph ha hlock hq hother =>
    exact Does.owned hpid h (by rw [hph]; exact locked_does ha) hlock hq hother

/-! ### Sleepers -/

/-- A thread sleeps only while the lock is taken. -/
def spec : Monitor.Spec τ Lock Point Unit where
  rest _ := True
  held _ _ _ := True
  waits _ _ p lk := p = .entering ∧ lk.locked = true
  owes p _ := p = .left
  woke _ _ := False

theorem sound : Monitor.Sound (program pid) spec (fun _ => True) (fun _ _ _ _ => True) where
  acquire _ _ _ _ _ := ⟨trivial, fun _ => id⟩
  free s t i p lk q _ _ hf := by
    have hlk : lk = s.shared := by
      cases p <;> cases i <;>
        simp only [program, Option.some.injEq, Prod.mk.injEq, reduceCtorEq] at hf <;>
        exact hf.1.symm
    subst hlk
    exact ⟨id, fun _ _ => id, fun _ _ _ => id⟩
  write s t i p lk q _ _ _ _ ha := by
    refine ⟨trivial, ?_, fun _ => id, ?_⟩
    · rintro c rfl
      cases ha
    · rintro u c q' - ⟨rfl, hl⟩
      have hdoes : Does pid t s.shared p lk q := locked_does ha
      cases hdoes with
      | go => exact .inl ⟨rfl, hl⟩
      | tell => exact .inl ⟨rfl, hl⟩
      | take hfree => exact .inl ⟨rfl, rfl⟩
      | give => exact .inr (.inl rfl)
  wakeup s t i p c q _ _ _ _ ha := ⟨trivial, fun _ _ => .inl rfl, fun _ h => h.elim⟩
  sleep s t i p c q _ _ _ _ ha := by
    cases p <;> simp only [program, Option.some.injEq, reduceCtorEq] at ha
    case entering =>
      split at ha
      · next hl =>
        cases ha
        exact ⟨trivial, ⟨rfl, hl⟩, fun _ _ => ⟨trivial, fun _ => id⟩, fun _ _ _ ho => nomatch ho⟩
      · cases ha
  release s t i p q _ _ _ _ ha := by
    refine ⟨trivial, ?_⟩
    rintro u c q' rfl
    cases ha

theorem start_owned : Owned pid (start : Monitor.State τ Lock Point Unit) where
  fields _ h := nomatch h
  owner h := nomatch h
  told _ _ _ h := nomatch h

/-- **Sleep locks exclude each other**, in every interleaving. One thread at most is between
    `acquiresleep` and `releasesleep`, `holdingsleep` says whether the caller is, and while
    the spinlock is free a thread sleeps only if another one owns the lock. -/
theorem sleeplock_exclusive [DecidableEq τ] (hpid : Function.Injective pid) (hall : ∀ t, t ∈ all)
    {es : List (Monitor.Event τ Call)}
    (h : exec (Monitor.step (program pid) all) start es = some s) :
    (∀ t u, (s.thread t).point.owner = true → (s.thread u).point.owner = true → t = u) ∧
      (∀ t owner r, (s.thread t).point = .told owner r → r = owner) ∧
      (s.lock = none → ∀ t q, (s.thread t).SleepsOn () q →
        ∃ u, u ≠ t ∧ (s.thread u).point.owner = true) := by
  have hinv : Monitor.Inv spec s :=
    sound.exec_inv_of_forall hall (fun _ _ _ _ _ => trivial) trivial
      (.start rfl trivial fun _ => ⟨_, rfl⟩) h
  have howned : Owned pid s :=
    exec_invariant (fun _ _ _ hs ht => step_owned hpid hs ht) start_owned h
  refine ⟨fun t u => howned.unique hpid, howned.told, fun hl t q hsleep => ?_⟩
  obtain ⟨hq, hlocked⟩ := hinv.waits_of_unlocked hl hsleep
  obtain ⟨u, hu⟩ := howned.owner hlocked
  refine ⟨u, ?_, hu⟩
  rintro rfl
  have hpoint : (s.thread u).point = .entering := by
    obtain hs | hs := hsleep <;> rw [hs] <;> exact hq
  rw [hpoint] at hu
  cases hu

/-- One thread owns the lock, the other one has gone to sleep. -/
def contended : List (Monitor.Event Bool Call) :=
  [.run true .acquiresleep, .run true .acquiresleep, .run true .acquiresleep,
    .run true .acquiresleep, .run false .acquiresleep, .run false .acquiresleep,
    .run false .acquiresleep, .run false .acquiresleep, .run false .acquiresleep]

/-- The pids of the two threads. -/
def pidOf (t : Bool) : Int := if t then 3 else 4

theorem sleeplock_exclusive_contended :
    ∃ s, exec (Monitor.step (program pidOf) [false, true]) start contended = some s ∧
      s.thread false = .asleep () .entering ∧
      ∃ u, u ≠ false ∧ (s.thread u).point.owner = true := by
  refine ⟨_, rfl, rfl, ?_⟩
  have hpid : ∀ t u, pidOf t = pidOf u → t = u := by decide
  exact (sleeplock_exclusive hpid (by decide) (rfl : exec (Monitor.step (program pidOf)
    [false, true]) start contended = some _)).2.2 rfl false .entering (.inr rfl)

end MiniOs.Xv6.Sleeplock
