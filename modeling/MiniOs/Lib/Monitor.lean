import MiniOs.Lib.Trace
import Mathlib.Logic.Function.Basic

/-!
# Monitors with sleep and wakeup

Threads share data behind one lock. The thread that holds the lock changes the data, wakes
the threads that sleep on a channel, goes to sleep on a channel itself, or releases the lock.

Neither sleeping nor waking is atomic. A thread that goes to sleep takes a lock of its own,
releases the shared lock, and then sleeps and lets go of its own lock. A wakeup visits the
threads one after the other and has to wait for the own lock of each. Between any two of these
points all other threads may run, and a sleeping thread may also be roused for a reason of its
own.

The rule of this module reduces what holds in all interleavings to obligations about single
actions of the holder. `waits` is the condition a sleeper waits under. An action that breaks it
must leave the holder owing a wakeup, or the holder must have woken the channel already. What
is owed is paid, or no longer due, before the lock is released.

## Main definitions

- `Program`, `Act` — what threads do with and without the lock
- `State`, `step` — the interleavings
- `Spec`, `Sound` — assertions, and the obligations of a program

## Main results

- `step_steps` — inversion of a step
- `Sound.step_inv`, `Sound.exec_inv` — the step lemma and the run lemma
- `Inv.waits_of_unlocked` — no wakeup is lost
-/

namespace MiniOs.Monitor

open Trace

/-- What the holder of the lock does next; `p` is the point at which it goes on. -/
inductive Act (σ π χ : Type*) where
  | write (s : σ) (p : π)
  | wakeup (c : χ) (p : π)
  | sleep (c : χ) (p : π)
  | release (p : π)

/-- The code of the threads. A step may depend on an input `ι`, which stands for what the
    model leaves open. -/
structure Program (τ ι σ π χ : Type*) where
  /-- A thread at this point waits for the lock. -/
  acquires : π → Bool
  /-- A step of a thread that does not hold the lock. -/
  free : τ → ι → σ → π → Option (σ × π)
  /-- A step of the thread that holds the lock. -/
  locked : τ → ι → σ → π → Option (Act σ π χ)

inductive Phase (τ π χ : Type*) where
  | free (p : π)
  | locked (p : π)
  /-- In a wakeup, with the threads that are still to be visited. -/
  | waking (c : χ) (todo : List τ) (p : π)
  /-- Holds the shared lock and its own. -/
  | drowsy (c : χ) (p : π)
  /-- Holds its own lock only. -/
  | dozing (c : χ) (p : π)
  | asleep (c : χ) (p : π)
  /-- No longer asleep, and waits for the lock. -/
  | roused (p : π)
  deriving DecidableEq, Repr

/-- The shared data, the thread that holds the lock, and the threads. -/
structure State (τ σ π χ : Type*) where
  shared : σ
  lock : Option τ
  thread : τ → Phase τ π χ

/-- A thread takes its next step, or is roused from outside. -/
inductive Event (τ ι : Type*) where
  | run (t : τ) (i : ι)
  | rouse (t : τ)
  deriving DecidableEq, Repr

variable {τ ι σ π χ : Type*}

def Phase.ownLock : Phase τ π χ → Bool
  | .drowsy _ _ | .dozing _ _ => true
  | _ => false

def Phase.holds : Phase τ π χ → Bool
  | .locked _ | .waking _ _ _ | .drowsy _ _ => true
  | _ => false

/-- What a wakeup of channel `c` does to a thread whose own lock is free. -/
def Phase.visit [DecidableEq χ] (c : χ) : Phase τ π χ → Phase τ π χ
  | .asleep d p => if d = c then .roused p else .asleep d p
  | ph => ph

section Step

variable [DecidableEq τ]

def State.set (s : State τ σ π χ) (t : τ) (ph : Phase τ π χ) : State τ σ π χ :=
  { s with thread := Function.update s.thread t ph }

@[simp]
theorem State.set_thread_self {s : State τ σ π χ} {t : τ} {ph : Phase τ π χ} :
    (s.set t ph).thread t = ph := Function.update_self ..

theorem State.set_thread_of_ne {s : State τ σ π χ} {t v : τ} {ph : Phase τ π χ} (hv : v ≠ t) :
    (s.set t ph).thread v = s.thread v := Function.update_of_ne hv ..

def State.take (s : State τ σ π χ) (t : τ) (p : π) : State τ σ π χ :=
  { s.set t (.locked p) with lock := some t }

/-- Thread `t` lets go of the shared lock. -/
def State.drop (s : State τ σ π χ) (t : τ) (ph : Phase τ π χ) : State τ σ π χ :=
  { s.set t ph with lock := none }

/-- The holder `t` does `a`; `all` are the threads that a wakeup visits. -/
def State.act (all : List τ) (s : State τ σ π χ) (t : τ) : Act σ π χ → State τ σ π χ
  | .write d p => { s.set t (.locked p) with shared := d }
  | .wakeup c p => s.set t (.waking c all p)
  | .sleep c p => s.set t (.drowsy c p)
  | .release p => s.drop t (.free p)

def step [DecidableEq χ] (P : Program τ ι σ π χ) (all : List τ) (s : State τ σ π χ) :
    Event τ ι → Option (State τ σ π χ)
  | .run t i =>
    match s.thread t with
    | .free p =>
      if P.acquires p then if s.lock = none then some (s.take t p) else none
      else (P.free t i s.shared p).map fun x => { s.set t (.free x.2) with shared := x.1 }
    | .locked p => (P.locked t i s.shared p).map (s.act all t)
    | .waking _ [] p => some (s.set t (.locked p))
    | .waking c (u :: us) p =>
      if (s.thread u).ownLock then none
      else some ((s.set u ((s.thread u).visit c)).set t (.waking c us p))
    | .drowsy c p => some (s.drop t (.dozing c p))
    | .dozing c p => some (s.set t (.asleep c p))
    | .asleep _ _ => none
    | .roused p => if s.lock = none then some (s.take t p) else none
  | .rouse t =>
    match s.thread t with
    | .asleep _ p => some (s.set t (.roused p))
    | _ => none

/-- A step that is taken, with what it needs and the state after it. -/
inductive Steps [DecidableEq χ] (P : Program τ ι σ π χ) (all : List τ) (s : State τ σ π χ) :
    Event τ ι → State τ σ π χ → Prop where
  | acquire {t : τ} {i : ι} {p : π} (hph : s.thread t = .free p) (hp : P.acquires p = true)
      (hl : s.lock = none) : Steps P all s (.run t i) (s.take t p)
  | free {t : τ} {i : ι} {p q : π} {d : σ} (hph : s.thread t = .free p)
      (hp : P.acquires p = false) (hf : P.free t i s.shared p = some (d, q)) :
      Steps P all s (.run t i) { s.set t (.free q) with shared := d }
  | act {t : τ} {i : ι} {p : π} {a : Act σ π χ} (hph : s.thread t = .locked p)
      (ha : P.locked t i s.shared p = some a) : Steps P all s (.run t i) (s.act all t a)
  | woken {t : τ} {i : ι} {c : χ} {p : π} (hph : s.thread t = .waking c [] p) :
      Steps P all s (.run t i) (s.set t (.locked p))
  | visit {t u : τ} {i : ι} {c : χ} {us : List τ} {p : π}
      (hph : s.thread t = .waking c (u :: us) p) (hu : (s.thread u).ownLock = false) :
      Steps P all s (.run t i) ((s.set u ((s.thread u).visit c)).set t (.waking c us p))
  | drop {t : τ} {i : ι} {c : χ} {p : π} (hph : s.thread t = .drowsy c p) :
      Steps P all s (.run t i) (s.drop t (.dozing c p))
  | fall {t : τ} {i : ι} {c : χ} {p : π} (hph : s.thread t = .dozing c p) :
      Steps P all s (.run t i) (s.set t (.asleep c p))
  | reacquire {t : τ} {i : ι} {p : π} (hph : s.thread t = .roused p) (hl : s.lock = none) :
      Steps P all s (.run t i) (s.take t p)
  | rouse {t : τ} {c : χ} {p : π} (hph : s.thread t = .asleep c p) :
      Steps P all s (.rouse t) (s.set t (.roused p))

/-- **Inversion of a step**. -/
theorem step_steps [DecidableEq χ] {P : Program τ ι σ π χ} {all : List τ} {s s' : State τ σ π χ}
    {e : Event τ ι} (h : step P all s e = some s') : Steps P all s e s' := by
  cases e with
  | run t i =>
    rw [step] at h
    cases hph : s.thread t with
    | free p =>
      simp only [hph] at h
      by_cases hp : P.acquires p = true
      · rw [if_pos hp, Option.ite_none_right_eq_some] at h
        obtain ⟨hl, h⟩ := h
        cases h
        exact .acquire hph hp hl
      · rw [if_neg hp, Option.map_eq_some_iff] at h
        obtain ⟨⟨d, q⟩, hf, rfl⟩ := h
        exact .free hph (Bool.eq_false_iff.mpr hp) hf
    | locked p =>
      simp only [hph, Option.map_eq_some_iff] at h
      obtain ⟨a, ha, rfl⟩ := h
      exact .act hph ha
    | waking c todo p =>
      cases todo with
      | nil =>
        simp only [hph] at h
        cases h
        exact .woken hph
      | cons u us =>
        simp only [hph, Option.ite_none_left_eq_some] at h
        obtain ⟨hu, h⟩ := h
        cases h
        exact .visit hph (Bool.eq_false_iff.mpr hu)
    | drowsy c p =>
      simp only [hph] at h
      cases h
      exact .drop hph
    | dozing c p =>
      simp only [hph] at h
      cases h
      exact .fall hph
    | asleep c p =>
      simp only [hph] at h
      cases h
    | roused p =>
      simp only [hph, Option.ite_none_right_eq_some] at h
      obtain ⟨hl, h⟩ := h
      cases h
      exact .reacquire hph hl
  | rouse t =>
    rw [step] at h
    cases hph : s.thread t with
    | asleep c p =>
      simp only [hph] at h
      cases h
      exact .rouse hph
    | _ =>
      simp only [hph] at h
      cases h

end Step

/-! ### Points -/

def Phase.point : Phase τ π χ → π
  | .free p | .locked p | .waking _ _ p | .drowsy _ p | .dozing _ p | .asleep _ p | .roused p => p

def State.points (s : State τ σ π χ) (v : τ) : π := (s.thread v).point

theorem State.points_eq_update [DecidableEq τ] {s s' : State τ σ π χ} {t : τ} {q : π}
    (hq : (s'.thread t).point = q) (hother : ∀ v, v ≠ t → s'.thread v = s.thread v) :
    s'.points = Function.update s.points t q := by
  ext v
  by_cases hv : v = t
  · rw [hv, Function.update_self]
    exact hq
  · rw [Function.update_of_ne hv, State.points, hother v hv]
    rfl

def Act.data (d : σ) : Act σ π χ → σ
  | .write d' _ => d'
  | _ => d

/-- The point after an action. -/
def Act.point : Act σ π χ → π
  | .write _ p | .wakeup _ p | .sleep _ p | .release p => p

/-- What a step does to the data and to the points. Only a move of the program changes them. -/
inductive Moved (P : Program τ ι σ π χ) (s : State τ σ π χ) :
    Event τ ι → State τ σ π χ → Prop where
  | quiet {e : Event τ ι} {s' : State τ σ π χ} (hd : s'.shared = s.shared)
      (hpoint : ∀ v, (s'.thread v).point = (s.thread v).point) : Moved P s e s'
  | free {t : τ} {i : ι} {p q : π} {d : σ} {s' : State τ σ π χ} (hph : s.thread t = .free p)
      (hp : P.acquires p = false) (hf : P.free t i s.shared p = some (d, q)) (hd : s'.shared = d)
      (hq : (s'.thread t).point = q) (hother : ∀ v, v ≠ t → s'.thread v = s.thread v) :
      Moved P s (.run t i) s'
  | act {t : τ} {i : ι} {p : π} {a : Act σ π χ} {s' : State τ σ π χ}
      (hph : s.thread t = .locked p) (ha : P.locked t i s.shared p = some a)
      (hd : s'.shared = a.data s.shared) (hq : (s'.thread t).point = a.point)
      (hother : ∀ v, v ≠ t → s'.thread v = s.thread v) : Moved P s (.run t i) s'

@[simp]
theorem Phase.point_visit [DecidableEq χ] (c : χ) (ph : Phase τ π χ) :
    (ph.visit c).point = ph.point := by
  cases ph with
  | asleep d p =>
    rw [Phase.visit]
    split <;> rfl
  | _ => rfl

/-- **Inversion of a step**, as far as the data and the points are concerned. -/
theorem step_moves [DecidableEq τ] [DecidableEq χ] {P : Program τ ι σ π χ} {all : List τ}
    {s s' : State τ σ π χ} {e : Event τ ι} (h : step P all s e = some s') : Moved P s e s' := by
  have hset : ∀ t ph, ph.point = (s.thread t).point → ∀ v,
      ((s.set t ph).thread v).point = (s.thread v).point := by
    intro t ph hph v
    by_cases hv : v = t
    · subst hv
      rw [State.set_thread_self, hph]
    · rw [State.set_thread_of_ne hv]
  cases step_steps h with
  | @acquire t i p hph hp hl => exact .quiet rfl (hset t (.locked p) (by rw [hph]; rfl))
  | @free t i p q d hph hp hf =>
    refine .free hph hp hf rfl ?_ fun v hv => State.set_thread_of_ne hv
    change ((s.set t (.free q)).thread t).point = q
    rw [State.set_thread_self]
    rfl
  | @act t i p a hph ha =>
    refine .act hph ha ?_ ?_ fun v hv => ?_
    · cases a <;> rfl
    · cases a <;> simp [State.act, State.drop, Act.point, Phase.point]
    · cases a <;> exact State.set_thread_of_ne hv
  | @woken t i c p hph => exact .quiet rfl (hset t (.locked p) (by rw [hph]; rfl))
  | @visit t u i c us p hph hu =>
    refine .quiet rfl fun v => ?_
    by_cases hv : v = t
    · subst hv
      rw [State.set_thread_self, hph]
      rfl
    · rw [State.set_thread_of_ne hv]
      exact hset u _ (Phase.point_visit c _) v
  | @drop t i c p hph => exact .quiet rfl (hset t (.dozing c p) (by rw [hph]; rfl))
  | @fall t i c p hph => exact .quiet rfl (hset t (.asleep c p) (by rw [hph]; rfl))
  | @reacquire t i p hph hl => exact .quiet rfl (hset t (.locked p) (by rw [hph]; rfl))
  | @rouse t c p hph => exact .quiet rfl (hset t (.roused p) (by rw [hph]; rfl))

/-- **Invariant rule** for the data and the points, where the steps of the program are all that
    counts. -/
theorem step_points [DecidableEq τ] [DecidableEq χ] {P : Program τ ι σ π χ} {all : List τ}
    {J : σ → (τ → π) → Prop} {s s' : State τ σ π χ} {e : Event τ ι}
    (hfree : ∀ t i d q, e = .run t i → P.free t i s.shared (s.points t) = some (d, q) →
      J d (Function.update s.points t q))
    (hlocked : ∀ t i a, e = .run t i → s.thread t = .locked (s.points t) →
      P.locked t i s.shared (s.points t) = some a →
      J (a.data s.shared) (Function.update s.points t a.point))
    (h : J s.shared s.points) (hstep : step P all s e = some s') : J s'.shared s'.points := by
  cases step_moves hstep with
  | quiet hd hpoint =>
    have hpoints : s'.points = s.points := funext hpoint
    rw [hd, hpoints]
    exact h
  | @free t i p q d _ hph hp hf hd hq hother =>
    have hpt : s.points t = p := by rw [State.points, hph]; rfl
    rw [hd, State.points_eq_update hq hother]
    exact hfree t i d q rfl (hpt ▸ hf)
  | @act t i p a _ hph ha hd hq hother =>
    have hpt : s.points t = p := by rw [State.points, hph]; rfl
    rw [hd, State.points_eq_update hq hother]
    exact hlocked t i a rfl (hpt ▸ hph) (hpt ▸ ha)

/-! ### Assertions -/

/-- Assertions about a program. -/
structure Spec (τ σ π χ : Type*) where
  /-- What holds of the data while no thread holds the lock. -/
  rest : σ → Prop
  /-- What the holder knows at a point. -/
  held : τ → σ → π → Prop
  /-- The condition under which a thread sleeps on a channel, to go on at the point. -/
  waits : τ → χ → π → σ → Prop
  /-- The holder is going to wake the channel before it lets go of the lock. -/
  owes : π → χ → Prop
  /-- The holder has woken the channel since it took the lock. -/
  woke : π → χ → Prop

/-- A thread that takes the lock at point `p` may assume no more than `rest`. -/
def Spec.Resumes (R : Spec τ σ π χ) (t : τ) (p : π) : Prop :=
  ∀ d, R.rest d → R.held t d p ∧ ∀ c, ¬ R.woke p c

/-- What the actions of a program have to keep, in states where `C` holds and for the inputs
    that `G` allows the holder. -/
structure Sound (P : Program τ ι σ π χ) (R : Spec τ σ π χ) (C : State τ σ π χ → Prop)
    (G : τ → ι → σ → π → Prop) : Prop where
  acquire : ∀ t p, P.acquires p = true → R.Resumes t p
  free : ∀ s t i p d q, C s → s.thread t = .free p → P.free t i s.shared p = some (d, q) →
    (R.rest s.shared → R.rest d) ∧ (∀ u q, R.held u s.shared q → R.held u d q) ∧
      ∀ u c q, R.waits u c q s.shared → R.waits u c q d
  write : ∀ s t i p d q, C s → s.thread t = .locked p → G t i s.shared p →
    R.held t s.shared p → P.locked t i s.shared p = some (.write d q) →
    R.held t d q ∧ (∀ c, R.owes p c → R.owes q c) ∧ (∀ c, R.woke q c → R.woke p c) ∧
      ∀ u c q', u ≠ t → R.waits u c q' s.shared → R.waits u c q' d ∨ R.owes q c ∨ R.woke q c
  wakeup : ∀ s t i p c q, C s → s.thread t = .locked p → G t i s.shared p →
    R.held t s.shared p → P.locked t i s.shared p = some (.wakeup c q) →
    R.held t s.shared q ∧ (∀ c', R.owes p c' → c' = c ∨ R.owes q c') ∧
      ∀ c', R.woke q c' → c' = c ∨ R.woke p c'
  sleep : ∀ s t i p c q, C s → s.thread t = .locked p → G t i s.shared p →
    R.held t s.shared p → P.locked t i s.shared p = some (.sleep c q) →
    R.rest s.shared ∧ R.waits t c q s.shared ∧ R.Resumes t q ∧
      ∀ u c' q', R.owes p c' → R.waits u c' q' s.shared
  release : ∀ s t i p q, C s → s.thread t = .locked p → G t i s.shared p →
    R.held t s.shared p → P.locked t i s.shared p = some (.release q) →
    R.rest s.shared ∧ ∀ u c' q', R.owes p c' → R.waits u c' q' s.shared

/-- The event is a step without the lock, or the holder gets an input that `G` allows. -/
def Admits (G : τ → ι → σ → π → Prop) (s : State τ σ π χ) (e : Event τ ι) : Prop :=
  ∀ t i p, e = .run t i → s.thread t = .locked p → G t i s.shared p

/-- Whether an event is admitted can be decided. -/
instance Admits.decidable {G : τ → ι → σ → π → Prop} [∀ t i d p, Decidable (G t i d p)]
    (s : State τ σ π χ) : ∀ e : Event τ ι, Decidable (Admits G s e)
  | .rouse _ => .isTrue nofun
  | .run t i =>
    match hph : s.thread t with
    | .locked p => decidable_of_iff (G t i s.shared p) ⟨fun h _ _ _ he hp => by
        cases he
        cases hph.symm.trans hp
        exact h, fun h => h t i p rfl hph⟩
    | .free _ | .waking _ _ _ | .drowsy _ _ | .dozing _ _ | .asleep _ _ | .roused _ =>
      .isTrue fun _ _ _ he hp => by
        cases he
        cases hph.symm.trans hp

variable {R : Spec τ σ π χ}

/-- The thread sleeps on `c`, or holds only its own lock and is about to. -/
def Phase.SleepsOn (ph : Phase τ π χ) (c : χ) (q : π) : Prop := ph = .dozing c q ∨ ph = .asleep c q

/-- The thread is going to wake `u` if that sleeps on `c`. -/
def Phase.Owes (R : Spec τ σ π χ) (u : τ) (c : χ) : Phase τ π χ → Prop
  | .locked p => R.owes p c
  | .waking d us p => R.owes p c ∨ c = d ∧ u ∈ us
  | _ => False

/-- The thread has seen to it that `u` does not sleep on `c`. -/
def Phase.Woke (R : Spec τ σ π χ) (u : τ) (c : χ) : Phase τ π χ → Prop
  | .locked p => R.woke p c
  | .waking d us p => R.woke p c ∧ ¬ (c = d ∧ u ∈ us)
  | _ => False

def Phase.Knows (R : Spec τ σ π χ) (t : τ) (d : σ) : Phase τ π χ → Prop
  | .free _ => True
  | .locked p | .waking _ _ p => R.held t d p
  | .drowsy c p => R.rest d ∧ R.waits t c p d ∧ R.Resumes t p
  | .dozing _ p | .asleep _ p | .roused p => R.Resumes t p

/-- The invariant of the interleavings. -/
structure Inv (R : Spec τ σ π χ) (s : State τ σ π χ) : Prop where
  lock : ∀ t, s.lock = some t ↔ (s.thread t).holds = true
  rest : s.lock = none → R.rest s.shared
  knows : ∀ t, (s.thread t).Knows R t s.shared
  alert : ∀ u c q, (s.thread u).SleepsOn c q →
    R.waits u c q s.shared ∨ ∃ t, (s.thread t).Owes R u c
  clear : ∀ u c q, (s.thread u).SleepsOn c q → ∀ t, ¬ (s.thread t).Woke R u c

theorem Phase.Owes.holds {u : τ} {c : χ} {ph : Phase τ π χ} (h : ph.Owes R u c) :
    ph.holds = true := by
  cases ph <;> first | rfl | cases h

theorem Phase.Woke.holds {u : τ} {c : χ} {ph : Phase τ π χ} (h : ph.Woke R u c) :
    ph.holds = true := by
  cases ph <;> first | rfl | cases h

theorem Phase.SleepsOn.holds {c : χ} {q : π} {ph : Phase τ π χ} (h : ph.SleepsOn c q) :
    ph.holds = false := by
  obtain rfl | rfl := h <;> rfl

/-- A sleeper is not the thread that has just gone on in a phase without sleep. -/
theorem Phase.SleepsOn.of_set [DecidableEq τ] {s : State τ σ π χ} {t u : τ} {ph : Phase τ π χ}
    {c : χ} {q : π} (h : ((s.set t ph).thread u).SleepsOn c q) (hph : ¬ ph.SleepsOn c q) :
    u ≠ t ∧ (s.thread u).SleepsOn c q := by
  have hu : u ≠ t := by
    rintro rfl
    rw [State.set_thread_self] at h
    exact hph h
  exact ⟨hu, State.set_thread_of_ne hu ▸ h⟩

namespace Inv

variable {s : State τ σ π χ} {t u : τ}

theorem eq_of_holds (h : Inv R s) (ht : (s.thread t).holds = true)
    (hu : (s.thread u).holds = true) : t = u := by
  have hlock := (h.lock t).mpr ht
  rw [(h.lock u).mpr hu] at hlock
  exact (Option.some.inj hlock).symm

theorem not_holds (h : Inv R s) (hl : s.lock = none) : (s.thread t).holds = false := by
  simp [← Bool.not_eq_true, ← h.lock t, hl]

/-- **No wakeup is lost**: while the lock is free, every sleeper waits rightly. -/
theorem waits_of_unlocked (h : Inv R s) (hl : s.lock = none) {c : χ} {q : π}
    (hsleep : (s.thread u).SleepsOn c q) : R.waits u c q s.shared := by
  obtain hwaits | ⟨t, howes⟩ := h.alert u c q hsleep
  · exact hwaits
  · have hholds := howes.holds
    rw [h.not_holds hl] at hholds
    cases hholds

/-- What a thread without the lock knows does not depend on the data. -/
theorem knows_of_not_holds (h : Inv R s) (ht : (s.thread t).holds = false) (d : σ) :
    (s.thread t).Knows R t d := by
  have hknows := h.knows t
  cases hph : s.thread t <;> rw [hph] at hknows ht <;> first | exact hknows | cases ht

theorem waits_or_owes (h : Inv R s) (ht : (s.thread t).holds = true) {c : χ} {q : π}
    (hsleep : (s.thread u).SleepsOn c q) :
    R.waits u c q s.shared ∨ (s.thread t).Owes R u c := by
  obtain hwaits | ⟨v, howes⟩ := h.alert u c q hsleep
  · exact .inl hwaits
  · rw [h.eq_of_holds ht howes.holds]
    exact .inr howes

variable [DecidableEq τ] {ph : Phase τ π χ} {d : σ} {c : χ} {p : π}

theorem take (h : Inv R s) (hl : s.lock = none) (hp : R.Resumes t p) : Inv R (s.take t p) where
  lock v := by
    by_cases hv : v = t
    · subst hv
      simp [State.take, Phase.holds]
    · have hfree : (s.thread v).holds = false := h.not_holds hl
      simp [State.take, State.set_thread_of_ne hv, hfree, Ne.symm hv]
  rest hlock := nomatch hlock
  knows v := by
    by_cases hv : v = t
    · subst hv
      exact (State.set_thread_self (s := s)).symm ▸ (hp s.shared (h.rest hl)).1
    · exact (State.set_thread_of_ne hv).symm ▸ h.knows v
  alert u c q hsleep := by
    obtain ⟨hu, hsleep⟩ := hsleep.of_set nofun
    exact .inl (h.waits_of_unlocked hl hsleep)
  clear u c q hsleep v hwoke := by
    by_cases hv : v = t
    · subst hv
      rw [State.take, State.set_thread_self] at hwoke
      exact (hp s.shared (h.rest hl)).2 c hwoke
    · have hholds := hwoke.holds
      rw [State.take, State.set_thread_of_ne hv, h.not_holds hl] at hholds
      cases hholds

theorem hold (h : Inv R s) (ht : (s.thread t).holds = true) (hph : ph.holds = true)
    (hknows : ph.Knows R t d)
    (hsleep : ∀ u c q, u ≠ t → (s.thread u).SleepsOn c q →
      R.waits u c q s.shared ∨ (s.thread t).Owes R u c → ¬ (s.thread t).Woke R u c →
      (R.waits u c q d ∨ ph.Owes R u c) ∧ ¬ ph.Woke R u c) :
    Inv R { s.set t ph with shared := d } := by
  have hother : ∀ v, v ≠ t → (s.thread v).holds = false := by
    intro v hv
    by_contra hholds
    exact hv (h.eq_of_holds (Bool.not_eq_false _ ▸ hholds) ht)
  have hnosleep : ∀ c q, ¬ ph.SleepsOn c q := by
    intro c q hs
    rw [hs.holds] at hph
    cases hph
  refine ⟨fun v => ?_, fun hlock => ?_, fun v => ?_, fun u c q hs => ?_, fun u c q hs v hwoke => ?_⟩
  · change s.lock = some v ↔ ((s.set t ph).thread v).holds = true
    rw [h.lock v]
    by_cases hv : v = t
    · subst hv
      rw [State.set_thread_self, ht, hph]
    · rw [State.set_thread_of_ne hv]
  · have hnone := h.not_holds hlock (t := t)
    rw [ht] at hnone
    cases hnone
  · change ((s.set t ph).thread v).Knows R v d
    by_cases hv : v = t
    · subst hv
      rw [State.set_thread_self]
      exact hknows
    · rw [State.set_thread_of_ne hv]
      exact h.knows_of_not_holds (hother v hv) d
  · obtain ⟨hu, hold⟩ := hs.of_set (hnosleep c q)
    have hnew := hsleep u c q hu hold (h.waits_or_owes ht hold) (h.clear u c q hold t)
    refine hnew.1.imp_right fun ho => ⟨t, ?_⟩
    change ((s.set t ph).thread t).Owes R u c
    rw [State.set_thread_self]
    exact ho
  · obtain ⟨hu, hold⟩ := hs.of_set (hnosleep c q)
    have hnew := hsleep u c q hu hold (h.waits_or_owes ht hold) (h.clear u c q hold t)
    change ((s.set t ph).thread v).Woke R u c at hwoke
    by_cases hv : v = t
    · rw [hv, State.set_thread_self] at hwoke
      exact hnew.2 hwoke
    · rw [State.set_thread_of_ne hv] at hwoke
      exact h.clear u c q hold v hwoke

theorem drop (h : Inv R s) (ht : (s.thread t).holds = true) (hph : ph.holds = false)
    (hrest : R.rest s.shared) (hknows : ph.Knows R t s.shared)
    (howes : ∀ u c q, (s.thread t).Owes R u c → R.waits u c q s.shared)
    (hsleep : ∀ c q, ph.SleepsOn c q → R.waits t c q s.shared) : Inv R (s.drop t ph) := by
  have hholds : ∀ v, ((s.set t ph).thread v).holds = false := by
    intro v
    by_cases hv : v = t
    · subst hv
      rw [State.set_thread_self]
      exact hph
    · rw [State.set_thread_of_ne hv]
      by_contra hv'
      exact hv (h.eq_of_holds (Bool.not_eq_false _ ▸ hv') ht)
  refine ⟨fun v => ?_, fun _ => hrest, fun v => ?_, fun u c q hs => .inl ?_,
    fun u c q hs v hwoke => ?_⟩
  · change none = some v ↔ ((s.set t ph).thread v).holds = true
    simp [hholds v]
  · change ((s.set t ph).thread v).Knows R v s.shared
    by_cases hv : v = t
    · subst hv
      rw [State.set_thread_self]
      exact hknows
    · rw [State.set_thread_of_ne hv]
      exact h.knows v
  · change ((s.set t ph).thread u).SleepsOn c q at hs
    by_cases hu : u = t
    · subst hu
      rw [State.set_thread_self] at hs
      exact hsleep c q hs
    · rw [State.set_thread_of_ne hu] at hs
      exact (h.waits_or_owes ht hs).elim id (howes u c q)
  · have hv := hwoke.holds
    change ((s.set t ph).thread v).holds = true at hv
    rw [hholds v] at hv
    cases hv

theorem idle (h : Inv R s) (ht : (s.thread t).holds = false) (hph : ph.holds = false)
    (hknows : ph.Knows R t d) (hrest : R.rest s.shared → R.rest d)
    (hheld : ∀ u, (s.thread u).Knows R u s.shared → (s.thread u).Knows R u d)
    (hwaits : ∀ u c q, R.waits u c q s.shared → R.waits u c q d)
    (hsleep : ∀ c q, ph.SleepsOn c q → (s.thread t).SleepsOn c q) :
    Inv R { s.set t ph with shared := d } := by
  have hsleeps : ∀ u c q, ((s.set t ph).thread u).SleepsOn c q → (s.thread u).SleepsOn c q := by
    intro u c q hs
    by_cases hu : u = t
    · subst hu
      rw [State.set_thread_self] at hs
      exact hsleep c q hs
    · rwa [State.set_thread_of_ne hu] at hs
  have hsame : ∀ v, (s.thread v).holds = true → (s.set t ph).thread v = s.thread v := by
    intro v hv
    refine State.set_thread_of_ne ?_
    rintro rfl
    rw [ht] at hv
    cases hv
  have hholds : ∀ v, ((s.set t ph).thread v).holds = (s.thread v).holds := by
    intro v
    by_cases hv : v = t
    · subst hv
      rw [State.set_thread_self, hph, ht]
    · rw [State.set_thread_of_ne hv]
  refine ⟨fun v => ?_, fun hlock => hrest (h.rest hlock), fun v => ?_, fun u c q hs => ?_,
    fun u c q hs v hwoke => ?_⟩
  · change s.lock = some v ↔ ((s.set t ph).thread v).holds = true
    rw [hholds v]
    exact h.lock v
  · change ((s.set t ph).thread v).Knows R v d
    by_cases hv : v = t
    · subst hv
      rw [State.set_thread_self]
      exact hknows
    · rw [State.set_thread_of_ne hv]
      exact hheld v (h.knows v)
  · refine (h.alert u c q (hsleeps u c q hs)).imp (hwaits u c q) fun ⟨v, hv⟩ => ⟨v, ?_⟩
    change ((s.set t ph).thread v).Owes R u c
    rw [hsame v hv.holds]
    exact hv
  · have hv := hwoke.holds
    change ((s.set t ph).thread v).holds = true at hv
    rw [hholds v] at hv
    change ((s.set t ph).thread v).Woke R u c at hwoke
    rw [hsame v hv] at hwoke
    exact h.clear u c q (hsleeps u c q hs) v hwoke

/-- A thread is roused, or visited by a wakeup that has nothing to do. -/
theorem rouse (h : Inv R s) (hu : s.thread u = .asleep c p) : Inv R (s.set u (.roused p)) := by
  have hknows := h.knows u
  rw [hu] at hknows
  exact h.idle (by rw [hu]; rfl) rfl hknows id (fun _ => id) (fun _ _ _ => id) nofun

theorem visit [DecidableEq χ] (h : Inv R s) : Inv R (s.set u ((s.thread u).visit c)) := by
  have hsame : Inv R (s.set u (s.thread u)) := by
    have hset : s.set u (s.thread u) = s := by
      rw [State.set, Function.update_eq_self]
    rwa [hset]
  cases hph : s.thread u with
  | asleep d p =>
    rw [Phase.visit]
    split
    · exact h.rouse hph
    · rwa [hph] at hsame
  | _ => rwa [hph] at hsame

end Inv

namespace Sound

variable [DecidableEq τ] {P : Program τ ι σ π χ} {C : State τ σ π χ → Prop}
  {G : τ → ι → σ → π → Prop} {all : List τ} {s s' : State τ σ π χ} {t u : τ} {i : ι} {c : χ}
  {us : List τ} {p : π}

theorem act_inv (hR : Sound P R C G) (hall : ∀ u, u ∈ all) (hC : C s) (h : Inv R s)
    (hph : s.thread t = .locked p) (hG : G t i s.shared p) {a : Act σ π χ}
    (ha : P.locked t i s.shared p = some a) :
    Inv R (s.act all t a) := by
  have ht : (s.thread t).holds = true := by rw [hph]; rfl
  have hheld : R.held t s.shared p := by
    have hknows := h.knows t
    rwa [hph] at hknows
  cases a with
  | write d q =>
    obtain ⟨hheld', howes, hwoke, hwaits⟩ := hR.write s t i p d q hC hph hG hheld ha
    refine h.hold ht rfl hheld' fun u c q' hu hs hcov hclear => ?_
    rw [hph] at hcov hclear
    have hclear' : ¬ R.woke q c := fun hw => hclear (hwoke c hw)
    refine ⟨?_, hclear'⟩
    obtain hw | ho := hcov
    · obtain hw' | ho | hw' := hwaits u c q' hu hw
      · exact .inl hw'
      · exact .inr ho
      · exact absurd hw' hclear'
    · exact .inr (howes c ho)
  | wakeup c q =>
    obtain ⟨hheld', howes, hwoke⟩ := hR.wakeup s t i p c q hC hph hG hheld ha
    refine h.hold ht rfl hheld' fun u c' q' hu hs hcov hclear => ?_
    rw [hph] at hcov hclear
    refine ⟨hcov.imp_right fun ho => ?_, fun hw => ?_⟩
    · obtain rfl | ho' := howes c' ho
      · exact .inr ⟨rfl, hall u⟩
      · exact .inl ho'
    · obtain rfl | hw' := hwoke c' hw.1
      · exact hw.2 ⟨rfl, hall u⟩
      · exact hclear hw'
  | sleep c q =>
    obtain ⟨hrest, hwaits, hresumes, howes⟩ := hR.sleep s t i p c q hC hph hG hheld ha
    refine h.hold ht rfl ⟨hrest, hwaits, hresumes⟩ fun u c' q' hu hs hcov hclear => ?_
    rw [hph] at hcov
    exact ⟨.inl (hcov.elim id (howes u c' q')), nofun⟩
  | release q =>
    obtain ⟨hrest, howes⟩ := hR.release s t i p q hC hph hG hheld ha
    refine h.drop ht rfl hrest trivial (fun u c q' ho => ?_) nofun
    rw [hph] at ho
    exact howes u c q' ho

variable [DecidableEq χ]

theorem visit_inv (h : Inv R s) (hph : s.thread t = .waking c (u :: us) p)
    (hu : (s.thread u).ownLock = false) :
    Inv R ((s.set u ((s.thread u).visit c)).set t (.waking c us p)) := by
  have hne : ∀ v c' q', ((s.set u ((s.thread u).visit c)).thread v).SleepsOn c' q' →
      ¬ (c' = c ∧ v = u) := by
    rintro v c' q' hs ⟨rfl, rfl⟩
    rw [State.set_thread_self] at hs
    cases hv : s.thread v <;> rw [hv] at hs hu
    case asleep d q =>
      rw [Phase.visit] at hs
      split at hs
      · obtain hs | hs := hs <;> cases hs
      · next hd =>
        obtain hs | hs := hs <;> cases hs
        exact hd rfl
    case dozing d q => cases hu
    all_goals obtain hs | hs := hs <;> cases hs
  have ht : (s.set u ((s.thread u).visit c)).thread t = .waking c (u :: us) p := by
    by_cases htu : t = u
    · subst htu
      rw [State.set_thread_self, hph]
      rfl
    · rw [State.set_thread_of_ne htu, hph]
  have hholds : ((s.set u ((s.thread u).visit c)).thread t).holds = true := by rw [ht]; rfl
  have hknows := (h.visit (u := u) (c := c)).knows t
  rw [ht] at hknows
  refine h.visit.hold hholds rfl hknows fun v c' q' hv hs hcov hclear => ?_
  rw [ht] at hcov hclear
  have hmem : c' = c ∧ v ∈ u :: us ↔ c' = c ∧ v ∈ us := by
    constructor
    · rintro ⟨hc, hv⟩
      exact ⟨hc, (List.mem_cons.mp hv).resolve_left fun hvu => hne v c' q' hs ⟨hc, hvu⟩⟩
    · rintro ⟨hc, hv⟩
      exact ⟨hc, List.mem_cons_of_mem u hv⟩
  rw [Phase.Owes, hmem] at hcov
  rw [Phase.Woke, hmem] at hclear
  exact ⟨hcov, hclear⟩

/-- **Step lemma**. -/
theorem step_inv (hR : Sound P R C G) (hall : ∀ u, u ∈ all) {e : Event τ ι} (hC : C s)
    (he : Admits G s e) (h : Inv R s) (hstep : step P all s e = some s') : Inv R s' := by
  cases step_steps hstep with
  | acquire hph hp hl => exact h.take hl (hR.acquire _ _ hp)
  | @free t i p q d hph hp hf =>
    obtain ⟨hrest, hheld, hwaits⟩ := hR.free s t i p d q hC hph hf
    refine h.idle (by rw [hph]; rfl) rfl trivial hrest (fun u hu => ?_) hwaits nofun
    cases hv : s.thread u <;> rw [hv] at hu
    case locked p' => exact hheld u p' hu
    case waking c us p' => exact hheld u p' hu
    case drowsy c p' => exact ⟨hrest hu.1, hwaits u c p' hu.2.1, hu.2.2⟩
    all_goals exact hu
  | act hph ha => exact hR.act_inv hall hC h hph (he _ _ _ rfl hph) ha
  | @woken t i c p hph =>
    have hknows := h.knows t
    rw [hph] at hknows
    refine h.hold (by rw [hph]; rfl) rfl hknows fun u c' q' hu hs hcov hclear => ?_
    rw [hph] at hcov hclear
    have hnil : ¬ (c' = c ∧ u ∈ ([] : List τ)) := fun hmem => nomatch hmem.2
    exact ⟨hcov.imp_right fun ho => ho.resolve_right hnil, fun hw => hclear ⟨hw, hnil⟩⟩
  | visit hph hu => exact visit_inv h hph hu
  | @drop t i c p hph =>
    obtain ⟨hrest, hwaits, hresumes⟩ :
        R.rest s.shared ∧ R.waits t c p s.shared ∧ R.Resumes t p := by
      have hknows := h.knows t
      rwa [hph] at hknows
    refine h.drop (by rw [hph]; rfl) rfl hrest hresumes (fun u c' q ho => ?_) fun c' q hs => ?_
    · rw [hph] at ho
      exact ho.elim
    · obtain hs | hs := hs <;> cases hs
      exact hwaits
  | @fall t i c p hph =>
    have hknows := h.knows t
    rw [hph] at hknows
    refine h.idle (by rw [hph]; rfl) rfl hknows id (fun _ => id) (fun _ _ _ => id) fun c' q hs => ?_
    obtain hs | hs := hs <;> cases hs
    exact .inl hph
  | @reacquire t i p hph hl =>
    have hknows := h.knows t
    rw [hph] at hknows
    exact h.take hl hknows
  | rouse hph => exact h.rouse hph

/-- **Run lemma**: `C` may be anything that the steps keep. -/
theorem exec_inv (hR : Sound P R C G) (hall : ∀ u, u ∈ all)
    (hC : ∀ s e s', C s → Inv R s → step P all s e = some s' → C s') {es : List (Event τ ι)}
    (hs : C s) (h : Inv R s) (hes : Guarded (step P all) (Admits G) s es)
    (hrun : exec (step P all) s es = some s') : C s' ∧ Inv R s' := by
  refine exec_invariant_of_guarded (I := fun s => C s ∧ Inv R s) (fun s e t hs he ht => ?_)
    ⟨hs, h⟩ hes hrun
  exact ⟨hC s e t hs.1 hs.2 ht, hR.step_inv hall hs.1 he hs.2 ht⟩

/-- **Run lemma** for a program that is sound for all inputs. -/
theorem exec_inv_of_forall (hR : Sound P R C (fun _ _ _ _ => True)) (hall : ∀ u, u ∈ all)
    (hC : ∀ s e s', C s → step P all s e = some s' → C s') {es : List (Event τ ι)} (hs : C s)
    (h : Inv R s) (hrun : exec (step P all) s es = some s') : Inv R s' := by
  have hes : Guarded (step P all) (Admits fun _ _ _ _ => True) s es :=
    guarded_of_forall (fun _ _ _ _ _ _ _ => trivial) s es
  exact (hR.exec_inv hall (fun s e s' hs _ hstep => hC s e s' hs hstep) hs h hes hrun).2

end Sound

theorem Inv.start {s : State τ σ π χ} (hl : s.lock = none) (hrest : R.rest s.shared)
    (hfree : ∀ t, ∃ p, s.thread t = .free p) : Inv R s where
  lock t := by
    obtain ⟨p, hp⟩ := hfree t
    simp [hl, hp, Phase.holds]
  rest _ := hrest
  knows t := by
    obtain ⟨p, hp⟩ := hfree t
    rw [hp]
    trivial
  alert u c q hs := by
    obtain ⟨p, hp⟩ := hfree u
    rw [hp] at hs
    obtain hs | hs := hs <;> cases hs
  clear u c q hs := by
    obtain ⟨p, hp⟩ := hfree u
    rw [hp] at hs
    obtain hs | hs := hs <;> cases hs

end MiniOs.Monitor
