import MiniOs.Lib.Monitor
import MiniOs.Lib.RingBuf
import Mathlib.Algebra.Order.Ring.Int

/-!
# Pipes

`pipe.c`: a ring of 512 bytes behind a spinlock, with two `uint` counters that run freely.
Readers sleep on `&pi->nread` while the pipe is empty, writers on `&pi->nwrite` while it is full.
Any number of threads call `piperead`, `pipewrite` and `pipeclose` on both ends at once.

`copyin` and `copyout` succeed for a first part of the caller's buffer and fail behind it, so a
call comes with the bytes that can be copied in, or with the number that can be copied out.
Whether a caller has been killed is an input of the tests that ask.

`pipewrite` gives up without a wakeup when it finds itself killed, even if it has just put bytes
into an empty pipe. A reader then sleeps on a pipe with data in it. The point of a writer says
whether it has put in bytes since it last woke the readers.
-/

namespace MiniOs.Xv6.Pipes

open Trace

def pipeSize : ℕ := 512

/-- The number of values of a `uint`. -/
def uintSize : ℕ := 4294967296

/-- `struct pipe`, without the lock; the counters of the ring are `nread` and `nwrite`. -/
structure Pipe where
  buf : RingBuf UInt8
  readopen : Bool
  writeopen : Bool

/-- `pipealloc`, with whatever the page contained. -/
def pipealloc (data : ℕ → UInt8) : Pipe := ⟨⟨data, 0, 0⟩, true, true⟩

/-- The channels `&pi->nread` and `&pi->nwrite`. -/
inductive Chan where
  | nread
  | nwrite
  deriving DecidableEq, Repr

/-- A call: `piperead` of `n` bytes of which `room` can be copied out, `pipewrite` of `n`
    bytes of which `src` can be copied in, and `pipeclose`. -/
inductive Call where
  | read (n : ℤ) (room : ℕ)
  | write (n : ℤ) (src : List UInt8)
  | close (writable : Bool)
  deriving DecidableEq, Repr

/-- A thread is told what to call, or whether it has been killed. -/
inductive Input where
  | call (c : Call)
  | killed (k : Bool)
  deriving DecidableEq, Repr

inductive Point where
  | idle
  | readTest (n : ℤ) (room : ℕ)
  | readCopy (n : ℤ) (room i : ℕ)
  | writeTest (n : ℤ) (src : List UInt8) (i : ℕ) (stored : Bool)
  | writeFull (n : ℤ) (src : List UInt8) (i : ℕ)
  | closeSet (writable : Bool)
  /-- Before the last wakeup of the call. -/
  | wakes (ch : Chan) (c : Call) (r : ℤ)
  /-- Before the lock is released. -/
  | leaves (c : Call) (r : ℤ)
  | returned (c : Call) (r : ℤ)
  deriving DecidableEq, Repr

def Call.entry : Call → Point
  | .read n room => .readTest n room
  | .write n src => .writeTest n src 0 false
  | .close writable => .closeSet writable

namespace Pipe

variable (d : Pipe)

def empty : Prop := d.buf.r = d.buf.w

def full : Prop := d.buf.w = (d.buf.r + pipeSize) % uintSize

instance : Decidable d.empty := inferInstanceAs (Decidable (_ = _))
instance : Decidable d.full := inferInstanceAs (Decidable (_ = _))

/-- `pi->data[pi->nwrite++ % PIPESIZE] = ch`. -/
def put (ch : UInt8) : Pipe := { d with buf := d.buf.push pipeSize uintSize ch }

/-- `pi->nread++`. -/
def skip : Pipe := { d with buf := d.buf.pop uintSize }

def shut (writable : Bool) : Pipe :=
  if writable then { d with writeopen := false } else { d with readopen := false }

end Pipe

variable {τ : Type*}

/-- The steps under the lock. -/
def locked (i : Input) (d : Pipe) : Point → Option (Monitor.Act Pipe Point Chan)
  | .readTest n room =>
    match i with
    | .killed k =>
      if d.empty ∧ d.writeopen then
        if k then some (.release (.returned (.read n room) (-1)))
        else some (.sleep .nread (.readTest n room))
      else some (.write d (.readCopy n room 0))
    | .call _ => none
  | .readCopy n room j =>
    if (j : ℤ) < n then
      if d.empty then some (.write d (.wakes .nwrite (.read n room) j))
      else if j < room then some (.write d.skip (.readCopy n room (j + 1)))
      else some (.write d (.wakes .nwrite (.read n room) (if j = 0 then -1 else j)))
    else some (.write d (.wakes .nwrite (.read n room) j))
  | .writeTest n src j _ =>
    match i with
    | .killed k =>
      if (j : ℤ) < n then
        if d.readopen = false ∨ k then some (.release (.returned (.write n src) (-1)))
        else if d.full then some (.wakeup .nread (.writeFull n src j))
        else
          match src[j]? with
          | none => some (.write d (.wakes .nread (.write n src) j))
          | some ch => some (.write (d.put ch) (.writeTest n src (j + 1) true))
      else some (.write d (.wakes .nread (.write n src) j))
    | .call _ => none
  | .writeFull n src j => some (.sleep .nwrite (.writeTest n src j false))
  | .closeSet writable =>
    some (.write (d.shut writable)
      (.wakes (if writable then .nread else .nwrite) (.close writable) 0))
  | .wakes ch c r => some (.wakeup ch (.leaves c r))
  | .leaves c r => some (.release (.returned c r))
  | .idle | .returned _ _ => none

def program : Monitor.Program τ Input Pipe Point Chan where
  acquires
    | .readTest _ _ | .writeTest _ _ _ _ | .closeSet _ => true
    | _ => false
  free _ i d
    | .idle =>
      match i with
      | .call c => some (d, c.entry)
      | .killed _ => none
    | .returned _ _ => some (d, .idle)
    | _ => none
  locked _ i d p := locked i d p

def start (data : ℕ → UInt8) : Monitor.State τ Pipe Point Chan :=
  ⟨pipealloc data, none, fun _ => .free .idle⟩

/-! ### What the steps do -/

/-- A step under the lock, with what it needs. -/
inductive Acts (i : Input) (d : Pipe) : Point → Monitor.Act Pipe Point Chan → Prop where
  | readKilled {n : ℤ} {room : ℕ} (hi : i = .killed true) :
      Acts i d (.readTest n room) (.release (.returned (.read n room) (-1)))
  | readSleep {n : ℤ} {room : ℕ} (hempty : d.empty) (hopen : d.writeopen = true) :
      Acts i d (.readTest n room) (.sleep .nread (.readTest n room))
  | readStart {n : ℤ} {room : ℕ} (hd : d.empty → d.writeopen = false) :
      Acts i d (.readTest n room) (.write d (.readCopy n room 0))
  | readByte {n : ℤ} {room j : ℕ} (hn : (j : ℤ) < n) (hne : ¬ d.empty) (hroom : j < room) :
      Acts i d (.readCopy n room j) (.write d.skip (.readCopy n room (j + 1)))
  | readFault {n : ℤ} {room j : ℕ} (hn : (j : ℤ) < n) (hroom : room ≤ j) :
      Acts i d (.readCopy n room j)
        (.write d (.wakes .nwrite (.read n room) (if j = 0 then -1 else j)))
  | readEnd {n : ℤ} {room j : ℕ} (hend : (j : ℤ) < n → d.empty) :
      Acts i d (.readCopy n room j) (.write d (.wakes .nwrite (.read n room) j))
  | writeAbort {n : ℤ} {src : List UInt8} {j : ℕ} {stored : Bool} (hn : (j : ℤ) < n)
      (hi : d.readopen = false ∨ i = .killed true) :
      Acts i d (.writeTest n src j stored) (.release (.returned (.write n src) (-1)))
  | writeWake {n : ℤ} {src : List UInt8} {j : ℕ} {stored : Bool} (hfull : d.full)
      (hopen : d.readopen = true) :
      Acts i d (.writeTest n src j stored) (.wakeup .nread (.writeFull n src j))
  | writeByte {n : ℤ} {src : List UInt8} {j : ℕ} {stored : Bool} {ch : UInt8} (hn : (j : ℤ) < n)
      (hroom : ¬ d.full) (hch : src[j]? = some ch) :
      Acts i d (.writeTest n src j stored) (.write (d.put ch) (.writeTest n src (j + 1) true))
  | writeEnd {n : ℤ} {src : List UInt8} {j : ℕ} {stored : Bool}
      (hend : (j : ℤ) < n → src.length ≤ j) :
      Acts i d (.writeTest n src j stored) (.write d (.wakes .nread (.write n src) j))
  | writeSleep {n : ℤ} {src : List UInt8} {j : ℕ} :
      Acts i d (.writeFull n src j) (.sleep .nwrite (.writeTest n src j false))
  | close {writable : Bool} : Acts i d (.closeSet writable) (.write (d.shut writable)
      (.wakes (if writable then .nread else .nwrite) (.close writable) 0))
  | wake {ch : Chan} {c : Call} {r : ℤ} : Acts i d (.wakes ch c r) (.wakeup ch (.leaves c r))
  | leave {c : Call} {r : ℤ} : Acts i d (.leaves c r) (.release (.returned c r))

/-- **Inversion** of a step under the lock. -/
theorem locked_acts {i : Input} {d : Pipe} {p : Point} {a : Monitor.Act Pipe Point Chan}
    (h : locked i d p = some a) : Acts i d p a := by
  cases p with
  | readTest n room =>
    cases i with
    | call c => cases h
    | killed k =>
      simp only [locked] at h
      split_ifs at h with hempty hk <;> cases h
      · exact .readKilled (by rw [hk])
      · exact .readSleep hempty.1 hempty.2
      · exact .readStart fun he => Bool.eq_false_iff.mpr fun hw => hempty ⟨he, hw⟩
  | readCopy n room j =>
    simp only [locked] at h
    by_cases hn : (j : ℤ) < n
    · rw [if_pos hn] at h
      by_cases hempty : d.empty
      · rw [if_pos hempty] at h
        cases h
        exact .readEnd fun _ => hempty
      · rw [if_neg hempty] at h
        by_cases hroom : j < room
        · rw [if_pos hroom] at h
          cases h
          exact .readByte hn hempty hroom
        · rw [if_neg hroom] at h
          cases h
          exact .readFault hn (Nat.not_lt.mp hroom)
    · rw [if_neg hn] at h
      cases h
      exact .readEnd fun hlt => absurd hlt hn
  | writeTest n src j stored =>
    cases i with
    | call c => cases h
    | killed k =>
      simp only [locked] at h
      by_cases hn : (j : ℤ) < n
      · rw [if_pos hn] at h
        by_cases habort : d.readopen = false ∨ k = true
        · rw [if_pos habort] at h
          cases h
          exact .writeAbort hn (habort.imp_right fun hk => by rw [hk])
        · rw [if_neg habort] at h
          have hopen : d.readopen = true := Bool.not_eq_false _ ▸ fun hr => habort (.inl hr)
          by_cases hfull : d.full
          · rw [if_pos hfull] at h
            cases h
            exact .writeWake hfull hopen
          · rw [if_neg hfull] at h
            cases hch : src[j]? with
            | none =>
              rw [hch] at h
              cases h
              exact .writeEnd fun _ => List.getElem?_eq_none_iff.mp hch
            | some ch =>
              rw [hch] at h
              cases h
              exact .writeByte hn hfull hch
      · rw [if_neg hn] at h
        cases h
        exact .writeEnd fun hlt => absurd hlt hn
  | writeFull n src j =>
    cases h
    exact .writeSleep
  | closeSet writable =>
    cases h
    exact .close
  | wakes ch c r =>
    cases h
    exact .wake
  | leaves c r =>
    cases h
    exact .leave
  | idle => cases h
  | returned c r => cases h

theorem free_data {t : τ} {i : Input} {d d' : Pipe} {p q : Point}
    (h : (program : Monitor.Program τ Input Pipe Point Chan).free t i d p = some (d', q)) :
    d' = d ∧ (p = .idle ∧ (∃ c, i = .call c ∧ q = c.entry) ∨ p ≠ .idle ∧ q = .idle) := by
  cases p with
  | idle =>
    cases i with
    | call c =>
      cases h
      exact ⟨rfl, .inl ⟨rfl, c, rfl, rfl⟩⟩
    | killed k => cases h
  | returned c r =>
    cases h
    exact ⟨rfl, .inr ⟨nofun, rfl⟩⟩
  | _ => cases h

/-- The counters stand for a queue of at most 512 bytes. -/
def Pipe.Ok (d : Pipe) : Prop := d.buf.Ok pipeSize uintSize

/-- The bytes in the pipe, oldest first. -/
def Pipe.contents (d : Pipe) : List UInt8 := d.buf.contents pipeSize uintSize

theorem pipeSize_dvd : pipeSize ∣ uintSize := by decide

theorem pipeSize_lt : pipeSize < uintSize := by decide

namespace Pipe

variable {d : Pipe} {ch : UInt8}

theorem Ok.empty_iff (h : d.Ok) : d.empty ↔ d.contents = [] := RingBuf.eq_iff_contents_nil h

theorem Ok.full_iff (h : d.Ok) : d.full ↔ d.contents.length = pipeSize :=
  RingBuf.full_iff h pipeSize_lt

theorem Ok.not_full (h : d.Ok) (hempty : d.empty) : ¬ d.full := by
  rw [h.full_iff, h.empty_iff.mp hempty]
  decide

theorem Ok.count_lt (h : d.Ok) (hroom : ¬ d.full) : d.buf.count uintSize < pipeSize := by
  rw [h.full_iff, Pipe.contents, RingBuf.length_contents] at hroom
  exact Nat.lt_of_le_of_ne h.count_le hroom

theorem Ok.put (h : d.Ok) (hroom : ¬ d.full) : (d.put ch).Ok :=
  RingBuf.Ok.push pipeSize_lt h (h.count_lt hroom)

theorem Ok.contents_put (h : d.Ok) (hroom : ¬ d.full) :
    (d.put ch).contents = d.contents ++ [ch] :=
  RingBuf.contents_push pipeSize_dvd pipeSize_lt h (h.count_lt hroom)

theorem Ok.skip (h : d.Ok) (hne : ¬ d.empty) : d.skip.Ok := RingBuf.Ok.pop pipeSize_lt h hne

theorem Ok.contents_skip (h : d.Ok) (hne : ¬ d.empty) :
    d.contents = d.buf.data (d.buf.r % pipeSize) :: d.skip.contents :=
  RingBuf.contents_pop pipeSize_dvd pipeSize_lt h hne

@[simp]
theorem shut_buf (writable : Bool) : (d.shut writable).buf = d.buf := by
  cases writable <;> rfl

theorem Ok.shut (h : d.Ok) (writable : Bool) : (d.shut writable).Ok := by
  rw [Pipe.Ok, shut_buf]
  exact h

end Pipe

theorem pipealloc_ok (data : ℕ → UInt8) : (pipealloc data).Ok where
  r_lt := show 0 < uintSize by decide
  w_lt := show 0 < uintSize by decide
  count_le := show (0 + (uintSize - 0)) % uintSize ≤ pipeSize by decide

theorem contents_pipealloc (data : ℕ → UInt8) : (pipealloc data).contents = [] :=
  (pipealloc_ok data).empty_iff.mp rfl

/-! ### Sleepers -/

/-- Readers sleep on an empty pipe with writers, and writers on a full one with readers. A
    sleeping reader is of no concern once the read end is closed. -/
def spec : Monitor.Spec τ Pipe Point Chan where
  rest d := d.Ok
  held _ d
    | .writeFull _ _ _ => d.Ok ∧ d.full ∧ d.readopen = true
    | _ => d.Ok
  waits _ ch _ d :=
    match ch with
    | .nread => d.empty ∧ d.writeopen = true ∨ d.readopen = false
    | .nwrite => d.full ∧ d.readopen = true
  owes p ch :=
    match p with
    | .readCopy _ _ _ => ch = .nwrite
    | .writeTest _ _ _ stored => stored = true ∧ ch = .nread
    | .wakes ch' _ _ => ch = ch'
    | _ => False
  woke _ _ := False

/-- A writer that has put in bytes and not woken the readers yet is not found to be killed. -/
def Spared (_ : τ) (i : Input) (_ : Pipe) (p : Point) : Prop :=
  ∀ n src j, p = .writeTest n src j true → (j : ℤ) < n → i ≠ .killed true

theorem held_ok {t : τ} {d : Pipe} {p : Point} (h : spec.held t d p) : d.Ok := by
  cases p <;> first | exact h.1 | exact h

theorem resumes_readTest {t : τ} {n : ℤ} {room : ℕ} :
    spec.Resumes t (.readTest n room) := fun _ hd => ⟨hd, fun _ => id⟩

theorem resumes_writeTest {t : τ} {n : ℤ} {src : List UInt8} {j : ℕ} {stored : Bool} :
    spec.Resumes t (.writeTest n src j stored) := fun _ hd => ⟨hd, fun _ => id⟩

theorem sound : Monitor.Sound (program : Monitor.Program τ Input Pipe Point Chan) spec
    (fun _ => True) Spared where
  acquire t p hp d hd := by
    cases p with
    | readTest n room => exact resumes_readTest d hd
    | writeTest n src j stored => exact resumes_writeTest d hd
    | closeSet writable => exact ⟨hd, fun _ => id⟩
    | _ => cases hp
  free s t i p d q _ _ hf := by
    obtain ⟨rfl, -⟩ := free_data hf
    exact ⟨id, fun _ _ => id, fun _ _ _ => id⟩
  write s t i p d q _ _ _ hheld ha := by
    have hok := held_ok hheld
    cases locked_acts ha with
    | readStart hd => exact ⟨hok, fun _ h => h.elim, fun _ => id, fun _ _ _ _ h => .inl h⟩
    | readByte hn hne hroom =>
      refine ⟨hok.skip hne, fun _ => id, fun _ => id, fun u ch q' _ hwaits => ?_⟩
      cases ch with
      | nread => exact .inl (.inr (hwaits.resolve_left fun hr => hne hr.1))
      | nwrite => exact .inr (.inl rfl)
    | readFault hn hroom => exact ⟨hok, fun _ => id, fun _ => id, fun _ _ _ _ h => .inl h⟩
    | readEnd hend => exact ⟨hok, fun _ => id, fun _ => id, fun _ _ _ _ h => .inl h⟩
    | writeByte hn hroom hch =>
      refine ⟨hok.put hroom, fun _ h => ⟨rfl, h.2⟩, fun _ => id, fun u ch q' _ hwaits => ?_⟩
      cases ch with
      | nread => exact .inr (.inl ⟨rfl, rfl⟩)
      | nwrite => exact absurd hwaits.1 hroom
    | writeEnd hend => exact ⟨hok, fun _ h => h.2, fun _ => id, fun _ _ _ _ h => .inl h⟩
    | @close writable =>
      refine ⟨hok.shut writable, fun _ h => h.elim, fun _ => id, fun u ch q' _ hwaits => ?_⟩
      cases writable <;> cases ch
      · exact .inl (.inr rfl)
      · exact .inr (.inl rfl)
      · exact .inr (.inl rfl)
      · exact .inl hwaits
  wakeup s t i p c q _ _ _ hheld ha := by
    have hok := held_ok hheld
    cases locked_acts ha with
    | writeWake hfull hopen =>
      exact ⟨⟨hok, hfull, hopen⟩, fun _ h => .inl h.2, fun _ h => h.elim⟩
    | wake => exact ⟨hok, fun _ h => .inl h, fun _ h => h.elim⟩
  sleep s t i p c q _ _ _ hheld ha := by
    have hok := held_ok hheld
    cases locked_acts ha with
    | readSleep hempty hopen =>
      exact ⟨hok, .inl ⟨hempty, hopen⟩, resumes_readTest, fun _ _ _ h => h.elim⟩
    | writeSleep => exact ⟨hok, hheld.2, resumes_writeTest, fun _ _ _ h => h.elim⟩
  release s t i p q _ _ hG hheld ha := by
    have hok := held_ok hheld
    cases locked_acts ha with
    | readKilled hi => exact ⟨hok, fun _ _ _ h => h.elim⟩
    | @writeAbort n src j stored hn hi =>
      refine ⟨hok, ?_⟩
      rintro u ch q' ⟨rfl, rfl⟩
      -- only the closed read end is left as a reason
      exact .inr (hi.resolve_right (hG n src j rfl hn))
    | leave => exact ⟨hok, fun _ _ _ h => h.elim⟩

variable [DecidableEq τ] {all : List τ} {data : ℕ → UInt8}
  {s s' : Monitor.State τ Pipe Point Chan} {es : List (Monitor.Event τ Input)}

/-- **No wakeup is lost**, unless a writer is killed before it wakes the readers. While the
    lock is free, a reader sleeps only if the pipe is empty and the write end open (or no read
    end is left), and a writer only if it is full and the read end open. So readers and writers
    never sleep at the same time. -/
theorem pipe_no_lost_wakeup (hall : ∀ t, t ∈ all)
    (hes : Guarded (Monitor.step program all) (Monitor.Admits Spared) (start data) es)
    (h : exec (Monitor.step program all) (start data) es = some s) (hl : s.lock = none) :
    (∀ t p, (s.thread t).SleepsOn .nread p →
      s.shared.contents = [] ∧ s.shared.writeopen = true ∨ s.shared.readopen = false) ∧
    (∀ t p, (s.thread t).SleepsOn .nwrite p →
      s.shared.contents.length = pipeSize ∧ s.shared.readopen = true) ∧
    ¬ ∃ t u p q, (s.thread t).SleepsOn .nread p ∧ (s.thread u).SleepsOn .nwrite q := by
  have hstart : Monitor.Inv spec (start data : Monitor.State τ Pipe Point Chan) :=
    .start rfl (pipealloc_ok data) fun _ => ⟨_, rfl⟩
  have hinv : Monitor.Inv spec s :=
    (sound.exec_inv hall (fun _ _ _ _ _ _ => trivial) trivial hstart hes h).2
  have hok : s.shared.Ok := hinv.rest hl
  have hread : ∀ t p, (s.thread t).SleepsOn .nread p →
      s.shared.empty ∧ s.shared.writeopen = true ∨ s.shared.readopen = false :=
    fun t p hs => hinv.waits_of_unlocked hl hs
  have hwrite : ∀ t p, (s.thread t).SleepsOn .nwrite p →
      s.shared.full ∧ s.shared.readopen = true :=
    fun t p hs => hinv.waits_of_unlocked hl hs
  refine ⟨fun t p hs => ?_, fun t p hs => ?_, ?_⟩
  · rw [← hok.empty_iff]
    exact hread t p hs
  · rw [← hok.full_iff]
    exact hwrite t p hs
  · rintro ⟨t, u, p, q, ht, hu⟩
    obtain ⟨hfull, hopen⟩ := hwrite u q hu
    obtain hr | hr := hread t p ht
    · exact hok.not_full hr.1 hfull
    · rw [hopen] at hr
      cases hr

/-! ### The stream -/

/-- The bytes that were put into the pipe and taken out of it, and for each thread those that
    it moved in its latest call. -/
structure Flow (τ : Type*) where
  sent : List UInt8
  got : List UInt8
  mine : τ → List UInt8

/-- A byte is put in when `nwrite` moves on, and taken out when `nread` does. -/
def Flow.pass (g : Flow τ) (t : τ) (d d' : Pipe) : Flow τ :=
  if d'.buf.w ≠ d.buf.w then
    let ch := d'.buf.data (d.buf.w % pipeSize)
    { g with sent := g.sent ++ [ch], mine := Function.update g.mine t (g.mine t ++ [ch]) }
  else if d'.buf.r ≠ d.buf.r then
    let ch := d.buf.data (d.buf.r % pipeSize)
    { g with got := g.got ++ [ch], mine := Function.update g.mine t (g.mine t ++ [ch]) }
  else g

def look (all : List τ) (s : Monitor.State τ Pipe Point Chan) (e : Monitor.Event τ Input)
    (g : Flow τ) : Flow τ :=
  match e, Monitor.step program all s e with
  | .run t _, some s' =>
    if s.thread t = .free .idle then { g with mine := Function.update g.mine t [] }
    else g.pass t s.shared s'.shared
  | _, _ => g

/-- What a call may return when it has moved the bytes `m`; `wopen` says whether the write
    end is open now. -/
def Result (wopen : Bool) (m : List UInt8) (r : ℤ) : Call → Prop
  | .read n room =>
    r = -1 ∧ m = [] ∨
      r = m.length ∧ r ≤ max n 0 ∧ m.length ≤ room ∧ (r = 0 → 0 < n → wopen = false)
  | .write n src =>
    r = -1 ∧ m <+: src ∨ r = max 0 (min n src.length) ∧ m = src.take r.toNat
  | .close _ => r = 0

/-- What a thread has moved when it is at a point. -/
def Progress (wopen : Bool) (m : List UInt8) : Point → Prop
  | .idle | .closeSet _ => True
  | .readTest _ _ => m = []
  | .readCopy n room j => m.length = j ∧ j ≤ room ∧ (j : ℤ) ≤ max n 0
  | .writeTest n src j _ | .writeFull n src j =>
    m = src.take j ∧ j ≤ src.length ∧ (j : ℤ) ≤ max n 0
  | .wakes _ c r | .leaves c r | .returned c r => Result wopen m r c

theorem Result.mono {wopen wopen' : Bool} {m : List UInt8} {r : ℤ} {c : Call}
    (h : Result wopen m r c) (hw : wopen = false → wopen' = false) : Result wopen' m r c := by
  cases c with
  | read n room =>
    exact h.imp_right fun ⟨hr, hn, hroom, hzero⟩ => ⟨hr, hn, hroom, fun h0 hn => hw (hzero h0 hn)⟩
  | write n src => exact h
  | close writable => exact h

theorem Progress.mono {wopen wopen' : Bool} {m : List UInt8} {p : Point}
    (h : Progress wopen m p) (hw : wopen = false → wopen' = false) : Progress wopen' m p := by
  cases p with
  | wakes ch c r | leaves c r | returned c r => exact Result.mono h hw
  | _ => exact h

/-- What came out and what is still in the pipe is what went in, and every thread is where
    it should be. -/
structure Streams (s : Monitor.State τ Pipe Point Chan) (g : Flow τ) : Prop where
  ok : s.shared.Ok
  stream : g.got ++ s.shared.contents = g.sent
  calls : ∀ t, Progress s.shared.writeopen (g.mine t) (s.thread t).point

/-- A thread that starts to copy finds bytes, or the write end closed. -/
def readSpec : Monitor.Spec τ Pipe Point Chan where
  rest _ := True
  held _ d
    | .readCopy _ _ j => j = 0 → d.empty → d.writeopen = false
    | _ => True
  waits _ _ _ _ := True
  owes _ _ := False
  woke _ _ := False

omit [DecidableEq τ] in
theorem readSound : Monitor.Sound (program : Monitor.Program τ Input Pipe Point Chan) readSpec
    (fun _ => True) (fun _ _ _ _ => True) where
  acquire t p hp d _ := by
    cases p with
    | readTest n room | writeTest n src j stored | closeSet writable => exact ⟨trivial, fun _ => id⟩
    | _ => cases hp
  free s t i p d q _ _ hf := by
    obtain ⟨rfl, -⟩ := free_data hf
    exact ⟨id, fun _ _ => id, fun _ _ _ => id⟩
  write s t i p d q _ _ _ hheld ha := by
    refine ⟨?_, fun _ => id, fun _ => id, fun _ _ _ _ _ => .inl trivial⟩
    cases locked_acts ha with
    | readStart hd => exact fun _ => hd
    | readByte hn hne hroom => exact nofun
    | _ => trivial
  wakeup s t i p c q _ _ _ hheld ha := by
    refine ⟨?_, fun _ h => h.elim, fun _ h => h.elim⟩
    cases locked_acts ha <;> trivial
  sleep s t i p c q _ _ _ hheld ha := by
    refine ⟨trivial, trivial, fun d' _ => ⟨?_, fun _ => id⟩, fun _ _ _ h => h.elim⟩
    cases locked_acts ha <;> trivial
  release s t i p q _ _ _ hheld ha := ⟨trivial, fun _ _ _ h => h.elim⟩

theorem Flow.pass_same (g : Flow τ) (t : τ) {d d' : Pipe} (hbuf : d'.buf = d.buf) :
    g.pass t d d' = g := by
  simp [Flow.pass, hbuf]

theorem Flow.pass_put (g : Flow τ) (t : τ) {d : Pipe} (h : d.Ok) (ch : UInt8) :
    g.pass t d (d.put ch) = { g with
      sent := g.sent ++ [ch], mine := Function.update g.mine t (g.mine t ++ [ch]) } := by
  have hw : (d.put ch).buf.w ≠ d.buf.w := by
    have hlt : d.buf.w < uintSize := h.w_lt
    change (d.buf.w + 1) % uintSize ≠ d.buf.w
    unfold uintSize at hlt ⊢
    omega
  have hcell : (d.put ch).buf.data (d.buf.w % pipeSize) = ch := Function.update_self ..
  rw [Flow.pass, if_pos hw, hcell]

theorem Flow.pass_skip (g : Flow τ) (t : τ) {d : Pipe} (h : d.Ok) :
    g.pass t d d.skip = { g with
      got := g.got ++ [d.buf.data (d.buf.r % pipeSize)]
      mine := Function.update g.mine t (g.mine t ++ [d.buf.data (d.buf.r % pipeSize)]) } := by
  have hr : d.skip.buf.r ≠ d.buf.r := by
    have hlt : d.buf.r < uintSize := h.r_lt
    change (d.buf.r + 1) % uintSize ≠ d.buf.r
    unfold uintSize at hlt ⊢
    omega
  have hw : ¬ d.skip.buf.w ≠ d.buf.w := fun hne => hne rfl
  rw [Flow.pass, if_neg hw, if_pos hr]

/-- A thread `t` goes on and has moved the bytes `m` in its call; no other thread moves. -/
theorem Streams.go {g g' : Flow τ} {t : τ} (h : Streams s g) (hok : s'.shared.Ok)
    (hstream : g'.got ++ s'.shared.contents = g'.sent)
    (hw : s.shared.writeopen = false → s'.shared.writeopen = false)
    (hmine : ∀ v, v ≠ t → g'.mine v = g.mine v)
    (hother : ∀ v, v ≠ t → s'.thread v = s.thread v)
    (hcall : Progress s'.shared.writeopen (g'.mine t) (s'.thread t).point) : Streams s' g' where
  ok := hok
  stream := hstream
  calls v := by
    by_cases hv : v = t
    · subst hv
      exact hcall
    · rw [hmine v hv, hother v hv]
      exact (h.calls v).mono hw

theorem look_run {t : τ} {i : Input} {g : Flow τ}
    (hstep : Monitor.step program all s (.run t i) = some s') :
    look all s (.run t i) g =
      if s.thread t = .free .idle then { g with mine := Function.update g.mine t [] }
      else g.pass t s.shared s'.shared := by
  simp only [look, hstep]

theorem step_streams_locked {t : τ} {i : Input} {p : Point} {g : Flow τ}
    {a : Monitor.Act Pipe Point Chan} (hheld : readSpec.held t s.shared p) (h : Streams s g)
    (hp : (s.thread t).point = p) (ha : Acts i s.shared p a) (hd : s'.shared = a.data s.shared)
    (hq : (s'.thread t).point = a.point) (hother : ∀ v, v ≠ t → s'.thread v = s.thread v) :
    Streams s' (g.pass t s.shared s'.shared) := by
  have hcall := h.calls t
  rw [hp] at hcall
  -- a step that leaves the ring alone
  have hsame : (a.data s.shared).buf = s.shared.buf →
      (s.shared.writeopen = false → (a.data s.shared).writeopen = false) →
      Progress (a.data s.shared).writeopen (g.mine t) a.point →
      Streams s' (g.pass t s.shared s'.shared) := by
    intro hbuf hw hprogress
    rw [← hd] at hbuf hw hprogress
    have hok : s'.shared.Ok := by
      rw [Pipe.Ok, hbuf]
      exact h.ok
    have hstream : g.got ++ s'.shared.contents = g.sent := by
      rw [Pipe.contents, hbuf]
      exact h.stream
    rw [g.pass_same t hbuf]
    exact h.go hok hstream hw (fun _ _ => rfl) hother (hq ▸ hprogress)
  cases ha with
  | readKilled hi => exact hsame rfl id (.inl ⟨rfl, hcall⟩)
  | readSleep hempty hopen => exact hsame rfl id hcall
  | @readStart n room hd =>
    refine hsame rfl id ⟨?_, Nat.zero_le room, le_max_right n 0⟩
    rw [show g.mine t = [] from hcall, List.length_nil]
  | @readByte n room j hn hne hroom =>
    obtain ⟨hlen, -, -⟩ := hcall
    have hstream := h.stream
    rw [h.ok.contents_skip hne] at hstream
    have hd' : s'.shared = s.shared.skip := hd
    rw [hd', g.pass_skip t h.ok]
    refine h.go (hd' ▸ h.ok.skip hne) ?_ (fun hw => hd' ▸ hw) ?_ hother ?_
    · simpa [hd'] using hstream
    · intro v hv
      exact Function.update_of_ne hv _ _
    · rw [hq]
      refine ⟨?_, hroom, le_max_of_le_left (by push_cast; omega)⟩
      simp [hlen]
  | @readFault n room j hn hroom =>
    obtain ⟨hlen, hle, hmax⟩ := hcall
    refine hsame rfl id ?_
    by_cases hj : j = 0
    · simp only [Monitor.Act.point, if_pos hj]
      exact .inl ⟨rfl, List.length_eq_zero_iff.mp (hlen.trans hj)⟩
    · simp only [Monitor.Act.point, if_neg hj]
      refine .inr ⟨by rw [hlen], hmax, hlen.trans_le hle, fun hzero => ?_⟩
      exact absurd (Int.natCast_eq_zero.mp hzero) hj
  | @readEnd n room j hend =>
    obtain ⟨hlen, hle, hmax⟩ := hcall
    refine hsame rfl id (.inr ⟨by rw [hlen], hmax, hlen.trans_le hle, fun hzero hn => ?_⟩)
    have hj : j = 0 := Int.natCast_eq_zero.mp hzero
    exact hheld hj (hend (by omega))
  | @writeAbort n src j stored hn hi =>
    obtain ⟨hm, -, -⟩ := hcall
    refine hsame rfl id (.inl ⟨rfl, ?_⟩)
    rw [hm]
    exact List.take_prefix j src
  | writeWake hfull hopen => exact hsame rfl id hcall
  | @writeByte n src j stored ch hn hroom hch =>
    obtain ⟨hm, -, -⟩ := hcall
    have hd' : s'.shared = s.shared.put ch := hd
    rw [hd', g.pass_put t h.ok]
    refine h.go (hd' ▸ h.ok.put hroom) ?_ (fun hw => hd' ▸ hw) ?_ hother ?_
    · rw [hd', h.ok.contents_put hroom, ← List.append_assoc, h.stream]
    · intro v hv
      exact Function.update_of_ne hv _ _
    · rw [hq]
      obtain ⟨hlt, hget⟩ := List.getElem?_eq_some_iff.mp hch
      refine ⟨?_, hlt, le_max_of_le_left (by push_cast; omega)⟩
      change Function.update g.mine t (g.mine t ++ [ch]) t = src.take (j + 1)
      rw [Function.update_self, hm, List.take_add_one, hch]
      rfl
  | @writeEnd n src j stored hend =>
    obtain ⟨hm, hle, hmax⟩ := hcall
    refine hsame rfl id (.inr ⟨?_, by rw [hm, Int.toNat_natCast]⟩)
    omega
  | writeSleep => exact hsame rfl id hcall
  | @close writable =>
    refine hsame (Pipe.shut_buf writable) ?_ rfl
    intro hw
    cases writable
    · exact hw
    · rfl
  | wake => exact hsame rfl id hcall
  | leave => exact hsame rfl id hcall

/-- **Step lemma** for the stream. -/
theorem step_streams {e : Monitor.Event τ Input} {g : Flow τ} (hinv : Monitor.Inv readSpec s)
    (h : Streams s g) (hstep : Monitor.step program all s e = some s') :
    Streams s' (look all s e g) := by
  cases Monitor.step_moves hstep with
  | quiet hd hpoint =>
    have hsame : Streams s' g := by
      refine ⟨hd ▸ h.ok, hd ▸ h.stream, fun v => ?_⟩
      rw [hpoint v, hd]
      exact h.calls v
    cases e with
    | rouse t => exact hsame
    | run t i =>
      rw [look_run hstep]
      split
      · next hidle =>
        refine ⟨hsame.ok, hsame.stream, fun v => ?_⟩
        by_cases hv : v = t
        · rw [hv, hpoint t, hidle]
          trivial
        · change Progress _ (Function.update g.mine t [] v) _
          rw [Function.update_of_ne hv]
          exact hsame.calls v
      · rw [g.pass_same t (by rw [hd])]
        exact hsame
  | @free t i p q d _ hph hp hf hd hq hother =>
    rw [look_run hstep]
    obtain ⟨rfl, ⟨rfl, c, rfl, rfl⟩ | ⟨hp', rfl⟩⟩ := free_data hf
    · rw [if_pos hph]
      refine h.go (hd ▸ h.ok) (hd ▸ h.stream) (fun hw => hd ▸ hw) (fun v hv => ?_) hother ?_
      · exact Function.update_of_ne hv _ _
      · change Progress _ (Function.update g.mine t [] t) _
        rw [hq, Function.update_self]
        cases c with
        | read n room => rfl
        | write n src => exact ⟨rfl, Nat.zero_le _, le_max_right n 0⟩
        | close writable => trivial
    · have hidle : s.thread t ≠ .free .idle := by
        rw [hph]
        exact fun heq => hp' (Monitor.Phase.free.inj heq)
      rw [if_neg hidle, g.pass_same t (by rw [hd])]
      exact h.go (hd ▸ h.ok) (hd ▸ h.stream) (fun hw => hd ▸ hw) (fun _ _ => rfl) hother
        (by rw [hq]; trivial)
  | @act t i p a _ hph ha hd hq hother =>
    have hheld := hinv.knows t
    rw [hph] at hheld
    rw [look_run hstep, if_neg (by rw [hph]; exact nofun)]
    exact step_streams_locked hheld h (by rw [hph]; rfl) (locked_acts ha) hd hq hother

/-- Nothing has been moved. -/
def Flow.none : Flow τ := ⟨[], [], fun _ => []⟩

/-- **Pipes are streams**, in every interleaving: what came out, followed by what is still in
    the pipe, is what went in, and at most 512 bytes are in the pipe. A call that returns has
    moved what its result says: a write that is not refused moves all of its bytes that can be
    copied, and a read of a positive number of bytes returns 0 only if the write end is
    closed. -/
theorem pipe_stream (hall : ∀ t, t ∈ all)
    (h : exec (Monitor.step program all) (start data) es = some s) :
    let g := observe (Monitor.step program all) (look all) (start data) Flow.none es
    g.got ++ s.shared.contents = g.sent ∧ s.shared.contents.length ≤ pipeSize ∧
      ∀ t c r, s.thread t = .free (.returned c r) →
        Result s.shared.writeopen (g.mine t) r c := by
  intro g
  have hstart : Monitor.Inv readSpec (start data : Monitor.State τ Pipe Point Chan) :=
    .start rfl trivial fun _ => ⟨_, rfl⟩
  have hnone : Streams (start data : Monitor.State τ Pipe Point Chan) Flow.none := by
    refine ⟨pipealloc_ok data, ?_, fun _ => trivial⟩
    change [] ++ (pipealloc data).contents = []
    rw [contents_pipealloc, List.nil_append]
  have hinv : Monitor.Inv readSpec s ∧ Streams s g := by
    refine observe_invariant (I := fun s g => Monitor.Inv readSpec s ∧ Streams s g)
      (fun s g e t hs _ ht => ?_) ⟨hstart, hnone⟩ (guarded_of_forall (fun _ _ => trivial) _ _) h
    have hadmits : Monitor.Admits (fun _ _ _ _ => True) s e := fun _ _ _ _ _ => trivial
    exact ⟨readSound.step_inv hall trivial hadmits hs.1 ht, step_streams hs.1 hs.2 ht⟩
  refine ⟨hinv.2.stream, ?_, fun t c r ht => ?_⟩
  · rw [Pipe.contents, RingBuf.length_contents]
    exact hinv.2.ok.count_le
  · have hcall := hinv.2.calls t
    rw [ht] at hcall
    exact hcall

/-! ### Two threads -/

def reader : Bool := false

def writer : Bool := true

/-- Thread `t` makes a call, and `k` more steps without being killed. -/
def calls (t : Bool) (c : Call) (k : ℕ) : List (Monitor.Event Bool Input) :=
  .run t (.call c) :: List.replicate k (.run t (.killed false))

/-- The reader goes to sleep, the writer puts in two bytes and wakes it, and it takes them. -/
def handover : List (Monitor.Event Bool Input) :=
  calls reader (.read 10 10) 4 ++ calls writer (.write 2 [104, 105]) 9 ++
    List.replicate 10 (.run reader (.killed false))

theorem pipe_stream_handover :
    ∃ s, exec (Monitor.step program [reader, writer]) (start fun _ => 0) handover = some s ∧
      s.thread reader = .free (.returned (.read 10 10) 2) ∧
      Result s.shared.writeopen ((observe (Monitor.step program [reader, writer])
        (look [reader, writer]) (start fun _ => 0) Flow.none handover).mine reader) 2
        (.read 10 10) := by
  have hrun : (exec (Monitor.step program [reader, writer]) (start fun _ => 0)
      handover).isSome = true := by decide +kernel
  have hret : (exec (Monitor.step program [reader, writer]) (start fun _ => 0) handover).map
      (fun s => s.thread reader) = some (.free (.returned (.read 10 10) 2)) := by decide +kernel
  obtain ⟨s, hs⟩ := Option.isSome_iff_exists.mp hrun
  rw [hs] at hret
  exact ⟨s, hs, Option.some.inj hret,
    (pipe_stream (by decide) hs).2.2 reader _ _ (Option.some.inj hret)⟩

theorem pipe_no_lost_wakeup_reader :
    ∃ s, exec (Monitor.step program [reader, writer]) (start fun _ => 0)
        (calls reader (.read 10 10) 4) = some s ∧
      s.thread reader = .asleep .nread (.readTest 10 10) ∧
      (s.shared.contents = [] ∧ s.shared.writeopen = true ∨ s.shared.readopen = false) := by
  have hrun : (exec (Monitor.step program [reader, writer]) (start fun _ => 0)
      (calls reader (.read 10 10) 4)).isSome = true := by decide +kernel
  have hphase : (exec (Monitor.step program [reader, writer]) (start fun _ => 0)
      (calls reader (.read 10 10) 4)).map (fun s => (s.lock, s.thread reader)) =
        some (none, .asleep .nread (.readTest 10 10)) := by decide +kernel
  -- no writer is at work, so none is killed
  have hes : Guarded (Monitor.step program [reader, writer]) (Monitor.Admits Spared)
      (start fun _ => 0) (calls reader (.read 10 10) 4) := by
    have hno : ∀ t, Monitor.Event.run t (.killed true) ∉ calls reader (.read 10 10) 4 := by decide
    refine guarded_of_forall_mem (fun e he s t i p hi _ n src j _ _ hk => ?_) _
    rw [hi, hk] at he
    exact hno t he
  obtain ⟨s, hs⟩ := Option.isSome_iff_exists.mp hrun
  rw [hs] at hphase
  obtain ⟨hlock, hasleep⟩ := Prod.mk.inj (Option.some.inj hphase)
  exact ⟨s, hs, hasleep, (pipe_no_lost_wakeup (by decide) hes hs hlock).1 reader _ (.inr hasleep)⟩

/-- The reader goes to sleep, and the writer is killed when it has put in a byte. -/
def strand : List (Monitor.Event Bool Input) :=
  calls reader (.read 10 10) 4 ++ calls writer (.write 2 [104, 105]) 2 ++
    [.run writer (.killed true)]

/-- **A wakeup that is lost**: both ends are open, the lock is free and there is a byte to read,
    but the reader sleeps and the writer has returned. -/
theorem killed_writer_strands_reader :
    ∃ s, exec (Monitor.step program [reader, writer]) (start fun _ => 0) strand = some s ∧
      s.lock = none ∧ s.thread reader = .asleep .nread (.readTest 10 10) ∧
      s.thread writer = .free (.returned (.write 2 [104, 105]) (-1)) ∧
      s.shared.contents = [104] ∧ s.shared.readopen = true ∧ s.shared.writeopen = true := by
  have hrun : (exec (Monitor.step program [reader, writer]) (start fun _ => 0)
      strand).isSome = true := by decide +kernel
  have hstate : (exec (Monitor.step program [reader, writer]) (start fun _ => 0) strand).map
      (fun s => ((s.lock, s.thread reader, s.thread writer), s.shared.contents,
        s.shared.readopen, s.shared.writeopen)) =
      some ((none, .asleep .nread (.readTest 10 10),
        .free (.returned (.write 2 [104, 105]) (-1))), [104], true, true) := by decide +kernel
  obtain ⟨s, hs⟩ := Option.isSome_iff_exists.mp hrun
  rw [hs] at hstate
  simp only [Option.map_some, Option.some.injEq, Prod.mk.injEq] at hstate
  obtain ⟨⟨hlock, hr, hw⟩, hc, hro, hwo⟩ := hstate
  exact ⟨s, hs, hlock, hr, hw, hc, hro, hwo⟩

end MiniOs.Xv6.Pipes
