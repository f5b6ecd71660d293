import Mathlib
import MiniOs.Lib.Tally
import MiniOs.Shell.JobTable
import MiniOs.Shell.Paths

/-!
# The summary of `snoop`

`trace_loop` of `snoop.c` waits for one stop of the traced process after the other. At a
system call entry it counts the call in the row of its number and remembers number and time;
at an exit it adds the time since to the row of the number it remembers, if any. Rows are
created when their number is first seen, in an array that grows by doubling. `print_summary`
sorts the rows with `qsort` and prints them.

The stops are a list of events, each with what `clock_gettime`, `snoop_interrupted` and the
call that resumes the process answer. Signals that are passed on to the process are left out:
the table does not depend on them. Allocation and `PTRACE_GET_SYSCALL_INFO` succeed.
-/

namespace MiniOs.Shell

open Tally

structure Timespec where
  sec : ℤ
  nsec : ℤ
  deriving DecidableEq, Repr

structure SyscallStat where
  nr : ℤ
  calls : ℕ
  ns : ℤ
  order : ℕ
  deriving DecidableEq, Repr

structure StatTable where
  rows : List SyscallStat
  cap : ℕ
  fits : rows.length ≤ cap

/-- The size of the array when a row is added to `n` others. -/
def growCap (n cap : ℕ) : ℕ := if n = cap then if cap = 0 then 64 else cap * 2 else cap

theorem lt_growCap {n cap : ℕ} (h : n ≤ cap) : n < growCap n cap := by
  unfold growCap
  split_ifs <;> omega

theorem length_append_le_growCap (t : StatTable) (r : SyscallStat) :
    (t.rows ++ [r]).length ≤ growCap t.rows.length t.cap := by
  rw [List.length_append]
  exact lt_growCap t.fits

theorem length_modify_le (t : StatTable) (i : ℕ) (f : SyscallStat → SyscallStat) :
    (t.rows.modify i f).length ≤ t.cap := by
  rw [List.length_modify]
  exact t.fits

/-- `stat_row`: the table and the index of the row that it returns. -/
def statRow (t : StatTable) (nr : ℤ) : StatTable × ℕ :=
  match t.rows.findIdx? (fun r => r.nr = nr) with
  | some i => (t, i)
  | none =>
    (⟨t.rows ++ [⟨nr, 0, 0, t.rows.length⟩], growCap t.rows.length t.cap,
      length_append_le_growCap t _⟩, t.rows.length)

def StatTable.write (t : StatTable) (i : ℕ) (f : SyscallStat → SyscallStat) : StatTable :=
  ⟨t.rows.modify i f, t.cap, length_modify_le t i f⟩

/-- A change to the row that `stat_row` returns for a number. -/
def StatTable.charge (t : StatTable) (nr : ℤ) (f : SyscallStat → SyscallStat) : StatTable :=
  (statRow t nr).1.write (statRow t nr).2 f

def SyscallStat.addCall (r : SyscallStat) : SyscallStat := { r with calls := r.calls + 1 }

def SyscallStat.addTime (ns : ℤ) (r : SyscallStat) : SyscallStat := { r with ns := r.ns + ns }

def elapsedNs (start stop : Timespec) : ℤ :=
  (stop.sec - start.sec) * 1000000000 + (stop.nsec - start.nsec)

/-- What a stop is: by `info.op` for a system call stop, or one for a signal, a group stop or
    an exec event. -/
inductive StopKind where
  | entry (nr : ℤ)
  | exit
  | otherOp
  | notSyscall
  deriving DecidableEq, Repr

/-- What `waitpid` reports. A stop comes with the time, `snoop_interrupted` and whether the
    process could be resumed (or is gone, which is no failure). -/
inductive WaitEvent where
  | eintr (interrupted : Bool)
  | failed
  | terminated
  | continued
  | stop (kind : StopKind) (now : Timespec) (interrupted resumed : Bool)
  deriving DecidableEq, Repr

/-- How a trace ended. -/
inductive TraceEnd where
  | exited
  | detached
  | failed
  deriving DecidableEq, Repr

/-- The variables of `trace_loop`. -/
structure TraceState where
  table : StatTable
  pendingNr : ℤ
  entryTs : Timespec

def onStop (s : TraceState) (kind : StopKind) (now : Timespec) : TraceState :=
  match kind with
  | .entry nr =>
    { table := s.table.charge nr .addCall
      pendingNr := nr
      entryTs := now }
  | .exit =>
    if 0 ≤ s.pendingNr then
      { s with
        table := s.table.charge s.pendingNr (.addTime (elapsedNs s.entryTs now))
        pendingNr := -1 }
    else s
  | _ => s

def onEvent (s : TraceState) : WaitEvent → TraceState
  | .stop kind now _ _ => onStop s kind now
  | _ => s

/-- The return in a round of `trace_loop`, if there is one; `detachEnd` is what `detach`
    returns. -/
def returns (attached : Bool) (detachEnd : TraceEnd) : WaitEvent → Option TraceEnd
  | .eintr interrupted => if attached && interrupted then some detachEnd else none
  | .failed => some .failed
  | .terminated => some .exited
  | .continued => none
  | .stop _ _ interrupted resumed =>
    if attached && interrupted then some .detached
    else if resumed then none else some .failed

/-- The loop of `trace_loop`, while there are events. -/
def traceRounds (attached : Bool) (detachEnd : TraceEnd) :
    List WaitEvent → TraceState → TraceState × Option TraceEnd
  | [], s => (s, none)
  | ev :: evs, s =>
    match returns attached detachEnd ev with
    | some e => (onEvent s ev, some e)
    | none => traceRounds attached detachEnd evs (onEvent s ev)

/-- The table and the variables before the loop. -/
def traceStart : TraceState := ⟨⟨[], 0, Nat.le_refl 0⟩, -1, ⟨0, 0⟩⟩

/-- `trace_loop`; the process may not be there any more when it starts. -/
def traceLoop (attached started : Bool) (detachEnd : TraceEnd) (evs : List WaitEvent) :
    TraceState × Option TraceEnd :=
  if started then traceRounds attached detachEnd evs traceStart else (traceStart, some .failed)

def cmpStat (x y : SyscallStat) : ℤ :=
  if x.calls ≠ y.calls then if x.calls < y.calls then 1 else -1
  else (x.order : ℤ) - y.order

/-- What `qsort` may leave: the rows in an order that agrees with the comparison. -/
structure Sorts (rows sorted : List SyscallStat) : Prop where
  perm : sorted.Perm rows
  ordered : sorted.Pairwise (fun a b => cmpStat a b ≤ 0)

/-- A text in a column of at least `width` bytes, `%-*s`. -/
def pad (width : ℕ) (text : List Byte) : List Byte :=
  text ++ List.replicate (width - text.length) 32

def syscallName (names : List (ℤ × List Byte)) (nr : ℤ) : List Byte :=
  match names.find? (fun x => x.1 = nr) with
  | some x => x.2
  | none => snprintf 32 (ascii ("syscall_" ++ toString nr))

/-- A line of `print_summary`; `seconds` is what `%.3f` makes of the time. -/
def summaryLine (names : List (ℤ × List Byte)) (seconds : ℤ → List Byte) (r : SyscallStat) :
    List Byte :=
  pad 13 (syscallName names r.nr) ++ ascii " " ++ pad 7 (ascii (toString r.calls)) ++ ascii " " ++
    seconds r.ns ++ ascii "s\n"

/-- The first line of `print_summary`. -/
def summaryHeader : List Byte :=
  pad 13 (ascii "syscall") ++ ascii " " ++ pad 7 (ascii "calls") ++ ascii " " ++ ascii "time\n"

/-- `print_summary`, with the sorting algorithm of the library: what it has written after its
    loop over the rows. -/
def printSummary (qsort : List SyscallStat → List SyscallStat) (names : List (ℤ × List Byte))
    (seconds : ℤ → List Byte) (rows : List SyscallStat) : List Byte :=
  (qsort rows).foldl (fun out r => out ++ summaryLine names seconds r) summaryHeader

/-! ### What the stops show -/

def received (attached : Bool) : List WaitEvent → List WaitEvent
  | [] => []
  | ev :: evs =>
    if (returns attached .exited ev).isSome then [ev] else ev :: received attached evs

/-- A system call stop: an entry with its number, or an exit, and when it was. -/
inductive SyscallStop where
  | entry (nr : ℤ) (now : Timespec)
  | exit (now : Timespec)
  deriving DecidableEq, Repr

/-- The system call stop that an event is. -/
def WaitEvent.syscallStop : WaitEvent → Option SyscallStop
  | .stop (.entry nr) now _ _ => some (.entry nr now)
  | .stop .exit now _ _ => some (.exit now)
  | _ => none

def SyscallStop.nr : SyscallStop → Option ℤ
  | .entry nr _ => some nr
  | .exit _ => none

/-- The numbers of the calls that were entered, in order. -/
def entered (stops : List SyscallStop) : List ℤ := stops.filterMap SyscallStop.nr

def Timespec.ns (t : Timespec) : ℤ := t.sec * 1000000000 + t.nsec

def callTime (nr : ℤ) : SyscallStop × SyscallStop → ℤ
  | (.entry m t, .exit t') => if m = nr then t'.ns - t.ns else 0
  | _ => 0

/-- The time of the call `nr`: over the entries whose next system call stop is an exit. -/
def spent (nr : ℤ) (stops : List SyscallStop) : ℤ := ((steps stops).map (callTime nr)).sum

/-- **The table says what the stops show**, and the loop remembers the last one if it is an
    entry. -/
structure Tallied (stops : List SyscallStop) (s : TraceState) : Prop where
  mem : ∀ nr, nr ∈ s.table.rows.map SyscallStat.nr ↔ nr ∈ entered stops
  first : (s.table.rows.map SyscallStat.nr).Pairwise
    (fun a b => (entered stops).idxOf a < (entered stops).idxOf b)
  order : s.table.rows.map SyscallStat.order = List.range s.table.rows.length
  calls : ∀ r ∈ s.table.rows, r.calls = (entered stops).count r.nr
  ns : ∀ r ∈ s.table.rows, r.ns = spent r.nr stops
  pending : ∀ nr t, stops.getLast? = some (.entry nr t) → s.pendingNr = nr ∧ s.entryTs = t
  idle : (∀ nr t, stops.getLast? ≠ some (.entry nr t)) → s.pendingNr = -1

variable {stops : List SyscallStop} {s : TraceState} {nr : ℤ} {now : Timespec}

theorem entered_concat_entry (stops : List SyscallStop) (nr : ℤ) (now : Timespec) :
    entered (stops ++ [.entry nr now]) = entered stops ++ [nr] := by
  rw [entered, List.filterMap_append]
  rfl

theorem entered_concat_exit (stops : List SyscallStop) (now : Timespec) :
    entered (stops ++ [.exit now]) = entered stops := by
  rw [entered, List.filterMap_append]
  exact List.append_nil _

theorem spent_concat (nr : ℤ) (stops : List SyscallStop) (x : SyscallStop) :
    spent nr (stops ++ [x]) =
      spent nr stops + (stops.getLast?.map (fun y => callTime nr (y, x))).getD 0 := by
  rw [spent, spent, steps_concat, List.map_append, List.sum_append]
  cases stops.getLast? <;> simp

theorem spent_concat_entry (nr m : ℤ) (stops : List SyscallStop) (now : Timespec) :
    spent nr (stops ++ [.entry m now]) = spent nr stops := by
  rw [spent_concat]
  cases hlast : stops.getLast? with
  | none => exact add_zero _
  | some y => cases y <;> exact add_zero _

theorem spent_concat_exit_of_last {m : ℤ} {t : Timespec}
    (hlast : stops.getLast? = some (.entry m t)) (nr : ℤ) (now : Timespec) :
    spent nr (stops ++ [.exit now]) =
      spent nr stops + if m = nr then elapsedNs t now else 0 := by
  have helapsed : elapsedNs t now = now.ns - t.ns := by
    unfold elapsedNs Timespec.ns
    ring
  rw [spent_concat, hlast, helapsed]
  rfl

theorem spent_concat_exit (hlast : ∀ m t, stops.getLast? ≠ some (.entry m t)) (nr : ℤ)
    (now : Timespec) : spent nr (stops ++ [.exit now]) = spent nr stops := by
  rw [spent_concat]
  cases h : stops.getLast? with
  | none => exact add_zero _
  | some y =>
    cases y with
    | entry m t => exact absurd h (hlast m t)
    | exit t => exact add_zero _

theorem spent_eq_zero (h : nr ∉ entered stops) : spent nr stops = 0 := by
  refine List.sum_eq_zero fun x hx => ?_
  obtain ⟨⟨a, b⟩, hab, rfl⟩ := List.mem_map.mp hx
  have ha : a ∈ stops := (List.of_mem_zip hab).1
  cases a with
  | exit t => rfl
  | entry m t =>
    have hne : m ≠ nr := by
      rintro rfl
      exact h (List.mem_filterMap.mpr ⟨_, ha, rfl⟩)
    cases b with
    | entry m' t' => rfl
    | exit t' => exact if_neg hne

theorem Tallied.nodup (h : Tallied stops s) : (s.table.rows.map SyscallStat.nr).Nodup :=
  h.first.imp fun hlt heq => absurd (heq ▸ hlt) (lt_irrefl _)

section Charge

variable {f : SyscallStat → SyscallStat}

/-- **Finding a row and changing it** is one change of a table with unique keys. -/
theorem rows_charge (t : StatTable) (hrows : (t.rows.map SyscallStat.nr).Nodup) (nr : ℤ)
    (f : SyscallStat → SyscallStat) :
    (t.charge nr f).rows = upsert SyscallStat.nr nr ⟨nr, 0, 0, t.rows.length⟩ f t.rows := by
  unfold StatTable.charge statRow
  split
  · next i hi =>
    rw [upsert_eq_modify hrows hi]
    rfl
  · next hi =>
    rw [upsert_eq_append hi]
    show (t.rows ++ [_]).modify t.rows.length f = _
    rw [List.modify_eq_take_drop]
    simp

/-- A row afterwards: the changed one, or an old row of another number. -/
theorem mem_charge {t : StatTable} (hrows : (t.rows.map SyscallStat.nr).Nodup) {r : SyscallStat}
    (hr : r ∈ (t.charge nr f).rows) :
    (∃ r₀, r = f r₀ ∧ (r₀ ∈ t.rows ∧ r₀.nr = nr ∨
      nr ∉ t.rows.map SyscallStat.nr ∧ r₀ = ⟨nr, 0, 0, t.rows.length⟩)) ∨
    r.nr ≠ nr ∧ r ∈ t.rows := by
  rw [rows_charge t hrows] at hr
  exact mem_upsert hr

theorem keys_charge {t : StatTable} (hrows : (t.rows.map SyscallStat.nr).Nodup)
    (hf : ∀ r, (f r).nr = r.nr) : (t.charge nr f).rows.map SyscallStat.nr =
      if nr ∈ t.rows.map SyscallStat.nr then t.rows.map SyscallStat.nr
      else t.rows.map SyscallStat.nr ++ [nr] := by
  rw [rows_charge t hrows, map_upsert hf]

theorem order_charge {t : StatTable} (hrows : (t.rows.map SyscallStat.nr).Nodup)
    (hf : ∀ r, (f r).order = r.order)
    (horder : t.rows.map SyscallStat.order = List.range t.rows.length) :
    (t.charge nr f).rows.map SyscallStat.order = List.range (t.charge nr f).rows.length := by
  have hlength : (t.charge nr f).rows.length =
      ((t.charge nr f).rows.map SyscallStat.order).length := (List.length_map _).symm
  rw [hlength, rows_charge t hrows, map_upsert hf, horder]
  split
  · rw [List.length_range]
  · rw [List.length_append, List.length_range, List.length_singleton, List.range_succ]

end Charge

/-! ### The run -/

/-- **Step lemma**: an entry. -/
theorem Tallied.entry (h : Tallied stops s) (nr : ℤ) (now : Timespec) :
    Tallied (stops ++ [.entry nr now]) (onStop s (.entry nr) now) := by
  have hkeys : (onStop s (.entry nr) now).table.rows.map SyscallStat.nr = _ :=
    keys_charge h.nodup fun _ => rfl
  -- what was entered before keeps its place
  have hidx : ∀ {a}, a ∈ s.table.rows.map SyscallStat.nr →
      (entered stops ++ [nr]).idxOf a = (entered stops).idxOf a :=
    fun ha => List.idxOf_append_of_mem ((h.mem _).mp ha)
  have hold : (s.table.rows.map SyscallStat.nr).Pairwise
      (fun a b => (entered stops ++ [nr]).idxOf a < (entered stops ++ [nr]).idxOf b) := by
    refine h.first.imp_of_mem fun ha hb hlt => ?_
    rw [hidx ha, hidx hb]
    exact hlt
  refine ⟨?_, ?_, order_charge h.nodup (fun _ => rfl) h.order, ?_, ?_, ?_, ?_⟩
  · intro m
    rw [hkeys, entered_concat_entry, List.mem_append, List.mem_singleton, ← h.mem]
    split
    · next hmem => exact ⟨.inl, fun hm => hm.elim id fun heq => heq ▸ hmem⟩
    · rw [List.mem_append, List.mem_singleton]
  · rw [hkeys, entered_concat_entry]
    split
    · exact hold
    · next hnot =>
      refine List.pairwise_append.mpr ⟨hold, List.pairwise_singleton _ _, fun a ha b hb => ?_⟩
      cases List.mem_singleton.mp hb
      rw [hidx ha, List.idxOf_append_of_notMem (mt (h.mem nr).mpr hnot)]
      exact Nat.lt_add_right _ (List.idxOf_lt_length_of_mem ((h.mem a).mp ha))
  · intro r hr
    rw [entered_concat_entry, List.count_append]
    rcases mem_charge h.nodup hr with ⟨r₀, rfl, ⟨hmem, hkey₀⟩ | ⟨hnot, rfl⟩⟩ | ⟨hkey, hmem⟩
    · show r₀.calls + 1 = (entered stops).count r₀.nr + [nr].count r₀.nr
      rw [h.calls r₀ hmem, hkey₀, List.count_singleton_self]
    · show 0 + 1 = (entered stops).count nr + [nr].count nr
      rw [List.count_eq_zero_of_not_mem (mt (h.mem nr).mpr hnot), List.count_singleton_self]
    · rw [h.calls r hmem, List.count_singleton, if_neg (by simpa using Ne.symm hkey), add_zero]
  · intro r hr
    rw [spent_concat_entry]
    rcases mem_charge h.nodup hr with ⟨r₀, rfl, ⟨hmem, hkey₀⟩ | ⟨hnot, rfl⟩⟩ | ⟨hkey, hmem⟩
    · exact h.ns r₀ hmem
    · exact (spent_eq_zero (mt (h.mem nr).mpr hnot)).symm
    · exact h.ns r hmem
  · intro m t hlast
    rw [List.getLast?_concat] at hlast
    cases hlast
    exact ⟨rfl, rfl⟩
  · intro hlast
    exact absurd List.getLast?_concat (hlast nr now)

theorem getLast?_exit_ne (stops : List SyscallStop) (now : Timespec) (m : ℤ) (t : Timespec) :
    (stops ++ [SyscallStop.exit now]).getLast? ≠ some (.entry m t) := by
  rw [List.getLast?_concat]
  intro heq
  cases heq

/-- An exit that belongs to the call that was entered last. -/
theorem Tallied.exit_paired (h : Tallied stops s) (hnr : ∀ nr ∈ entered stops, 0 ≤ nr)
    (now : Timespec) {m : ℤ} {t : Timespec} (hlast : stops.getLast? = some (.entry m t)) :
    Tallied (stops ++ [.exit now]) (onStop s .exit now) := by
  obtain ⟨hpending, hts⟩ := h.pending m t hlast
  have hmem : m ∈ entered stops := List.mem_filterMap.mpr ⟨_, List.mem_of_getLast? hlast, rfl⟩
  have hstep : onStop s .exit now =
      { s with table := s.table.charge m (.addTime (elapsedNs t now)), pendingNr := -1 } := by
    rw [onStop, hpending, if_pos (hnr m hmem), hts]
  have hkeys : (s.table.charge m (.addTime (elapsedNs t now))).rows.map SyscallStat.nr =
      s.table.rows.map SyscallStat.nr := by
    rw [keys_charge (f := .addTime (elapsedNs t now)) h.nodup (fun _ => rfl),
      if_pos ((h.mem m).mpr hmem)]
  rw [hstep]
  refine ⟨?_, ?_, order_charge h.nodup (fun _ => rfl) h.order, ?_, ?_, ?_, fun _ => rfl⟩
  · intro a
    rw [hkeys, entered_concat_exit]
    exact h.mem a
  · rw [hkeys, entered_concat_exit]
    exact h.first
  · intro r hr
    rw [entered_concat_exit]
    rcases mem_charge h.nodup hr with ⟨r₀, rfl, ⟨hmem₀, hkey₀⟩ | ⟨hnot, rfl⟩⟩ | ⟨hkey, hmem₀⟩
    · exact h.calls r₀ hmem₀
    · exact absurd ((h.mem m).mpr hmem) hnot
    · exact h.calls r hmem₀
  · intro r hr
    rw [spent_concat_exit_of_last hlast]
    rcases mem_charge h.nodup hr with ⟨r₀, rfl, ⟨hmem₀, hkey₀⟩ | ⟨hnot, rfl⟩⟩ | ⟨hkey, hmem₀⟩
    · show r₀.ns + elapsedNs t now = spent r₀.nr stops + if m = r₀.nr then _ else 0
      rw [if_pos hkey₀.symm, h.ns r₀ hmem₀]
    · exact absurd ((h.mem m).mpr hmem) hnot
    · rw [if_neg (Ne.symm hkey), add_zero, h.ns r hmem₀]
  · exact fun _ _ hentry => absurd hentry (getLast?_exit_ne _ _ _ _)

theorem Tallied.exit_unpaired (h : Tallied stops s) (now : Timespec)
    (hlast : ∀ m t, stops.getLast? ≠ some (.entry m t)) :
    Tallied (stops ++ [.exit now]) (onStop s .exit now) := by
  have hidle : s.pendingNr = -1 := h.idle hlast
  have hstep : onStop s .exit now = s := by
    rw [onStop, hidle]
    rfl
  rw [hstep]
  refine ⟨?_, ?_, h.order, ?_, ?_, ?_, fun _ => hidle⟩
  · rw [entered_concat_exit]
    exact h.mem
  · rw [entered_concat_exit]
    exact h.first
  · rw [entered_concat_exit]
    exact h.calls
  · intro r hr
    rw [spent_concat_exit hlast]
    exact h.ns r hr
  · exact fun _ _ hentry => absurd hentry (getLast?_exit_ne _ _ _ _)

/-- **Step lemma**: an exit. -/
theorem Tallied.exit (h : Tallied stops s) (hnr : ∀ nr ∈ entered stops, 0 ≤ nr) (now : Timespec) :
    Tallied (stops ++ [.exit now]) (onStop s .exit now) := by
  by_cases hlast : ∃ m t, stops.getLast? = some (.entry m t)
  · obtain ⟨m, t, hlast⟩ := hlast
    exact h.exit_paired hnr now hlast
  · exact h.exit_unpaired now fun m t heq => hlast ⟨m, t, heq⟩

theorem tallied_start : Tallied [] traceStart := by
  refine ⟨?_, ?_, ?_, ?_, ?_, ?_, ?_⟩ <;> simp [traceStart, entered]

theorem Tallied.event {evs : List WaitEvent}
    (h : Tallied (evs.filterMap WaitEvent.syscallStop) s)
    (hnr : ∀ nr ∈ entered (evs.filterMap WaitEvent.syscallStop), 0 ≤ nr) (ev : WaitEvent) :
    Tallied ((evs ++ [ev]).filterMap WaitEvent.syscallStop) (onEvent s ev) := by
  have hother : ev.syscallStop = none →
      Tallied ((evs ++ [ev]).filterMap WaitEvent.syscallStop) s := by
    intro hnone
    rw [List.filterMap_append, List.filterMap_cons_none hnone, List.filterMap_nil,
      List.append_nil]
    exact h
  have hstop : ∀ {x}, ev.syscallStop = some x →
      (evs ++ [ev]).filterMap WaitEvent.syscallStop =
        evs.filterMap WaitEvent.syscallStop ++ [x] := by
    intro x hx
    rw [List.filterMap_append, List.filterMap_cons_some hx, List.filterMap_nil]
  cases ev with
  | stop kind now interrupted resumed =>
    cases kind with
    | entry nr =>
      rw [hstop rfl]
      exact h.entry nr now
    | exit =>
      rw [hstop rfl]
      exact h.exit hnr now
    | otherOp => exact hother rfl
    | notSyscall => exact hother rfl
  | eintr interrupted => exact hother rfl
  | failed => exact hother rfl
  | terminated => exact hother rfl
  | continued => exact hother rfl

theorem traceRounds_eq (attached : Bool) (detachEnd : TraceEnd) (evs : List WaitEvent)
    (s : TraceState) : (traceRounds attached detachEnd evs s).1 =
      (received attached evs).foldl onEvent s := by
  induction evs generalizing s with
  | nil => rfl
  | cons ev evs ih =>
    have hsame : (returns attached .exited ev).isSome = (returns attached detachEnd ev).isSome := by
      cases ev with
      | eintr interrupted =>
        simp only [returns]
        split <;> rfl
      | _ => rfl
    rw [traceRounds, received, hsame]
    cases hret : returns attached detachEnd ev with
    | some e => rfl
    | none => exact ih (onEvent s ev)

/-- **Run lemma**, for the events that were received. -/
theorem foldl_onEvent_tallied (evs : List WaitEvent)
    (hnr : ∀ nr ∈ entered (evs.filterMap WaitEvent.syscallStop), 0 ≤ nr) :
    Tallied (evs.filterMap WaitEvent.syscallStop) (evs.foldl onEvent traceStart) := by
  induction evs using List.reverseRecOn with
  | nil => exact tallied_start
  | append_singleton evs ev ih =>
    have hnr' : ∀ nr ∈ entered (evs.filterMap WaitEvent.syscallStop), 0 ≤ nr := by
      intro nr hmem
      refine hnr nr ?_
      rw [entered, List.filterMap_append, List.filterMap_append]
      exact List.mem_append_left _ hmem
    rw [List.foldl_append]
    exact (ih hnr').event hnr' ev

/-- **Run lemma**, for `trace_loop`. -/
theorem traceLoop_tallied (attached : Bool) (detachEnd : TraceEnd) (evs : List WaitEvent)
    (hnr : ∀ nr ∈ entered ((received attached evs).filterMap WaitEvent.syscallStop), 0 ≤ nr) :
    Tallied ((received attached evs).filterMap WaitEvent.syscallStop)
      (traceLoop attached true detachEnd evs).1 := by
  rw [traceLoop, if_pos rfl, traceRounds_eq]
  exact foldl_onEvent_tallied _ hnr

/-! ### The listing -/

theorem cmpStat_nonpos {x y : SyscallStat} :
    cmpStat x y ≤ 0 ↔ y.calls < x.calls ∨ x.calls = y.calls ∧ x.order ≤ y.order := by
  unfold cmpStat
  split_ifs <;> omega

theorem exists_sorts (rows : List SyscallStat) : ∃ sorted, Sorts rows sorted := by
  refine ⟨rows.mergeSort (fun a b => cmpStat a b ≤ 0), List.mergeSort_perm _ _, ?_⟩
  refine (List.pairwise_mergeSort ?_ ?_ rows).imp fun h => of_decide_eq_true h
  · intro a b c hab hbc
    rw [decide_eq_true_eq, cmpStat_nonpos] at *
    omega
  · intro a b
    rw [Bool.or_eq_true, decide_eq_true_eq, decide_eq_true_eq, cmpStat_nonpos, cmpStat_nonpos]
    omega

theorem Tallied.eq_of_order (h : Tallied stops s) {a b : SyscallStat} (ha : a ∈ s.table.rows)
    (hb : b ∈ s.table.rows) (horder : a.order = b.order) : a = b := by
  have hnodup : (s.table.rows.map SyscallStat.order).Nodup := by
    rw [h.order]
    exact List.nodup_range
  exact List.inj_on_of_nodup_map hnodup ha hb horder

/-- The rows stand in the order in which their calls were first entered. -/
theorem Tallied.idxOf_lt (h : Tallied stops s) {a b : SyscallStat} (ha : a ∈ s.table.rows)
    (hb : b ∈ s.table.rows) (horder : a.order < b.order) :
    (entered stops).idxOf a.nr < (entered stops).idxOf b.nr := by
  have hordered : (s.table.rows.map SyscallStat.order).Pairwise (· < ·) := by
    rw [h.order]
    exact List.pairwise_lt_range
  let agree : SyscallStat → SyscallStat → Prop := fun a b =>
    (a.order < b.order → (entered stops).idxOf a.nr < (entered stops).idxOf b.nr) ∧
    (b.order < a.order → (entered stops).idxOf b.nr < (entered stops).idxOf a.nr)
  have hsymm : Std.Symm agree := ⟨fun _ _ hab => ⟨hab.2, hab.1⟩⟩
  -- of two rows one stands in front of the other, and then both places increase
  have hpair : s.table.rows.Pairwise agree := by
    refine ((List.pairwise_map.mp hordered).and (List.pairwise_map.mp h.first)).imp ?_
    exact fun ⟨hlt, hidx⟩ => ⟨fun _ => hidx, fun hgt => absurd hlt (lt_asymm hgt)⟩
  have hself : ∀ r ∈ s.table.rows, agree r r := fun _ _ =>
    ⟨fun hlt => absurd hlt (lt_irrefl _), fun hlt => absurd hlt (lt_irrefl _)⟩
  exact (hpair.forall_of_forall hself ha hb).1 horder

variable {sorted : List SyscallStat}

/-- **The listing** is by calls, and by first entry where they are equal. -/
theorem Tallied.listing (h : Tallied stops s) (hsort : Sorts s.table.rows sorted) :
    sorted.Pairwise (fun a b => b.calls < a.calls ∨
      a.calls = b.calls ∧ (entered stops).idxOf a.nr < (entered stops).idxOf b.nr) := by
  have hnodup : sorted.Nodup := hsort.perm.nodup_iff.mpr (List.Nodup.of_map _ h.nodup)
  refine (hsort.ordered.and hnodup).imp_of_mem fun ha hb ⟨hcmp, hne⟩ => ?_
  have ha := hsort.perm.subset ha
  have hb := hsort.perm.subset hb
  rcases cmpStat_nonpos.mp hcmp with hlt | ⟨heq, hle⟩
  · exact .inl hlt
  · have hlt := lt_of_le_of_ne hle fun horder => hne (h.eq_of_order ha hb horder)
    exact .inr ⟨heq, h.idxOf_lt ha hb hlt⟩

/-- **The listing is unique**, whatever the algorithm. -/
theorem Tallied.sorts_unique (h : Tallied stops s) {sorted' : List SyscallStat}
    (hsort : Sorts s.table.rows sorted) (hsort' : Sorts s.table.rows sorted') :
    sorted' = sorted := by
  refine List.Perm.eq_of_pairwise ?_ hsort'.ordered hsort.ordered
    (hsort'.perm.trans hsort.perm.symm)
  intro a b ha hb hab hba
  rw [cmpStat_nonpos] at hab hba
  exact h.eq_of_order (hsort'.perm.subset ha) (hsort.perm.subset hb) (by omega)

/-- `print_summary` writes the header, and a line for each row in the order of `qsort`. -/
theorem printSummary_eq (qsort : List SyscallStat → List SyscallStat)
    (names : List (ℤ × List Byte)) (seconds : ℤ → List Byte) (rows : List SyscallStat) :
    printSummary qsort names seconds rows =
      (summaryHeader :: (qsort rows).map (summaryLine names seconds)).flatten := by
  have hloop : ∀ (l : List SyscallStat) (out : List Byte),
      l.foldl (fun out r => out ++ summaryLine names seconds r) out =
        out ++ (l.map (summaryLine names seconds)).flatten := by
    intro l
    induction l with
    | nil => exact fun out => (List.append_nil out).symm
    | cons r l ih =>
      intro out
      rw [List.foldl_cons, ih, List.map_cons, List.flatten_cons, List.append_assoc]
  exact hloop (qsort rows) summaryHeader

/-- **The summary of `snoop` is exact.** After every list of events, with nonnegative numbers
    at the entries that were received: the table has one row for each number that was entered
    and no other; its calls are the entries with that number, and its time is the sum over
    those whose next system call stop is an exit. The rows can be sorted. Whatever the sorting
    algorithm, `print_summary` writes the header and one line for each row, by descending
    calls, and by first entry where they are equal. -/
theorem snoop_summary_exact (attached : Bool) (detachEnd : TraceEnd) (evs : List WaitEvent)
    (stops : List SyscallStop)
    (hstops : stops = (received attached evs).filterMap WaitEvent.syscallStop)
    (hnr : ∀ nr ∈ entered stops, 0 ≤ nr) (rows : List SyscallStat)
    (hrows : rows = (traceLoop attached true detachEnd evs).1.table.rows) :
    (rows.map SyscallStat.nr).Nodup ∧
    (∀ nr, nr ∈ rows.map SyscallStat.nr ↔ nr ∈ entered stops) ∧
    (∀ r ∈ rows, r.calls = (entered stops).count r.nr ∧ r.ns = spent r.nr stops) ∧
    (∃ sorted, Sorts rows sorted) ∧
    ∀ sorted, Sorts rows sorted →
      sorted.Pairwise (fun a b => b.calls < a.calls ∨
        a.calls = b.calls ∧ (entered stops).idxOf a.nr < (entered stops).idxOf b.nr) ∧
      ∀ qsort, (∀ l, Sorts l (qsort l)) → qsort rows = sorted ∧ ∀ names seconds,
        printSummary qsort names seconds rows =
          (summaryHeader :: sorted.map (summaryLine names seconds)).flatten := by
  subst hstops hrows
  have h := traceLoop_tallied attached detachEnd evs hnr
  refine ⟨h.nodup, h.mem, fun r hr => ⟨h.calls r hr, h.ns r hr⟩, exists_sorts _,
    fun sorted hsort => ⟨h.listing hsort, fun qsort hqsort => ?_⟩⟩
  have heq := h.sorts_unique hsort (hqsort _)
  exact ⟨heq, fun names seconds => by rw [printSummary_eq, heq]⟩

/-- A call that is entered twice and returns once, and an exit without an entry. -/
def tracedStops : List WaitEvent :=
  [.stop .exit ⟨0, 0⟩ false true, .stop (.entry 59) ⟨0, 5⟩ false true,
    .stop .notSyscall ⟨0, 6⟩ false true, .eintr false, .stop (.entry 1) ⟨0, 7⟩ false true,
    .stop .exit ⟨1, 2⟩ false true, .stop (.entry 1) ⟨2, 0⟩ false true, .terminated]

def callNames : List (ℤ × List Byte) := [(59, ascii "execve"), (1, ascii "write")]

/-- The two times that the trace has, with three decimals. -/
def roundedTime (ns : ℤ) : List Byte := if ns = 0 then ascii "0.000" else ascii "1.000"

theorem snoop_summary_exact_two :
    ∃ rows, rows = (traceLoop false true .exited tracedStops).1.table.rows ∧
      rows.map SyscallStat.nr = [59, 1] ∧
      (∀ r ∈ rows, r.nr = 1 → r.calls = 2 ∧ r.ns = 999999995) ∧
      ∀ qsort, (∀ l, Sorts l (qsort l)) → printSummary qsort callNames roundedTime rows =
        ascii "syscall       calls   time\n" ++ ascii "write         2       1.000s\n" ++
          ascii "execve        1       0.000s\n" := by
  have hstops : [SyscallStop.exit ⟨0, 0⟩, .entry 59 ⟨0, 5⟩, .entry 1 ⟨0, 7⟩, .exit ⟨1, 2⟩,
      .entry 1 ⟨2, 0⟩] = (received false tracedStops).filterMap WaitEvent.syscallStop := rfl
  have hsort : Sorts (traceLoop false true .exited tracedStops).1.table.rows
      [⟨1, 2, 999999995, 1⟩, ⟨59, 1, 0, 0⟩] :=
    ⟨List.Perm.swap _ _ _, by decide⟩
  obtain ⟨-, -, hexact, -, hprinted⟩ := snoop_summary_exact false .exited tracedStops _ hstops
    (by decide) _ rfl
  refine ⟨_, rfl, rfl, fun r hr hone => ?_, fun qsort hqsort => ?_⟩
  · obtain ⟨hcalls, hns⟩ := hexact r hr
    rw [hcalls, hns, hone]
    exact ⟨rfl, rfl⟩
  · rw [((hprinted _ hsort).2 qsort hqsort).2]
    decide

end MiniOs.Shell
