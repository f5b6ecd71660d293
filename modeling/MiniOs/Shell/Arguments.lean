import Mathlib
import MiniOs.Shell.JobTable
import MiniOs.Shell.Paths

/-!
# Numbers on the command line

`ping` and `resume` read signal numbers, pids, job numbers and timeouts digit by digit, in
`int` or `long` variables. Each keeps its variable in range in its own way: `parse_signal`
reduces it modulo 64 at every digit, `parse_positive` and `parse_seconds` give up as soon as
it is too large, and `parse_job_number` stops updating it.

A value outside the range of its C type has no result, so a parser that returns a value has
not overflowed.
-/

namespace MiniOs.Shell

open Trace

variable {t : JobTable} {width : ℕ}

def isdigit (c : Byte) : Prop := 48 ≤ c ∧ c ≤ 57

instance (c : Byte) : Decidable (isdigit c) := inferInstanceAs (Decidable (_ ∧ _))

/-- A value of a signed type of `width` bits. -/
def checked (width : ℕ) (x : ℤ) : Option ℤ :=
  if -2 ^ (width - 1) ≤ x ∧ x < 2 ^ (width - 1) then some x else none

/-- `value * 10 + (*p - '0')`, with every intermediate value in range. -/
def shiftIn (width : ℕ) (value : ℤ) (c : Byte) : Option ℤ := do
  let x ← checked width (value * 10)
  checked width (x + (c.toNat - 48))

def signalLoop : ℤ → List Byte → Option ℤ
  | reduced, [] => some reduced
  | reduced, c :: p =>
    if ¬ isdigit c then some (-1)
    else do
      let x ← shiftIn 32 reduced c
      signalLoop (x.tmod 64) p

def parseSignal : Option (List Byte) → Option ℤ
  | none => some (-1)
  | some [] => some (-1)
  | some s => signalLoop 0 s

/-- The loop of `parse_positive` and `parse_seconds`. -/
def boundedLoop (width : ℕ) (max : ℤ) : ℤ → List Byte → Option ℤ
  | value, [] => some value
  | value, c :: p =>
    if ¬ isdigit c then some 0
    else do
      let x ← shiftIn width value c
      if max < x then some 0 else boundedLoop width max x p

/-- `parse_positive` and `parse_seconds`, which differ in the type of their variable and in
    the largest value they accept. -/
def parseBounded (width : ℕ) (max : ℤ) : Option (List Byte) → Option ℤ
  | none => some 0
  | some [] => some 0
  | some s => boundedLoop width max 0 s

def parsePositive : Option (List Byte) → Option ℤ := parseBounded 64 0x7fffffff

def parseSeconds : Option (List Byte) → Option ℤ := parseBounded 32 100000

def jobNumberLoop : ℤ → List Byte → Option ℤ
  | value, [] => some value
  | value, c :: p =>
    if ¬ isdigit c then some (-1)
    else if value ≤ 1000000 then do
      let x ← shiftIn 32 value c
      jobNumberLoop x p
    else jobNumberLoop value p

def parseJobNumber : Option (List Byte) → Option ℤ
  | none => some (-1)
  | some [] => some (-1)
  | some (c :: s) =>
    if c ≠ Byte.percent then some (-1)
    else if s = [] then some (-1)
    else jobNumberLoop 0 s

/-- The job that `resume` looks up for its first argument. -/
def resumeLookup (t : JobTable) (arg : List Byte) : Option (Option BgJob) := do
  let jobNumber ← parseJobNumber (some arg)
  if jobNumber < 0 then pure none
  else pure ((findJob t jobNumber.toNat).filter (fun j => 0 < j.procs.length))

/-- The job that `ping` looks up for a target that starts with a percent sign. -/
def pingJobLookup (t : JobTable) (target : List Byte) : Option (Option BgJob) := do
  let num ← parsePositive (some target.tail)
  if 0 < num then pure ((findJob t num.toNat).filter (fun j => 0 < j.procs.length))
  else pure none

/-! ### The value of a digit string -/

def digitOf (c : Byte) : ℕ := c.toNat - 48

/-- The number that a string of decimal digits stands for. -/
def decimalValue (s : List Byte) : ℕ := Nat.ofDigits 10 (s.reverse.map digitOf)

/-- A nonempty string of digits. -/
structure Numeral (s : List Byte) : Prop where
  ne_nil : s ≠ []
  digits : ∀ c ∈ s, isdigit c

instance (s : List Byte) : Decidable (Numeral s) :=
  decidable_of_iff (s ≠ [] ∧ ∀ c ∈ s, isdigit c) ⟨fun ⟨h, h'⟩ => ⟨h, h'⟩, fun ⟨h, h'⟩ => ⟨h, h'⟩⟩

/-- The digits `s` behind a number with the value `v`. -/
def decimalFrom (v : ℕ) (s : List Byte) : ℕ := s.foldl (fun v c => v * 10 + digitOf c) v

variable {c : Byte} {s : List Byte} {v w : ℕ}

theorem decimalFrom_zero (s : List Byte) : decimalFrom 0 s = decimalValue s := by
  induction s using List.reverseRecOn with
  | nil => rfl
  | append_singleton s c ih =>
    have hvalue : decimalValue (s ++ [c]) = digitOf c + 10 * decimalValue s := by
      rw [decimalValue, List.reverse_append, List.reverse_singleton, List.singleton_append,
        List.map_cons, Nat.ofDigits_cons]
      rfl
    have hfrom : decimalFrom 0 (s ++ [c]) = decimalFrom 0 s * 10 + digitOf c := by
      rw [decimalFrom, List.foldl_append]
      rfl
    rw [hfrom, hvalue, ih]
    ring

theorem decimalFrom_cons (v : ℕ) (c : Byte) (s : List Byte) :
    decimalFrom v (c :: s) = decimalFrom (v * 10 + digitOf c) s := by
  rw [decimalFrom, List.foldl_cons]
  rfl

theorem le_decimalFrom (v : ℕ) (s : List Byte) : v ≤ decimalFrom v s := by
  induction s generalizing v with
  | nil => exact Nat.le_refl v
  | cons c s ih =>
    have := ih (v * 10 + digitOf c)
    rw [decimalFrom_cons]
    omega

/-- The remainder depends only on the remainder of what stands in front. -/
theorem decimalFrom_mod (h : Nat.ModEq 64 v w) (s : List Byte) :
    Nat.ModEq 64 (decimalFrom v s) (decimalFrom w s) := by
  induction s generalizing v w with
  | nil => exact h
  | cons c s ih => exact ih ((h.mul_right 10).add_right (digitOf c))

theorem digitOf_le (hc : isdigit c) : digitOf c ≤ 9 := by
  have hle : c.toNat ≤ 57 := UInt8.le_iff_toNat_le.mp hc.2
  unfold digitOf
  omega

theorem checked_eq {x : ℤ} (hlo : 0 ≤ x) (hhi : x < 2 ^ (width - 1)) :
    checked width x = some x := by
  have hpos : (0 : ℤ) < 2 ^ (width - 1) := by positivity
  rw [checked, if_pos ⟨by omega, hhi⟩]

/-- **One digit**: in range if the new value is. -/
theorem shiftIn_eq (hc : isdigit c) (hv : ((v * 10 + digitOf c : ℕ) : ℤ) < 2 ^ (width - 1)) :
    shiftIn width v c = some ((v * 10 + digitOf c : ℕ) : ℤ) := by
  have hge : 48 ≤ c.toNat := UInt8.le_iff_toNat_le.mp hc.1
  have hdigit : ((c.toNat : ℤ) - 48) = (digitOf c : ℕ) := by
    unfold digitOf
    omega
  push_cast at hv
  have hten : checked width (v * 10) = some ((v : ℤ) * 10) := checked_eq (by omega) (by omega)
  rw [shiftIn, hten, hdigit]
  push_cast
  exact checked_eq (by omega) hv

/-! ### The loops -/

def AllDigits (s : List Byte) : Prop := ∀ c ∈ s, isdigit c

instance (s : List Byte) : Decidable (AllDigits s) := inferInstanceAs (Decidable (∀ c ∈ s, _))

theorem allDigits_cons_of (hc : isdigit c) : AllDigits (c :: s) ↔ AllDigits s := by
  unfold AllDigits
  rw [List.forall_mem_cons]
  exact and_iff_right hc

theorem not_allDigits_cons_of (hc : ¬ isdigit c) : ¬ AllDigits (c :: s) :=
  fun h => hc (h c List.mem_cons_self)

/-- **The reducing loop**, from a reduced value on. -/
theorem signalLoop_eq (hv : v < 64) (s : List Byte) :
    signalLoop v s = some (if AllDigits s then ((decimalFrom v s % 64 : ℕ) : ℤ) else -1) := by
  induction s generalizing v with
  | nil =>
    rw [if_pos (by simp [AllDigits])]
    show some (v : ℤ) = some ((v % 64 : ℕ) : ℤ)
    rw [Nat.mod_eq_of_lt hv]
  | cons c s ih =>
    by_cases hc : isdigit c
    · have hd := digitOf_le hc
      have hstep : shiftIn 32 v c = some ((v * 10 + digitOf c : ℕ) : ℤ) := by
        refine shiftIn_eq hc ?_
        norm_num
        omega
      have hmod : ((v * 10 + digitOf c : ℕ) : ℤ).tmod 64 =
          (((v * 10 + digitOf c) % 64 : ℕ) : ℤ) := by
        rw [Int.tmod_eq_emod_of_nonneg (Int.natCast_nonneg _)]
        rfl
      have hcongr : decimalFrom ((v * 10 + digitOf c) % 64) s % 64 =
          decimalFrom (v * 10 + digitOf c) s % 64 :=
        decimalFrom_mod (Nat.mod_modEq _ _) s
      rw [signalLoop, if_neg (not_not.mpr hc), hstep]
      change signalLoop (((v * 10 + digitOf c : ℕ) : ℤ).tmod 64) s = _
      rw [hmod, ih (Nat.mod_lt _ (by decide)), hcongr, decimalFrom_cons]
      simp only [allDigits_cons_of hc]
    · rw [signalLoop, if_pos hc, if_neg (not_allDigits_cons_of hc)]

/-- **The loop that gives up**, from an accepted value on. -/
theorem boundedLoop_eq {max : ℕ} (hmax : ((max * 10 + 9 : ℕ) : ℤ) < 2 ^ (width - 1))
    (hv : v ≤ max) (s : List Byte) :
    boundedLoop width max v s =
      some (if AllDigits s ∧ decimalFrom v s ≤ max then (decimalFrom v s : ℤ) else 0) := by
  induction s generalizing v with
  | nil =>
    rw [if_pos ⟨by simp [AllDigits], hv⟩]
    rfl
  | cons c s ih =>
    by_cases hc : isdigit c
    · have hd := digitOf_le hc
      have hstep : shiftIn width v c = some ((v * 10 + digitOf c : ℕ) : ℤ) :=
        shiftIn_eq hc (by omega)
      rw [boundedLoop, if_neg (not_not.mpr hc), hstep]
      change (if (max : ℤ) < ((v * 10 + digitOf c : ℕ) : ℤ) then some 0 else _) = _
      rw [decimalFrom_cons]
      simp only [allDigits_cons_of hc]
      by_cases hlarge : max < v * 10 + digitOf c
      · -- the digits to come cannot bring the value back
        have hle := le_decimalFrom (v * 10 + digitOf c) s
        rw [if_pos (by omega), if_neg (fun h => by omega)]
      · rw [if_neg (by omega), ih (by omega)]
    · rw [boundedLoop, if_pos hc, if_neg (fun h => not_allDigits_cons_of hc h.1)]

/-- **The saturating loop**: it is exact up to a million, and stays above it otherwise. -/
theorem jobNumberLoop_eq (hv : v ≤ 10000009) (s : List Byte) :
    (AllDigits s → ∃ x : ℕ, jobNumberLoop v s = some (x : ℤ) ∧
      (decimalFrom v s ≤ 1000000 → x = decimalFrom v s) ∧
      (1000000 < decimalFrom v s → 1000000 < x)) ∧
    (¬ AllDigits s → jobNumberLoop v s = some (-1)) := by
  induction s generalizing v with
  | nil => exact ⟨fun _ => ⟨v, rfl, fun _ => rfl, id⟩, fun h => absurd (by simp [AllDigits]) h⟩
  | cons c s ih =>
    by_cases hc : isdigit c
    · have hd := digitOf_le hc
      rw [allDigits_cons_of hc, jobNumberLoop, if_neg (not_not.mpr hc), decimalFrom_cons]
      by_cases hsmall : v ≤ 1000000
      · have hstep : shiftIn 32 v c = some ((v * 10 + digitOf c : ℕ) : ℤ) := by
          refine shiftIn_eq hc ?_
          norm_num
          omega
        rw [if_pos (by omega), hstep]
        exact ih (by omega)
      · -- the variable is left alone, and is too large already
        rw [if_neg (by omega)]
        obtain ⟨hall, hbad⟩ := ih hv
        refine ⟨fun hdigits => ?_, hbad⟩
        obtain ⟨x, hx, hexact, hlarge⟩ := hall hdigits
        have hle := le_decimalFrom (v * 10 + digitOf c) s
        have hle' := le_decimalFrom v s
        exact ⟨x, hx, fun h => by omega, fun _ => hlarge (by omega)⟩
    · rw [jobNumberLoop, if_pos hc]
      exact ⟨fun h => absurd h (not_allDigits_cons_of hc), fun _ => rfl⟩

/-! ### The parsers -/

theorem numeral_iff : Numeral s ↔ s ≠ [] ∧ AllDigits s :=
  ⟨fun h => ⟨h.ne_nil, h.digits⟩, fun h => ⟨h.1, h.2⟩⟩

theorem parseSignal_eq (s : List Byte) :
    parseSignal (some s) = some (if Numeral s then ((decimalValue s % 64 : ℕ) : ℤ) else -1) := by
  cases s with
  | nil =>
    rw [if_neg (fun h => h.ne_nil rfl)]
    rfl
  | cons c s =>
    have hloop := signalLoop_eq (v := 0) (by decide) (c :: s)
    rw [decimalFrom_zero] at hloop
    simp only [numeral_iff, ne_eq, reduceCtorEq, not_false_eq_true, true_and]
    exact hloop

theorem parseBounded_eq {max : ℕ} (hmax : ((max * 10 + 9 : ℕ) : ℤ) < 2 ^ (width - 1))
    (s : List Byte) :
    parseBounded width max (some s) =
      some (if Numeral s ∧ decimalValue s ≤ max then (decimalValue s : ℤ) else 0) := by
  cases s with
  | nil =>
    rw [if_neg (fun h => h.1.ne_nil rfl)]
    rfl
  | cons c s =>
    have hloop := boundedLoop_eq hmax (Nat.zero_le max) (c :: s)
    rw [decimalFrom_zero] at hloop
    simp only [numeral_iff, ne_eq, reduceCtorEq, not_false_eq_true, true_and]
    exact hloop

theorem parsePositive_eq (s : List Byte) : parsePositive (some s) =
    some (if Numeral s ∧ decimalValue s ≤ 2147483647 then (decimalValue s : ℤ) else 0) :=
  parseBounded_eq (by norm_num) s

theorem parseSeconds_eq (s : List Byte) : parseSeconds (some s) =
    some (if Numeral s ∧ decimalValue s ≤ 100000 then (decimalValue s : ℤ) else 0) :=
  parseBounded_eq (by norm_num) s

/-- A percent sign and digits. -/
def IsJobArgument (s : List Byte) : Prop := ∃ ds, s = Byte.percent :: ds ∧ Numeral ds

theorem parseJobNumber_bad (hs : ¬ IsJobArgument s) : parseJobNumber (some s) = some (-1) := by
  cases s with
  | nil => rfl
  | cons c ds =>
    rw [parseJobNumber]
    by_cases hc : c = Byte.percent
    · rw [if_neg (not_not.mpr hc)]
      by_cases hnil : ds = []
      · rw [if_pos hnil]
      · rw [if_neg hnil]
        refine (jobNumberLoop_eq (v := 0) (by decide) ds).2 fun hall => hs ⟨ds, ?_, hnil, hall⟩
        rw [hc]
    · rw [if_pos hc]

theorem parseJobNumber_eq (hs : Numeral s) :
    ∃ x : ℕ, parseJobNumber (some (Byte.percent :: s)) = some (x : ℤ) ∧
      (decimalValue s ≤ 1000000 → x = decimalValue s) ∧
      (1000000 < decimalValue s → 1000000 < x) := by
  obtain ⟨x, hx, hexact, hlarge⟩ := (jobNumberLoop_eq (v := 0) (by decide) s).1 hs.digits
  rw [decimalFrom_zero] at hexact hlarge
  refine ⟨x, ?_, hexact, hlarge⟩
  rw [parseJobNumber, if_neg (not_not.mpr rfl), if_neg hs.ne_nil]
  exact hx

/-! ### The job that an argument names -/

/-- **Step lemma**: an operation keeps job numbers positive. -/
theorem number_pos_step {t' : JobTable} {op : TableOp} (ht : RepInv t)
    (hstep : tableStep t op = some t') (hpos : ∀ j ∈ t.jobs, 1 ≤ j.jobNumber) :
    ∀ j ∈ t'.jobs, 1 ≤ j.jobNumber := by
  intro k hk
  rcases tableStep_cases ht hstep with ⟨stages, -, rfl | ⟨j, hreg⟩, -⟩ | ⟨jobs', rfl, hn, -⟩
  · exact hpos k hk
  · rcases hreg.mem hk with hk | rfl
    · exact hpos k hk
    · rw [hreg.number]
      exact Nat.le_add_left 1 _
  · obtain ⟨j, hj, hsurv⟩ := hn.exists_survives hk
    rw [hsurv.number]
    exact hpos j hj

/-- **Run lemma**: job numbers are positive after every sequence of operations. -/
theorem number_pos_exec {ops : List TableOp} (h : exec tableStep initTable ops = some t) :
    ∀ j ∈ t.jobs, 1 ≤ j.jobNumber := by
  have hok : Guarded tableStep (fun _ _ => True) initTable ops :=
    guarded_of_forall (fun _ _ => trivial) initTable ops
  have hstep : ∀ t log op t', (Tracks t log ∧ ∀ j ∈ t.jobs, 1 ≤ j.jobNumber) → True →
      tableStep t op = some t' →
        Tracks t' (logLaunch t op log) ∧ ∀ j ∈ t'.jobs, 1 ≤ j.jobNumber :=
    fun _ _ _ _ hI _ hs => ⟨hI.1.step hs, number_pos_step hI.1.rep hs hI.2⟩
  have hinit : ∀ j ∈ initTable.jobs, 1 ≤ j.jobNumber := by simp [initTable]
  exact (observe_invariant hstep ⟨tracks_init, hinit⟩ hok h).2

theorem findJob_none {lo hi n : ℕ} (ht : ∀ j ∈ t.jobs, lo ≤ j.jobNumber ∧
    j.jobNumber ≤ hi) (hn : n < lo ∨ hi < n) : findJob t n = none := by
  refine List.find?_eq_none.mpr fun j hj heq => ?_
  have := ht j hj
  have : j.jobNumber = n := of_decide_eq_true heq
  omega

theorem resumeLookup_eq {arg : List Byte} {x : ℕ} (h : parseJobNumber (some arg) = some (x : ℤ)) :
    resumeLookup t arg = some ((findJob t x).filter (fun j => 0 < j.procs.length)) := by
  have hneg : ¬ (x : ℤ) < 0 := by omega
  rw [resumeLookup, h]
  change (if (x : ℤ) < 0 then some none else _) = _
  rw [if_neg hneg]
  rfl

/-- What `ping` looks up, by the number behind the percent sign. -/
theorem pingJobLookup_eq (t : JobTable) (s : List Byte) :
    pingJobLookup t (Byte.percent :: s) =
      some (if Numeral s ∧ 1 ≤ decimalValue s ∧ decimalValue s ≤ 2147483647 then
        (findJob t (decimalValue s)).filter (fun j => 0 < j.procs.length) else none) := by
  rw [pingJobLookup, List.tail_cons, parsePositive_eq]
  by_cases hs : Numeral s ∧ decimalValue s ≤ 2147483647
  · rw [if_pos hs]
    by_cases hpos : 1 ≤ decimalValue s
    · rw [if_pos ⟨hs.1, hpos, hs.2⟩]
      exact if_pos (by omega)
    · rw [if_neg fun h => hpos h.2.1]
      exact if_neg (by omega)
  · rw [if_neg hs, if_neg fun h => hs ⟨h.1, h.2.2⟩]
    rfl

/-- **The lookups agree** on tables with job numbers from one to a million. -/
theorem lookups_agree (ht : ∀ j ∈ t.jobs, 1 ≤ j.jobNumber ∧ j.jobNumber ≤ 1000000) (s : List Byte) :
    ∃ r, resumeLookup t (Byte.percent :: s) = some r ∧
      pingJobLookup t (Byte.percent :: s) = some r := by
  rw [pingJobLookup_eq]
  by_cases hs : Numeral s
  · obtain ⟨x, hx, hexact, hlarge⟩ := parseJobNumber_eq hs
    refine ⟨_, resumeLookup_eq hx, ?_⟩
    by_cases hmillion : decimalValue s ≤ 1000000
    · rw [hexact hmillion]
      by_cases hpos : 1 ≤ decimalValue s
      · rw [if_pos ⟨hs, hpos, by omega⟩]
      · -- job 0 is refused by `ping`, and does not exist for `resume`
        rw [if_neg fun h => hpos h.2.1, findJob_none ht (by omega)]
        rfl
    · rw [findJob_none ht (.inr (hlarge (by omega))), findJob_none ht (.inr (by omega))]
      exact congrArg some (ite_self _)
  · have hbad : ¬ IsJobArgument (Byte.percent :: s) := by
      rintro ⟨ds, heq, hds⟩
      cases heq
      exact hs hds
    refine ⟨none, ?_, by rw [if_neg fun h => hs h.1]⟩
    rw [resumeLookup, parseJobNumber_bad hbad]
    rfl

/-- **Numeric arguments are read exactly.** On every string each parser has a value, so no
    variable leaves the range of its type. `parse_signal` returns the number modulo 64, or
    `-1` exactly for what is not a number; `parse_positive` returns the numbers from 1 to
    `2 ^ 31 - 1` and `parse_seconds` those up to 100000, and 0 for everything else;
    `parse_job_number` returns `-1` exactly for what is not a percent sign and digits,
    numbers up to a million as they are, and for larger ones more than a million. Job
    numbers start at 1, and on tables where they are at most a million `resume` and `ping`
    select the same job for every argument that starts with a percent sign. -/
theorem number_parsers_exact (s : List Byte) :
    parseSignal (some s) = some (if Numeral s then ((decimalValue s % 64 : ℕ) : ℤ) else -1) ∧
    parsePositive (some s) = some (if Numeral s ∧ 1 ≤ decimalValue s ∧
      decimalValue s ≤ 2 ^ 31 - 1 then (decimalValue s : ℤ) else 0) ∧
    parseSeconds (some s) = some (if Numeral s ∧ decimalValue s ≤ 100000 then
      (decimalValue s : ℤ) else 0) ∧
    (parseJobNumber (some s) = some (-1) ↔ ¬ ∃ ds, s = Byte.percent :: ds ∧ Numeral ds) ∧
    (∀ ds, s = Byte.percent :: ds → Numeral ds → decimalValue ds ≤ 1000000 →
      parseJobNumber (some s) = some (decimalValue ds : ℤ)) ∧
    (∀ ds, s = Byte.percent :: ds → Numeral ds → 1000000 < decimalValue ds →
      ∃ x, parseJobNumber (some s) = some x ∧ 1000000 < x) ∧
    (∀ t : JobTable, (∀ j ∈ t.jobs, 1 ≤ j.jobNumber ∧ j.jobNumber ≤ 1000000) →
      ∀ ds, s = Byte.percent :: ds → ∃ r, resumeLookup t s = some r ∧ pingJobLookup t s = some r) ∧
    ∀ ops t, exec tableStep initTable ops = some t → ∀ j ∈ t.jobs, 1 ≤ j.jobNumber := by
  refine ⟨parseSignal_eq s, ?_, parseSeconds_eq s, ⟨?_, parseJobNumber_bad⟩, ?_, ?_, ?_, ?_⟩
  · rw [parsePositive_eq]
    by_cases hs : Numeral s ∧ 1 ≤ decimalValue s ∧ decimalValue s ≤ 2 ^ 31 - 1
    · rw [if_pos hs, if_pos ⟨hs.1, hs.2.2⟩]
    · rw [if_neg hs]
      split_ifs with h
      · -- the number zero is the value for everything else as well
        have hzero : decimalValue s = 0 := by
          by_contra hne
          exact hs ⟨h.1, Nat.one_le_iff_ne_zero.mpr hne, h.2⟩
        rw [hzero]
        rfl
      · rfl
  · rintro h ⟨ds, rfl, hds⟩
    obtain ⟨x, hx, -⟩ := parseJobNumber_eq hds
    rw [hx, Option.some_inj] at h
    omega
  · rintro ds rfl hds hle
    obtain ⟨x, hx, hexact, -⟩ := parseJobNumber_eq hds
    rw [hx, hexact hle]
  · rintro ds rfl hds hlt
    obtain ⟨x, hx, -, hlarge⟩ := parseJobNumber_eq hds
    exact ⟨x, hx, by exact_mod_cast hlarge hlt⟩
  · rintro t ht ds rfl
    exact lookups_agree ht ds
  · exact fun ops t h => number_pos_exec h

/-- `%007`: a percent sign and the number 7, with leading zeros. -/
theorem number_parsers_exact_leading_zeros :
    ∃ x, parseJobNumber (some [37, 48, 48, 55]) = some x ∧ x = 7 := by
  obtain ⟨-, -, -, -, hexact, -⟩ := number_parsers_exact [37, 48, 48, 55]
  refine ⟨_, hexact [48, 48, 55] rfl (by decide +kernel) (by decide +kernel), by decide +kernel⟩

end MiniOs.Shell
