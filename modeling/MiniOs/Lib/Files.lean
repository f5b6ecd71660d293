import Mathlib.Data.List.Infix
import Mathlib.Logic.Function.Basic

/-!
# Files, and copying with partial reads and writes

Files are lists behind paths. A descriptor has an offset, or appends. Calls that move data
may be interrupted, fail, or move less than they were asked to; a program repeats them until
everything has been moved. The answers to the calls of a loop are a list, and a loop that
would need more of them has not finished and has no result.

## Main definitions

- `Answer` — the answer to a call that moves data
- `writeAll`, `pump` — the loop that writes a buffer, and the loop that reads a stream
- `openOut`, `writeFd`, `AtEnd` — descriptors for writing

## Main results

- `writeAll_spec`, `pump_spec` — what the loops have moved when they end
- `writeAll_ok`, `pump_ok` — what can stop them early
- `writeAll_isSome`, `pump_isSome` — that they end
- `writeAll_file` — writing a buffer to a file that is written at its end
-/

namespace MiniOs.Files

/-- The answer to a call of `read` or `write`: interrupted, failed, or up to `k + 1` elements
    moved. -/
inductive Answer where
  | eintr
  | failed
  | moved (k : ℕ)
  deriving DecidableEq, Repr

def Answer.counts (a : Answer) : Bool := a ≠ .eintr

variable {α σ π : Type*}

/-- The loop that writes a buffer through `emit`. The flag is false if a call has failed. -/
def writeAll (emit : σ → List α → σ) : List Answer → List α → σ → Option (Bool × σ)
  | _, [], s => some (true, s)
  | [], _ :: _, _ => none
  | .eintr :: as, a :: l, s => writeAll emit as (a :: l) s
  | .failed :: _, _ :: _, s => some (false, s)
  | .moved k :: as, a :: l, s =>
    writeAll emit as ((a :: l).drop (k + 1)) (emit s ((a :: l).take (k + 1)))

/-- The loop that reads the stream `rest` through a buffer of `size` elements and passes what
    it has read to `body`, with the number of the round. The flag is false if `body` gave
    up. -/
def pump (size : ℕ) (body : ℕ → List α → σ → Option (Bool × σ)) :
    List Answer → ℕ → List α → σ → Option (Bool × σ)
  | [], _, _, _ => none
  | .eintr :: as, n, rest, s => pump size body as n rest s
  | .failed :: _, _, _, s => some (true, s)
  | .moved _ :: _, _, [], s => some (true, s)
  | .moved k :: as, n, a :: rest, s =>
    (body n ((a :: rest).take (min (k + 1) size)) s).bind fun r =>
      if r.1 then pump size body as (n + 1) ((a :: rest).drop (min (k + 1) size)) r.2
      else some (false, r.2)

section Loops

variable {emit : σ → List α → σ} {as : List Answer} {buf rest : List α} {s s' : σ} {ok : Bool}

/-- **Writing a buffer**: what was written is a front part of it, in some pieces, and all of
    it if no call has failed. -/
theorem writeAll_spec (h : writeAll emit as buf s = some (ok, s')) :
    ∃ parts : List (List α), s' = parts.foldl emit s ∧ parts.flatten <+: buf ∧
      (ok = true → parts.flatten = buf) := by
  induction as generalizing buf s with
  | nil =>
    cases buf with
    | nil =>
      cases h
      exact ⟨[], rfl, List.nil_prefix, fun _ => rfl⟩
    | cons a l => cases h
  | cons x as ih =>
    cases buf with
    | nil =>
      cases h
      exact ⟨[], rfl, List.nil_prefix, fun _ => rfl⟩
    | cons a l =>
      cases x with
      | eintr => exact ih h
      | failed =>
        cases h
        exact ⟨[], rfl, List.nil_prefix, fun hok => absurd hok Bool.false_ne_true⟩
      | moved k =>
        obtain ⟨parts, hs', hprefix, hall⟩ := ih h
        have hcut := List.take_append_drop (k + 1) (a :: l)
        refine ⟨(a :: l).take (k + 1) :: parts, hs', ?_, fun hok => ?_⟩
        · rw [List.flatten_cons]
          nth_rewrite 2 [← hcut]
          exact (List.prefix_append_right_inj _).mpr hprefix
        · rw [List.flatten_cons, hall hok, hcut]

theorem writeAll_append {sent sent' : List α}
    (h : writeAll (· ++ ·) as buf sent = some (ok, sent')) :
    ∃ part, part <+: buf ∧ (ok = true → part = buf) ∧ sent' = sent ++ part := by
  obtain ⟨parts, rfl, hprefix, hall⟩ := writeAll_spec h
  refine ⟨parts.flatten, hprefix, hall, ?_⟩
  rw [List.foldl_append_eq_append, List.map_id']

theorem writeAll_ok (hwrites : .failed ∉ as) (h : writeAll emit as buf s = some (ok, s')) :
    ok = true := by
  induction as generalizing buf s with
  | nil =>
    cases buf with
    | nil =>
      cases h
      rfl
    | cons a l => cases h
  | cons x as ih =>
    have hwrites' : .failed ∉ as := fun hmem => hwrites (List.mem_cons_of_mem _ hmem)
    cases buf with
    | nil =>
      cases h
      rfl
    | cons a l =>
      cases x with
      | eintr => exact ih hwrites' h
      | failed => exact absurd List.mem_cons_self hwrites
      | moved k => exact ih hwrites' h

/-- A buffer is written when there are enough answers, one for each element. -/
theorem writeAll_isSome (emit : σ → List α → σ) (s : σ)
    (h : buf.length ≤ as.countP Answer.counts) : (writeAll emit as buf s).isSome := by
  induction as generalizing buf s with
  | nil =>
    cases buf with
    | nil => rfl
    | cons a l => exact absurd h (by simp)
  | cons x as ih =>
    cases buf with
    | nil => rfl
    | cons a l =>
      cases x with
      | eintr => exact ih s (by simpa [Answer.counts] using h)
      | failed => rfl
      | moved k =>
        refine ih _ ?_
        rw [List.countP_cons_of_pos (by rfl), List.length_cons] at h
        rw [List.length_drop, List.length_cons]
        omega

variable {size n : ℕ} {body : ℕ → List α → σ → Option (Bool × σ)}

/-- **Reading a stream**: `P` says what the state is after the part that was passed on. When
    the loop ends without a failed call, everything was passed on; when `body` gives up, a
    front part. -/
theorem pump_spec {P : List α → σ → Prop} (hreads : .failed ∉ as)
    (hbody : ∀ n seen chunk s ok s', P seen s → body n chunk s = some (ok, s') →
      ∃ part, part <+: chunk ∧ (ok = true → part = chunk) ∧ P (seen ++ part) s')
    {seen : List α} (hs : P seen s) (h : pump size body as n rest s = some (ok, s')) :
    ∃ part, part <+: rest ∧ (ok = true → part = rest) ∧ P (seen ++ part) s' := by
  induction as generalizing n rest s seen with
  | nil => cases h
  | cons x as ih =>
    have hreads' : .failed ∉ as := fun hmem => hreads (List.mem_cons_of_mem _ hmem)
    cases x with
    | eintr => exact ih hreads' hs h
    | failed => exact absurd List.mem_cons_self hreads
    | moved k =>
      cases rest with
      | nil =>
        cases h
        refine ⟨[], List.nil_prefix, fun _ => rfl, ?_⟩
        rw [List.append_nil]
        exact hs
      | cons a rest =>
        obtain ⟨r, hr, hnext⟩ := Option.bind_eq_some_iff.mp h
        obtain ⟨part, hpart, hall, hP⟩ := hbody n seen _ s r.1 r.2 hs hr
        have hcut := List.take_append_drop (min (k + 1) size) (a :: rest)
        by_cases hgo : r.1 = true
        · rw [if_pos hgo] at hnext
          rw [hall hgo] at hP
          obtain ⟨part', hpart', hall', hP'⟩ := ih hreads' hP hnext
          refine ⟨(a :: rest).take (min (k + 1) size) ++ part', ?_, fun hok => ?_, ?_⟩
          · nth_rewrite 2 [← hcut]
            exact (List.prefix_append_right_inj _).mpr hpart'
          · rw [hall' hok, hcut]
          · rw [← List.append_assoc]
            exact hP'
        · rw [if_neg hgo] at hnext
          cases hnext
          exact ⟨part, hpart.trans (List.take_prefix _ _),
            fun hok => absurd hok Bool.false_ne_true, hP⟩

theorem pump_ok (hbody : ∀ n chunk s ok s', body n chunk s = some (ok, s') → ok = true)
    (h : pump size body as n rest s = some (ok, s')) : ok = true := by
  induction as generalizing n rest s with
  | nil => cases h
  | cons x as ih =>
    cases x with
    | eintr => exact ih h
    | failed =>
      cases h
      rfl
    | moved k =>
      cases rest with
      | nil =>
        cases h
        rfl
      | cons a rest =>
        obtain ⟨r, hr, hnext⟩ := Option.bind_eq_some_iff.mp h
        rw [if_pos (hbody n _ s r.1 r.2 hr)] at hnext
        exact ih hnext

/-- A stream is read when there are enough answers, one for each element and one for its end,
    and `body` ends. -/
theorem pump_isSome (hsize : 0 < size)
    (hbody : ∀ n chunk s, chunk.length ≤ size → (body n chunk s).isSome)
    (h : rest.length < as.countP Answer.counts) : (pump size body as n rest s).isSome := by
  induction as generalizing n rest s with
  | nil => exact absurd h (by simp)
  | cons x as ih =>
    cases x with
    | eintr => exact ih (by simpa [Answer.counts] using h)
    | failed => rfl
    | moved k =>
      cases rest with
      | nil => rfl
      | cons a rest =>
        have hlen : ((a :: rest).take (min (k + 1) size)).length ≤ size := by
          rw [List.length_take]
          omega
        obtain ⟨r, hr⟩ := Option.isSome_iff_exists.mp (hbody n _ s hlen)
        rw [pump, hr, Option.bind_some]
        split
        · refine ih ?_
          rw [List.countP_cons_of_pos (by rfl), List.length_cons] at h
          rw [List.length_drop, List.length_cons]
          omega
        · rfl

end Loops

/-! ### Descriptors -/

structure Fd (π : Type*) where
  path : π
  offset : ℕ
  append : Bool

variable {fs : π → List α}

/-- The next write goes to the end of the file. -/
def AtEnd (x : (π → List α) × Fd π) : Prop :=
  x.2.append = true ∨ x.2.offset = (x.1 x.2.path).length

theorem AtEnd.congr {fs' : π → List α} {fd : Fd π} (h : AtEnd (fs, fd))
    (hfs : fs' fd.path = fs fd.path) : AtEnd (fs', fd) :=
  h.imp_right fun hlen => hlen.trans (congrArg List.length hfs).symm

variable [DecidableEq π] {x : (π → List α) × Fd π}

/-- Opening a file for writing, to append to it or after it was truncated. -/
def openOut (fs : π → List α) (path : π) (append : Bool) : (π → List α) × Fd π :=
  (if append then fs else Function.update fs path [], ⟨path, 0, append⟩)

/-- Writing `l` through a descriptor: at the end of the file, or at the offset. -/
def writeFd (x : (π → List α) × Fd π) (l : List α) : (π → List α) × Fd π :=
  let old := x.1 x.2.path
  let pos := if x.2.append then old.length else x.2.offset
  (Function.update x.1 x.2.path (old.take pos ++ l ++ old.drop (pos + l.length)),
    { x.2 with offset := pos + l.length })

theorem atEnd_openOut (fs : π → List α) (path : π) (append : Bool) :
    AtEnd (openOut fs path append) := by
  cases append with
  | true => exact .inl rfl
  | false =>
    refine .inr ?_
    simp [openOut]

/-- **Writing at the end.** -/
theorem writeFd_atEnd (h : AtEnd x) (l : List α) :
    writeFd x l = (Function.update x.1 x.2.path (x.1 x.2.path ++ l),
      { x.2 with offset := (x.1 x.2.path).length + l.length }) ∧ AtEnd (writeFd x l) := by
  have hpos : (if x.2.append = true then (x.1 x.2.path).length else x.2.offset) =
      (x.1 x.2.path).length := by
    split
    · rfl
    · next hno => exact h.resolve_left hno
  have heq : writeFd x l = (Function.update x.1 x.2.path (x.1 x.2.path ++ l),
      { x.2 with offset := (x.1 x.2.path).length + l.length }) := by
    rw [writeFd]
    dsimp only
    rw [hpos, List.take_length, List.drop_eq_nil_of_le (Nat.le_add_right _ _), List.append_nil]
  refine ⟨heq, .inr ?_⟩
  rw [heq]
  simp

/-- **Writing at the end, in pieces.** -/
theorem foldl_writeFd (h : AtEnd x) (parts : List (List α)) :
    (parts.foldl writeFd x).1 = Function.update x.1 x.2.path (x.1 x.2.path ++ parts.flatten) ∧
      (parts.foldl writeFd x).2.path = x.2.path ∧ AtEnd (parts.foldl writeFd x) := by
  induction parts generalizing x with
  | nil =>
    refine ⟨?_, rfl, h⟩
    rw [List.flatten_nil, List.append_nil, Function.update_eq_self]
    rfl
  | cons l parts ih =>
    obtain ⟨heq, hend⟩ := writeFd_atEnd h l
    obtain ⟨hfs, hpath, hend'⟩ := ih hend
    rw [List.foldl_cons]
    refine ⟨?_, ?_, hend'⟩
    · rw [hfs, heq]
      simp
    · rw [hpath, heq]

/-- **Writing a buffer to a file** that is written at its end. -/
theorem writeAll_file {as : List Answer} {buf : List α} {ok : Bool} {x' : (π → List α) × Fd π}
    (hx : AtEnd x) (h : writeAll writeFd as buf x = some (ok, x')) :
    ∃ sent, sent <+: buf ∧ (ok = true → sent = buf) ∧
      x'.1 = Function.update x.1 x.2.path (x.1 x.2.path ++ sent) ∧ x'.2.path = x.2.path ∧
      AtEnd x' := by
  obtain ⟨parts, rfl, hprefix, hall⟩ := writeAll_spec h
  obtain ⟨hfs, hpath, hend⟩ := foldl_writeFd hx parts
  exact ⟨parts.flatten, hprefix, hall, hfs, hpath, hend⟩

end MiniOs.Files
