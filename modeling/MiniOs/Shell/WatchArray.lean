import MiniOs.Shell.Actions

/-!
# The watch list as an array

`bg_watch_pid`, `bg_unwatch_pid` and the SIGCHLD handler work on the array `watched` and
on `watch_hi`, the first index above all entries. In `Reaper` the array is the list of
its entries below `watch_hi`; here the functions are given as the loops over the array
that they are, and shown to do to the entries what the list functions do.
-/

namespace MiniOs.Shell

open Trace

variable {w : World}

structure WatchArray where
  cells : ℕ → Pid
  hi : ℕ

namespace WatchArray

def entries (a : WatchArray) : List Pid := (List.range a.hi).map a.cells

/-- The loop of `bg_watch_pid` over `n` entries from `i` on: `none` if it returns since
    the pid is there, and the free slot it has seen first otherwise. -/
def scanSlots (cells : ℕ → Pid) (pid : Pid) : ℕ → ℕ → Option ℕ → Option (Option ℕ)
  | _, 0, slot => some slot
  | i, n + 1, slot =>
    if cells i = pid then none
    else scanSlots cells pid (i + 1) n (if cells i = 0 ∧ slot = none then some i else slot)

def watch (a : WatchArray) (pid : Pid) : WatchArray :=
  if pid = 0 then a
  else
    match scanSlots a.cells pid 0 a.hi none with
    | none => a
    | some (some slot) => { a with cells := Function.update a.cells slot pid }
    | some none =>
      if a.hi < maxWatch then ⟨Function.update a.cells a.hi pid, a.hi + 1⟩ else a

def lowerHi (cells : ℕ → Pid) : ℕ → ℕ
  | 0 => 0
  | n + 1 => if cells n = 0 then lowerHi cells n else n + 1

/-- The entries after the loop of `bg_unwatch_pid`. -/
def erased (a : WatchArray) (pid : Pid) (i : ℕ) : Pid :=
  if i < a.hi ∧ a.cells i = pid then 0 else a.cells i

def unwatch (a : WatchArray) (pid : Pid) : WatchArray := ⟨a.erased pid, lowerHi (a.erased pid) a.hi⟩

/-- The handler's `watched[i] = 0`. -/
def clear (a : WatchArray) (i : ℕ) : WatchArray := { a with cells := Function.update a.cells i 0 }

/-- The empty array of `init_bg`. -/
def init : WatchArray := ⟨fun _ => 0, 0⟩

/-- A positive pid is there at most once, and every entry from `watch_hi` on is 0. -/
structure Ok (a : WatchArray) : Prop where
  once : ∀ i k, a.cells i = a.cells k → a.cells i ≠ 0 → i = k
  zero : ∀ i, a.hi ≤ i → a.cells i = 0

theorem init_ok : init.Ok := ⟨fun _ _ _ hne => absurd rfl hne, fun _ _ => rfl⟩

theorem mem_entries {a : WatchArray} {p : Pid} : p ∈ a.entries ↔ ∃ i < a.hi, a.cells i = p := by
  simp only [entries, List.mem_map, List.mem_range]

theorem length_entries (a : WatchArray) : a.entries.length = a.hi := by
  rw [entries, List.length_map, List.length_range]

theorem getElem?_entries (a : WatchArray) (i : ℕ) :
    a.entries[i]? = if i < a.hi then some (a.cells i) else none := by
  rw [entries, List.getElem?_map]
  split_ifs with hi
  · rw [List.getElem?_range hi]
    rfl
  · rw [List.getElem?_eq_none (by rw [List.length_range]; omega)]
    rfl

/-! ### The loops -/

theorem scanSlots_eq (cells : ℕ → Pid) (pid : Pid) (i n : ℕ) (slot : Option ℕ) :
    scanSlots cells pid i n slot =
      if pid ∈ (List.range' i n).map cells then none
      else some (slot.or ((((List.range' i n).map cells).idxOf? 0).map (· + i))) := by
  induction n generalizing i slot with
  | zero =>
    rw [scanSlots, List.range'_zero, if_neg (by simp)]
    cases slot <;> rfl
  | succ n ih =>
    rw [scanSlots, List.range'_succ, List.map_cons]
    by_cases hi : cells i = pid
    · rw [if_pos hi, if_pos (by simp [hi])]
    · rw [if_neg hi, ih]
      have hmem : pid ∈ cells i :: (List.range' (i + 1) n).map cells ↔
          pid ∈ (List.range' (i + 1) n).map cells := by
        rw [List.mem_cons, or_iff_right (Ne.symm hi)]
      by_cases hrest : pid ∈ (List.range' (i + 1) n).map cells
      · rw [if_pos hrest, if_pos (hmem.mpr hrest)]
      · rw [if_neg hrest, if_neg (fun h => hrest (hmem.mp h)), List.idxOf?_cons]
        congr 1
        cases slot with
        | some s => simp
        | none =>
          by_cases hz : cells i = 0
          · simp [hz]
          · simp only [hz, false_and, if_false, beq_iff_eq, Option.map_map, Option.none_or]
            congr 1
            funext k
            show k + (i + 1) = k + 1 + i
            omega

theorem map_range_update (cells : ℕ → Pid) (n slot : ℕ) (p : Pid) :
    (List.range n).map (Function.update cells slot p) = ((List.range n).map cells).set slot p := by
  apply List.ext_getElem?
  intro i
  rw [List.getElem?_map, List.getElem?_set, List.length_map, List.length_range, List.getElem?_map]
  by_cases hi : i < n
  · rw [List.getElem?_range hi]
    by_cases hs : slot = i
    · rw [if_pos hs, if_pos (hs ▸ hi), hs]
      show some (Function.update cells i p i) = some p
      rw [Function.update_self]
    · rw [if_neg hs]
      show some (Function.update cells slot p i) = some (cells i)
      rw [Function.update_of_ne (Ne.symm hs)]
  · have hnone : (List.range n)[i]? = none :=
      List.getElem?_eq_none (by rw [List.length_range]; omega)
    rw [hnone]
    by_cases hs : slot = i
    · rw [if_pos hs, if_neg (by omega)]
      rfl
    · rw [if_neg hs]
      rfl

theorem entries_clear (a : WatchArray) (i : ℕ) : (a.clear i).entries = a.entries.set i 0 :=
  map_range_update a.cells a.hi i 0

theorem watch_eq (a : WatchArray) (pid : Pid) :
    a.watch pid =
      if pid = 0 ∨ pid ∈ a.entries then a
      else
        match a.entries.idxOf? 0 with
        | some slot => { a with cells := Function.update a.cells slot pid }
        | none => if a.hi < maxWatch then ⟨Function.update a.cells a.hi pid, a.hi + 1⟩ else a := by
  have hscan : scanSlots a.cells pid 0 a.hi none =
      if pid ∈ a.entries then none else some (a.entries.idxOf? 0) := by
    have hid : ∀ o : Option ℕ, o.map (· + 0) = o := fun o => by cases o <;> rfl
    rw [scanSlots_eq, ← List.range_eq_range', Option.none_or, hid]
    rfl
  rw [watch, hscan]
  by_cases hzero : pid = 0
  · rw [if_pos hzero, if_pos (Or.inl hzero)]
  · by_cases hmem : pid ∈ a.entries
    · rw [if_neg hzero, if_pos hmem, if_pos (Or.inr hmem)]
    · rw [if_neg hzero, if_neg hmem, if_neg (not_or.mpr ⟨hzero, hmem⟩)]
      cases a.entries.idxOf? 0 <;> rfl

/-- **`bg_watch_pid` on the array is `bgWatchPid` on its entries.** -/
theorem entries_watch (a : WatchArray) (pid : Pid) :
    (a.watch pid).entries = bgWatchPid a.entries pid := by
  have hgrow : (WatchArray.mk (Function.update a.cells a.hi pid) (a.hi + 1)).entries =
      a.entries ++ [pid] := by
    show (List.range (a.hi + 1)).map (Function.update a.cells a.hi pid) = _
    rw [List.range_succ, List.map_append, map_range_update, List.set_eq_of_length_le,
      List.map_singleton, Function.update_self]
    · rfl
    · rw [List.length_map, List.length_range]
  rw [watch_eq, bgWatchPid, length_entries]
  split_ifs with hthere hroom
  · rfl
  · cases a.entries.idxOf? 0 with
    | some slot => exact map_range_update a.cells a.hi slot pid
    | none => exact hgrow
  · cases a.entries.idxOf? 0 with
    | some slot => exact map_range_update a.cells a.hi slot pid
    | none => rfl

theorem map_range_lowerHi (cells : ℕ → Pid) (n : ℕ) :
    (List.range (lowerHi cells n)).map cells =
      ((List.range n).map cells).rdropWhile (· = 0) := by
  induction n with
  | zero => rfl
  | succ n ih =>
    rw [lowerHi, List.range_succ, List.map_append, List.map_singleton, List.rdropWhile_concat]
    by_cases hz : cells n = 0
    · rw [if_pos hz, if_pos (decide_eq_true hz), ih]
    · rw [if_neg hz, if_neg (by simpa using hz), List.range_succ, List.map_append,
        List.map_singleton]

/-- **`bg_unwatch_pid` on the array is `bgUnwatchPid` on its entries.** -/
theorem entries_unwatch (a : WatchArray) (pid : Pid) :
    (a.unwatch pid).entries = bgUnwatchPid a.entries pid := by
  have herase : (List.range a.hi).map (a.erased pid) =
      a.entries.map (fun p => if p = pid then 0 else p) := by
    rw [entries, List.map_map]
    refine List.map_congr_left (fun i hi => ?_)
    show (if i < a.hi ∧ a.cells i = pid then 0 else a.cells i) = if a.cells i = pid then 0 else _
    simp only [List.mem_range.mp hi, true_and]
  rw [bgUnwatchPid, ← herase]
  exact map_range_lowerHi (a.erased pid) a.hi

/-! ### No pid twice, and nothing above -/

theorem Ok.update {a : WatchArray} (h : a.Ok) {slot hi : ℕ} {p : Pid} (hlt : slot < hi)
    (hle : a.hi ≤ hi) (hnew : p = 0 ∨ ∀ i, a.cells i ≠ p) :
    Ok ⟨Function.update a.cells slot p, hi⟩ := by
  refine ⟨fun i k heq hne => ?_, fun i hi' => ?_⟩
  · change Function.update a.cells slot p i = Function.update a.cells slot p k at heq
    change Function.update a.cells slot p i ≠ 0 at hne
    by_cases hi' : i = slot
    · by_cases hk : k = slot
      · omega
      · -- the written value is not 0, so it stands nowhere else
        rw [hi', Function.update_self, Function.update_of_ne hk] at heq
        rw [hi', Function.update_self] at hne
        exact absurd heq.symm (hnew.resolve_left hne k)
    · rw [Function.update_of_ne hi'] at heq hne
      by_cases hk : k = slot
      · rw [hk, Function.update_self] at heq
        rcases hnew with hz | hnew
        · exact absurd (heq.trans hz) hne
        · exact absurd heq (hnew i)
      · rw [Function.update_of_ne hk] at heq
        exact h.once i k heq hne
  · change hi ≤ i at hi'
    show Function.update a.cells slot p i = 0
    rw [Function.update_of_ne (by omega)]
    exact h.zero i (by omega)

theorem Ok.clear {a : WatchArray} (h : a.Ok) {i : ℕ} (hi : i < a.hi) : (a.clear i).Ok :=
  h.update hi (Nat.le_refl _) (.inl rfl)

theorem Ok.watch {a : WatchArray} (h : a.Ok) (pid : Pid) : (a.watch pid).Ok := by
  rw [watch_eq]
  by_cases hthere : pid = 0 ∨ pid ∈ a.entries
  · rw [if_pos hthere]
    exact h
  · rw [if_neg hthere]
    rw [not_or] at hthere
    have hnew : ∀ i, a.cells i ≠ pid := by
      intro i hi
      by_cases hlt : i < a.hi
      · exact hthere.2 (mem_entries.mpr ⟨i, hlt, hi⟩)
      · exact hthere.1 (hi ▸ h.zero i (by omega))
    cases hslot : a.entries.idxOf? 0 with
    | some slot =>
      obtain ⟨hlt, -⟩ := List.findIdx?_eq_some_iff_getElem.mp hslot
      rw [length_entries] at hlt
      exact h.update hlt (Nat.le_refl _) (.inr hnew)
    | none =>
      show (if _ then _ else _ : WatchArray).Ok
      split_ifs
      · exact h.update (Nat.lt_succ_self _) (Nat.le_succ _) (.inr hnew)
      · exact h

theorem lowerHi_zero (cells : ℕ → Pid) (n : ℕ) {i : ℕ} (hi : lowerHi cells n ≤ i) (hn : i < n) :
    cells i = 0 := by
  induction n with
  | zero => omega
  | succ n ih =>
    rw [lowerHi] at hi
    split_ifs at hi with hz
    · by_cases hin : i = n
      · rw [hin, hz]
      · exact ih hi (by omega)
    · omega

theorem Ok.unwatch {a : WatchArray} (h : a.Ok) (pid : Pid) : (a.unwatch pid).Ok := by
  have hkeep : ∀ i, a.erased pid i ≠ 0 → a.erased pid i = a.cells i := by
    intro i hne
    rw [erased] at hne ⊢
    split_ifs at hne ⊢ with hi
    · exact absurd rfl hne
    · rfl
  refine ⟨fun i k heq hne => ?_, fun i hi => ?_⟩
  · change a.erased pid i = a.erased pid k at heq
    change a.erased pid i ≠ 0 at hne
    have hk : a.erased pid k ≠ 0 := heq ▸ hne
    rw [hkeep i hne, hkeep k hk] at heq
    rw [hkeep i hne] at hne
    exact h.once i k heq hne
  · by_cases hlt : i < a.hi
    · exact lowerHi_zero _ _ hi hlt
    · show a.erased pid i = 0
      rw [erased, if_neg (fun hc => hlt hc.1)]
      exact h.zero i (by omega)

end WatchArray

/-! ### The array in a run -/

def WatchCall.runArray (a : WatchArray) : WatchCall → WatchArray
  | watch pid => a.watch pid
  | unwatch pid => a.unwatch pid

/-- What a step of the shell does to the array. -/
def trackArray (w : World) (e : Event) (a : WatchArray) : WatchArray :=
  match e with
  | .handler .iter =>
    match w.handler with
    | some i =>
      if i < a.hi ∧ w.queue.length < maxWatch ∧ a.cells i ≠ 0 ∧
          (waitpid w.children (a.cells i) true).any (fun x => x.2.terminal) then
        a.clear i
      else a
    | none => a
  | .main .call =>
    match w.calls with
    | c :: _ => c.runArray a
    | [] => a
  | .main (.snoopBegin pid) => a.unwatch pid
  | _ => a

/-- The array has the entries of the list and is as it should be. -/
structure Mirrors (w : World) (a : WatchArray) : Prop where
  entries : a.entries = w.watched
  ok : a.Ok

theorem Mirrors.getD {a : WatchArray} (h : Mirrors w a) {i : ℕ} (hi : i < a.hi) :
    w.watched.getD i 0 = a.cells i := by
  rw [← h.entries, List.getD_eq_getElem?_getD, a.getElem?_entries, if_pos hi]
  rfl

theorem Mirrors.length {a : WatchArray} (h : Mirrors w a) :
    w.watched.length = a.hi := by
  rw [← h.entries, a.length_entries]

theorem Mirrors.handlerStep {w' : World} {a : WatchArray} {e : HandlerEvent} (h : Mirrors w a)
    (hstep : handlerStep w e = some w') : Mirrors w' (trackArray w (.handler e) a) := by
  cases e with
  | enter =>
    rw [Shell.handlerStep] at hstep
    split_ifs at hstep
    cases hstep
    exact ⟨h.entries, h.ok⟩
  | iter =>
    rw [Shell.handlerStep] at hstep
    split at hstep
    · cases hstep
    · next i hi =>
      rw [trackArray, hi]
      dsimp only
      rw [h.length] at hstep
      split_ifs at hstep with hloop
      · cases hstep
        rw [handlerVisit]
        dsimp only
        rw [h.getD hloop.1]
        by_cases hzero : a.cells i = 0
        · rw [if_pos hzero, if_neg (fun hc => hc.2.2.1 hzero)]
          exact ⟨h.entries, h.ok⟩
        · rw [if_neg hzero]
          split
          · next hwait =>
            rw [hwait, if_neg (fun hc => Bool.false_ne_true hc.2.2.2)]
            exact ⟨h.entries, h.ok⟩
          · next c st hwait =>
            rw [hwait]
            cases hst : st.terminal with
            | true =>
              have hreap : i < a.hi ∧ w.queue.length < maxWatch ∧ a.cells i ≠ 0 ∧
                  (some (c, st)).any (fun x => x.2.terminal) = true :=
                ⟨hloop.1, hloop.2, hzero, hst⟩
              rw [if_pos hreap]
              refine ⟨?_, h.ok.clear hloop.1⟩
              rw [a.entries_clear, h.entries]
              rfl
            | false =>
              have hkeep : ¬ (i < a.hi ∧ w.queue.length < maxWatch ∧ a.cells i ≠ 0 ∧
                  (some (c, st)).any (fun x => x.2.terminal) = true) :=
                fun hc => Bool.false_ne_true (hst.symm.trans hc.2.2.2)
              rw [if_neg hkeep]
              exact ⟨h.entries, h.ok⟩
      · cases hstep
        rw [if_neg (fun hc => hloop ⟨hc.1, hc.2.1⟩)]
        exact ⟨h.entries, h.ok⟩

/-- **Step lemma.** -/
theorem Mirrors.step {w' : World} {a : WatchArray} {e : Event} (h : Mirrors w a)
    (hstep : step w e = some w') : Mirrors w' (trackArray w e a) := by
  cases e with
  | kernel e =>
    obtain ⟨-, rfl⟩ := kernelStep_cases hstep
    exact ⟨h.entries, h.ok⟩
  | handler e => exact h.handlerStep hstep
  | main e =>
    cases step_moves hstep with
    | @call c rest hidle hcalls =>
      rw [trackArray, hcalls]
      cases c with
      | watch pid => exact ⟨(a.entries_watch pid).trans (by rw [h.entries]; rfl), h.ok.watch pid⟩
      | unwatch pid =>
        exact ⟨(a.entries_unwatch pid).trans (by rw [h.entries]; rfl), h.ok.unwatch pid⟩
    | act hidle hcalls hact =>
      cases hact with
      | snoopBegin hpc hpid =>
        exact ⟨(a.entries_unwatch _).trans (by rw [h.entries]), h.ok.unwatch _⟩
      | _ => exact ⟨h.entries, h.ok⟩

/-- **Run lemma.** -/
theorem observe_trackArray {es : List Event} (h : exec step boot es = some w) :
    Mirrors w (observe step trackArray boot .init es) := by
  have hok : Guarded step (fun _ _ => True) boot es := guarded_of_forall (fun _ _ => trivial) _ _
  have hboot : Mirrors boot .init := ⟨rfl, WatchArray.init_ok⟩
  refine observe_invariant (I := Mirrors) (fun w a e w' hI _ hst => ?_) hboot hok h
  exact hI.step hst

end MiniOs.Shell
