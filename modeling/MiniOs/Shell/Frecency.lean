import Mathlib
import MiniOs.Lib.Loop
import MiniOs.Lib.Trace
import MiniOs.Shell.JobTable

/-!
# The frecency database of `hop`

`change_dir.c` keeps an array of visited directories, each with a score and the time of
the last visit. `record_visit` raises a score or adds an entry and then runs `age_db`,
which scales all scores down once their sum passes `ZO_MAXAGE` and drops the entries
that fall below 1; `prune_db` drops entries whose directory is gone. Both compact the
array in place.

`db[0 .. db_size)` is a list, and a `double` score an exact rational.
-/

namespace MiniOs.Shell

open Trace Loop

structure HopEntry where
  path : List Byte
  score : ℚ
  lastVisit : ℤ
  deriving DecidableEq

def maxHopEntries : ℕ := 1024

def hopPathSize : ℕ := 1024

def zoMaxage : ℚ := 10000

def pruneAgeSecs : ℤ := 90 * 24 * 3600

/-- The sum that `age_db` computes. -/
def total (db : List HopEntry) : ℚ := db.foldl (fun t e => t + e.score) 0

def HopEntry.scale (k : ℚ) (e : HopEntry) : HopEntry := { e with score := e.score / k }

def HopEntry.lasts (e : HopEntry) : Bool := 1 ≤ e.score

def ageFactor (db : List HopEntry) : ℚ := total db / (9 / 10 * zoMaxage)

def ageDb (db : List HopEntry) : List HopEntry :=
  if total db ≤ zoMaxage then db
  else compact HopEntry.lasts (db.map (HopEntry.scale (ageFactor db)))

/-- `prune_db` at the time `now`; `isDir` says which paths name a directory. -/
def pruneDb (isDir : List Byte → Bool) (now : ℤ) (db : List HopEntry) : List HopEntry :=
  compact (fun e => isDir e.path || now - e.lastVisit ≤ pruneAgeSecs) db

/-- The loop of `record_visit`, up to the call of `age_db`. -/
def raiseScore (path : List Byte) (now : ℤ) : List HopEntry → Option (List HopEntry)
  | [] => none
  | e :: db =>
    if e.path = path then some ({ e with score := e.score + 1, lastVisit := now } :: db)
    else (raiseScore path now db).map (e :: ·)

/-- The entry `record_visit` adds; `strncpy` cuts the path. -/
def newEntry (path : List Byte) (now : ℤ) : HopEntry := ⟨path.take (hopPathSize - 1), 1, now⟩

def recordVisit (db : List HopEntry) (path : List Byte) (now : ℤ) : List HopEntry :=
  match raiseScore path now db with
  | some db' => ageDb db'
  | none => if db.length < maxHopEntries then ageDb (db ++ [newEntry path now]) else db

def paths (db : List HopEntry) : List (List Byte) := db.map HopEntry.path

/-- An operation, with the time at which it runs and what `stat` answers. -/
inductive HopOp where
  | visit (path : List Byte) (now : ℤ)
  | prune (isDir : List Byte → Bool) (now : ℤ)

def hopStep (db : List HopEntry) : HopOp → Option (List HopEntry)
  | .visit path now => some (recordVisit db path now)
  | .prune isDir now => some (pruneDb isDir now db)

def HopOp.Fits : HopOp → Prop
  | .visit path _ => path.length < hopPathSize
  | .prune _ _ => True

variable {db db' : List HopEntry} {e : HopEntry} {path : List Byte} {now : ℤ}

/-! ### Sums of scores -/

theorem total_eq_sum (db : List HopEntry) : total db = (db.map HopEntry.score).sum := by
  have hacc : ∀ t : ℚ, db.foldl (fun t e => t + e.score) t = t + (db.map HopEntry.score).sum := by
    induction db with
    | nil =>
      intro t
      rw [List.map_nil, List.sum_nil, add_zero, List.foldl_nil]
    | cons e db ih =>
      intro t
      rw [List.foldl_cons, ih, List.map_cons, List.sum_cons, add_assoc]
  rw [total, hacc, zero_add]

@[simp]
theorem total_append (db db' : List HopEntry) : total (db ++ db') = total db + total db' := by
  simp only [total_eq_sum, List.map_append, List.sum_append]

@[simp]
theorem total_cons (e : HopEntry) (db : List HopEntry) : total (e :: db) = e.score + total db := by
  simp only [total_eq_sum, List.map_cons, List.sum_cons]

theorem total_scale (k : ℚ) (db : List HopEntry) :
    total (db.map (HopEntry.scale k)) = total db / k := by
  induction db with
  | nil =>
    rw [List.map_nil]
    exact (zero_div k).symm
  | cons e db ih =>
    rw [List.map_cons, total_cons, total_cons, ih, add_div]
    rfl

theorem total_sublist (h : db'.Sublist db) (hscore : ∀ e ∈ db, 0 ≤ e.score) :
    total db' ≤ total db := by
  rw [total_eq_sum, total_eq_sum]
  refine (h.map _).sum_le_sum (fun s hs => ?_)
  obtain ⟨e, he, rfl⟩ := List.mem_map.mp hs
  exact hscore e he

/-! ### What the operations do -/

theorem ageFactor_pos (h : zoMaxage < total db) : 0 < ageFactor db := by
  have hpos : (0 : ℚ) < 9 / 10 * zoMaxage := by
    unfold zoMaxage
    norm_num
  have hzero : (0 : ℚ) < zoMaxage := by
    unfold zoMaxage
    norm_num
  exact div_pos (hzero.trans h) hpos

/-- **Inversion of `age_db`.** -/
theorem ageDb_cases (db : List HopEntry) :
    total db ≤ zoMaxage ∧ ageDb db = db ∨
    zoMaxage < total db ∧
      ageDb db = (db.map (HopEntry.scale (ageFactor db))).filter HopEntry.lasts := by
  unfold ageDb
  split
  · next h => exact .inl ⟨h, rfl⟩
  · next h => exact .inr ⟨not_le.mp h, compact_eq_filter _ _⟩

theorem pruneDb_sublist (isDir : List Byte → Bool) (now : ℤ) (db : List HopEntry) :
    (pruneDb isDir now db).Sublist db := by
  rw [pruneDb, compact_eq_filter]
  exact List.filter_sublist

theorem raiseScore_eq_none (h : raiseScore path now db = none) : path ∉ paths db := by
  induction db with
  | nil => exact List.not_mem_nil
  | cons e db ih =>
    rw [raiseScore] at h
    split at h
    · cases h
    · next hne =>
      rw [paths, List.map_cons, List.mem_cons, not_or]
      exact ⟨Ne.symm hne, ih (Option.map_eq_none_iff.mp h)⟩

theorem raiseScore_eq_some (h : raiseScore path now db = some db') :
    ∃ pre e post, db = pre ++ e :: post ∧ e.path = path ∧
      db' = pre ++ { e with score := e.score + 1, lastVisit := now } :: post := by
  induction db generalizing db' with
  | nil => cases h
  | cons e db ih =>
    rw [raiseScore] at h
    split at h
    · next heq =>
      cases h
      exact ⟨[], e, db, rfl, heq, rfl⟩
    · obtain ⟨m, hm, rfl⟩ := Option.map_eq_some_iff.mp h
      obtain ⟨pre, f, post, hdb, hpath, rfl⟩ := ih hm
      exact ⟨e :: pre, f, post, congrArg (e :: ·) hdb, hpath, rfl⟩

/-- What `record_visit` hands to `age_db`: the entry of the path was raised, or a new
    entry stands at the end. -/
inductive Visited (db : List HopEntry) (path : List Byte) (now : ℤ) : List HopEntry → Prop where
  | raised {pre post : List HopEntry} {e : HopEntry} (hdb : db = pre ++ e :: post)
      (hpath : e.path = path) : Visited db path now
        (pre ++ { e with score := e.score + 1, lastVisit := now } :: post)
  | added (hnew : path ∉ paths db) (hroom : db.length < maxHopEntries) :
      Visited db path now (db ++ [newEntry path now])

/-- **Inversion of `record_visit`**: it ages what it wrote, or the array is full and
    nothing happens. -/
theorem recordVisit_cases (db : List HopEntry) (path : List Byte) (now : ℤ) :
    (∃ m, Visited db path now m ∧ recordVisit db path now = ageDb m) ∨
    path ∉ paths db ∧ maxHopEntries ≤ db.length ∧ recordVisit db path now = db := by
  unfold recordVisit
  cases hraise : raiseScore path now db with
  | some m =>
    obtain ⟨pre, e, post, hdb, hpath, rfl⟩ := raiseScore_eq_some hraise
    exact .inl ⟨_, .raised hdb hpath, rfl⟩
  | none =>
    have hnew := raiseScore_eq_none hraise
    by_cases hroom : db.length < maxHopEntries
    · exact .inl ⟨_, .added hnew hroom, if_pos hroom⟩
    · exact .inr ⟨hnew, not_lt.mp hroom, if_neg hroom⟩

theorem Visited.total_eq {m : List HopEntry} (h : Visited db path now m) :
    total m = total db + 1 := by
  have hnil : total [] = 0 := rfl
  cases h with
  | raised hdb hpath =>
    rw [hdb, total_append, total_append, total_cons, total_cons]
    ring
  | added hnew hroom =>
    rw [total_append, total_cons, hnil, add_zero]
    rfl

/-! ### The scores -/

/-- Every score is at least 1 and their sum at most `ZO_MAXAGE`. -/
structure Bounded (db : List HopEntry) : Prop where
  score : ∀ e ∈ db, 1 ≤ e.score
  total : total db ≤ zoMaxage

theorem Visited.score {m : List HopEntry} (h : Visited db path now m)
    (hdb : ∀ e ∈ db, 1 ≤ e.score) : ∀ e ∈ m, 1 ≤ e.score := by
  cases h with
  | @raised pre post e hcut hpath =>
    subst hcut
    rw [List.forall_mem_append, List.forall_mem_cons] at hdb ⊢
    refine ⟨hdb.1, ?_, hdb.2.2⟩
    show 1 ≤ e.score + 1
    linarith [hdb.2.1]
  | added hnew hroom =>
    rw [List.forall_mem_append]
    exact ⟨hdb, fun e he => List.mem_singleton.mp he ▸ le_rfl⟩

theorem bounded_ageDb (h : ∀ e ∈ db, 1 ≤ e.score) : Bounded (ageDb db) := by
  rcases ageDb_cases db with ⟨hle, heq⟩ | ⟨hlt, heq⟩
  · rw [heq]
    exact ⟨h, hle⟩
  · have hk := ageFactor_pos hlt
    have hscaled : ∀ e ∈ db.map (HopEntry.scale (ageFactor db)), 0 ≤ e.score := by
      intro e he
      obtain ⟨f, hf, rfl⟩ := List.mem_map.mp he
      exact div_nonneg (zero_le_one.trans (h f hf)) hk.le
    have hsum : total (db.map (HopEntry.scale (ageFactor db))) = 9 / 10 * zoMaxage := by
      have hpos : total db ≠ 0 := by
        unfold zoMaxage at hlt
        linarith
      rw [total_scale, ageFactor, div_div_cancel₀ hpos]
    rw [heq]
    refine ⟨fun e he => of_decide_eq_true (List.mem_filter.mp he).2, ?_⟩
    refine (total_sublist List.filter_sublist hscaled).trans ?_
    rw [hsum]
    unfold zoMaxage
    norm_num

theorem Bounded.sublist (h : Bounded db) (hsub : db'.Sublist db) : Bounded db' := by
  refine ⟨fun e he => h.score e (hsub.subset he), ?_⟩
  refine (total_sublist hsub (fun e he => ?_)).trans h.total
  exact zero_le_one.trans (h.score e he)

/-- **Step lemma** for the scores; the paths do not matter. -/
theorem Bounded.step {op : HopOp} (h : Bounded db) (hstep : hopStep db op = some db') :
    Bounded db' := by
  cases op with
  | visit path now =>
    cases hstep
    rcases recordVisit_cases db path now with ⟨m, hm, heq⟩ | ⟨-, -, heq⟩
    · rw [heq]
      exact bounded_ageDb (hm.score h.score)
    · rw [heq]
      exact h
  | prune isDir now =>
    cases hstep
    exact h.sublist (pruneDb_sublist isDir now db)

theorem bounded_nil : Bounded [] := by
  refine ⟨(fun e he => nomatch he), ?_⟩
  show (0 : ℚ) ≤ zoMaxage
  unfold zoMaxage
  norm_num

/-- **Run lemma** for the scores. -/
theorem exec_bounded {ops : List HopOp} (h : exec hopStep [] ops = some db) : Bounded db :=
  exec_invariant (fun _ _ _ hI hstep => hI.step hstep) bounded_nil h

/-! ### A visit is recorded -/

def RecordedAt (db : List HopEntry) (path : List Byte) (now : ℤ) : Prop :=
  ∃ e ∈ db, e.path = path ∧ e.lastVisit = now

instance (db : List HopEntry) (path : List Byte) (now : ℤ) : Decidable (RecordedAt db path now) :=
  inferInstanceAs (Decidable (∃ e ∈ db, _))

/-- Aging divides by a number below 2 when one visit made it necessary, so an entry with
    score 2 stays. -/
theorem lasts_scale (htotal : total db ≤ zoMaxage + 1) (hlt : zoMaxage < total db)
    (hscore : 2 ≤ e.score) : (e.scale (ageFactor db)).lasts = true := by
  refine decide_eq_true ?_
  show 1 ≤ e.score / ageFactor db
  rw [le_div_iff₀ (ageFactor_pos hlt), one_mul]
  refine le_trans ?_ hscore
  unfold ageFactor zoMaxage at *
  linarith

theorem not_lasts_scale (hlt : zoMaxage < total db) (hscore : e.score = 1) :
    (e.scale (ageFactor db)).lasts = false := by
  refine decide_eq_false ?_
  show ¬ 1 ≤ e.score / ageFactor db
  rw [le_div_iff₀ (ageFactor_pos hlt), one_mul, hscore]
  unfold ageFactor zoMaxage at *
  linarith

theorem recordedAt_raised (h : Bounded db) {pre post : List HopEntry}
    (hdb : db = pre ++ e :: post) (hpath : e.path = path) :
    RecordedAt (ageDb (pre ++ { e with score := e.score + 1, lastVisit := now } :: post))
      path now := by
  have hm : Visited db path now
      (pre ++ { e with score := e.score + 1, lastVisit := now } :: post) := .raised hdb hpath
  have hmem : e ∈ db := by
    rw [hdb]
    exact List.mem_append_right pre List.mem_cons_self
  have hscore := h.score e hmem
  set m := pre ++ { e with score := e.score + 1, lastVisit := now } :: post
  have hraised : { e with score := e.score + 1, lastVisit := now } ∈ m :=
    List.mem_append_right pre List.mem_cons_self
  rcases ageDb_cases m with ⟨-, heq⟩ | ⟨hlt, heq⟩
  · rw [heq]
    exact ⟨_, hraised, hpath, rfl⟩
  · rw [heq]
    refine ⟨_, List.mem_filter.mpr ⟨List.mem_map_of_mem hraised, ?_⟩, hpath, rfl⟩
    refine lasts_scale ?_ hlt ?_
    · rw [hm.total_eq]
      linarith [h.total]
    · show 2 ≤ e.score + 1
      linarith

theorem path_newEntry (hlen : path.length < hopPathSize) : (newEntry path now).path = path :=
  List.take_of_length_le (Nat.le_sub_one_of_lt hlen)

theorem not_mem_paths_added (hnew : path ∉ paths db)
    (hlt : zoMaxage < total (db ++ [newEntry path now])) :
    path ∉ paths (ageDb (db ++ [newEntry path now])) := by
  rcases ageDb_cases (db ++ [newEntry path now]) with ⟨hle, -⟩ | ⟨-, heq⟩
  · exact absurd hlt (not_lt.mpr hle)
  · rw [heq]
    intro hmem
    obtain ⟨f, hf, hpath⟩ := List.mem_map.mp hmem
    obtain ⟨hf, hlasts⟩ := List.mem_filter.mp hf
    obtain ⟨g, hg, rfl⟩ := List.mem_map.mp hf
    rcases List.mem_append.mp hg with hg | hg
    · -- another entry would have the path
      have hgpath : g.path = path := hpath
      exact hnew (hgpath ▸ List.mem_map_of_mem hg)
    · cases List.mem_singleton.mp hg
      rw [not_lasts_scale hlt rfl] at hlasts
      cases hlasts

theorem RecordedAt.mem_paths (h : RecordedAt db path now) : path ∈ paths db := by
  obtain ⟨e, he, rfl, -⟩ := h
  exact List.mem_map_of_mem he

/-- A path that is not in the database is recorded unless the visit makes the database
    age. -/
theorem recordedAt_added_iff (hnew : path ∉ paths db) (hroom : db.length < maxHopEntries)
    (hlen : path.length < hopPathSize) :
    RecordedAt (ageDb (db ++ [newEntry path now])) path now ↔ total db ≤ zoMaxage - 1 := by
  have htotal : total (db ++ [newEntry path now]) = total db + 1 :=
    (Visited.added hnew hroom).total_eq
  by_cases hle : total (db ++ [newEntry path now]) ≤ zoMaxage
  · rw [ageDb, if_pos hle]
    refine iff_of_true ⟨_, List.mem_append_right db List.mem_cons_self, path_newEntry hlen, rfl⟩ ?_
    linarith
  · refine iff_of_false (fun hrec => ?_) (not_le.mpr (by linarith))
    exact not_mem_paths_added hnew (not_le.mp hle) hrec.mem_paths

/-- **When a visit is recorded.** In every database that visits and prunings lead to, if
    the path is there or there is room for it, then after `record_visit` it is there with
    the time of the visit exactly if it was there before or the scores summed to at most
    `ZO_MAXAGE - 1`. -/
theorem record_visit_present_iff {ops : List HopOp} (h : exec hopStep [] ops = some db)
    (hlen : path.length < hopPathSize)
    (hroom : path ∈ paths db ∨ db.length < maxHopEntries) (now : ℤ) :
    RecordedAt (recordVisit db path now) path now ↔
      path ∈ paths db ∨ total db ≤ zoMaxage - 1 := by
  have hbounded := exec_bounded h
  rcases recordVisit_cases db path now with ⟨m, hm, heq⟩ | ⟨hnew, hfull, -⟩
  · rw [heq]
    cases hm with
    | @raised pre post e hdb hpath =>
      refine iff_of_true (recordedAt_raised hbounded hdb hpath) (.inl ?_)
      rw [hdb, ← hpath]
      exact List.mem_map_of_mem (List.mem_append_right pre List.mem_cons_self)
    | added hnew hroom => rw [recordedAt_added_iff hnew hroom hlen, or_iff_right hnew]
  · rcases hroom with hmem | hlt
    · exact absurd hmem hnew
    · exact absurd hlt (not_lt.mpr hfull)

theorem exec_visits (path : List Byte) (hlen : path.length < hopPathSize) (now : ℤ) (n : ℕ)
    (hn : n < 10000) :
    exec hopStep [] (List.replicate (n + 1) (.visit path now)) = some [⟨path, n + 1, now⟩] := by
  induction n with
  | zero =>
    have hage : ageDb [newEntry path now] = [newEntry path now] := by
      refine if_pos ?_
      show (0 : ℚ) + 1 ≤ zoMaxage
      unfold zoMaxage
      norm_num
    have hpath : path.take (hopPathSize - 1) = path :=
      List.take_of_length_le (Nat.le_sub_one_of_lt hlen)
    show some (ageDb [newEntry path now]) = _
    rw [hage, newEntry, hpath]
    norm_num
  | succ n ih =>
    have hage : ageDb [⟨path, n + 1 + 1, now⟩] = [⟨path, n + 1 + 1, now⟩] := by
      refine if_pos ?_
      have hle : (n : ℚ) + 1 + 1 ≤ 10000 := by
        exact_mod_cast hn
      show (0 : ℚ) + (n + 1 + 1) ≤ zoMaxage
      unfold zoMaxage
      linarith
    have hstep : hopStep [⟨path, n + 1, now⟩] (.visit path now) =
        some [⟨path, n + 1 + 1, now⟩] := by
      rw [hopStep, recordVisit, raiseScore, if_pos rfl]
      exact congrArg some hage
    rw [List.replicate_succ', exec_concat_eq_some]
    refine ⟨_, ih (Nat.lt_of_succ_lt hn), ?_⟩
    rw [hstep]
    norm_num

/-- **A visit is forgotten at once**: after 10000 visits to one directory the first visit
    to another one makes the database age, and the new entry is the one that is dropped. -/
theorem first_visit_forgotten :
    ∃ db, exec hopStep [] (List.replicate 10000 (.visit (ascii "/a") 0)) = some db ∧
      db.length < maxHopEntries ∧ ascii "/b" ∉ paths (recordVisit db (ascii "/b") 1) ∧
      ¬ RecordedAt (recordVisit db (ascii "/b") 1) (ascii "/b") 1 := by
  have hrun := exec_visits (ascii "/a") (by decide) 0 9999 (by norm_num)
  have hnew : ascii "/b" ∉ paths [⟨ascii "/a", (9999 : ℕ) + 1, 0⟩] := by decide
  have hlt : zoMaxage < total ([⟨ascii "/a", (9999 : ℕ) + 1, 0⟩] ++ [newEntry (ascii "/b") 1]) := by
    rw [(Visited.added hnew (by decide)).total_eq]
    show zoMaxage < (0 + ((9999 : ℕ) + 1)) + 1
    unfold zoMaxage
    norm_num
  have hgone := not_mem_paths_added hnew hlt
  exact ⟨_, hrun, by decide, hgone, fun hrec => hgone hrec.mem_paths⟩

theorem record_visit_present_again :
    ∃ db, exec hopStep [] (List.replicate 1 (.visit (ascii "/a") 0)) = some db ∧
      RecordedAt (recordVisit db (ascii "/a") 1) (ascii "/a") 1 := by
  have hrun := exec_visits (ascii "/a") (by decide) 0 0 (by norm_num)
  have hmem : ascii "/a" ∈ paths [⟨ascii "/a", (0 : ℕ) + 1, 0⟩] := List.mem_cons_self
  exact ⟨_, hrun, (record_visit_present_iff hrun (by decide) (.inl hmem) 1).mpr (.inl hmem)⟩

/-! ### The invariant of the database -/

/-- **The invariant.** -/
structure HopInv (db : List HopEntry) : Prop extends Bounded db where
  distinct : (paths db).Nodup
  size : db.length ≤ maxHopEntries

theorem paths_ageDb_sublist (db : List HopEntry) : (paths (ageDb db)).Sublist (paths db) := by
  rcases ageDb_cases db with ⟨-, heq⟩ | ⟨-, heq⟩
  · rw [heq]
  · have hscale : paths (db.map (HopEntry.scale (ageFactor db))) = paths db := by
      rw [paths, List.map_map]
      rfl
    rw [heq, ← hscale]
    exact List.filter_sublist.map _

theorem Visited.paths_eq {m : List HopEntry} (h : Visited db path now m)
    (hlen : path.length < hopPathSize) :
    paths m = paths db ∨ path ∉ paths db ∧ db.length < maxHopEntries ∧
      paths m = paths db ++ [path] := by
  cases h with
  | raised hdb hpath =>
    left
    rw [hdb, paths, paths, List.map_append, List.map_append]
    rfl
  | added hnew hroom =>
    right
    refine ⟨hnew, hroom, ?_⟩
    rw [paths, List.map_append, List.map_singleton, path_newEntry hlen]
    rfl

/-- What an operation does to the paths: some go, and a visit may add one at the end. -/
theorem paths_step {op : HopOp} (hfits : op.Fits) (hstep : hopStep db op = some db') :
    (paths db').Sublist (paths db) ∨ ∃ path, path ∉ paths db ∧ db.length < maxHopEntries ∧
      (paths db').Sublist (paths db ++ [path]) := by
  cases op with
  | visit path now =>
    cases hstep
    rcases recordVisit_cases db path now with ⟨m, hm, heq⟩ | ⟨-, -, heq⟩
    · have hsub := paths_ageDb_sublist m
      rw [← heq] at hsub
      rcases hm.paths_eq hfits with hpaths | ⟨hnew, hroom, hpaths⟩
      · exact .inl (hpaths ▸ hsub)
      · exact .inr ⟨path, hnew, hroom, hpaths ▸ hsub⟩
    · rw [heq]
      exact .inl (List.Sublist.refl _)
  | prune isDir now =>
    cases hstep
    exact .inl ((pruneDb_sublist isDir now db).map _)

/-- **Step lemma.** -/
theorem HopInv.step {op : HopOp} (h : HopInv db) (hfits : op.Fits)
    (hstep : hopStep db op = some db') : HopInv db' := by
  have hlength : ∀ db : List HopEntry, (paths db).length = db.length := fun db => List.length_map _
  refine ⟨h.toBounded.step hstep, ?_, ?_⟩
  · rcases paths_step hfits hstep with hsub | ⟨path, hnew, -, hsub⟩
    · exact h.distinct.sublist hsub
    · refine (List.nodup_append.mpr ⟨h.distinct, List.nodup_singleton path, ?_⟩).sublist hsub
      intro p hp q hq hpq
      cases List.mem_singleton.mp hq
      exact hnew (hpq ▸ hp)
  · rw [← hlength]
    rcases paths_step hfits hstep with hsub | ⟨path, -, hroom, hsub⟩
    · exact (hsub.length_le.trans (hlength db).le).trans h.size
    · refine hsub.length_le.trans ?_
      rw [List.length_append, hlength, List.length_singleton]
      exact hroom

/-- **Run lemma.** -/
theorem exec_hopInv {ops : List HopOp} (hfits : ∀ op ∈ ops, op.Fits)
    (h : exec hopStep [] ops = some db) : HopInv db := by
  have hnil : HopInv [] := ⟨bounded_nil, List.nodup_nil, Nat.zero_le _⟩
  exact exec_invariant_of_guarded (fun _ _ _ hI hok hstep => hI.step hok hstep) hnil
    (guarded_of_forall_mem (fun op hop _ => hfits op hop) []) h

theorem paths_step_order {op : HopOp} (hfits : op.Fits) (hstep : hopStep db op = some db') :
    ((paths db').filter (fun p => p ∈ paths db)).Sublist (paths db) := by
  rcases paths_step hfits hstep with hsub | ⟨path, hnew, -, hsub⟩
  · exact List.filter_sublist.trans hsub
  · have hfilter := hsub.filter (fun p => p ∈ paths db)
    rw [List.filter_append, List.filter_cons_of_neg (by simpa using hnew), List.filter_nil,
      List.append_nil] at hfilter
    exact hfilter.trans List.filter_sublist

theorem ageDb_score (db : List HopEntry) :
    ∃ k : ℚ, 0 < k ∧ ∀ a ∈ ageDb db, ∃ e ∈ db, a.path = e.path ∧ a.score = e.score / k := by
  rcases ageDb_cases db with ⟨-, heq⟩ | ⟨hlt, heq⟩
  · refine ⟨1, one_pos, fun a ha => ⟨a, heq ▸ ha, rfl, (div_one _).symm⟩⟩
  · refine ⟨ageFactor db, ageFactor_pos hlt, fun a ha => ?_⟩
    rw [heq] at ha
    obtain ⟨e, he, rfl⟩ := List.mem_map.mp (List.mem_filter.mp ha).1
    exact ⟨e, he, rfl, rfl⟩

theorem ageDb_score_lt_iff (hdistinct : (paths db).Nodup) {a b a' b' : HopEntry} (ha : a ∈ db)
    (hb : b ∈ db) (ha' : a' ∈ ageDb db) (hb' : b' ∈ ageDb db) (hpa : a'.path = a.path)
    (hpb : b'.path = b.path) : a'.score < b'.score ↔ a.score < b.score := by
  obtain ⟨k, hk, hscore⟩ := ageDb_score db
  have hdiv : ∀ {e e' : HopEntry}, e ∈ db → e' ∈ ageDb db → e'.path = e.path →
      e'.score = e.score / k := by
    intro e e' he he' hpath
    obtain ⟨f, hf, hfpath, hfscore⟩ := hscore e' he'
    have heq : f = e := List.inj_on_of_nodup_map hdistinct hf he (hfpath.symm.trans hpath)
    rw [hfscore, heq]
  rw [hdiv ha ha' hpa, hdiv hb hb' hpb, div_lt_div_iff_of_pos_right hk]

/-- **The frecency database.** After every sequence of visits and prunings the paths are
    distinct, there are at most `MAX_HOP_ENTRIES`, every score is at least 1 and their sum
    at most `ZO_MAXAGE`. The entries that the next operation keeps stay in their order,
    and `age_db`, whatever it is called with, keeps the order of their scores. -/
theorem hop_db_invariant {ops : List HopOp} (hfits : ∀ op ∈ ops, op.Fits)
    (h : exec hopStep [] ops = some db) :
    (paths db).Nodup ∧ db.length ≤ maxHopEntries ∧ (∀ e ∈ db, 1 ≤ e.score) ∧
    total db ≤ zoMaxage ∧
    (∀ op db', op.Fits → hopStep db op = some db' →
      ((paths db').filter (fun p => p ∈ paths db)).Sublist (paths db)) ∧
    ∀ m, (paths m).Nodup → (paths (ageDb m)).Sublist (paths m) ∧
      ∀ a ∈ m, ∀ b ∈ m, ∀ a' ∈ ageDb m, ∀ b' ∈ ageDb m, a'.path = a.path → b'.path = b.path →
        (a'.score < b'.score ↔ a.score < b.score) := by
  have hinv := exec_hopInv hfits h
  refine ⟨hinv.distinct, hinv.size, hinv.score, hinv.total, ?_, ?_⟩
  · exact fun op db' hop hstep => paths_step_order hop hstep
  · intro m hm
    refine ⟨paths_ageDb_sublist m, ?_⟩
    intro a ha b hb a' ha' b' hb' hpa hpb
    exact ageDb_score_lt_iff hm ha hb ha' hb' hpa hpb

theorem hop_db_invariant_full :
    ∃ db, exec hopStep [] (List.replicate 10000 (.visit (ascii "/a") 0)) = some db ∧
      total db ≤ zoMaxage := by
  have hrun := exec_visits (ascii "/a") (by decide) 0 9999 (by norm_num)
  have hfits : ∀ op ∈ List.replicate 10000 (.visit (ascii "/a") 0), HopOp.Fits op := by
    intro op hop
    cases List.eq_of_mem_replicate hop
    show (ascii "/a").length < hopPathSize
    decide
  exact ⟨_, hrun, (hop_db_invariant hfits hrun).2.2.2.1⟩

end MiniOs.Shell
