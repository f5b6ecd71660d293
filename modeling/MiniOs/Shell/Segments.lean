import MiniOs.Shell.Argv
import MiniOs.Shell.Sequence

/-!
# Pipeline segments and redirections

`execute_pipeline` and `execute_pipeline_bg` cut a group at its pipes into arrays of
start and end pointers. The tokens of a segment are then walked by six loops: two
build the `argv`, and `redirs_validate`, `redirs_open`, the feeder and the tee look
for redirections. The loops end at the end pointer, at `is_redir_end` or at a null
`t->next`, and some skip a token inside their body.
-/

namespace MiniOs.Shell

/-! ### The segment arrays -/

/-- `n_cmds`, `seg_starts` and `seg_ends`. The arrays are filled from index 0 on
    without gaps. -/
structure SegArrays where
  nCmds : ℕ
  starts : List (List Token)
  ends : List (List Token)
  deriving DecidableEq, Repr

section Arrays

variable (stop : TokenType → Prop) [DecidablePred stop]

def countCmds : List Token → ℕ
  | [] => 1
  | t :: l =>
    if stop t.type then 1
    else if t.type = .opPipe then countCmds l + 1
    else countCmds l

/-- The loop that fills the arrays. -/
def segLoop (starts ends : List (List Token)) : List Token → List (List Token) × List (List Token)
  | [] => (starts, ends ++ [[]])
  | t :: l =>
    if stop t.type then (starts, ends ++ [t :: l])
    else if t.type = .opPipe then segLoop (starts ++ [l]) (ends ++ [t :: l]) l
    else segLoop starts ends l

def segArrays (start : List Token) : SegArrays :=
  let (starts, ends) := segLoop stop [start] [] start
  ⟨countCmds stop start, starts, ends⟩

end Arrays

def executePipelineSegs : List Token → SegArrays := segArrays TokenType.EndsGroup

def executePipelineBgSegs : List Token → SegArrays := segArrays (· = .opAmp)

/-! ### The redirection loops -/

def isRedirEnd (stop : List Token) : List Token → Bool
  | [] => true
  | t :: l => t :: l = stop || t.type = .opSemi || t.type = .opAmp

/-- The result of `redirs_validate`, what it prints on `stderr`, and the targets it
    opened or tried to open, each with its operator. -/
structure Validation where
  ret : Int
  err : List String
  opened : List (TokenType × Token)
  deriving DecidableEq, Repr

/-- A target was opened before the rest. -/
def Validation.after (op : TokenType) (w : Token) (v : Validation) : Validation :=
  { v with opened := (op, w) :: v.opened }

/-- The message for a target that cannot be opened. -/
def openError (op : TokenType) : String :=
  if op = .opLt then "cshell: no such file or directory"
  else "cshell: unable to create file for writing"

/-- `redirs_validate`. The `n`-th `open` succeeds if `canOpen n`. -/
def redirsValidate (canOpen : ℕ → Bool) (stop : List Token) (n : ℕ) : List Token → Validation
  | [] => ⟨1, [], []⟩
  | t :: l =>
    if isRedirEnd stop (t :: l) then ⟨1, [], []⟩
    else if t.type = .opLt then
      match l with
      | [] => ⟨0, [], []⟩
      | w :: l' =>
        if isRedirEnd stop (w :: l') ∨ w.type ≠ .word then ⟨0, [], []⟩
        else if canOpen n then (redirsValidate canOpen stop (n + 1) l').after .opLt w
        else ⟨0, [openError .opLt], [(.opLt, w)]⟩
    else if t.type = .opGt ∨ t.type = .opGtgt then
      match l with
      | [] => ⟨0, [], []⟩
      | w :: l' =>
        if isRedirEnd stop (w :: l') ∨ w.type ≠ .word then ⟨0, [], []⟩
        else if canOpen n then (redirsValidate canOpen stop (n + 1) l').after t.type w
        else ⟨0, [openError t.type], [(t.type, w)]⟩
    else redirsValidate canOpen stop n l

/-- What the counting loop of `redirs_open` computes. `last_out` points at the
    operator, which is kept as its type with the token behind it. -/
structure RedirCounts where
  nIn : ℕ
  nOut : ℕ
  lastIn : Option Token
  lastOut : Option (TokenType × Token)
  deriving DecidableEq, Repr

/-- The counting loop of `redirs_open`. -/
def countRedirs (stop : List Token) (c : RedirCounts) : List Token → RedirCounts
  | [] => c
  | t :: l =>
    if isRedirEnd stop (t :: l) then c
    else
      match l with
      | [] => c
      | w :: l' =>
        if t.type = .opLt then countRedirs stop { c with nIn := c.nIn + 1, lastIn := some w } l'
        else if t.type = .opGt ∨ t.type = .opGtgt then
          countRedirs stop { c with nOut := c.nOut + 1, lastOut := some (t.type, w) } l'
        else countRedirs stop c (w :: l')

/-- The state of the counting loop at its start. -/
def RedirCounts.zero : RedirCounts := ⟨0, 0, none, none⟩

/-- The files that the feeder of `spawn_feeder` opens. -/
def feederScan (stop : List Token) : List Token → List Token
  | [] => []
  | t :: l =>
    if isRedirEnd stop (t :: l) then []
    else if t.type ≠ .opLt then feederScan stop l
    else
      match l with
      | [] => []
      | w :: l' => if isRedirEnd stop (w :: l') then [] else w :: feederScan stop l'

/-- The files that the tee of `spawn_tee` opens, `fds[k]` on. -/
def teeScan (stop : List Token) (nOut k : ℕ) : List Token → List (TokenType × Token)
  | [] => []
  | t :: l =>
    if isRedirEnd stop (t :: l) ∨ nOut ≤ k then []
    else if t.type ≠ .opGt ∧ t.type ≠ .opGtgt then teeScan stop nOut k l
    else
      match l with
      | [] => []
      | w :: l' =>
        if isRedirEnd stop (w :: l') then [] else (t.type, w) :: teeScan stop nOut (k + 1) l'

/-! ### What a token is -/

/-- The part a token plays in a segment. -/
inductive Role where
  | arg
  | target (op : TokenType)
  | operator
  deriving DecidableEq, Repr

def roleOf (prev : Option TokenType) (t : Token) : Role :=
  if t.type = .word then
    match prev with
    | none => .arg
    | some op => if op.IsRedir then .target op else .arg
  else .operator

def roles : Option TokenType → List Token → List (Role × Token)
  | _, [] => []
  | prev, t :: l => (roleOf prev t, t) :: roles (some t.type) l

/-- The string of a token that is an argument. -/
def argOf : Role × Token → Option (List Byte)
  | (.arg, t) => some t.value
  | _ => none

def targetOf : Role × Token → Option (TokenType × Token)
  | (.target op, t) => some (op, t)
  | _ => none

/-- The redirection targets of a segment, each with its operator. -/
def targets (seg : List Token) : List (TokenType × Token) := (roles none seg).filterMap targetOf

/-- The operator reads a file. -/
def isInput (r : TokenType × Token) : Bool := r.1 = .opLt

variable {t w : Token} {l g seg rest post stop : List Token} {prev : Option TokenType}

theorem roles_tokens (prev : Option TokenType) (l : List Token) : (roles prev l).map (·.2) = l := by
  induction l generalizing prev with
  | nil => rfl
  | cons t l ih => rw [roles, List.map_cons, ih]

theorem roles_exclusive (prev : Option TokenType) (l : List Token) :
    ∀ x ∈ roles prev l, x.2.type = .word → (argOf x).isSome = !(targetOf x).isSome := by
  induction l generalizing prev with
  | nil => simp [roles]
  | cons t l ih =>
    refine List.forall_mem_cons.mpr ⟨fun ht => ?_, ih (some t.type)⟩
    have hrole : roleOf prev t = .arg ∨ ∃ op, roleOf prev t = .target op := by
      rw [roleOf.eq_def, if_pos ht]
      cases prev with
      | none => exact Or.inl rfl
      | some op =>
        by_cases hop : op.IsRedir
        · exact Or.inr ⟨op, if_pos hop⟩
        · exact Or.inl (if_neg hop)
    rcases hrole with h | ⟨op, h⟩ <;> rw [h] <;> rfl

/-- Behind a word the next token has the same role as at the start. -/
theorem roles_some_word (l : List Token) : roles (some .word) l = roles none l := by
  cases l with
  | nil => rfl
  | cons t l =>
    have h : roleOf (some .word) t = roleOf none t := by
      unfold roleOf
      split
      · exact if_neg (by decide)
      · rfl
    rw [roles, roles, h]

theorem roles_word (ht : t.type = .word) : roles none (t :: l) = (.arg, t) :: roles none l := by
  rw [roles, ht, roles_some_word, roleOf, if_pos ht]

theorem roles_redir (ht : t.type.IsRedir) (hw : w.type = .word) :
    roles none (t :: w :: l) = (.operator, t) :: (.target t.type, w) :: roles none l := by
  have hne : t.type ≠ .word := fun h => not_redir_of_word h ht
  rw [roles, roles, hw, roles_some_word, roleOf, if_neg hne, roleOf, if_pos hw]
  simp only [if_pos ht]

theorem targets_word (ht : t.type = .word) : targets (t :: l) = targets l := by
  rw [targets, roles_word ht]
  rfl

theorem targets_redir (ht : t.type.IsRedir) (hw : w.type = .word) :
    targets (t :: w :: l) = (t.type, w) :: targets l := by
  rw [targets, roles_redir ht hw]
  rfl

theorem args_eq_roles (hg : ArgTail g) : args g = (roles none g).filterMap argOf := by
  induction hg with
  | nil => rfl
  | word ht hl ih =>
    rw [args_word ht, roles_word ht, ih]
    rfl
  | redir ht hw hl ih =>
    rw [args_redir ht, roles_redir ht hw, ih]
    rfl

/-! ### The loops on one segment -/

/-- A loop with the end test `atEnd` covers `g` and stops at `post`. -/
structure Covers (atEnd : List Token → Bool) (g post : List Token) : Prop where
  inside : ∀ l t l', g = l ++ t :: l' → atEnd (t :: (l' ++ post)) = false
  stops : atEnd post = true

theorem Covers.tail {atEnd : List Token → Bool} (h : Covers atEnd (t :: g) post) :
    Covers atEnd g post :=
  ⟨fun l t' l' hg => h.inside (t :: l) t' l' (by rw [hg, List.cons_append]), h.stops⟩

theorem Covers.head {atEnd : List Token → Bool} (h : Covers atEnd (t :: g) post) :
    atEnd (t :: (g ++ post)) = false := h.inside [] t g rfl

/-- `is_redir_end` holds behind a segment, with its end pointer or, at the end of the
    group, with a null pointer. -/
theorem covers_isRedirEnd (hg : ∀ t ∈ g, ¬ t.type.EndsGroup)
    (hstop : stop = post ∨ stop = [] ∧ ∀ t ∈ post.head?, t.type.EndsGroup) :
    Covers (isRedirEnd stop) g post := by
  constructor
  · intro l t l' h
    have ht : ¬ t.type.EndsGroup := hg t (by rw [h]; simp)
    unfold TokenType.EndsGroup at ht
    rw [not_or] at ht
    have hne : t :: (l' ++ post) ≠ stop := by
      rcases hstop with rfl | ⟨rfl, -⟩
      · intro h
        have hlen := congrArg List.length h
        simp only [List.length_cons, List.length_append] at hlen
        omega
      · exact List.cons_ne_nil _ _
    simp [isRedirEnd, hne, ht]
  · cases post with
    | nil => rfl
    | cons s post =>
      rcases hstop with rfl | ⟨-, hs⟩
      · simp [isRedirEnd]
      · rcases hs s rfl with hs | hs <;> simp [isRedirEnd, hs]

theorem TokenType.IsRedir.cases {op : TokenType} (h : op.IsRedir) :
    op = .opLt ∨ op ≠ .opLt ∧ (op = .opGt ∨ op = .opGtgt) := by
  rcases h with h | h | h <;> simp [h]

/-- Opening the targets one by one, until one cannot be opened. -/
def validateTargets (canOpen : ℕ → Bool) (n : ℕ) : List (TokenType × Token) → Validation
  | [] => ⟨1, [], []⟩
  | (op, w) :: ts =>
    if canOpen n then (validateTargets canOpen (n + 1) ts).after op w
    else ⟨0, [openError op], [(op, w)]⟩

theorem redirsValidate_eq (hg : ArgTail g) (hc : Covers (isRedirEnd stop) g post)
    (canOpen : ℕ → Bool) (n : ℕ) :
    redirsValidate canOpen stop n (g ++ post) = validateTargets canOpen n (targets g) := by
  induction hg generalizing n with
  | nil =>
    have hend := hc.stops
    cases post with
    | nil => rfl
    | cons s post =>
      rw [List.nil_append, redirsValidate.eq_def]
      simp [hend, targets, roles, validateTargets]
  | @word t g ht hl ih =>
    rw [List.cons_append, redirsValidate.eq_def, targets_word ht]
    simp [ht, hc.head, ih hc.tail]
  | @redir t w g ht hw hl ih =>
    have hhead : isRedirEnd stop (t :: w :: (g ++ post)) = false := hc.head
    rw [List.cons_append, List.cons_append, redirsValidate.eq_def, targets_redir ht hw,
      validateTargets]
    rcases ht.cases with hlt | ⟨hne, hgt⟩
    · simp [hhead, hlt, hw, hc.tail.head, ih hc.tail.tail]
    · simp [hhead, hne, hgt, hw, hc.tail.head, ih hc.tail.tail]

/-- One target seen by the counting loop. -/
def RedirCounts.add (c : RedirCounts) (r : TokenType × Token) : RedirCounts :=
  if isInput r then { c with nIn := c.nIn + 1, lastIn := some r.2 }
  else { c with nOut := c.nOut + 1, lastOut := some r }

theorem countRedirs_eq (hg : ArgTail g) (hc : Covers (isRedirEnd stop) g post) (c : RedirCounts) :
    countRedirs stop c (g ++ post) = (targets g).foldl RedirCounts.add c := by
  induction hg generalizing c with
  | nil =>
    have hend := hc.stops
    cases post with
    | nil => rfl
    | cons s post =>
      rw [List.nil_append, countRedirs.eq_def]
      simp [hend, targets, roles]
  | @word t g ht hl ih =>
    have hhead := hc.head
    rw [List.cons_append, targets_word ht, ← ih hc.tail, countRedirs.eq_def]
    generalize g ++ post = l at hhead ⊢
    cases l <;> simp [ht, hhead, countRedirs]
  | @redir t w g ht hw hl ih =>
    have hhead : isRedirEnd stop (t :: w :: (g ++ post)) = false := hc.head
    rw [List.cons_append, List.cons_append, countRedirs.eq_def, targets_redir ht hw,
      List.foldl_cons]
    rcases ht.cases with hlt | ⟨hne, hgt⟩
    · simp [hhead, hlt, RedirCounts.add, isInput, ih hc.tail.tail]
    · simp [hhead, hne, hgt, RedirCounts.add, isInput, ih hc.tail.tail]

theorem feederScan_eq (hg : ArgTail g) (hc : Covers (isRedirEnd stop) g post) :
    feederScan stop (g ++ post) = ((targets g).filter isInput).map (·.2) := by
  induction hg with
  | nil =>
    have hend := hc.stops
    cases post with
    | nil => rfl
    | cons s post =>
      rw [List.nil_append, feederScan.eq_def]
      simp [hend, targets, roles]
  | @word t g ht hl ih =>
    rw [List.cons_append, feederScan.eq_def, targets_word ht]
    simp [ht, hc.head, ih hc.tail]
  | @redir t w g ht hw hl ih =>
    have hhead : isRedirEnd stop (t :: w :: (g ++ post)) = false := hc.head
    have hskip : feederScan stop (w :: (g ++ post)) = feederScan stop (g ++ post) := by
      rw [feederScan.eq_def]
      simp [hw, hc.tail.head]
    rw [List.cons_append, List.cons_append, feederScan.eq_def, targets_redir ht hw]
    rcases ht.cases with hlt | ⟨hne, hgt⟩
    · simp [hhead, hlt, hc.tail.head, isInput, ih hc.tail.tail]
    · simp [hhead, hne, isInput, hskip, ih hc.tail.tail]

theorem teeScan_full (stop : List Token) {nOut k : ℕ} (h : nOut ≤ k) (l : List Token) :
    teeScan stop nOut k l = [] := by
  cases l with
  | nil => rfl
  | cons t l =>
    rw [teeScan.eq_def]
    simp [h]

theorem teeScan_eq (hg : ArgTail g) (hc : Covers (isRedirEnd stop) g post) (nOut k : ℕ) :
    teeScan stop nOut k (g ++ post) =
      ((targets g).filter (fun r => ¬ isInput r)).take (nOut - k) := by
  by_cases hk : nOut ≤ k
  · rw [teeScan_full stop hk, Nat.sub_eq_zero_of_le hk, List.take_zero]
  rw [not_le] at hk
  induction hg generalizing k with
  | nil =>
    have hend := hc.stops
    cases post with
    | nil => simp [teeScan, targets, roles]
    | cons s post =>
      rw [List.nil_append, teeScan.eq_def]
      simp [hend, targets, roles]
  | @word t g ht hl ih =>
    rw [List.cons_append, teeScan.eq_def, targets_word ht, ← ih hc.tail k hk]
    simp [ht, hc.head, hk]
  | @redir t w g ht hw hl ih =>
    have hhead : isRedirEnd stop (t :: w :: (g ++ post)) = false := hc.head
    have hskip : teeScan stop nOut k (w :: (g ++ post)) = teeScan stop nOut k (g ++ post) := by
      rw [teeScan.eq_def]
      simp [hw, hc.tail.head, hk]
    rw [List.cons_append, List.cons_append, teeScan.eq_def, targets_redir ht hw]
    rcases ht.cases with hlt | ⟨hne, hgt⟩
    · simp [hhead, hlt, hk, isInput, hskip, ih hc.tail.tail k hk]
    · have hrest : teeScan stop nOut (k + 1) (g ++ post) =
          ((targets g).filter (fun r => ¬ isInput r)).take (nOut - (k + 1)) := by
        by_cases hfull : nOut ≤ k + 1
        · rw [teeScan_full stop hfull, Nat.sub_eq_zero_of_le hfull, List.take_zero]
        · exact ih hc.tail.tail (k + 1) (not_le.mp hfull)
      have hsub : nOut - k = nOut - (k + 1) + 1 := by omega
      have hout : ¬ (t.type ≠ .opGt ∧ t.type ≠ .opGtgt) := by
        rcases hgt with h | h <;> simp [h]
      simp [hhead, hne, hout, hc.tail.head, hk, isInput, hrest, hsub]

/-- The opened targets are the first ones, and a failure is never silent. -/
theorem validateTargets_spec (canOpen : ℕ → Bool) (n : ℕ) (ts : List (TokenType × Token)) :
    (validateTargets canOpen n ts).opened <+: ts ∧
      ((validateTargets canOpen n ts).ret = 1 ∧ (validateTargets canOpen n ts).opened = ts ∨
        (validateTargets canOpen n ts).ret = 0 ∧ (validateTargets canOpen n ts).err ≠ [] ∧
          ∃ i, canOpen i = false) := by
  induction ts generalizing n with
  | nil => simp [validateTargets]
  | cons r ts ih =>
    obtain ⟨op, w⟩ := r
    rw [validateTargets]
    cases hopen : canOpen n with
    | true =>
      rw [if_pos rfl]
      obtain ⟨hpre, hres⟩ := ih (n + 1)
      refine ⟨(List.prefix_cons_inj _).mpr hpre, hres.imp_left (fun h => ⟨h.1, ?_⟩)⟩
      exact congrArg ((op, w) :: ·) h.2
    | false =>
      rw [if_neg Bool.false_ne_true]
      exact ⟨⟨ts, rfl⟩, Or.inr ⟨rfl, List.cons_ne_nil _ _, n, hopen⟩⟩

/-- The counts are those of the targets of each kind, and the last ones are
    remembered. -/
theorem foldl_add_zero (ts : List (TokenType × Token)) :
    ts.foldl RedirCounts.add .zero =
      ⟨(ts.filter isInput).length, (ts.filter (fun r => ¬ isInput r)).length,
        (ts.filter isInput).getLast?.map (·.2), (ts.filter (fun r => ¬ isInput r)).getLast?⟩ := by
  induction ts using List.reverseRecOn with
  | nil => rfl
  | append_singleton ts r ih =>
    rw [List.foldl_append, ih]
    cases hin : isInput r <;> simp [RedirCounts.add, hin]

/-! ### The arrays of a group -/

section Arrays

variable {endsAt : TokenType → Prop} [DecidablePred endsAt]
  {segs : List (List Token × List Token)} {starts ends : List (List Token)}

abbrev PipeSep (t : Token) : Prop := t.type = .opPipe

theorem countCmds_eq (l : List Token) :
    countCmds endsAt l = (scanUntil endsAt l).countP isPipe + 1 := by
  induction l with
  | nil => rfl
  | cons t l ih =>
    rw [countCmds, ih]
    by_cases hend : endsAt t.type
    · simp [scanUntil, hend]
    · have hscan : scanUntil endsAt (t :: l) = t :: scanUntil endsAt l := by
        simp [scanUntil, hend]
      rw [hscan, List.countP_cons, if_neg hend]
      by_cases hp : t.type = .opPipe <;> simp [isPipe, hp]

theorem segLoop_end (hrest : ∀ t ∈ rest.head?, endsAt t.type) :
    segLoop endsAt starts ends rest = (starts, ends ++ [rest]) := by
  cases rest with
  | nil => rfl
  | cons t rest => rw [segLoop, if_pos (hrest t rfl)]

theorem segLoop_free (hg : ∀ t ∈ g, ¬ endsAt t.type) (hp : ∀ t ∈ g, ¬ PipeSep t) :
    segLoop endsAt starts ends (g ++ l) = segLoop endsAt starts ends l := by
  induction g with
  | nil => rfl
  | cons t g ih =>
    rw [List.forall_mem_cons] at hg hp
    rw [List.cons_append, segLoop, if_neg hg.1, if_neg hp.1, ih hg.2 hp.2]

/-- The second loop stores where each run between pipes begins and ends. -/
theorem segLoop_runs (hruns : Runs PipeSep g segs) (hne : g ≠ [])
    (hlast : ∀ t ∈ g.getLast?, ¬ PipeSep t) (hg : ∀ t ∈ g, ¬ endsAt t.type)
    (hrest : ∀ t ∈ rest.head?, endsAt t.type) :
    segLoop endsAt (starts ++ [g ++ rest]) ends (g ++ rest) =
      (starts ++ segs.map (fun s => s.1 ++ s.2 ++ rest),
        ends ++ segs.map (fun s => s.2 ++ rest)) := by
  induction hruns generalizing starts ends with
  | nil => exact absurd rfl hne
  | @last seg _ hfree =>
    rw [segLoop_free hg hfree, segLoop_end hrest]
    simp
  | @cons seg g s segs hneseg hfree hs h ih =>
    have hneg : g ≠ [] := by
      rintro rfl
      exact hlast s (by simp) hs
    have hlast' : ∀ t ∈ g.getLast?, ¬ PipeSep t := by
      intro t ht
      refine hlast t ?_
      rw [List.getLast?_append_cons, List.getLast?_cons_of_ne_nil hneg]
      exact ht
    have hin : ∀ t ∈ seg, ¬ endsAt t.type := fun t ht => hg t (List.mem_append_left _ ht)
    have hins : ¬ endsAt s.type := hg s (by simp)
    have hin' : ∀ t ∈ g, ¬ endsAt t.type := fun t ht => hg t (by simp [ht])
    rw [List.append_assoc, segLoop_free hin hfree, List.cons_append, segLoop, if_neg hins,
      if_pos hs, ih hneg hlast' hin']
    simp

/-- **The segment arrays.** `n_cmds` is their length, and they hold the runs between
    the pipes of the group in order. -/
theorem segArrays_of_runs (hruns : Runs PipeSep g segs) (hne : g ≠ [])
    (hlast : ∀ t ∈ g.getLast?, ¬ PipeSep t) (hrun : IsRun (fun t : Token => endsAt t.type) g rest) :
    segArrays endsAt (g ++ rest) =
      ⟨segs.length, segs.map (fun s => s.1 ++ s.2 ++ rest), segs.map (fun s => s.2 ++ rest)⟩ := by
  have hscan : scanUntil endsAt (g ++ rest) = g := hrun.takeWhile
  have hloop : segLoop endsAt ([] ++ [g ++ rest]) [] (g ++ rest) = _ :=
    segLoop_runs hruns hne hlast hrun.free hrun.ends
  rw [List.nil_append] at hloop
  rw [segArrays, hloop, countCmds_eq, hscan, hruns.length_eq hne hlast]
  rfl

end Arrays

/-- `g` stands between `pre` and `rest` as one command group of the line. -/
structure GroupAt (pre g rest : List Token) : Prop where
  nonempty : g ≠ []
  inside : ∀ t ∈ g, ¬ t.type.EndsGroup
  before : ∀ t ∈ pre.getLast?, t.type.EndsGroup
  after : ∀ t ∈ rest.head?, t.type.EndsGroup

section Group

variable {pre : List Token} {segs : List (List Token × List Token)}

theorem startsWord_of_append (hne : g ≠ []) (h : StartsWord (g ++ l)) : StartsWord g := by
  obtain ⟨t, g, rfl⟩ := List.exists_cons_of_ne_nil hne
  rw [List.cons_append, startsWord_cons] at h
  exact startsWord_cons.mpr h

theorem GroupAt.operatorsFollowed (hg : GroupAt pre g rest)
    (hvalid : (validateGrammar (pre ++ g ++ rest)).1 = 0) :
    StartsWord (pre ++ g ++ rest) ∧ OperatorsFollowed (pre ++ g ++ rest) := by
  rcases (validateGrammar_iff _).mp hvalid with h | h
  · simp [hg.nonempty] at h
  · exact h

theorem GroupAt.startsWord (hg : GroupAt pre g rest)
    (hvalid : (validateGrammar (pre ++ g ++ rest)).1 = 0) : StartsWord g := by
  obtain ⟨hw, hops⟩ := hg.operatorsFollowed hvalid
  refine startsWord_of_append (l := rest) hg.nonempty ?_
  rcases List.eq_nil_or_concat' pre with rfl | ⟨pre, s, rfl⟩
  · simpa using hw
  · have hs : s.type.EndsGroup := hg.before s (by simp)
    rcases hops pre s (g ++ rest) (by simp) (GroupSep.ne_word s hs) with h | ⟨-, h⟩
    · exact h
    · simp [hg.nonempty] at h

theorem GroupAt.word_after_pipe (hg : GroupAt pre g rest)
    (hvalid : (validateGrammar (pre ++ g ++ rest)).1 = 0) {l₁ l₂ : List Token} {s : Token}
    (hsplit : g = l₁ ++ s :: l₂) (hs : PipeSep s) : StartsWord l₂ := by
  have hops := (hg.operatorsFollowed hvalid).2
  have hne : s.type ≠ .word := by
    rw [hs]
    decide
  rcases hops (pre ++ l₁) s (l₂ ++ rest) (by simp [hsplit]) hne with h | ⟨hamp, -⟩
  · refine startsWord_of_append (l := rest) ?_ h
    rintro rfl
    -- the token behind the pipe would be the one that ends the group
    obtain ⟨w, l', hw, hword⟩ := h
    rw [List.nil_append] at hw
    have hend := hg.after w (by simp [hw])
    rw [hword] at hend
    exact absurd hend (by decide)
  · rw [hs] at hamp
    cases hamp

theorem GroupAt.segments (hg : GroupAt pre g rest)
    (hvalid : (validateGrammar (pre ++ g ++ rest)).1 = 0) :
    ∃ segs, Runs PipeSep g segs ∧ (∀ r ∈ segs, StartsWord r.1) ∧
      ∀ t ∈ g.getLast?, ¬ PipeSep t := by
  have hp : ∀ t, PipeSep t → t.type ≠ .word := by
    intro t ht
    rw [ht]
    decide
  obtain ⟨segs, hruns, hwords⟩ := runs_of_followed hp (Or.inl (hg.startsWord hvalid))
    (fun l₁ s l₂ hsplit hs => Or.inl (hg.word_after_pipe hvalid hsplit hs))
  refine ⟨segs, hruns, hwords, fun t ht hpipe => ?_⟩
  obtain ⟨l₁, hl₁⟩ := List.getLast?_eq_some_iff.mp ht
  exact not_startsWord_nil (hg.word_after_pipe hvalid hl₁ hpipe)

theorem GroupAt.isCommand (hg : GroupAt pre g rest)
    (hvalid : (validateGrammar (pre ++ g ++ rest)).1 = 0) (hruns : Runs PipeSep g segs)
    {r : List Token} (hr : (seg, r) ∈ segs) : IsCommand seg := by
  obtain ⟨pre', rfl, hpre'⟩ := hruns.split hr
  have hrun := hruns.isRun hr
  have hat : CommandAt (pre ++ pre') seg (r ++ rest) := by
    refine ⟨hrun.ne_nil, fun t ht hsep => ?_, fun t ht => ?_, fun t ht => ?_⟩
    · rcases hsep with h | h
      · exact hrun.free t ht h
      · exact hg.inside t (by simp [ht]) h
    · rcases List.eq_nil_or_concat' pre' with rfl | ⟨l, s, rfl⟩
      · rw [List.append_nil] at ht
        exact Or.inr (hg.before t ht)
      · rw [← List.append_assoc, List.getLast?_concat] at ht
        exact Or.inl (hpre' t (by rwa [List.getLast?_concat]))
    · cases r with
      | nil => exact Or.inr (hg.after t ht)
      | cons s r => exact Or.inl (hrun.ends t ht)
  refine isCommand_of_valid ?_ hat
  rw [← hvalid]
  simp

/-- **No scan loses a token.** For every command group of a valid line, the arrays of
    both pipeline functions have one entry more than the group has pipes and hold its
    segments in order. Every segment begins with a word, so its `argv` is not empty;
    every word of it is an argument or the target of the operator in front of it;
    and the four redirection loops visit the same targets in the same order. The end
    pointer of a last segment may be null, as in `apply_redirections`. -/
theorem pipeline_scans_agree (pre g rest : List Token)
    (hvalid : (validateGrammar (pre ++ g ++ rest)).1 = 0) (hg : GroupAt pre g rest) :
    ∃ segs, Runs (fun t : Token => t.type = .opPipe) g segs ∧
      segs.length = g.countP isPipe + 1 ∧
      executePipelineSegs (g ++ rest) =
        ⟨segs.length, segs.map (fun s => s.1 ++ s.2 ++ rest), segs.map (fun s => s.2 ++ rest)⟩ ∧
      (rest.head?.map (·.type) = some .opAmp →
        executePipelineBgSegs (g ++ rest) = executePipelineSegs (g ++ rest)) ∧
      ∀ seg r, (seg, r) ∈ segs →
        StartsWord seg ∧
        (∃ v, extractSegmentArgv (seg ++ r ++ rest) (r ++ rest) = some v ∧ 1 ≤ v.argc ∧
          v.argc = v.argv.length ∧ v.argv = (roles none seg).filterMap argOf) ∧
        (roles none seg).map (·.2) = seg ∧
        (∀ x ∈ roles none seg, x.2.type = .word → (argOf x).isSome = !(targetOf x).isSome) ∧
        ∀ stop, stop = r ++ rest ∨ r = [] ∧ stop = [] →
          (∀ canOpen v, v = redirsValidate canOpen stop 0 (seg ++ r ++ rest) →
            v.opened <+: targets seg ∧
              (v.ret = 1 ∧ v.opened = targets seg ∨
                v.ret = 0 ∧ v.err ≠ [] ∧ ∃ i, canOpen i = false)) ∧
          ∀ c, c = countRedirs stop .zero (seg ++ r ++ rest) →
            c.nIn = ((targets seg).filter isInput).length ∧
              c.nOut = ((targets seg).filter (fun r => ¬ isInput r)).length ∧
              c.lastIn = ((targets seg).filter isInput).getLast?.map (·.2) ∧
              c.lastOut = ((targets seg).filter (fun r => ¬ isInput r)).getLast? ∧
              feederScan stop (seg ++ r ++ rest) = ((targets seg).filter isInput).map (·.2) ∧
              teeScan stop c.nOut 0 (seg ++ r ++ rest) =
                (targets seg).filter (fun r => ¬ isInput r) := by
  obtain ⟨segs, hruns, hwords, hlast⟩ := hg.segments hvalid
  have hfg : IsRun (fun t : Token => t.type.EndsGroup) g rest :=
    ⟨hg.nonempty, hg.inside, hg.after⟩
  have harrays : executePipelineSegs (g ++ rest) = _ :=
    segArrays_of_runs hruns hg.nonempty hlast hfg
  refine ⟨segs, hruns, hruns.length_eq hg.nonempty hlast, harrays, fun hamp => ?_,
    fun seg r hr => ⟨hwords _ hr, ?_, roles_tokens none seg, roles_exclusive none seg,
      fun stop hstop => ?_⟩⟩
  · have hbg : IsRun (fun t : Token => t.type = .opAmp) g rest := by
      refine ⟨hg.nonempty, fun t ht h => hg.inside t ht (Or.inr h), fun s hs => ?_⟩
      rw [Option.mem_def.mp hs] at hamp
      simpa using hamp
    rw [harrays]
    exact segArrays_of_runs hruns hg.nonempty hlast hbg
  · have htail := (hg.isCommand hvalid hruns hr).argTail
    obtain ⟨w, l, rfl, hw⟩ := hwords _ hr
    refine ⟨⟨args (w :: l), (args (w :: l)).length⟩, ?_, ?_, rfl, args_eq_roles htail⟩
    · rw [List.append_assoc]
      exact extractSegmentArgv_of_argTail htail
    · rw [args_word hw]
      simp
  · have htail := (hg.isCommand hvalid hruns hr).argTail
    have hin : ∀ t ∈ seg, ¬ t.type.EndsGroup := by
      obtain ⟨pre', hsplit, -⟩ := hruns.split hr
      exact fun t ht => hg.inside t (by simp [hsplit, ht])
    have hcov : Covers (isRedirEnd stop) seg (r ++ rest) := by
      refine covers_isRedirEnd hin (hstop.imp_right ?_)
      rintro ⟨rfl, rfl⟩
      exact ⟨rfl, hg.after⟩
    rw [List.append_assoc]
    refine ⟨?_, ?_⟩
    · rintro canOpen v rfl
      rw [redirsValidate_eq htail hcov]
      exact validateTargets_spec canOpen 0 (targets seg)
    · rintro c rfl
      rw [countRedirs_eq htail hcov, foldl_add_zero, feederScan_eq htail hcov]
      refine ⟨rfl, rfl, rfl, rfl, rfl, ?_⟩
      rw [teeScan_eq htail hcov, Nat.sub_zero, List.take_length]

/-- `w < a > b | w > c ; w`: the first segment has the targets `a` and `b`. -/
theorem pipeline_scans_agree_two :
    let g : List Token := [⟨.word, [119]⟩, ⟨.opLt, [60]⟩, ⟨.word, [97]⟩, ⟨.opGt, [62]⟩,
      ⟨.word, [98]⟩, ⟨.opPipe, [124]⟩, ⟨.word, [119]⟩, ⟨.opGt, [62]⟩, ⟨.word, [99]⟩]
    let rest : List Token := [⟨.opSemi, [59]⟩, ⟨.word, [119]⟩]
    (executePipelineSegs (g ++ rest)).starts.length = 2 ∧
      (executePipelineSegs (g ++ rest)).nCmds = 2 := by
  intro g rest
  obtain ⟨segs, -, hlen, harrays, -⟩ := pipeline_scans_agree [] g rest (by decide)
    ⟨by decide, by decide, by decide, by decide⟩
  rw [harrays, List.length_map, hlen]
  exact ⟨rfl, rfl⟩

end Group

end MiniOs.Shell
