import MiniOs.Lib.Files
import MiniOs.Shell.Segments

/-!
# The contents behind redirections

What a command reads from its standard input and what its output files hold in the end.
`redirs_validate` opens every target once, and so truncates the targets of `>`. With one
input file, or one output file, the command gets the file itself. With several, a feeder
writes the input files into a pipe one after the other, and a tee copies a pipe into all
output files; both repeat reads and writes that are interrupted or short.

Contents are lists of bytes behind paths. `pipe`, `fork` and `malloc` succeed; what the other
calls of a helper answer is arbitrary.
-/

namespace MiniOs.Shell

open Files

variable {k : ℕ}

abbrev FileSystem := List Byte → List Byte

/-- `open(t->value, output_flags(op), 0644)`. -/
def openTarget (fs : FileSystem) (r : TokenType × Token) : FileSystem × Fd (List Byte) :=
  openOut fs r.2.value (r.1 = .opGtgt)

def validateOpen (fs : FileSystem) (r : TokenType × Token) : FileSystem :=
  if isInput r then fs else (openTarget fs r).1

def filesAfterValidate (stop start : List Token) (fs : FileSystem) : FileSystem :=
  (redirsValidate (fun _ => true) stop 0 start).opened.foldl validateOpen fs

/-- What the system answers to a helper: whether the `k`-th `open` succeeds, the calls of
    `read` in its `k`-th read loop, and the calls of `write` for each buffer. -/
structure HelperCalls where
  opens : ℕ → Bool
  reads : ℕ → List Answer
  writes : ℕ → ℕ → List Answer

/-- The loop of the feeder over its files: whether it wrote everything, and what it wrote. A
    file that cannot be opened is passed over; the feeder exits when it cannot write. -/
def feederLoop (h : HelperCalls) (fs : FileSystem) :
    ℕ → List Token → List Byte → Option (Bool × List Byte)
  | _, [], sent => some (true, sent)
  | k, w :: ws, sent =>
    if h.opens k then
      (pump 4096 (fun n chunk s => writeAll (· ++ ·) (h.writes k n) chunk s) (h.reads k) 0
        (fs w.value) sent).bind fun r =>
          if r.1 then feederLoop h fs (k + 1) ws r.2 else some (false, r.2)
    else feederLoop h fs (k + 1) ws sent

def spawnFeeder (h : HelperCalls) (fs : FileSystem) (stop start : List Token) :
    Option (Bool × List Byte) :=
  feederLoop h fs 0 (feederScan stop start) []

/-- The loop of the tee that opens its files; a file that cannot be opened has no
    descriptor. -/
def teeOpen (opens : ℕ → Bool) :
    ℕ → List (TokenType × Token) → FileSystem → FileSystem × List (Option (Fd (List Byte)))
  | _, [], fs => (fs, [])
  | k, r :: rs, fs =>
    if opens k then
      let x := openTarget fs r
      let y := teeOpen opens (k + 1) rs x.1
      (y.1, some x.2 :: y.2)
    else
      let y := teeOpen opens (k + 1) rs fs
      (y.1, none :: y.2)

/-- The inner loop of the tee: one buffer for every file. A file that fails is dropped. -/
def teeFiles (writes : ℕ → List Answer) (chunk : List Byte) :
    ℕ → FileSystem → List (Option (Fd (List Byte))) →
      Option (FileSystem × List (Option (Fd (List Byte))))
  | _, fs, [] => some (fs, [])
  | i, fs, none :: fds => (teeFiles writes chunk (i + 1) fs fds).map fun y => (y.1, none :: y.2)
  | i, fs, some fd :: fds =>
    (writeAll writeFd (writes i) chunk (fs, fd)).bind fun r =>
      (teeFiles writes chunk (i + 1) r.2.1 fds).map fun y =>
        (y.1, (if r.1 then some r.2.2 else none) :: y.2)

/-- The body of the read loop of the tee. -/
def teeBody (h : HelperCalls) (n : ℕ) (chunk : List Byte)
    (s : FileSystem × List (Option (Fd (List Byte)))) :
    Option (Bool × FileSystem × List (Option (Fd (List Byte)))) :=
  (teeFiles (h.writes n) chunk 0 s.1 s.2).map fun s => (true, s)

/-- The child of `spawn_tee`, on a pipe that carries `output`: the files it leaves. -/
def spawnTee (h : HelperCalls) (fs : FileSystem) (stop start : List Token) (nOut : ℕ)
    (output : List Byte) : Option FileSystem :=
  (pump 4096 (teeBody h) (h.reads 0) 0 output
    (teeOpen h.opens 0 (teeScan stop nOut 0 start) fs)).map fun r => r.2.1

/-- The standard input that `redirs_open` gives a command with input redirections: whether the
    stream is complete, and the stream. -/
def redirectedStdin (h : HelperCalls) (fs : FileSystem) (stop start : List Token) :
    Option (Bool × List Byte) :=
  let c := countRedirs stop .zero start
  match c.lastIn with
  | some w => if c.nIn = 1 then some (true, fs w.value) else spawnFeeder h fs stop start
  | none => some (true, [])

/-- The files after a command has written `pieces` to the standard output that `redirs_open`
    gives it. -/
def redirectedOutput (h : HelperCalls) (fs : FileSystem) (stop start : List Token)
    (pieces : List (List Byte)) : Option FileSystem :=
  let c := countRedirs stop .zero start
  match c.lastOut with
  | some r =>
    if c.nOut = 1 then some (pieces.foldl writeFd (openTarget fs r)).1
    else spawnTee h fs stop start c.nOut pieces.flatten
  | none => some fs

/-- What a target holds before the command writes to it. -/
def initialContent (fs : FileSystem) (r : TokenType × Token) : List Byte :=
  if r.1 = .opGtgt then fs r.2.value else []

def targetPath (r : TokenType × Token) : List Byte := r.2.value

variable {fs fs' : FileSystem} {r : TokenType × Token} {ts outs : List (TokenType × Token)}
  {h : HelperCalls} {ws : List Token} {sent s chunk seen : List Byte} {ok : Bool}
  {fds fds' : List (Option (Fd (List Byte)))} {base : TokenType × Token → List Byte}

/-! ### The files that are opened -/

theorem openTarget_self (fs : FileSystem) (r : TokenType × Token) :
    (openTarget fs r).1 (targetPath r) = initialContent fs r := by
  unfold openTarget openOut initialContent targetPath
  by_cases hop : r.1 = .opGtgt
  · simp [hop]
  · simp [hop]

theorem openTarget_of_ne {p : List Byte} (hp : p ≠ targetPath r) :
    (openTarget fs r).1 p = fs p := by
  unfold openTarget openOut
  split
  · rfl
  · exact Function.update_of_ne hp _ _

/-- What a command leaves that writes to the file itself. -/
theorem foldl_writeFd_openTarget (fs : FileSystem) (r : TokenType × Token)
    (pieces : List (List Byte)) :
    (pieces.foldl writeFd (openTarget fs r)).1 (targetPath r) =
        initialContent fs r ++ pieces.flatten ∧
      ∀ p, p ≠ targetPath r → (pieces.foldl writeFd (openTarget fs r)).1 p = fs p := by
  obtain ⟨hfs, -, -⟩ := foldl_writeFd (atEnd_openOut fs r.2.value (r.1 = .opGtgt)) pieces
  constructor
  · rw [← openTarget_self, openTarget, hfs]
    exact Function.update_self _ _ _
  · intro p hp
    rw [openTarget, hfs]
    exact (Function.update_of_ne hp _ _).trans (openTarget_of_ne hp)

theorem foldl_validateOpen {p : List Byte}
    (hp : ∀ r ∈ ts, targetPath r = p → isInput r = true ∨ r.1 = .opGtgt) :
    ts.foldl validateOpen fs p = fs p := by
  induction ts generalizing fs with
  | nil => rfl
  | cons r ts ih =>
    rw [List.forall_mem_cons] at hp
    rw [List.foldl_cons, ih hp.2]
    unfold validateOpen
    split
    · rfl
    · next hout =>
      by_cases hpath : p = targetPath r
      · have hop := (hp.1 hpath.symm).resolve_left hout
        rw [hpath, openTarget_self, initialContent, if_pos hop]
        rfl
      · exact openTarget_of_ne hpath

theorem teeOpen_of_notMem {opens : ℕ → Bool} {p : List Byte} (hp : p ∉ outs.map targetPath) :
    (teeOpen opens k outs fs).1 p = fs p := by
  induction outs generalizing k fs with
  | nil => rfl
  | cons r outs ih =>
    rw [List.map_cons, List.mem_cons, not_or] at hp
    unfold teeOpen
    split
    · exact (ih hp.2).trans (openTarget_of_ne hp.1)
    · exact ih hp.2

/-! ### The tee -/

/-- The files of the tee from the `i`-th on: each open file is written at its end, and holds
    `base` and what was delivered. The files that `steady` speaks of are open. -/
inductive Delivered (steady : ℕ → Prop) (base : TokenType × Token → List Byte) (seen : List Byte)
    (fs : FileSystem) : ℕ → List (TokenType × Token) → List (Option (Fd (List Byte))) → Prop where
  | nil {i : ℕ} : Delivered steady base seen fs i [] []
  | live {i : ℕ} {r : TokenType × Token} {outs : List (TokenType × Token)} {fd : Fd (List Byte)}
      {fds : List (Option (Fd (List Byte)))} (hpath : fd.path = targetPath r)
      (hend : AtEnd (fs, fd)) (hcontent : fs (targetPath r) = base r ++ seen)
      (hrest : Delivered steady base seen fs (i + 1) outs fds) :
      Delivered steady base seen fs i (r :: outs) (some fd :: fds)
  | dropped {i : ℕ} {r : TokenType × Token} {outs : List (TokenType × Token)}
      {fds : List (Option (Fd (List Byte)))} (hi : ¬ steady i)
      (hrest : Delivered steady base seen fs (i + 1) outs fds) :
      Delivered steady base seen fs i (r :: outs) (none :: fds)

variable {steady : ℕ → Prop} {i : ℕ}

theorem Delivered.congr (hd : Delivered steady base seen fs i outs fds)
    (hfs : ∀ p ∈ outs.map targetPath, fs' p = fs p) :
    Delivered steady base seen fs' i outs fds := by
  induction hd with
  | nil => exact .nil
  | live hpath hend hcontent hrest ih =>
    rw [List.map_cons, List.forall_mem_cons] at hfs
    refine .live hpath (hend.congr ?_) (hfs.1.trans hcontent) (ih hfs.2)
    rw [hpath]
    exact hfs.1
  | dropped hi hrest ih =>
    rw [List.map_cons, List.forall_mem_cons] at hfs
    exact .dropped hi (ih hfs.2)

theorem Delivered.content (hd : Delivered steady base seen fs i outs fds) {j : ℕ}
    (hr : outs[j]? = some r) (hj : steady (i + j)) : fs (targetPath r) = base r ++ seen := by
  induction hd generalizing j with
  | nil => cases hr
  | live hpath hend hcontent hrest ih =>
    cases j with
    | zero =>
      cases hr
      exact hcontent
    | succ j =>
      rw [List.getElem?_cons_succ] at hr
      exact ih hr (by rwa [add_right_comm, add_assoc])
  | dropped hi hrest ih =>
    cases j with
    | zero => exact absurd hj hi
    | succ j =>
      rw [List.getElem?_cons_succ] at hr
      exact ih hr (by rwa [add_right_comm, add_assoc])

theorem initialContent_congr (hfs : fs' (targetPath r) = fs (targetPath r)) :
    initialContent fs' r = initialContent fs r := by
  unfold initialContent
  rw [show fs' r.2.value = fs r.2.value from hfs]

theorem delivered_teeOpen {opens : ℕ → Bool} (hopens : ∀ i, steady i → opens i = true)
    (hnodup : (outs.map targetPath).Nodup) (hbase : ∀ r ∈ outs, initialContent fs r = base r) :
    Delivered steady base [] (teeOpen opens i outs fs).1 i outs (teeOpen opens i outs fs).2 := by
  induction outs generalizing i fs with
  | nil => exact .nil
  | cons r outs ih =>
    rw [List.map_cons, List.nodup_cons] at hnodup
    rw [List.forall_mem_cons] at hbase
    unfold teeOpen
    split
    · have hkept : (teeOpen opens (i + 1) outs (openTarget fs r).1).1 (targetPath r) =
          (openTarget fs r).1 (targetPath r) := teeOpen_of_notMem hnodup.1
      refine .live rfl (AtEnd.congr (atEnd_openOut _ _ _) hkept) ?_ (ih hnodup.2 ?_)
      · rw [hkept, openTarget_self, hbase.1, List.append_nil]
      · intro r' hr'
        have hne : targetPath r' ≠ targetPath r := fun heq =>
          hnodup.1 (List.mem_map.mpr ⟨r', hr', heq⟩)
        rw [initialContent_congr (openTarget_of_ne hne), hbase.2 r' hr']
    · next hclosed =>
      exact .dropped (fun hi => hclosed (hopens i hi)) (ih hnodup.2 hbase.2)

/-- One round of the tee: the files that stay open have got the buffer, and no other file has
    changed. -/
theorem Delivered.teeFiles {writes : ℕ → List Answer}
    (hwrites : ∀ i, steady i → .failed ∉ writes i) (hnodup : (outs.map targetPath).Nodup)
    (hd : Delivered steady base seen fs i outs fds)
    (h : teeFiles writes chunk i fs fds = some (fs', fds')) :
    Delivered steady base (seen ++ chunk) fs' i outs fds' ∧
      ∀ p ∉ outs.map targetPath, fs' p = fs p := by
  induction outs generalizing i fs fds fds' with
  | nil =>
    cases hd
    cases h
    exact ⟨.nil, fun _ _ => rfl⟩
  | cons r outs ih =>
    rw [List.map_cons, List.nodup_cons] at hnodup
    cases hd with
    | @live _ _ _ fd fds hpath hend hcontent hrest =>
      obtain ⟨x, hwrite, hnext⟩ := Option.bind_eq_some_iff.mp h
      obtain ⟨y, hfiles, heq⟩ := Option.map_eq_some_iff.mp hnext
      cases heq
      obtain ⟨part, -, hall, hfs, hpath', hend'⟩ := writeAll_file hend hwrite
      -- the other files are as before, and the rest of the round keeps this one
      have hother : ∀ p, p ≠ targetPath r → x.2.1 p = fs p := by
        intro p hp
        rw [hfs]
        exact Function.update_of_ne (hpath ▸ hp) _ _
      have hself : x.2.1 (targetPath r) = base r ++ (seen ++ part) := by
        rw [hfs, ← List.append_assoc, ← hcontent, ← hpath]
        exact Function.update_self _ _ _
      obtain ⟨hrest', hframe⟩ := ih hnodup.2 (hrest.congr (fun p hp =>
        hother p (fun heq => hnodup.1 (heq ▸ hp)))) hfiles
      have hkept : y.1 (targetPath r) = x.2.1 (targetPath r) := hframe _ hnodup.1
      refine ⟨?_, fun p hp => ?_⟩
      · split
        · next hok =>
          refine .live (hpath'.trans hpath) (AtEnd.congr hend' ?_) ?_ hrest'
          · rw [hpath'.trans hpath, hkept]
          · rw [hkept, hself, hall hok]
        · next hok => exact .dropped (fun hi => hok (writeAll_ok (hwrites i hi) hwrite)) hrest'
      · rw [List.map_cons, List.mem_cons, not_or] at hp
        rw [hframe p hp.2, hother p hp.1]
    | dropped hi hrest =>
      obtain ⟨y, hfiles, heq⟩ := Option.map_eq_some_iff.mp h
      cases heq
      obtain ⟨hrest', hframe⟩ := ih hnodup.2 hrest hfiles
      refine ⟨.dropped hi hrest', fun p hp => hframe p (fun hmem => hp ?_)⟩
      exact List.mem_cons_of_mem _ hmem

theorem teeFiles_isSome {writes : ℕ → List Answer}
    (hwrites : ∀ i, chunk.length ≤ (writes i).countP Answer.counts) :
    (teeFiles writes chunk i fs fds).isSome := by
  induction fds generalizing i fs with
  | nil => rfl
  | cons fd fds ih =>
    cases fd with
    | none =>
      rw [teeFiles, Option.isSome_map]
      exact ih
    | some fd =>
      obtain ⟨r, hr⟩ := Option.isSome_iff_exists.mp
        (writeAll_isSome writeFd (fs, fd) (hwrites i))
      rw [teeFiles, hr, Option.bind_some, Option.isSome_map]
      exact ih

/-- **The tee copies its input** into every file whose calls do not fail. -/
theorem spawnTee_spec {stop start : List Token} {nOut : ℕ} {output : List Byte}
    (hscan : teeScan stop nOut 0 start = outs) (hnodup : (outs.map targetPath).Nodup)
    (hreads : .failed ∉ h.reads 0) (hrun : spawnTee h fs stop start nOut output = some fs') :
    (∀ p ∉ outs.map targetPath, fs' p = fs p) ∧
      ∀ i r, outs[i]? = some r → h.opens i = true → (∀ n, .failed ∉ h.writes n i) →
        fs' (targetPath r) = initialContent fs r ++ output := by
  obtain ⟨⟨ok, s'⟩, hpump, rfl⟩ := Option.map_eq_some_iff.mp hrun
  rw [hscan] at hpump
  let steady : ℕ → Prop := fun i => h.opens i = true ∧ ∀ n, .failed ∉ h.writes n i
  let P : List Byte → FileSystem × List (Option (Fd (List Byte))) → Prop := fun seen s =>
    Delivered steady (initialContent fs) seen s.1 0 outs s.2 ∧
      ∀ p ∉ outs.map targetPath, s.1 p = fs p
  have hstart : P [] (teeOpen h.opens 0 outs fs) :=
    ⟨delivered_teeOpen (fun i hi => hi.1) hnodup (fun _ _ => rfl),
      fun p hp => teeOpen_of_notMem hp⟩
  have hround : ∀ n seen chunk s ok s', P seen s → teeBody h n chunk s = some (ok, s') →
      ok = true ∧ P (seen ++ chunk) s' := by
    intro n seen chunk s ok s' hP hbody
    obtain ⟨y, hfiles, heq⟩ := Option.map_eq_some_iff.mp hbody
    cases heq
    obtain ⟨hd, hframe⟩ := hP.1.teeFiles (fun i hi => hi.2 n) hnodup hfiles
    exact ⟨rfl, hd, fun p hp => (hframe p hp).trans (hP.2 p hp)⟩
  have hok : ok = true := by
    refine pump_ok (fun n chunk s ok s' hbody => ?_) hpump
    obtain ⟨y, -, heq⟩ := Option.map_eq_some_iff.mp hbody
    exact (congrArg Prod.fst heq).symm
  obtain ⟨part, -, hall, hd, hframe⟩ := pump_spec (P := P) hreads
    (fun n seen chunk s ok s' hP hbody =>
      ⟨chunk, List.prefix_rfl, fun _ => rfl, (hround n seen chunk s ok s' hP hbody).2⟩)
    hstart hpump
  rw [List.nil_append, hall hok] at hd
  refine ⟨hframe, fun i r hr hopen hwrites => hd.content hr ?_⟩
  rw [zero_add]
  exact ⟨hopen, hwrites⟩

/-! ### The feeder -/

/-- **The feeder writes the concatenation of its files**, or a front part of it if it cannot
    write. -/
theorem feederLoop_spec (hopens : ∀ k, h.opens k = true) (hreads : ∀ k, .failed ∉ h.reads k)
    (hrun : feederLoop h fs k ws sent = some (ok, s)) :
    ∃ part, part <+: (ws.map fun w => fs w.value).flatten ∧
      (ok = true → part = (ws.map fun w => fs w.value).flatten) ∧ s = sent ++ part := by
  induction ws generalizing k sent with
  | nil =>
    cases hrun
    exact ⟨[], List.nil_prefix, fun _ => rfl, (List.append_nil _).symm⟩
  | cons w ws ih =>
    rw [feederLoop, if_pos (hopens k)] at hrun
    obtain ⟨x, hpump, hnext⟩ := Option.bind_eq_some_iff.mp hrun
    obtain ⟨part, hpart, hall, hx⟩ := pump_spec (P := fun seen s => s = sent ++ seen) (hreads k)
      (fun n seen chunk s ok s' hs hbody => by
        obtain ⟨part, hpart, hall, hs'⟩ := writeAll_append hbody
        exact ⟨part, hpart, hall, by rw [hs', hs, List.append_assoc]⟩)
      (List.append_nil sent).symm hpump
    rw [List.map_cons, List.flatten_cons]
    rw [List.nil_append] at hx
    split at hnext
    · next hok =>
      obtain ⟨part', hpart', hall', hs⟩ := ih hnext
      refine ⟨part ++ part', ?_, fun hok' => ?_, ?_⟩
      · rw [hall hok]
        exact (List.prefix_append_right_inj _).mpr hpart'
      · rw [hall hok, hall' hok']
      · rw [hs, hx, List.append_assoc]
    · cases hnext
      exact ⟨part, hpart.trans (List.prefix_append _ _),
        fun hok => absurd hok Bool.false_ne_true, hx⟩

theorem feederLoop_ok (hwrites : ∀ k n, .failed ∉ h.writes k n)
    (hrun : feederLoop h fs k ws sent = some (ok, s)) : ok = true := by
  induction ws generalizing k sent with
  | nil =>
    cases hrun
    rfl
  | cons w ws ih =>
    rw [feederLoop] at hrun
    split at hrun
    · obtain ⟨x, hpump, hnext⟩ := Option.bind_eq_some_iff.mp hrun
      have hx : x.1 = true :=
        pump_ok (fun n chunk s ok s' hbody => writeAll_ok (hwrites k n) hbody) hpump
      rw [if_pos hx] at hnext
      exact ih hnext
    · exact ih hrun

theorem feederLoop_isSome (hreads : ∀ j w, ws[j]? = some w →
      (fs w.value).length < (h.reads (k + j)).countP Answer.counts)
    (hwrites : ∀ k n, 4096 ≤ (h.writes k n).countP Answer.counts) :
    (feederLoop h fs k ws sent).isSome := by
  induction ws generalizing k sent with
  | nil => rfl
  | cons w ws ih =>
    have hrest : ∀ sent, (feederLoop h fs (k + 1) ws sent).isSome := by
      refine fun sent => ih (fun j w' hw' => ?_)
      rw [add_right_comm, add_assoc]
      exact hreads (j + 1) w' hw'
    rw [feederLoop]
    split
    · have hpump := pump_isSome (n := 0) (s := sent) (by decide : 0 < 4096)
        (fun n chunk s hlen => writeAll_isSome (· ++ ·) s (hlen.trans (hwrites k n)))
        (hreads 0 w rfl)
      obtain ⟨x, hx⟩ := Option.isSome_iff_exists.mp hpump
      rw [show k + 0 = k from rfl] at hx
      rw [hx, Option.bind_some]
      split
      · exact hrest x.2
      · rfl
    · exact hrest sent

/-! ### The redirections of a command -/

section Command

variable {g post stop : List Token}

def inputsOf (g : List Token) : List (TokenType × Token) := (targets g).filter isInput

/-- The output files of a command, in the order of its tokens. -/
def outputsOf (g : List Token) : List (TokenType × Token) :=
  (targets g).filter (fun r => ¬ isInput r)

theorem targets_wellFormed (hg : ArgTail g) :
    ∀ r ∈ targets g, r.1.IsRedir ∧ r.2.type = .word := by
  induction hg with
  | nil => exact fun r hr => absurd hr List.not_mem_nil
  | word ht hl ih =>
    rw [targets_word ht]
    exact ih
  | redir ht hw hl ih =>
    rw [targets_redir ht hw, List.forall_mem_cons]
    exact ⟨⟨ht, hw⟩, ih⟩

theorem filesAfterValidate_eq (fs : FileSystem) (hg : ArgTail g)
    (hc : Covers (isRedirEnd stop) g post) :
    (redirsValidate (fun _ => true) stop 0 (g ++ post)).ret = 1 ∧
      filesAfterValidate stop (g ++ post) fs = (targets g).foldl validateOpen fs := by
  unfold filesAfterValidate
  rw [redirsValidate_eq hg hc]
  obtain ⟨-, ⟨hret, hopened⟩ | ⟨-, -, i, hi⟩⟩ :=
    validateTargets_spec (fun _ => true) 0 (targets g)
  · rw [hopened]
    exact ⟨hret, rfl⟩
  · cases hi

/-- The check leaves what is no output as it is, and every output with what the command will
    find in it. -/
theorem filesAfterValidate_spec (fs : FileSystem) (hg : ArgTail g)
    (hc : Covers (isRedirEnd stop) g post) (hnodup : ((targets g).map targetPath).Nodup) :
    (∀ p ∉ (outputsOf g).map targetPath, filesAfterValidate stop (g ++ post) fs p = fs p) ∧
      ∀ r ∈ outputsOf g,
        initialContent (filesAfterValidate stop (g ++ post) fs) r = initialContent fs r := by
  rw [(filesAfterValidate_eq fs hg hc).2]
  refine ⟨fun p hp => foldl_validateOpen (fun r hr hrp => ?_), fun r hr => ?_⟩
  · refine .inl (of_not_not fun hout => hp (List.mem_map.mpr ⟨r, ?_, hrp⟩))
    exact List.mem_filter.mpr ⟨hr, by simpa using hout⟩
  · unfold initialContent
    split
    · next hop =>
      refine foldl_validateOpen (fun r' hr' heq => .inr ?_)
      have hmem : r ∈ targets g := List.mem_of_mem_filter hr
      rw [List.inj_on_of_nodup_map hnodup hr' hmem heq, hop]
    · rfl

theorem redirectedStdin_eq (hg : ArgTail g) (hc : Covers (isRedirEnd stop) g post) :
    redirectedStdin h fs stop (g ++ post) =
      match inputsOf g with
      | [] => some (true, [])
      | [r] => some (true, fs (targetPath r))
      | _ => feederLoop h fs 0 ((inputsOf g).map (·.2)) [] := by
  unfold redirectedStdin spawnFeeder
  rw [countRedirs_eq hg hc, foldl_add_zero, feederScan_eq hg hc]
  unfold inputsOf
  rcases hins : (targets g).filter isInput with _ | ⟨r, _ | ⟨r', rs⟩⟩
  · rfl
  · rfl
  · rw [List.getLast?_eq_some_getLast (List.cons_ne_nil _ _)]
    exact if_neg (by simp)

theorem redirectedOutput_eq (h : HelperCalls) (fs : FileSystem) (hg : ArgTail g)
    (hc : Covers (isRedirEnd stop) g post) (pieces : List (List Byte)) :
    redirectedOutput h fs stop (g ++ post) pieces =
      match outputsOf g with
      | [] => some fs
      | [r] => some (pieces.foldl writeFd (openTarget fs r)).1
      | _ => spawnTee h fs stop (g ++ post) (outputsOf g).length pieces.flatten := by
  unfold redirectedOutput
  rw [countRedirs_eq hg hc, foldl_add_zero]
  unfold outputsOf
  rcases houts : (targets g).filter (fun r => ¬ isInput r) with _ | ⟨r, _ | ⟨r', rs⟩⟩
  · rfl
  · rfl
  · rw [List.getLast?_eq_some_getLast (List.cons_ne_nil _ _)]
    exact if_neg (by simp)

/-- **The standard input is the concatenation of the input files.** -/
theorem redirectedStdin_spec (hg : ArgTail g) (hc : Covers (isRedirEnd stop) g post)
    (hopens : ∀ k, h.opens k = true) (hreads : ∀ k, .failed ∉ h.reads k)
    (hrun : redirectedStdin h fs stop (g ++ post) = some (ok, s)) :
    s <+: ((inputsOf g).map fun r => fs (targetPath r)).flatten ∧
      (ok = true → s = ((inputsOf g).map fun r => fs (targetPath r)).flatten) ∧
      ((∀ k n, .failed ∉ h.writes k n) → ok = true) := by
  rw [redirectedStdin_eq hg hc] at hrun
  split at hrun
  · next hins =>
    cases hrun
    rw [hins]
    exact ⟨List.nil_prefix, fun _ => rfl, fun _ => rfl⟩
  · next r hins =>
    cases hrun
    rw [hins, List.map_singleton, List.flatten_singleton]
    exact ⟨List.prefix_rfl, fun _ => rfl, fun _ => rfl⟩
  · obtain ⟨part, hpart, hall, rfl⟩ := feederLoop_spec hopens hreads hrun
    rw [List.map_map] at hpart hall
    exact ⟨hpart, hall, fun hwrites => feederLoop_ok hwrites hrun⟩

/-- **Every output file gets the whole output**, and no other file changes. -/
theorem redirectedOutput_spec (hg : ArgTail g) (hc : Covers (isRedirEnd stop) g post)
    (hnodup : ((outputsOf g).map targetPath).Nodup) (hreads : .failed ∉ h.reads 0)
    {pieces : List (List Byte)} (hrun : redirectedOutput h fs stop (g ++ post) pieces = some fs') :
    (∀ p ∉ (outputsOf g).map targetPath, fs' p = fs p) ∧
      ∀ i r, (outputsOf g)[i]? = some r → h.opens i = true → (∀ n, .failed ∉ h.writes n i) →
        fs' (targetPath r) = initialContent fs r ++ pieces.flatten := by
  rw [redirectedOutput_eq h fs hg hc] at hrun
  split at hrun
  · next houts =>
    cases hrun
    rw [houts]
    exact ⟨fun _ _ => rfl, fun i r hr => absurd hr (by simp)⟩
  · next r houts =>
    cases hrun
    obtain ⟨hself, hother⟩ := foldl_writeFd_openTarget fs r pieces
    rw [houts, List.map_singleton]
    refine ⟨fun p hp => hother p (by simpa using hp), fun i r' hr' _ _ => ?_⟩
    cases i with
    | zero =>
      cases hr'
      exact hself
    | succ i => cases hr'
  · refine spawnTee_spec ?_ hnodup hreads hrun
    rw [teeScan_eq hg hc]
    exact List.take_length

theorem redirectedStdin_isSome (hg : ArgTail g) (hc : Covers (isRedirEnd stop) g post)
    (hreads : ∀ k r, (inputsOf g)[k]? = some r →
      (fs (targetPath r)).length < (h.reads k).countP Answer.counts)
    (hwrites : ∀ k n, 4096 ≤ (h.writes k n).countP Answer.counts) :
    (redirectedStdin h fs stop (g ++ post)).isSome := by
  rw [redirectedStdin_eq hg hc]
  split
  · rfl
  · rfl
  · refine feederLoop_isSome (fun j w hw => ?_) hwrites
    rw [List.getElem?_map, Option.map_eq_some_iff] at hw
    obtain ⟨r, hr, rfl⟩ := hw
    rw [zero_add]
    exact hreads j r hr

theorem redirectedOutput_isSome (hg : ArgTail g) (hc : Covers (isRedirEnd stop) g post)
    {pieces : List (List Byte)}
    (hreads : pieces.flatten.length < (h.reads 0).countP Answer.counts)
    (hwrites : ∀ n i, 4096 ≤ (h.writes n i).countP Answer.counts) :
    (redirectedOutput h fs stop (g ++ post) pieces).isSome := by
  rw [redirectedOutput_eq h fs hg hc]
  split
  · rfl
  · rfl
  · rw [spawnTee, Option.isSome_map]
    refine pump_isSome (by decide) (fun n chunk s hlen => ?_) hreads
    rw [teeBody, Option.isSome_map]
    exact teeFiles_isSome fun i => hlen.trans (hwrites n i)

theorem inputsOf_notMem_outputsOf (hnodup : ((targets g).map targetPath).Nodup)
    (hr : r ∈ inputsOf g) : targetPath r ∉ (outputsOf g).map targetPath := by
  intro hmem
  obtain ⟨r', hr', heq⟩ := List.mem_map.mp hmem
  obtain ⟨hin, hisIn⟩ := List.mem_filter.mp hr
  obtain ⟨hout, hisOut⟩ := List.mem_filter.mp hr'
  rw [List.inj_on_of_nodup_map hnodup hout hin heq] at hisOut
  exact absurd hisIn (by simpa using hisOut)

theorem redirectedOutput_alone {cmd op : Token} (hr : r.1.IsRedir ∧ r.2.type = .word)
    (hout : isInput r = false) (hcmd : cmd.type = .word) (hop : op.type = r.1)
    {pieces : List (List Byte)} :
    (redirectedOutput h (filesAfterValidate [] [cmd, op, r.2] fs) [] [cmd, op, r.2] pieces).map
      (· (targetPath r)) = some (initialContent fs r ++ pieces.flatten) := by
  have hg : ArgTail [cmd, op, r.2] := .word hcmd (.redir (hop ▸ hr.1) hr.2 .nil)
  have hc : Covers (isRedirEnd []) [cmd, op, r.2] [] := by
    refine covers_isRedirEnd (fun t ht => ?_) (.inl rfl)
    rw [List.mem_cons, List.mem_cons, List.mem_singleton] at ht
    rcases ht with rfl | rfl | rfl
    · simp [TokenType.EndsGroup, hcmd]
    · rcases hr.1 with h | h | h <;> simp [TokenType.EndsGroup, hop, h]
    · simp [TokenType.EndsGroup, hr.2]
  have htargets : targets [cmd, op, r.2] = [r] := by
    rw [targets_word hcmd, targets_redir (hop ▸ hr.1) hr.2, hop]
    rfl
  have houts : outputsOf [cmd, op, r.2] = [r] := by
    rw [outputsOf, htargets]
    simp [hout]
  have hrun := redirectedOutput_eq h (filesAfterValidate [] ([cmd, op, r.2] ++ []) fs) hg hc pieces
  have hkept := (filesAfterValidate_spec fs hg hc (by simp [htargets])).2 r (by simp [houts])
  rw [houts] at hrun
  rw [List.append_nil] at hrun hkept
  rw [hrun, ← hkept, Option.map_some, (foldl_writeFd_openTarget _ r pieces).1]

end Command

/-- **Redirections with several files are concatenation and duplication.** Take a command `g`
    whose targets are pairwise distinct files. Its check succeeds. As long as only its outputs
    change, its standard input is a front part of the concatenation of its inputs, and all of
    it unless a write to the pipe fails. When the command has written `pieces`, every output
    file whose calls have not failed holds what it held before, or nothing with `>`, and then
    the whole output; that is what it holds when it is the only target. No other file has
    changed. And both helpers end, if the calls are answered often enough by more than
    `EINTR`. -/
theorem redirection_streams_exact {g post stop : List Token} (hg : ArgTail g)
    (hc : Covers (isRedirEnd stop) g post) (hdistinct : ((targets g).map targetPath).Nodup)
    (fs : FileSystem) :
    (redirsValidate (fun _ => true) stop 0 (g ++ post)).ret = 1 ∧
    (∀ now : FileSystem, (∀ p ∉ (outputsOf g).map targetPath, now p = fs p) →
      ∀ h : HelperCalls, (∀ k, h.opens k = true) → (∀ k, .failed ∉ h.reads k) →
        (∀ ok s, redirectedStdin h now stop (g ++ post) = some (ok, s) →
          s <+: ((inputsOf g).map fun r => fs (targetPath r)).flatten ∧
          (ok = true → s = ((inputsOf g).map fun r => fs (targetPath r)).flatten) ∧
          ((∀ k n, .failed ∉ h.writes k n) → ok = true)) ∧
        ((∀ k r, (inputsOf g)[k]? = some r →
            (fs (targetPath r)).length < (h.reads k).countP Answer.counts) →
          (∀ k n, 4096 ≤ (h.writes k n).countP Answer.counts) →
          (redirectedStdin h now stop (g ++ post)).isSome)) ∧
    ∀ h : HelperCalls, .failed ∉ h.reads 0 → ∀ pieces : List (List Byte),
      (∀ fs', redirectedOutput h (filesAfterValidate stop (g ++ post) fs) stop (g ++ post) pieces =
          some fs' →
        (∀ p ∉ (outputsOf g).map targetPath, fs' p = fs p) ∧
        ∀ i r, (outputsOf g)[i]? = some r → h.opens i = true → (∀ n, .failed ∉ h.writes n i) →
          fs' (targetPath r) = initialContent fs r ++ pieces.flatten ∧
          ∀ cmd op : Token, cmd.type = .word → op.type = r.1 → ∀ h' : HelperCalls,
            (redirectedOutput h' (filesAfterValidate [] [cmd, op, r.2] fs) [] [cmd, op, r.2]
              pieces).map (· (targetPath r)) = some (fs' (targetPath r))) ∧
      (pieces.flatten.length < (h.reads 0).countP Answer.counts →
        (∀ n i, 4096 ≤ (h.writes n i).countP Answer.counts) →
        (redirectedOutput h (filesAfterValidate stop (g ++ post) fs) stop (g ++ post)
          pieces).isSome) := by
  have houts : ((outputsOf g).map targetPath).Nodup :=
    hdistinct.sublist (List.filter_sublist.map targetPath)
  obtain ⟨hothers, hkept⟩ := filesAfterValidate_spec fs hg hc hdistinct
  refine ⟨(filesAfterValidate_eq fs hg hc).1, ?_, ?_⟩
  · intro now hnow h hopens hreads
    have hins : ∀ r ∈ inputsOf g, now (targetPath r) = fs (targetPath r) := fun r hr =>
      hnow _ (inputsOf_notMem_outputsOf hdistinct hr)
    refine ⟨fun ok s hrun => ?_, fun hmany hwrites => ?_⟩
    · rw [← List.map_congr_left hins]
      exact redirectedStdin_spec hg hc hopens hreads hrun
    · refine redirectedStdin_isSome hg hc (fun k r hr => ?_) hwrites
      rw [hins r (List.mem_of_getElem? hr)]
      exact hmany k r hr
  · intro h hreads pieces
    refine ⟨fun fs' hrun => ?_, fun hmany hwrites => redirectedOutput_isSome hg hc hmany hwrites⟩
    obtain ⟨hframe, hcontent⟩ := redirectedOutput_spec hg hc houts hreads hrun
    refine ⟨fun p hp => (hframe p hp).trans (hothers p hp), fun i r hr hopen hwrites => ?_⟩
    have hmem : r ∈ outputsOf g := List.mem_of_getElem? hr
    have hall : fs' (targetPath r) = initialContent fs r ++ pieces.flatten := by
      rw [hcontent i r hr hopen hwrites, hkept r hmem]
    refine ⟨hall, fun cmd op hcmd hop h' => ?_⟩
    rw [hall]
    exact redirectedOutput_alone (targets_wellFormed hg r (List.mem_of_mem_filter hmem))
      (by simpa using (List.mem_filter.mp hmem).2) hcmd hop

/-- The command `c < a < b > x >> o`. -/
def copyCommand : List Token :=
  [⟨.word, [99]⟩, ⟨.opLt, [60]⟩, ⟨.word, [97]⟩, ⟨.opLt, [60]⟩, ⟨.word, [98]⟩,
    ⟨.opGt, [62]⟩, ⟨.word, [120]⟩, ⟨.opGtgt, [62, 62]⟩, ⟨.word, [111]⟩]

def copyFiles : FileSystem := fun p =>
  if p = [97] then [1, 2, 3] else if p = [98] then [4] else if p = [111] then [9] else []

/-- The calls move one byte or are interrupted, and writes to the first file fail if `bad`. -/
def copyCalls (bad : Bool) : HelperCalls where
  opens _ := true
  reads _ := [.moved 1, .eintr, .moved 0, .moved 0, .moved 0]
  writes _ i := if bad ∧ i = 0 then [.eintr, .failed] else [.moved 0, .eintr, .moved 0]

/-- The first output file fails and the second still gets the output. -/
theorem redirection_streams_exact_copy :
    redirectedStdin (copyCalls false) copyFiles [] copyCommand = some (true, [1, 2, 3, 4]) ∧
    ∃ fs', redirectedOutput (copyCalls true) (filesAfterValidate [] copyCommand copyFiles) []
        copyCommand [[5, 6], [7]] = some fs' ∧ fs' [111] = [9, 5, 6, 7] := by
  have hg : ArgTail copyCommand :=
    .word rfl (.redir (by decide) rfl (.redir (by decide) rfl (.redir (by decide) rfl
      (.redir (by decide) rfl .nil))))
  have hc : Covers (isRedirEnd []) copyCommand [] :=
    covers_isRedirEnd (by decide) (.inl rfl)
  obtain ⟨-, hin, hout⟩ := redirection_streams_exact hg hc (by decide) copyFiles
  obtain ⟨⟨ok, s⟩, hrunIn⟩ := Option.isSome_iff_exists.mp
    (show (redirectedStdin (copyCalls false) copyFiles [] copyCommand).isSome from by decide)
  obtain ⟨fs', hrunOut⟩ := Option.isSome_iff_exists.mp
    (show (redirectedOutput (copyCalls true) (filesAfterValidate [] copyCommand copyFiles) []
      copyCommand [[5, 6], [7]]).isSome from by decide)
  obtain ⟨-, hstream, hok⟩ := (hin copyFiles (fun _ _ => rfl) (copyCalls false) (fun _ => rfl)
    (fun _ => by simp [copyCalls])).1 ok s hrunIn
  have hwrites : ∀ k n, .failed ∉ (copyCalls false).writes k n := fun k n => by
    simp [copyCalls]
  refine ⟨?_, fs', hrunOut, ?_⟩
  · rw [hrunIn, hok hwrites, hstream (hok hwrites)]
    rfl
  · exact (((hout (copyCalls true) (by decide) [[5, 6], [7]]).1 fs' hrunOut).2 1
      (.opGtgt, ⟨.word, [111]⟩) rfl rfl (fun n => by simp [copyCalls])).1

end MiniOs.Shell
