import Mathlib
import MiniOs.Lib.Fields
import MiniOs.Lib.NamedTree
import MiniOs.Shell.JobTable
import MiniOs.Shell.Paths

/-!
# Listing a directory tree

`list_recursive` of `reveal.c` prints the entries of a directory and of the directories
below it. It goes down by path strings: the path of an entry is printed into a buffer of
`PATH_MAX` bytes and looked up again, first to see whether it is a directory and then to
read it.

The file system is the tree below the directory the listing starts from; files and
symbolic links are its leaves. Every path that is looked up continues the path of that
directory, so how this one is found does not matter.
-/

namespace MiniOs.Shell

open Fields NamedTree

variable {depth : ℕ} {lines : List (List Byte)} {α : Type*}

abbrev Name := List Byte

/-- A directory tree; files and symbolic links are leaves. -/
abbrev FileTree := NamedTree Name

def strcmpLe : List Byte → List Byte → Bool
  | [], _ => true
  | _ :: _, [] => false
  | a :: as, b :: bs => a < b || (a == b && strcmpLe as bs)

/-! ## Looking up a path -/

/-- A directory with the path that it was found under. -/
structure Mounted where
  path : List Byte
  /-- The directory and those it lies in, innermost first. -/
  stack : List FileTree

def childNamed (name : Name) : FileTree → Option FileTree
  | .leaf => none
  | .dir es => (es.find? (·.1 = name)).map (·.2)

/-- One component of a path. -/
def stepInto (stack : List FileTree) (name : Name) : Option (List FileTree) :=
  match stack with
  | [] => none
  | t :: up =>
    if !t.isDir then none
    else if name = [] ∨ name = [Byte.dot] then some (t :: up)
    else if name = [Byte.dot, Byte.dot] then some (if up.isEmpty then [t] else up)
    else (childNamed name t).map (· :: t :: up)

def stepThrough (stack : List FileTree) : List Name → Option (List FileTree)
  | [] => some stack
  | name :: names => (stepInto stack name).bind (stepThrough · names)

/-- What a path leads to; one of `PATH_MAX` bytes or more is refused. -/
def Mounted.lookup (m : Mounted) (path : List Byte) : Option FileTree :=
  if path.length < pathMax ∧ m.path <+: path then
    (stepThrough m.stack (split Byte.slash (path.drop m.path.length))).bind List.head?
  else none

/-- `lstat(path, &st) == 0 && S_ISDIR(st.st_mode)`. -/
def Mounted.isDirectory (m : Mounted) (path : List Byte) : Bool :=
  (m.lookup path).any NamedTree.isDir

/-- The names that `readdir` returns, `none` if `opendir` fails. -/
def Mounted.readdir (m : Mounted) (path : List Byte) : Option (List Name) :=
  match m.lookup path with
  | some (.dir es) => some ([Byte.dot] :: [Byte.dot, Byte.dot] :: es.map (·.1))
  | _ => none

/-! ## The listing -/

def visible (showHidden : Bool) (name : Name) : Bool :=
  name ≠ [Byte.dot] && name ≠ [Byte.dot, Byte.dot] &&
    (showHidden || name.head? ≠ some Byte.dot)

def readSortedEntries (m : Mounted) (absPath : List Byte) (showHidden : Bool) : List Name :=
  (((m.readdir absPath).getD []).filter (visible showHidden)).mergeSort strcmpLe

/-- The lines of all entries, if each of them comes to an end. -/
def allLines : List (Option (List (List Byte))) → Option (List (List Byte))
  | [] => some []
  | none :: _ => none
  | some ls :: rest => (allLines rest).map (ls ++ ·)

def displayed (pre name : List Byte) : List Byte :=
  snprintf pathMax (if pre = [] then name else pre ++ Byte.slash :: name)

def childAbs (absPath name : List Byte) : List Byte :=
  snprintf pathMax (absPath ++ Byte.slash :: name)

/-- `list_recursive`, for calls nested less than `depth` deep: the lines it prints. -/
def listRecursive (m : Mounted) (showHidden : Bool) :
    ℕ → List Byte → List Byte → Option (List (List Byte))
  | 0, _, _ => none
  | depth + 1, absPath, pre =>
    allLines ((readSortedEntries m absPath showHidden).map fun name =>
      if m.isDirectory (childAbs absPath name) then
        (listRecursive m showHidden depth (childAbs absPath name) (displayed pre name)).map
          ((displayed pre name ++ [Byte.slash]) :: ·)
      else some [displayed pre name])

/-! ## The tree -/

/-- A name that a directory entry can have. -/
structure ValidName (name : Name) : Prop where
  ne_nil : name ≠ []
  ne_dot : name ≠ [Byte.dot]
  ne_dots : name ≠ [Byte.dot, Byte.dot]
  slash_notMem : Byte.slash ∉ name
  nul_notMem : Byte.nul ∉ name

/-- The entries of each directory have valid names, all different. -/
inductive WellFormed : FileTree → Prop where
  | leaf : WellFormed .leaf
  | dir {es : List (Name × FileTree)} (nodup : (es.map (·.1)).Nodup)
      (names : ∀ e ∈ es, ValidName e.1) (children : ∀ e ∈ es, WellFormed e.2) :
      WellFormed (.dir es)

def joinNames : List Name → List Byte
  | [] => []
  | [name] => name
  | name :: names => name ++ Byte.slash :: joinNames names

def entryLine (e : List Name × Bool) : List Byte :=
  joinNames e.1 ++ if e.2 then [Byte.slash] else []

def pathOf (start : List Byte) (names : List Name) : List Byte :=
  start ++ names.flatMap (Byte.slash :: ·)

/-- What has to hold of an entry. The path of the directory it lies in fits its buffer, and so
    does its own path; or the path to print fits, and the path that its own is cut off to
    leads to a directory exactly if the entry is one, and then to one where nothing is
    listed. -/
def BufferSafe (m : Mounted) (showHidden : Bool) (path : List Name) (d : Bool) : Prop :=
  (pathOf m.path path.dropLast).length < pathMax ∧
  ((pathOf m.path path).length < pathMax ∨
    (joinNames path).length < pathMax ∧
    m.isDirectory (snprintf pathMax (pathOf m.path path)) = d ∧
    (d = true → readSortedEntries m (snprintf pathMax (pathOf m.path path)) showHidden = []))

theorem WellFormed.distinct {t : FileTree} (h : WellFormed t) : t.Distinct := by
  induction h with
  | leaf => exact .leaf
  | dir nodup _ _ ih => exact .dir nodup ih

/-! ## Order of names -/

theorem strcmpLe_total (a b : List Byte) : (strcmpLe a b || strcmpLe b a) = true := by
  induction a generalizing b with
  | nil => rfl
  | cons x a ih =>
    cases b with
    | nil => rfl
    | cons y b =>
      have hxy : x < y ∨ x = y ∨ y < x := by
        simp only [UInt8.lt_iff_toNat_lt, ← UInt8.toNat_inj]
        omega
      obtain h | rfl | h := hxy
      · simp [strcmpLe, h]
      · simpa [strcmpLe] using ih b
      · simp [strcmpLe, h]

theorem strcmpLe_trans (a b c : List Byte) (hab : strcmpLe a b = true) (hbc : strcmpLe b c = true) :
    strcmpLe a c = true := by
  induction a generalizing b c with
  | nil => rfl
  | cons x a ih =>
    cases b with
    | nil => cases hab
    | cons y b =>
      cases c with
      | nil => cases hbc
      | cons z c =>
        simp only [strcmpLe, Bool.or_eq_true, Bool.and_eq_true, decide_eq_true_eq, beq_iff_eq]
          at hab hbc ⊢
        obtain hxy | ⟨rfl, hab⟩ := hab
        · obtain hyz | ⟨rfl, -⟩ := hbc
          · exact .inl (UInt8.lt_trans hxy hyz)
          · exact .inl hxy
        · obtain hyz | ⟨rfl, hbc⟩ := hbc
          · exact .inl hyz
          · exact .inr ⟨rfl, ih b c hab hbc⟩

theorem strcmpLe_antisymm (a b : List Byte) (hab : strcmpLe a b = true)
    (hba : strcmpLe b a = true) : a = b := by
  induction a generalizing b with
  | nil =>
    cases b with
    | nil => rfl
    | cons y b => cases hba
  | cons x a ih =>
    cases b with
    | nil => cases hab
    | cons y b =>
      simp only [strcmpLe, Bool.or_eq_true, Bool.and_eq_true, decide_eq_true_eq, beq_iff_eq]
        at hab hba
      obtain hxy | ⟨rfl, hab⟩ := hab
      · obtain hyx | ⟨rfl, -⟩ := hba
        · exact absurd (UInt8.lt_trans hxy hyx) (UInt8.lt_irrefl x)
        · exact absurd hxy (UInt8.lt_irrefl _)
      · obtain hyx | ⟨-, hba⟩ := hba
        · exact absurd hyx (UInt8.lt_irrefl _)
        · rw [ih b hab hba]

/-! ## Paths of entries -/

section Paths

variable {m : Mounted} {names : List Name} {name : Name} {p : List Byte}

theorem pathOf_concat (start : List Byte) (names : List Name) (name : Name) :
    pathOf start (names ++ [name]) = pathOf start names ++ Byte.slash :: name := by
  simp [pathOf]

theorem split_flatMap (hp : Byte.slash ∉ p) (h : ∀ n ∈ names, Byte.slash ∉ n) :
    split Byte.slash (p ++ names.flatMap (Byte.slash :: ·)) = p :: names := by
  induction names generalizing p with
  | nil => rw [List.flatMap_nil, List.append_nil, split_of_notMem hp]
  | cons n names ih =>
    rw [List.forall_mem_cons] at h
    rw [List.flatMap_cons, List.cons_append, split_append_of_notMem hp, ih h.1 h.2]

theorem lookup_pathOf (h : ∀ n ∈ names, Byte.slash ∉ n)
    (hfit : (pathOf m.path names).length < pathMax) :
    m.lookup (pathOf m.path names) = (stepThrough m.stack ([] :: names)).bind List.head? := by
  have hdrop : (pathOf m.path names).drop m.path.length = names.flatMap (Byte.slash :: ·) :=
    List.drop_left
  have hsplit := split_flatMap List.not_mem_nil h
  rw [List.nil_append] at hsplit
  rw [Mounted.lookup, if_pos ⟨hfit, List.prefix_append _ _⟩, hdrop, hsplit]

theorem stepThrough_append (stack : List FileTree) (as bs : List Name) :
    stepThrough stack (as ++ bs) = (stepThrough stack as).bind (stepThrough · bs) := by
  induction as generalizing stack with
  | nil => rfl
  | cons a as ih =>
    rw [List.cons_append, stepThrough, stepThrough, Option.bind_assoc]
    exact congrArg _ (funext ih)

theorem stepInto_child {es : List (Name × FileTree)} (hnodup : (es.map (·.1)).Nodup)
    {e : Name × FileTree} (he : e ∈ es) (hvalid : ValidName e.1) (up : List FileTree) :
    stepInto (.dir es :: up) e.1 = some (e.2 :: .dir es :: up) := by
  have hfind : es.find? (·.1 = e.1) = some e := by
    induction es with
    | nil => cases he
    | cons f es ih =>
      rw [List.map_cons, List.nodup_cons] at hnodup
      obtain rfl | he := List.mem_cons.mp he
      · simp
      · have hne : f.1 ≠ e.1 := fun h => hnodup.1 (h ▸ List.mem_map_of_mem he)
        rw [List.find?_cons_of_neg (by simpa using hne), ih hnodup.2 he]
  have hdots : ¬ (e.1 = [] ∨ e.1 = [Byte.dot]) := by simp [hvalid.ne_nil, hvalid.ne_dot]
  rw [stepInto, NamedTree.isDir, if_neg (by simp), if_neg hdots, if_neg hvalid.ne_dots, childNamed,
    hfind]
  rfl

theorem joinNames_cons (hne : names ≠ []) (name : Name) :
    joinNames (name :: names) = name ++ Byte.slash :: joinNames names := by
  cases names with
  | nil => exact absurd rfl hne
  | cons k names => rfl

theorem flatMap_eq_joinNames (hne : names ≠ []) :
    names.flatMap (Byte.slash :: ·) = Byte.slash :: joinNames names := by
  induction names with
  | nil => exact absurd rfl hne
  | cons n names ih =>
    by_cases hnil : names = []
    · simp [hnil, joinNames]
    · rw [List.flatMap_cons, ih hnil, joinNames_cons hnil, List.cons_append]

theorem joinNames_concat (hne : names ≠ []) (name : Name) :
    joinNames (names ++ [name]) = joinNames names ++ Byte.slash :: name := by
  have h : (names ++ [name]).flatMap (Byte.slash :: ·) =
      Byte.slash :: joinNames (names ++ [name]) :=
    flatMap_eq_joinNames (by simp)
  rw [List.flatMap_append, flatMap_eq_joinNames hne, List.flatMap_singleton, List.cons_append] at h
  exact (List.cons.inj h).2.symm

theorem joinNames_ne_nil (hne : names ≠ []) (h : ∀ n ∈ names, ValidName n) :
    joinNames names ≠ [] := by
  cases names with
  | nil => exact absurd rfl hne
  | cons n names =>
    have hn := (h n List.mem_cons_self).ne_nil
    by_cases hnil : names = []
    · simpa [hnil, joinNames] using hn
    · simp [joinNames_cons hnil]

theorem length_pathOf_le (start : List Byte) (names path : List Name) :
    (pathOf start names).length ≤ (pathOf start (names ++ path)).length := by
  simp only [pathOf, List.flatMap_append, List.length_append]
  omega

/-- Where the path of an entry fits, so does the path that is printed. -/
theorem length_joinNames_lt (hne : names ≠ [])
    (hfit : (pathOf m.path names).length < pathMax) : (joinNames names).length < pathMax := by
  rw [pathOf, flatMap_eq_joinNames hne, List.length_append, List.length_cons] at hfit
  omega

theorem displayed_eq (h : ∀ n ∈ names, ValidName n) (name : Name) :
    displayed (joinNames names) name = snprintf pathMax (joinNames (names ++ [name])) := by
  rw [displayed]
  by_cases hne : names = []
  · subst hne
    rfl
  · rw [if_neg (joinNames_ne_nil hne h), joinNames_concat hne]

theorem childAbs_eq (start : List Byte) (names : List Name) (name : Name) :
    childAbs (pathOf start names) name = snprintf pathMax (pathOf start (names ++ [name])) := by
  rw [childAbs, pathOf_concat]

theorem getLast?_joinNames (hname : ValidName name) :
    (joinNames (names ++ [name])).getLast? = name.getLast? := by
  by_cases hne : names = []
  · subst hne
    rfl
  · rw [joinNames_concat hne, List.getLast?_append_of_ne_nil _ (List.cons_ne_nil _ _),
      List.getLast?_cons_of_ne_nil hname.ne_nil]

/-- A line is that of the entry if and only if the path fits and the slash is right. -/
theorem snprintf_eq_entryLine_iff (hname : ValidName name) (c d : Bool) :
    snprintf pathMax (joinNames (names ++ [name])) ++ (if c then [Byte.slash] else []) =
        entryLine (names ++ [name], d) ↔
      (joinNames (names ++ [name])).length < pathMax ∧ c = d := by
  have hlast : Byte.slash ∉ (joinNames (names ++ [name])).getLast? := by
    rw [getLast?_joinNames hname]
    exact fun h => hname.slash_notMem (List.mem_of_getLast? h)
  rw [entryLine]
  dsimp only
  generalize joinNames (names ++ [name]) = p at hlast
  constructor
  · intro heq
    by_cases hlt : p.length < pathMax
    · rw [snprintf_of_lt hlt] at heq
      have hslash := List.append_cancel_left heq
      exact ⟨hlt, by cases c <;> cases d <;> first | rfl | cases hslash⟩
    · -- what is cut off would have to be the slash
      have hcut : (snprintf pathMax p).length = pathMax - 1 :=
        List.length_take_of_le (by omega)
      have hpos : 0 < pathMax := by decide
      have hlen := congrArg List.length heq
      rw [List.length_append, List.length_append, hcut] at hlen
      cases c <;> cases d <;> simp only [Bool.false_eq_true, if_false, if_true, List.length_nil,
        List.length_singleton, List.append_nil] at hlen heq
      · omega
      · omega
      · rw [← heq] at hlast
        simp at hlast
      · omega
  · rintro ⟨hlt, rfl⟩
    rw [snprintf_of_lt hlt]

end Paths

/-! ## The listing follows the walk -/

section Listing

variable {m : Mounted} {showHidden : Bool} {names : List Name} {up : List FileTree}

theorem allLines_map_some (l : List α) (f : α → List (List Byte)) :
    allLines (l.map fun a => some (f a)) = some (l.flatMap f) := by
  induction l with
  | nil => rfl
  | cons a l ih =>
    rw [List.map_cons, allLines, ih]
    rfl

/-- The entries of a directory, in the order of the walk. -/
theorem readSortedEntries_eq {es : List (Name × FileTree)} {absPath : List Byte}
    (h : m.lookup absPath = some (.dir es)) :
    readSortedEntries m absPath showHidden =
      (sorted strcmpLe (visible showHidden) es).map (·.1) := by
  have hdot : visible showHidden [Byte.dot] = false := by simp [visible]
  have hdots : visible showHidden [Byte.dot, Byte.dot] = false := by simp [visible]
  rw [readSortedEntries, Mounted.readdir, h]
  simp only [Option.getD_some, List.filter_cons, hdot, hdots, Bool.false_eq_true, if_false,
    List.filter_map]
  have hsort : ∀ l : List (Name × FileTree),
      (l.mergeSort fun a b => strcmpLe a.1 b.1).map (·.1) = (l.map (·.1)).mergeSort strcmpLe :=
    fun l => List.map_mergeSort fun _ _ _ _ => rfl
  exact (hsort _).symm

theorem lookup_entry {t : FileTree} {path : List Name}
    (hat : stepThrough m.stack ([] :: path) = some (t :: up)) (h : ∀ n ∈ path, ValidName n)
    (hfit : (pathOf m.path path).length < pathMax) : m.lookup (pathOf m.path path) = some t := by
  rw [lookup_pathOf (fun n hn => (h n hn).slash_notMem) hfit, hat]
  rfl

theorem isDirectory_entry {t : FileTree} {path : List Name}
    (hat : stepThrough m.stack ([] :: path) = some (t :: up)) (h : ∀ n ∈ path, ValidName n)
    (hfit : (pathOf m.path path).length < pathMax) :
    m.isDirectory (pathOf m.path path) = t.isDir := by
  rw [Mounted.isDirectory, lookup_entry hat h hfit]
  rfl

theorem stepThrough_child {es : List (Name × FileTree)} (hnodup : (es.map (·.1)).Nodup)
    {e : Name × FileTree} (he : e ∈ es) (hvalid : ValidName e.1)
    (hat : stepThrough m.stack ([] :: names) = some (.dir es :: up)) :
    stepThrough m.stack ([] :: (names ++ [e.1])) = some (e.2 :: .dir es :: up) := by
  rw [← List.cons_append, stepThrough_append, hat, Option.bind_some, stepThrough,
    stepInto_child hnodup he hvalid, Option.bind_some, stepThrough]

theorem validName_concat {name : Name} (hnames : ∀ n ∈ names, ValidName n)
    (hname : ValidName name) : ∀ n ∈ names ++ [name], ValidName n := by
  rw [List.forall_mem_append]
  exact ⟨hnames, fun n hn => List.mem_singleton.mp hn ▸ hname⟩

theorem walk_eq_nil {t : FileTree} (h : t.isDir = false) :
    walk strcmpLe (visible showHidden) t = [] := by
  cases t with
  | leaf => rw [walk]
  | dir es => cases h

theorem not_visits_of_walk {t : FileTree} (h : walk strcmpLe (visible showHidden) t = [])
    {path : List Name} {d : Bool} : ¬ Visits (visible showHidden) t path d := by
  intro hv
  have hmem : (path, d) ∈ walk strcmpLe (visible showHidden) t := mem_walk_iff.mpr hv
  rw [h] at hmem
  cases hmem

/-- **The listing follows the walk** of the tree, if the buffers are safe for its entries. -/
theorem listRecursive_eq {t : FileTree} (hwf : WellFormed t) (hdir : t.isDir = true)
    (hat : stepThrough m.stack ([] :: names) = some (t :: up)) (hnames : ∀ n ∈ names, ValidName n)
    (hlen : (pathOf m.path names).length < pathMax)
    (hsafe : ∀ path d, Visits (visible showHidden) t path d →
      BufferSafe m showHidden (names ++ path) d) (hdepth : sizeOf t < depth) :
    listRecursive m showHidden depth (pathOf m.path names) (joinNames names) =
      some ((walk strcmpLe (visible showHidden) t).map fun w => entryLine (names ++ w.1, w.2)) := by
  induction hwf generalizing names up depth with
  | leaf => cases hdir
  | @dir es hnodup hvalid hchildren ih =>
    obtain ⟨depth, rfl⟩ : ∃ n, depth = n + 1 := ⟨depth - 1, by omega⟩
    rw [listRecursive, readSortedEntries_eq (lookup_entry hat hnames hlen), List.map_map, walk_dir,
      List.map_flatMap, ← allLines_map_some]
    refine congrArg allLines (List.map_congr_left fun e he => ?_)
    obtain ⟨hes, hkeep⟩ := mem_sorted.mp he
    have hsize := sizeOf_child_lt hes
    have hnames' := validName_concat hnames (hvalid e hes)
    have hat' := stepThrough_child hnodup hes (hvalid e hes) hat
    obtain ⟨-, hsafe'⟩ := hsafe [e.1] _ (.here hes hkeep)
    rw [Function.comp_apply, childAbs_eq, displayed_eq hnames]
    by_cases hfit : (pathOf m.path (names ++ [e.1])).length < pathMax
    · -- the path leads to the entry
      rw [snprintf_of_lt hfit, snprintf_of_lt (length_joinNames_lt (by simp) hfit),
        isDirectory_entry hat' hnames' hfit]
      by_cases hd : e.2.isDir = true
      · rw [if_pos hd, ih e hes hd hat' hnames' hfit (fun path d hv => by
          rw [List.append_assoc]
          exact hsafe (e.1 :: path) d (.deeper hes hkeep hv)) (by omega)]
        simp [entryLine, hd, Function.comp_def]
      · rw [if_neg hd, walk_eq_nil (Bool.eq_false_iff.mpr hd)]
        simp [entryLine, hd]
    · -- the path is cut off, and nothing is listed where it leads
      obtain ⟨hjoin, hisDir, hempty⟩ := hsafe'.resolve_left hfit
      have hwalk : walk strcmpLe (visible showHidden) e.2 = [] := by
        refine List.eq_nil_iff_forall_not_mem.mpr fun ⟨path, d⟩ hw => hfit ?_
        have hv := mem_walk_iff.mp hw
        have hlt := (hsafe (e.1 :: path) d (.deeper hes hkeep hv)).1
        rw [List.append_cons, List.dropLast_append_of_ne_nil hv.ne_nil] at hlt
        exact (length_pathOf_le _ _ _).trans_lt hlt
      rw [snprintf_of_lt hjoin, hisDir, hwalk]
      by_cases hd : e.2.isDir = true
      · obtain ⟨depth, rfl⟩ : ∃ n, depth = n + 1 := ⟨depth - 1, by omega⟩
        rw [if_pos hd, listRecursive, hempty hd]
        simp [entryLine, hd, allLines]
      · rw [if_neg hd]
        simp [entryLine, hd]

/-- **A path of full length** stays as it is when a name is added, so a directory there that
    has an entry is listed again and again. -/
theorem listRecursive_of_full {absPath : List Byte} (hlen : absPath.length + 1 = pathMax)
    (hdir : m.isDirectory absPath = true) (hne : readSortedEntries m absPath showHidden ≠ [])
    (depth : ℕ) (pre : List Byte) : listRecursive m showHidden depth absPath pre = none := by
  induction depth generalizing pre with
  | zero => rfl
  | succ depth ih =>
    obtain ⟨name, rest, hentries⟩ := List.exists_cons_of_ne_nil hne
    have hchild : childAbs absPath name = absPath := snprintf_append_of_length hlen _
    rw [listRecursive, hentries, List.map_cons, hchild, if_pos hdir, ih]
    rfl

/-- The entry whose path that is has one line, if the listing ends. -/
theorem lines_of_full {absPath line : List Byte} (hlen : absPath.length + 1 = pathMax)
    (h : (if m.isDirectory absPath then
        (listRecursive m showHidden depth absPath line).map ((line ++ [Byte.slash]) :: ·)
      else some [line]) = some lines) :
    lines = [line ++ if m.isDirectory absPath then [Byte.slash] else []] ∧
    (m.isDirectory absPath = true → readSortedEntries m absPath showHidden = []) := by
  by_cases hdir : m.isDirectory absPath = true
  · rw [if_pos hdir, Option.map_eq_some_iff] at h
    obtain ⟨below, hbelow, rfl⟩ := h
    have hempty : readSortedEntries m absPath showHidden = [] := by
      by_contra hne
      rw [listRecursive_of_full hlen hdir hne] at hbelow
      cases hbelow
    cases depth with
    | zero => cases hbelow
    | succ depth =>
      rw [listRecursive, hempty] at hbelow
      cases hbelow
      rw [if_pos hdir]
      exact ⟨rfl, fun _ => hempty⟩
  · rw [if_neg hdir] at h
    cases h
    rw [if_neg hdir, List.append_nil]
    exact ⟨rfl, fun h => absurd h hdir⟩

theorem allLines_eq_some {l : List α} {f : α → Option (List (List Byte))}
    (h : allLines (l.map f) = some lines) :
    (∀ a ∈ l, f a = some ((f a).getD [])) ∧ lines = l.flatMap fun a => (f a).getD [] := by
  induction l generalizing lines with
  | nil => exact ⟨List.forall_mem_nil _, (Option.some.inj h).symm⟩
  | cons a l ih =>
    rw [List.map_cons] at h
    cases hf : f a with
    | none =>
      rw [hf] at h
      cases h
    | some ls =>
      rw [hf, allLines, Option.map_eq_some_iff] at h
      obtain ⟨rest, hrest, rfl⟩ := h
      obtain ⟨hall, rfl⟩ := ih hrest
      rw [List.forall_mem_cons, List.flatMap_cons, hf]
      exact ⟨⟨rfl, hall⟩, rfl⟩

theorem length_flatMap_le {β : Type*} {l : List α} {f g : α → List β}
    (hle : ∀ a ∈ l, (f a).length ≤ (g a).length) :
    (l.flatMap f).length ≤ (l.flatMap g).length := by
  rw [List.length_flatMap, List.length_flatMap]
  exact List.sum_le_sum hle

/-- Blocks that are no longer than others are equal to them if the whole lists are equal. -/
theorem eq_of_flatMap_eq {β : Type*} {l : List α} {f g : α → List β}
    (hle : ∀ a ∈ l, (f a).length ≤ (g a).length) (h : l.flatMap f = l.flatMap g) :
    ∀ a ∈ l, f a = g a := by
  induction l with
  | nil => exact List.forall_mem_nil _
  | cons a l ih =>
    rw [List.forall_mem_cons] at hle ⊢
    rw [List.flatMap_cons, List.flatMap_cons] at h
    have hrest : (l.flatMap f).length ≤ (l.flatMap g).length := length_flatMap_le hle.2
    have hlen := congrArg List.length h
    rw [List.length_append, List.length_append] at hlen
    obtain ⟨hhead, htail⟩ := List.append_inj h (by omega)
    exact ⟨hhead, ih hle.2 htail⟩

/-- The lines that `list_recursive` prints for one entry, if it ends: no more than the walk has
    there. If they are those of the walk, the buffers are safe. -/
theorem entry_safe {e : Name × FileTree} (hat : stepThrough m.stack ([] :: (names ++ [e.1])) =
      some (e.2 :: up)) (hnames : ∀ n ∈ names, ValidName n) (hname : ValidName e.1)
    (hlen : (pathOf m.path names).length < pathMax)
    (hchild : e.2.isDir = true → (pathOf m.path (names ++ [e.1])).length < pathMax →
      ∀ below, listRecursive m showHidden depth (pathOf m.path (names ++ [e.1]))
        (joinNames (names ++ [e.1])) = some below →
      below.length ≤ (walk strcmpLe (visible showHidden) e.2).length ∧
      (below = (walk strcmpLe (visible showHidden) e.2).map
          (fun w => entryLine (names ++ [e.1] ++ w.1, w.2)) →
        ∀ path d, Visits (visible showHidden) e.2 path d →
          BufferSafe m showHidden (names ++ [e.1] ++ path) d))
    (hlines : (if m.isDirectory (childAbs (pathOf m.path names) e.1) then
        (listRecursive m showHidden depth (childAbs (pathOf m.path names) e.1)
          (displayed (joinNames names) e.1)).map
          ((displayed (joinNames names) e.1 ++ [Byte.slash]) :: ·)
      else some [displayed (joinNames names) e.1]) = some lines) :
    lines.length ≤ (walk strcmpLe (visible showHidden) e.2).length + 1 ∧
    (lines = entryLine (names ++ [e.1], e.2.isDir) ::
        (walk strcmpLe (visible showHidden) e.2).map
          (fun w => entryLine (names ++ [e.1] ++ w.1, w.2)) →
      BufferSafe m showHidden (names ++ [e.1]) e.2.isDir ∧
      ∀ path d, Visits (visible showHidden) e.2 path d →
        BufferSafe m showHidden (names ++ [e.1] ++ path) d) := by
  have hdrop : (pathOf m.path (names ++ [e.1]).dropLast).length < pathMax := by
    rwa [List.dropLast_concat]
  rw [childAbs_eq, displayed_eq hnames] at hlines
  by_cases hfit : (pathOf m.path (names ++ [e.1])).length < pathMax
  · rw [snprintf_of_lt hfit, snprintf_of_lt (length_joinNames_lt (by simp) hfit),
      isDirectory_entry hat (validName_concat hnames hname) hfit] at hlines
    by_cases hd : e.2.isDir = true
    · rw [if_pos hd, Option.map_eq_some_iff] at hlines
      obtain ⟨below, hbelow, rfl⟩ := hlines
      obtain ⟨hle, hsafe⟩ := hchild hd hfit below hbelow
      refine ⟨Nat.succ_le_succ hle, fun heq => ⟨⟨hdrop, .inl hfit⟩, hsafe (List.cons.inj heq).2⟩⟩
    · rw [if_neg hd] at hlines
      cases hlines
      refine ⟨Nat.le_add_left _ _, fun _ => ⟨⟨hdrop, .inl hfit⟩, fun path d hv => absurd hv ?_⟩⟩
      exact not_visits_of_walk (walk_eq_nil (Bool.eq_false_iff.mpr hd))
  · -- nothing is listed below a path that is cut off
    have hfull : (snprintf pathMax (pathOf m.path (names ++ [e.1]))).length + 1 = pathMax := by
      rw [snprintf, List.length_take_of_le (by omega)]
      rfl
    obtain ⟨rfl, hempty⟩ := lines_of_full hfull hlines
    refine ⟨Nat.le_add_left _ _, fun heq => ?_⟩
    obtain ⟨hhead, htail⟩ := List.cons.inj heq
    obtain ⟨hjoin, hisDir⟩ := (snprintf_eq_entryLine_iff hname _ _).mp hhead
    refine ⟨⟨hdrop, .inr ⟨hjoin, hisDir, fun hd => hempty (hisDir.trans hd)⟩⟩,
      fun path d hv => absurd hv ?_⟩
    exact not_visits_of_walk (List.map_eq_nil_iff.mp htail.symm)

/-- A listing that ends has no more lines than the walk, and if it has those of the walk, the
    buffers are safe for all entries. -/
theorem listRecursive_safe {t : FileTree} (hwf : WellFormed t) (hdir : t.isDir = true)
    (hat : stepThrough m.stack ([] :: names) = some (t :: up)) (hnames : ∀ n ∈ names, ValidName n)
    (hlen : (pathOf m.path names).length < pathMax)
    (hlines : listRecursive m showHidden depth (pathOf m.path names) (joinNames names) =
      some lines) :
    lines.length ≤ (walk strcmpLe (visible showHidden) t).length ∧
    (lines = (walk strcmpLe (visible showHidden) t).map (fun w => entryLine (names ++ w.1, w.2)) →
      ∀ path d, Visits (visible showHidden) t path d →
        BufferSafe m showHidden (names ++ path) d) := by
  induction hwf generalizing names up depth lines with
  | leaf => cases hdir
  | @dir es hnodup hvalid hchildren ih =>
    cases depth with
    | zero => cases hlines
    | succ depth =>
    rw [listRecursive, readSortedEntries_eq (lookup_entry hat hnames hlen), List.map_map] at hlines
    obtain ⟨hall, rfl⟩ := allLines_eq_some hlines
    have hentry := fun e (he : e ∈ sorted strcmpLe (visible showHidden) es) =>
      have hes := (mem_sorted.mp he).1
      entry_safe (stepThrough_child hnodup hes (hvalid e hes) hat) hnames (hvalid e hes) hlen
        (fun hd hfit below hbelow => ih e hes hd (stepThrough_child hnodup hes (hvalid e hes) hat)
          (validName_concat hnames (hvalid e hes)) hfit hbelow) (hall e he)
    have hwalk : (walk strcmpLe (visible showHidden) (.dir es)).map
          (fun w => entryLine (names ++ w.1, w.2)) =
        (sorted strcmpLe (visible showHidden) es).flatMap fun e =>
          entryLine (names ++ [e.1], e.2.isDir) :: (walk strcmpLe (visible showHidden) e.2).map
            (fun w => entryLine (names ++ [e.1] ++ w.1, w.2)) := by
      simp [walk_dir, List.map_flatMap, Function.comp_def]
    rw [hwalk, ← List.length_map (fun w : List Name × Bool => entryLine (names ++ w.1, w.2)), hwalk]
    have hle := fun e he => (hentry e he).1
    refine ⟨length_flatMap_le fun e he => by simpa using hle e he, fun heq path d hv => ?_⟩
    have hblocks := eq_of_flatMap_eq (fun e he => by simpa using hle e he) heq
    cases hv with
    | @here _ e hmem hkeep =>
      have he : e ∈ sorted strcmpLe (visible showHidden) es := mem_sorted.mpr ⟨hmem, hkeep⟩
      exact ((hentry e he).2 (hblocks e he)).1
    | @deeper _ e path _ hmem hkeep hv =>
      have he : e ∈ sorted strcmpLe (visible showHidden) es := mem_sorted.mpr ⟨hmem, hkeep⟩
      rw [List.append_cons]
      exact ((hentry e he).2 (hblocks e he)).2 path d hv

end Listing

/-! ## The lines -/

section Lines

variable {names : List Name} {t : FileTree} {keep : Name → Bool}

theorem validName_of_visits (hwf : WellFormed t) {path : List Name} {d : Bool}
    (h : Visits keep t path d) : ∀ n ∈ path, ValidName n := by
  induction h with
  | here hmem hkeep =>
    cases hwf with
    | dir _ names _ => exact fun n hn => List.mem_singleton.mp hn ▸ names _ hmem
  | deeper hmem hkeep _ ih =>
    cases hwf with
    | dir _ names children =>
      rw [List.forall_mem_cons]
      exact ⟨names _ hmem, ih (children _ hmem)⟩

theorem split_joinNames (hne : names ≠ []) (h : ∀ n ∈ names, ValidName n) :
    split Byte.slash (joinNames names) = names := by
  induction names with
  | nil => exact absurd rfl hne
  | cons n names ih =>
    rw [List.forall_mem_cons] at h
    by_cases hnil : names = []
    · rw [hnil, joinNames, split_of_notMem h.1.slash_notMem]
    · rw [joinNames_cons hnil, split_append_of_notMem h.1.slash_notMem, ih hnil h.2]

theorem entryLine_injective {a b : List Name × Bool} (ha : a.1 ≠ []) (hb : b.1 ≠ [])
    (hva : ∀ n ∈ a.1, ValidName n) (hvb : ∀ n ∈ b.1, ValidName n)
    (h : entryLine a = entryLine b) : a = b := by
  have hsplit : ∀ e : List Name × Bool, e.1 ≠ [] → (∀ n ∈ e.1, ValidName n) →
      split Byte.slash (entryLine e) = e.1 ++ if e.2 then [[]] else [] := by
    rintro ⟨path, d⟩ hne hv
    cases d with
    | false => simpa [entryLine] using split_joinNames hne hv
    | true =>
      simp only [entryLine, if_true]
      rw [split_append, split_joinNames hne hv]
      rfl
  have heq := congrArg (split Byte.slash) h
  rw [hsplit a ha hva, hsplit b hb hvb] at heq
  obtain ⟨path, d⟩ := a
  obtain ⟨path', d'⟩ := b
  dsimp only at hva hvb heq
  -- No name is empty, so an empty field at the end means a directory on both sides.
  cases d <;> cases d'
  · simpa using heq
  · simp only [Bool.false_eq_true, if_false, if_true, List.append_nil] at heq
    exact absurd rfl (hva [] (by simp [heq])).ne_nil
  · simp only [Bool.false_eq_true, if_false, if_true, List.append_nil] at heq
    exact absurd rfl (hvb [] (by simp [← heq])).ne_nil
  · simpa using heq

end Lines

/-- **When `list_recursive` ends and lists each entry once.** The calls come to an end and the
    lines printed are those of the walk if and only if the buffers are safe for every entry
    that is not skipped. The lines of the walk: each entry that is not skipped has one line,
    its path from the start with a slash behind it exactly for a directory, and the lines
    stand in lexicographic order of the paths, that is, what a directory contains stands
    right behind its own line and in the order of `strcmp`. -/
theorem list_recursive_complete_iff (es : List (Name × FileTree)) (up : List FileTree)
    (start : List Byte) (showHidden : Bool) (hwf : WellFormed (.dir es))
    (hstart : start.length < pathMax) :
    (∃ entries : List (List Name × Bool),
      (∃ depth, ∀ n ≥ depth, listRecursive ⟨start, .dir es :: up⟩ showHidden n start [] =
        some (entries.map entryLine)) ∧
      (∀ path d, (path, d) ∈ entries ↔ Visits (visible showHidden) (.dir es) path d) ∧
      entries.Pairwise (fun a b => List.Lex (Before strcmpLe) a.1 b.1) ∧
      (entries.map entryLine).Nodup) ↔
    ∀ path d, Visits (visible showHidden) (.dir es) path d →
      BufferSafe ⟨start, .dir es :: up⟩ showHidden path d := by
  have hroot : pathOf start [] = start := List.append_nil start
  have hlen : (pathOf start []).length < pathMax := by rwa [hroot]
  constructor
  · rintro ⟨entries, ⟨depth, hlist⟩, hmem, hpair, -⟩
    obtain rfl := eq_walk strcmpLe_trans strcmpLe_total strcmpLe_antisymm hwf.distinct hmem hpair
    have hlines := hlist depth le_rfl
    nth_rewrite 2 [← hroot] at hlines
    exact (listRecursive_safe (m := ⟨start, .dir es :: up⟩) hwf rfl rfl (List.forall_mem_nil _)
      hlen hlines).2 rfl
  · intro hsafe
    refine ⟨walk strcmpLe (visible showHidden) (.dir es), ⟨sizeOf (NamedTree.dir es) + 1, ?_⟩,
      fun path d => mem_walk_iff, pairwise_walk strcmpLe_trans strcmpLe_total hwf.distinct, ?_⟩
    · intro n hn
      have hlist := listRecursive_eq (m := ⟨start, .dir es :: up⟩) hwf rfl rfl
        (List.forall_mem_nil _) hlen hsafe hn
      dsimp only at hlist
      rw [hroot] at hlist
      exact hlist
    · refine List.Nodup.map_on ?_ (nodup_walk strcmpLe_trans strcmpLe_total hwf.distinct)
      intro a ha b hb heq
      have hva := mem_walk_iff.mp ha
      have hvb := mem_walk_iff.mp hb
      exact entryLine_injective hva.ne_nil hvb.ne_nil (validName_of_visits hwf hva)
        (validName_of_visits hwf hvb) heq

/-- The path of a directory in directories: 15 names of 255 bytes and one of 254. -/
def deepPath : List Byte :=
  (List.replicate 15 (Byte.slash :: List.replicate 255 100)).flatten ++
    Byte.slash :: List.replicate 254 100

theorem length_deepPath : deepPath.length = 4095 := by
  rw [deepPath, List.length_append, List.length_flatten, List.map_replicate, List.length_cons,
    List.length_replicate, List.length_cons, List.length_replicate, List.sum_replicate]
  rfl

/-- The start has a path of 4090 bytes, so that the path of `abcdefgh` is cut off, but not to
    one that leads anywhere; those of `d` and of `d/f` fit. -/
theorem list_recursive_complete_cut :
    let start := deepPath.take 4090
    let es := [(ascii "abcdefgh", .leaf), (ascii "d", .dir [(ascii "f", .leaf)])]
    ∃ entries : List (List Name × Bool),
      (∃ depth, ∀ n ≥ depth, listRecursive ⟨start, [.dir es]⟩ false n start [] =
        some (entries.map entryLine)) ∧
      (∀ path d, (path, d) ∈ entries ↔ Visits (visible false) (.dir es) path d) ∧
      entries.Pairwise (fun a b => List.Lex (Before strcmpLe) a.1 b.1) ∧
      (entries.map entryLine).Nodup := by
  intro start es
  have hlen : start.length = 4090 := by
    rw [List.length_take, length_deepPath]
    rfl
  have hinner : WellFormed (.dir [(ascii "f", .leaf)]) :=
    .dir (List.nodup_singleton _)
      (List.forall_mem_singleton.mpr ⟨by decide, by decide, by decide, by decide, by decide⟩)
      (List.forall_mem_singleton.mpr .leaf)
  have hwf : WellFormed (.dir es) := by
    refine .dir (by decide) ?_ ?_
    · rw [List.forall_mem_cons, List.forall_mem_singleton]
      exact ⟨⟨by decide, by decide, by decide, by decide, by decide⟩,
        ⟨by decide, by decide, by decide, by decide, by decide⟩⟩
    · rw [List.forall_mem_cons, List.forall_mem_singleton]
      exact ⟨.leaf, hinner⟩
  refine (list_recursive_complete_iff es [] start false hwf (by rw [hlen]; decide)).mpr ?_
  clear_value start
  have hfits : ∀ names : List Name, (names.flatMap (Byte.slash :: ·)).length < 6 →
      (pathOf start names).length < pathMax := by
    intro names h
    rw [pathOf, List.length_append, hlen, pathMax]
    omega
  intro path d hv
  cases hv with
  | here hmem _ =>
    obtain rfl | hmem := List.mem_cons.mp hmem
    · have hcut : snprintf pathMax (pathOf start [ascii "abcdefgh"]) = start ++ ascii "/abcd" := by
        rw [snprintf, show pathMax - 1 = start.length + 5 by rw [hlen]; rfl, pathOf,
          List.take_length_add_append]
        rfl
      refine ⟨hfits [] (by decide), .inr ⟨by decide, ?_, fun h => by cases h⟩⟩
      have hfit : (start ++ ascii "/abcd").length < pathMax := by
        rw [List.length_append, hlen]
        decide
      rw [Mounted.isDirectory, hcut, Mounted.lookup, if_pos ⟨hfit, List.prefix_append _ _⟩,
        List.drop_left]
      rfl
    · cases List.mem_singleton.mp hmem
      exact ⟨hfits [] (by decide), .inl (hfits [ascii "d"] (by decide))⟩
  | deeper hmem _ hv =>
    obtain rfl | hmem := List.mem_cons.mp hmem
    · cases hv
    · cases List.mem_singleton.mp hmem
      cases hv with
      | here hmem _ =>
        cases List.mem_singleton.mp hmem
        exact ⟨hfits [ascii "d"] (by decide), .inl (hfits [ascii "d", ascii "f"] (by decide))⟩
      | deeper hmem _ hv =>
        cases List.mem_singleton.mp hmem
        cases hv

/-- The directory at that path holds the file `f`. -/
def deepDir : Mounted := ⟨deepPath, [.dir [(ascii "f", .leaf)]]⟩

theorem lookup_deepPath : deepDir.lookup deepPath = some (.dir [(ascii "f", .leaf)]) := by
  have hlen : deepPath.length < pathMax := by
    rw [length_deepPath]
    decide
  rw [Mounted.lookup, if_pos ⟨hlen, List.prefix_rfl⟩]
  show (stepThrough _ (split Byte.slash (deepPath.drop deepPath.length))).bind List.head? = _
  rw [List.drop_length]
  rfl

/-- The path of `f` is cut off to the path of the directory, so the directory is listed again,
    by a call nested in the first, and this at every depth. -/
theorem list_recursive_never_ends :
    deepPath.length < pathMax ∧ WellFormed (.dir [(ascii "f", .leaf)]) ∧
    ∀ showHidden depth, listRecursive deepDir showHidden depth deepPath [] = none := by
  refine ⟨by rw [length_deepPath]; decide, ?_, fun showHidden depth => ?_⟩
  · exact .dir (List.nodup_singleton _)
      (List.forall_mem_singleton.mpr ⟨by decide, by decide, by decide, by decide, by decide⟩)
      (List.forall_mem_singleton.mpr .leaf)
  · have hdir : deepDir.isDirectory deepPath = true := by
      rw [Mounted.isDirectory, lookup_deepPath]
      rfl
    have hentries : readSortedEntries deepDir deepPath showHidden ≠ [] := by
      have hkeep : visible showHidden (ascii "f") = true := by cases showHidden <;> decide
      simp [readSortedEntries_eq lookup_deepPath, sorted, hkeep]
    exact listRecursive_of_full (by rw [length_deepPath]; rfl) hdir hentries depth []

end MiniOs.Shell
