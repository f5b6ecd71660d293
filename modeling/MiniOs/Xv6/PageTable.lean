import Mathlib.Algebra.Order.BigOperators.Group.Finset
import MiniOs.Lib.RadixTree

/-!
# Page tables and physical pages

`kalloc.c` and the user part of `vm.c`. Addresses are page numbers. A page table is a tree of
height three with 512 entries a node, in which every node is a page of physical memory; `walk`
follows and extends such a tree. Contents are modelled for pages that hold data, and not for the
nodes of the page tables. A function has no result where the kernel panics.
-/

namespace MiniOs.Xv6.Vm

open RadixTree

variable {k : ℕ}

def PGSIZE : ℕ := 4096

def PHYSTOP : ℕ := 557056

def MAXVA : ℕ := 67108864

def TRAMPOLINE : ℕ := MAXVA - 1

def TRAPFRAME : ℕ := MAXVA - 2

abbrev Content := Fin PGSIZE → UInt8

/-- `memset(pa, c, PGSIZE)`. -/
def memset (c : UInt8) : Content := fun _ => c

/-- Physical memory: the free list, the contents, and the first page after the kernel. -/
structure Phys where
  free : List ℕ
  mem : ℕ → Content
  kend : ℕ

/-- A page that `kfree` takes. -/
def Phys.owns (m : Phys) (pg : ℕ) : Prop :=
  m.kend ≤ pg ∧ pg < PHYSTOP

instance (m : Phys) (pg : ℕ) : Decidable (m.owns pg) := inferInstanceAs (Decidable (_ ∧ _))

def Phys.write (m : Phys) (pg : ℕ) (c : Content) : Phys :=
  { m with mem := Function.update m.mem pg c }

theorem Phys.write_mem_self (m : Phys) (pg : ℕ) (c : Content) : (m.write pg c).mem pg = c :=
  Function.update_self ..

theorem Phys.write_mem_of_ne (m : Phys) {pg p : ℕ} (h : p ≠ pg) (c : Content) :
    (m.write pg c).mem p = m.mem p :=
  Function.update_of_ne h ..

/-- `kalloc`. The result is `none` if it returns 0. -/
def kalloc (m : Phys) : Option (ℕ × Phys) :=
  match m.free with
  | [] => none
  | pg :: free => some (pg, { m with free := free }.write pg (memset 5))

def kfree (m : Phys) (pg : ℕ) : Option Phys :=
  if m.owns pg then some ({ m with free := pg :: m.free }.write pg (memset 1)) else none

structure Perm where
  r : Bool
  w : Bool
  x : Bool
  u : Bool
  deriving DecidableEq

/-- A valid entry of a last-level page table. -/
structure Pte where
  page : ℕ
  perm : Perm
  deriving DecidableEq

abbrev Table := Tree 512 ℕ Pte 3

/-- `walk` without allocation, and the entry that it finds; `none` if it is not valid. -/
def lookup (t : Table) (va : ℕ) : Option Pte :=
  get t va

/-- `mappages` for one page. The Boolean is false if it returns -1. -/
def mappages (m : Phys) (t : Table) (va : ℕ) (pte : Pte) : Option (Phys × Table × Bool) :=
  if va < MAXVA then
    match insert 3 m.free t va pte with
    | (free, t', .done) => some ({ m with free := free }, t', true)
    | (free, t', .full) => some ({ m with free := free }, t', false)
    | (_, _, .taken) => none
  else none

def uvmcreate (m : Phys) : Option (Table × Phys) :=
  (kalloc m).map fun x => (.node x.1 fun _ => .empty, x.2)

/-- One turn of the loop of `uvmunmap`. -/
def unmapOne (m : Phys) (t : Table) (va : ℕ) (doFree : Bool) : Option (Phys × Table) :=
  if va < MAXVA then
    match lookup t va with
    | none => some (m, t)
    | some pte =>
      if doFree = true then (kfree m pte.page).map fun m => (m, erase 3 t va)
      else some (m, erase 3 t va)
  else none

def uvmunmap (m : Phys) (t : Table) (va : ℕ) : ℕ → Bool → Option (Phys × Table)
  | 0, _ => some (m, t)
  | n + 1, doFree => (unmapOne m t va doFree).bind fun x => uvmunmap x.1 x.2 (va + 1) n doFree

def roundUp (sz : ℕ) : ℕ :=
  (sz + (PGSIZE - 1)) / PGSIZE

def uvmdealloc (m : Phys) (t : Table) (oldsz newsz : ℕ) : Option (Phys × Table × ℕ) :=
  if newsz ≥ oldsz then some (m, t, oldsz)
  else if roundUp newsz < roundUp oldsz then
    (uvmunmap m t (roundUp newsz) (roundUp oldsz - roundUp newsz) true).map fun x =>
      (x.1, x.2, newsz)
  else some (m, t, newsz)

/-- The loop of `uvmalloc`, at page `a`; `start` is where it began. -/
def uvmallocLoop (m : Phys) (t : Table) (start a : ℕ) (perm : Perm) :
    ℕ → Option (Phys × Table × Bool)
  | 0 => some (m, t, true)
  | n + 1 =>
    match kalloc m with
    | none => (uvmdealloc m t (a * PGSIZE) (start * PGSIZE)).map fun x => (x.1, x.2.1, false)
    | some (pg, m) =>
      (mappages (m.write pg (memset 0)) t a ⟨pg, perm⟩).bind fun x =>
        if x.2.2 = true then uvmallocLoop x.1 x.2.1 start (a + 1) perm n
        else
          (kfree x.1 pg).bind fun m =>
            (uvmdealloc m x.2.1 (a * PGSIZE) (start * PGSIZE)).map fun x => (x.1, x.2.1, false)

/-- `uvmalloc`; the size is 0 if it fails. `perm` is `PTE_R | PTE_U | xperm`. -/
def uvmalloc (m : Phys) (t : Table) (oldsz newsz : ℕ) (perm : Perm) : Option (Phys × Table × ℕ) :=
  if newsz < oldsz then some (m, t, oldsz)
  else
    (uvmallocLoop m t (roundUp oldsz) (roundUp oldsz) perm (roundUp newsz - roundUp oldsz)).map
      fun x => (x.1, x.2.1, if x.2.2 = true then newsz else 0)

/-- `freewalk`. The entries that point to a lower level have no permission bits, and all others
    have `PTE_R`, so the two cases of its test are those of the tree. -/
def freewalk (m : Phys) (t : Table) : Option Phys :=
  (release t).bind fun pages => pages.foldlM kfree m

def uvmfree (m : Phys) (t : Table) (sz : ℕ) : Option Phys :=
  (if sz > 0 then uvmunmap m t 0 (roundUp sz) true else some (m, t)).bind fun x =>
    freewalk x.1 x.2

def uvmcopyLoop (m : Phys) (old new : Table) (i : ℕ) : ℕ → Option (Phys × Table × Bool)
  | 0 => some (m, new, true)
  | n + 1 =>
    if i < MAXVA then
      match lookup old i with
      | none => uvmcopyLoop m old new (i + 1) n
      | some pte =>
        match kalloc m with
        | none => (uvmunmap m new 0 i true).map fun x => (x.1, x.2, false)
        | some (pg, m) =>
          (mappages (m.write pg (m.mem pte.page)) new i ⟨pg, pte.perm⟩).bind fun x =>
            if x.2.2 = true then uvmcopyLoop x.1 old x.2.1 (i + 1) n
            else
              (kfree x.1 pg).bind fun m =>
                (uvmunmap m x.2.1 0 i true).map fun x => (x.1, x.2, false)
    else none

def uvmcopy (m : Phys) (old new : Table) (sz : ℕ) : Option (Phys × Table × Bool) :=
  uvmcopyLoop m old new 0 (roundUp sz)

def uvmclear (t : Table) (k : ℕ) : Option Table :=
  (lookup t k).map fun _ =>
    modify (fun pte => { pte with perm := { pte.perm with u := false } }) 3 t k

/-! ### Where the pages are -/

/-- The number of keys of a page table, of which user space is the first half. -/
def KEYS : ℕ := 134217728

theorem mod_keys (h : k < KEYS) : k % 512 ^ 3 = k :=
  Nat.mod_eq_of_lt (h.trans_eq rfl)

/-- Whether an entry maps page `pg`. -/
def maps (o : Option Pte) (pg : ℕ) : ℕ :=
  if o.map Pte.page = some pg then 1 else 0

def leafUses (t : Table) (pg : ℕ) : ℕ :=
  ∑ k ∈ Finset.range TRAPFRAME, maps (lookup t k) pg

/-- How often page `pg` is in the free list, a node of the table, or mapped by it. -/
def held (m : Phys) (t : Table) (pg : ℕ) : ℕ :=
  m.free.count pg + labels t pg + leafUses t pg

section

variable {m m' : Phys} {t t' : Table} {va pg : ℕ} {pte : Pte}

@[simp]
theorem maps_none : maps none pg = 0 := rfl

theorem maps_some : maps (some pte) pg = if pte.page = pg then 1 else 0 := by
  simp [maps]

theorem leafUses_congr_page
    (h : ∀ k < TRAPFRAME, (lookup t' k).map Pte.page = (lookup t k).map Pte.page) :
    leafUses t' pg = leafUses t pg :=
  Finset.sum_congr rfl fun k hk => by rw [maps, maps, h k (Finset.mem_range.mp hk)]

theorem leafUses_congr (h : ∀ k < TRAPFRAME, lookup t' k = lookup t k) :
    leafUses t' pg = leafUses t pg :=
  leafUses_congr_page fun k hk => by rw [h k hk]

theorem leafUses_update (pg : ℕ) (hva : va < TRAPFRAME)
    (h : ∀ k < TRAPFRAME, k ≠ va → lookup t' k = lookup t k) :
    leafUses t' pg + maps (lookup t va) pg = leafUses t pg + maps (lookup t' va) pg := by
  have hmem : va ∈ Finset.range TRAPFRAME := Finset.mem_range.mpr hva
  have hrest : ∑ k ∈ (Finset.range TRAPFRAME).erase va, maps (lookup t' k) pg =
      ∑ k ∈ (Finset.range TRAPFRAME).erase va, maps (lookup t k) pg := by
    refine Finset.sum_congr rfl fun k hk => ?_
    obtain ⟨hne, hk⟩ := Finset.mem_erase.mp hk
    rw [h k (Finset.mem_range.mp hk) hne]
  rw [leafUses, leafUses, ← Finset.add_sum_erase _ _ hmem, ← Finset.add_sum_erase _ _ hmem, hrest]
  omega

theorem leafUses_pos (hva : va < TRAPFRAME) (h : lookup t va = some pte) :
    0 < leafUses t pte.page := by
  have hle : maps (lookup t va) pte.page ≤ leafUses t pte.page :=
    Finset.single_le_sum (f := fun k => maps (lookup t k) pte.page) (fun _ _ => Nat.zero_le _)
      (Finset.mem_range.mpr hva)
  rw [h, maps_some, if_pos rfl] at hle
  exact hle

theorem eq_of_lookup {j : ℕ} {pte' : Pte} (hj : j < TRAPFRAME) (hk : k < TRAPFRAME)
    (hlookup : lookup t j = some pte) (hlookup' : lookup t k = some pte')
    (hpage : pte'.page = pte.page) (honce : leafUses t pte.page ≤ 1) : j = k := by
  by_contra hne
  have hkeys : TRAPFRAME < KEYS := by decide
  -- without the entry at `j` the page is still mapped at `k`
  have herase : ∀ i < TRAPFRAME, i ≠ j → get (erase 3 t j) i = get t i := fun i hi hij => by
    rw [get_erase, mod_keys (by omega), mod_keys (by omega), if_neg hij]
  have huses := leafUses_update (t := t) pte.page hj herase
  have hpos : 0 < leafUses (erase 3 t j) pte'.page :=
    leafUses_pos hk (by rw [lookup, herase k hk (Ne.symm hne)]; exact hlookup')
  have hgone : lookup (erase 3 t j) j = none := by
    rw [lookup, get_erase, if_pos rfl]
  rw [hlookup, hgone, maps_none, maps_some, if_pos rfl] at huses
  rw [hpage] at hpos
  omega

/-! ### One page -/

theorem kalloc_eq_some {m' : Phys} (h : kalloc m = some (pg, m')) :
    m.free = pg :: m'.free ∧ m'.kend = m.kend ∧ ∀ p, p ≠ pg → m'.mem p = m.mem p := by
  rw [kalloc] at h
  split at h
  · cases h
  · next pg' free hfree =>
    cases h
    exact ⟨hfree, rfl, fun p hp => Function.update_of_ne hp ..⟩

theorem kfree_eq_some (h : m.owns pg) :
    ∃ m', kfree m pg = some m' ∧ m'.free = pg :: m.free ∧ m'.kend = m.kend ∧
      ∀ p, p ≠ pg → m'.mem p = m.mem p :=
  ⟨_, if_pos h, rfl, rfl, fun _ hp => Function.update_of_ne hp ..⟩

/-- `mappages` extends the tree, and sets the entry if it gets all the nodes that it needs. -/
theorem mappages_spec (pte : Pte) (hva : va < MAXVA) (hnone : lookup t va = none) :
    ∃ m' t' ok, mappages m t va pte = some (m', t', ok) ∧ m'.mem = m.mem ∧ m'.kend = m.kend ∧
      m'.free <:+ m.free ∧
      (∀ pg, labels t' pg + m'.free.count pg = labels t pg + m.free.count pg) ∧
      ∀ k < KEYS, lookup t' k = if ok = true ∧ k = va then some pte else lookup t k := by
  have hlabels := labels_insert (n := 3) (t := t) (k := va) m.free pte
  have hsuffix := insert_free_suffix m.free t va pte
  have htaken := insert_ne_taken (a := pte) m.free hnone
  have hmod : va % 512 ^ 3 = va := mod_keys (hva.trans (by decide))
  rw [mappages, if_pos hva]
  match hinsert : insert 3 m.free t va pte with
  | (free, t', .done) =>
    rw [hinsert] at hlabels hsuffix
    refine ⟨_, t', true, rfl, rfl, rfl, hsuffix, hlabels, fun k hk => ?_⟩
    rw [lookup, get_insert_done hinsert, hmod, mod_keys hk]
    simp [lookup]
  | (free, t', .full) =>
    rw [hinsert] at hlabels hsuffix
    refine ⟨_, t', false, rfl, rfl, rfl, hsuffix, hlabels, fun k hk => ?_⟩
    rw [lookup, get_insert_full hinsert]
    simp [lookup]
  | (free, t', .taken) =>
    rw [hinsert] at htaken
    exact absurd rfl htaken

theorem lookup_erase (hva : va < KEYS) (hk : k < KEYS) :
    lookup (erase 3 t va) k = if k = va then none else lookup t k := by
  rw [lookup, get_erase, mod_keys hk, mod_keys hva, lookup]

theorem unmapOne_free (hva : va < TRAPFRAME)
    (howns : ∀ pte, lookup t va = some pte → m.owns pte.page) :
    ∃ m' t', unmapOne m t va true = some (m', t') ∧ m'.kend = m.kend ∧
      (∀ pg, labels t' pg = labels t pg ∧ held m' t' pg = held m t pg) ∧
      (∀ k < KEYS, lookup t' k = if k = va then none else lookup t k) ∧
      ∀ pg, (lookup t va).map Pte.page ≠ some pg → m'.mem pg = m.mem pg ∧
        (pg ∈ m'.free → pg ∈ m.free) := by
  have hmax : va < MAXVA := hva.trans (by decide)
  have hkey : va < KEYS := hmax.trans (by decide)
  rw [unmapOne, if_pos hmax]
  cases hlookup : lookup t va with
  | none =>
    refine ⟨m, t, rfl, rfl, fun _ => ⟨rfl, rfl⟩, fun k _ => ?_, fun _ _ => ⟨rfl, id⟩⟩
    split
    · next hk => rw [hk, hlookup]
    · rfl
  | some pte =>
    obtain ⟨m', hfree, hlist, hkend, hmem⟩ := kfree_eq_some (howns pte hlookup)
    refine ⟨m', erase 3 t va, ?_, hkend, fun pg => ⟨labels_erase pg, ?_⟩,
      fun k hk => lookup_erase hkey hk, fun pg hpg => ?_⟩
    · simp only [if_true, hfree, Option.map_some]
    · have huses : leafUses (erase 3 t va) pg + maps (lookup t va) pg =
          leafUses t pg + maps (lookup (erase 3 t va) va) pg := by
        refine leafUses_update pg hva fun k hk hne => ?_
        rw [lookup_erase hkey (hk.trans (by decide)), if_neg hne]
      rw [hlookup, maps_some, lookup_erase hkey hkey, if_pos rfl, maps_none] at huses
      rw [held, held, labels_erase, hlist, List.count_cons]
      simp only [beq_iff_eq]
      omega
    · have hne : pg ≠ pte.page := fun heq => hpg (by rw [heq]; rfl)
      refine ⟨hmem pg hne, fun hin => ?_⟩
      rw [hlist] at hin
      exact (List.mem_cons.mp hin).resolve_left hne

theorem uvmunmap_free (va n : ℕ) (hn : va + n ≤ TRAPFRAME)
    (howns : ∀ k pte, va ≤ k → k < va + n → lookup t k = some pte → m.owns pte.page) :
    ∃ m' t', uvmunmap m t va n true = some (m', t') ∧ m'.kend = m.kend ∧
      (∀ pg, labels t' pg = labels t pg ∧ held m' t' pg = held m t pg) ∧
      (∀ k < KEYS, lookup t' k = if va ≤ k ∧ k < va + n then none else lookup t k) ∧
      ∀ pg, (∀ k, va ≤ k → k < va + n → (lookup t k).map Pte.page ≠ some pg) →
        m'.mem pg = m.mem pg ∧ (pg ∈ m'.free → pg ∈ m.free) := by
  induction n generalizing m t va with
  | zero =>
    refine ⟨m, t, rfl, rfl, fun _ => ⟨rfl, rfl⟩, fun k _ => ?_, fun _ _ => ⟨rfl, id⟩⟩
    rw [if_neg (by omega)]
  | succ n ih =>
    obtain ⟨m₁, t₁, hone, hkend₁, hheld₁, hlookup₁, hmem₁⟩ :=
      unmapOne_free (m := m) (t := t) (show va < TRAPFRAME by omega) fun pte =>
        howns va pte le_rfl (by omega)
    have hkeys : TRAPFRAME < KEYS := by decide
    have hlater : ∀ k, va + 1 ≤ k → k < va + 1 + n → lookup t₁ k = lookup t k := by
      intro k hle hlt
      rw [hlookup₁ k (by omega), if_neg (by omega)]
    obtain ⟨m₂, t₂, hrest, hkend₂, hheld₂, hlookup₂, hmem₂⟩ :=
      ih (m := m₁) (t := t₁) (va + 1) (by omega) (fun k pte hle hlt hk => by
        rw [hlater k hle hlt] at hk
        have hown := howns k pte (by omega) (by omega) hk
        rwa [Phys.owns, hkend₁])
    refine ⟨m₂, t₂, ?_, hkend₂.trans hkend₁, fun pg => ⟨(hheld₂ pg).1.trans (hheld₁ pg).1,
      (hheld₂ pg).2.trans (hheld₁ pg).2⟩, fun k hk => ?_, fun pg hpg => ?_⟩
    · rw [uvmunmap, hone, Option.bind_some, hrest]
    · rw [hlookup₂ k hk, hlookup₁ k hk]
      by_cases hva : k = va
      · simp [hva]
      · simp only [hva, if_false]
        congr 1
        simp only [eq_iff_iff]
        omega
    · obtain ⟨hmem, hfree⟩ := hmem₁ pg (hpg va le_rfl (by omega))
      obtain ⟨hmem', hfree'⟩ := hmem₂ pg fun k hle hlt => by
        rw [hlater k hle hlt]
        exact hpg k (by omega) (by omega)
      exact ⟨hmem'.trans hmem, fun hin => hfree (hfree' hin)⟩

/-! ### Pages that are filled one after the other -/

/-- What the functions rely on: no page is held twice, and `kfree` takes the free ones. -/
structure Fine (m : Phys) (t : Table) : Prop where
  once : ∀ pg, held m t pg ≤ 1
  owns : ∀ pg ∈ m.free, m.owns pg

/-- Between `lo` and `hi`, table `t` has new pages with the permissions and contents that `F`
    says, and elsewhere it is like `t₀`. All new pages come from the free list of `m₀`. -/
structure Filled (m₀ : Phys) (t₀ : Table) (F : ℕ → Option (Perm × Content)) (lo hi : ℕ) (m : Phys)
    (t : Table) : Prop where
  kend : m.kend = m₀.kend
  held : ∀ pg, held m t pg = held m₀ t₀ pg
  free : ∀ pg ∈ m.free, pg ∈ m₀.free
  mem : ∀ pg ∉ m₀.free, m.mem pg = m₀.mem pg
  old : ∀ k < KEYS, ¬ (lo ≤ k ∧ k < hi) → lookup t k = lookup t₀ k
  none : ∀ k, lo ≤ k → k < hi → F k = none → lookup t k = Option.none
  some : ∀ k perm c, lo ≤ k → k < hi → F k = Option.some (perm, c) →
    ∃ pg ∈ m₀.free, lookup t k = Option.some ⟨pg, perm⟩ ∧ m.mem pg = c

namespace Filled

variable {m₀ m₁ : Phys} {t₀ : Table} {F : ℕ → Option (Perm × Content)} {lo hi a : ℕ} {perm : Perm}
  {c : Content}

theorem refl (m₀ : Phys) (t₀ : Table) (F : ℕ → Option (Perm × Content)) (lo : ℕ) :
    Filled m₀ t₀ F lo lo m₀ t₀ :=
  ⟨rfl, fun _ => rfl, fun _ => id, fun _ _ => rfl, fun _ _ _ => rfl, fun _ _ _ => by omega,
    fun _ _ _ _ _ => by omega⟩

theorem not_free (h : Filled m₀ t₀ F lo hi m t) (hfine : Fine m₀ t₀) (hva : va < TRAPFRAME)
    (hlookup : lookup t va = Option.some pte) : pte.page ∉ m.free := by
  intro hfree
  have hpos := leafUses_pos hva hlookup
  have hcount : 0 < m.free.count pte.page := List.count_pos_iff.mpr hfree
  have honce := hfine.once pte.page
  rw [← h.held, Vm.held] at honce
  omega

theorem was_free (h : Filled m₀ t₀ F lo hi m t) (hle : lo ≤ k) (hlt : k < hi)
    (hlookup : lookup t k = Option.some pte) : pte.page ∈ m₀.free := by
  cases hF : F k with
  | none => rw [h.none k hle hlt hF] at hlookup; cases hlookup
  | some x =>
    obtain ⟨pg, hpg, hk, -⟩ := h.some k x.1 x.2 hle hlt hF
    rw [hk] at hlookup
    cases hlookup
    exact hpg

theorem undo (h : Filled m₀ t₀ F lo hi m t) (hfine : Fine m₀ t₀) (hle : lo ≤ hi)
    (hhi : hi ≤ TRAPFRAME) (hfresh : ∀ k, lo ≤ k → k < hi → lookup t₀ k = Option.none) :
    ∃ m' t', uvmunmap m t lo (hi - lo) true = Option.some (m', t') ∧
      Filled m₀ t₀ F lo lo m' t' := by
  have hadd : lo + (hi - lo) = hi := Nat.add_sub_cancel' hle
  obtain ⟨m', t', hunmap, hkend, hheld, hlookup, hframe⟩ :=
    uvmunmap_free (m := m) (t := t) lo (hi - lo) (by omega) fun k pte hk hk' hpte => by
      rw [Phys.owns, h.kend]
      exact hfine.owns _ (h.was_free hk (by omega) hpte)
  rw [hadd] at hlookup hframe
  -- pages that were not free are not mapped here
  have hmapped : ∀ pg ∉ m₀.free, ∀ k, lo ≤ k → k < hi →
      (lookup t k).map Pte.page ≠ Option.some pg := by
    intro pg hpg k hk hk' heq
    obtain ⟨pte, hpte, rfl⟩ := Option.map_eq_some_iff.mp heq
    exact hpg (h.was_free hk hk' hpte)
  refine ⟨m', t', hunmap, hkend.trans h.kend, fun pg => (hheld pg).2.trans (h.held pg),
    fun pg hpg => ?_, fun pg hpg => ?_, fun k hk _ => ?_, fun _ _ _ => by omega,
    fun _ _ _ _ _ => by omega⟩
  · by_contra hnot
    exact hnot (h.free pg ((hframe pg (hmapped pg hnot)).2 hpg))
  · rw [(hframe pg (hmapped pg hpg)).1, h.mem pg hpg]
  · rw [hlookup k hk]
    split
    · next hin => exact (hfresh k hin.1 hin.2).symm
    · next hin => exact h.old k hk hin

theorem skip (h : Filled m₀ t₀ F lo a m t) (hF : F a = Option.none) (ha : a < KEYS)
    (hfresh : lookup t₀ a = Option.none) : Filled m₀ t₀ F lo (a + 1) m t where
  kend := h.kend
  held := h.held
  free := h.free
  mem := h.mem
  old k hk hout := h.old k hk (by omega)
  none k hle hlt hk := by
    by_cases hka : k = a
    · rw [hka, h.old a ha (by omega), hfresh]
    · exact h.none k hle (by omega) hk
  some k perm c hle hlt hk := by
    have hka : k ≠ a := by
      rintro rfl
      rw [hF] at hk
      cases hk
    exact h.some k perm c hle (by omega) hk

/-- **One page more**: a page is taken from the free list, written and mapped at `a`. If a node of
    the table cannot be allocated, the page goes back. -/
theorem put (h : Filled m₀ t₀ F lo a m t) (hfine : Fine m₀ t₀) (hle : lo ≤ a) (ha : a < TRAPFRAME)
    (hfresh : lookup t₀ a = Option.none) (hF : F a = Option.some (perm, c))
    (halloc : kalloc m = Option.some (pg, m₁)) :
    ∃ m' t' ok, mappages (m₁.write pg c) t a ⟨pg, perm⟩ = Option.some (m', t', ok) ∧
      (ok = true → Filled m₀ t₀ F lo (a + 1) m' t') ∧
      (ok = false → ∃ m'', kfree m' pg = Option.some m'' ∧ Filled m₀ t₀ F lo a m'' t') := by
  have hkeys : TRAPFRAME < KEYS := by decide
  have hnone : lookup t a = Option.none := by rw [h.old a (by omega) (by omega), hfresh]
  obtain ⟨hlist, hkend, hmem⟩ := kalloc_eq_some halloc
  have hpg : pg ∈ m.free := by rw [hlist]; exact List.mem_cons_self
  obtain ⟨m', t', ok, hmap, hmem', hkend', hsuffix, hlabels, hlookup⟩ :=
    mappages_spec (m := m₁.write pg c) (t := t) ⟨pg, perm⟩ (ha.trans (by decide)) hnone
  have hsub : ∀ p ∈ m'.free, p ∈ m₀.free := fun p hp =>
    h.free p (by rw [hlist]; exact List.mem_cons_of_mem _ (hsuffix.subset hp))
  have hother : ∀ p, p ≠ pg → m'.mem p = m.mem p := by
    intro p hp
    rw [hmem', Phys.write_mem_of_ne _ hp, hmem p hp]
  have hne : ∀ p ∉ m₀.free, p ≠ pg := by
    rintro p hp rfl
    exact hp (h.free p hpg)
  -- the new pages are not the one that has just been taken
  have hkeep : ∀ k perm' c', lo ≤ k → k < a → F k = Option.some (perm', c') → ∀ m₂ : Phys,
      (∀ p, p ≠ pg → m₂.mem p = m.mem p) →
      ∃ p ∈ m₀.free, lookup t k = Option.some ⟨p, perm'⟩ ∧ m₂.mem p = c' := by
    intro k perm' c' hk hk' hFk m₂ hm₂
    obtain ⟨p, hp, hpk, hpc⟩ := h.some k perm' c' hk hk' hFk
    have hpne : p ≠ pg := by
      rintro rfl
      exact h.not_free hfine (hk'.trans ha) hpk hpg
    exact ⟨p, hp, hpk, (hm₂ p hpne).trans hpc⟩
  refine ⟨m', t', ok, hmap, ?_, ?_⟩
  · rintro rfl
    have hsame : ∀ k < KEYS, k ≠ a → lookup t' k = lookup t k := fun k hk hka => by
      rw [hlookup k hk, if_neg fun hand => hka hand.2]
    have hnew : lookup t' a = Option.some ⟨pg, perm⟩ := by
      rw [hlookup a (by omega), if_pos ⟨rfl, rfl⟩]
    refine ⟨hkend'.trans (hkend.trans h.kend), fun p => ?_, hsub, fun p hp => ?_,
      fun k hk hout => ?_,
      fun k hk hk' hFk => ?_, fun k perm' c' hk hk' hFk => ?_⟩
    · have huses := leafUses_update p ha fun k hk hka => hsame k (by omega) hka
      have hlabel := hlabels p
      rw [hnone, hnew, maps_none, maps_some] at huses
      rw [← h.held p, Vm.held, Vm.held, hlist, List.count_cons]
      simp only [beq_iff_eq, Phys.write] at huses hlabel ⊢
      omega
    · rw [hother p (hne p hp), h.mem p hp]
    · rw [hsame k hk (by omega), h.old k hk (by omega)]
    · have hka : k ≠ a := by
        rintro rfl
        rw [hF] at hFk
        cases hFk
      rw [hsame k (by omega) hka, h.none k hk (by omega) hFk]
    · by_cases hka : k = a
      · rw [hka, hF] at hFk
        cases hFk
        refine ⟨pg, h.free pg hpg, hka ▸ hnew, ?_⟩
        rw [hmem', Phys.write_mem_self]
      · obtain ⟨p, hp, hpk, hpc⟩ := hkeep k perm' c' hk (by omega) hFk m' hother
        exact ⟨p, hp, by rw [hsame k (by omega) hka, hpk], hpc⟩
  · rintro rfl
    have hsame : ∀ k < KEYS, lookup t' k = lookup t k := fun k hk => by
      rw [hlookup k hk, if_neg (by simp)]
    have howns : m'.owns pg := by
      rw [Phys.owns, hkend']
      exact hkend ▸ h.kend ▸ hfine.owns pg (h.free pg hpg)
    obtain ⟨m'', hfree, hlist', hkend'', hmem''⟩ := kfree_eq_some howns
    have hother' : ∀ p, p ≠ pg → m''.mem p = m.mem p := fun p hp =>
      (hmem'' p hp).trans (hother p hp)
    refine ⟨m'', hfree, hkend''.trans (hkend'.trans (hkend.trans h.kend)), fun p => ?_,
      fun p hp => ?_, fun p hp => ?_, fun k hk hout => ?_, fun k hk hk' hFk => ?_,
      fun k perm' c' hk hk' hFk => ?_⟩
    · have huses : leafUses t' p = leafUses t p :=
        leafUses_congr fun k hk => hsame k (by omega)
      have hlabel := hlabels p
      rw [← h.held p, Vm.held, Vm.held, hlist', hlist, List.count_cons, List.count_cons, huses]
      simp only [beq_iff_eq, Phys.write] at hlabel ⊢
      omega
    · rw [hlist'] at hp
      obtain rfl | hp := List.mem_cons.mp hp
      · exact h.free p hpg
      · exact hsub p hp
    · rw [hother' p (hne p hp), h.mem p hp]
    · rw [hsame k hk, h.old k hk hout]
    · rw [hsame k (by omega), h.none k hk hk' hFk]
    · obtain ⟨p, hp, hpk, hpc⟩ := hkeep k perm' c' hk hk' hFk m'' hother'
      exact ⟨p, hp, by rw [hsame k (by omega), hpk], hpc⟩

end Filled

/-! ### User memory -/

theorem roundUp_mul (a : ℕ) : roundUp (a * PGSIZE) = a := by
  rw [roundUp, PGSIZE]
  omega

theorem roundUp_zero : roundUp 0 = 0 := rfl

theorem roundUp_mono {a b : ℕ} (h : a ≤ b) : roundUp a ≤ roundUp b :=
  Nat.div_le_div_right (Nat.add_le_add_right h _)

/-- `uvmdealloc` of all that `uvmalloc` has allocated so far. -/
theorem Filled.dealloc {m₀ : Phys} {t₀ : Table} {F : ℕ → Option (Perm × Content)} {lo a : ℕ}
    (h : Filled m₀ t₀ F lo a m t) (hfine : Fine m₀ t₀) (hle : lo ≤ a) (ha : a ≤ TRAPFRAME)
    (hfresh : ∀ k, lo ≤ k → k < a → lookup t₀ k = Option.none) :
    ∃ m' t' sz, uvmdealloc m t (a * PGSIZE) (lo * PGSIZE) = Option.some (m', t', sz) ∧
      Filled m₀ t₀ F lo lo m' t' := by
  by_cases hlt : lo < a
  · obtain ⟨m', t', hunmap, hfilled⟩ := h.undo hfine hle ha hfresh
    have hsize : ¬ lo * PGSIZE ≥ a * PGSIZE :=
      Nat.not_le.mpr (Nat.mul_lt_mul_of_pos_right hlt (by decide))
    refine ⟨m', t', lo * PGSIZE, ?_, hfilled⟩
    rw [uvmdealloc, if_neg hsize, roundUp_mul, roundUp_mul, if_pos hlt, hunmap, Option.map_some]
  · obtain rfl : lo = a := by omega
    exact ⟨m, t, _, if_pos le_rfl, h⟩

/-- The loop of `uvmalloc` adds all of its pages, or none. -/
theorem uvmallocLoop_spec {m₀ : Phys} {t₀ : Table} {lo a n : ℕ} {perm : Perm}
    (hfine : Fine m₀ t₀) (hfresh : ∀ k, lo ≤ k → k < TRAPFRAME → lookup t₀ k = none)
    (h : Filled m₀ t₀ (fun _ => some (perm, memset 0)) lo a m t) (hle : lo ≤ a)
    (hroom : ∀ b m t, lo ≤ b → b < a + n →
      Filled m₀ t₀ (fun _ => some (perm, memset 0)) lo b m t → b < TRAPFRAME) :
    ∃ m' t' ok, uvmallocLoop m t lo a perm n = some (m', t', ok) ∧
      (ok = true → Filled m₀ t₀ (fun _ => some (perm, memset 0)) lo (a + n) m' t') ∧
      (ok = false → Filled m₀ t₀ (fun _ => some (perm, memset 0)) lo lo m' t') := by
  induction n generalizing m t a with
  | zero => exact ⟨m, t, true, rfl, fun _ => h, Bool.noConfusion⟩
  | succ n ih =>
    have ha : a < TRAPFRAME := hroom a m t hle (by omega) h
    have hbelow : ∀ k, lo ≤ k → k < a → lookup t₀ k = none := fun k hk hk' =>
      hfresh k hk (by omega)
    rw [uvmallocLoop]
    cases halloc : kalloc m with
    | none =>
      obtain ⟨m', t', sz, hdealloc, hfilled⟩ := h.dealloc hfine hle ha.le hbelow
      refine ⟨m', t', false, ?_, Bool.noConfusion, fun _ => hfilled⟩
      simp only [hdealloc, Option.map_some]
    | some x =>
      obtain ⟨m₁, t₁, ok, hmap, hok, hfail⟩ := h.put hfine hle ha (hfresh a hle ha) rfl halloc
      simp only [hmap, Option.bind_some]
      cases ok with
      | true =>
        obtain ⟨m', t', ok, hloop, hdone, hundone⟩ := ih (hok rfl) (by omega)
          fun b m t hb hb' => hroom b m t hb (by omega)
        refine ⟨m', t', ok, hloop, fun hok => ?_, hundone⟩
        rw [show a + (n + 1) = a + 1 + n by omega]
        exact hdone hok
      | false =>
        obtain ⟨m₂, hfree, hfilled₂⟩ := hfail rfl
        obtain ⟨m', t', sz, hdealloc, hfilled⟩ := hfilled₂.dealloc hfine hle ha.le hbelow
        refine ⟨m', t', false, ?_, Bool.noConfusion, fun _ => hfilled⟩
        simp only [Bool.false_eq_true, if_false, hfree, Option.bind_some, hdealloc,
          Option.map_some]

/-- **`uvmalloc` grows the process, or changes nothing.** -/
theorem uvmalloc_spec {oldsz newsz : ℕ} (perm : Perm) (hfine : Fine m t) (hle : oldsz ≤ newsz)
    (hfresh : ∀ k, roundUp oldsz ≤ k → k < TRAPFRAME → lookup t k = none)
    (hroom : ∀ b m' t', roundUp oldsz ≤ b → b < roundUp newsz →
      Filled m t (fun _ => some (perm, memset 0)) (roundUp oldsz) b m' t' → b < TRAPFRAME) :
    ∃ m' t' sz, uvmalloc m t oldsz newsz perm = some (m', t', sz) ∧
      (sz = newsz ∧
          Filled m t (fun _ => some (perm, memset 0)) (roundUp oldsz) (roundUp newsz) m' t' ∨
        sz = 0 ∧
          Filled m t (fun _ => some (perm, memset 0)) (roundUp oldsz) (roundUp oldsz) m' t') := by
  have hadd : roundUp oldsz + (roundUp newsz - roundUp oldsz) = roundUp newsz :=
    Nat.add_sub_cancel' (roundUp_mono hle)
  obtain ⟨m', t', ok, hloop, hok, hfail⟩ :=
    uvmallocLoop_spec hfine hfresh (.refl m t _ (roundUp oldsz)) le_rfl fun b m' t' hb hb' =>
      hroom b m' t' hb (hb'.trans_eq hadd)
  rw [hadd] at hok
  refine ⟨m', t', if ok = true then newsz else 0, ?_, ?_⟩
  · rw [uvmalloc, if_neg (Nat.not_lt.mpr hle), hloop, Option.map_some]
  · cases ok with
    | true => exact .inl ⟨rfl, hok rfl⟩
    | false => exact .inr ⟨rfl, hfail rfl⟩

/-- What `uvmcopy` puts into the new table. -/
def copyOf (m : Phys) (old : Table) (k : ℕ) : Option (Perm × Content) :=
  (lookup old k).map fun pte => (pte.perm, m.mem pte.page)

theorem uvmcopyLoop_spec {m₀ : Phys} {t₀ : Table} {i n : ℕ} (old : Table) (hfine : Fine m₀ t₀)
    (hn : i + n ≤ TRAPFRAME) (hfresh : ∀ k < TRAPFRAME, lookup t₀ k = none)
    (hold : ∀ k pte, k < TRAPFRAME → lookup old k = some pte → pte.page ∉ m₀.free)
    (h : Filled m₀ t₀ (copyOf m₀ old) 0 i m t) :
    ∃ m' t' ok, uvmcopyLoop m old t i n = some (m', t', ok) ∧
      (ok = true → Filled m₀ t₀ (copyOf m₀ old) 0 (i + n) m' t') ∧
      (ok = false → Filled m₀ t₀ (copyOf m₀ old) 0 0 m' t') := by
  induction n generalizing m t i with
  | zero => exact ⟨m, t, true, rfl, fun _ => h, Bool.noConfusion⟩
  | succ n ih =>
    have hi : i < TRAPFRAME := by omega
    have hmax : i < MAXVA := hi.trans (by decide)
    have hnext : ∀ {m t}, Filled m₀ t₀ (copyOf m₀ old) 0 (i + 1) m t →
        ∃ m' t' ok, uvmcopyLoop m old t (i + 1) n = some (m', t', ok) ∧
          (ok = true → Filled m₀ t₀ (copyOf m₀ old) 0 (i + (n + 1)) m' t') ∧
          (ok = false → Filled m₀ t₀ (copyOf m₀ old) 0 0 m' t') := by
      intro m t hfilled
      rw [show i + (n + 1) = i + 1 + n by omega]
      exact ih (by omega) hfilled
    have hundo : ∀ {m t}, Filled m₀ t₀ (copyOf m₀ old) 0 i m t →
        ∃ m' t', uvmunmap m t 0 i true = some (m', t') ∧
          Filled m₀ t₀ (copyOf m₀ old) 0 0 m' t' := fun hfilled =>
      hfilled.undo hfine (Nat.zero_le i) hi.le fun k _ hk => hfresh k (by omega)
    rw [uvmcopyLoop, if_pos hmax]
    cases hlookup : lookup old i with
    | none =>
      have hF : copyOf m₀ old i = none := by rw [copyOf, hlookup, Option.map_none]
      exact hnext (h.skip hF (hi.trans (by decide)) (hfresh i hi))
    | some pte =>
      have hF : copyOf m₀ old i = some (pte.perm, m₀.mem pte.page) := by
        rw [copyOf, hlookup, Option.map_some]
      cases halloc : kalloc m with
      | none =>
        obtain ⟨m', t', hunmap, hfilled⟩ := hundo h
        refine ⟨m', t', false, ?_, Bool.noConfusion, fun _ => hfilled⟩
        simp only [hunmap, Option.map_some]
      | some x =>
        obtain ⟨hlist, -, hmem⟩ := kalloc_eq_some halloc
        -- the page of the parent is still as it was
        have hpage : pte.page ∉ m₀.free := hold i pte hi hlookup
        have hne : pte.page ≠ x.1 := by
          intro heq
          exact hpage (h.free _ (by rw [hlist, heq]; exact List.mem_cons_self))
        have hcontent : x.2.mem pte.page = m₀.mem pte.page := by
          rw [hmem _ hne, h.mem _ hpage]
        obtain ⟨m₁, t₁, ok, hmap, hok, hfail⟩ :=
          h.put hfine (Nat.zero_le i) hi (hfresh i hi) hF halloc
        simp only [hcontent, hmap, Option.bind_some]
        cases ok with
        | true => exact hnext (hok rfl)
        | false =>
          obtain ⟨m₂, hfree, hfilled₂⟩ := hfail rfl
          obtain ⟨m', t', hunmap, hfilled⟩ := hundo hfilled₂
          refine ⟨m', t', false, ?_, Bool.noConfusion, fun _ => hfilled⟩
          simp only [Bool.false_eq_true, if_false, hfree, Option.bind_some, hunmap,
            Option.map_some]

/-! ### Freeing a page table -/

theorem foldlM_kfree (pages : List ℕ) (h : ∀ pg ∈ pages, m.owns pg) :
    ∃ m', pages.foldlM kfree m = some m' ∧ m'.kend = m.kend ∧
      (∀ pg, m'.free.count pg = m.free.count pg + pages.count pg) ∧
      ∀ pg ∉ pages, m'.mem pg = m.mem pg := by
  induction pages generalizing m with
  | nil => exact ⟨m, rfl, rfl, fun _ => rfl, fun _ _ => rfl⟩
  | cons p pages ih =>
    obtain ⟨m₁, hfree, hlist, hkend, hmem⟩ := kfree_eq_some (h p List.mem_cons_self)
    obtain ⟨m', hrest, hkend', hcount, hmem'⟩ := ih (m := m₁) fun pg hpg => by
      rw [Phys.owns, hkend]
      exact h pg (List.mem_cons_of_mem p hpg)
    refine ⟨m', ?_, hkend'.trans hkend, fun pg => ?_, fun pg hpg => ?_⟩
    · rw [List.foldlM_cons, hfree]
      exact hrest
    · rw [hcount, hlist, List.count_cons, List.count_cons]
      omega
    · rw [List.mem_cons, not_or] at hpg
      rw [hmem' pg hpg.2, hmem pg hpg.1]

/-- `freewalk` does not find a leaf, and frees all nodes. -/
theorem freewalk_spec (h : ∀ k < KEYS, lookup t k = none)
    (howns : ∀ pg, labels t pg ≠ 0 → m.owns pg) :
    ∃ m', freewalk m t = some m' ∧ m'.kend = m.kend ∧
      (∀ pg, m'.free.count pg = m.free.count pg + labels t pg) ∧
      ∀ pg, labels t pg = 0 → m'.mem pg = m.mem pg := by
  have hget : ∀ k, get t k = none := by
    intro k
    rw [← h (k % 512 ^ 3) (Nat.mod_lt k (by decide)), lookup]
    exact get_congr t (Nat.mod_mod k _).symm
  obtain ⟨pages, hrelease, hcount⟩ := release_of_get hget
  obtain ⟨m', hfold, hkend, hfree, hmem⟩ := foldlM_kfree (m := m) pages fun pg hpg => by
    refine howns pg ?_
    rw [← hcount pg]
    exact (List.count_pos_iff.mpr hpg).ne'
  refine ⟨m', ?_, hkend, fun pg => ?_, fun pg hpg => hmem pg ?_⟩
  · rw [freewalk, hrelease, Option.bind_some, hfold]
  · rw [hfree, hcount]
  · rw [← List.count_eq_zero, hcount, hpg]

/-- **`uvmfree` frees every page of the process**, and nothing else. -/
theorem uvmfree_spec {sz : ℕ} (hsz : roundUp sz ≤ TRAPFRAME)
    (hkeys : ∀ k < KEYS, roundUp sz ≤ k → lookup t k = none)
    (howns : ∀ pg, labels t pg + leafUses t pg ≠ 0 → m.owns pg) :
    ∃ m', uvmfree m t sz = some m' ∧ m'.kend = m.kend ∧
      (∀ pg, m'.free.count pg = held m t pg) ∧
      ∀ pg, labels t pg + leafUses t pg = 0 → m'.mem pg = m.mem pg := by
  have hunmap : (if sz > 0 then uvmunmap m t 0 (roundUp sz) true else some (m, t)) =
      uvmunmap m t 0 (roundUp sz) true := by
    split
    · rfl
    · next hzero =>
      obtain rfl : sz = 0 := by omega
      rfl
  obtain ⟨m₁, t₁, hdone, hkend₁, hheld₁, hlookup₁, hframe⟩ :=
    uvmunmap_free (m := m) (t := t) 0 (roundUp sz) (by omega) fun k pte _ hk hpte => by
      have hpos := leafUses_pos (by omega) hpte
      exact howns pte.page (by omega)
  rw [Nat.zero_add] at hlookup₁ hframe
  have hnone : ∀ k < KEYS, lookup t₁ k = none := by
    intro k hk
    rw [hlookup₁ k hk]
    split
    · rfl
    · exact hkeys k hk (by omega)
  have hzero : ∀ pg, leafUses t₁ pg = 0 := fun pg => Finset.sum_eq_zero fun k hk => by
    rw [hnone k ((Finset.mem_range.mp hk).trans (by decide)), maps_none]
  obtain ⟨m', hwalk, hkend', hcount, hmem⟩ := freewalk_spec (m := m₁) hnone fun pg hpg => by
    rw [(hheld₁ pg).1] at hpg
    rw [Phys.owns, hkend₁]
    exact howns pg (by omega)
  refine ⟨m', ?_, hkend'.trans hkend₁, fun pg => ?_, fun pg hpg => ?_⟩
  · rw [uvmfree, hunmap, hdone, Option.bind_some, hwalk]
  · have hheld := (hheld₁ pg).2
    rw [held, hzero] at hheld
    rw [hcount]
    omega
  · have hlabels := (hheld₁ pg).1
    rw [hmem pg (by omega)]
    refine (hframe pg fun k _ hk heq => ?_).1
    obtain ⟨pte, hpte, rfl⟩ := Option.map_eq_some_iff.mp heq
    have hpos := leafUses_pos (by omega) hpte
    omega

end

end MiniOs.Xv6.Vm
