import MiniOs.Lib.PagedMemory
import MiniOs.Xv6.AddressSpace

/-!
# The kernel reads and writes user memory

`copyout`, `copyin` and `copyinstr`, and the loads and stores of the process itself with the page
faults that they take. The kernel walks the page table in software, page by page, and allocates a
page that the process has asked for but not touched yet. All of them work on the same memory, the
bytes of `Space.bytes`.
-/

namespace MiniOs.Xv6.Vm

open PagedMemory

instance : NeZero PGSIZE := ⟨by decide⟩

def walkaddr (t : Table) (k : ℕ) : Option ℕ :=
  if k < MAXVA then
    (lookup t k).bind fun pte => if pte.perm.u = true then some pte.page else none
  else none

/-- The page of user memory for the kernel: `walkaddr`, and if that fails `vmfault`. -/
def resolve (m : Phys) (s : Space) (k : ℕ) : Option (Phys × Space × Option ℕ) :=
  match walkaddr s.table k with
  | some pg => some (m, s, some pg)
  | none => vmfault m s (k * PGSIZE)

/-- The loop of `copyout`. The Boolean is false if it returns -1. -/
def copyoutLoop : ℕ → Phys → Space → ℕ → List UInt8 → Option (Phys × Space × Bool)
  | 0, m, s, _, _ => some (m, s, true)
  | fuel + 1, m, s, dst, src =>
    if src = [] then some (m, s, true)
    else if dst / PGSIZE ≥ MAXVA then some (m, s, false)
    else
      (resolve m s (dst / PGSIZE)).bind fun x =>
        match x.2.2 with
        | none => some (x.1, x.2.1, false)
        | some pg =>
          match lookup x.2.1.table (dst / PGSIZE) with
          | none => none
          | some pte =>
            -- read-only pages of the program
            if pte.perm.w = false then some (x.1, x.2.1, false)
            else
              let n := min (PGSIZE - dst % PGSIZE) src.length
              copyoutLoop fuel
                (x.1.write pg (splice (x.1.mem pg) (dst % PGSIZE) (src.take n))) x.2.1
                (dst / PGSIZE * PGSIZE + PGSIZE) (src.drop n)

def copyout (m : Phys) (s : Space) (dst : ℕ) (src : List UInt8) : Option (Phys × Space × Bool) :=
  copyoutLoop src.length m s dst src

def pageSlice (c : Content) (off n : ℕ) : List UInt8 :=
  (List.range n).map fun i => c (Fin.ofNat PGSIZE (off + i))

/-- The loop of `copyin`. There are no bytes if it returns -1. -/
def copyinLoop : ℕ → Phys → Space → ℕ → ℕ → Option (Phys × Space × Option (List UInt8))
  | 0, m, s, _, _ => some (m, s, some [])
  | fuel + 1, m, s, src, len =>
    if len = 0 then some (m, s, some [])
    else
      (resolve m s (src / PGSIZE)).bind fun x =>
        match x.2.2 with
        | none => some (x.1, x.2.1, none)
        | some pg =>
          let n := min (PGSIZE - src % PGSIZE) len
          (copyinLoop fuel x.1 x.2.1 (src / PGSIZE * PGSIZE + PGSIZE) (len - n)).map fun y =>
            (y.1, y.2.1, y.2.2.map (pageSlice (x.1.mem pg) (src % PGSIZE) n ++ ·))

def copyin (m : Phys) (s : Space) (src len : ℕ) : Option (Phys × Space × Option (List UInt8)) :=
  copyinLoop len m s src len

/-- The loop of `copyinstr`, which does not take page faults. -/
def copyinstrLoop : ℕ → Phys → Table → ℕ → ℕ → Option (List UInt8)
  | 0, _, _, _, _ => none
  | fuel + 1, m, t, src, max =>
    if max = 0 then none
    else
      match walkaddr t (src / PGSIZE) with
      | none => none
      | some pg =>
        let n := min (PGSIZE - src % PGSIZE) max
        let bytes := pageSlice (m.mem pg) (src % PGSIZE) n
        if 0 ∈ bytes then some (bytes.takeWhile (· ≠ 0))
        else (copyinstrLoop fuel m t (src / PGSIZE * PGSIZE + PGSIZE) (max - n)).map (bytes ++ ·)

/-- `copyinstr`: the string without its NUL. -/
def copyinstr (m : Phys) (t : Table) (src max : ℕ) : Option (List UInt8) :=
  copyinstrLoop (max + 1) m t src max

/-- A store of the process that the hardware allows. -/
def storeHit (m : Phys) (t : Table) (va : ℕ) (b : UInt8) : Option Phys :=
  match lookup t (va / PGSIZE) with
  | none => none
  | some pte =>
    if va / PGSIZE < MAXVA ∧ pte.perm.u = true ∧ pte.perm.w = true then
      some (m.write pte.page (splice (m.mem pte.page) (va % PGSIZE) [b]))
    else none

/-- A store of the process. After a page fault it is tried again; the Boolean is false if `usertrap`
    kills the process. -/
def store (m : Phys) (s : Space) (va : ℕ) (b : UInt8) : Option (Phys × Space × Bool) :=
  match storeHit m s.table va b with
  | some m => some (m, s, true)
  | none =>
    (vmfault m s va).map fun x =>
      match x.2.2.bind fun _ => storeHit x.1 x.2.1.table va b with
      | some m => (m, x.2.1, true)
      | none => (x.1, x.2.1, false)

/-- A load of the process that the hardware allows. -/
def loadHit (m : Phys) (t : Table) (va : ℕ) : Option UInt8 :=
  match lookup t (va / PGSIZE) with
  | none => none
  | some pte =>
    if va / PGSIZE < MAXVA ∧ pte.perm.u = true ∧ pte.perm.r = true then
      some (m.mem pte.page (Fin.ofNat PGSIZE va))
    else none

def load (m : Phys) (s : Space) (va : ℕ) : Option (Phys × Space × Option UInt8) :=
  match loadHit m s.table va with
  | some b => some (m, s, some b)
  | none =>
    (vmfault m s va).map fun x => (x.1, x.2.1, x.2.2.bind fun _ => loadHit x.1 x.2.1.table va)

/-- The memory of a process, byte by byte. -/
def Space.bytes (s : Space) (m : Phys) : ℕ → UInt8 :=
  flat (s.contents m)

/-! ### One page -/

variable {m m' m'' : Phys} {t : Table} {s s' s'' : Space} {va k pg : ℕ} {pte : Pte}

theorem Turned.mine (h : Mine m s) (hturned : Turned m s m' s') : Mine m' s' where
  once pg := (hturned.held pg).trans_le (h.once pg)
  owns pg hpg := by
    rw [Phys.owns, hturned.kend]
    exact h.owns pg (by rwa [← hturned.held])
  keyed := hturned.keyed
  size := hturned.size

theorem Turned.trans (h : Turned m s m' s') (h' : Turned m' s' m'' s'') : Turned m s m'' s'' where
  kend := h'.kend.trans h.kend
  trapframe := h'.trapframe.trans h.trapframe
  held pg := (h'.held pg).trans (h.held pg)
  mem pg hpg := (h'.mem pg ((h.held pg).trans hpg)).trans (h.mem pg hpg)
  keyed := h'.keyed
  size := h'.size

/-- The memory of a process depends on the pages that it maps, and on no others. -/
theorem Keyed.bytes_congr (h : Keyed s.table (roundUp s.sz))
    (hmem : ∀ pg, 0 < leafUses s.table pg → m'.mem pg = m.mem pg) : s.bytes m' = s.bytes m := by
  have hbound := h.bound
  rw [Space.bytes, Space.bytes]
  refine congrArg flat (funext fun k => ?_)
  rw [Space.contents, Space.contents]
  split
  · cases hlookup : lookup s.table k with
    | none => rfl
    | some pte => exact hmem _ (leafUses_pos (by omega) hlookup)
  · rfl

theorem Keyed.lt_of_user {n : ℕ} (h : Keyed t n) (hk : k < MAXVA) (hlookup : lookup t k = some pte)
    (hu : pte.perm.u = true) : k < n := by
  have hkeys : MAXVA < KEYS := by decide
  have hframe : k < TRAPFRAME := by
    by_contra hge
    rw [h.hidden k (by omega) (by omega) pte hlookup] at hu
    cases hu
  by_contra hge
  rw [h.lookup_eq_none (by omega) hframe] at hlookup
  cases hlookup

theorem walkaddr_eq_some (h : walkaddr t k = some pg) :
    k < MAXVA ∧ ∃ pte, lookup t k = some pte ∧ pte.perm.u = true ∧ pte.page = pg := by
  rw [walkaddr] at h
  split at h
  · next hk =>
    obtain ⟨pte, hpte, hpage⟩ := Option.bind_eq_some_iff.mp h
    split at hpage
    · next hu =>
      cases hpage
      exact ⟨hk, pte, hpte, hu, rfl⟩
    · cases hpage
  · cases h

namespace Mine

theorem contents_eq (hk : k < roundUp s.sz) (hlookup : lookup s.table k = some pte) :
    s.contents m k = m.mem pte.page := by
  rw [Space.contents, if_pos hk, hlookup]
  rfl

theorem write (h : Mine m s) (hk : k < roundUp s.sz) (hlookup : lookup s.table k = some pte)
    (c : Content) : Turned m s (m.write pte.page c) s ∧
      s.contents (m.write pte.page c) = Function.update (s.contents m) k c := by
  have hbound := h.keyed.bound
  have hpos := leafUses_pos (by omega) hlookup
  refine ⟨⟨rfl, rfl, fun _ => rfl, fun pg hpg => ?_, h.keyed, h.size⟩, ?_⟩
  · refine m.write_mem_of_ne ?_ c
    rintro rfl
    rw [held] at hpg
    omega
  · funext j
    by_cases hj : j = k
    · rw [hj, Function.update_self, contents_eq hk hlookup, Phys.write_mem_self]
    · rw [Function.update_of_ne hj, Space.contents, Space.contents]
      split
      · next hlt =>
        cases hlookup' : lookup s.table j with
        | none => rfl
        | some pte' =>
          -- no other page of the process is in the same place
          refine m.write_mem_of_ne (fun hpage => hj ?_) c
          have honce := h.once pte.page
          rw [held] at honce
          exact (eq_of_lookup (by omega) (by omega) hlookup hlookup' hpage (by omega)).symm
      · rfl

theorem write_bytes (h : Mine m s) (hk : k < roundUp s.sz) (hlookup : lookup s.table k = some pte)
    (off : ℕ) (l : List UInt8) (hl : off + l.length ≤ PGSIZE) :
    Turned m s (m.write pte.page (splice (m.mem pte.page) off l)) s ∧
      s.bytes (m.write pte.page (splice (m.mem pte.page) off l)) =
        patch (s.bytes m) (k * PGSIZE + off) l := by
  obtain ⟨hturned, hcontents⟩ := h.write hk hlookup (splice (m.mem pte.page) off l)
  refine ⟨hturned, ?_⟩
  rw [Space.bytes, hcontents, ← contents_eq hk hlookup, flat_update_splice hl, Space.bytes]

theorem slice_bytes (hk : k < roundUp s.sz) (hlookup : lookup s.table k = some pte) {off n : ℕ}
    (hn : off + n ≤ PGSIZE) :
    pageSlice (m.mem pte.page) off n = slice (s.bytes m) (k * PGSIZE + off) n := by
  rw [Space.bytes, slice_flat k hn, contents_eq hk hlookup, pageSlice]

theorem vmfault_bytes (h : Mine m s) (va : ℕ) :
    ∃ m' s' o, Vm.vmfault m s va = some (m', s', o) ∧ Turned m s m' s' ∧ s'.sz = s.sz ∧
      s'.bytes m' = s.bytes m ∧ ∀ pg, o = some pg → va / PGSIZE < roundUp s'.sz ∧
        lookup s'.table (va / PGSIZE) = some ⟨pg, dataPerm⟩ := by
  obtain ⟨m', s', o, hfault, hturned, hsz, hcontents, hpage⟩ := h.vmfault va
  refine ⟨m', s', o, hfault, hturned, hsz, ?_, fun pg hpg => ?_⟩
  · rw [Space.bytes, Space.bytes, funext hcontents]
  · obtain ⟨hva, hlookup⟩ := hpage pg hpg
    rw [hsz]
    exact ⟨lt_roundUp hva, hlookup⟩

theorem resolve (h : Mine m s) (k : ℕ) :
    ∃ m' s' o, Vm.resolve m s k = some (m', s', o) ∧ Turned m s m' s' ∧ s'.sz = s.sz ∧
      s'.bytes m' = s.bytes m ∧ ∀ pg, o = some pg → k < roundUp s'.sz ∧
        ∃ pte, lookup s'.table k = some pte ∧ pte.page = pg := by
  rw [Vm.resolve]
  cases hwalk : walkaddr s.table k with
  | some pg =>
    obtain ⟨hk, pte, hlookup, hu, hpage⟩ := walkaddr_eq_some hwalk
    refine ⟨m, s, some pg, rfl, h.turned_refl, rfl, rfl, fun pg' hpg' => ?_⟩
    cases hpg'
    exact ⟨h.keyed.lt_of_user hk hlookup hu, pte, hlookup, hpage⟩
  | none =>
    obtain ⟨m', s', o, hfault, hturned, hsz, hbytes, hpage⟩ := h.vmfault_bytes (k * PGSIZE)
    rw [Nat.mul_div_cancel k (by decide)] at hpage
    refine ⟨m', s', o, hfault, hturned, hsz, hbytes, fun pg hpg => ?_⟩
    obtain ⟨hk, hlookup⟩ := hpage pg hpg
    exact ⟨hk, _, hlookup, rfl⟩

/-! ### The kernel's side -/

/-- `copyout` writes the bytes in order, and stops where it cannot go on. -/
theorem copyoutLoop (h : Mine m s) {fuel : ℕ} {src : List UInt8} (dst : ℕ)
    (hfuel : src.length ≤ fuel) :
    ∃ m' s' ok, Vm.copyoutLoop fuel m s dst src = some (m', s', ok) ∧ Turned m s m' s' ∧
      s'.sz = s.sz ∧ ∃ n ≤ src.length, (ok = true → n = src.length) ∧
        s'.bytes m' = patch (s.bytes m) dst (src.take n) := by
  induction fuel generalizing m s dst src with
  | zero =>
    have hnil : src = [] := List.length_eq_zero_iff.mp (Nat.le_zero.mp hfuel)
    exact ⟨m, s, true, rfl, h.turned_refl, rfl, 0, Nat.zero_le _, fun _ => by rw [hnil]; rfl,
      by simp⟩
  | succ fuel ih =>
    rw [Vm.copyoutLoop]
    split
    · next hnil =>
      exact ⟨m, s, true, rfl, h.turned_refl, rfl, 0, Nat.zero_le _, fun _ => by rw [hnil]; rfl,
        by simp⟩
    · next hne =>
      have hpos : 0 < src.length := List.length_pos_iff.mpr hne
      split
      · exact ⟨m, s, false, rfl, h.turned_refl, rfl, 0, Nat.zero_le _, by simp, by simp⟩
      · obtain ⟨m₁, s₁, o, hresolve, hturned, hsz, hbytes, hpage⟩ := h.resolve (dst / PGSIZE)
        have hfail : ∃ n ≤ src.length, (false = true → n = src.length) ∧
            s₁.bytes m₁ = patch (s.bytes m) dst (src.take n) :=
          ⟨0, Nat.zero_le _, by simp, by simpa using hbytes⟩
        simp only [hresolve, Option.bind_some]
        cases o with
        | none => exact ⟨m₁, s₁, false, rfl, hturned, hsz, hfail⟩
        | some pg =>
          obtain ⟨hk, pte, hlookup, rfl⟩ := hpage pg rfl
          simp only [hlookup]
          split
          · exact ⟨m₁, s₁, false, rfl, hturned, hsz, hfail⟩
          · have hmod := Nat.mod_lt dst (show 0 < PGSIZE by decide)
            have hdst := Nat.div_add_mod' dst PGSIZE
            obtain ⟨n, hn⟩ : ∃ n, n = min (PGSIZE - dst % PGSIZE) src.length := ⟨_, rfl⟩
            rw [← hn]
            have hlen : (src.take n).length = n := List.length_take_of_le (by omega)
            obtain ⟨hturned₂, hbytes₂⟩ := (hturned.mine h).write_bytes hk hlookup
              (dst % PGSIZE) (src.take n) (by omega)
            obtain ⟨m', s', ok, hloop, hturned', hsz', n', hle, hok, hbytes'⟩ :=
              ih (hturned₂.mine (hturned.mine h)) (dst / PGSIZE * PGSIZE + PGSIZE)
                (show (src.drop n).length ≤ fuel by rw [List.length_drop]; omega)
            rw [List.length_drop] at hle hok
            refine ⟨m', s', ok, hloop, hturned.trans (hturned₂.trans hturned'), hsz'.trans hsz,
              n + n', by omega, fun h => ?_, ?_⟩
            · have hall := hok h
              omega
            · rw [hbytes', hbytes₂, hdst, hbytes, List.take_add, patch_append, hlen]
              -- if there is more to write, it starts at the next page
              obtain hlast | hnext : n' = 0 ∨ dst / PGSIZE * PGSIZE + PGSIZE = dst + n := by omega
              · rw [hlast, List.take_zero, patch_nil, patch_nil]
              · rw [hnext]

/-- **`copyout`** writes to the bytes of the process. If it returns -1, it has written a front
    part. -/
theorem copyout (h : Mine m s) (dst : ℕ) (src : List UInt8) :
    ∃ m' s' ok, Vm.copyout m s dst src = some (m', s', ok) ∧ Turned m s m' s' ∧
      s'.sz = s.sz ∧ ∃ n ≤ src.length, (ok = true → n = src.length) ∧
        s'.bytes m' = patch (s.bytes m) dst (src.take n) :=
  h.copyoutLoop dst le_rfl

theorem copyinLoop (h : Mine m s) {fuel len : ℕ} (src : ℕ) (hfuel : len ≤ fuel) :
    ∃ m' s' o, Vm.copyinLoop fuel m s src len = some (m', s', o) ∧ Turned m s m' s' ∧
      s'.sz = s.sz ∧ s'.bytes m' = s.bytes m ∧
      ∀ l, o = some l → l = slice (s.bytes m) src len := by
  induction fuel generalizing m s src len with
  | zero =>
    refine ⟨m, s, some [], rfl, h.turned_refl, rfl, rfl, fun l hl => ?_⟩
    cases hl
    rw [Nat.le_zero.mp hfuel]
    rfl
  | succ fuel ih =>
    rw [Vm.copyinLoop]
    split
    · next hzero =>
      refine ⟨m, s, some [], rfl, h.turned_refl, rfl, rfl, fun l hl => ?_⟩
      cases hl
      rw [hzero]
      rfl
    · next hne =>
      obtain ⟨m₁, s₁, o, hresolve, hturned, hsz, hbytes, hpage⟩ := h.resolve (src / PGSIZE)
      simp only [hresolve, Option.bind_some]
      cases o with
      | none => exact ⟨m₁, s₁, none, rfl, hturned, hsz, hbytes, by simp⟩
      | some pg =>
        obtain ⟨hk, pte, hlookup, rfl⟩ := hpage pg rfl
        have hmod := Nat.mod_lt src (show 0 < PGSIZE by decide)
        have hsrc := Nat.div_add_mod' src PGSIZE
        obtain ⟨n, hn⟩ : ∃ n, n = min (PGSIZE - src % PGSIZE) len := ⟨_, rfl⟩
        obtain ⟨m', s', o, hloop, hturned', hsz', hbytes', hread⟩ :=
          ih (hturned.mine h) (src / PGSIZE * PGSIZE + PGSIZE) (show len - n ≤ fuel by omega)
        simp only [← hn, hloop, Option.map_some]
        refine ⟨m', s', _, rfl, hturned.trans hturned', hsz'.trans hsz, hbytes'.trans hbytes,
          fun l hl => ?_⟩
        obtain ⟨rest, rfl, rfl⟩ := Option.map_eq_some_iff.mp hl
        rw [slice_bytes hk hlookup (by omega), hsrc, hread rest rfl, hbytes,
          show len = n + (len - n) by omega, slice_add, Nat.add_sub_cancel_left]
        -- if there is more to read, it starts at the next page
        obtain hlast | hnext : len - n = 0 ∨ src / PGSIZE * PGSIZE + PGSIZE = src + n := by omega
        · rw [hlast]
          rfl
        · rw [hnext]

/-- **`copyin`** reads the bytes of the process, and changes none of them. -/
theorem copyin (h : Mine m s) (src len : ℕ) :
    ∃ m' s' o, Vm.copyin m s src len = some (m', s', o) ∧ Turned m s m' s' ∧
      s'.sz = s.sz ∧ s'.bytes m' = s.bytes m ∧
      ∀ l, o = some l → l = slice (s.bytes m) src len :=
  h.copyinLoop src le_rfl

theorem slice_of_walkaddr (h : Mine m s) (hwalk : walkaddr s.table k = some pg) (off n : ℕ)
    (hn : off + n ≤ PGSIZE) :
    pageSlice (m.mem pg) off n = slice (s.bytes m) (k * PGSIZE + off) n := by
  obtain ⟨hk, pte, hlookup, hu, rfl⟩ := walkaddr_eq_some hwalk
  exact slice_bytes (h.keyed.lt_of_user hk hlookup hu) hlookup hn

end Mine

theorem not_mem_takeWhile (l : List UInt8) : 0 ∉ l.takeWhile (· ≠ 0) := fun hmem => by
  simpa using List.mem_takeWhile_imp hmem

theorem takeWhile_isPrefix {l : List UInt8} (h : 0 ∈ l) : l.takeWhile (· ≠ 0) ++ [0] <+: l := by
  induction l with
  | nil => cases h
  | cons x l ih =>
    by_cases hx : x = 0
    · rw [hx, List.takeWhile_cons_of_neg (by simp)]
      exact ⟨l, rfl⟩
    · rw [List.takeWhile_cons_of_pos (by simpa using hx), List.cons_append, List.cons_prefix_cons]
      exact ⟨rfl, ih ((List.mem_cons.mp h).resolve_left (Ne.symm hx))⟩

theorem takeWhile_of_isPrefix {str l : List UInt8} (h : str ++ [0] <+: l) (hnul : 0 ∉ str) :
    l.takeWhile (· ≠ 0) = str := by
  obtain ⟨rest, rfl⟩ := h
  have hall : ∀ b ∈ str, decide (b ≠ 0) = true := fun b hb => by
    simpa using fun h0 : b = 0 => hnul (h0 ▸ hb)
  rw [List.append_assoc, List.takeWhile_append_of_pos hall]
  simp

/-- **`copyinstr`** reads the string of the process that starts at `src`. -/
theorem copyinstrLoop_spec (h : Mine m s) {fuel src max : ℕ} {l : List UInt8}
    (hstr : copyinstrLoop fuel m s.table src max = some l) :
    l.length < max ∧ 0 ∉ l ∧ slice (s.bytes m) src (l.length + 1) = l ++ [0] := by
  induction fuel generalizing src max l with
  | zero => cases hstr
  | succ fuel ih =>
    rw [copyinstrLoop] at hstr
    split at hstr
    · cases hstr
    · next hmax =>
      cases hwalk : walkaddr s.table (src / PGSIZE) with
      | none =>
        rw [hwalk] at hstr
        cases hstr
      | some pg =>
        have hmod := Nat.mod_lt src (show 0 < PGSIZE by decide)
        have hsrc := Nat.div_add_mod' src PGSIZE
        obtain ⟨n, hn⟩ : ∃ n, n = min (PGSIZE - src % PGSIZE) max := ⟨_, rfl⟩
        have hread := h.slice_of_walkaddr hwalk (src % PGSIZE) n (by omega)
        rw [hsrc] at hread
        simp only [hwalk, ← hn, hread] at hstr
        split at hstr
        · next hzero =>
          cases hstr
          have hpre := takeWhile_isPrefix hzero
          have hlen := hpre.length_le
          rw [List.length_append, length_slice, List.length_singleton] at hlen
          refine ⟨by omega, not_mem_takeWhile _, ?_⟩
          rw [← slice_of_isPrefix hpre, List.length_append, List.length_singleton]
        · next hzero =>
          obtain ⟨rest, hrest, rfl⟩ := Option.map_eq_some_iff.mp hstr
          obtain ⟨hlen, hnot, hslice⟩ := ih hrest
          have hnext : src / PGSIZE * PGSIZE + PGSIZE = src + n := by omega
          rw [List.length_append, length_slice, List.mem_append, not_or]
          refine ⟨by omega, ⟨hzero, hnot⟩, ?_⟩
          rw [Nat.add_assoc, slice_add, ← hnext, hslice, List.append_assoc]

/-! ### The process's side -/

theorem storeHit_spec (h : Mine m s) {b : UInt8} (hhit : storeHit m s.table va b = some m') :
    Turned m s m' s ∧ s.bytes m' = patch (s.bytes m) va [b] := by
  rw [storeHit] at hhit
  cases hlookup : lookup s.table (va / PGSIZE) with
  | none =>
    rw [hlookup] at hhit
    cases hhit
  | some pte =>
    simp only [hlookup] at hhit
    split at hhit
    · next hperm =>
      cases hhit
      have hmod := Nat.mod_lt va (show 0 < PGSIZE by decide)
      have hwrite := h.write_bytes (h.keyed.lt_of_user hperm.1 hlookup hperm.2.1) hlookup
        (va % PGSIZE) [b] hmod
      rwa [Nat.div_add_mod'] at hwrite
    · cases hhit

theorem loadHit_spec (h : Mine m s) {b : UInt8} (hhit : loadHit m s.table va = some b) :
    b = s.bytes m va := by
  rw [loadHit] at hhit
  cases hlookup : lookup s.table (va / PGSIZE) with
  | none =>
    rw [hlookup] at hhit
    cases hhit
  | some pte =>
    simp only [hlookup] at hhit
    split at hhit
    · next hperm =>
      cases hhit
      rw [Space.bytes, flat, Mine.contents_eq (h.keyed.lt_of_user hperm.1 hlookup hperm.2.1)
        hlookup]
    · cases hhit

namespace Mine

/-- **A store** writes to the bytes of the process, or kills it. -/
theorem store (h : Mine m s) (va : ℕ) (b : UInt8) :
    ∃ m' s' ok, Vm.store m s va b = some (m', s', ok) ∧ Turned m s m' s' ∧ s'.sz = s.sz ∧
      s'.bytes m' = if ok = true then patch (s.bytes m) va [b] else s.bytes m := by
  rw [Vm.store]
  cases hhit : storeHit m s.table va b with
  | some m' =>
    obtain ⟨hturned, hbytes⟩ := storeHit_spec h hhit
    exact ⟨m', s, true, rfl, hturned, rfl, by rw [hbytes, if_pos rfl]⟩
  | none =>
    obtain ⟨m₁, s₁, o, hfault, hturned, hsz, hbytes, -⟩ := h.vmfault_bytes va
    simp only [hfault, Option.map_some]
    cases hagain : o.bind fun _ => storeHit m₁ s₁.table va b with
    | none => exact ⟨m₁, s₁, false, rfl, hturned, hsz, by simpa using hbytes⟩
    | some m' =>
      obtain ⟨_, -, hhit'⟩ := Option.bind_eq_some_iff.mp hagain
      obtain ⟨hturned', hbytes'⟩ := storeHit_spec (hturned.mine h) hhit'
      exact ⟨m', s₁, true, rfl, hturned.trans hturned', hsz, by rw [hbytes', hbytes, if_pos rfl]⟩

/-- **A load** reads the bytes of the process, or kills it. -/
theorem load (h : Mine m s) (va : ℕ) :
    ∃ m' s' o, Vm.load m s va = some (m', s', o) ∧ Turned m s m' s' ∧ s'.sz = s.sz ∧
      s'.bytes m' = s.bytes m ∧ ∀ b, o = some b → b = s.bytes m va := by
  rw [Vm.load]
  cases hhit : loadHit m s.table va with
  | some b =>
    refine ⟨m, s, some b, rfl, h.turned_refl, rfl, rfl, fun b' hb' => ?_⟩
    cases hb'
    exact loadHit_spec h hhit
  | none =>
    obtain ⟨m₁, s₁, o, hfault, hturned, hsz, hbytes, -⟩ := h.vmfault_bytes va
    refine ⟨m₁, s₁, _, by rw [hfault, Option.map_some], hturned, hsz, hbytes, fun b hb => ?_⟩
    obtain ⟨_, -, hhit'⟩ := Option.bind_eq_some_iff.mp hb
    rw [← hbytes]
    exact loadHit_spec (hturned.mine h) hhit'

end Mine

end MiniOs.Xv6.Vm
