import Mathlib

/-!
# Descriptors

A process opens, duplicates and closes descriptors in a table of its own. Opening takes the
lowest number that is free. Every call that may fail asks the environment, so a result about
a program holds for every pattern of failures; a program that closes what it does not hold,
or duplicates what cannot be duplicated, is stopped.

Each descriptor that is opened gets a serial number, and the numbers of those that are closed
are kept. A descriptor is closed exactly once if its number is among them exactly once.

Programs are specified by the triples of `Std.Do`. The assertion `Held base hs` says that the
table is `base` with the descriptors `hs` on top, as a separating conjunction would.

## Main definitions

- `openFile`, `pipe`, `close`, `dup`, `dup2` — the calls
- `Held` — the table is a given one, and some descriptors on top of it
- `unlessDup` — a postcondition for programs in which only a duplication may fault

## Main results

- `openFile_spec`, `pipe_spec`, `close_spec`, `dup_spec`, `dup2_spec` — the rules
- `triple_iff` — a triple says what it should about a run
-/

namespace MiniOs.Descriptors

open Std.Do

/-- What stops a program. -/
inductive Fault where
  | dup
  | close
  deriving DecidableEq, Repr

/-- What a descriptor refers to, and its serial number unless it was there from the start. -/
structure Entry where
  obj : ℕ
  serial : Option ℕ
  deriving DecidableEq, Repr

abbrev Table := ℕ → Option Entry

structure FdState where
  /-- The table. -/
  fds : Table
  /-- How many descriptors have been opened. -/
  opened : ℕ
  /-- The serial numbers of those that have been closed. -/
  closed : List ℕ
  /-- How many objects there are. -/
  objects : ℕ
  /-- How often the environment has been asked. -/
  asked : ℕ

/-- The environment: the size of the table, and its answers. -/
structure Env where
  limit : ℕ
  ok : ℕ → Bool
  count : ℕ → ℕ

abbrev Prog := StateT FdState (Except Fault)

/-! ## Calls -/

def FdState.lowest (w : FdState) (limit : ℕ) : Option ℕ :=
  (List.range limit).find? (fun d => (w.fds d).isNone)

/-- Open number `d` on the object `o`. -/
def FdState.put (w : FdState) (d o : ℕ) : FdState :=
  { w with fds := Function.update w.fds d (some ⟨o, some w.opened⟩), opened := w.opened + 1 }

/-- A call succeeds or fails. -/
def ask (env : Env) : Prog Bool := fun w => .ok (env.ok w.asked, { w with asked := w.asked + 1 })

def askCount (env : Env) : Prog ℕ :=
  fun w => .ok (env.count w.asked, { w with asked := w.asked + 1 })

/-- A descriptor for a new object, if there is a free number. -/
def install (env : Env) : Prog (Option ℕ) := fun w =>
  match w.lowest env.limit with
  | none => .ok (none, w)
  | some d => .ok (some d, { w.put d w.objects with objects := w.objects + 1 })

def openFile (env : Env) : Prog (Option ℕ) := do
  if ← ask env then install env else pure none

/-- Descriptors for the two ends of a new pipe, if there are two free numbers. -/
def installPipe (env : Env) : Prog (Option (ℕ × ℕ)) := fun w =>
  match w.lowest env.limit with
  | none => .ok (none, w)
  | some r =>
    match (w.put r w.objects).lowest env.limit with
    | none => .ok (none, w)
    | some s =>
      .ok (some (r, s), { (w.put r w.objects).put s (w.objects + 1) with objects := w.objects + 2 })

/-- `pipe`: the read end and the write end. -/
def pipe (env : Env) : Prog (Option (ℕ × ℕ)) := do
  if ← ask env then installPipe env else pure none

/-- `close`, of a descriptor that the program has opened. -/
def close (d : ℕ) : Prog Unit := fun w =>
  match (w.fds d).bind Entry.serial with
  | some n => .ok ((), { w with fds := Function.update w.fds d none, closed := n :: w.closed })
  | none => .error .close

def dup (env : Env) (d : ℕ) : Prog ℕ := fun w =>
  match w.fds d, w.lowest env.limit with
  | some e, some d' => .ok (d', w.put d' e.obj)
  | _, _ => .error .dup

/-- `dup2`. An open target keeps its serial number, and refers to another object. -/
def dup2 (src dst : ℕ) : Prog Unit := fun w =>
  match w.fds src, w.fds dst with
  | some e, some e' =>
    .ok ((), { w with fds := Function.update w.fds dst (some ⟨e.obj, e'.serial⟩) })
  | some e, none => .ok ((), w.put dst e.obj)
  | none, _ => .error .dup

/-! ## Tables with descriptors on top -/

structure Desc where
  fd : ℕ
  obj : ℕ
  serial : ℕ

def overlay (base : Table) : List Desc → Table
  | [] => base
  | d :: ds => Function.update (overlay base ds) d.fd (some ⟨d.obj, some d.serial⟩)

/-- Each of `ds` was free when it was put on top. -/
def Fresh (base : Table) : List Desc → Prop
  | [] => True
  | d :: ds => overlay base ds d.fd = none ∧ Fresh base ds

/-- The table is `base` with `ds` on top, and every descriptor that was opened is one of
    `ds` or has been closed, once. -/
structure Owns (base : Table) (ds : List Desc) (w : FdState) : Prop where
  fds : w.fds = overlay base ds
  fresh : Fresh base ds
  accounted : (w.closed ++ ds.map Desc.serial).Perm (List.range w.opened)

/-- A description of a descriptor: its number, and its object where that matters. -/
def Desc.Fits (h : ℕ × Option ℕ) (d : Desc) : Prop := h.1 = d.fd ∧ ∀ o ∈ h.2, o = d.obj

def Held (base : Table) (hs : List (ℕ × Option ℕ)) (w : FdState) : Prop :=
  ∃ ds, List.Forall₂ Desc.Fits hs ds ∧ Owns base ds w

/-- Descriptors whose objects do not matter. -/
def plain (ds : List ℕ) : List (ℕ × Option ℕ) := ds.map (fun d => (d, none))

variable {base : Table} {ds ds' : List Desc} {hs hs' : List (ℕ × Option ℕ)} {w : FdState}
  {d o limit : ℕ} {env : Env}

theorem plain_append (l l' : List ℕ) : plain (l ++ l') = plain l ++ plain l' :=
  List.map_append

theorem overlay_perm (h : ds.Perm ds') (hfresh : Fresh base ds) :
    overlay base ds = overlay base ds' ∧ Fresh base ds' := by
  induction h with
  | nil => exact ⟨rfl, hfresh⟩
  | cons d h ih =>
    obtain ⟨hover, hfresh'⟩ := ih hfresh.2
    refine ⟨by rw [overlay, overlay, hover], ?_, hfresh'⟩
    rw [← hover]
    exact hfresh.1
  | swap d e ds =>
    -- the later one was free although the earlier one was open
    obtain ⟨he, hd, hds⟩ := hfresh
    have hne : e.fd ≠ d.fd := by
      intro heq
      rw [overlay, heq, Function.update_self] at he
      cases he
    rw [overlay, Function.update_of_ne hne] at he
    refine ⟨?_, ?_, he, hds⟩
    · simp only [overlay]
      exact Function.update_comm hne.symm _ _ _
    · rw [overlay, Function.update_of_ne hne.symm]
      exact hd
  | trans h h' ih ih' =>
    obtain ⟨hover, hfresh'⟩ := ih hfresh
    obtain ⟨hover', hfresh''⟩ := ih' hfresh'
    exact ⟨hover.trans hover', hfresh''⟩

theorem Owns.perm (h : Owns base ds w) (hp : ds.Perm ds') : Owns base ds' w := by
  obtain ⟨hover, hfresh⟩ := overlay_perm hp h.fresh
  refine ⟨h.fds.trans hover, hfresh, ?_⟩
  exact ((hp.map Desc.serial).symm.append_left w.closed).trans h.accounted

theorem overlay_of_base {e : Entry} (hfresh : Fresh base ds) (he : base d = some e) :
    overlay base ds d = some e := by
  induction ds with
  | nil => exact he
  | cons c ds ih =>
    have hover := ih hfresh.2
    have hne : d ≠ c.fd := by
      rintro rfl
      rw [hfresh.1] at hover
      cases hover
    rw [overlay, Function.update_of_ne hne]
    exact hover

theorem overlay_update {e : Entry} (e' : Entry) (hfresh : Fresh base ds)
    (he : base d = some e) :
    overlay (Function.update base d (some e')) ds = Function.update (overlay base ds) d (some e') ∧
      Fresh (Function.update base d (some e')) ds := by
  induction ds with
  | nil => exact ⟨rfl, trivial⟩
  | cons c ds ih =>
    obtain ⟨hover, hfresh'⟩ := ih hfresh.2
    have hne : c.fd ≠ d := by
      rintro rfl
      have := overlay_of_base hfresh.2 he
      rw [hfresh.1] at this
      cases this
    refine ⟨?_, ?_, hfresh'⟩
    · rw [overlay, overlay, hover]
      exact Function.update_comm hne.symm _ _ _
    · rw [hover, Function.update_of_ne hne]
      exact hfresh.1

theorem Owns.put (h : Owns base ds w) (hd : w.fds d = none) (o : ℕ) :
    Owns base (⟨d, o, w.opened⟩ :: ds) (w.put d o) := by
  refine ⟨?_, ⟨?_, h.fresh⟩, ?_⟩
  · rw [FdState.put, overlay, h.fds]
  · rw [← h.fds]
    exact hd
  · have hlast : (w.opened :: List.range w.opened).Perm (List.range (w.opened + 1)) := by
      rw [List.range_succ]
      exact (List.perm_append_singleton _ _).symm
    exact List.perm_middle.trans ((h.accounted.cons _).trans hlast)

theorem Owns.close {c : Desc} (h : Owns base (c :: ds) w) :
    w.fds c.fd = some ⟨c.obj, some c.serial⟩ ∧
      Owns base ds { w with fds := Function.update w.fds c.fd none
                            closed := c.serial :: w.closed } := by
  refine ⟨?_, ?_, h.fresh.2, ?_⟩
  · rw [h.fds, overlay, Function.update_self]
  · dsimp only
    rw [h.fds, overlay, Function.update_idem, ← h.fresh.1, Function.update_eq_self]
  · exact List.perm_middle.symm.trans h.accounted

/-! ## Assertions -/

theorem Held.perm (h : Held base hs w) (hp : hs.Perm hs') : Held base hs' w := by
  obtain ⟨ds, hfits, hown⟩ := h
  obtain ⟨ds', hfits', hp'⟩ := List.perm_comp_forall₂ hp.symm hfits
  exact ⟨ds', hfits', hown.perm hp'.symm⟩

theorem held_nil : Held base [] w ↔ w.fds = base ∧ w.closed.Perm (List.range w.opened) := by
  constructor
  · rintro ⟨ds, hfits, hown⟩
    cases hfits
    refine ⟨hown.fds, ?_⟩
    simpa using hown.accounted
  · rintro ⟨hfds, hacc⟩
    exact ⟨[], .nil, hfds, trivial, by simpa using hacc⟩

theorem Held.put {h : Option ℕ} (hw : Held base hs w) (hd : w.fds d = none)
    (ho : ∀ x ∈ h, x = o) : Held base ((d, h) :: hs) (w.put d o) := by
  obtain ⟨ds, hfits, hown⟩ := hw
  exact ⟨_, .cons ⟨rfl, ho⟩ hfits, hown.put hd o⟩

theorem Held.congr {w' : FdState} (hw : Held base hs w) (hfds : w'.fds = w.fds)
    (hopened : w'.opened = w.opened) (hclosed : w'.closed = w.closed) : Held base hs w' := by
  obtain ⟨ds, hfits, hown⟩ := hw
  refine ⟨ds, hfits, hfds.trans hown.fds, hown.fresh, ?_⟩
  rw [hopened, hclosed]
  exact hown.accounted

theorem Held.of_base {e : Entry} (hw : Held base hs w) (he : base d = some e) :
    w.fds d = some e := by
  obtain ⟨ds, -, hown⟩ := hw
  rw [hown.fds]
  exact overlay_of_base hown.fresh he

theorem Held.update {e e' : Entry} (hw : Held base hs w) (he : base d = some e) :
    Held (Function.update base d (some e')) hs
      { w with fds := Function.update w.fds d (some e') } := by
  obtain ⟨ds, hfits, hown⟩ := hw
  obtain ⟨hover, hfresh⟩ := overlay_update e' hown.fresh he
  exact ⟨ds, hfits, by rw [hover, hown.fds], hfresh, hown.accounted⟩

theorem lowest_free (h : w.lowest limit = some d) : w.fds d = none := by
  have := List.find?_some h
  simpa using this

/-! ## Rules -/

section Triples

variable {σ ε α : Type}

theorem wp_eq (x : StateT σ (Except ε) α) (Q : α → σ → Prop) (E : ε → Prop) (s : σ) :
    (wp⟦x⟧ (post⟨fun a s => ⌜Q a s⌝, fun e => ⌜E e⌝⟩) s).down =
      match x s with
      | .ok (a, t) => Q a t
      | .error e => E e := by
  change ((wp (x s)).apply (fun r => ⌜Q r.1 r.2⌝, fun e => ⌜E e⌝, PUnit.unit)).down = _
  cases x s with
  | ok r => rfl
  | error e => rfl

theorem triple_iff {x : StateT σ (Except ε) α} {P : σ → Prop} {Q : α → σ → Prop} {E : ε → Prop} :
    ⦃fun s => ⌜P s⌝⦄ x ⦃post⟨fun a s => ⌜Q a s⌝, fun e => ⌜E e⌝⟩⦄ ↔
      ∀ s, P s →
        match x s with
        | .ok (a, t) => Q a t
        | .error e => E e := by
  refine forall_congr' fun s => ?_
  rw [← wp_eq]
  rfl

end Triples

/-- The postcondition `Q`, unless a duplication has failed. -/
abbrev unlessDup {α : Type} (Q : α → FdState → Prop) :
    PostCond α (.arg FdState (.except Fault .pure)) :=
  post⟨fun a w => ⌜Q a w⌝, fun e => ⌜e = .dup⌝⟩

variable {α β : Type} {P P' : FdState → Prop} {Q Q' : α → FdState → Prop} {R : β → FdState → Prop}

theorem triple_bind {x : Prog α} {f : α → Prog β} (hx : ⦃fun w => ⌜P w⌝⦄ x ⦃unlessDup Q⦄)
    (hf : ∀ a, ⦃fun w => ⌜Q a w⌝⦄ f a ⦃unlessDup R⦄) :
    ⦃fun w => ⌜P w⌝⦄ (x >>= f) ⦃unlessDup R⦄ := Triple.bind x f hx hf

theorem triple_pure {a : α} (h : ∀ w, P w → Q a w) :
    ⦃fun w => ⌜P w⌝⦄ (pure a : Prog α) ⦃unlessDup Q⦄ := triple_iff.mpr h

theorem triple_imp {x : Prog α} (hx : ⦃fun w => ⌜P w⌝⦄ x ⦃unlessDup Q⦄) (hP : ∀ w, P' w → P w)
    (hQ : ∀ a w, Q a w → Q' a w) : ⦃fun w => ⌜P' w⌝⦄ x ⦃unlessDup Q'⦄ := by
  refine triple_iff.mpr fun w hw => ?_
  have := triple_iff.mp hx w (hP w hw)
  cases hrun : x w with
  | ok r =>
    rw [hrun] at this
    exact hQ _ _ this
  | error e =>
    rw [hrun] at this
    exact this

theorem triple_exists {γ : Type} {P : γ → FdState → Prop} {x : Prog α}
    (h : ∀ c, ⦃fun w => ⌜P c w⌝⦄ x ⦃unlessDup Q⦄) :
    ⦃fun w => ⌜∃ c, P c w⌝⦄ x ⦃unlessDup Q⦄ := by
  refine triple_iff.mpr fun w hw => ?_
  obtain ⟨c, hc⟩ := hw
  exact triple_iff.mp (h c) w hc

/-- `x` leaves the descriptors as it finds them. -/
abbrev Balanced (base : Table) (hs : List (ℕ × Option ℕ)) (x : Prog α) : Prop :=
  ⦃fun w => ⌜Held base hs w⌝⦄ x ⦃unlessDup fun _ w => Held base hs w⦄

theorem balanced_pure (a : α) : Balanced base hs (pure a : Prog α) := triple_pure fun _ hw => hw

theorem Balanced.bind {x : Prog α} {f : α → Prog β} (hx : Balanced base hs x)
    (hf : ∀ a, Balanced base hs (f a)) : Balanced base hs (x >>= f) := triple_bind hx hf

theorem Balanced.ite {c : Prop} [Decidable c] {x y : Prog α} (hx : Balanced base hs x)
    (hy : Balanced base hs y) : Balanced base hs (if c then x else y) := by
  split
  · exact hx
  · exact hy

theorem Balanced.discard {x : Prog α} (hx : Balanced base hs x) : Balanced base hs (discard x) :=
  hx.bind fun _ => balanced_pure ()

theorem ask_spec : Balanced base hs (ask env) :=
  triple_iff.mpr fun _ hw => hw.congr rfl rfl rfl

theorem askCount_spec : Balanced base hs (askCount env) :=
  triple_iff.mpr fun _ hw => hw.congr rfl rfl rfl

theorem install_spec :
    ⦃fun w => ⌜Held base hs w⌝⦄ install env
    ⦃unlessDup fun r w => Held base (plain r.toList ++ hs) w⦄ := by
  refine triple_iff.mpr fun w hw => ?_
  unfold install
  cases hd : w.lowest env.limit with
  | none => exact hw
  | some d =>
    have hput : Held base ((d, none) :: hs) (w.put d w.objects) := hw.put (lowest_free hd) nofun
    exact hput.congr rfl rfl rfl

theorem openFile_spec :
    ⦃fun w => ⌜Held base hs w⌝⦄ openFile env
    ⦃unlessDup fun r w => Held base (plain r.toList ++ hs) w⦄ := by
  refine triple_bind ask_spec fun ok => ?_
  split
  · exact install_spec
  · exact triple_pure fun _ hw => hw

def pipeEnds : Option (ℕ × ℕ) → List ℕ
  | none => []
  | some p => [p.1, p.2]

theorem installPipe_spec :
    ⦃fun w => ⌜Held base hs w⌝⦄ installPipe env
    ⦃unlessDup fun r w => Held base (plain (pipeEnds r) ++ hs) w⦄ := by
  refine triple_iff.mpr fun w hw => ?_
  unfold installPipe
  cases hr : w.lowest env.limit with
  | none => exact hw
  | some r =>
    have hread : Held base ((r, none) :: hs) (w.put r w.objects) := hw.put (lowest_free hr) nofun
    dsimp only
    cases hs : (w.put r w.objects).lowest env.limit with
    | none => exact hw
    | some s =>
      have hboth := hread.put (o := w.objects + 1) (h := none) (lowest_free hs) nofun
      exact (hboth.perm (List.Perm.swap _ _ _)).congr rfl rfl rfl

theorem pipe_spec :
    ⦃fun w => ⌜Held base hs w⌝⦄ pipe env
    ⦃unlessDup fun r w => Held base (plain (pipeEnds r) ++ hs) w⦄ := by
  refine triple_bind ask_spec fun ok => ?_
  split
  · exact installPipe_spec
  · exact triple_pure fun _ hw => hw

theorem close_spec {h : Option ℕ} :
    ⦃fun w => ⌜Held base ((d, h) :: hs) w⌝⦄ close d ⦃unlessDup fun _ w => Held base hs w⦄ := by
  refine triple_iff.mpr fun w hw => ?_
  obtain ⟨_, hfits, hown⟩ := hw
  cases hfits with
  | @cons _ c _ ds hfit hfits =>
    obtain ⟨hfd, hown'⟩ := hown.close
    obtain rfl : d = c.fd := hfit.1
    have hserial : (w.fds c.fd).bind Entry.serial = some c.serial := by
      rw [hfd]
      rfl
    unfold close
    rw [hserial]
    exact ⟨ds, hfits, hown'⟩

theorem close_of_perm {h : Option ℕ} (hp : hs.Perm ((d, h) :: hs')) :
    ⦃fun w => ⌜Held base hs w⌝⦄ close d ⦃unlessDup fun _ w => Held base hs' w⦄ :=
  triple_imp close_spec (fun _ hw => hw.perm hp) fun _ _ hw => hw

theorem dup_spec {e : Entry} (he : base d = some e) :
    ⦃fun w => ⌜Held base hs w⌝⦄ dup env d
    ⦃unlessDup fun r w => Held base ((r, some e.obj) :: hs) w⦄ := by
  refine triple_iff.mpr fun w hw => ?_
  unfold dup
  rw [hw.of_base he]
  cases hd : w.lowest env.limit with
  | none => rfl
  | some d' =>
    refine hw.put (lowest_free hd) ?_
    simp

/-- `dup2` of a descriptor on top, onto one of the table underneath. -/
theorem dup2_spec {e : Entry} {h : Option ℕ} (he : base o = some e) :
    ⦃fun w => ⌜Held base ((d, h) :: hs) w⌝⦄ dup2 d o
    ⦃unlessDup fun _ w => ∃ x, (∀ y ∈ h, y = x) ∧
      Held (Function.update base o (some ⟨x, e.serial⟩)) ((d, h) :: hs) w⦄ := by
  refine triple_iff.mpr fun w hw => ?_
  have hbase := hw.of_base he
  have hupdate : ∀ x, Held (Function.update base o (some ⟨x, e.serial⟩)) ((d, h) :: hs)
      { w with fds := Function.update w.fds o (some ⟨x, e.serial⟩) } :=
    fun x => hw.update he
  obtain ⟨_, hfits, hown⟩ := hw
  cases hfits with
  | @cons _ c _ ds hfit hfits =>
    obtain ⟨hfd, -⟩ := hown.close
    obtain ⟨hfd', hobj⟩ := hfit
    obtain rfl : d = c.fd := hfd'
    unfold dup2
    rw [hfd, hbase]
    exact ⟨c.obj, hobj, hupdate c.obj⟩

theorem dup2_known {e : Entry} {x : ℕ} (he : base o = some e) :
    ⦃fun w => ⌜Held base ((d, some x) :: hs) w⌝⦄ dup2 d o
    ⦃unlessDup fun _ w =>
      Held (Function.update base o (some ⟨x, e.serial⟩)) ((d, some x) :: hs) w⦄ := by
  refine triple_imp (dup2_spec he) (fun _ hw => hw) fun _ w hw => ?_
  obtain ⟨y, hxy, hw⟩ := hw
  obtain rfl := hxy x rfl
  exact hw

end MiniOs.Descriptors
