import MiniOs.Xv6.Log

/-!
# Waiting for the log

`begin_op` sleeps while there is a commit or too little room, and `sys_sync` sleeps until a
commit has finished. All of them sleep on one channel, which is woken when an operation ends
that is not the last one, and when a commit has finished.
-/

namespace MiniOs.Xv6.Logs

open Trace

section Model

variable {τ β : Type*} {d d' : Log τ β}

def Busy (d : Log τ β) : Prop := d.committing = true ∨ 0 < d.outstanding

/-- There is no room for another operation. -/
def Full (d : Log τ β) : Prop :=
  d.committing = true ∨ logBlocks < d.lh.length + (d.outstanding + 1) * maxOpBlocks

/-- A caller of `sys_sync` waits for the next commit, unless it has finished. -/
def Synced (d : Log τ β) (pt : τ → Point) : Prop :=
  ∀ t n, pt t = .syncWait n → n ≤ d.ncommit + 1 ∧ (Busy d ∨ n ≤ d.ncommit)

variable [DecidableEq τ] {pt : τ → Point} {t : τ} {i : Input β} {q : Point}

namespace Synced

/-- A step of thread `t`: the log stays busy, or a commit has finished. -/
theorem move (h : Synced d pt) (hn : d.ncommit ≤ d'.ncommit)
    (hbusy : Busy d → Busy d' ∨ d.ncommit < d'.ncommit)
    (hq : ∀ n, q = .syncWait n → n ≤ d'.ncommit + 1 ∧ (Busy d' ∨ n ≤ d'.ncommit)) :
    Synced d' (Function.update pt t q) := by
  intro v n hv
  by_cases hvt : v = t
  · rw [hvt, Function.update_self] at hv
    exact hq n hv
  · rw [Function.update_of_ne hvt] at hv
    obtain ⟨hle, hwait⟩ := h v n hv
    refine ⟨hle.trans (Nat.succ_le_succ hn), ?_⟩
    obtain hb | hdone := hwait
    · exact (hbusy hb).imp_right fun hlt => hle.trans hlt
    · exact .inr (hdone.trans hn)

theorem go (h : Synced d pt) (hn : d'.ncommit = d.ncommit) (hc : d'.committing = d.committing)
    (ho : d'.outstanding = d.outstanding)
    (hq : ∀ n, q = .syncWait n → n ≤ d.ncommit + 1 ∧ (Busy d ∨ n ≤ d.ncommit)) :
    Synced d' (Function.update pt t q) := by
  have hsame : Busy d' ↔ Busy d := by rw [Busy, Busy, hc, ho]
  refine h.move hn.ge (fun hb => .inl (hsame.mpr hb)) fun n hqn => ?_
  rw [hn, hsame]
  exact hq n hqn

/-- **Step lemma**, without `log.lock`. -/
theorem frees (h : Synced d pt) (hfree : Frees t i d (pt t) d' q) :
    Synced d' (Function.update pt t q) := by
  have hown := h t
  generalize pt t = p at hfree hown
  cases hfree with
  | recycle href => exact h.go rfl rfl rfl hown
  | bread hp hb => exact h.go rfl rfl rfl hown
  | brelse hp hb => exact h.go rfl rfl rfl hown
  | _ => exact h.go rfl rfl rfl nofun

/-- **Step lemma**, under `log.lock`. -/
theorem acts (h : Synced d pt) {a : Monitor.Act (Log τ β) Point Unit} (hact : Acts d (pt t) a) :
    Synced (a.data d) (Function.update pt t a.point) := by
  have hown := h t
  generalize pt t = p at hact hown
  cases hact with
  | enter hc hroom => exact h.move le_rfl (fun _ => .inl (.inr (Nat.succ_pos _))) nofun
  | append hroom hb => exact h.go rfl rfl rfl nofun
  | bad hc => exact h.move le_rfl (fun _ => .inl (.inl hc)) nofun
  | last hc ho => exact h.move le_rfl (fun _ => .inl (.inl rfl)) nofun
  | other hc ho => exact h.move le_rfl (fun _ => .inl (.inr (Nat.pos_of_ne_zero ho))) nofun
  | finish => exact h.move (Nat.le_succ _) (fun _ => .inr (Nat.lt_succ_self _)) nofun
  | mustWait hb =>
    refine h.go rfl rfl rfl ?_
    rintro n ⟨⟩
    exact ⟨le_rfl, .inl hb⟩
  | syncSleep hlt => exact h.go rfl rfl rfl hown
  | _ => exact h.go rfl rfl rfl nofun

end Synced

end Model

/-! ### Sleepers -/

variable {τ β : Type*}

/-- When a thread sleeps, and who is going to wake it. -/
def spec : Monitor.Spec τ (Log τ β) Point Unit where
  rest _ := True
  held _ _ _ := True
  waits _ _ q d :=
    match q with
    | .beginning => Full d
    | .syncWait n => d.ncommit < n ∧ Busy d
    | _ => False
  owes p _ := p = .endedOther ∨ p = .finished
  woke _ _ := False

theorem spec_waits_mono {u : τ} {c : Unit} {q : Point} {d d' : Log τ β}
    (h : (spec : Monitor.Spec τ (Log τ β) Point Unit).waits u c q d) (hfull : Full d → Full d')
    (hn : d'.ncommit = d.ncommit) (hbusy : Busy d → Busy d') :
    (spec : Monitor.Spec τ (Log τ β) Point Unit).waits u c q d' := by
  cases q with
  | beginning => exact hfull h
  | syncWait n => exact ⟨hn ▸ h.1, hbusy h.2⟩
  | _ => cases h

theorem resumes {t : τ} {p : Point} :
    (spec : Monitor.Spec τ (Log τ β) Point Unit).Resumes t p :=
  fun _ _ => ⟨trivial, fun _ => id⟩

variable [Fintype τ] {s s' : Monitor.State τ (Log τ β) Point Unit}

def Good (s : Monitor.State τ (Log τ β) Point Unit) : Prop :=
  Counts s.shared s.points ∧ Synced s.shared s.points

theorem sound_write {t : τ} {d : Log τ β} {p q : Point} (hgood : Good s) (hpt : s.points t = p)
    (hact : Acts s.shared p (.write d q)) (u : τ) (c : Unit) (q' : Point)
    (hw : (spec : Monitor.Spec τ (Log τ β) Point Unit).waits u c q' s.shared) :
    (spec : Monitor.Spec τ (Log τ β) Point Unit).waits u c q' d ∨ q = .endedOther ∨
      q = .finished := by
  cases hact with
  | enter hc hroom =>
    refine .inl (spec_waits_mono hw (Or.imp_right fun hfull => ?_) rfl fun _ =>
      .inr (Nat.succ_pos _))
    change logBlocks < s.shared.lh.length + (s.shared.outstanding + 1 + 1) * maxOpBlocks
    exact hfull.trans_le (Nat.add_le_add_left (Nat.mul_le_mul_right _ (Nat.le_succ _)) _)
  | tooBig hfull => exact .inl hw
  | absorb hb => exact .inl hw
  | append hroom hb =>
    refine .inl (spec_waits_mono hw (Or.imp_right fun hfull => ?_) rfl id)
    change logBlocks < (s.shared.lh ++ _).length + (s.shared.outstanding + 1) * maxOpBlocks
    rw [List.length_append]
    omega
  | bad hc =>
    have hop : (s.points t).ops = 1 := by rw [hpt]; rfl
    exact absurd (hc.symm.trans (hgood.1.not_committing hop)) nofun
  | last hc ho =>
    exact .inl (spec_waits_mono hw (fun _ => .inl rfl) rfl fun _ => .inl rfl)
  | other hc ho => exact .inr (.inl rfl)
  | finish => exact .inr (.inr rfl)
  | mustWait hb => exact .inl hw

variable [DecidableEq τ]

theorem sound : Monitor.Sound (program : Monitor.Program τ (Input β) (Log τ β) Point Unit) spec Good
    (fun _ _ _ _ => True) where
  acquire _ _ _ := resumes
  free s t i p d q hgood hph hf := by
    obtain ⟨hc, ho, hn, hlh⟩ := (free_frees hf).counters
    have hbusy : Busy s.shared → Busy d := by
      rw [Busy, Busy, hc, ho]
      exact id
    refine ⟨id, fun _ _ => id, fun u c q' hw => spec_waits_mono hw (fun hfull => ?_) hn hbusy⟩
    obtain hlh | hcommits := hlh
    · rw [Full, hc, ho, hlh]
      exact hfull
    · refine .inl (hc.trans (hgood.1.committing_of (t := t) ?_))
      rw [Monitor.State.points, hph]
      exact hcommits
  write s t i p d q hgood hph _ _ ha := by
    have hpt : s.points t = p := by rw [Monitor.State.points, hph]; rfl
    refine ⟨trivial, fun c howes => ?_, fun _ => id, fun u c q' _ hw => ?_⟩
    · obtain rfl | rfl := howes <;> cases ha
    · exact (sound_write hgood hpt (locked_acts ha) u c q' hw).imp_right .inl
  wakeup s t i p c q _ _ _ _ ha := ⟨trivial, fun _ _ => .inl rfl, fun _ => False.elim⟩
  sleep s t i p c q hgood hph _ _ ha := by
    have hact : Acts s.shared p (.sleep c q) := locked_acts ha
    have hpt : s.points t = p := by rw [Monitor.State.points, hph]; rfl
    refine ⟨trivial, ?_, resumes, fun u c' q' howes => ?_⟩
    · cases hact with
      | full hfull => exact hfull
      | @syncSleep n hlt =>
        exact ⟨hlt, (hgood.2 t n hpt).2.resolve_right (Nat.not_le.mpr hlt)⟩
    · obtain rfl | rfl := howes <;> cases hact
  release s t i p q _ _ _ _ ha := by
    refine ⟨trivial, fun u c q' howes => ?_⟩
    obtain rfl | rfl := howes <;> cases ha

theorem step_good {all : List τ} {e : Monitor.Event τ (Input β)} (h : Good s)
    (hstep : Monitor.step program all s e = some s') : Good s' := by
  refine ⟨step_counts h.1 hstep, ?_⟩
  exact Monitor.step_points (J := Synced) (fun _ _ _ _ _ hf => h.2.frees (free_frees hf))
    (fun _ _ _ _ _ ha => h.2.acts (locked_acts ha)) h.2 hstep

/-- An operation has logged two blocks, another one has begun, and a caller of `sys_sync`
    waits for both. -/
def crowded : List (Monitor.Event (Fin 3) (Input ℕ)) :=
  enterOp first ++ writes first 7 [50, 51] ++ enterOp second ++
    .run third .sync :: List.replicate 5 (.run third .go)

end MiniOs.Xv6.Logs
