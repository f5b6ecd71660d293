import Mathlib.Data.List.Basic

/-!
# Runs of event-driven systems

A system is a partial step function `step : σ → ε → Option σ`: an event is
either refused (`none`) or leads to exactly one state, so all nondeterminism
sits in the choice of the events. A run is the list of its events.

## Main definitions

- `exec` — the state after a list of events
- `Guarded` — every event of a run is taken in a state that satisfies a guard
- `observe` — what an observer has counted at the end of a run
- `Reaches` — one state leads to another by events of a kind

## Main results

- `exec_invariant`, `exec_invariant_of_guarded`, `observe_invariant` — the invariant
  rules
- `guarded_of_invariant` — how to show that a guard is needed
- `exec_simulates` — a run of steps that are themselves runs of a finer system
-/

namespace MiniOs.Trace

variable {σ ε δ γ : Type*} {step : σ → ε → Option σ}

/-- The state a list of events leads to, or `none` when one of them is refused. -/
def exec (step : σ → ε → Option σ) : σ → List ε → Option σ
  | s, [] => some s
  | s, e :: es => (step s e).bind (fun t => exec step t es)

/-- Every event of the run from `s` is taken in a state where `ok` holds. -/
def Guarded (step : σ → ε → Option σ) (ok : σ → ε → Prop) : σ → List ε → Prop
  | _, [] => True
  | s, e :: es => ok s e ∧ ∀ t, step s e = some t → Guarded step ok t es

/-- What an observer of the run from `s` knows at its end: `g` at the start, and
    `look` at every event. -/
def observe (step : σ → ε → Option σ) (look : σ → ε → γ → γ) : σ → γ → List ε → γ
  | _, g, [] => g
  | s, g, e :: es =>
    match step s e with
    | some t => observe step look t (look s e g) es
    | none => g

@[simp]
theorem exec_nil (s : σ) : exec step s [] = some s := rfl

theorem exec_cons (s : σ) (e : ε) (es : List ε) :
    exec step s (e :: es) = (step s e).bind (fun t => exec step t es) := rfl

theorem exec_cons_eq_some {s t : σ} {e : ε} {es : List ε} :
    exec step s (e :: es) = some t ↔ ∃ m, step s e = some m ∧ exec step m es = some t := by
  rw [exec_cons, Option.bind_eq_some_iff]

@[simp]
theorem exec_singleton (s : σ) (e : ε) : exec step s [e] = step s e := by
  rw [exec_cons]
  cases step s e <;> rfl

theorem exec_append (s : σ) (es fs : List ε) :
    exec step s (es ++ fs) = (exec step s es).bind (fun t => exec step t fs) := by
  induction es generalizing s with
  | nil => rfl
  | cons e es ih =>
    rw [List.cons_append, exec_cons, exec_cons]
    cases step s e with
    | none => rfl
    | some m => exact ih m

theorem exec_append_eq_some {s t : σ} {es fs : List ε} :
    exec step s (es ++ fs) = some t ↔
      ∃ m, exec step s es = some m ∧ exec step m fs = some t := by
  rw [exec_append, Option.bind_eq_some_iff]

theorem exec_concat_eq_some {s t : σ} {es : List ε} {e : ε} :
    exec step s (es ++ [e]) = some t ↔
      ∃ m, exec step s es = some m ∧ step m e = some t := by
  simp only [exec_append_eq_some, exec_singleton]

theorem guarded_cons {ok : σ → ε → Prop} {s : σ} {e : ε} {es : List ε} :
    Guarded step ok s (e :: es) ↔
      ok s e ∧ ∀ t, step s e = some t → Guarded step ok t es := Iff.rfl

/-- Whether a run keeps to a guard that can be decided can be decided. -/
instance Guarded.decidable {ok : σ → ε → Prop} [∀ s e, Decidable (ok s e)] :
    ∀ (s : σ) (es : List ε), Decidable (Guarded step ok s es)
  | _, [] => .isTrue trivial
  | s, e :: es =>
    match hstep : step s e with
    | none =>
      decidable_of_iff (ok s e)
        ⟨fun hok => ⟨hok, fun _ ht => nomatch hstep.symm.trans ht⟩, fun h => h.1⟩
    | some t =>
      haveI : Decidable (Guarded step ok t es) := Guarded.decidable t es
      decidable_of_iff (ok s e ∧ Guarded step ok t es)
        ⟨fun h => ⟨h.1, fun _ ht => Option.some.inj (hstep.symm.trans ht) ▸ h.2⟩,
          fun h => ⟨h.1, h.2 t hstep⟩⟩

theorem Guarded.imp {ok ok' : σ → ε → Prop} {s : σ} {es : List ε} (hok : Guarded step ok s es)
    (h : ∀ s e, ok s e → ok' s e) : Guarded step ok' s es := by
  induction es generalizing s with
  | nil => trivial
  | cons e es ih => exact ⟨h s e hok.1, fun t ht => ih (hok.2 t ht)⟩

theorem Guarded.and {ok ok' : σ → ε → Prop} {s : σ} {es : List ε} (hok : Guarded step ok s es)
    (hok' : Guarded step ok' s es) : Guarded step (fun s e => ok s e ∧ ok' s e) s es := by
  induction es generalizing s with
  | nil => trivial
  | cons e es ih => exact ⟨⟨hok.1, hok'.1⟩, fun t ht => ih (hok.2 t ht) (hok'.2 t ht)⟩

/-- **Invariant rule**: what holds at the start and is kept by every step that
    meets the guard holds after every guarded run. -/
theorem exec_invariant_of_guarded {ok : σ → ε → Prop} {I : σ → Prop}
    (hstep : ∀ s e t, I s → ok s e → step s e = some t → I t)
    {s t : σ} {es : List ε} (hs : I s) (hok : Guarded step ok s es)
    (h : exec step s es = some t) : I t := by
  induction es generalizing s with
  | nil =>
    cases h
    exact hs
  | cons e es ih =>
    obtain ⟨m, hsm, hmt⟩ := exec_cons_eq_some.mp h
    obtain ⟨he, hrest⟩ := guarded_cons.mp hok
    exact ih (hstep s e m hs he hsm) (hrest m hsm) hmt

theorem guarded_of_forall_mem {ok : σ → ε → Prop} {es : List ε} (h : ∀ e ∈ es, ∀ s, ok s e)
    (s : σ) : Guarded step ok s es := by
  induction es generalizing s with
  | nil => trivial
  | cons e es ih =>
    exact ⟨h e List.mem_cons_self s, fun t _ =>
      ih (fun e' he' => h e' (List.mem_cons_of_mem e he')) t⟩

theorem guarded_of_forall {ok : σ → ε → Prop} (h : ∀ s e, ok s e) (s : σ) (es : List ε) :
    Guarded step ok s es := guarded_of_forall_mem (fun e _ s => h s e) s

/-- **Invariant rule** without a guard. -/
theorem exec_invariant {I : σ → Prop}
    (hstep : ∀ s e t, I s → step s e = some t → I t)
    {s t : σ} {es : List ε} (hs : I s) (h : exec step s es = some t) : I t := by
  have hok : Guarded step (fun _ _ => True) s es := guarded_of_forall (fun _ _ => trivial) s es
  exact exec_invariant_of_guarded (fun s e t hI _ => hstep s e t hI) hs hok h

/-- **Rule for a guard that is needed**: `I` is kept by the steps that meet the guard, a step
    that does not meet it leads to `J`, and `J` is kept by every step. A run that does not
    end in `J` keeps to the guard. -/
theorem guarded_of_invariant {ok : σ → ε → Prop} {I J : σ → Prop}
    (hI : ∀ s e t, I s → ok s e → step s e = some t → I t)
    (hviolate : ∀ s e t, I s → ¬ ok s e → step s e = some t → J t)
    (hJ : ∀ s e t, J s → step s e = some t → J t)
    {s t : σ} {es : List ε} (hs : I s) (h : exec step s es = some t) (hend : ¬ J t) :
    Guarded step ok s es := by
  induction es generalizing s with
  | nil => trivial
  | cons e es ih =>
    obtain ⟨m, hsm, hmt⟩ := exec_cons_eq_some.mp h
    by_cases hok : ok s e
    · refine ⟨hok, fun m' hm' => ?_⟩
      rw [hsm] at hm'
      cases hm'
      exact ih (hI s e m hs hok hsm) hmt
    · exact absurd (exec_invariant hJ (hviolate s e m hs hok hsm) hmt) hend

/-- **Invariant rule** for the state together with what an observer knows. -/
theorem observe_invariant {ok : σ → ε → Prop} {look : σ → ε → γ → γ} {I : σ → γ → Prop}
    (hstep : ∀ s g e t, I s g → ok s e → step s e = some t → I t (look s e g))
    {s t : σ} {g : γ} {es : List ε} (hs : I s g) (hok : Guarded step ok s es)
    (h : exec step s es = some t) : I t (observe step look s g es) := by
  induction es generalizing s g with
  | nil =>
    cases h
    exact hs
  | cons e es ih =>
    obtain ⟨m, hsm, hmt⟩ := exec_cons_eq_some.mp h
    obtain ⟨he, hrest⟩ := guarded_cons.mp hok
    have hobs : observe step look s g (e :: es) = observe step look m (look s e g) es := by
      simp only [observe, hsm]
    rw [hobs]
    exact ih (hstep s g e m hs he hsm) (hrest m hsm) hmt

/-- `t` is reached from `s` by events that all satisfy `Q`. -/
def Reaches (step : σ → ε → Option σ) (Q : ε → Prop) (s t : σ) : Prop :=
  ∃ es, (∀ e ∈ es, Q e) ∧ exec step s es = some t

namespace Reaches

variable {Q : ε → Prop} {s m t : σ}

theorem refl (s : σ) : Reaches step Q s s := ⟨[], by simp, rfl⟩

theorem single {e : ε} (he : Q e) (h : step s e = some t) : Reaches step Q s t := by
  refine ⟨[e], ?_, ?_⟩
  · simpa using he
  · rw [exec_singleton, h]

theorem trans (h : Reaches step Q s m) (h' : Reaches step Q m t) : Reaches step Q s t := by
  obtain ⟨es, hQ, hes⟩ := h
  obtain ⟨fs, hQ', hfs⟩ := h'
  refine ⟨es ++ fs, ?_, exec_append_eq_some.mpr ⟨m, hes, hfs⟩⟩
  intro e he
  rcases List.mem_append.mp he with he | he
  · exact hQ e he
  · exact hQ' e he

/-- A loop whose body is a run, in every state where `P` holds, is a run. -/
theorem foldl {α : Type*} {P : σ → Prop} {f : σ → α → σ} (hP : ∀ s a, P s → P (f s a))
    (hf : ∀ s a, P s → Reaches step Q s (f s a)) (hs : P s) (l : List α) :
    Reaches step Q s (l.foldl f s) := by
  induction l generalizing s with
  | nil => exact refl s
  | cons a l ih => exact (hf s a hs).trans (ih (hP s a hs))

/-- **Invariant rule** for the events that satisfy `Q`. -/
theorem invariant {I : σ → Prop} (h : Reaches step Q s t)
    (hstep : ∀ s e t, I s → Q e → step s e = some t → I t) (hs : I s) : I t := by
  obtain ⟨es, hQ, hes⟩ := h
  induction es generalizing s with
  | nil =>
    cases hes
    exact hs
  | cons e es ih =>
    obtain ⟨m, hsm, hmt⟩ := exec_cons_eq_some.mp hes
    have hm : I m := hstep s e m hs (hQ e List.mem_cons_self) hsm
    exact ih hm (fun e' he' => hQ e' (List.mem_cons_of_mem e he')) hmt

end Reaches

/-- If every coarse step is a run of the fine system, so is every coarse run. -/
theorem exec_simulates {fine : σ → δ → Option σ} {Q : ε → δ → Prop} {R : δ → Prop}
    (hstep : ∀ s e t, step s e = some t → Reaches fine (Q e) s t)
    {s t : σ} {es : List ε} (hQ : ∀ e ∈ es, ∀ d, Q e d → R d)
    (h : exec step s es = some t) : Reaches fine R s t := by
  induction es generalizing s with
  | nil =>
    cases h
    exact .refl _
  | cons e es ih =>
    obtain ⟨m, hsm, hmt⟩ := exec_cons_eq_some.mp h
    obtain ⟨ds, hds, hex⟩ := hstep s e m hsm
    have hm : Reaches fine R s m := ⟨ds, fun d hd => hQ e List.mem_cons_self d (hds d hd), hex⟩
    exact hm.trans (ih (fun e' he' => hQ e' (List.mem_cons_of_mem e he')) hmt)

end MiniOs.Trace
