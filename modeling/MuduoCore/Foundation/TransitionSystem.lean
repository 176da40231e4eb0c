import Mathlib.Order.Basic
import Mathlib.Tactic.Common

/-!
# Labelled transition systems

Runs are recorded together with a condition on their steps: `Reachable Good`
collects the states of every run in which each step, seen from the state it
starts in, satisfies `Good`. Ordinary reachability is the case `Good = ⊤`.
An invariant is established once, by `Reachable.invariant`, from the initial
states and from one step.
-/

/-- States, initial states and labelled steps. -/
structure TransitionSystem (σ ℓ : Type*) where
  Init : σ → Prop
  Step : σ → ℓ → σ → Prop

namespace TransitionSystem

variable {σ τ ℓ κ : Type*}

/-- The states of the runs all of whose steps satisfy `Good`. -/
inductive Reachable (S : TransitionSystem σ ℓ) (Good : σ → ℓ → Prop) : σ → Prop
  | init {s : σ} : S.Init s → Reachable S Good s
  | step {s : σ} {l : ℓ} {s' : σ} :
      Reachable S Good s → Good s l → S.Step s l s' → Reachable S Good s'

/-- No condition on the steps. -/
def AnyStep (_ : σ) (_ : ℓ) : Prop := True

instance (s : σ) (l : ℓ) : Decidable (AnyStep s l) := isTrue trivial

variable {S : TransitionSystem σ ℓ} {Good Good' : σ → ℓ → Prop}

theorem Reachable.invariant {I : σ → Prop} (hinit : ∀ s, S.Init s → I s)
    (hstep : ∀ s l s', I s → Good s l → S.Step s l s' → I s') {s : σ}
    (h : S.Reachable Good s) : I s := by
  induction h with
  | init h => exact hinit _ h
  | step _ hg hs ih => exact hstep _ _ _ ih hg hs

/-- An invariant may use one that has been established before. -/
theorem Reachable.invariant_of {I J : σ → Prop} (hJ : ∀ s, S.Reachable Good s → J s)
    (hinit : ∀ s, S.Init s → I s)
    (hstep : ∀ s l s', I s → J s → Good s l → S.Step s l s' → I s') {s : σ}
    (h : S.Reachable Good s) : I s := by
  induction h with
  | init h => exact hinit _ h
  | step h hg hs ih => exact hstep _ _ _ ih (hJ _ h) hg hs

theorem Reachable.mono (hgood : ∀ s l, Good s l → Good' s l) {s : σ}
    (h : S.Reachable Good s) : S.Reachable Good' s := by
  induction h with
  | init h => exact .init h
  | step _ hg hs ih => exact .step ih (hgood _ _ hg) hs

theorem Reachable.mono_of {J : σ → Prop} (hJ : ∀ s, S.Reachable Good s → J s)
    (hgood : ∀ s l s', J s → Good s l → S.Step s l s' → Good' s l) {s : σ}
    (h : S.Reachable Good s) : S.Reachable Good' s := by
  induction h with
  | init h => exact .init h
  | step h hg hs ih => exact .step ih (hgood _ _ _ (hJ _ h) hg hs) hs

/-- A relation to another system that every step keeps, with a step of the
other system or with none, relates reachable states to reachable states. -/
theorem Reachable.simulate {T : TransitionSystem τ κ} {Good' : τ → κ → Prop} (R : σ → τ → Prop)
    (hinit : ∀ s, S.Init s → ∃ t, T.Init t ∧ R s t)
    (hstep : ∀ s l s' t, S.Reachable Good s → Good s l → S.Step s l s' → R s t →
      R s' t ∨ ∃ k t', Good' t k ∧ T.Step t k t' ∧ R s' t') {s : σ}
    (h : S.Reachable Good s) : ∃ t, T.Reachable Good' t ∧ R s t := by
  induction h with
  | init h =>
    obtain ⟨t, ht, hR⟩ := hinit _ h
    exact ⟨t, .init ht, hR⟩
  | step h hg hs ih =>
    obtain ⟨t, ht, hR⟩ := ih
    rcases hstep _ _ _ t h hg hs hR with hR | ⟨k, t', hg', hk, hR⟩
    · exact ⟨t, ht, hR⟩
    · exact ⟨t', .step ht hg' hk, hR⟩

/-- Execute a list of labels, stopping when a step is refused. -/
def replay (next : σ → ℓ → Option σ) : σ → List ℓ → Option σ
  | s, [] => some s
  | s, l :: ls => (next s l).bind fun s' => replay next s' ls

theorem replay_append (next : σ → ℓ → Option σ) (s : σ) (ls ms : List ℓ) :
    replay next s (ls ++ ms) = (replay next s ls).bind fun t => replay next t ms := by
  induction ls generalizing s with
  | nil => rfl
  | cons l ls ih => simp only [List.cons_append, replay, ih, Option.bind_assoc]

/-- Refuse the steps that do not satisfy the condition. -/
def guarded (Good : σ → ℓ → Prop) [∀ s l, Decidable (Good s l)] (next : σ → ℓ → Option σ)
    (s : σ) (l : ℓ) : Option σ :=
  if Good s l then next s l else none

theorem guarded_eq_some [∀ s l, Decidable (Good s l)] {next : σ → ℓ → Option σ} {s s' : σ}
    {l : ℓ} : guarded Good next s l = some s' ↔ Good s l ∧ next s l = some s' := by
  unfold guarded
  split_ifs with h <;> simp [h]

/-- What the executed steps keep holds at the end, if it holds at the start. -/
theorem replay_induction {next : σ → ℓ → Option σ} {I : σ → Prop} {ls : List ℓ}
    (hstep : ∀ s, ∀ l ∈ ls, ∀ s', I s → next s l = some s' → I s') {s t : σ} (hs : I s)
    (h : replay next s ls = some t) : I t := by
  induction ls generalizing s with
  | nil =>
    simp only [replay, Option.some.injEq] at h
    exact h ▸ hs
  | cons l ls ih =>
    simp only [replay, Option.bind_eq_some_iff] at h
    obtain ⟨s', hl, ht⟩ := h
    refine ih ?_ (hstep s l (List.mem_cons_self ..) s' hs hl) ht
    intro s k hk
    exact hstep s k (List.mem_cons_of_mem l hk)

/-- An executed list of labels is a run, whenever the executed steps are steps
of the system that satisfy the condition. -/
theorem reachable_of_replay {next : σ → ℓ → Option σ}
    (hnext : ∀ s l s', next s l = some s' → Good s l ∧ S.Step s l s')
    {s t : σ} (hs : S.Reachable Good s) {ls : List ℓ} (h : replay next s ls = some t) :
    S.Reachable Good t := by
  induction ls generalizing s with
  | nil =>
    simp only [replay, Option.some.injEq] at h
    exact h ▸ hs
  | cons l ls ih =>
    simp only [replay, Option.bind_eq_some_iff] at h
    obtain ⟨s', hl, ht⟩ := h
    exact ih (.step hs (hnext s l s' hl).1 (hnext s l s' hl).2) ht

theorem exists_reachable_of_replay {next : σ → ℓ → Option σ}
    (hnext : ∀ s l s', next s l = some s' → Good s l ∧ S.Step s l s')
    {s : σ} (hs : S.Reachable Good s) {ls : List ℓ} {β : Type*} (observe : σ → β) {b : β}
    (h : (replay next s ls).map observe = some b) :
    ∃ t, S.Reachable Good t ∧ observe t = b := by
  simp only [Option.map_eq_some_iff] at h
  obtain ⟨t, ht, hb⟩ := h
  exact ⟨t, reachable_of_replay hnext hs ht, hb⟩

end TransitionSystem
