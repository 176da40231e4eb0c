import MuduoCore.Foundation.TransitionSystem
import Mathlib.Data.Multiset.DershowitzManna
import Mathlib.Tactic

/-!
# Infinite runs that are fair

A participant of a system is given by the steps that are its own. A run is fair
to it when it takes a step sooner or later, unless it is kept from taking any.
A variant takes its values in a well-founded order. Where the participant's
steps make it smaller, and those of the others at least do not make it larger,
a fair run comes to where the participant wants to go. For a stack of
instructions each of which makes place for smaller ones, the multiset of their
ranks is such a variant.
-/

namespace TransitionSystem

variable {σ ℓ α : Type*}

/-- An infinite run that goes on from a reachable state. -/
structure Run (S : TransitionSystem σ ℓ) (Good : σ → ℓ → Prop) where
  state : ℕ → σ
  label : ℕ → ℓ
  start : S.Reachable Good (state 0)
  good : ∀ n, Good (state n) (label n)
  step : ∀ n, S.Step (state n) (label n) (state (n + 1))

/-- The participant can take a step of its own. -/
def Enabled (S : TransitionSystem σ ℓ) (Own : σ → ℓ → Prop) (s : σ) : Prop :=
  ∃ l s', Own s l ∧ S.Step s l s'

namespace Run

variable {S : TransitionSystem σ ℓ} {Good Own : σ → ℓ → Prop} (r : S.Run Good)

/-- Weak fairness: who can go on from some time on does go on. -/
def Fair (Own : σ → ℓ → Prop) : Prop :=
  ∀ n, (∀ m ≥ n, S.Enabled Own (r.state m)) → ∃ m ≥ n, Own (r.state m) (r.label m)

theorem reachable (n : ℕ) : S.Reachable Good (r.state n) := by
  induction n with
  | zero => exact r.start
  | succ n ih => exact ih.step (r.good n) (r.step n)

variable {r} {P I : σ → Prop} {n : ℕ}

theorem stable (hstep : ∀ m ≥ n, I (r.state m) → I (r.state (m + 1))) (hn : I (r.state n)) :
    ∀ m ≥ n, I (r.state m) := by
  intro m hm
  induction m, hm using Nat.le_induction with
  | base => exact hn
  | succ m hm ih => exact hstep m hm ih

/-- A participant that sooner or later goes on, and gets nearer to the goal
with each of its steps, comes to the goal. -/
theorem reaches_of_variant {lt : α → α → Prop} (hwf : WellFounded lt) (v : σ → α)
    (htakes : ∀ m ≥ n, ∃ k ≥ m, P (r.state k) ∨ Own (r.state k) (r.label k))
    (hown : ∀ m ≥ n, ¬ P (r.state m) → ¬ P (r.state (m + 1)) → Own (r.state m) (r.label m) →
      lt (v (r.state (m + 1))) (v (r.state m)))
    (hother : ∀ m ≥ n, ¬ P (r.state m) → ¬ Own (r.state m) (r.label m) →
      v (r.state (m + 1)) = v (r.state m) ∨ lt (v (r.state (m + 1))) (v (r.state m))) :
    ∃ m ≥ n, P (r.state m) := by
  by_contra hnever
  have hnot : ∀ m ≥ n, ¬ P (r.state m) := fun m hm hP => hnever ⟨m, hm, hP⟩
  have hstep : ∀ m ≥ n, v (r.state (m + 1)) = v (r.state m) ∨
      lt (v (r.state (m + 1))) (v (r.state m)) := by
    intro m hm
    by_cases htaken : Own (r.state m) (r.label m)
    · exact .inr (hown m hm (hnot m hm) (hnot _ (hm.trans m.le_succ)) htaken)
    · exact hother m hm (hnot m hm) htaken
  -- the variant never grows, and gets smaller again and again
  have hdown : ∀ a, ∀ m ≥ n, v (r.state m) = a → False := by
    intro a
    induction a using hwf.transGen.induction with
    | _ a ih =>
      intro m hm hva
      have hle : ∀ k ≥ m, v (r.state k) = a ∨ Relation.TransGen lt (v (r.state k)) a := by
        intro k hk
        induction k, hk using Nat.le_induction with
        | base => exact .inl hva
        | succ k hk ihk =>
          rcases hstep k (hm.trans hk) with heq | hless
          · rwa [heq]
          · right
            rcases ihk with heq | hless'
            · exact .single (heq ▸ hless)
            · exact .head hless hless'
      obtain ⟨k, hk, hP | htaken⟩ := htakes m hm
      · exact hnot k (hm.trans hk) hP
      · have hnk := hm.trans hk
        have hless := hown k hnk (hnot k hnk) (hnot _ (hnk.trans k.le_succ)) htaken
        refine ih _ ?_ (k + 1) (hnk.trans k.le_succ) rfl
        rcases hle k hk with heq | hless'
        · exact .single (heq ▸ hless)
        · exact .head hless hless'
  exact hdown _ n le_rfl rfl

/-- The same for a participant that nothing keeps from going on. -/
theorem Fair.reaches {lt : α → α → Prop} (hfair : r.Fair Own) (hwf : WellFounded lt) (v : σ → α)
    (henabled : ∀ m ≥ n, ¬ P (r.state m) → S.Enabled Own (r.state m))
    (hown : ∀ m ≥ n, ¬ P (r.state m) → ¬ P (r.state (m + 1)) → Own (r.state m) (r.label m) →
      lt (v (r.state (m + 1))) (v (r.state m)))
    (hother : ∀ m ≥ n, ¬ P (r.state m) → ¬ Own (r.state m) (r.label m) →
      v (r.state (m + 1)) = v (r.state m) ∨ lt (v (r.state (m + 1))) (v (r.state m))) :
    ∃ m ≥ n, P (r.state m) := by
  refine reaches_of_variant hwf v ?_ hown hother
  intro m hm
  by_cases hP : ∃ k ≥ m, P (r.state k)
  · obtain ⟨k, hk, hP⟩ := hP
    exact ⟨k, hk, .inl hP⟩
  · obtain ⟨k, hk, htaken⟩ := hfair m fun k hk =>
      henabled k (hm.trans hk) fun h => hP ⟨k, hk, h⟩
    exact ⟨k, hk, .inr htaken⟩

/-! ## Runs that are given by their labels -/

/-- A step that changes nothing, again and again. -/
def stay {s : σ} {l : ℓ} (hs : S.Reachable Good s) (hgood : Good s l) (hl : S.Step s l s) :
    S.Run Good := ⟨fun _ => s, fun _ => l, hs, fun _ => hgood, fun _ => hl⟩

def cons {s : σ} (l : ℓ) (r : S.Run Good) (hs : S.Reachable Good s) (hgood : Good s l)
    (hl : S.Step s l (r.state 0)) : S.Run Good where
  state
    | 0 => s
    | n + 1 => r.state n
  label
    | 0 => l
    | n + 1 => r.label n
  start := hs
  good
    | 0 => hgood
    | n + 1 => r.good n
  step
    | 0 => hl
    | n + 1 => r.step n

/-- Who can go on to where the same holds again can go on for ever. -/
theorem exists_forever
    (hstep : ∀ s, I s → ∃ l s', Own s l ∧ Good s l ∧ S.Step s l s' ∧ I s') {s : σ}
    (hs : S.Reachable Good s) (h : I s) :
    ∃ r : S.Run Good, r.state 0 = s ∧ ∀ n, I (r.state n) ∧ Own (r.state n) (r.label n) := by
  obtain ⟨l, _⟩ := hstep s h
  have : Nonempty ℓ := ⟨l⟩
  have : Nonempty σ := ⟨s⟩
  choose! label next hnext using hstep
  have hI : ∀ n, I (next^[n] s) := by
    intro n
    induction n with
    | zero => exact h
    | succ n ih =>
      rw [Function.iterate_succ_apply']
      exact (hnext _ ih).2.2.2
  refine ⟨⟨fun n => next^[n] s, fun n => label (next^[n] s), hs, fun n => (hnext _ (hI n)).2.1,
    fun n => ?_⟩, rfl, fun n => ⟨hI n, (hnext _ (hI n)).1⟩⟩
  rw [Function.iterate_succ_apply']
  exact (hnext _ (hI n)).2.2.1

variable {next : σ → ℓ → Option σ}

theorem exists_replay_append
    (hnext : ∀ s l s', next s l = some s' → Good s l ∧ S.Step s l s') (r : S.Run Good) {s : σ}
    (hs : S.Reachable Good s) {ls : List ℓ} (h : replay next s ls = some (r.state 0)) :
    ∃ r' : S.Run Good, r'.state 0 = s ∧ ∀ n, r'.state (n + ls.length) = r.state n ∧
      r'.label (n + ls.length) = r.label n := by
  induction ls generalizing s with
  | nil =>
    simp only [replay, Option.some.injEq] at h
    exact ⟨r, h.symm, fun n => ⟨rfl, rfl⟩⟩
  | cons k ls ih =>
    simp only [replay, Option.bind_eq_some_iff] at h
    obtain ⟨s', hk, hls⟩ := h
    obtain ⟨hgood, hstep⟩ := hnext s k s' hk
    obtain ⟨r', hstart, happend⟩ := ih (hs.step hgood hstep) hls
    exact ⟨r'.cons k hs hgood (hstart ▸ hstep), rfl, happend⟩

/-- Labels that are replayed, and then a step that changes nothing. -/
theorem exists_replay_stay
    (hnext : ∀ s l s', next s l = some s' → Good s l ∧ S.Step s l s') {s t : σ}
    (hs : S.Reachable Good s) {ls : List ℓ} (h : replay next s ls = some t) {l : ℓ}
    (hl : next t l = some t) :
    ∃ r : S.Run Good, r.state 0 = s ∧ ∀ n, r.state (n + ls.length) = t := by
  obtain ⟨hgood, hstep⟩ := hnext t l t hl
  obtain ⟨r, hr, hstays⟩ := exists_replay_append hnext
    (.stay (reachable_of_replay hnext hs h) hgood hstep) hs h
  exact ⟨r, hr, fun n => (hstays n).1⟩

end Run
end TransitionSystem

namespace InstructionStack

variable {ι : Type*} (rank : ι → ℕ)

/-- What is left to do, by the ranks of the instructions. -/
def weight (stack : List ι) : Multiset ℕ := Multiset.ofList (stack.map rank)

/-- The instruction on top makes place for smaller ones. -/
theorem weight_replaced {head : ι} {new rest : List ι} (h : ∀ i ∈ new, rank i < rank head) :
    Multiset.IsDershowitzMannaLT (weight rank (new ++ rest)) (weight rank (head :: rest)) := by
  refine ⟨weight rank rest, weight rank new, {rank head}, by simp, ?_, ?_, ?_⟩
  · rw [weight, List.map_append, ← Multiset.coe_add, add_comm]
    rfl
  · rw [weight, List.map_cons, ← Multiset.cons_coe, ← Multiset.singleton_add, add_comm]
    rfl
  · intro n hn
    obtain ⟨i, hi, rfl⟩ := List.mem_map.mp (Multiset.mem_coe.mp hn)
    exact ⟨rank head, Multiset.mem_singleton_self _, h i hi⟩

end InstructionStack
