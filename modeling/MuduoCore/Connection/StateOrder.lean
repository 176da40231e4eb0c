import MuduoCore.Foundation.TransitionSystem
import Mathlib.Tactic

/-!
# The order of `state_`

The atomic loads and stores of `state_`, one step each. `shutdown` and
`connectDestroyed` test it and store to it in two steps, so a thread has a
place between them; `connectEstablished` and `handleClose` store without a
test. The last three run on the thread of the loop only. `values` records what
`state_` has held.
-/

namespace MuduoCore

inductive StateE
  | kDisconnected
  | kConnecting
  | kConnected
  | kDisconnecting
  deriving DecidableEq, Repr

/-- The place of a state in the life of a connection. -/
def StateE.rank : StateE → ℕ
  | kConnecting => 0
  | kConnected => 1
  | kDisconnecting => 2
  | kDisconnected => 3

theorem StateE.rank_le (s : StateE) : s.rank ≤ StateE.kDisconnected.rank := by
  cases s <;> decide

theorem StateE.eq_kDisconnected {s : StateE} (h : StateE.kDisconnected.rank ≤ s.rank) :
    s = .kDisconnected := by
  cases s with
  | kDisconnected => rfl
  | _ => simp [StateE.rank] at h

/-- Between a test of `state_` that found `kConnected` and the store after it. -/
inductive PendingStore
  | none
  | shutdown
  | connectDestroyed
  deriving DecidableEq, Repr

inductive StateLabel (T : Type*)
  | shutdownTest (t : T)
  | shutdownStore (t : T)
  | connectEstablished
  | handleClose
  | destroyTest
  | destroyStore
  deriving DecidableEq, Repr

structure StateOrder (T : Type*) where
  state_ : StateE
  values : List StateE
  pending : T → PendingStore
  /-- `connectEstablished` has run; nothing else on the loop's thread runs before it -/
  established : Bool

namespace StateOrder

variable {T : Type*}

def create : StateOrder T := ⟨.kConnecting, [.kConnecting], fun _ => .none, false⟩

def setState (s : StateOrder T) (state : StateE) : StateOrder T :=
  { s with state_ := state, values := s.values ++ [state] }

variable [DecidableEq T]

/-- `io` is the thread of the connection's loop. -/
def step (io : T) (s : StateOrder T) : StateLabel T → Option (StateOrder T)
  | .shutdownTest t =>
    if s.pending t ≠ .none then none
    else if s.state_ = .kConnected then
      some { s with pending := Function.update s.pending t .shutdown }
    else some s
  | .shutdownStore t =>
    if s.pending t = .shutdown then
      some { s.setState .kDisconnecting with pending := Function.update s.pending t .none }
    else none
  | .connectEstablished =>
    if s.established ∨ s.pending io ≠ .none then none
    else some { s.setState .kConnected with established := true }
  | .handleClose =>
    if ¬ s.established ∨ s.pending io ≠ .none then none else some (s.setState .kDisconnected)
  | .destroyTest =>
    if ¬ s.established ∨ s.pending io ≠ .none then none
    else if s.state_ = .kConnected then
      some { s with pending := Function.update s.pending io .connectDestroyed }
    else some s
  | .destroyStore =>
    if s.pending io = .connectDestroyed then
      some { s.setState .kDisconnected with pending := Function.update s.pending io .none }
    else none

def system (io : T) : TransitionSystem (StateOrder T) (StateLabel T) where
  Init s := s = create
  Step s l s' := s.step io l = some s'

/-- No store of `shutdown` comes after a store of `kDisconnected`. -/
def StoresInTime (s : StateOrder T) : StateLabel T → Prop
  | .shutdownStore _ => s.state_ ≠ .kDisconnected
  | _ => True

instance (s : StateOrder T) (l : StateLabel T) : Decidable (StoresInTime s l) := by
  cases l <;> unfold StoresInTime <;> infer_instance

/-- Nothing has been held that comes after `state_`, and before
`connectEstablished` no test has found `kConnected`. -/
structure Ordered (s : StateOrder T) : Prop where
  sorted : s.values.Pairwise fun a b => a.rank ≤ b.rank
  current : s.values.getLast? = some s.state_
  last : ∀ a ∈ s.values, a.rank ≤ s.state_.rank
  connecting : s.established = false → s.state_ = .kConnecting ∧ ∀ t, s.pending t = .none

omit [DecidableEq T] in
theorem ordered_create : Ordered (create : StateOrder T) :=
  ⟨by simp [create], rfl, by simp [create], fun _ => ⟨rfl, fun _ => rfl⟩⟩

omit [DecidableEq T] in
/-- A store that does not go back keeps the order. -/
theorem Ordered.setState {s : StateOrder T} (h : Ordered s) {state : StateE}
    (hle : s.state_.rank ≤ state.rank) {pending : T → PendingStore} {established : Bool}
    (he : established = true) :
    Ordered { s.setState state with pending := pending, established := established } := by
  refine ⟨?_, by simp [StateOrder.setState], ?_, fun hne => by simp [he] at hne⟩
  · simp only [StateOrder.setState, List.pairwise_append]
    refine ⟨h.sorted, List.pairwise_singleton _ _, ?_⟩
    intro a ha b hb
    rw [List.mem_singleton.mp hb]
    exact (h.last a ha).trans hle
  · intro a ha
    rcases List.mem_append.mp ha with ha | ha
    · exact (h.last a ha).trans hle
    · rw [List.mem_singleton.mp ha]
      exact le_rfl

theorem ordered_step {io : T} {s s' : StateOrder T} {l : StateLabel T} (h : Ordered s)
    (hgood : StoresInTime s l) (hs : s.step io l = some s') : Ordered s' := by
  -- a pending store shows that connectEstablished has run
  have hest : ∀ t, s.pending t ≠ .none → s.established = true := by
    intro t ht
    by_contra hne
    exact ht ((h.connecting (by simpa using hne)).2 t)
  cases l with
  | shutdownTest t =>
    simp only [step] at hs
    split_ifs at hs with hp hc <;> cases hs
    · refine ⟨h.sorted, h.current, h.last, fun hne => ?_⟩
      have hk := (h.connecting hne).1
      rw [hc] at hk
      cases hk
    · exact h
  | shutdownStore t =>
    simp only [step] at hs
    split_ifs at hs with hp
    cases hs
    have hle : s.state_.rank ≤ StateE.kDisconnecting.rank := by
      cases hk : s.state_ with
      | kDisconnected => exact absurd hk hgood
      | _ => decide
    exact h.setState hle (hest t (by simp [hp]))
  | connectEstablished =>
    simp only [step] at hs
    split_ifs at hs with hp
    cases hs
    simp only [not_or, Bool.not_eq_true] at hp
    have hle : s.state_.rank ≤ StateE.kConnected.rank := by
      rw [(h.connecting hp.1).1]
      decide
    exact h.setState hle rfl
  | handleClose =>
    simp only [step] at hs
    split_ifs at hs with hp
    cases hs
    simp only [not_or, not_not] at hp
    exact h.setState s.state_.rank_le hp.1
  | destroyTest =>
    simp only [step] at hs
    split_ifs at hs with hp hc <;> cases hs
    · refine ⟨h.sorted, h.current, h.last, fun hne => ?_⟩
      simp only [not_or, not_not] at hp
      exact absurd hne (by simp [hp.1])
    · exact h
  | destroyStore =>
    simp only [step] at hs
    split_ifs at hs with hp
    cases hs
    exact h.setState s.state_.rank_le (hest io (by simp [hp]))

theorem ordered_of_reachable {io : T} {s : StateOrder T}
    (h : (system io).Reachable StoresInTime s) : Ordered s := by
  refine h.invariant ?_ ?_
  · rintro s rfl
    exact ordered_create
  · intro s l s' hi hgood hs
    exact ordered_step hi hgood hs

theorem values_of_step {io : T} {s s' : StateOrder T} {l : StateLabel T}
    (hs : s.step io l = some s') : s.values <+: s'.values := by
  cases l
  all_goals
    simp only [step] at hs
    split_ifs at hs <;> cases hs <;> simp [setState]

theorem Ordered.rank_le_of_step {io : T} {s s' : StateOrder T} {l : StateLabel T}
    (h : Ordered s) (hgood : StoresInTime s l) (hs : s.step io l = some s') :
    s.state_.rank ≤ s'.state_.rank := by
  have hmem : s.state_ ∈ s.values := List.mem_of_getLast? h.current
  exact (ordered_step h hgood hs).last _ ((values_of_step hs).mem hmem)

/-- In every run in which no `shutdown` stores after the close path has, the
values of `state_` only go forward, and after `kDisconnected` there is no
other value. -/
theorem state_moves_forward {io : T} {s : StateOrder T}
    (h : (system io).Reachable StoresInTime s) :
    s.values.getLast? = some s.state_ ∧ s.values.Pairwise (fun a b => a.rank ≤ b.rank) ∧
      ∀ before after, s.values = before ++ .kDisconnected :: after →
        ∀ a ∈ after, a = .kDisconnected := by
  have hord := ordered_of_reachable h
  refine ⟨hord.current, hord.sorted, ?_⟩
  intro before after hv a ha
  have hsorted := hord.sorted
  rw [hv, List.pairwise_append, List.pairwise_cons] at hsorted
  exact StateE.eq_kDisconnected (hsorted.2.1.1 a ha)

theorem replay_guarded {io : T} {Good : StateOrder T → StateLabel T → Prop}
    [∀ s l, Decidable (Good s l)] (s : StateOrder T) (l : StateLabel T) (s' : StateOrder T)
    (h : TransitionSystem.guarded Good (step io) s l = some s') :
    Good s l ∧ (system io).Step s l s' :=
  TransitionSystem.guarded_eq_some.mp h

/-- Thread `1` shuts down in time, then the loop of thread `0` closes and destroys. -/
theorem state_moves_forward_half_closed :
    ∃ s : StateOrder ℕ, s.values = [.kConnecting, .kConnected, .kDisconnecting, .kDisconnected] ∧
      s.values.Pairwise fun a b => a.rank ≤ b.rank := by
  have hrun : (TransitionSystem.replay (TransitionSystem.guarded StoresInTime (step 0))
      (create : StateOrder ℕ) [.connectEstablished, .shutdownTest 1, .shutdownStore 1,
        .handleClose, .destroyTest]).map values
      = some [.kConnecting, .kConnected, .kDisconnecting, .kDisconnected] := by decide
  obtain ⟨s, hs, hv⟩ :=
    TransitionSystem.exists_reachable_of_replay replay_guarded (.init rfl) _ hrun
  exact ⟨s, hv, (state_moves_forward hs).2.1⟩

/-- Thread `1` finds `kConnected`, the loop closes, and thread `1` stores. -/
theorem state_moves_back_after_close :
    ∃ s : StateOrder ℕ, (system 0).Reachable TransitionSystem.AnyStep s ∧
      s.values = [.kConnecting, .kConnected, .kDisconnected, .kDisconnecting] ∧
      ¬ s.values.Pairwise fun a b => a.rank ≤ b.rank := by
  have hrun : (TransitionSystem.replay
      (TransitionSystem.guarded TransitionSystem.AnyStep (step 0)) (create : StateOrder ℕ)
      [.connectEstablished, .shutdownTest 1, .handleClose, .shutdownStore 1]).map values
      = some [.kConnecting, .kConnected, .kDisconnected, .kDisconnecting] := by decide
  obtain ⟨s, hs, hv⟩ :=
    TransitionSystem.exists_reachable_of_replay replay_guarded (.init rfl) _ hrun
  refine ⟨s, hs, hv, ?_⟩
  rw [hv]
  decide

end StateOrder
end MuduoCore
