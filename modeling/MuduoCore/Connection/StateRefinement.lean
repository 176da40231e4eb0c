import MuduoCore.Connection.Establishment

/-!
# The accesses of `state_` in a run

What a run of the connection does to `state_` is a run of `StateOrder`: its
threads make the same tests and stores, in the same order. What holds of
`state_` there holds here.
-/

namespace MuduoCore
namespace ConnectionRun

variable {T : Type*} [DecidableEq T] {io main : T} {s s' : ConnectionRun T} {a : StateOrder T}

/-- The store that `shutdown`, at the top of a stack, has still to make. -/
def pendingStore (is : List (Instr T)) : PendingStore :=
  if is.head? = some (.setState .kDisconnecting) then .shutdown else .none

@[simp] theorem pendingStore_nil : pendingStore ([] : List (Instr T)) = .none := rfl

@[simp] theorem pendingStore_cons (i : Instr T) (is : List (Instr T)) :
    pendingStore (i :: is) = if i = .setState .kDisconnecting then .shutdown else .none := by
  simp [pendingStore]

theorem pendingStore_of_not_mem {is : List (Instr T)} (h : .setState .kDisconnecting ∉ is) :
    pendingStore is = .none := by
  cases is with
  | nil => rfl
  | cons i is =>
    rw [pendingStore_cons, if_neg]
    rintro rfl
    exact h (List.mem_cons_self ..)

/-- The stores of `shutdown` are made from the top of a stack. -/
def StoresOnTop (s : ConnectionRun T) : Prop :=
  ∀ t, .setState .kDisconnecting ∉ (s.stack t).tail

theorem store_of_run {t : T} {i : Instr T} {o : Outcome} {s c : Shared T}
    {new : List (Instr T)} (hr : s.run io main t i o = some (c, new))
    (h : .setState .kDisconnecting ∈ new) : i = .shutdown ∧ s.conn.connected = true ∧
      new = [.setState .kDisconnecting, .runInLoop io .shutdownInLoop] := by
  generalize hj : (Instr.setState .kDisconnecting : Instr T) = j at h
  cases Shared.follows_of_run hr h with
  | shutdown_store =>
    cases hr
    split_ifs at h with hc
    · exact ⟨rfl, hc, if_pos hc⟩
    · cases h
  | _ => cases hj

theorem storesOnTop_run {t : T} {i : Instr T} {o : Outcome} {rest new : List (Instr T)}
    {c : Shared T} (h : StoresOnTop s) (hs : s.stack t = i :: rest)
    (hr : s.toShared.run io main t i o = some (c, new)) :
    .setState .kDisconnecting ∉ (new ++ rest).tail := by
  have hrest : .setState .kDisconnecting ∉ rest := by simpa [hs] using h t
  by_cases hnew : .setState .kDisconnecting ∈ new
  · obtain ⟨_, _, rfl⟩ := store_of_run hr hnew
    simpa using hrest
  · intro hmem
    rcases List.mem_append.mp (List.mem_of_mem_tail hmem) with hmem | hmem
    · exact hnew hmem
    · exact hrest hmem

omit [DecidableEq T] in
theorem store_not_mem_destructor (cb : Functor (Payload T)) :
    .setState .kDisconnecting ∉ (cb.destructor : List (Instr T)) := by
  unfold Functor.destructor
  split_ifs <;> simp

omit [DecidableEq T] in
theorem store_not_mem_calls (fs : List (Functor (Payload T))) :
    .setState .kDisconnecting ∉ calls fs := by
  simp [calls]

omit [DecidableEq T] in
theorem store_not_mem_handlers (cbs : List EventCallback) :
    .setState .kDisconnecting ∉ cbs.map Instr.handle ++ [Instr.release (T := T)] := by
  simp

omit [DecidableEq T] in
theorem store_not_mem_code (t : T) (c : UserCall T) : .setState .kDisconnecting ∉ s.code t c := by
  cases c <;> simp [code]

omit [DecidableEq T] in
theorem UserRuns.not_store {t : T} (hu : s.UserRuns t) (h : StoresOnTop s) :
    .setState .kDisconnecting ∉ s.stack t := by
  rcases hu with ⟨hs, _⟩ | hs
  · simp [hs]
  · obtain ⟨rest, hstack⟩ := List.head?_eq_some_iff.mp hs
    have htail := h t
    rw [hstack, List.tail_cons] at htail
    simp [hstack, htail]

theorem storesOnTop_update {t : T} {is : List (Instr T)} (h : StoresOnTop s)
    (his : .setState .kDisconnecting ∉ is.tail) (u : T) :
    .setState .kDisconnecting ∉ (Function.update s.stack t is u).tail := by
  by_cases hu : u = t
  · subst hu
    rwa [Function.update_self]
  · rw [Function.update_of_ne hu]
    exact h u

theorem storesOnTop_step {l : RunLabel T} (h : StoresOnTop s) (hs : Steps io main s l s') :
    StoresOnTop s' := by
  cases hs with
  | run t o i rest c new hs hr => exact storesOnTop_update h (storesOnTop_run h hs hr)
  | queue t o loop cb rest hs =>
    have hrest : .setState .kDisconnecting ∉ rest := by simpa [hs] using h t
    apply storesOnTop_update h
    simp [store_not_mem_destructor, hrest]
  | wakeup t o loop rest hs =>
    apply storesOnTop_update h
    intro hmem
    apply h t
    rw [hs, List.tail_cons]
    exact List.mem_of_mem_tail hmem
  | control t c loop hs hact ha =>
    apply storesOnTop_update h
    intro hmem
    exact store_not_mem_calls _ (List.mem_of_mem_tail hmem)
  | handleEvent hs hact =>
    apply storesOnTop_update h
    intro hmem
    exact store_not_mem_handlers _ (List.mem_of_mem_tail hmem)
  | call t c hu =>
    apply storesOnTop_update h
    intro hmem
    rcases List.mem_append.mp (List.mem_of_mem_tail hmem) with hmem | hmem
    · exact store_not_mem_code t c hmem
    · exact hu.not_store h hmem
  | report => exact h
  | store => exact h

theorem storesOnTop_of_reachable {Good : ConnectionRun T → RunLabel T → Prop}
    (h : (system io main).Reachable Good s) : StoresOnTop s := by
  apply h.invariant
  · intro s hinit t hmem
    rcases hinit.mem_work (List.mem_append_left _ (List.mem_of_mem_tail hmem)) with
      ⟨_, hi⟩ | hi | hi <;> cases hi
  · intro s l s' htop _ hs
    exact storesOnTop_step htop (steps_of_step hs.2)

/-! ## The two models side by side -/

/-- Both hold the same in `state_`, and their threads have the same stores of
`shutdown` to make. -/
structure SameState (s : ConnectionRun T) (a : StateOrder T) : Prop where
  state : a.state_ = s.conn.state_
  pending : ∀ t, a.pending t = pendingStore (s.stack t)
  established : a.established = true → ∀ t, ∀ i ∈ s.work t, i.establishes = false
  fresh : a.established = false → s.conn.state_ = .kConnecting ∧ s.callbacks = []

theorem sameState_create (h : Init io main s) : SameState s StateOrder.create := by
  refine ⟨by simp [h.conn.state, StateOrder.create], ?_, ?_, ?_⟩
  · intro t
    by_cases ht : t = main
    · simp [ht, h.mainStack, StateOrder.create]
    · simp [h.otherStacks t ht, StateOrder.create]
  · rintro ⟨⟩
  · intro _
    exact ⟨h.conn.state, h.callbacks⟩

theorem SameState.same {l : RunLabel T} (h : SameState s a) (hup : BeforeUp io s ∨ AfterUp s)
    (hp : s.Permitted l) (hs : Steps io main s l s')
    (hstate : s'.conn.state_ = s.conn.state_)
    (hpending : ∀ t, pendingStore (s'.stack t) = pendingStore (s.stack t)) : SameState s' a := by
  refine ⟨h.state.trans hstate.symm, ?_, ?_, ?_⟩
  · intro t
    rw [h.pending, hpending]
  · intro he
    exact established_step (h.established he) hs
  · intro he
    obtain ⟨hconnecting, hnone⟩ := h.fresh he
    refine ⟨hstate.trans hconnecting, ?_⟩
    rcases hup with hbefore | hafter
    · rcases beforeUp_step hbefore hp hs with hb | hj
      · exact hb.callbacks
      · -- the first callback finds another state
        have hconnected := hj.state
        rw [hstate, hconnecting] at hconnected
        cases hconnected
    · exact absurd hnone hafter.callbacks

theorem pendingStore_update {t : T} {is : List (Instr T)}
    (hold : pendingStore (s.stack t) = .none) (hnew : pendingStore is = .none) (u : T) :
    pendingStore (Function.update s.stack t is u) = pendingStore (s.stack u) := by
  by_cases hu : u = t
  · subst hu
    rw [Function.update_self, hnew, hold]
  · rw [Function.update_of_ne hu]

theorem SameState.pending_update {t : T} {is : List (Instr T)} {p : PendingStore}
    (h : SameState s a) (hp : pendingStore is = p) (u : T) :
    Function.update a.pending t p u = pendingStore (Function.update s.stack t is u) := by
  by_cases hu : u = t
  · subst hu
    rw [Function.update_self, Function.update_self, hp]
  · rw [Function.update_of_ne hu, Function.update_of_ne hu, h.pending]

theorem SameState.pending_pop {t : T} {is : List (Instr T)} (h : SameState s a)
    (hold : a.pending t = .none) (hnew : pendingStore is = .none) (u : T) :
    a.pending u = pendingStore (Function.update s.stack t is u) := by
  rw [← h.pending_update hnew u, ← hold, Function.update_eq_self]

/-- No store of `shutdown` comes after a store of `kDisconnected`. -/
def StoresInTime (s : ConnectionRun T) : RunLabel T → Prop
  | .exec t _ => (s.stack t).head? = some (.setState .kDisconnecting) →
      s.conn.state_ ≠ .kDisconnected
  | _ => True

/-- What follows from one step here is one step of `StateOrder`, or none. -/
def Follow (io : T) (s : ConnectionRun T) (l : RunLabel T) (s' : ConnectionRun T)
    (a : StateOrder T) : Prop :=
  SameState s' a ∨ ∃ k a', (s.StoresInTime l → a.StoresInTime k) ∧ a.step io k = some a' ∧
    SameState s' a'

/-! ## One step -/

section Run

variable {t : T} {i : Instr T} {o : Outcome} {rest new : List (Instr T)} {c : Shared T}

abbrev afterRun (s : ConnectionRun T) (t : T) (c : Shared T) (is : List (Instr T)) :
    ConnectionRun T :=
  { s with toShared := c, stack := Function.update s.stack t is }

theorem follow_test (h : SameState s a) (hs : s.stack t = i :: rest)
    (hr : s.toShared.run io main t i o = some (c, new))
    (hnew : .setState .kDisconnecting ∈ new) :
    Follow io s (.exec t o) (s.afterRun t c (new ++ rest)) a := by
  have hstep : Steps io main s (.exec t o) (s.afterRun t c (new ++ rest)) :=
    .run t o i rest c new hs hr
  obtain ⟨rfl, hconn, rfl⟩ := store_of_run hr hnew
  have hconnected : s.conn.state_ = .kConnected := by simpa [TcpConnection.connected] using hconn
  have hnone : a.pending t = .none := by simp [h.pending, hs]
  have hstate : c.conn.state_ = s.conn.state_ := (Shared.frame_of_run hr).state (by simp)
  right
  refine ⟨.shutdownTest t, { a with pending := Function.update a.pending t .shutdown },
    fun _ => trivial, by simp [StateOrder.step, hnone, h.state, hconnected], ?_⟩
  refine ⟨h.state.trans hstate.symm, h.pending_update (by simp), ?_, ?_⟩
  · intro he
    exact established_step (h.established he) hstep
  · intro he
    rw [(h.fresh he).1] at hconnected
    cases hconnected

/-- Before the first callback the only store is that of `kConnected`, on the loop's thread. -/
theorem BeforeUp.store {state : StateE} (h : BeforeUp io s)
    (hs : s.stack t = .setState state :: rest) (c : Shared T) :
    state = .kConnected ∧ t = io ∧
      ∀ u, ∀ j ∈ (s.afterRun t c rest).work u, j.establishes = false := by
  have hi : (Instr.setState state : Instr T).protocol = true :=
    h.early t (.setState state) (by simp [work, hs])
  obtain ⟨u, w, honly, hest⟩ := h.establishing
  obtain ⟨rfl, w', rfl, honly'⟩ := honly.run_head hs hi c []
  cases hest with
  | setState hc =>
    refine ⟨rfl, rfl, ?_⟩
    have hleft : Only (s.afterRun io c rest) io
        [.changeInterest .enableReading, .connectionCallback] := honly'
    intro v j hj
    cases he : j.establishes with
    | false => rfl
    | true =>
      have hmem := List.mem_filter.mpr ⟨hj, Instr.protocol_of_establishes he⟩
      rw [hleft v] at hmem
      split_ifs at hmem
      · simp only [List.mem_cons, List.not_mem_nil, or_false] at hmem
        rcases hmem with rfl | rfl <;> cases he
      · cases hmem

theorem SameState.established_of_afterUp (h : SameState s a) (hup : AfterUp s) :
    a.established = true := by
  by_contra he
  exact hup.callbacks (h.fresh (by simpa using he)).2

theorem SameState.store {l : RunLabel T} (h : SameState s a) (hest : a.established = true)
    (hs : Steps io main s l s') {pending : T → PendingStore}
    (hpending : ∀ u, pending u = pendingStore (s'.stack u)) :
    SameState s' { a.setState s'.conn.state_ with pending := pending } where
  state := rfl
  pending := hpending
  established _ := established_step (h.established hest) hs
  fresh he := by
    rw [show a.established = false from he] at hest
    cases hest

theorem follow_establish {state : StateE} (h : SameState s a) (hup : BeforeUp io s)
    (hs : s.stack t = .setState state :: rest) (hrest : pendingStore rest = .none) :
    Follow io s (.exec t o) (s.afterRun t
      { s.toShared with conn := { s.conn with state_ := state } } rest) a := by
  obtain ⟨rfl, rfl, hleft⟩ := hup.store hs
    { s.toShared with conn := { s.conn with state_ := state } }
  have hest : a.established = false := by
    by_contra he
    have hnot := h.established (by simpa using he) t (.setState .kConnected) (by simp [work, hs])
    cases hnot
  have hnone : a.pending t = .none := by simp [h.pending, hs]
  right
  refine ⟨.connectEstablished, { a.setState .kConnected with established := true },
    fun _ => trivial, by simp [StateOrder.step, hest, hnone], ?_⟩
  exact ⟨rfl, h.pending_pop hnone hrest, fun _ => hleft, by simp⟩

theorem follow_store {state : StateE} (h : SameState s a) (hup : BeforeUp io s ∨ AfterUp s)
    (hplaced : Placed io main s) (htop : StoresOnTop s)
    (hs : s.stack t = .setState state :: rest)
    (hr : s.toShared.run io main t (.setState state) o = some (c, new)) :
    Follow io s (.exec t o) (s.afterRun t c (new ++ rest)) a := by
  have hstep : Steps io main s (.exec t o) (s.afterRun t c (new ++ rest)) :=
    .run t o _ rest c new hs hr
  have hmem : .setState state ∈ s.work t := by simp [work, hs]
  have hrest : pendingStore rest = .none := by
    apply pendingStore_of_not_mem
    simpa [hs] using htop t
  cases hr
  rcases hup with hbefore | hafter
  · exact follow_establish h hbefore hs hrest
  · have hest := h.established_of_afterUp hafter
    cases state with
    | kConnecting | kConnected =>
      have hnot := hafter.established t _ hmem
      cases hnot
    | kDisconnecting =>
      have hpending : a.pending t = .shutdown := by simp [h.pending, hs]
      refine Or.inr ⟨.shutdownStore t, _, ?_, by simp [StateOrder.step, hpending],
        h.store hest hstep (h.pending_update hrest)⟩
      intro hgood
      change a.state_ ≠ .kDisconnected
      rw [h.state]
      exact hgood (by simp [hs])
    | kDisconnected =>
      -- connectDestroyed and handleClose both store from the loop's thread
      have ht : t = io := by simpa [Instr.PlacedOn] using hplaced t _ hmem
      subst ht
      have hnone : a.pending t = .none := by simp [h.pending, hs]
      exact Or.inr ⟨.handleClose, a.setState .kDisconnected, fun _ => trivial,
        by simp [StateOrder.step, hest, hnone], h.store hest hstep (h.pending_pop hnone hrest)⟩

theorem follow_run (h : SameState s a) (hup : BeforeUp io s ∨ AfterUp s)
    (hplaced : Placed io main s) (htop : StoresOnTop s) (hp : s.Permitted (.exec t o))
    (hs : s.stack t = i :: rest) (hr : s.toShared.run io main t i o = some (c, new)) :
    Follow io s (.exec t o) (s.afterRun t c (new ++ rest)) a := by
  by_cases hnew : .setState .kDisconnecting ∈ new
  · exact follow_test h hs hr hnew
  · by_cases hset : ∃ state, i = .setState state
    · obtain ⟨state, rfl⟩ := hset
      exact follow_store h hup hplaced htop hs hr
    · simp only [not_exists] at hset
      have hrest : .setState .kDisconnecting ∉ rest := by simpa [hs] using htop t
      have hsame := (Shared.frame_of_run hr).state hset
      left
      refine h.same hup hp (.run t o i rest c new hs hr) hsame (pendingStore_update ?_ ?_)
      · rw [hs, pendingStore_cons, if_neg (hset _)]
      · apply pendingStore_of_not_mem
        simp [hnew, hrest]

end Run

theorem follow_step {l : RunLabel T} (h : SameState s a) (hup : BeforeUp io s ∨ AfterUp s)
    (hplaced : Placed io main s) (htop : StoresOnTop s) (hp : s.Permitted l)
    (hs : Steps io main s l s') : Follow io s l s' a := by
  have hsame := h.same hup hp hs
  cases hs with
  | run t o i rest c new hs hr => exact follow_run h hup hplaced htop hp hs hr
  | queue t o loop cb rest hs =>
    exact Or.inl (hsame rfl (pendingStore_update (by simp [hs]) (by simp)))
  | wakeup t o loop rest hs =>
    have hrest : .setState .kDisconnecting ∉ rest := by simpa [hs] using htop t
    exact Or.inl (hsame rfl
      (pendingStore_update (by simp [hs]) (pendingStore_of_not_mem hrest)))
  | control t c loop hs hact ha =>
    exact Or.inl (hsame rfl (pendingStore_update (by simp [hs])
      (pendingStore_of_not_mem (store_not_mem_calls _))))
  | handleEvent hs hact =>
    exact Or.inl (hsame rfl (pendingStore_update (by simp [hs])
      (pendingStore_of_not_mem (store_not_mem_handlers _))))
  | call t c hu =>
    have hstack := hu.not_store htop
    refine Or.inl (hsame rfl (pendingStore_update (pendingStore_of_not_mem hstack) ?_))
    apply pendingStore_of_not_mem
    intro hmem
    rcases List.mem_append.mp hmem with hmem | hmem
    · exact store_not_mem_code t c hmem
    · exact hstack hmem
  | report => exact Or.inl (hsame rfl fun _ => rfl)
  | store => exact Or.inl (hsame rfl fun _ => rfl)

theorem follow_of_step {Good : ConnectionRun T → RunLabel T → Prop} {l : RunLabel T}
    (hr : (system io main).Reachable Good s) (h : SameState s a)
    (hs : (system io main).Step s l s') : Follow io s l s' a :=
  follow_step h (beforeUp_or_afterUp hr) (placed_of_reachable hr) (storesOnTop_of_reachable hr)
    hs.1 (steps_of_step hs.2)

/-! ## Whole runs -/

theorem exists_sameState {Good : ConnectionRun T → RunLabel T → Prop}
    {Good' : StateOrder T → StateLabel T → Prop}
    (hgood : ∀ s l a k, Good s l → (s.StoresInTime l → a.StoresInTime k) → Good' a k)
    (h : (system io main).Reachable Good s) :
    ∃ a, (StateOrder.system io).Reachable Good' a ∧ SameState s a := by
  apply h.simulate SameState
  · intro s hinit
    exact ⟨_, rfl, sameState_create hinit⟩
  · intro s l s' a hr hg hs hsame
    rcases follow_of_step hr hsame hs with hsame | ⟨k, a', hk', hk, hsame⟩
    · exact Or.inl hsame
    · exact Or.inr ⟨k, a', hgood s l a k hg hk', hk, hsame⟩

/-- What a run of the connection does to `state_`, a run of `StateOrder` does. -/
theorem sameState_of_reachable {Good : ConnectionRun T → RunLabel T → Prop}
    (h : (system io main).Reachable Good s) :
    ∃ a, (StateOrder.system io).Reachable TransitionSystem.AnyStep a ∧ SameState s a := by
  apply exists_sameState _ h
  intro _ _ _ _ _ _
  trivial

theorem sameState_of_storesInTime (h : (system io main).Reachable StoresInTime s) :
    ∃ a, (StateOrder.system io).Reachable StateOrder.StoresInTime a ∧ SameState s a := by
  apply exists_sameState _ h
  intro _ _ _ _ hg hk
  exact hk hg

theorem rank_le_of_storesInTime {l : RunLabel T} (h : (system io main).Reachable StoresInTime s)
    (hgood : s.StoresInTime l) (hs : (system io main).Step s l s') :
    s.conn.state_.rank ≤ s'.conn.state_.rank := by
  obtain ⟨a, ha, hsame⟩ := sameState_of_storesInTime h
  rcases follow_of_step h hsame hs with hsame' | ⟨k, a', hk', hk, hsame'⟩
  · rw [← hsame.state, ← hsame'.state]
  · rw [← hsame.state, ← hsame'.state]
    exact (StateOrder.ordered_of_reachable ha).rank_le_of_step (hk' hgood) hk

end ConnectionRun
end MuduoCore
