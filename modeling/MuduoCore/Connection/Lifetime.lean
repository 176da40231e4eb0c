import MuduoCore.Connection.Placement

/-!
# The lifetime of a connection with queued functors

`send` and `shutdown` queue functors that bind the raw `this`. Such a functor
is safe while the destruction of the connection has not been swapped out by the
loop, because until then `connections_`, a thread or the queue holds a
`shared_ptr`; in the batch with `connectDestroyed` it is safe because the batch
holds one until it is released.
-/

namespace MuduoCore

def Instr.queuesRaw {T : Type*} : Instr T → Bool
  | queueInLoop _ cb => cb.raw
  | _ => false

namespace ConnectionRun

variable {T : Type*} [DecidableEq T] {io main : T} {s s' : ConnectionRun T}

/-- A functor that binds the raw `this` is queued before the loop swaps out the
batch with `connectDestroyed`. -/
def QueuesInTime (s : ConnectionRun T) : RunLabel T → Prop
  | .exec t _ => ∀ i ∈ (s.stack t).head?, i.queuesRaw = true → s.destroySwapped = false
  | _ => True

instance (s : ConnectionRun T) : (l : RunLabel T) → Decidable (QueuesInTime s l)
  | .exec t _ => inferInstanceAs (Decidable (∀ i ∈ (s.stack t).head?, _ → _))
  | .control _ _ | .report _ _ | .handleEvent | .call _ _ | .store _ _ _ => isTrue trivial

/-- While its destruction has not been swapped out, the connection is in
`connections_`, or `connectDestroyed` is being queued or has been. -/
def Owned (io : T) (s : ConnectionRun T) : Prop :=
  s.destroySwapped = false → s.inConnections = true ∨
    (∃ t, .queueInLoop io .connectDestroyed ∈ s.stack t) ∨
    .connectDestroyed ∈ (s.loops io).pendingFunctors_

/-- Where raw functors are: in the queue of the loop before the destruction is
swapped out, or in a batch that is as early or holds `connectDestroyed`. -/
structure RawInTime (io : T) (s : ConnectionRun T) : Prop where
  pending : ∀ f ∈ (s.loops io).pendingFunctors_, f.raw = true → s.destroySwapped = false
  batch : ∀ f ∈ (s.loops io).phase.functors, f.raw = true →
    s.destroySwapped = false ∨ .connectDestroyed ∈ (s.loops io).phase.functors
  elsewhere : ∀ t ≠ io, ∀ f ∈ (s.loops t).held, f.raw = false

omit [DecidableEq T] in
theorem Owned.alive (h : Owned io s) (hd : s.destroySwapped = false) : s.Alive := by
  rcases h hd with hin | ⟨t, ht⟩ | hq
  · exact Or.inl hin
  · exact Or.inr (Or.inl ⟨t, _, ht, rfl⟩)
  · exact Or.inr (Or.inr ⟨io, _, List.mem_append_right _ hq, rfl⟩)

theorem alive_of_body (ho : Owned io s) (hr : RawInTime io s) {t : T}
    {ran todo : List (Functor (Payload T))} {f : Functor (Payload T)}
    (hp : (s.loops t).phase = .body ran f todo) (hb : f.bound = true) : s.Alive := by
  have hmem : f ∈ (s.loops t).phase.functors := by simp [hp, LoopPhase.functors]
  have hheld : f ∈ (s.loops t).held := List.mem_append_left _ hmem
  by_cases hs : f.shared = true
  · exact Or.inr (Or.inr ⟨t, f, hheld, hs⟩)
  · have hraw : f.raw = true := by simp [Functor.raw, hb, hs]
    have ht : t = io := by
      by_contra hne
      rw [hr.elsewhere t hne f hheld] at hraw
      cases hraw
    subst ht
    rcases hr.batch f hmem hraw with hd | hdestroy
    · exact ho.alive hd
    · exact Or.inr (Or.inr ⟨t, _, List.mem_append_left _ hdestroy, rfl⟩)

theorem inConnections_of_run {t : T} {i : Instr T} {o : Outcome} {c : Shared T}
    {new : List (Instr T)} (h : s.toShared.run io main t i o = some (c, new)) :
    c.inConnections = s.inConnections ∨ .queueInLoop io .connectDestroyed ∈ new := by
  by_cases hi : i = .call .removeConnectionInLoop
  · right
    subst hi
    simp only [Shared.run, Shared.body, Option.some.injEq, Prod.mk.injEq] at h
    simp [← h.2]
  · left
    exact (Shared.frame_of_run h).inConnections hi

theorem owned_run {t : T} {o : Outcome} {i : Instr T} {rest new : List (Instr T)} {c : Shared T}
    (h : Owned io s) (hs : s.stack t = i :: rest)
    (hr : s.toShared.run io main t i o = some (c, new)) :
    Owned io { s with toShared := c, stack := Function.update s.stack t (new ++ rest) } := by
  intro hd
  rcases h hd with hin | ⟨u, hu⟩ | hq
  · rcases inConnections_of_run hr with heq | hnew
    · exact Or.inl (heq.trans hin)
    · exact Or.inr (Or.inl ⟨t, by simp [hnew]⟩)
  · refine Or.inr (Or.inl ⟨u, mem_update_stack hu ?_⟩)
    intro hmem
    rw [hs] at hmem
    rcases List.mem_cons.mp hmem with rfl | hmem
    · cases hr
    · exact List.mem_append_right _ hmem
  · exact Or.inr (Or.inr hq)

theorem owned_queue {t loop : T} {cb : Functor (Payload T)} {rest : List (Instr T)}
    (h : Owned io s) (hs : s.stack t = .queueInLoop loop cb :: rest) :
    Owned io ((s.setLoop loop ((s.loops loop).push cb)).setStack t
      (.wakeup loop :: cb.destructor ++ rest)) := by
  have hpush : ∀ f ∈ (s.loops io).pendingFunctors_,
      f ∈ (Function.update s.loops loop ((s.loops loop).push cb) io).pendingFunctors_ := by
    intro f hf
    by_cases hl : io = loop
    · subst hl
      simp [hf]
    · rwa [Function.update_of_ne hl]
  intro hd
  rcases h hd with hin | ⟨u, hu⟩ | hq
  · exact Or.inl hin
  · by_cases hcb : loop = io ∧ cb = .connectDestroyed
    · obtain ⟨rfl, rfl⟩ := hcb
      exact Or.inr (Or.inr (by simp))
    · refine Or.inr (Or.inl ⟨u, mem_update_stack hu ?_⟩)
      intro hmem
      rw [setLoop_stack, hs] at hmem
      rcases List.mem_cons.mp hmem with heq | hmem
      · cases heq
        exact absurd ⟨rfl, rfl⟩ hcb
      · simp [hmem]
  · exact Or.inr (Or.inr (hpush _ hq))

theorem owned_control {t : T} {c : LoopStep} {loop : EventLoop (Functor (Payload T))}
    (h : Owned io s) (hs : s.stack t = []) (ha : (s.loops t).Advances c loop) :
    Owned io { (s.setLoop t loop).setStack t (calls ((s.loops t).started c)) with
      destroySwapped := s.destroySwapped || (t = io && c = .swap &&
        (s.loops t).pendingFunctors_.contains .connectDestroyed) } := by
  intro hd
  simp only [Bool.or_eq_false_iff] at hd
  rcases h hd.1 with hin | ⟨u, hu⟩ | hq
  · exact Or.inl hin
  · refine Or.inr (Or.inl ⟨u, mem_update_stack hu ?_⟩)
    intro hmem
    rw [setLoop_stack, hs] at hmem
    cases hmem
  · right; right
    by_cases ht : io = t
    · subst ht
      rcases ha.functors with ⟨rfl, _, _⟩ | ⟨_, hp, _⟩
      · simp [hq] at hd
      · simpa [hp] using hq
    · simpa [Function.update_of_ne ht] using hq

theorem owned_step {l : RunLabel T} (h : Owned io s) (hs : Steps io main s l s') :
    Owned io s' := by
  cases hs with
  | run t o i rest c new hs hr => exact owned_run h hs hr
  | queue t o loop cb rest hs => exact owned_queue h hs
  | control t c loop hs hact ha => exact owned_control h hs ha
  | wakeup t o loop rest hs =>
    intro hd
    rcases h hd with hin | ⟨u, hu⟩ | hq
    · exact Or.inl hin
    · refine Or.inr (Or.inl ⟨u, mem_update_stack hu ?_⟩)
      intro hmem
      rw [setLoop_stack, hs] at hmem
      simpa using hmem
    · right; right
      by_cases hl : io = loop
      · subst hl
        simpa using hq
      · simpa [Function.update_of_ne hl] using hq
  | report wakeup revents mask loop hs hm hr ha =>
    intro hd
    rcases h hd with hin | hu | hq
    · exact Or.inl hin
    · exact Or.inr (Or.inl hu)
    · right; right
      rcases ha.functors with ⟨hc, _⟩ | ⟨_, hp, _⟩
      · cases hc
      · simpa [hp] using hq
  | handleEvent hs hact =>
    intro hd
    rcases h hd with hin | ⟨u, hu⟩ | hq
    · exact Or.inl hin
    · refine Or.inr (Or.inl ⟨u, mem_update_stack hu ?_⟩)
      intro hmem
      rw [hs] at hmem
      cases hmem
    · exact Or.inr (Or.inr hq)
  | call t c hu =>
    intro hd
    rcases h hd with hin | ⟨u, hmem⟩ | hq
    · exact Or.inl hin
    · exact Or.inr (Or.inl ⟨u, mem_update_stack hmem (List.mem_append_right _)⟩)
    · exact Or.inr (Or.inr hq)
  | store t address value hu => exact h

theorem rawInTime_queue {t loop : T} {cb : Functor (Payload T)} {rest : List (Instr T)}
    (hplaced : Placed io main s) (h : RawInTime io s)
    (hgood : cb.raw = true → s.destroySwapped = false)
    (hs : s.stack t = .queueInLoop loop cb :: rest) :
    RawInTime io ((s.setLoop loop ((s.loops loop).push cb)).setStack t
      (.wakeup loop :: cb.destructor ++ rest)) := by
  have hio : cb.raw = true → loop = io := by
    intro hraw
    have hmem : .queueInLoop loop cb ∈ s.work t := List.mem_append_left _ (by simp [hs])
    exact Functor.runsOn_io_of_raw hraw (hplaced t _ hmem).1
  constructor
  · intro f hf hraw
    by_cases hl : io = loop
    · subst hl
      simp only [setStack_loops, setLoop_loops, Function.update_self, EventLoop.push_pending,
        List.mem_append, List.mem_singleton] at hf
      rcases hf with hf | rfl
      · exact h.pending f hf hraw
      · exact hgood hraw
    · simp only [setStack_loops, setLoop_loops, Function.update_of_ne hl] at hf
      exact h.pending f hf hraw
  · by_cases hl : io = loop
    · subst hl
      simpa using h.batch
    · simpa [Function.update_of_ne hl] using h.batch
  · intro u hu f hf
    by_cases hl : u = loop
    · subst hl
      simp only [setStack_loops, setLoop_loops, Function.update_self, EventLoop.held_push,
        List.mem_append, List.mem_singleton] at hf
      rcases hf with hf | rfl
      · exact h.elsewhere u hu f hf
      · by_contra hraw
        exact hu (hio (by simpa using hraw))
    · simp only [setStack_loops, setLoop_loops, Function.update_of_ne hl] at hf
      exact h.elsewhere u hu f hf

/-- A step of a loop keeps raw functors in time, if the swap of `io` records
whether the batch holds `connectDestroyed`. -/
theorem rawInTime_advance {t : T} {c : LoopStep} {loop : EventLoop (Functor (Payload T))}
    (h : RawInTime io s) (ha : (s.loops t).Advances c loop)
    (hloops : s'.loops = Function.update s.loops t loop)
    (hd : s'.destroySwapped = (s.destroySwapped || (t = io && c = .swap &&
      (s.loops t).pendingFunctors_.contains .connectDestroyed))) : RawInTime io s' := by
  by_cases ht : t = io
  · subst ht
    simp only [decide_true, Bool.true_and] at hd
    rcases ha.functors with ⟨rfl, hv, hq⟩ | ⟨hc, hq, hv⟩
    · refine ⟨by simp [hloops, hq], ?_, ?_⟩
      · intro f hf hraw
        simp only [hloops, Function.update_self, hv] at hf ⊢
        by_cases hcd : .connectDestroyed ∈ (s.loops t).pendingFunctors_
        · exact Or.inr hcd
        · left
          simp [hd, h.pending f hf hraw, hcd]
      · intro u hu f hf
        rw [hloops, Function.update_of_ne hu] at hf
        exact h.elsewhere u hu f hf
    · have hsame : s'.destroySwapped = s.destroySwapped := by simp [hd, hc]
      refine ⟨?_, ?_, ?_⟩
      · simpa [hloops, hq, hsame] using h.pending
      · rcases hv with hv | hv
        · simpa [hloops, hv, hsame] using h.batch
        · simp [hloops, hv]
      · intro u hu f hf
        rw [hloops, Function.update_of_ne hu] at hf
        exact h.elsewhere u hu f hf
  · have hsame : s'.destroySwapped = s.destroySwapped := by simp [hd, ht]
    have hio : s'.loops io = s.loops io := by rw [hloops, Function.update_of_ne (Ne.symm ht)]
    refine ⟨?_, ?_, ?_⟩
    · rw [hio, hsame]
      exact h.pending
    · rw [hio, hsame]
      exact h.batch
    · intro u hu f hf
      by_cases hut : u = t
      · subst hut
        rw [hloops, Function.update_self] at hf
        exact h.elsewhere u hu f (ha.mem_held hf)
      · rw [hloops, Function.update_of_ne hut] at hf
        exact h.elsewhere u hu f hf

theorem rawInTime_step {l : RunLabel T} (hplaced : Placed io main s) (h : RawInTime io s)
    (hgood : QueuesInTime s l) (hs : Steps io main s l s') : RawInTime io s' := by
  cases hs with
  | run t o i rest c new hs hr => exact ⟨h.pending, h.batch, h.elsewhere⟩
  | queue t o loop cb rest hs =>
    exact rawInTime_queue hplaced h (hgood (.queueInLoop loop cb) (by simp [hs])) hs
  | wakeup t o loop rest hs =>
    have hphase := loops_update (s := s) EventLoop.phase
      ((s.loops loop).wakeupAfterPush_phase (t = loop))
    have hpending := loops_update (s := s) EventLoop.pendingFunctors_
      ((s.loops loop).wakeupAfterPush_pending (t = loop))
    constructor
    · simpa [hpending] using h.pending
    · simpa [hphase] using h.batch
    · simpa [EventLoop.held, hphase, hpending] using h.elsewhere
  | control t c loop hs hact ha => exact rawInTime_advance h ha rfl rfl
  | report wakeup revents mask loop hs hm hr ha =>
    exact rawInTime_advance h ha rfl (by simp [setLoop])
  | handleEvent hs hact => exact ⟨h.pending, h.batch, h.elsewhere⟩
  | call t c hu => exact ⟨h.pending, h.batch, h.elsewhere⟩
  | store t address value hu => exact ⟨h.pending, h.batch, h.elsewhere⟩

omit [DecidableEq T] in
theorem rawInTime_of_held_other (h : ∀ t, ∀ f ∈ (s.loops t).held, f = .other) :
    RawInTime io s := by
  have hraw : ∀ t, ∀ f ∈ (s.loops t).held, f.raw = false := by
    intro t f hf
    rw [h t f hf]
    rfl
  constructor
  · intro f hf hr
    rw [hraw io f (List.mem_append_right _ hf)] at hr
    cases hr
  · intro f hf hr
    rw [hraw io f (List.mem_append_left _ hf)] at hr
    cases hr
  · exact fun t _ => hraw t

/-- In every run in which the functors that bind the raw `this` are queued in
time, the connection exists whenever `doPendingFunctors` is in the body of a
functor that is bound to it. -/
theorem bound_functor_finds_connection (h : (system io main).Reachable QueuesInTime s)
    (t : T) (ran todo : List (Functor (Payload T))) (f : Functor (Payload T))
    (hp : (s.loops t).phase = .body ran f todo) (hb : f.bound = true) : s.Alive := by
  have hinv : Owned io s ∧ RawInTime io s := by
    refine h.invariant_of (I := fun s => Owned io s ∧ RawInTime io s)
      (fun _ => placed_of_reachable) ?_ ?_
    · intro s hi
      exact ⟨fun _ => Or.inl hi.inConnections, rawInTime_of_held_other hi.held⟩
    · intro s l s' ⟨ho, hr⟩ hplaced hgood hs
      have hsteps := steps_of_step hs.2
      exact ⟨owned_step ho hsteps, rawInTime_step hplaced hr hgood hsteps⟩
  exact alive_of_body hinv.1 hinv.2 hp hb

/-- The user's `shutdownInLoop` is queued after the connection has left
`connections_`, and runs in the batch that destroys it. -/
theorem bound_functor_finds_connection_in_time :
    ∃ s : ConnectionRun Party,
      ((s.loops .io).phase, s.inConnections) =
        (.body [] .shutdownInLoop [.connectDestroyed], false) ∧ s.Alive := by
  have hrun : (TransitionSystem.replay (TransitionSystem.guarded QueuesInTime
      (TransitionSystem.guarded Permitted (step .io .main))) (newConnection false)
      (List.flatten [establish, [.call .user .shutdown], execs .user 3, hangUp, execs .user 3,
        removeConnection, wakeToSwap .io, [.control .io .runNext]])).map
        (fun s => ((s.loops .io).phase, s.inConnections))
      = some (.body [] .shutdownInLoop [.connectDestroyed], false) := by decide +kernel
  obtain ⟨s, hs, hobs⟩ := exists_reachable_of_replay (init_newConnection false) _ hrun
  exact ⟨s, hobs, bound_functor_finds_connection hs _ _ _ _ (Prod.mk.inj hobs).1 rfl⟩

/-- The user's thread is between its store to `state_` and its push while the
connection is closed, removed and swapped out for destruction: then
`shutdownInLoop` runs on a connection that no longer exists. -/
theorem shutdownInLoop_finds_no_connection :
    ∃ s : ConnectionRun Party, (system .io .main).Reachable TransitionSystem.AnyStep s ∧
      (s.loops .io).phase = .body [] .shutdownInLoop [] ∧ ¬ s.Alive := by
  have hrun : (TransitionSystem.replay (TransitionSystem.guarded TransitionSystem.AnyStep
      (TransitionSystem.guarded Permitted (step .io .main))) (newConnection false)
      (List.flatten [establish, [.call .user .shutdown], execs .user 3, hangUp, removeConnection,
        wakeToSwap .io, execs .user 3, [.control .io .runNext], execs .io 2,
        [.control .io .endBody], backToPoll .io, wakeToSwap .io, [.control .io .runNext]])).map
        (fun s => ((s.loops .io).phase, decide s.Alive))
      = some (.body [] .shutdownInLoop [], false) := by decide +kernel
  obtain ⟨s, hs, hobs⟩ := exists_reachable_of_replay (init_newConnection false) _ hrun
  obtain ⟨hp, ha⟩ := Prod.mk.inj hobs
  exact ⟨s, hs, hp, of_decide_eq_false ha⟩

end ConnectionRun
end MuduoCore
