import MuduoCore.Connection.Retention

/-!
# A connection that nothing holds

As long as a channel is in the table of the poller, its connection is held: by
`connections_`, by the functor that removes it, or by the batch this functor
runs in. Once the last `shared_ptr` is gone the channel is `kNew`, and nothing
that is left to run brings it back; so the descriptor may be closed and used
again.
-/

namespace MuduoCore.ConnectionRun

variable {T : Type*} [DecidableEq T] {io main : T} {s s' : ConnectionRun T}

/-- The channel has left the poller, for good. -/
structure Removed (s : ConnectionRun T) : Prop where
  quiet : Quiet s
  index : s.conn.channel_.channel.index_ = .kNew
  established : ∀ t, ∀ i ∈ s.work t, i.establishes = false

/-! ## The channel stays out of the poller -/

omit [DecidableEq T] in
theorem index_of_changes {i : Instr T} {o : Outcome} {s c : Shared T}
    (h : s.conn.channel_.channel.index_ = .kNew) (hi : i.touches = false)
    (hc : Shared.Changes s c o i) : c.conn.channel_.channel.index_ = .kNew := by
  cases hc with
  | send | write | interest => cases hi
  | remove hc =>
    rw [hc]
    exact RegisteredChannel.remove_index _
  | sendFile fileDescriptor offset count hc =>
    rwa [hc, TcpConnection.sendFileInLoop_channel]
  | shutdown hc => rwa [hc, TcpConnection.shutdownInLoop_channel]
  | drained hc => rwa [hc, TcpConnection.halfCloseIfDisconnecting_channel]
  | state state hc | same i hc =>
    rw [hc]
    exact h

theorem removed_step {hl : HostLabel T} (h : Removed s) (hgood : OnOwnThread io s hl)
    (hs : HostSteps io main s hl s') : Removed s' := by
  refine ⟨quiet_step h.quiet h.established hgood hs, ?_, established_host h.established hs⟩
  rcases hs.split with ⟨l, rfl, -, hown⟩ | ⟨-, t, old, new, hinter, -⟩ | ⟨rfl, -⟩
  · cases hown with
    | run t o i rest c new htop hr =>
      have hi : i ∈ s.work t := List.mem_append_left _ (by simp [htop])
      exact index_of_changes h.index (h.quiet.untouched t i hi) (Shared.changes_of_run hr)
    | report wakeup revents mask loop htop hm hr ha =>
      rw [h.quiet.unregistered] at hm
      cases hm
    | _ => exact h.index
  · rw [hinter.conn]
    exact h.index
  · exact hgood.elim

/-! ## The removal ends with `remove` -/

theorem held_or_remove {l : RunLabel T} (h : Held s) (hover : RemovesWhenOver io s)
    (hplaced : Placed io main s) (hs : Steps io main s l s') :
    Held s' ∨ ∃ o rest c new, s.stack io = .remove :: rest ∧
      s.toShared.run io main io .remove o = some (c, new) ∧
      s' = { s with toShared := c, stack := Function.update s.stack io (new ++ rest) } := by
  rcases h with hin | ⟨t, i, hi, hkeeps⟩
  · left
    cases hs with
    | run t o i rest c new hs hr =>
      rcases inConnections_of_run hr with hsame | hmem
      · exact Or.inl (hsame.trans hin)
      · exact Or.inr ⟨t, .queueInLoop io .connectDestroyed,
          List.mem_append_left _ (by simp [hmem]), rfl⟩
    | _ => exact Or.inl hin
  · rcases mem_work_step hs hi with hi' | ⟨o, rfl, hhead⟩
    · exact Or.inl (Or.inr ⟨t, i, hi', hkeeps⟩)
    · have hplace := hplaced t i hi
      cases hs with
      | run _ _ j rest c new hs hr =>
        obtain rfl : j = i := by simpa [hs] using hhead
        cases j with
        | remove =>
          obtain rfl : t = io := hplace
          exact Or.inr ⟨o, rest, c, new, hs, hr, rfl⟩
        | call f =>
          left
          cases f with
          | connectDestroyed =>
            refine Or.inr ⟨t, .remove, List.mem_append_left _ ?_, rfl⟩
            cases hr
            by_cases hc : s.conn.connected = true <;> simp [hc]
          | _ => cases hkeeps
        | queueInLoop loop cb => cases hr
        | _ => cases hkeeps
      | queue _ _ loop cb rest hs =>
        obtain rfl : .queueInLoop loop cb = i := by simpa [hs] using hhead
        obtain ⟨w, -, hwork⟩ := queues_queue hs
        refine Or.inl (Or.inr ⟨loop, .call cb, ?_, ?_⟩)
        · rw [hwork loop]
          simp
        · cases cb <;> first | rfl | cases hkeeps
      | wakeup _ _ loop rest hs =>
        obtain rfl : .wakeup loop = i := by simpa [hs] using hhead
        cases hkeeps

theorem held_or_removed {hl : HostLabel T} (h : Held s) (hret : Retained io s)
    (hplaced : Placed io main s) (hsends : SendsAtOnce io s) (hdispatch : Dispatching io s)
    (hgood : OnOwnThread io s hl) (hs : HostSteps io main s hl s') : Held s' ∨ Removed s' := by
  have hest := established_host hret.established hs
  rcases hs.split with ⟨l, rfl, -, hown⟩ | ⟨-, t, old, new, hinter, -⟩ | ⟨rfl, -⟩
  · rcases held_or_remove h hret.removal hplaced hown with hheld | ⟨o, rest, c, new, htop, hr, rfl⟩
    · exact Or.inl hheld
    · have hquiet := quiet_remove htop hret.removal hret.alone hplaced hsends hdispatch hr
      cases hr
      exact Or.inr ⟨hquiet, RegisteredChannel.remove_index _, hest⟩
  · left
    rcases h with hin | ⟨u, i, hi, hkeeps⟩
    · exact Or.inl (hinter.inConnections.trans hin)
    · have hforeign : i.foreign = false := by
        cases i with
        | call f | queueInLoop loop f => cases f <;> first | rfl | cases hkeeps
        | wakeup loop => cases hkeeps
        | _ => rfl
      exact Or.inr ⟨u, i, hinter.mem_kept hforeign hi, hkeeps⟩
  · exact hgood.elim

/-! ## The batch holds the connection while the channel is removed -/

/-- `connectDestroyed` and its end run for an entry of the batch. -/
def InBatch (io : T) (s : ConnectionRun T) : Prop :=
  ∀ i ∈ s.stack io, i = .call .connectDestroyed ∨ i = .remove →
    .connectDestroyed ∈ (s.loops io).phase.functors

theorem InBatch.of_stack (h : InBatch io s) (t : T) (old new rest : List (Instr T))
    (hs : s.stack t = old ++ rest) (hstack : s'.stack = Function.update s.stack t (new ++ rest))
    (hphase : (s'.loops io).phase = (s.loops io).phase)
    (hnew : ∀ i ∈ new, i = .call .connectDestroyed ∨ i = .remove →
      t = io → .call .connectDestroyed ∈ old) : InBatch io s' := by
  intro i hi hremoves
  rw [hphase]
  rw [hstack] at hi
  by_cases ht : t = io
  · subst ht
    rw [Function.update_self] at hi
    rcases List.mem_append.mp hi with hi | hi
    · exact h _ (by rw [hs]; exact List.mem_append_left _ (hnew i hi hremoves rfl)) (Or.inl rfl)
    · exact h i (by rw [hs]; exact List.mem_append_right _ hi) hremoves
  · rw [Function.update_of_ne (Ne.symm ht)] at hi
    exact h i hi hremoves

theorem inBatch_control {t : T} {c : LoopStep} {loop : EventLoop (Functor (Payload T))} {b : Bool}
    (h : InBatch io s) (ha : (s.loops t).Advances c loop) :
    InBatch io { (s.setLoop t loop).setStack t (calls ((s.loops t).started c)) with
      destroySwapped := b } := by
  intro i hi hremoves
  by_cases ht : t = io
  · subst ht
    simp only [setStack_stack, setStack_loops, setLoop_loops, Function.update_self] at hi ⊢
    cases ha with
    | runNext ran cb todo hp =>
      have hstarted : (s.loops t).started .runNext = [cb] := by
        simp [EventLoop.started, hp, LoopPhase.todo]
      rw [hstarted, calls, List.map_singleton] at hi
      rw [List.mem_singleton.mp hi] at hremoves
      rcases hremoves with hremoves | hremoves
      · cases hremoves
        simp [LoopPhase.functors]
      · cases hremoves
    | _ => cases hi
  · simp only [setStack_stack, setStack_loops, setLoop_stack, setLoop_loops,
      Function.update_of_ne (Ne.symm ht)] at hi ⊢
    exact h i hi hremoves

theorem inBatch_own {l : RunLabel T} (h : InBatch io s)
    (hdirect : ∀ t, ∀ i ∈ s.work t, i.Direct io t) (hl : ∀ t c, l ≠ .call t c)
    (hs : Steps io main s l s') : InBatch io s' := by
  cases hs with
  | run t o i rest c new hs hr =>
    refine h.of_stack t [i] new rest hs rfl rfl ?_
    intro j hj hremoves ht
    have hi := hdirect t i (List.mem_append_left _ (by simp [hs]))
    rcases hremoves with rfl | rfl
    · cases Shared.follows_of_run hr hj with
      | run_call loop cb hloop => exact absurd rfl hi.2
    · cases Shared.follows_of_run hr hj with
      | destroy_remove => exact List.mem_singleton_self _
  | queue t o loop cb rest hs =>
    refine h.of_stack t [.queueInLoop loop cb] (.wakeup loop :: cb.destructor) rest hs rfl ?_ ?_
    · exact loops_update EventLoop.phase (EventLoop.push_phase _ _) io
    · intro i hi hremoves _
      rcases List.mem_cons.mp hi with rfl | hi
      · rcases hremoves with hremoves | hremoves <;> cases hremoves
      · unfold Functor.destructor at hi
        split_ifs at hi
        · rw [List.mem_singleton.mp hi] at hremoves
          rcases hremoves with hremoves | hremoves <;> cases hremoves
        · cases hi
  | wakeup t o loop rest hs =>
    refine h.of_stack t [.wakeup loop] [] rest hs rfl ?_ (by simp)
    exact loops_update EventLoop.phase (EventLoop.wakeupAfterPush_phase _ _) io
  | control t c loop hs hact ha => exact inBatch_control h ha
  | report wakeup revents mask loop hs hm hr ha =>
    intro i hi
    have hnone : i ∈ s.stack io := hi
    rw [hs] at hnone
    cases hnone
  | handleEvent hs hact =>
    refine h.of_stack io [] _ [] hs (by rw [List.append_nil]; rfl) rfl ?_
    intro i hi hremoves _
    rcases List.mem_append.mp hi with hi | hi
    · obtain ⟨cb, _, rfl⟩ := List.mem_map.mp hi
      rcases hremoves with hremoves | hremoves <;> cases hremoves
    · rw [List.mem_singleton.mp hi] at hremoves
      rcases hremoves with hremoves | hremoves <;> cases hremoves
  | call t c hu => exact absurd rfl (hl t c)
  | store t address value hu => exact h

theorem inBatch_step {hl : HostLabel T} (h : InBatch io s)
    (hdirect : ∀ t, ∀ i ∈ s.work t, i.Direct io t) (hgood : OnOwnThread io s hl)
    (hs : HostSteps io main s hl s') : InBatch io s' := by
  rcases hs.split with ⟨l, rfl, hl, hown⟩ | ⟨-, t, old, new, hinter, hnew⟩ | ⟨rfl, -⟩
  · exact inBatch_own h hdirect hl hown
  · obtain ⟨rest, hold, hs'⟩ := hinter.stack
    refine h.of_stack t old new rest hold hs' (hinter.phase io) ?_
    intro i hi hremoves
    rcases hnew with hnew | ⟨c, -, -, rfl⟩
    · have hforeign := hnew i hi
      rcases hremoves with rfl | rfl <;> cases hforeign
    · rcases hremoves with rfl | rfl <;> cases userInstr_of_mem_code hi
  · exact hgood.elim

theorem inBatch_init (h : HostInit io main s) : InBatch io s := by
  intro i hi hremoves
  rcases h.mem_work (List.mem_append_left _ hi) with ⟨-, rfl⟩ | rfl | hforeign
  · rcases hremoves with hremoves | hremoves <;> cases hremoves
  · rcases hremoves with hremoves | hremoves <;> cases hremoves
  · rcases hremoves with rfl | rfl <;> cases hforeign

omit [DecidableEq T] in
theorem Held.alive (h : Held s) (hbatch : InBatch io s) (hplaced : Placed io main s) :
    s.Alive := by
  have hheld : ∀ {t : T} {f : Functor (Payload T)}, f ∈ (s.loops t).held → f.shared = true →
      s.Alive := fun hf hshared => Or.inr (Or.inr ⟨_, _, hf, hshared⟩)
  rcases h with hin | ⟨t, i, hi, hkeeps⟩
  · exact Or.inl hin
  · have hplace := hplaced t i hi
    rcases List.mem_append.mp hi with hi | hi
    · have hends : t = io → i = .call .connectDestroyed ∨ i = .remove → s.Alive := by
        rintro rfl hremoves
        exact hheld (List.mem_append_left _ (hbatch i hi hremoves)) rfl
      cases i with
      | queueInLoop loop f =>
        cases f with
        | connectDestroyed => exact Or.inr (Or.inl ⟨t, _, hi, rfl⟩)
        | _ => cases hkeeps
      | call f =>
        cases f with
        | connectDestroyed => exact hends hplace (Or.inl rfl)
        | _ => cases hkeeps
      | remove => exact hends hplace (Or.inr rfl)
      | _ => cases hkeeps
    · obtain ⟨f, hf, rfl⟩ := List.mem_map.mp hi
      cases f with
      | connectDestroyed => exact hheld (EventLoop.mem_held_of_mem_queued hf) rfl
      | _ => cases hkeeps

/-! ## Every run -/

/-- What holds between the steps that only the loop's thread takes. -/
structure Sides (io main : T) (s : ConnectionRun T) : Prop where
  placed : Placed io main s
  sends : SendsAtOnce io s
  dispatch : Dispatching io s
  batch : InBatch io s

theorem sides_of_reachable (h : (hosted io main).Reachable (OnOwnThread io) s) :
    Sides io main s := by
  refine h.invariant (I := Sides io main) ?_ ?_
  · intro r hinit
    refine ⟨placed_hostInit hinit, sendsAtOnce_init hinit, ?_, inBatch_init hinit⟩
    intro hact
    rw [hinit.active] at hact
    cases hact
  · intro r hl r' hi hgood hs
    exact ⟨placed_host hi.placed hs, sendsAtOnce_step hi.sends hgood hs,
      dispatching_step hi.dispatch hs, inBatch_step hi.batch hi.sends.work hgood hs⟩

/-- A connection is being established, or held, or removed. -/
theorem held_or_removed_of_reachable (h : (hosted io main).Reachable (OnOwnThread io) s) :
    (Arriving io main s ∧ s.inConnections = true) ∨ (Retained io s ∧ Held s) ∨ Removed s := by
  refine h.invariant_of (J := Sides io main) (fun _ => sides_of_reachable)
    (I := fun r => (Arriving io main r ∧ r.inConnections = true) ∨ (Retained io r ∧ Held r) ∨
      Removed r) ?_ ?_
  · intro r hinit
    exact Or.inl ⟨arriving_init hinit, hinit.inConnections⟩
  · rintro r hl r' (⟨harr, hin⟩ | ⟨hret, hheld⟩ | hremoved) hsides hgood hs
    · have hin' := inConnections_arriving harr hin hgood hs
      rcases arriving_step harr hs with harr' | harr'
      · exact Or.inl ⟨harr', hin'⟩
      · exact Or.inr (Or.inl ⟨retained_arrived harr' hin', Or.inl hin'⟩)
    · have hret' := retained_step hret hsides.placed hsides.sends hsides.dispatch hgood hs
      rcases held_or_removed hheld hret hsides.placed hsides.sends hsides.dispatch hgood hs with
        hheld' | hremoved
      · exact Or.inr (Or.inl ⟨hret', hheld'⟩)
      · exact Or.inr (Or.inr hremoved)
    · exact Or.inr (Or.inr (removed_step hremoved hgood hs))

/-- A connection that nothing holds has left the poller. -/
theorem removed_of_not_alive (h : (hosted io main).Reachable (OnOwnThread io) s)
    (hdead : ¬ s.Alive) : Removed s := by
  have hsides := sides_of_reachable h
  rcases held_or_removed_of_reachable h with ⟨-, hin⟩ | ⟨-, hheld⟩ | hremoved
  · exact absurd (Or.inl hin) hdead
  · exact absurd (hheld.alive hsides.batch hsides.placed) hdead
  · exact hremoved

end MuduoCore.ConnectionRun
