import MuduoCore.Foundation.TakingTurns
import MuduoCore.Server.PoolThreads

/-!
# Connections take the loops in turn

`EventLoopThreadPool::getNextLoop` hands out the loops of the pool one after
the other, and the first of them again after the last. For this to spread the
connections, no loop may join the pool once connections are accepted. `start`
sees to it: it creates all loops before the acceptor listens, and only the
first call of it creates any.
-/

namespace MuduoCore

/-! ## The pool -/

namespace EventLoopThreadPool

open TakingTurns (turn)

variable {T : Type*} (p : EventLoopThreadPool T)

/-- `next_` after `n` connections. -/
def InTurn (n : ℕ) : Prop := p.loops_ ≠ [] → p.next_ = n % p.loops_.length

variable {p}

theorem InTurn.push_back (h : p.InTurn 0) (loop : T) : (p.push_back loop).InTurn 0 := by
  intro _
  have hzero : p.next_ = 0 := by
    by_cases hnil : p.loops_ = []
    · have hrange := p.inRange
      rw [hnil, List.length_nil] at hrange
      omega
    · rw [h hnil, Nat.zero_mod]
  exact hzero.trans (Nat.zero_mod _).symm

theorem next_mod {n len : ℕ} (hlen : 0 < len) :
    (if len ≤ n % len + 1 then 0 else n % len + 1) = (n + 1) % len := by
  have hlt : n % len < len := Nat.mod_lt n hlen
  rw [← Nat.mod_add_mod n len 1]
  split_ifs with hlast
  · have heq : n % len + 1 = len := by omega
    rw [heq, Nat.mod_self]
  · exact (Nat.mod_eq_of_lt (by omega)).symm

theorem InTurn.getNextLoop {n : ℕ} (h : p.InTurn n) :
    p.getNextLoop.1 = turn p.loops_ p.baseLoop_ n ∧ p.getNextLoop.2.InTurn (n + 1) := by
  by_cases hnil : p.loops_ = []
  · refine ⟨by simp [EventLoopThreadPool.getNextLoop, hnil], ?_⟩
    intro hne
    exact absurd (p.getNextLoop_loops.trans hnil) hne
  · have hnext := h hnil
    have hlt := p.next_lt hnil
    have hpos := List.length_pos_iff.mpr hnil
    unfold EventLoopThreadPool.getNextLoop InTurn
    rw [dif_neg hnil]
    refine ⟨?_, fun _ => ?_⟩
    · rw [TakingTurns.turn_eq_getElem _ hlt hnext.symm, List.get_eq_getElem]
    · simp only [hnext]
      exact next_mod hpos

end EventLoopThreadPool

/-- The instruction belongs to the creation of the loops, or comes right after. -/
def ServerInstr.starts {T : Type*} : ServerInstr T → Bool
  | startLoop | listenInLoop => true
  | _ => false

/-- The acceptor is made to listen, or has accepted. -/
def ServerInstr.listens {T : Type*} : ServerInstr T → Bool
  | handleRead | call .listen | queueInLoop _ .listen => true
  | _ => false

theorem ServerInstr.starts_tag {T : Type*} (k : ℕ) (i : Instr T) : (i.tag k).starts = false := by
  cases i <;> rfl

theorem ServerInstr.listens_tag {T : Type*} (k : ℕ) (i : Instr T) : (i.tag k).listens = false := by
  cases i <;> rfl

namespace ServerRun

open TakingTurns (turn)

variable {T : Type*} [DecidableEq T] {main : T} {s s' : ServerRun T}

/-! ## Before the server listens -/

/-- No connection is accepted, and nothing is under way that leads to one. -/
structure Unlistened (s : ServerRun T) : Prop where
  registered : s.acceptChannel_.registered = none
  active : s.acceptActive = false
  nextConnId : s.nextConnId_ = 1
  work : ∀ t, ∀ i ∈ s.work t, i.listens = false

omit [DecidableEq T] in
theorem unlistened_init (h : Init main s) : Unlistened s := by
  refine ⟨?_, h.acceptActive, h.nextConnId, ?_⟩
  · obtain ⟨fd, hfd⟩ := h.acceptChannel
    rw [hfd]
    rfl
  · intro t i hi
    rw [ServerRun.work, h.stack t, List.nil_append] at hi
    obtain ⟨f, hf, rfl⟩ := List.mem_map.mp hi
    rw [h.held t f (EventLoop.mem_held_of_mem_queued hf)]
    rfl

def NotListening (s s' : ServerRun T) : Prop :=
  ∀ t rest, s.stack t = .listenInLoop :: rest → .listenInLoop :: rest <:+ s'.stack t

omit [DecidableEq T] in
theorem Unlistened.of_stack (h : Unlistened s) {t : T} {i : ServerInstr T}
    {rest : List (ServerInstr T)} (hs : s.stack t = i :: rest) : i.listens = false :=
  h.work t i (List.mem_append_left _ (by simp [hs]))

theorem Unlistened.work_step (h : Unlistened s) {l : ServerLabel T} (hs : Steps main s l s')
    (hnot : NotListening s s') : ∀ t, ∀ i ∈ s'.work t, i.listens = false := by
  apply hs.forall_work_of (P := fun _ i => i.listens = false) h.work
  · intro t o head rest k i c new _ _ _ _ j _
    exact ServerInstr.listens_tag k j
  · intro t o i rest r new htop hr hs' j hj
    cases ownFollows_of_run hr hj with
    | listen_call | listen_queue =>
      have hstays := hnot t rest htop
      simp only [hs', setStack, Function.update_self] at hstays
      cases hr
      split_ifs at hstays <;> cases hstays.eq_of_length rfl
    | _ => rfl
  · exact fun _ _ => rfl
  · exact fun _ _ _ => rfl
  · intro t loop cb hcb
    cases cb with
    | listen => cases hcb
    | connection | other => rfl
  · exact fun _ _ => rfl
  · exact fun _ _ _ _ => rfl
  · intro hactive
    rw [h.active] at hactive
    cases hactive
  · intro t c r new _ hc i hi
    cases codes_of_code hc with
    | connection k c hk hcallbacks =>
      obtain ⟨j, _, rfl⟩ := List.mem_map.mp hi
      exact ServerInstr.listens_tag k j
    | queueInLoop | start =>
      rw [List.mem_singleton.mp hi]
      rfl
    | destroy ht hlife =>
      simp only [List.mem_cons, List.mem_append, List.mem_flatMap, List.not_mem_nil,
        or_false] at hi
      grind [ServerInstr.listens]

/-- As long as `Acceptor::listen` is not reached, no connection is accepted. -/
theorem unlistened_step (h : Unlistened s) {l : ServerLabel T} (hs : Steps main s l s')
    (hnot : NotListening s s') : Unlistened s' := by
  refine ⟨?_, ?_, ?_, h.work_step hs hnot⟩
  · cases hs with
    | own t o i rest r new hs hr =>
      have hi := h.of_stack hs
      by_cases haccess : .acceptChannel_ ∈ i.accesses s.loopOf main
      · cases i with
        | call f =>
          cases f with
          | connection k f => cases hr
          | listen => cases hi
          | other => cases haccess
        | destroyAcceptor =>
          cases hr
          exact RegisteredChannel.registered_remove _
        | connection k i => cases hr
        | _ => simp [ServerInstr.accesses] at haccess
      · rw [setStack, acceptChannel_of_run hr haccess]
        exact h.registered
    | poll t wakeup reports accept loop hs hr hacc ha =>
      cases accept with
      | none => exact h.registered
      | some revents => simp [mayReport, h.registered] at hacc
    | call t c r new hu hc =>
      rw [frame_of_code hc]
      exact h.registered
    | _ => exact h.registered
  · cases hs with
    | own t o i rest r new hs hr =>
      rcases run_cases hr with ⟨sockfd, rfl, -⟩ | ⟨-, -, hr⟩
      · cases h.of_stack hs
      · rw [hr]
        exact h.active
    | poll t wakeup reports accept loop hs hr hacc ha =>
      cases accept with
      | none => simpa using h.active
      | some revents => simp [mayReport, h.registered] at hacc
    | acceptEvent hs ha => rfl
    | call t c r new hu hc =>
      rw [frame_of_code hc]
      exact h.active
    | _ => exact h.active
  · cases hs with
    | own t o i rest r new hs hr =>
      rcases run_cases hr with ⟨sockfd, rfl, -⟩ | ⟨-, -, hr⟩
      · cases h.of_stack hs
      · rw [hr]
        exact h.nextConnId
    | call t c r new hu hc =>
      rw [frame_of_code hc]
      exact h.nextConnId
    | _ => exact h.nextConnId

/-! ## The creation of the loops -/

/-- What a step does to the creation of the loops: nothing, or it begins it,
creates a loop, or ends it. -/
inductive StartSteps (s s' : ServerRun T) : Prop
  | quiet (t : T) (popped kept new : List (ServerInstr T)) (hs : s.stack t = popped ++ kept)
      (hs' : s'.stack = Function.update s.stack t (new ++ kept))
      (hpopped : ∀ i ∈ popped, i.starts = false) (hnew : ∀ i ∈ new, i.starts = false)
      (hloops : s'.threadPool_.loops_ = s.threadPool_.loops_)
      (hstarted : s'.started_ = 0 ↔ s.started_ = 0)
  | start (t : T) (rest init : List (ServerInstr T)) (hs : s.stack t = .start :: rest)
      (h0 : s.started_ = 0) (hs' : s'.stack = Function.update s.stack t
        (List.replicate s.threadPool_.numThreads_.toNat .startLoop ++ init ++
          .listenInLoop :: rest))
      (hinit : ∀ i ∈ init, i.starts = false)
      (hloops : s'.threadPool_.loops_ = s.threadPool_.loops_) (hstarted : s'.started_ ≠ 0)
  | startLoop (t loop : T) (rest : List (ServerInstr T)) (hs : s.stack t = .startLoop :: rest)
      (hs' : s'.stack = Function.update s.stack t rest)
      (hloops : s'.threadPool_.loops_ = s.threadPool_.loops_ ++ [loop])
      (hstarted : s'.started_ = s.started_)
  | listen (t : T) (rest new : List (ServerInstr T)) (hs : s.stack t = .listenInLoop :: rest)
      (hs' : s'.stack = Function.update s.stack t (new ++ rest))
      (hnew : ∀ i ∈ new, i.starts = false)
      (hloops : s'.threadPool_.loops_ = s.threadPool_.loops_)
      (hstarted : s'.started_ = s.started_)

theorem startSteps_of_run {t : T} {i : ServerInstr T} {o : Outcome} {rest : List (ServerInstr T)}
    {r : ServerRun T} {new : List (ServerInstr T)} (hs : s.stack t = i :: rest)
    (hr : s.run main t i o = some (r, new)) : StartSteps s (r.setStack t (new ++ rest)) := by
  have hstack : (r.setStack t (new ++ rest)).stack =
      Function.update s.stack t (new ++ rest) := by
    rw [setStack, (frame_of_run hr).1]
  have hquiet : i.starts = false → (∀ j ∈ new, j.starts = false) →
      r.threadPool_.loops_ = s.threadPool_.loops_ → (r.started_ = 0 ↔ s.started_ = 0) →
      StartSteps s (r.setStack t (new ++ rest)) := by
    intro hi hnew hloops hstarted
    refine .quiet t [i] rest new hs hstack ?_ hnew hloops hstarted
    intro j hj
    rwa [List.mem_singleton.mp hj]
  cases i with
  | start =>
    cases hr
    by_cases h0 : s.started_ = 0
    · refine .start t rest (if s.threadPool_.numThreads_ = 0 then [.threadInitCallback] else [])
        hs h0 ?_ ?_ rfl (Nat.succ_ne_zero _)
      · rw [hstack, if_pos h0]
        simp only [List.append_assoc, List.cons_append, List.nil_append]
      · intro j hj
        split_ifs at hj
        · rw [List.mem_singleton.mp hj]
          rfl
        · cases hj
    · refine hquiet rfl ?_ rfl (iff_of_false (Nat.succ_ne_zero _) h0)
      rw [if_neg h0]
      exact fun _ hj => absurd hj List.not_mem_nil
  | listenInLoop =>
    cases hr
    refine .listen t rest _ hs hstack ?_ rfl rfl
    intro j hj
    split_ifs at hj <;> rw [List.mem_singleton.mp hj] <;> rfl
  | handleRead =>
    simp only [run] at hr
    split at hr
    · obtain ⟨-, rfl, rfl⟩ := newConnection_eq hr
      refine hquiet rfl ?_ s.threadPool_.getNextLoop_loops Iff.rfl
      simp [ServerInstr.starts]
    · cases hr
      exact hquiet rfl (by simp) rfl Iff.rfl
  | call f =>
    cases f with
    | connection k f => cases hr
    | listen | other =>
      cases hr
      exact hquiet rfl (by simp) rfl Iff.rfl
  | quit loop =>
    cases hr
    exact hquiet rfl (by simp [ServerInstr.starts]) rfl Iff.rfl
  | destroyConnections | join loop =>
    simp only [run] at hr
    split_ifs at hr
    cases hr
    exact hquiet rfl (by simp) rfl Iff.rfl
  | connection k i | queueInLoop loop cb | wakeup loop | startLoop => cases hr
  | threadInitCallback | destroyAcceptor | destroyed =>
    cases hr
    exact hquiet rfl (by simp) rfl Iff.rfl

theorem starts_of_code {t : T} {c : ServerCall T} {r : ServerRun T} {new : List (ServerInstr T)}
    (hc : s.code main t c = some (r, new)) : ∀ i ∈ new, i.starts = false := by
  intro i hi
  cases codes_of_code hc with
  | connection k c hk hcallbacks =>
    obtain ⟨j, _, rfl⟩ := List.mem_map.mp hi
    exact ServerInstr.starts_tag k j
  | queueInLoop | start =>
    rw [List.mem_singleton.mp hi]
    rfl
  | destroy ht hlife =>
    simp only [List.mem_cons, List.mem_append, List.mem_flatMap, List.not_mem_nil,
      or_false] at hi
    grind [ServerInstr.starts]

theorem startSteps_of_step {l : ServerLabel T} (hs : Steps main s l s') : StartSteps s s' := by
  have hsame : s'.stack = s.stack → s'.threadPool_ = s.threadPool_ → s'.started_ = s.started_ →
      StartSteps s s' := by
    intro hstack hpool hstarted
    refine .quiet main [] (s.stack main) [] rfl ?_ (by simp) (by simp)
      (by rw [hpool]) (by rw [hstarted])
    rw [List.nil_append, Function.update_eq_self, hstack]
  have hsingle : ∀ {j : ServerInstr T}, j.starts = false → ∀ i ∈ [j], i.starts = false := by
    intro j hj i hi
    rwa [List.mem_singleton.mp hi]
  cases hs with
  | run t o head k i rest c new hs hi hr =>
    refine .quiet t [head] rest _ hs rfl (hsingle ?_) ?_ rfl Iff.rfl
    · cases head <;> first | rfl | cases hi
    · intro j hj
      obtain ⟨i, _, rfl⟩ := List.mem_map.mp hj
      exact ServerInstr.starts_tag k i
  | own t o i rest r new hs hr => exact startSteps_of_run hs hr
  | queue t o loop cb rest hs =>
    refine .quiet t [.queueInLoop loop cb] rest (.wakeup loop :: cb.destructor) hs rfl
      (hsingle rfl) ?_ rfl Iff.rfl
    intro j hj
    rcases List.mem_cons.mp hj with rfl | hj
    · rfl
    · cases cb with
      | connection k f =>
        obtain ⟨i, _, rfl⟩ := List.mem_map.mp hj
        exact ServerInstr.starts_tag k i
      | listen | other => cases hj
  | wakeup t o loop rest hs =>
    exact .quiet t [.wakeup loop] rest [] hs rfl (hsingle rfl) (by simp) rfl Iff.rfl
  | startLoop t loop rest hs => exact .startLoop t loop rest hs rfl rfl rfl
  | destroyNext k rest hs ha hk =>
    refine .quiet main [] (.destroyConnections :: rest)
      [.connection k (.runInLoop (s.connection k).loop_ .connectDestroyed),
        .connection k .release] hs rfl (by simp) ?_ rfl Iff.rfl
    simp [ServerInstr.starts]
  | control t c loop hs hreturned hd ha =>
    refine .quiet t [] [] (((s.loops t).started c).map .call) hs ?_ (by simp) ?_
      rfl Iff.rfl
    · rw [List.append_nil]
      rfl
    · intro j hj
      obtain ⟨f, _, rfl⟩ := List.mem_map.mp hj
      rfl
  | handleEvent k hk hs ha =>
    refine .quiet (s.connection k).loop_ [] []
      (((s.connection k).conn.channel_.channel.handleEventWithGuard.map fun cb =>
        .connection k (.handle cb)) ++ [.connection k .release]) hs ?_ (by simp)
      ?_ rfl Iff.rfl
    · rw [List.append_nil]
      rfl
    · intro j hj
      rcases List.mem_append.mp hj with hj | hj
      · obtain ⟨cb, _, rfl⟩ := List.mem_map.mp hj
        rfl
      · rw [List.mem_singleton.mp hj]
        rfl
  | acceptEvent hs ha =>
    refine .quiet main [] []
      ((s.acceptChannel_.channel.handleEventWithGuard.filter (· = .readCallback)).map
        fun _ => .handleRead) hs ?_ (by simp) ?_ rfl Iff.rfl
    · rw [List.append_nil]
      rfl
    · intro j hj
      obtain ⟨_, _, rfl⟩ := List.mem_map.mp hj
      rfl
  | call t c r new hu hc =>
    have hnew := starts_of_code hc
    rw [frame_of_code hc]
    exact .quiet t [] (s.stack t) new rfl rfl (by simp) hnew rfl Iff.rfl
  | poll | store | pointers => exact hsame rfl rfl rfl

omit [DecidableEq T] in
theorem ne_listenInLoop {is : List (ServerInstr T)} (h : ∀ i ∈ is, i.starts = false) :
    .listenInLoop ∉ is := by
  intro hmem
  cases h _ hmem

theorem count_startLoop {is : List (ServerInstr T)} (h : ∀ i ∈ is, i.starts = false) :
    is.count .startLoop = 0 := by
  rw [List.count_eq_zero]
  intro hmem
  cases h _ hmem

omit [DecidableEq T] in
theorem split_before {α : Type*} {x : α} {pre rest popped kept : List α}
    (h : pre ++ x :: rest = popped ++ kept) (hx : x ∉ popped) :
    ∃ pre', pre = popped ++ pre' ∧ kept = pre' ++ x :: rest := by
  rcases List.append_eq_append_iff.mp h with ⟨more, rfl, hmore⟩ | ⟨pre', rfl, hkept⟩
  · cases more with
    | nil => exact ⟨[], by simp, by simpa using hmore.symm⟩
    | cons y more =>
      rw [List.cons_append] at hmore
      obtain ⟨rfl, -⟩ := List.cons.inj hmore
      exact absurd (List.mem_append_right pre List.mem_cons_self) hx
  · exact ⟨pre', rfl, hkept⟩

theorem notListening_of_stack {t : T} (popped kept new : List (ServerInstr T))
    (hs : s.stack t = popped ++ kept) (hs' : s'.stack = Function.update s.stack t (new ++ kept))
    (hpopped : .listenInLoop ∉ popped) : NotListening s s' := by
  intro u rest hrest
  rw [hs']
  by_cases hu : u = t
  · subst hu
    cases popped with
    | nil =>
      rw [Function.update_self, ← hrest, hs, List.nil_append]
      exact List.suffix_append new kept
    | cons i popped =>
      rw [hs, List.cons_append] at hrest
      obtain ⟨rfl, -⟩ := List.cons.inj hrest
      exact absurd List.mem_cons_self hpopped
  · rw [Function.update_of_ne hu, hrest]

/-- How far the creation of the loops has come. -/
inductive Startup (s : ServerRun T) : Prop
  | fresh (h0 : s.started_ = 0) (hun : Unlistened s)
      (hnone : ∀ t, ∀ i ∈ s.stack t, i.starts = false) (hloops : s.threadPool_.loops_ = [])
  | creating (t : T) (pre rest : List (ServerInstr T)) (h0 : s.started_ ≠ 0)
      (hun : Unlistened s) (hs : s.stack t = pre ++ .listenInLoop :: rest)
      (hpre : .listenInLoop ∉ pre) (hrest : ∀ i ∈ rest, i.starts = false)
      (hothers : ∀ u ≠ t, ∀ i ∈ s.stack u, i.starts = false)
      (hlen : s.threadPool_.loops_.length + pre.count .startLoop =
        s.threadPool_.numThreads_.toNat)
  | started (h0 : s.started_ ≠ 0) (hnone : ∀ t, ∀ i ∈ s.stack t, i.starts = false)
      (hlen : s.threadPool_.loops_.length = s.threadPool_.numThreads_.toNat)

theorem numThreads_step {l : ServerLabel T} (hs : Steps main s l s') :
    s'.threadPool_.numThreads_ = s.threadPool_.numThreads_ := by
  cases hs with
  | own t o i rest r new hs hr =>
    rcases run_cases hr with ⟨sockfd, -, hnew⟩ | ⟨-, -, hr⟩
    · obtain ⟨-, -, rfl⟩ := newConnection_eq hnew
      simp only [setStack, EventLoopThreadPool.getNextLoop]
      split_ifs <;> rfl
    · rw [hr]
      rfl
  | call t c r new hu hc =>
    rw [frame_of_code hc]
    rfl
  | _ => rfl

theorem startup_init (h : Init main s) : Startup s := by
  obtain ⟨numThreads, hpool⟩ := h.threadPool
  refine .fresh h.started (unlistened_init h) ?_ (by rw [hpool]; rfl)
  intro t i hi
  rw [h.stack t] at hi
  cases hi

theorem starts_update {s : ServerRun T} {t : T} {new kept popped : List (ServerInstr T)}
    (hnone : ∀ u, ∀ i ∈ s.stack u, i.starts = false) (hs : s.stack t = popped ++ kept)
    (hnew : ∀ i ∈ new, i.starts = false) :
    ∀ u, ∀ i ∈ Function.update s.stack t (new ++ kept) u, i.starts = false := by
  intro u i hi
  by_cases hu : u = t
  · subst hu
    rw [Function.update_self] at hi
    rcases List.mem_append.mp hi with hi | hi
    · exact hnew i hi
    · exact hnone u i (by rw [hs]; exact List.mem_append_right _ hi)
  · rw [Function.update_of_ne hu] at hi
    exact hnone u i hi

theorem Startup.fresh_step (h0 : s.started_ = 0) (hun : Unlistened s)
    (hnone : ∀ t, ∀ i ∈ s.stack t, i.starts = false) (hloops : s.threadPool_.loops_ = [])
    {l : ServerLabel T} (hs : Steps main s l s') : Startup s' := by
  have hnot : ∀ {t i rest}, s.stack t = i :: rest → i.starts = false := by
    intro t i rest htop
    exact hnone t i (by simp [htop])
  cases startSteps_of_step hs with
  | quiet t popped kept new htop hs' hpopped hnew hpool hstarted =>
    have hun' := unlistened_step hun hs (notListening_of_stack popped kept new htop hs'
      (ne_listenInLoop hpopped))
    exact .fresh (hstarted.mpr h0) hun' (hs' ▸ starts_update hnone htop hnew) (hpool.trans hloops)
  | start t rest init htop _ hs' hinit hpool hstarted =>
    have hun' : Unlistened s' := by
      apply unlistened_step hun hs
      apply notListening_of_stack [.start] rest
        (List.replicate s.threadPool_.numThreads_.toNat .startLoop ++ init ++ [.listenInLoop]) htop
      · rw [hs', List.append_assoc _ [_] rest, List.singleton_append]
      · simp
    have hrest : ∀ i ∈ rest, i.starts = false := by
      intro i hi
      exact hnone t i (by simp [htop, hi])
    refine .creating t (List.replicate s.threadPool_.numThreads_.toNat .startLoop ++ init) rest
      hstarted hun' (by rw [hs', Function.update_self]) ?_ hrest ?_ ?_
    · simp [List.mem_replicate, ne_listenInLoop hinit]
    · intro u hu i hi
      rw [hs', Function.update_of_ne hu] at hi
      exact hnone u i hi
    · rw [hpool, hloops, numThreads_step hs, List.count_append, List.count_replicate_self,
        count_startLoop hinit]
      simp
  | startLoop t loop rest htop => cases hnot htop
  | listen t rest new htop => cases hnot htop

theorem Startup.creating_step {t : T} {pre rest : List (ServerInstr T)} (h0 : s.started_ ≠ 0)
    (hun : Unlistened s) (htop : s.stack t = pre ++ .listenInLoop :: rest)
    (hpre : .listenInLoop ∉ pre) (hrest : ∀ i ∈ rest, i.starts = false)
    (hothers : ∀ u ≠ t, ∀ i ∈ s.stack u, i.starts = false)
    (hlen : s.threadPool_.loops_.length + pre.count .startLoop = s.threadPool_.numThreads_.toNat)
    {l : ServerLabel T} (hs : Steps main s l s') : Startup s' := by
  have hnum := numThreads_step hs
  have hthread : ∀ {u i is}, s.stack u = i :: is → i.starts = true → u = t := by
    intro u i is hu hi
    by_contra hne
    rw [hothers u hne i (by simp [hu])] at hi
    cases hi
  have hother : ∀ {is}, s'.stack = Function.update s.stack t is →
      ∀ u ≠ t, ∀ i ∈ s'.stack u, i.starts = false := by
    intro is hs' u hu i hi
    rw [hs', Function.update_of_ne hu] at hi
    exact hothers u hu i hi
  cases startSteps_of_step hs with
  | quiet u popped kept new hu hs' hpopped hnew hpool hstarted =>
    have hun' := unlistened_step hun hs (notListening_of_stack popped kept new hu hs'
      (ne_listenInLoop hpopped))
    have h0' : s'.started_ ≠ 0 := fun h => h0 (hstarted.mp h)
    by_cases hut : u = t
    · subst hut
      rw [htop] at hu
      obtain ⟨pre', rfl, rfl⟩ := split_before hu (ne_listenInLoop hpopped)
      refine .creating u (new ++ pre') rest h0' hun' ?_ ?_ hrest (hother hs') ?_
      · rw [hs', Function.update_self, List.append_assoc]
      · intro hmem
        rcases List.mem_append.mp hmem with hmem | hmem
        · exact ne_listenInLoop hnew hmem
        · exact hpre (List.mem_append_right _ hmem)
      · rw [hpool, hnum, ← hlen, List.count_append, List.count_append, count_startLoop hnew,
          count_startLoop hpopped]
    · refine .creating t pre rest h0' hun' ?_ hpre hrest ?_ (by rw [hpool, hnum, hlen])
      · rw [hs', Function.update_of_ne (Ne.symm hut), htop]
      · intro v hv i hi
        rw [hs'] at hi
        by_cases hvu : v = u
        · subst hvu
          rw [Function.update_self] at hi
          rcases List.mem_append.mp hi with hi | hi
          · exact hnew i hi
          · exact hothers v hv i (by rw [hu]; exact List.mem_append_right _ hi)
        · rw [Function.update_of_ne hvu] at hi
          exact hothers v hv i hi
  | start u rest' init hu hzero => exact absurd hzero h0
  | startLoop u loop rest' hu hs' hpool hstarted =>
    obtain rfl := hthread hu rfl
    have hun' : Unlistened s' := by
      apply unlistened_step hun hs
      apply notListening_of_stack [.startLoop] rest' [] hu hs'
      simp
    cases pre with
    | nil =>
      rw [htop] at hu
      cases hu
    | cons i pre =>
      rw [htop, List.cons_append] at hu
      obtain ⟨rfl, rfl⟩ := List.cons.inj hu
      refine .creating u pre rest (by rwa [hstarted]) hun' (by rw [hs', Function.update_self]) ?_
        hrest (hother hs') ?_
      · exact fun hmem => hpre (List.mem_cons_of_mem _ hmem)
      · rw [hpool, hnum, ← hlen, List.count_cons_self, List.length_append, List.length_singleton]
        omega
  | listen u rest' new hu hs' hnew hpool hstarted =>
    obtain rfl := hthread hu rfl
    cases pre with
    | nil =>
      rw [htop, List.nil_append] at hu
      obtain ⟨-, rfl⟩ := List.cons.inj hu
      refine .started (by rwa [hstarted]) ?_ ?_
      · intro v i hi
        by_cases hv : v = u
        · subst hv
          rw [hs', Function.update_self] at hi
          exact (List.mem_append.mp hi).elim (hnew i) (hrest i)
        · exact hother hs' v hv i hi
      · rw [hpool, hnum, ← hlen, List.count_nil]
        rfl
    | cons i pre =>
      rw [htop, List.cons_append] at hu
      obtain ⟨rfl, -⟩ := List.cons.inj hu
      exact absurd List.mem_cons_self hpre

theorem Startup.started_step (h0 : s.started_ ≠ 0) (hnone : ∀ t, ∀ i ∈ s.stack t, i.starts = false)
    (hlen : s.threadPool_.loops_.length = s.threadPool_.numThreads_.toNat) {l : ServerLabel T}
    (hs : Steps main s l s') : Startup s' := by
  have hnot : ∀ {t i rest}, s.stack t = i :: rest → i.starts = false := by
    intro t i rest htop
    exact hnone t i (by simp [htop])
  have hnum := numThreads_step hs
  cases startSteps_of_step hs with
  | quiet t popped kept new htop hs' hpopped hnew hpool hstarted =>
    exact .started (fun h => h0 (hstarted.mp h)) (hs' ▸ starts_update hnone htop hnew)
      (by rw [hpool, hnum, hlen])
  | start t rest init htop hzero => exact absurd hzero h0
  | startLoop t loop rest htop => cases hnot htop
  | listen t rest new htop => cases hnot htop

theorem startup_step (h : Startup s) {l : ServerLabel T} (hs : Steps main s l s') :
    Startup s' := by
  cases h with
  | fresh h0 hun hnone hloops => exact .fresh_step h0 hun hnone hloops hs
  | creating t pre rest h0 hun htop hpre hrest hothers hlen =>
    exact .creating_step h0 hun htop hpre hrest hothers hlen hs
  | started h0 hnone hlen => exact .started_step h0 hnone hlen hs

variable {Good : ServerRun T → ServerLabel T → Prop}

theorem startup_of_reachable (h : (system main).Reachable Good s) : Startup s := by
  refine h.invariant (I := Startup) (fun _ => startup_init) ?_
  intro s l s' hi _ hs
  exact startup_step hi (steps_of_step hs.2)

/-- Once a connection has been accepted, all loops are there. -/
theorem Startup.complete (h : Startup s) (hnext : s.nextConnId_ ≠ 1) :
    (∀ t, ∀ i ∈ s.stack t, i.starts = false) ∧
      s.threadPool_.loops_.length = s.threadPool_.numThreads_.toNat := by
  cases h with
  | fresh h0 hun => exact absurd hun.nextConnId hnext
  | creating t pre rest h0 hun => exact absurd hun.nextConnId hnext
  | started h0 hnone hlen => exact ⟨hnone, hlen⟩

/-! ## Turns -/

/-- The connections so far have taken the loops in turn. -/
structure InTurn (main : T) (s : ServerRun T) : Prop where
  nodup : s.threadPool_.loops_.Nodup
  next : s.threadPool_.InTurn (s.nextConnId_ - 1)
  loop : ∀ k, s.Accepted k → s.loopOf k = turn s.threadPool_.loops_ main (k - 1)

omit [DecidableEq T] in
theorem inTurn_init (h : Init main s) : InTurn main s := by
  obtain ⟨numThreads, hpool⟩ := h.threadPool
  refine ⟨?_, ?_, ?_⟩
  · rw [hpool]
    exact List.nodup_nil
  · intro hne
    rw [hpool] at hne
    exact absurd rfl hne
  · rintro k ⟨hpos, hlt⟩
    have hid := h.nextConnId
    omega

inductive PoolSteps (s s' : ServerRun T) : Prop
  | same (hpool : s'.threadPool_ = s.threadPool_) (hid : s'.nextConnId_ = s.nextConnId_)
  | push_back (t loop : T) (rest : List (ServerInstr T)) (hs : s.stack t = .startLoop :: rest)
      (hnew : loop ∉ s.threadPool_.loops_)
      (hpool : s'.threadPool_ = s.threadPool_.push_back loop)
      (hid : s'.nextConnId_ = s.nextConnId_)
  | getNextLoop (hpool : s'.threadPool_ = s.threadPool_.getNextLoop.2)
      (hid : s'.nextConnId_ = s.nextConnId_ + 1)
      (hloop : s'.loopOf s.nextConnId_ = s.threadPool_.getNextLoop.1)

theorem poolSteps_of_step {l : ServerLabel T} (hs : Steps main s l s') : PoolSteps s s' := by
  cases hs with
  | own t o i rest r new hs hr =>
    rcases run_cases hr with ⟨sockfd, -, hnew⟩ | ⟨-, -, hr⟩
    · obtain ⟨-, -, rfl⟩ := newConnection_eq hnew
      exact .getNextLoop rfl rfl (by simp [loopOf, setStack, ServedConnection.create])
    · rw [hr]
      exact .same rfl rfl
  | startLoop t loop rest hs hmain hself hnew => exact .push_back t loop rest hs hnew rfl rfl
  | call t c r new hu hc =>
    rw [frame_of_code hc]
    exact .same rfl rfl
  | _ => exact .same rfl rfl

theorem inTurn_step (h : InTurn main s) (hstartup : Startup s) (hthreads : PoolThreads main s)
    (hnum : Numbered s) {l : ServerLabel T} (hs : Steps main s l s') : InTurn main s' := by
  have hold : ∀ k, s.Accepted k → s'.loopOf k = turn s.threadPool_.loops_ main (k - 1) := by
    intro k hk
    exact ((continues_step hs).loop k hk).trans (h.loop k hk)
  cases poolSteps_of_step hs with
  | same hpool hid =>
    refine ⟨by rw [hpool]; exact h.nodup, by rw [hpool, hid]; exact h.next, ?_⟩
    intro k hk
    rw [hpool]
    exact hold k ⟨hk.1, hid ▸ hk.2⟩
  | push_back t loop rest htop hnew hpool hid =>
    -- a loop joins, so nothing has been accepted
    have hone : s.nextConnId_ = 1 := by
      by_contra hne
      have hnone := (hstartup.complete hne).1 t .startLoop (by simp [htop])
      cases hnone
    refine ⟨?_, ?_, ?_⟩
    · rw [hpool]
      exact List.nodup_append.mpr ⟨h.nodup, List.nodup_singleton _, by simp; grind⟩
    · have hzero := h.next
      rw [hpool, hid, hone]
      rw [hone] at hzero
      exact hzero.push_back loop
    · rintro k ⟨hpos, hlt⟩
      omega
  | getNextLoop hpool hid hloop =>
    obtain ⟨hturn, hnext⟩ := h.next.getNextLoop
    have hpos := hnum.pos
    refine ⟨?_, ?_, ?_⟩
    · rw [hpool, EventLoopThreadPool.getNextLoop_loops]
      exact h.nodup
    · rw [hpool, hid, Nat.add_sub_cancel]
      rwa [Nat.sub_add_cancel hpos] at hnext
    · intro k hk
      rw [hpool, EventLoopThreadPool.getNextLoop_loops]
      by_cases hk' : s.Accepted k
      · exact hold k hk'
      · have hlast : k = s.nextConnId_ := by
          have hlt := hk.2
          have hnot : ¬ k < s.nextConnId_ := fun hlt => hk' ⟨hk.1, hlt⟩
          omega
        rw [hlast, hloop, hturn, hthreads.base]

theorem inTurn_of_reachable (h : (system main).Reachable Good s) : InTurn main s := by
  refine h.invariant_of (J := (system main).Reachable Good) (fun _ hr => hr) (I := InTurn main)
    (fun _ => inTurn_init) ?_
  intro s l s' hi hr _ hs
  exact inTurn_step hi (startup_of_reachable hr) (poolThreads_of_reachable hr)
    (numbered_of_reachable hr) (steps_of_step hs.2)

def load (s : ServerRun T) (loop : T) : ℕ :=
  Nat.count (fun k => s.loopOf (k + 1) = loop) (s.nextConnId_ - 1)

theorem InTurn.load_eq (h : InTurn main s) (loop : T) :
    s.load loop = TakingTurns.turns s.threadPool_.loops_ main loop (s.nextConnId_ - 1) := by
  rw [load, TakingTurns.turns, Nat.count_eq_card_filter_range, Nat.count_eq_card_filter_range]
  congr 1
  apply Finset.filter_congr
  intro k hk
  have hlt := Finset.mem_range.mp hk
  rw [h.loop (k + 1) ⟨by omega, by omega⟩, Nat.add_sub_cancel]

/-- Whoever calls `start`, however often and from whichever thread: connections
take the loops in turn, and no loop of the pool is ever given more than one
connection more than another. -/
theorem connections_spread (h : (system main).Reachable Good s) :
    (∀ k, s.Accepted k → s.loopOf k = turn s.threadPool_.loops_ main (k - 1) ∧
      s.threadPool_.loops_.length = s.threadPool_.numThreads_.toNat) ∧
    ∀ a ∈ s.threadPool_.loops_, ∀ b ∈ s.threadPool_.loops_, s.load a ≤ s.load b + 1 := by
  have hturn := inTurn_of_reachable h
  refine ⟨fun k hk => ⟨hturn.loop k hk, ?_⟩, ?_⟩
  · apply ((startup_of_reachable h).complete _).2
    have hpos := hk.1
    have hlt := hk.2
    omega
  · intro a ha b hb
    rw [hturn.load_eq, hturn.load_eq]
    exact TakingTurns.turns_le_succ hturn.nodup main ha hb _

open ConnectionRun (Party silent)

def listeningTwo : List (ServerLabel Party) :=
  [.call .main .start, .exec .main silent, .startLoop .main .io, .startLoop .main .user] ++
    execs .main 2 ++ endOfDispatch .main

/-- Three connections on two loops. -/
theorem connections_spread_three : ∃ s : ServerRun Party,
    (s.load .io = 2 ∧ s.load .user = 1) ∧ s.nextConnId_ = 4 ∧
    (∀ k, s.Accepted k → s.loopOf k = turn s.threadPool_.loops_ .main (k - 1) ∧
      s.threadPool_.loops_.length = s.threadPool_.numThreads_.toNat) ∧
    ∀ a ∈ s.threadPool_.loops_, ∀ b ∈ s.threadPool_.loops_, s.load a ≤ s.load b + 1 := by
  have hrun : (TransitionSystem.replay (TransitionSystem.guarded TransitionSystem.AnyStep
      (TransitionSystem.guarded Permitted (step .main))) (newServer 2)
      (listeningTwo ++ accepting 7 ++ accepting 8 ++ accepting 9)).map
      (fun s => (s.load .io, s.load .user, s.nextConnId_)) = some (2, 1, 4) := by decide +kernel
  obtain ⟨s, hs, hobs⟩ := exists_reachable_of_replay (init_newServer 2) _ hrun
  obtain ⟨hio, huser, hnext⟩ : s.load .io = 2 ∧ s.load .user = 1 ∧ s.nextConnId_ = 4 := by
    simpa using hobs
  exact ⟨s, ⟨hio, huser⟩, hnext, connections_spread hs⟩

end ServerRun
end MuduoCore
