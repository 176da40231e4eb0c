import MuduoCore.Connection.Arrival
import MuduoCore.Connection.Lifetime

/-!
# What keeps a connection alive until its channel is removed

`connections_` holds the connection until `removeConnectionInLoop`, which queues
`connectDestroyed`; the queue holds it until `remove` has been executed, and
then nothing can report its channel any more. No handler is under way at that
time, because `connectDestroyed` is a functor of the loop and is never called
directly. So whenever the channel waits to be handled, something holds the
connection, provided that only the loop's thread sends.
-/

namespace MuduoCore

/-- `sendInLoop` may register the channel. -/
def Functor.isSend {P : Type*} : Functor P → Bool
  | sendInLoop _ => true
  | _ => false

def Functor.isRemoval {P : Type*} : Functor P → Bool
  | connectDestroyed | removeConnectionInLoop => true
  | _ => false

/-- The removal has begun where this is left to do. -/
def Instr.removes {T : Type*} : Instr T → Bool
  | closeCallback | remove => true
  | runInLoop _ f | queueInLoop _ f | call f => f.isRemoval
  | _ => false

/-- The removal holds the connection while this is left to do. -/
def Instr.keeps {T : Type*} : Instr T → Bool
  | queueInLoop _ .connectDestroyed | call .connectDestroyed | remove => true
  | _ => false

/-- The instruction may change what is registered of a connection that is not
`kConnected`, or lead to that. -/
def Instr.touches {T : Type*} : Instr T → Bool
  | handle _ | changeInterest _ => true
  | runInLoop _ f | queueInLoop _ f | call f => f.isSend
  | _ => false

/-- `send` runs on the loop's thread, so no `sendInLoop` is queued; and
`connectDestroyed` is not called directly. -/
def Instr.Direct {T : Type*} (io t : T) : Instr T → Prop
  | send _ => t = io
  | runInLoop _ f => f.isSend = false ∧ f ≠ .connectDestroyed
  | queueInLoop _ f => f.isSend = false
  | _ => True

theorem Functor.isSend_of_followsUp {P : Type*} {f : Functor P} (h : f.followsUp = true) :
    f.isSend = false := by
  cases f <;> simp_all [Functor.followsUp, Functor.isSend]

theorem Functor.isRemoval_of_followsUp {P : Type*} {f : Functor P} (h : f.followsUp = true) :
    f.isRemoval = false := by
  cases f <;> simp_all [Functor.followsUp, Functor.isRemoval]

theorem direct_of_follows {T : Type*} {io main t : T} {i j : Instr T}
    (h : Shared.Follows io main t i j) (hi : i.Direct io t) : j.Direct io t := by
  cases h with
  | send_run p ht => exact absurd hi ht
  | run_queue loop cb ht => exact hi.1
  | sent_queue p g hg | sentFile_queue _ _ _ g hg | write_queue g hg =>
    exact Functor.isSend_of_followsUp hg
  | sendFile_run | shutdown_run | closeCallback_run => exact ⟨rfl, by simp⟩
  | remove_queue => rfl
  | _ => trivial

theorem removes_of_follows {T : Type*} {io main t : T} {i j : Instr T}
    (h : Shared.Follows io main t i j) (hj : j.removes = true) :
    i.removes = true ∨ i = .handle .closeCallback := by
  cases h with
  | run_call | run_queue => exact Or.inl hj
  | sent_queue p g hg | sentFile_queue _ _ _ g hg | write_queue g hg =>
    rw [Instr.removes, Functor.isRemoval_of_followsUp hg] at hj
    cases hj
  | close_remove => exact Or.inr rfl
  | destroy_remove | remove_queue | closeCallback_run => exact Or.inl rfl
  | _ => cases hj

namespace ConnectionRun

variable {T : Type*} [DecidableEq T] {io main : T} {s s' : ConnectionRun T}

/-- The server is not destroyed, and the connection is used on its loop's thread. -/
def OnOwnThread (io : T) (_ : ConnectionRun T) : HostLabel T → Prop
  | .call t c => t = io ∨ ∃ loop, c = .queueInLoop loop
  | .destroy => False
  | _ => True

/-! ## Everything that sends does so at once -/

structure SendsAtOnce (io : T) (s : ConnectionRun T) : Prop where
  work : ∀ t, ∀ i ∈ s.work t, i.Direct io t
  queued : ∀ t, ∀ f ∈ (s.loops t).queued, f.isSend = false

omit [DecidableEq T] in
theorem direct_of_foreign {t : T} {i : Instr T} (h : i.foreign = true) : i.Direct io t := by
  cases i with
  | queueInLoop loop f => cases f <;> first | rfl | cases h
  | call f | wakeup loop => trivial
  | _ => cases h

theorem sendsAtOnce_init (h : HostInit io main s) : SendsAtOnce io s := by
  constructor
  · intro t i hi
    rcases h.mem_work hi with ⟨-, rfl⟩ | rfl | hi
    · exact ⟨rfl, by simp⟩
    · trivial
    · exact direct_of_foreign hi
  · intro t f hf
    rw [h.held t f (EventLoop.mem_held_of_mem_queued hf)]
    rfl

theorem sendsAtOnce_step {hl : HostLabel T} (h : SendsAtOnce io s) (hgood : OnOwnThread io s hl)
    (hs : HostSteps io main s hl s') : SendsAtOnce io s' := by
  constructor
  · refine hs.forall_work h.work ?_ (fun _ _ => direct_of_foreign) (fun _ => trivial)
      (fun _ _ _ _ => trivial) (fun _ _ => trivial) ?_ ?_
    · intro t o i new _ hi hr _ j hj
      exact direct_of_follows (Shared.follows_of_run hr hj) hi
    · rintro t c rfl _ i hi
      cases c with
      | queueInLoop loop =>
        rw [List.mem_singleton.mp hi]
        rfl
      | _ =>
        simp only [code, List.mem_cons, List.not_mem_nil, or_false] at hi
        rcases hgood with ht | ⟨loop, hloop⟩
        · rcases hi with rfl | rfl
          · first | exact ht | trivial
          · trivial
        · cases hloop
    · rintro rfl
      exact hgood.elim
  · intro t f hf
    rcases hs.mem_queued hf with hf | rfl | ⟨u, rest, htop⟩
    · exact h.queued t f hf
    · rfl
    · exact h.work u (.queueInLoop t f) (List.mem_append_left _ (by simp [htop]))

/-! ## Only while the loop dispatches does the channel wait to be handled -/

def Dispatching (io : T) (s : ConnectionRun T) : Prop :=
  s.active = true → ∃ wakeup, (s.loops io).phase = .dispatch wakeup

theorem dispatching_control {t : T} {c : LoopStep} {loop : EventLoop (Functor (Payload T))}
    (h : Dispatching io s) (hact : t = io → c = .endDispatch → s.active = false)
    (ha : (s.loops t).Advances c loop) (hactive : s.active = true) :
    ∃ wakeup, (Function.update s.loops t loop io).phase = .dispatch wakeup := by
  obtain ⟨wakeup, hp⟩ := h hactive
  by_cases ht : t = io
  · subst ht
    rw [Function.update_self]
    cases ha with
    | handleRead hp' => exact ⟨false, rfl⟩
    | endDispatch hp' =>
      rw [hact rfl rfl] at hactive
      cases hactive
    | _ => simp_all
  · rw [Function.update_of_ne (Ne.symm ht)]
    exact ⟨wakeup, hp⟩

theorem dispatching_step {hl : HostLabel T} (h : Dispatching io s)
    (hs : HostSteps io main s hl s') : Dispatching io s' := by
  rcases hs.split with ⟨l, rfl, -, hown⟩ | ⟨-, u, old, new, hinter, -⟩ | ⟨rfl, rest, htop, rfl⟩
  · cases hown with
    | queue u o loop cb rest hs =>
      intro hactive
      simp only [setStack_loops, setLoop_loops]
      rw [loops_update EventLoop.phase (EventLoop.push_phase _ _)]
      exact h hactive
    | wakeup u o loop rest hs =>
      intro hactive
      simp only [setStack_loops, setLoop_loops]
      rw [loops_update EventLoop.phase (EventLoop.wakeupAfterPush_phase _ _)]
      exact h hactive
    | control t c loop hs hact ha => exact dispatching_control h hact ha
    | report wakeup revents mask loop hs hm hr ha =>
      intro _
      cases ha with
      | pollReturn _ hp hw => exact ⟨wakeup, by simp⟩
    | handleEvent hs hact => exact fun hactive => nomatch hactive
    | _ => exact h
  · intro hactive
    rw [hinter.phase io]
    exact h (hinter.active ▸ hactive)
  · exact h

/-! ## The removal -/

/-- The connection has been closed, or is marked so in the next instruction. -/
def Over (io : T) (s : ConnectionRun T) : Prop :=
  s.conn.state_ ≠ .kConnected ∨ (s.stack io).head? = some (.setState .kDisconnected)

theorem over_run {t : T} {i : Instr T} {o : Outcome} {rest new : List (Instr T)} {c : Shared T}
    (h : Over io s) (hest : i.establishes = false) (hs : s.stack t = i :: rest)
    (hr : s.toShared.run io main t i o = some (c, new)) :
    Over io { s with toShared := c, stack := Function.update s.stack t (new ++ rest) } := by
  rcases h with hstate | hhead
  · exact Or.inl (state_of_run hstate hest hr)
  · by_cases ht : t = io
    · subst ht
      rw [hs] at hhead
      obtain rfl : i = .setState .kDisconnected := by simpa using hhead
      cases hr
      exact Or.inl (by simp)
    · exact Or.inr (by simpa [Function.update_of_ne (Ne.symm ht)] using hhead)

theorem over_step {hl : HostLabel T} (h : Over io s)
    (hest : ∀ t, ∀ i ∈ s.work t, i.establishes = false) (hs : HostSteps io main s hl s') :
    Over io s' := by
  rcases h with hstate | hhead
  · exact Or.inl (state_host hstate hest hs)
  · obtain ⟨rest, htop⟩ := List.head?_eq_some_iff.mp hhead
    by_cases hexec : ∃ o, hl = .own (.exec io o)
    · obtain ⟨o, rfl⟩ := hexec
      cases hs with
      | own _ _ _ hown =>
        cases hown with
        | run _ _ i r c new hs hr =>
          exact over_run (Or.inr hhead) (hest io i (List.mem_append_left _ (by simp [hs]))) hs hr
        | queue _ _ loop cb r hs | wakeup _ _ loop r hs =>
          rw [htop] at hs
          cases hs
    · right
      rw [hs.stack_of_busy htop rfl (by simp) (fun o hl => hexec ⟨o, hl⟩), htop]
      rfl

/-- Where something of the removal is left to do, the connection has been closed. -/
def RemovesWhenOver (io : T) (s : ConnectionRun T) : Prop :=
  ∀ t, ∀ i ∈ s.work t, i.removes = true → Over io s

theorem removesWhenOver_step {hl : HostLabel T} (h : RemovesWhenOver io s)
    (hest : ∀ t, ∀ i ∈ s.work t, i.establishes = false) (hplaced : Placed io main s)
    (hgood : OnOwnThread io s hl) (hs : HostSteps io main s hl s') : RemovesWhenOver io s' := by
  refine hs.forall_work (P := fun _ i => i.removes = true → Over io s')
    (fun t i hi hrem => over_step (h t i hi hrem) hest hs) ?_ ?_ (by simp [Instr.removes])
    (fun _ _ _ h => h) (by simp [Instr.removes]) ?_ ?_
  · intro t o i new hhead hi hr hnew j hj hrem
    rcases removes_of_follows (Shared.follows_of_run hr hj) hrem with hrem | rfl
    · exact hi hrem
    · obtain ⟨rest, htop⟩ := List.head?_eq_some_iff.mp hhead
      have ht : t = io :=
        hplaced t (.handle .closeCallback) (List.mem_append_left _ (by simp [htop]))
      obtain ⟨r, hr'⟩ := hnew
      simp only [Shared.run, Shared.handler, Option.some.injEq, Prod.mk.injEq] at hr
      obtain ⟨-, rfl⟩ := hr
      right
      rw [← ht, ← hr']
      rfl
  · intro t i hi hrem
    cases i with
    | call f | queueInLoop loop f =>
      cases f with
      | other => cases hrem
      | _ => cases hi
    | wakeup loop => cases hrem
    | _ => cases hi
  · intro t c _ _ i hi hrem
    cases userInstr_of_mem_code hi <;> cases hrem
  · rintro rfl
    exact hgood.elim

/-- `connectDestroyed` and its end run as a functor of the loop, and nothing is
left to do below them. -/
def Alone (io : T) (s : ConnectionRun T) : Prop :=
  ∀ i ∈ s.stack io, i = .call .connectDestroyed ∨ i = .remove →
    s.stack io = [i] ∧ ∀ wakeup, (s.loops io).phase ≠ .dispatch wakeup

theorem alone_run {t : T} {i : Instr T} {o : Outcome} {rest new : List (Instr T)} {c : Shared T}
    (h : Alone io s) (hover : RemovesWhenOver io s) (hdirect : i.Direct io t)
    (hs : s.stack t = i :: rest) (hr : s.toShared.run io main t i o = some (c, new)) :
    Alone io { s with toShared := c, stack := Function.update s.stack t (new ++ rest) } := by
  by_cases ht : t = io
  · subst ht
    intro j hj hremoves
    simp only [Function.update_self] at hj ⊢
    rcases List.mem_append.mp hj with hj | hj
    · have hi : i = .call .connectDestroyed ∧ j = .remove := by
        rcases hremoves with rfl | rfl
        · cases Shared.follows_of_run hr hj with
          | run_call loop cb ht => exact absurd rfl hdirect.2
        · cases Shared.follows_of_run hr hj with
          | destroy_remove => exact ⟨rfl, rfl⟩
      obtain ⟨rfl, rfl⟩ := hi
      obtain ⟨hstack, hphase⟩ := h (.call .connectDestroyed) (by simp [hs]) (Or.inl rfl)
      have hclosed : s.conn.connected = false := by
        rcases hover t (.call .connectDestroyed) (List.mem_append_left _ (by simp [hs])) rfl with
          hstate | hhead
        · simpa [TcpConnection.connected] using hstate
        · rw [hs] at hhead
          cases hhead
      rw [hs] at hstack
      obtain rfl : rest = [] := (List.cons.inj hstack).2
      cases hr
      rw [hclosed]
      exact ⟨rfl, hphase⟩
    · obtain ⟨hstack, -⟩ := h j (by simp [hs, hj]) hremoves
      rw [hs] at hstack
      obtain ⟨rfl, rfl⟩ := List.cons.inj hstack
      cases hj
  · simpa [Alone, Function.update_of_ne (Ne.symm ht)] using h

theorem Alone.of_stack (h : Alone io s) (t : T) (old new rest : List (Instr T))
    (hs : s.stack t = old ++ rest) (hs' : s'.stack = Function.update s.stack t (new ++ rest))
    (hphase : (s'.loops io).phase = (s.loops io).phase)
    (hold : old = [] → ∀ i, s.stack t = [i] → i ≠ .call .connectDestroyed ∧ i ≠ .remove)
    (hnew : ∀ i ∈ new, i ≠ .call .connectDestroyed ∧ i ≠ .remove) : Alone io s' := by
  intro i hi hremoves
  have hne : ¬ (i ≠ .call .connectDestroyed ∧ i ≠ .remove) := by
    rintro ⟨hdestroyed, hremove⟩
    rcases hremoves with hi | hi
    · exact hdestroyed hi
    · exact hremove hi
  rw [hs'] at hi ⊢
  by_cases ht : t = io
  · subst ht
    rw [Function.update_self] at hi
    rcases List.mem_append.mp hi with hi | hi
    · exact absurd (hnew i hi) hne
    · obtain ⟨hstack, -⟩ := h i (by simp [hs, hi]) hremoves
      cases old with
      | nil => exact absurd (hold rfl i hstack) hne
      | cons j old =>
        rw [hs] at hstack
        have hrest : rest = [] := (List.append_eq_nil_iff.mp (List.cons.inj hstack).2).2
        rw [hrest] at hi
        cases hi
  · rw [Function.update_of_ne (Ne.symm ht)] at hi ⊢
    rw [hphase]
    exact h i hi hremoves

theorem alone_control {t : T} {c : LoopStep} {loop : EventLoop (Functor (Payload T))} {b : Bool}
    (h : Alone io s) (ha : (s.loops t).Advances c loop) :
    Alone io { (s.setLoop t loop).setStack t (calls ((s.loops t).started c)) with
      destroySwapped := b } := by
  by_cases ht : t = io
  · subst ht
    intro i hi _
    simp only [setStack_stack, setStack_loops, setLoop_loops, Function.update_self] at hi ⊢
    cases ha with
    | runNext ran cb todo hp =>
      have hstarted : (s.loops t).started .runNext = [cb] := by
        simp [EventLoop.started, hp, LoopPhase.todo]
      rw [hstarted] at hi ⊢
      rw [calls, List.map_singleton] at hi ⊢
      rw [List.mem_singleton.mp hi]
      exact ⟨rfl, by simp⟩
    | _ => cases hi
  · intro i hi hremoves
    simp only [setStack_stack, setStack_loops, setLoop_stack, setLoop_loops,
      Function.update_of_ne (Ne.symm ht)] at hi ⊢
    exact h i hi hremoves

theorem alone_own {l : RunLabel T} (h : Alone io s) (hover : RemovesWhenOver io s)
    (hdirect : ∀ t, ∀ i ∈ s.work t, i.Direct io t) (hl : ∀ t c, l ≠ .call t c)
    (hs : Steps io main s l s') : Alone io s' := by
  have hdestructor : ∀ cb : Functor (Payload T), ∀ i ∈ (cb.destructor : List (Instr T)),
      i = .release := by
    intro cb i hi
    unfold Functor.destructor at hi
    split_ifs at hi
    · exact List.mem_singleton.mp hi
    · cases hi
  cases hs with
  | run t o i rest c new hs hr =>
    exact alone_run h hover (hdirect t i (List.mem_append_left _ (by simp [hs]))) hs hr
  | queue t o loop cb rest hs =>
    refine h.of_stack t [.queueInLoop loop cb] (.wakeup loop :: cb.destructor) rest hs rfl ?_
      (by simp) ?_
    · exact loops_update EventLoop.phase (EventLoop.push_phase _ _) io
    · intro i hi
      rcases List.mem_cons.mp hi with rfl | hi
      · simp
      · rw [hdestructor cb i hi]
        simp
  | wakeup t o loop rest hs =>
    refine h.of_stack t [.wakeup loop] [] rest hs rfl ?_ (by simp) (by simp)
    exact loops_update EventLoop.phase (EventLoop.wakeupAfterPush_phase _ _) io
  | control t c loop hs hact ha => exact alone_control h ha
  | report wakeup revents mask loop hs hm hr ha =>
    intro i hi
    have hnone : i ∈ s.stack io := hi
    rw [hs] at hnone
    cases hnone
  | handleEvent hs hact =>
    refine h.of_stack io [] _ [] hs (by rw [List.append_nil]; rfl) rfl (by simp [hs]) ?_
    intro i hi
    rcases List.mem_append.mp hi with hi | hi
    · obtain ⟨cb, _, rfl⟩ := List.mem_map.mp hi
      simp
    · rw [List.mem_singleton.mp hi]
      simp
  | call t c hu => exact absurd rfl (hl t c)
  | store t address value hu => exact h

theorem alone_step {hl : HostLabel T} (h : Alone io s) (hover : RemovesWhenOver io s)
    (hdirect : ∀ t, ∀ i ∈ s.work t, i.Direct io t) (hgood : OnOwnThread io s hl)
    (hs : HostSteps io main s hl s') : Alone io s' := by
  rcases hs.split with ⟨l, rfl, hl, hown⟩ | ⟨-, t, old, new, hinter, hnew⟩ | ⟨rfl, -⟩
  · exact alone_own h hover hdirect hl hown
  · obtain ⟨rest, hold, hs'⟩ := hinter.stack
    refine h.of_stack t old new rest hold hs' (hinter.phase io) ?_ ?_
    · intro hnil i hi
      rcases hinter.idle hnil with hidle | hidle | hidle <;> rw [hi] at hidle
      · cases hidle
      · rw [Option.some.inj hidle]
        simp
      · rw [Option.some.inj hidle]
        simp
    · intro i hi
      rcases hnew with hnew | ⟨c, -, -, rfl⟩
      · have hforeign := hnew i hi
        constructor <;> rintro rfl <;> cases hforeign
      · cases userInstr_of_mem_code hi <;> simp
  · exact hgood.elim

/-! ## What holds the connection -/

/-- `connections_` or the removal holds the connection. -/
def Held (s : ConnectionRun T) : Prop :=
  s.inConnections = true ∨ ∃ t, ∃ i ∈ s.work t, i.keeps = true

/-- The channel has been removed, and nothing registers it again. -/
structure Quiet (s : ConnectionRun T) : Prop where
  state : s.conn.state_ ≠ .kConnected
  unregistered : s.conn.channel_.registered = none
  inactive : s.active = false
  untouched : ∀ t, ∀ i ∈ s.work t, i.touches = false

/-- When the channel has been removed, no handler is left. -/
theorem quiet_remove {c : Shared T} {o : Outcome} {rest new : List (Instr T)}
    (hs : s.stack io = .remove :: rest) (hover : RemovesWhenOver io s) (halone : Alone io s)
    (hplaced : Placed io main s) (hsends : SendsAtOnce io s) (hdispatch : Dispatching io s)
    (hr : s.toShared.run io main io .remove o = some (c, new)) :
    Quiet { s with toShared := c, stack := Function.update s.stack io (new ++ rest) } := by
  obtain ⟨hstack, hphase⟩ := halone .remove (by simp [hs]) (Or.inr rfl)
  rw [hs] at hstack
  obtain rfl : rest = [] := (List.cons.inj hstack).2
  cases hr
  have hstate : s.conn.state_ ≠ .kConnected := by
    rcases hover io .remove (List.mem_append_left _ (by simp [hs])) rfl with hstate | hhead
    · exact hstate
    · rw [hs] at hhead
      cases hhead
  refine ⟨hstate, by simp [RegisteredChannel.registered_eq], ?_, ?_⟩
  · by_contra hactive
    obtain ⟨wakeup, hp⟩ := hdispatch (by simpa using hactive)
    exact hphase wakeup hp
  · intro t i hi
    rcases List.mem_append.mp hi with hi | hi
    · by_cases ht : t = io
      · subst ht
        simp at hi
      · simp only [Function.update_of_ne ht] at hi
        have hwork : i ∈ s.work t := List.mem_append_left _ hi
        have hplace := hplaced t i hwork
        have hdirect := hsends.work t i hwork
        cases i with
        | handle cb | changeInterest k => exact absurd hplace ht
        | runInLoop loop f => exact hdirect.1
        | queueInLoop loop f => exact hdirect
        | call f =>
          cases f with
          | sendInLoop p => exact absurd hplace ht
          | _ => rfl
        | _ => rfl
    · obtain ⟨f, hf, rfl⟩ := List.mem_map.mp hi
      exact hsends.queued t f hf

theorem held_run {t : T} {i : Instr T} {o : Outcome} {rest new : List (Instr T)} {c : Shared T}
    (hi : i.keeps = true) (hs : s.stack t = i :: rest) (hover : RemovesWhenOver io s)
    (halone : Alone io s) (hplaced : Placed io main s) (hsends : SendsAtOnce io s)
    (hdispatch : Dispatching io s) (hr : s.toShared.run io main t i o = some (c, new)) :
    Held { s with toShared := c, stack := Function.update s.stack t (new ++ rest) } ∨
      Quiet { s with toShared := c, stack := Function.update s.stack t (new ++ rest) } := by
  have hwork : i ∈ s.work t := List.mem_append_left _ (by simp [hs])
  cases i with
  | remove =>
    right
    obtain rfl : t = io := hplaced t .remove hwork
    exact quiet_remove hs hover halone hplaced hsends hdispatch hr
  | call f =>
    left
    cases f with
    | connectDestroyed =>
      obtain rfl : t = io := hplaced t _ hwork
      have hclosed : s.conn.connected = false := by
        rcases hover t _ hwork rfl with hstate | hhead
        · simpa [TcpConnection.connected] using hstate
        · rw [hs] at hhead
          cases hhead
      cases hr
      refine Or.inr ⟨t, .remove, ?_, rfl⟩
      simp [ConnectionRun.work, hclosed]
    | _ => cases hi
  | queueInLoop loop cb => cases hr
  | _ => cases hi

theorem held_own {l : RunLabel T} (h : Held s) (hover : RemovesWhenOver io s)
    (halone : Alone io s) (hplaced : Placed io main s) (hsends : SendsAtOnce io s)
    (hdispatch : Dispatching io s) (hs : Steps io main s l s') : Held s' ∨ Quiet s' := by
  rcases h with hin | ⟨t, i, hi, hkeeps⟩
  · left
    cases hs with
    | run t o i rest c new hs hr =>
      rcases inConnections_of_run hr with hsame | hmem
      · exact Or.inl (hsame.trans hin)
      · exact Or.inr ⟨t, .queueInLoop io .connectDestroyed,
          List.mem_append_left _ (by simp [hmem]), rfl⟩
    | _ => exact Or.inl hin
  · rcases mem_work_step hs hi with hi | ⟨o, rfl, hhead⟩
    · exact Or.inl (Or.inr ⟨t, i, hi, hkeeps⟩)
    · cases hs with
      | run _ _ j rest c new hs hr =>
        obtain rfl : j = i := by simpa [hs] using hhead
        exact held_run hkeeps hs hover halone hplaced hsends hdispatch hr
      | queue _ _ loop cb rest hs =>
        obtain rfl : .queueInLoop loop cb = i := by simpa [hs] using hhead
        obtain ⟨w, -, hwork⟩ := queues_queue hs
        refine Or.inl (Or.inr ⟨loop, .call cb, ?_, ?_⟩)
        · rw [hwork loop]
          simp
        · cases cb <;> first | rfl | cases hkeeps
      | wakeup _ _ loop rest hs =>
        obtain rfl : .wakeup loop = i := by simpa [hs] using hhead
        cases hkeeps

theorem held_step {hl : HostLabel T} (h : Held s) (hover : RemovesWhenOver io s)
    (halone : Alone io s) (hplaced : Placed io main s) (hsends : SendsAtOnce io s)
    (hdispatch : Dispatching io s) (hgood : OnOwnThread io s hl)
    (hs : HostSteps io main s hl s') : Held s' ∨ Quiet s' := by
  rcases hs.split with ⟨l, rfl, -, hown⟩ | ⟨-, t, old, new, hinter, -⟩ | ⟨rfl, -⟩
  · exact held_own h hover halone hplaced hsends hdispatch hown
  · left
    rcases h with hin | ⟨u, i, hi, hkeeps⟩
    · exact Or.inl (hinter.inConnections.trans hin)
    · have hforeign : i.foreign = false := by
        cases i with
        | call f | queueInLoop loop f => cases f <;> first | rfl | cases hkeeps
        | wakeup loop => cases hkeeps
        | _ => rfl
      exact Or.inr ⟨u, i, hinter.mem_kept hforeign hi, hkeeps⟩
  · exact hgood.elim

/-! ## Nothing registers the channel again -/

theorem touches_of_follows {t : T} {i j : Instr T} {o : Outcome} {c : Shared T}
    {new : List (Instr T)} (hclosed : s.conn.connected = false) (hest : i.establishes = false)
    (hi : i.touches = false) (hr : s.toShared.run io main t i o = some (c, new)) (hj : j ∈ new) :
    j.touches = false := by
  cases Shared.follows_of_run hr hj with
  | run_call | run_queue => exact hi
  | send_call p | send_run p =>
    simp only [Shared.run, hclosed] at hr
    cases hr
    cases hj
  | destroy_disable =>
    cases hr
    simp [hclosed] at hj
  | establish_enable => cases hest
  | sent_queue p g hg | sentFile_queue _ _ _ g hg | write_queue g hg =>
    exact Functor.isSend_of_followsUp hg
  | close_disable | read_close => cases hi
  | _ => rfl

omit [DecidableEq T] in
theorem unregistered_of_changes {i : Instr T} {o : Outcome} {s c : Shared T}
    (h : s.conn.channel_.registered = none) (hi : i.touches = false)
    (hc : Shared.Changes s c o i) : c.conn.channel_.registered = none := by
  cases hc with
  | send | write | interest => cases hi
  | remove hc =>
    rw [hc]
    simp [RegisteredChannel.registered_eq]
  | sendFile fileDescriptor offset count hc =>
    rwa [hc, TcpConnection.sendFileInLoop_channel]
  | shutdown hc => rwa [hc, TcpConnection.shutdownInLoop_channel]
  | drained hc => rwa [hc, TcpConnection.halfCloseIfDisconnecting_channel]
  | state state hc | same i hc =>
    rw [hc]
    exact h

theorem quiet_step {hl : HostLabel T} (h : Quiet s)
    (hest : ∀ t, ∀ i ∈ s.work t, i.establishes = false) (hgood : OnOwnThread io s hl)
    (hs : HostSteps io main s hl s') : Quiet s' := by
  have hclosed : s.conn.connected = false := by simpa [TcpConnection.connected] using h.state
  refine ⟨state_host h.state hest hs, ?_, ?_, ?_⟩
  · rcases hs.split with ⟨l, rfl, -, hown⟩ | ⟨-, t, old, new, hinter, -⟩ | ⟨rfl, -⟩
    · cases hown with
      | run t o i rest c new htop hr =>
        have hi : i ∈ s.work t := List.mem_append_left _ (by simp [htop])
        exact unregistered_of_changes h.unregistered (h.untouched t i hi)
          (Shared.changes_of_run hr)
      | report wakeup revents mask loop htop hm hr ha =>
        rw [h.unregistered] at hm
        cases hm
      | _ => exact h.unregistered
    · rw [hinter.conn]
      exact h.unregistered
    · exact hgood.elim
  · rcases hs.split with ⟨l, rfl, -, hown⟩ | ⟨-, t, old, new, hinter, -⟩ | ⟨rfl, -⟩
    · cases hown with
      | report wakeup revents mask loop htop hm hr ha =>
        rw [h.unregistered] at hm
        cases hm
      | handleEvent htop hact => rfl
      | _ => exact h.inactive
    · exact hinter.active.trans h.inactive
    · exact hgood.elim
  · refine hs.forall_work (P := fun _ i => i.touches = false) h.untouched ?_ ?_ (fun _ => rfl)
      (fun _ _ _ => id) ?_ ?_ ?_
    · intro t o i new hhead hi hr _ j hj
      obtain ⟨rest, htop⟩ := List.head?_eq_some_iff.mp hhead
      have hwork : i ∈ s.work t := List.mem_append_left _ (by simp [htop])
      exact touches_of_follows hclosed (hest t i hwork) hi hr hj
    · intro t i hi
      cases i with
      | call f | queueInLoop loop f => cases f <;> first | rfl | cases hi
      | wakeup loop => rfl
      | _ => cases hi
    · intro hact
      rw [h.inactive] at hact
      cases hact
    · intro t c _ _ i hi
      cases userInstr_of_mem_code hi <;> rfl
    · rintro rfl
      exact hgood.elim

/-! ## The whole run -/

/-- What holds from the first callback on. -/
structure Retained (io : T) (s : ConnectionRun T) : Prop where
  established : ∀ t, ∀ i ∈ s.work t, i.establishes = false
  removal : RemovesWhenOver io s
  alone : Alone io s
  held : Held s ∨ Quiet s

theorem inConnections_arriving {hl : HostLabel T} (h : Arriving io main s)
    (hin : s.inConnections = true) (hgood : OnOwnThread io s hl)
    (hs : HostSteps io main s hl s') : s'.inConnections = true := by
  obtain ⟨t, w, before, after, hp⟩ := h.place
  rcases hs.split with ⟨l, rfl, -, hown⟩ | ⟨-, u, old, new, hinter, -⟩ | ⟨rfl, -⟩
  · cases hown with
    | run u o i rest c new htop hr =>
      have hi : i ≠ .call .removeConnectionInLoop := by
        rintro rfl
        rcases hp.head htop with ⟨hspare, -⟩ | ⟨-, -, w', rfl⟩
        · cases hspare with
          | foreign _ hf => cases hf
        · exact nomatch hp.establishing
      exact ((Shared.frame_of_run hr).inConnections hi).trans hin
    | _ => exact hin
  · exact hinter.inConnections.trans hin
  · exact hgood.elim

omit [DecidableEq T] in
theorem retained_arrived (h : Arrived io s) (hin : s.inConnections = true) : Retained io s := by
  have hremoves : ∀ t, ∀ i ∈ s.work t, i.removes = false := by
    intro t i hi
    rcases h.work t i hi with hspare | rfl | ⟨-, -, hc⟩
    · cases hspare with
      | foreign _ hf =>
        cases i with
        | call f | queueInLoop loop f => cases f <;> first | rfl | cases hf
        | wakeup loop => rfl
        | _ => cases hf
      | release => rfl
      | runInLoop ht hc | queueInLoop ht hc =>
        rw [hin] at hc
        cases hc
    · rfl
    · rw [hin] at hc
      cases hc
  refine ⟨h.established, ?_, ?_, Or.inl (Or.inl hin)⟩
  · intro t i hi hrem
    rw [hremoves t i hi] at hrem
    cases hrem
  · intro i hi hremoval
    have hnone := hremoves io i (List.mem_append_left _ hi)
    rcases hremoval with rfl | rfl <;> cases hnone

theorem retained_step {hl : HostLabel T} (h : Retained io s) (hplaced : Placed io main s)
    (hsends : SendsAtOnce io s) (hdispatch : Dispatching io s) (hgood : OnOwnThread io s hl)
    (hs : HostSteps io main s hl s') : Retained io s' := by
  refine ⟨established_host h.established hs,
    removesWhenOver_step h.removal h.established hplaced hgood hs,
    alone_step h.alone h.removal hsends.work hgood hs, ?_⟩
  rcases h.held with hheld | hquiet
  · exact held_step hheld h.removal h.alone hplaced hsends hdispatch hgood hs
  · exact Or.inr (quiet_step hquiet h.established hgood hs)

omit [DecidableEq T] in
theorem Retained.alive (h : Retained io s) (hplaced : Placed io main s)
    (hdispatch : Dispatching io s) (hactive : s.active = true) : s.Alive := by
  obtain ⟨wakeup, hp⟩ := hdispatch hactive
  rcases h.held with (hin | ⟨t, i, hi, hkeeps⟩) | hquiet
  · exact Or.inl hin
  · rcases List.mem_append.mp hi with hi | hi
    · have hnot : t = io → i ≠ .call .connectDestroyed ∧ i ≠ .remove := by
        rintro rfl
        constructor <;> rintro rfl
        · exact (h.alone _ hi (Or.inl rfl)).2 wakeup hp
        · exact (h.alone _ hi (Or.inr rfl)).2 wakeup hp
      have hplace := hplaced t i (List.mem_append_left _ hi)
      cases i with
      | queueInLoop loop f =>
        cases f with
        | connectDestroyed => exact Or.inr (Or.inl ⟨t, _, hi, rfl⟩)
        | _ => cases hkeeps
      | call f =>
        cases f with
        | connectDestroyed => exact absurd rfl (hnot hplace).1
        | _ => cases hkeeps
      | remove => exact absurd rfl (hnot hplace).2
      | _ => cases hkeeps
    · obtain ⟨f, hf, rfl⟩ := List.mem_map.mp hi
      cases f with
      | connectDestroyed =>
        exact Or.inr (Or.inr ⟨t, _, EventLoop.mem_held_of_mem_queued hf, rfl⟩)
      | _ => cases hkeeps
  · rw [hquiet.inactive] at hactive
    cases hactive

/-- In a run that is not destroyed, a channel that waits to be handled belongs
to a connection that exists. -/
theorem alive_of_active (h : (hosted io main).Reachable (OnOwnThread io) s)
    (hactive : s.active = true) : s.Alive := by
  have hsides : ∀ r, (hosted io main).Reachable (OnOwnThread io) r →
      Placed io main r ∧ SendsAtOnce io r ∧ Dispatching io r := by
    intro r hr
    refine hr.invariant
      (I := fun r => Placed io main r ∧ SendsAtOnce io r ∧ Dispatching io r) ?_ ?_
    · intro r hinit
      refine ⟨placed_hostInit hinit, sendsAtOnce_init hinit, ?_⟩
      intro hact
      rw [hinit.active] at hact
      cases hact
    · rintro r hl r' ⟨hplaced, hsends, hdispatch⟩ hgood hs
      exact ⟨placed_host hplaced hs, sendsAtOnce_step hsends hgood hs,
        dispatching_step hdispatch hs⟩
  have hphase : (Arriving io main s ∧ s.inConnections = true) ∨ Retained io s := by
    refine h.invariant_of hsides
      (I := fun r => (Arriving io main r ∧ r.inConnections = true) ∨ Retained io r) ?_ ?_
    · intro r hinit
      exact Or.inl ⟨arriving_init hinit, hinit.inConnections⟩
    · rintro r hl r' (⟨harr, hin⟩ | hret) ⟨hplaced, hsends, hdispatch⟩ hgood hs
      · have hin' := inConnections_arriving harr hin hgood hs
        rcases arriving_step harr hs with harr' | harr'
        · exact Or.inl ⟨harr', hin'⟩
        · exact Or.inr (retained_arrived harr' hin')
      · exact Or.inr (retained_step hret hplaced hsends hdispatch hgood hs)
  obtain ⟨hplaced, -, hdispatch⟩ := hsides s h
  rcases hphase with ⟨harr, -⟩ | hret
  · rw [harr.active] at hactive
    cases hactive
  · exact hret.alive hplaced hdispatch hactive

end ConnectionRun
end MuduoCore
