import MuduoCore.Connection.Placement

/-!
# From `newConnection` to the first callback

The instructions that can lead to a callback about the connection are followed
through all threads: one thread has them, and no other. Until the first
callback they are those of `connectEstablished`, and no code of a user uses the
connection; after it, nothing makes the connection `kConnected` again.
-/

namespace MuduoCore

def Functor.lifecycle {P : Type*} : Functor P → Bool
  | connectEstablished | connectDestroyed | removeConnectionInLoop => true
  | _ => false

def Functor.establishes {P : Type*} : Functor P → Bool
  | connectEstablished => true
  | _ => false

/-- The functor can be queued before the first callback. -/
def Functor.early {P : Type*} : Functor P → Bool
  | other => true
  | f => f.lifecycle

/-- The instruction is on the way to a callback about the connection. -/
def Instr.protocol {T : Type*} : Instr T → Bool
  | runInLoop _ f | queueInLoop _ f | call f => f.lifecycle
  | setState state => state ≠ .kDisconnecting
  | handle cb => cb = .closeCallback || cb = .readCallback
  | changeInterest _ | remove | connectionCallback | messageCallback | closeCallback => true
  | send _ | sendFile _ _ _ | shutdown | wakeup _ | drained | user | release => false

/-- The instruction can stand in the work of a thread before the first callback. -/
def Instr.early {T : Type*} : Instr T → Bool
  | runInLoop _ f | queueInLoop _ f | call f => f.early
  | wakeup _ | release => true
  | i => i.protocol

/-- The instruction makes the connection `kConnected`, or leads to that; nothing
makes it `kConnecting` again. -/
def Instr.establishes {T : Type*} : Instr T → Bool
  | runInLoop _ f | queueInLoop _ f | call f => f.establishes
  | setState state => state = .kConnecting || state = .kConnected
  | _ => false

theorem Instr.protocol_of_establishes {T : Type*} {i : Instr T} (h : i.establishes = true) :
    i.protocol = true := by
  cases i with
  | runInLoop loop f | queueInLoop loop f | call f =>
    cases f <;> simp_all [establishes, protocol, Functor.establishes, Functor.lifecycle]
  | setState state => cases state <;> simp_all [establishes, protocol]
  | _ => simp_all [establishes]

theorem protocol_queue_followsUp {T : Type*} {loop : T} {f : Functor (Payload T)}
    (h : f.followsUp = true) : (Instr.queueInLoop loop f).protocol = false := by
  cases f <;> simp_all [Functor.followsUp, Instr.protocol, Functor.lifecycle]

theorem protocol_of_follows {T : Type*} {io main t : T} {i j : Instr T}
    (h : Shared.Follows io main t i j) (hj : j.protocol = true) : i.protocol = true := by
  cases h with
  | run_call | run_queue => exact hj
  | sent_queue p g hg | sentFile_queue _ _ _ g hg | write_queue g hg =>
    rw [protocol_queue_followsUp hg] at hj
    cases hj
  | establish_store | establish_enable | establish_callback | destroy_store | destroy_disable
  | destroy_callback | destroy_remove | remove_queue | close_store | close_disable
  | close_callback | close_remove | read_close | read_message | closeCallback_run => rfl
  | _ => cases hj

theorem establishes_of_follows {T : Type*} {io main t : T} {i j : Instr T}
    (h : Shared.Follows io main t i j) (hj : j.establishes = true) : i.establishes = true := by
  have hprotocol := Instr.protocol_of_establishes hj
  cases h with
  | run_call | run_queue => exact hj
  | establish_store => rfl
  | sent_queue p g hg | sentFile_queue _ _ _ g hg | write_queue g hg =>
    rw [protocol_queue_followsUp hg] at hprotocol
    cases hprotocol
  | _ => cases hj

theorem early_of_follows {T : Type*} {io main t : T} {i j : Instr T}
    (h : Shared.Follows io main t i j) (hi : i.early = true) :
    j.early = true ∨ i = .connectionCallback ∨ i = .messageCallback := by
  cases h with
  | connectionCallback_user => exact Or.inr (Or.inl rfl)
  | messageCallback_user => exact Or.inr (Or.inr rfl)
  | run_call | run_queue => exact Or.inl hi
  | send_call | send_run | sendFile_call | sendFile_run | shutdown_store | shutdown_run
  | sent_queue | sentFile_queue | writeComplete_user | highWaterMark_user | write_drained
  | write_queue => cases hi
  | _ => exact Or.inl rfl

namespace ConnectionRun

variable {T : Type*} [DecidableEq T] {io main : T} {s s' : ConnectionRun T}

/-! ## One thread has the protocol -/

/-- The instructions on the way to a callback are `w`, all in the work of `t`. -/
def Only (s : ConnectionRun T) (t : T) (w : List (Instr T)) : Prop :=
  ∀ u, (s.work u).filter Instr.protocol = if u = t then w else []

theorem Only.replaces {t u : T} {w old new : List (Instr T)} (h : Only s t w)
    (hr : Replaces s s' u old new)
    (hsame : new.filter Instr.protocol = old.filter Instr.protocol) : Only s' t w := by
  obtain ⟨rest, hold, hnew, hother⟩ := hr
  intro v
  rw [← h v]
  by_cases hv : v = u
  · subst hv
    rw [hold, hnew, List.filter_append, List.filter_append, hsame]
  · rw [hother v hv]

theorem Only.head {t u : T} {w rest : List (Instr T)} {i : Instr T} (h : Only s t w)
    (hwork : s.work u = i :: rest) (hi : i.protocol = true) :
    u = t ∧ w = i :: rest.filter Instr.protocol := by
  have hu := h u
  rw [hwork, List.filter_cons_of_pos hi] at hu
  by_cases ht : u = t
  · rw [if_pos ht] at hu
    exact ⟨ht, hu.symm⟩
  · rw [if_neg ht] at hu
    cases hu

theorem Only.run_head {t u : T} {w rest : List (Instr T)} {i : Instr T} (h : Only s t w)
    (hs : s.stack u = i :: rest) (hi : i.protocol = true) (c : Shared T)
    (new : List (Instr T)) : u = t ∧ ∃ w', w = i :: w' ∧
      Only { s with toShared := c, stack := Function.update s.stack u (new ++ rest) } t
        (new.filter Instr.protocol ++ w') := by
  obtain ⟨rest, hold, hnew, hother⟩ : Replaces s
    { s with toShared := c, stack := Function.update s.stack u (new ++ rest) } u [i] new :=
    replaces_run hs
  obtain ⟨rfl, hw⟩ := h.head hold hi
  refine ⟨rfl, _, hw, ?_⟩
  intro v
  by_cases hv : v = u
  · rw [if_pos hv, hv, hnew, List.filter_append]
    rfl
  · have hrest := h v
    rw [if_neg hv] at hrest ⊢
    rw [hother v hv, hrest]

theorem Only.push {t : T} {new : List (Instr T)} (h : Only s t [])
    (hr : Replaces s s' t [] new) : Only s' t (new.filter Instr.protocol) := by
  obtain ⟨rest, hold, hnew, hother⟩ := hr
  intro v
  have hv := h v
  rw [ite_self] at hv
  by_cases ht : v = t
  · subst ht
    rw [hold, List.nil_append] at hv
    rw [if_pos rfl, hnew, List.filter_append, hv, List.append_nil]
  · rw [if_neg ht, hother v ht, hv]

omit [DecidableEq T] in
theorem protocol_destructor (cb : Functor (Payload T)) :
    (cb.destructor : List (Instr T)).filter Instr.protocol = [] := by
  unfold Functor.destructor
  split_ifs <;> rfl

theorem Only.queue_head {t u loop : T} {w : List (Instr T)} {cb : Functor (Payload T)}
    (h : Only s t w) (hq : Queues s s' u loop cb) (hcb : cb.lifecycle = true) :
    u = t ∧ ∃ w', w = .queueInLoop loop cb :: w' ∧ (w' = [] → Only s' loop [.call cb]) := by
  obtain ⟨rest, hold, hwork⟩ := hq
  obtain ⟨rfl, hw⟩ := h.head hold hcb
  refine ⟨rfl, _, hw, ?_⟩
  intro hrest v
  have hleft : (if v = u then .wakeup loop :: cb.destructor ++ rest else s.work v).filter
      Instr.protocol = [] := by
    by_cases hv : v = u
    · simp [hv, Instr.protocol, protocol_destructor, hrest]
    · have hother := h v
      rwa [if_neg hv] at hother ⊢
  rw [hwork v, List.filter_append, hleft]
  split_ifs <;> simp [Instr.protocol, hcb]

theorem Only.queue_other {t u loop : T} {w : List (Instr T)} {cb : Functor (Payload T)}
    (h : Only s t w) (hq : Queues s s' u loop cb) (hcb : cb.lifecycle = false) : Only s' t w := by
  obtain ⟨rest, hold, hwork⟩ := hq
  intro v
  have hcall : (if v = loop then [Instr.call cb] else []).filter Instr.protocol = [] := by
    split_ifs <;> simp [Instr.protocol, hcb]
  have hleft : (if v = u then .wakeup loop :: cb.destructor ++ rest else s.work v).filter
      Instr.protocol = (s.work v).filter Instr.protocol := by
    by_cases hv : v = u
    · simp [hv, hold, Instr.protocol, protocol_destructor, hcb]
    · rw [if_neg hv]
  rw [hwork v, List.filter_append, hcall, hleft, List.append_nil]
  exact h v

/-- What is not on the way to a callback leaves nothing that is. -/
theorem protocol_new {t : T} {i : Instr T} {o : Outcome} {c : Shared T} {new : List (Instr T)}
    (h : s.toShared.run io main t i o = some (c, new)) (hi : i.protocol = false) :
    new.filter Instr.protocol = [] := by
  apply List.filter_eq_nil_iff.mpr
  intro j hj hp
  rw [protocol_of_follows (Shared.follows_of_run h hj) hp] at hi
  cases hi

theorem Only.run_other {t u : T} {w rest new : List (Instr T)} {i : Instr T} {o : Outcome}
    {c : Shared T} (h : Only s t w) (hs : s.stack u = i :: rest)
    (hr : s.toShared.run io main u i o = some (c, new)) (hi : i.protocol = false) :
    Only { s with toShared := c, stack := Function.update s.stack u (new ++ rest) } t w := by
  apply h.replaces (replaces_run hs)
  rw [protocol_new hr hi, List.filter_cons_of_neg (by simp [hi]), List.filter_nil]

omit [DecidableEq T] in
theorem protocol_code (t : T) (c : UserCall T) : (s.code t c).filter Instr.protocol = [] := by
  cases c <;> rfl

theorem Only.idle_step {t : T} {w : List (Instr T)} {l : RunLabel T} (h : Only s t w)
    (hs : Steps io main s l s') (hexec : ∀ u o, l ≠ .exec u o) (hevent : l ≠ .handleEvent) :
    Only s' t w := by
  cases hs with
  | run u o => exact absurd rfl (hexec u o)
  | queue u o => exact absurd rfl (hexec u o)
  | wakeup u o => exact absurd rfl (hexec u o)
  | handleEvent => exact absurd rfl hevent
  | control u c loop hs hact ha =>
    intro v
    rw [work_control hs ha]
    exact h v
  | report wakeup revents mask loop hs hm hr ha =>
    intro v
    rw [work_report ha]
    exact h v
  | call u c hu => exact h.replaces (replaces_push s u (s.code u c) s.active) (protocol_code u c)
  | store u address value hu => exact h

omit [DecidableEq T] in
theorem exists_call_of_mem_work {t : T} {i : Instr T} (hs : s.stack t = []) (h : i ∈ s.work t) :
    ∃ f, i = .call f := by
  rw [work, hs, List.nil_append] at h
  obtain ⟨f, _, rfl⟩ := List.mem_map.mp h
  exact ⟨f, rfl⟩

theorem Only.mem_work {t : T} {w : List (Instr T)} {i : Instr T} (h : Only s t w) (hi : i ∈ w) :
    i ∈ s.work t := by
  have ht := h t
  rw [if_pos rfl] at ht
  rw [← ht] at hi
  exact List.mem_of_mem_filter hi

/-! ## Before the first callback -/

/-- What is left of the establishment, on which thread, and how far it has got. -/
inductive Establishing (io : T) (c : TcpConnection) : T → List (Instr T) → Prop
  | runInLoop (t : T) (hc : c.Unwatched) : Establishing io c t [.runInLoop io .connectEstablished]
  | queueInLoop (t : T) (hc : c.Unwatched) :
      Establishing io c t [.queueInLoop io .connectEstablished]
  | call (hc : c.Unwatched) : Establishing io c io [.call .connectEstablished]
  | setState (hc : c.Unwatched) : Establishing io c io
      [.setState .kConnected, .changeInterest .enableReading, .connectionCallback]
  | enableReading (hc : c.Unwatched) (hs : c.state_ = .kConnected) :
      Establishing io c io [.changeInterest .enableReading, .connectionCallback]
  | connectionCallback (hc : c.Reading) (hs : c.state_ = .kConnected) :
      Establishing io c io [.connectionCallback]

structure BeforeUp (io : T) (s : ConnectionRun T) : Prop where
  callbacks : s.callbacks = []
  closeCallbacks : s.closeCallbacks = 0
  closing : s.closing = false
  active : s.active = false
  early : ∀ t, ∀ i ∈ s.work t, i.early = true
  establishing : ∃ t w, Only s t w ∧ Establishing io s.conn t w

structure JustUp (io : T) (s : ConnectionRun T) : Prop where
  callbacks : s.callbacks = [.connection true]
  closeCallbacks : s.closeCallbacks = 0
  closing : s.closing = false
  active : s.active = false
  state : s.conn.state_ = .kConnected
  reading : s.conn.Reading
  only : Only s io []

theorem beforeUp_init (h : Init io main s) : BeforeUp io s := by
  refine ⟨h.callbacks, h.closeCallbacks, h.closing, h.active, ?_, ?_⟩
  · intro t i hi
    rcases h.mem_work hi with ⟨_, rfl⟩ | rfl | rfl <;> rfl
  · refine ⟨main, _, ?_, .runInLoop main h.conn.unwatched⟩
    · intro u
      have hcalls : (calls (s.loops u).queued).filter Instr.protocol = [] := by
        apply List.filter_eq_nil_iff.mpr
        intro i hi
        obtain ⟨f, hf, rfl⟩ := List.mem_map.mp hi
        rw [h.held u f (EventLoop.mem_held_of_mem_queued hf)]
        simp [Instr.protocol, Functor.lifecycle]
      rw [work, List.filter_append, hcalls, List.append_nil]
      by_cases hu : u = main
      · rw [if_pos hu, hu, h.mainStack]
        rfl
      · rw [if_neg hu, h.otherStacks u hu]
        rfl

/-- The next instruction of the establishment goes on with it, or is the callback. -/
theorem establishing_run {t : T} {i : Instr T} {o : Outcome} {s c : Shared T}
    {w new : List (Instr T)} (h : Establishing io s.conn t (i :: w))
    (hr : s.run io main t i o = some (c, new)) :
    (Establishing io c.conn t (new.filter Instr.protocol ++ w) ∧
      c = { s with conn := c.conn }) ∨
    (t = io ∧ s.conn.state_ = .kConnected ∧ s.conn.Reading ∧
      new.filter Instr.protocol ++ w = [] ∧
      c = { s with callbacks := s.callbacks ++ [.connection true] }) := by
  cases h with
  | runInLoop _ hc =>
    left
    cases hr
    refine ⟨?_, rfl⟩
    split_ifs with ht
    · subst ht
      exact .call hc
    · exact .queueInLoop t hc
  | queueInLoop _ hc => cases hr
  | call hc =>
    left
    cases hr
    exact ⟨.setState hc, rfl⟩
  | setState hc =>
    left
    cases hr
    exact ⟨.enableReading hc rfl, rfl⟩
  | enableReading hc hs =>
    left
    cases hr
    exact ⟨.connectionCallback s.conn.reading_enableReading hs, rfl⟩
  | connectionCallback hc hs =>
    right
    cases hr
    refine ⟨rfl, hs, hc, rfl, ?_⟩
    simp [TcpConnection.connected, hs]

theorem early_step {l : RunLabel T} (h : BeforeUp io s) (hp : s.Permitted l)
    (hs : Steps io main s l s') (hnone : s'.callbacks = []) :
    ∀ t, ∀ i ∈ s'.work t, i.early = true := by
  apply hs.forall_work (P := fun _ i => i.early = true) h.early
  · intro t o i new _ hi hr _ j hj
    rcases early_of_follows (Shared.follows_of_run hr hj) hi with he | rfl | rfl
    · exact he
    · simp only [Shared.run, Option.some.injEq, Prod.mk.injEq] at hr
      simp [← hr.1] at hnone
    · simp only [Shared.run, Option.some.injEq, Prod.mk.injEq] at hr
      simp [← hr.1] at hnone
  · exact fun _ _ => rfl
  · exact fun _ => rfl
  · exact fun _ _ _ => id
  · intro hact
    rw [h.active] at hact
    cases hact
  · rintro t c rfl i hi
    cases c with
    | queueInLoop loop =>
      rw [List.mem_singleton.mp hi]
      rfl
    | _ => exact absurd h.callbacks hp.1

theorem early_run {t : T} {i : Instr T} {o : Outcome} {s c : Shared T} {new : List (Instr T)}
    (hi : i.early = true) (hp : i.protocol = false) (hr : s.run io main t i o = some (c, new)) :
    c = s := by
  cases i with
  | call f =>
    cases f with
    | other =>
      cases hr
      rfl
    | _ => simp_all [Instr.early, Instr.protocol, Functor.early, Functor.lifecycle]
  | runInLoop loop f | release =>
    cases hr
    rfl
  | queueInLoop loop f => cases hr
  | wakeup loop => cases hr
  | _ => simp_all [Instr.early, Instr.protocol]

theorem BeforeUp.of_same (h : BeforeUp io s) (hshared : s'.toShared = s.toShared)
    (hactive : s'.active = s.active) (hearly : ∀ t, ∀ i ∈ s'.work t, i.early = true)
    (hest : ∃ t w, Only s' t w ∧ Establishing io s.conn t w) : BeforeUp io s' where
  callbacks := hshared ▸ h.callbacks
  closeCallbacks := hshared ▸ h.closeCallbacks
  closing := hshared ▸ h.closing
  active := hactive.trans h.active
  early := hearly
  establishing := hshared ▸ hest

theorem beforeUp_run {t : T} {i : Instr T} {o : Outcome} {rest new : List (Instr T)}
    {c : Shared T} (h : BeforeUp io s) (hs : s.stack t = i :: rest)
    (hr : s.toShared.run io main t i o = some (c, new))
    (hearly : c.callbacks = [] → ∀ u, ∀ j ∈ work { s with
      toShared := c, stack := Function.update s.stack t (new ++ rest) } u, j.early = true) :
    BeforeUp io { s with toShared := c, stack := Function.update s.stack t (new ++ rest) } ∨
      JustUp io { s with toShared := c, stack := Function.update s.stack t (new ++ rest) } := by
  obtain ⟨u, w, honly, hest⟩ := h.establishing
  cases hi : i.protocol with
  | true =>
    obtain ⟨rfl, w', rfl, honly'⟩ := honly.run_head hs hi c new
    rcases establishing_run hest hr with ⟨hest', hc⟩ | ⟨rfl, hstate, hread, hw, hc⟩
    · left
      have hnone : c.callbacks = [] := by
        rw [hc]
        exact h.callbacks
      refine ⟨hnone, ?_, ?_, h.active, hearly hnone, t, _, honly', hest'⟩
      · rw [hc]
        exact h.closeCallbacks
      · rw [hc]
        exact h.closing
    · right
      rw [hw] at honly'
      subst hc
      exact ⟨by simp [h.callbacks], h.closeCallbacks, h.closing, h.active, hstate, hread, honly'⟩
  | false =>
    left
    have hsame := early_run (h.early t i (by simp [work, hs])) hi hr
    subst hsame
    exact h.of_same rfl rfl (hearly h.callbacks) ⟨u, w, honly.run_other hs hr hi, hest⟩

/-- Until the first callback the kernel reports nothing of the connection. -/
theorem BeforeUp.no_report (h : BeforeUp io s) (hs : s.stack io = []) :
    s.conn.channel_.registered = none := by
  obtain ⟨t, w, honly, hest⟩ := h.establishing
  cases hest with
  | connectionCallback hc hstate =>
    obtain ⟨f, hf⟩ := exists_call_of_mem_work hs (honly.mem_work (List.mem_singleton.mpr rfl))
    cases hf
  | _ => exact TcpConnection.Unwatched.registered ‹_›

theorem beforeUp_step {l : RunLabel T} (h : BeforeUp io s) (hp : s.Permitted l)
    (hs : Steps io main s l s') : BeforeUp io s' ∨ JustUp io s' := by
  have hearly := early_step h hp hs
  obtain ⟨u, w, honly, hest⟩ := h.establishing
  have hidle := honly.idle_step hs
  cases hs with
  | run t o i rest c new hs hr => exact beforeUp_run h hs hr hearly
  | queue t o loop cb rest hs =>
    left
    refine h.of_same rfl rfl (hearly h.callbacks) ?_
    cases hcb : cb.lifecycle with
    | true =>
      obtain ⟨rfl, w', rfl, honly'⟩ := honly.queue_head (queues_queue hs) hcb
      cases hest with
      | queueInLoop _ hc => exact ⟨io, _, honly' rfl, .call hc⟩
    | false => exact ⟨u, w, honly.queue_other (queues_queue hs) hcb, hest⟩
  | wakeup t o loop rest hs =>
    left
    exact h.of_same rfl rfl (hearly h.callbacks)
      ⟨u, w, honly.replaces (replaces_wakeup hs) rfl, hest⟩
  | report wakeup revents mask loop hs hm hr ha =>
    rw [h.no_report hs] at hm
    cases hm
  | handleEvent hs hact =>
    rw [h.active] at hact
    cases hact
  | control t c loop hs hact ha =>
    left
    exact h.of_same rfl rfl (hearly h.callbacks) ⟨u, w, hidle (by simp) (by simp), hest⟩
  | call t c hu =>
    left
    exact h.of_same rfl rfl (hearly h.callbacks) ⟨u, w, hidle (by simp) (by simp), hest⟩
  | store t address value hu =>
    left
    exact ⟨h.callbacks, h.closeCallbacks, h.closing, h.active, hearly h.callbacks, u, w,
      hidle (by simp) (by simp), hest⟩

/-! ## After it -/

/-- There has been a callback, and nothing makes the connection `kConnected`. -/
structure AfterUp (s : ConnectionRun T) : Prop where
  callbacks : s.callbacks ≠ []
  established : ∀ t, ∀ i ∈ s.work t, i.establishes = false

theorem JustUp.afterUp (h : JustUp io s) : AfterUp s := by
  refine ⟨by simp [h.callbacks], ?_⟩
  intro t i hi
  have ht := h.only t
  rw [ite_self] at ht
  have hnone := List.filter_eq_nil_iff.mp ht i hi
  cases he : i.establishes with
  | false => rfl
  | true => exact absurd (Instr.protocol_of_establishes he) hnone

theorem callbacks_of_run {t : T} {i : Instr T} {o : Outcome} {s c : Shared T}
    {new : List (Instr T)} (h : s.run io main t i o = some (c, new)) :
    s.callbacks <+: c.callbacks := by
  by_cases hc : i = .connectionCallback
  · subst hc
    cases h
    exact List.prefix_append _ _
  · by_cases hm : i = .messageCallback
    · subst hm
      cases h
      exact List.prefix_append _ _
    · rw [(Shared.frame_of_run h).callbacks hc hm]

theorem not_establishes_of_run {t : T} {i : Instr T} {o : Outcome} {s c : Shared T}
    {new : List (Instr T)} (hr : s.run io main t i o = some (c, new))
    (hi : i.establishes = false) : ∀ j ∈ new, j.establishes = false := by
  intro j hj
  cases he : j.establishes with
  | false => rfl
  | true =>
    rw [establishes_of_follows (Shared.follows_of_run hr hj) he] at hi
    cases hi

theorem established_step {l : RunLabel T} (h : ∀ t, ∀ i ∈ s.work t, i.establishes = false)
    (hs : Steps io main s l s') : ∀ t, ∀ i ∈ s'.work t, i.establishes = false := by
  apply hs.forall_work (P := fun _ i => i.establishes = false) h
  · exact fun t o i new _ hi hr _ => not_establishes_of_run hr hi
  · exact fun _ _ => rfl
  · exact fun _ => rfl
  · exact fun _ _ _ => id
  · exact fun _ _ => rfl
  · intro t c _ i hi
    cases userInstr_of_mem_code hi <;> rfl

theorem afterUp_step {l : RunLabel T} (h : AfterUp s) (hs : Steps io main s l s') :
    AfterUp s' := by
  refine ⟨?_, established_step h.established hs⟩
  cases hs with
  | run t o i rest c new hs hr =>
    intro hnone
    have hprefix := callbacks_of_run hr
    rw [show c.callbacks = [] from hnone, List.prefix_nil] at hprefix
    exact h.callbacks hprefix
  | _ => exact h.callbacks

theorem state_of_run {t : T} {i : Instr T} {o : Outcome} {s c : Shared T}
    {new : List (Instr T)} (h : s.conn.state_ ≠ .kConnected) (hi : i.establishes = false)
    (hr : s.run io main t i o = some (c, new)) : c.conn.state_ ≠ .kConnected := by
  by_cases hset : ∃ state, i = .setState state
  · obtain ⟨state, rfl⟩ := hset
    cases hr
    simp only [Instr.establishes, Bool.or_eq_false_iff, decide_eq_false_iff_not] at hi
    exact hi.2
  · simp only [not_exists] at hset
    rwa [(Shared.frame_of_run hr).state hset]

/-- A run is before its first callback or after it. -/
theorem beforeUp_or_afterUp {Good : ConnectionRun T → RunLabel T → Prop}
    (h : (system io main).Reachable Good s) : BeforeUp io s ∨ AfterUp s := by
  apply h.invariant
  · intro s hinit
    exact Or.inl (beforeUp_init hinit)
  · rintro s l s' (hbefore | hafter) _ hs
    · rcases beforeUp_step hbefore hs.1 (steps_of_step hs.2) with hb | hj
      · exact Or.inl hb
      · exact Or.inr hj.afterUp
    · exact Or.inr (afterUp_step hafter (steps_of_step hs.2))

end ConnectionRun
end MuduoCore
