import MuduoCore.Connection.Establishment
import MuduoCore.Connection.Hosted

/-!
# The arrival of a connection among others

Up to its first callback there is one thing to do for a connection, and it has
a place: on top of the stack of a thread, or in the queue of the connection's
loop. The server may be destroyed meanwhile; `connectDestroyed` then comes after
`connectEstablished` in the same queue. So the first callback is made before
anything else happens to the connection.
-/

namespace MuduoCore

/-- What may be left to do besides the establishment: nothing of the
connection, unless the destructor of the server has handed on `connectDestroyed`. -/
inductive Spare {T : Type*} (io : T) (inConnections : Bool) (t : T) : Instr T → Prop
  | foreign (i : Instr T) (hi : i.foreign = true) : Spare io inConnections t i
  | release : Spare io inConnections t .release
  | runInLoop (ht : t ≠ io) (hc : inConnections = false) :
      Spare io inConnections t (.runInLoop io .connectDestroyed)
  | queueInLoop (ht : t ≠ io) (hc : inConnections = false) :
      Spare io inConnections t (.queueInLoop io .connectDestroyed)

namespace Spare

variable {T : Type*} {io main t : T} {b : Bool} {i : Instr T}

theorem mono {b' : Bool} (h : Spare io b t i) (hb : b' = true → b = true) :
    Spare io b' t i := by
  have hfalse : b = false → b' = false := by
    intro hf
    cases b' with
    | false => rfl
    | true => exact absurd (hb rfl) (by simp [hf])
  cases h with
  | foreign _ hi => exact .foreign i hi
  | release => exact .release
  | runInLoop ht hc => exact .runInLoop ht (hfalse hc)
  | queueInLoop ht hc => exact .queueInLoop ht (hfalse hc)

theorem not_head {c : TcpConnection} {w : List (Instr T)} (h : Spare io b t i)
    (hest : ConnectionRun.Establishing io c main (i :: w)) : False := by
  cases hest <;> cases h <;> simp_all [Instr.foreign]

theorem queued {loop : T} {cb : Functor (Payload T)} (h : Spare io b t (.queueInLoop loop cb)) :
    cb = .other ∨ cb = .connectDestroyed ∧ loop = io ∧ b = false := by
  cases h with
  | foreign _ hi =>
    left
    cases cb <;> simp_all [Instr.foreign]
  | queueInLoop ht hc => exact Or.inr ⟨rfl, rfl, hc⟩

theorem destructor {cb : Functor (Payload T)} : ∀ j ∈ (cb.destructor : List (Instr T)),
    Spare io b t j := by
  intro j hj
  unfold Functor.destructor at hj
  split_ifs at hj
  · rw [List.mem_singleton.mp hj]
    exact .release
  · cases hj

variable [DecidableEq T]

theorem run {o : Outcome} {s c : Shared T} {new : List (Instr T)} (h : Spare io b t i)
    (hr : s.run io main t i o = some (c, new)) : c = s ∧ ∀ j ∈ new, Spare io b t j := by
  cases h with
  | foreign _ hi =>
    cases i with
    | call f =>
      cases f with
      | other =>
        cases hr
        exact ⟨rfl, by simp⟩
      | _ => cases hi
    | queueInLoop loop cb | wakeup loop => cases hr
    | _ => cases hi
  | release =>
    cases hr
    exact ⟨rfl, by simp⟩
  | runInLoop ht hc =>
    simp only [Shared.run, if_neg ht, Option.some.injEq, Prod.mk.injEq] at hr
    obtain ⟨rfl, rfl⟩ := hr
    refine ⟨rfl, ?_⟩
    intro j hj
    rw [List.mem_singleton.mp hj]
    exact .queueInLoop ht hc
  | queueInLoop ht hc => cases hr

end Spare

namespace ConnectionRun

variable {T : Type*} [DecidableEq T] {io main : T} {s s' : ConnectionRun T}

/-- The establishment `w` is what thread `t` does next, or it waits in the
queue of the loop, with nothing of the connection before it. -/
structure Place (io main : T) (s : ConnectionRun T) (t : T) (w before after : List (Instr T)) :
    Prop where
  establishing : Establishing io s.conn t w
  work : s.work t = before ++ (w ++ after)
  first : (before = [] ∧ ∃ rest, s.stack t = w ++ rest) ∨
    t = io ∧ main ≠ io ∧ w = [.call .connectEstablished]
  thread : t ≠ io → t = main ∧ s.inConnections = true
  queues : w = [.queueInLoop io .connectEstablished] → t ≠ io
  before : ∀ i ∈ before, Spare io s.inConnections t i
  after : ∀ i ∈ after, Spare io s.inConnections t i ∨
    i = .call .connectDestroyed ∧ t = io ∧ s.inConnections = false
  others : ∀ u ≠ t, ∀ i ∈ s.work u, Spare io s.inConnections u i

structure Arriving (io main : T) (s : ConnectionRun T) : Prop where
  callbacks : s.callbacks = []
  closing : s.closing = false
  active : s.active = false
  place : ∃ t w before after, Place io main s t w before after

/-- The first callback has just been made. -/
structure Arrived (io : T) (s : ConnectionRun T) : Prop where
  callbacks : s.callbacks = [.connection true]
  closing : s.closing = false
  active : s.active = false
  state : s.conn.state_ = .kConnected
  reading : s.conn.Reading
  work : ∀ t, ∀ i ∈ s.work t, Spare io s.inConnections t i ∨ i = .user ∨
    i = .call .connectDestroyed ∧ t = io ∧ s.inConnections = false

omit [DecidableEq T] in
theorem arriving_init (h : HostInit io main s) : Arriving io main s := by
  obtain ⟨rest, hs, hrest⟩ := h.mainStack
  have hspare : ∀ t, ∀ f ∈ (s.loops t).queued, Spare io s.inConnections t (.call f) := by
    intro t f hf
    rw [h.held t f (EventLoop.mem_held_of_mem_queued hf)]
    exact .foreign _ rfl
  refine ⟨h.callbacks, h.closing, h.active, main, [.runInLoop io .connectEstablished], [],
    .release :: rest ++ calls (s.loops main).queued, ?_⟩
  refine ⟨.runInLoop main h.conn.unwatched, by simp [ConnectionRun.work, hs], Or.inl ⟨rfl, _, hs⟩,
    fun _ => ⟨rfl, h.inConnections⟩, by simp, by simp, ?_, ?_⟩
  · intro i hi
    left
    simp only [List.cons_append, List.mem_cons, List.mem_append] at hi
    rcases hi with rfl | hi | hi
    · exact .release
    · exact .foreign i (hrest i hi)
    · obtain ⟨f, hf, rfl⟩ := List.mem_map.mp hi
      exact hspare main f hf
  · intro u hu i hi
    rcases List.mem_append.mp hi with hi | hi
    · exact .foreign i (h.otherStacks u hu i hi)
    · obtain ⟨f, hf, rfl⟩ := List.mem_map.mp hi
      exact hspare u f hf

theorem Place.head {t u : T} {w before after rest : List (Instr T)} {i : Instr T}
    (h : Place io main s t w before after) (hs : s.stack u = i :: rest) :
    (Spare io s.inConnections u i ∧ (u = t → ∀ r, s.stack t ≠ w ++ r)) ∨
    (u = t ∧ before = [] ∧ ∃ w', w = i :: w') := by
  obtain ⟨j, w', hw⟩ : ∃ j w', w = j :: w' := by
    cases h.establishing <;> exact ⟨_, _, rfl⟩
  by_cases hu : u = t
  · subst hu
    have hwork := h.work
    rw [ConnectionRun.work, hs, hw] at hwork
    cases before with
    | nil =>
      right
      obtain ⟨rfl, -⟩ := List.cons.inj hwork
      exact ⟨rfl, rfl, w', hw⟩
    | cons k before =>
      left
      obtain ⟨rfl, -⟩ := List.cons.inj hwork
      have hspare := h.before i (List.mem_cons_self ..)
      refine ⟨hspare, ?_⟩
      intro _ r hr
      rw [hs, hw] at hr
      obtain ⟨rfl, -⟩ := List.cons.inj hr
      exact hspare.not_head (hw ▸ h.establishing)
  · left
    exact ⟨h.others u hu i (List.mem_append_left _ (by simp [hs])), fun h => absurd h hu⟩

/-- A step beside the establishment: some thread replaces what is spare, and
loops may get functors that are. -/
theorem Place.aside {t : T} {w before after x : List (Instr T)}
    (h : Place io main s t w before after) (u : T) (old new : List (Instr T))
    (hconn : s'.conn = s.conn)
    (hentry : s'.inConnections = true → s.inConnections = true)
    (hkept : t ≠ io → s'.inConnections = true)
    (hstack : ∀ v ≠ u, s'.stack v = s.stack v) (htop : u = t → ∀ r, s.stack t ≠ w ++ r)
    (hold : s.work u = old ++ x) (hspare : ∀ i ∈ old, Spare io s.inConnections u i)
    (hnew : ∀ i ∈ new, Spare io s'.inConnections u i)
    (hwork : ∀ v, ∃ extra, s'.work v = (if v = u then new ++ x else s.work v) ++ extra ∧
      ∀ i ∈ extra, Spare io s'.inConnections v i ∨
        i = .call .connectDestroyed ∧ v = t ∧ t = io ∧ s'.inConnections = false) :
    ∃ before' after', Place io main s' t w before' after' := by
  have hest : Establishing io s'.conn t w := hconn ▸ h.establishing
  have hmove : ∀ {v i}, Spare io s.inConnections v i → Spare io s'.inConnections v i :=
    fun hi => hi.mono hentry
  have hafter : ∀ {extra : List (Instr T)}, (∀ i ∈ extra, Spare io s'.inConnections t i ∨
      i = .call .connectDestroyed ∧ t = t ∧ t = io ∧ s'.inConnections = false) →
      ∀ i ∈ after ++ extra, Spare io s'.inConnections t i ∨
        i = .call .connectDestroyed ∧ t = io ∧ s'.inConnections = false := by
    intro extra hextra i hi
    rcases List.mem_append.mp hi with hi | hi
    · rcases h.after i hi with hi | ⟨rfl, ht, hb⟩
      · exact Or.inl (hmove hi)
      · refine Or.inr ⟨rfl, ht, ?_⟩
        by_contra hne
        rw [hentry (by simpa using hne)] at hb
        cases hb
    · rcases hextra i hi with hi | ⟨rfl, -, ht, hb⟩
      · exact Or.inl hi
      · exact Or.inr ⟨rfl, ht, hb⟩
  have hother : ∀ v ≠ t, ∀ i ∈ s'.work v, Spare io s'.inConnections v i := by
    intro v hv i hi
    obtain ⟨extra, hv', hextra⟩ := hwork v
    rw [hv', List.mem_append] at hi
    rcases hi with hi | hi
    · split_ifs at hi with hvu
      · subst hvu
        rcases List.mem_append.mp hi with hi | hi
        · exact hnew i hi
        · exact hmove (h.others v hv i (by simp [hold, hi]))
      · exact hmove (h.others v hv i hi)
    · rcases hextra i hi with hi | ⟨-, hvt, -⟩
      · exact hi
      · exact absurd hvt hv
  obtain ⟨extra, ht', hextra⟩ := hwork t
  by_cases hu : u = t
  · subst hu
    obtain ⟨hio, hmain, hw⟩ : u = io ∧ main ≠ io ∧ w = [.call .connectEstablished] := by
      rcases h.first with ⟨-, r, hr⟩ | hfirst
      · exact absurd hr (htop rfl r)
      · exact hfirst
    -- what is replaced ends before the establishment
    obtain ⟨a, ha, hx⟩ : ∃ a, before = old ++ a ∧ x = a ++ (w ++ after) := by
      rcases List.append_eq_append_iff.mp (hold.symm.trans h.work) with ⟨a, ha, hx⟩ | ⟨a, ha, hx⟩
      · exact ⟨a, ha, hx⟩
      · cases a with
        | nil => exact ⟨[], by simpa using ha.symm, by simpa using hx.symm⟩
        | cons k a =>
          rw [hw] at hx
          obtain ⟨rfl, -⟩ := List.cons.inj hx
          have hcall := hspare (.call .connectEstablished) (by simp [ha])
          exact absurd (hw ▸ hest) hcall.not_head
    refine ⟨new ++ a, after ++ extra, hest, ?_, Or.inr ⟨hio, hmain, hw⟩,
      fun hne => absurd hio hne, h.queues, ?_, hafter hextra, hother⟩
    · rw [ht', if_pos rfl, hx]
      simp
    · intro i hi
      rcases List.mem_append.mp hi with hi | hi
      · exact hnew i hi
      · exact hmove (h.before i (by simp [ha, hi]))
  · refine ⟨before, after ++ extra, hest, ?_, ?_, fun ht => ⟨(h.thread ht).1, hkept ht⟩, h.queues,
      fun i hi => hmove (h.before i hi), hafter hextra, hother⟩
    · rw [ht', if_neg (Ne.symm hu), h.work]
      simp
    · rw [hstack t (Ne.symm hu)]
      exact h.first

/-- The next instruction of the establishment leaves `w''` to do, then what is spare. -/
theorem Place.next {u : T} {w w' w'' after rest new tail : List (Instr T)} {i : Instr T}
    {c : Shared T} (h : Place io main s u w [] after) (hw : w = i :: w')
    (hs : s.stack u = i :: rest) (hnew : new ++ w' = w'' ++ tail)
    (hest : Establishing io c.conn u w'')
    (hqueues : w'' = [.queueInLoop io .connectEstablished] → u ≠ io)
    (htail : ∀ j ∈ tail, Spare io s.inConnections u j)
    (hin : c.inConnections = s.inConnections) :
    Place io main { s with toShared := c, stack := Function.update s.stack u (new ++ rest) } u w''
      [] (tail ++ after) := by
  obtain ⟨r, hr⟩ : ∃ r, rest = w' ++ r := by
    rcases h.first with ⟨-, r, hr⟩ | ⟨-, -, hcall⟩
    · rw [hs, hw] at hr
      exact ⟨r, (List.cons.inj hr).2⟩
    · rw [hw] at hcall
      exact ⟨rest, by rw [(List.cons.inj hcall).2, List.nil_append]⟩
  obtain ⟨x, hold, hwork, hsame⟩ : Replaces s
    { s with toShared := c, stack := Function.update s.stack u (new ++ rest) } u [i] new :=
    replaces_run hs
  have hx : x = w' ++ after := by
    have hboth := hold.symm.trans h.work
    rw [hw] at hboth
    exact (List.cons.inj hboth).2
  refine ⟨hest, ?_, Or.inl ⟨rfl, tail ++ r, ?_⟩, ?_, hqueues, by simp, ?_, ?_⟩
  · rw [hwork, hx, List.nil_append, ← List.append_assoc, hnew, List.append_assoc]
  · simp only [Function.update_self]
    rw [hr, ← List.append_assoc, hnew, List.append_assoc]
  · simp only [hin]
    exact h.thread
  · intro j hj
    simp only [hin]
    rcases List.mem_append.mp hj with hj | hj
    · exact Or.inl (htail j hj)
    · exact h.after j hj
  · intro v hv j hj
    simp only [hin]
    rw [hsame v hv] at hj
    exact h.others v hv j hj

theorem arriving_run {t u : T} {w before after rest new : List (Instr T)} {i : Instr T}
    {o : Outcome} {c : Shared T} (h : Arriving io main s)
    (hp : Place io main s t w before after) (hs : s.stack u = i :: rest)
    (hr : s.toShared.run io main u i o = some (c, new)) :
    Arriving io main { s with toShared := c, stack := Function.update s.stack u (new ++ rest) } ∨
      Arrived io { s with toShared := c, stack := Function.update s.stack u (new ++ rest) } := by
  obtain ⟨x, hold, hwork, hsame⟩ : Replaces s
    { s with toShared := c, stack := Function.update s.stack u (new ++ rest) } u [i] new :=
    replaces_run hs
  rcases hp.head hs with ⟨hspare, htop⟩ | ⟨rfl, rfl, w', rfl⟩
  · left
    obtain ⟨rfl, hnew⟩ := hspare.run hr
    refine ⟨h.callbacks, h.closing, h.active, t, w, ?_⟩
    refine hp.aside u [i] new rfl id (fun ht => (hp.thread ht).2) ?_ htop hold ?_ hnew ?_
    · intro v hv
      simp [Function.update_of_ne hv]
    · intro j hj
      rwa [List.mem_singleton.mp hj]
    · intro v
      refine ⟨[], ?_, by simp⟩
      by_cases hv : v = u
      · subst hv
        simp [hwork]
      · simp [hsame v hv, hv]
  · have hnext : ∀ w'' tail : List (Instr T), new ++ w' = w'' ++ tail →
        Establishing io c.conn u w'' →
        (w'' = [.queueInLoop io .connectEstablished] → u ≠ io) →
        (∀ j ∈ tail, Spare io s.inConnections u j) → c = { s.toShared with conn := c.conn } →
        Arriving io main
          { s with toShared := c, stack := Function.update s.stack u (new ++ rest) } := by
      intro w'' tail hnew hest hqueues htail hc
      exact ⟨by rw [hc]; exact h.callbacks, by rw [hc]; exact h.closing, h.active, u, w'', [], _,
        hp.next rfl hs hnew hest hqueues htail (by rw [hc])⟩
    cases hp.establishing with
    | runInLoop _ hc =>
      left
      by_cases hu : u = io
      · subst hu
        simp only [Shared.run, if_pos, Option.some.injEq, Prod.mk.injEq] at hr
        obtain ⟨rfl, rfl⟩ := hr
        refine hnext [.call .connectEstablished] [.release] rfl (.call hc) (by simp) ?_ rfl
        intro j hj
        rw [List.mem_singleton.mp hj]
        exact .release
      · simp only [Shared.run, if_neg hu, Option.some.injEq, Prod.mk.injEq] at hr
        obtain ⟨rfl, rfl⟩ := hr
        exact hnext _ [] rfl (.queueInLoop u hc) (fun _ => hu) (by simp) rfl
    | queueInLoop _ hc => cases hr
    | call hc =>
      left
      cases hr
      exact hnext _ [] rfl (.setState hc) (by simp) (by simp) rfl
    | setState hc =>
      left
      cases hr
      exact hnext _ [] rfl (.enableReading hc rfl) (by simp) (by simp) rfl
    | enableReading hc hstate =>
      left
      cases hr
      exact hnext _ [] rfl (.connectionCallback s.conn.reading_enableReading hstate)
        (by simp) (by simp) rfl
    | connectionCallback hc hstate =>
      right
      cases hr
      refine ⟨?_, h.closing, h.active, hstate, hc, ?_⟩
      · simp [h.callbacks, TcpConnection.connected, hstate]
      · intro v j hj
        rcases eq_or_ne v io with rfl | hv
        · have hx : x = after := (List.cons.inj (hold.symm.trans hp.work)).2
          rw [hwork, hx] at hj
          rcases List.mem_cons.mp hj with rfl | hj
          · exact Or.inr (Or.inl rfl)
          · rcases hp.after j hj with hj | hj
            · exact Or.inl hj
            · exact Or.inr (Or.inr hj)
        · rw [hsame v hv] at hj
          exact Or.inl (hp.others v hv j hj)

theorem arriving_queue {t u loop : T} {w before after rest : List (Instr T)}
    {cb : Functor (Payload T)} (h : Arriving io main s) (hp : Place io main s t w before after)
    (hs : s.stack u = .queueInLoop loop cb :: rest) :
    Arriving io main ((s.setLoop loop ((s.loops loop).push cb)).setStack u
      (.wakeup loop :: cb.destructor ++ rest)) := by
  have hq := queues_queue hs
  obtain ⟨x, hold, hwork⟩ := hq
  have hspares : ∀ {b v}, ∀ j ∈ .wakeup loop :: cb.destructor, Spare io b v j := by
    intro b v j hj
    rcases List.mem_cons.mp hj with rfl | hj
    · exact .foreign _ rfl
    · exact Spare.destructor j hj
  refine ⟨h.callbacks, h.closing, h.active, ?_⟩
  rcases hp.head hs with ⟨hspare, htop⟩ | ⟨rfl, rfl, w', rfl⟩
  · refine ⟨t, w, hp.aside u [.queueInLoop loop cb] (.wakeup loop :: cb.destructor) rfl id
      (fun ht => (hp.thread ht).2) ?_ htop hold ?_ hspares ?_⟩
    · intro v hv
      simp [Function.update_of_ne hv]
    · intro j hj
      rwa [List.mem_singleton.mp hj]
    · intro v
      refine ⟨_, hwork v, ?_⟩
      intro j hj
      split_ifs at hj with hv
      · subst hv
        rw [List.mem_singleton.mp hj]
        rcases hspare.queued with rfl | ⟨rfl, rfl, hb⟩
        · exact Or.inl (.foreign _ rfl)
        · right
          have ht : t = v := by
            by_contra hne
            rw [(hp.thread hne).2] at hb
            cases hb
          exact ⟨rfl, ht.symm, ht, hb⟩
      · cases hj
  · cases hp.establishing with
    | queueInLoop _ hc =>
      have hu := hp.queues rfl
      have hmain : main ≠ io := (hp.thread hu).1 ▸ hu
      have hx : x = after := (List.cons.inj (hold.symm.trans hp.work)).2
      refine ⟨io, [.call .connectEstablished], s.work io, [], .call hc, ?_,
        Or.inr ⟨rfl, hmain, rfl⟩, fun hne => absurd rfl hne, by simp, hp.others io hu.symm, by simp,
        ?_⟩
      · rw [hwork io, if_neg hu.symm, if_pos rfl]
        rfl
      · intro v hv j hj
        rw [hwork v, if_neg hv, List.append_nil] at hj
        by_cases hvu : v = u
        · subst hvu
          rw [if_pos rfl, List.mem_append] at hj
          rcases hj with hj | hj
          · exact hspares j hj
          · rcases hp.after j (hx ▸ hj) with hj | ⟨-, hio, -⟩
            · exact hj
            · exact absurd hio hu
        · rw [if_neg hvu] at hj
          exact hp.others v hvu j hj

omit [DecidableEq T] in
theorem Place.not_registered {t : T} {w before after : List (Instr T)}
    (h : Place io main s t w before after) (hs : s.stack io = []) :
    s.conn.channel_.registered = none := by
  have hfirst := h.first
  cases h.establishing with
  | connectionCallback hc hstate =>
    simp [hs] at hfirst
  | _ => exact TcpConnection.Unwatched.registered ‹_›

theorem Place.idle {t u : T} {w before after is : List (Instr T)}
    (h : Place io main s t w before after) (hs : s.stack u = [])
    (hconn : s'.conn = s.conn) (hin : s'.inConnections = s.inConnections)
    (hstack : s'.stack = Function.update s.stack u is) (hwork : ∀ v, s'.work v = s.work v) :
    ∃ before' after', Place io main s' t w before' after' := by
  refine h.aside u [] [] hconn (by rw [hin]; exact id) ?_ ?_ ?_ (x := s.work u) rfl
    (by simp) (by simp) ?_
  · rw [hin]
    exact fun ht => (h.thread ht).2
  · intro v hv
    rw [hstack, Function.update_of_ne hv]
  · rintro rfl r hr
    rw [hs] at hr
    cases h.establishing <;> cases hr
  · intro v
    refine ⟨[], ?_, by simp⟩
    by_cases hv : v = u
    · subst hv
      simp [hwork]
    · simp [hwork, hv]

theorem Place.replaces {t u : T} {w before after old new : List (Instr T)}
    (h : Place io main s t w before after) (hconn : s'.conn = s.conn)
    (hentry : s'.inConnections = true → s.inConnections = true)
    (hkept : t ≠ io → s'.inConnections = true)
    (hstack : ∀ v ≠ u, s'.stack v = s.stack v) (htop : u = t → ∀ r, s.stack t ≠ w ++ r)
    (hr : Replaces s s' u old new) (hspare : ∀ i ∈ old, Spare io s.inConnections u i)
    (hnew : ∀ i ∈ new, Spare io s'.inConnections u i) :
    ∃ before' after', Place io main s' t w before' after' := by
  obtain ⟨x, hold, hwork, hsame⟩ := hr
  refine h.aside u old new hconn hentry hkept hstack htop hold hspare hnew ?_
  intro v
  refine ⟨[], ?_, by simp⟩
  by_cases hv : v = u
  · subst hv
    simp [hwork]
  · simp [hsame v hv, hv]

theorem arriving_own {l : RunLabel T} (h : Arriving io main s) (hl : ∀ t c, l ≠ .call t c)
    (hs : Steps io main s l s') : Arriving io main s' ∨ Arrived io s' := by
  obtain ⟨t, w, before, after, hp⟩ := h.place
  cases hs with
  | run u o i rest c new hs hr => exact arriving_run h hp hs hr
  | queue u o loop cb rest hs => exact Or.inl (arriving_queue h hp hs)
  | wakeup u o loop rest hs =>
    left
    have htop : u = t → ∀ r, s.stack t ≠ w ++ r := by
      rcases hp.head hs with ⟨-, htop⟩ | ⟨-, -, w', rfl⟩
      · exact htop
      · exact nomatch hp.establishing
    refine ⟨h.callbacks, h.closing, h.active, t, w,
      hp.replaces rfl id (fun ht => (hp.thread ht).2) ?_ htop (replaces_wakeup hs) ?_ (by simp)⟩
    · intro v hv
      simp [Function.update_of_ne hv]
    · intro i hi
      rw [List.mem_singleton.mp hi]
      exact .foreign _ rfl
  | control u c loop hs hact ha =>
    left
    exact ⟨h.callbacks, h.closing, h.active, t, w, hp.idle hs rfl rfl rfl (work_control hs ha)⟩
  | report wakeup revents mask loop hs hm hr ha =>
    rw [hp.not_registered hs] at hm
    cases hm
  | handleEvent hs hact =>
    rw [h.active] at hact
    cases hact
  | call u c hu => exact absurd rfl (hl u c)
  | store u address value hu =>
    refine Or.inl ⟨h.callbacks, h.closing, h.active, t, w, before, after, ?_⟩
    exact ⟨hp.establishing, hp.work, hp.first, hp.thread, hp.queues, hp.before, hp.after, hp.others⟩

theorem Place.not_top {t u : T} {w before after old new : List (Instr T)}
    (h : Place io main s t w before after) (hi : Interleaves s s' u old new) :
    u = t → ∀ r, s.stack t ≠ w ++ r := by
  rintro rfl r hr
  obtain ⟨j, w', rfl⟩ : ∃ j w', w = j :: w' := by
    cases h.establishing <;> exact ⟨_, _, rfl⟩
  cases old with
  | nil =>
    rcases hi.idle rfl with hs | hs | hs
    · rw [hr] at hs
      cases hs
    · rw [hr] at hs
      cases hs
      exact nomatch h.establishing
    · rw [hr] at hs
      cases hs
      exact nomatch h.establishing
  | cons k old =>
    obtain ⟨rest, hs, -⟩ := hi.stack
    rw [hr] at hs
    obtain ⟨rfl, -⟩ := List.cons.inj hs
    have hspare : Spare io true u j := .foreign j (hi.foreign j (List.mem_cons_self ..))
    exact hspare.not_head h.establishing

theorem arriving_interleaves {hl : HostLabel T} {u : T} {old new : List (Instr T)}
    (h : Arriving io main s) (hi : Interleaves s s' u old new)
    (hnew : (∀ i ∈ new, i.foreign = true) ∨
      ∃ c, hl = .call u c ∧ s.callbacks ≠ [] ∧ new = s.code u c) : Arriving io main s' := by
  have hforeign : ∀ i ∈ new, i.foreign = true := by
    rcases hnew with hnew | ⟨c, -, hc, -⟩
    · exact hnew
    · exact absurd h.callbacks hc
  obtain ⟨t, w, before, after, hp⟩ := h.place
  obtain ⟨x, hold, hwork⟩ := hi.work
  obtain ⟨rest, -, hs'⟩ := hi.stack
  refine ⟨hi.callbacks.trans h.callbacks, hi.closing.trans h.closing, hi.active.trans h.active, t,
    w, hp.aside u old new hi.conn ?_ ?_ ?_ (hp.not_top hi) hold ?_ ?_ ?_⟩
  · rw [hi.inConnections]
    exact id
  · rw [hi.inConnections]
    exact fun ht => (hp.thread ht).2
  · intro v hv
    rw [hs', Function.update_of_ne hv]
  · exact fun i hi' => .foreign i (hi.foreign i hi')
  · exact fun i hi' => .foreign i (hforeign i hi')
  · intro v
    obtain ⟨extra, hextra, hv⟩ := hwork v
    refine ⟨extra, hv, ?_⟩
    intro i hi'
    rcases hextra with rfl | rfl
    · cases hi'
    · rw [List.mem_singleton.mp hi']
      exact Or.inl (.foreign _ rfl)

/-- The destructor can be called only when the connection has left the server's
loop, for the queue of its own. -/
theorem arriving_destroy {rest : List (Instr T)} (h : Arriving io main s)
    (hs : s.stack main = .call .other :: rest) : Arriving io main { s.setStack main
      (.runInLoop io .connectDestroyed :: .release :: .call .other :: rest) with
      inConnections := false } := by
  obtain ⟨t, w, before, after, hp⟩ := h.place
  have htop : main = t → ∀ r, s.stack t ≠ w ++ r := by
    rcases hp.head hs with ⟨-, htop⟩ | ⟨-, -, w', rfl⟩
    · exact htop
    · exact nomatch hp.establishing
  have ht : t = io := by
    by_contra hne
    obtain ⟨rfl, -⟩ := hp.thread hne
    rcases hp.first with ⟨-, r, hr⟩ | ⟨hio, -, -⟩
    · exact htop rfl r hr
    · exact hne hio
  have hmain : main ≠ io := by
    rintro rfl
    rcases hp.first with ⟨-, r, hr⟩ | ⟨-, hne, -⟩
    · exact htop ht.symm r hr
    · exact hne rfl
  refine ⟨h.callbacks, h.closing, h.active, t, w, hp.replaces rfl (by simp)
    (fun hne => absurd ht hne) ?_ htop (replaces_destroy hs) ?_ ?_⟩
  · intro v hv
    simp [Function.update_of_ne hv]
  · intro i hi
    rw [List.mem_singleton.mp hi]
    exact .foreign _ rfl
  · intro i hi
    simp only [List.mem_cons, List.not_mem_nil, or_false] at hi
    rcases hi with rfl | rfl | rfl
    · exact .runInLoop hmain rfl
    · exact .release
    · exact .foreign _ rfl

/-- A connection arrives whatever the rest of the program does. -/
theorem arriving_step {hl : HostLabel T} (h : Arriving io main s)
    (hs : HostSteps io main s hl s') : Arriving io main s' ∨ Arrived io s' := by
  rcases hs.split with ⟨l, rfl, hl, hown⟩ | ⟨-, u, old, new, hi, hnew⟩ | ⟨rfl, rest, htop, rfl⟩
  · exact arriving_own h hl hown
  · left
    exact arriving_interleaves h hi hnew
  · left
    exact arriving_destroy h htop

/-! ## After it -/

omit [DecidableEq T] in
theorem not_establishes_of_foreign {i : Instr T} (h : i.foreign = true) :
    i.establishes = false := by
  cases i with
  | call f | queueInLoop loop f => cases f <;> first | rfl | cases h
  | wakeup loop => rfl
  | _ => cases h

omit [DecidableEq T] in
theorem Arrived.established (h : Arrived io s) :
    ∀ t, ∀ i ∈ s.work t, i.establishes = false := by
  intro t i hi
  rcases h.work t i hi with hi | rfl | ⟨rfl, -⟩
  · cases hi with
    | foreign _ hi => exact not_establishes_of_foreign hi
    | _ => rfl
  · rfl
  · rfl

theorem established_host {hl : HostLabel T} (h : ∀ t, ∀ i ∈ s.work t, i.establishes = false)
    (hs : HostSteps io main s hl s') : ∀ t, ∀ i ∈ s'.work t, i.establishes = false := by
  refine hs.forall_work (P := fun _ i => i.establishes = false) h ?_ ?_ (fun _ => rfl)
    (fun _ _ _ => id) (fun _ _ => rfl) ?_ (fun _ => rfl)
  · exact fun t o i new _ hi hr _ => not_establishes_of_run hr hi
  · exact fun _ _ => not_establishes_of_foreign
  · intro t c _ _ i hi
    cases userInstr_of_mem_code hi <;> rfl

theorem state_host {hl : HostLabel T} (h : s.conn.state_ ≠ .kConnected)
    (hest : ∀ t, ∀ i ∈ s.work t, i.establishes = false) (hs : HostSteps io main s hl s') :
    s'.conn.state_ ≠ .kConnected := by
  rcases hs.split with ⟨l, rfl, -, hown⟩ | ⟨-, u, old, new, hinter, -⟩ | ⟨rfl, rest, htop, rfl⟩
  · cases hown with
    | run t o i rest c new htop hr =>
      exact state_of_run h (hest t i (List.mem_append_left _ (by simp [htop]))) hr
    | _ => exact h
  · rwa [hinter.conn]
  · exact h

end ConnectionRun
end MuduoCore
