import MuduoCore.Server.LoopAffinity

/-!
# The threads of the pool

A connection belongs to the loop of the server or to one of the pool, whose
threads are not the server's. A thread of the pool that has come to its end runs
nothing any more, and no channel of its loop waits to be handled.
-/

namespace MuduoCore

theorem EventLoopThreadPool.getNextLoop_baseLoop {T : Type*} (p : EventLoopThreadPool T) :
    p.getNextLoop.2.baseLoop_ = p.baseLoop_ := by
  unfold getNextLoop
  split_ifs <;> rfl

namespace ServerRun

variable {T : Type*} [DecidableEq T] {main : T} {s s' : ServerRun T}

/-- Where loops are, and what their threads can still do. -/
structure PoolThreads (main : T) (s : ServerRun T) : Prop where
  base : s.threadPool_.baseLoop_ = main
  apart : main ∉ s.threadPool_.loops_
  loop : ∀ k, s.Accepted k → s.loopOf k = main ∨ s.loopOf k ∈ s.threadPool_.loops_
  returned : ∀ t, s.returned t = true →
    t ∈ s.threadPool_.loops_ ∧ s.stack t = [] ∧ (s.loops t).phase = .outside
  active : ∀ k, s.Accepted k → (s.connection k).active = true →
    ∃ wakeup, (s.loops (s.loopOf k)).phase = .dispatch wakeup

omit [DecidableEq T] in
theorem poolThreads_init (h : Init main s) : PoolThreads main s := by
  obtain ⟨numThreads, hpool⟩ := h.threadPool
  have hnone : ∀ k, ¬ s.Accepted k := by
    rintro k ⟨hpos, hlt⟩
    have hid := h.nextConnId
    omega
  refine ⟨by rw [hpool]; rfl, ?_, fun k hk => absurd hk (hnone k), ?_,
    fun k hk => absurd hk (hnone k)⟩
  · rw [hpool]
    exact List.not_mem_nil
  · intro t ht
    rw [h.returned t] at ht
    cases ht

/-- The pool only grows, by loops of other threads. -/
theorem pool_step {l : ServerLabel T} (hs : Steps main s l s') :
    s'.threadPool_.baseLoop_ = s.threadPool_.baseLoop_ ∧
      (s'.threadPool_.loops_ = s.threadPool_.loops_ ∨
        ∃ t loop rest, s.stack t = .startLoop :: rest ∧ loop ≠ main ∧
          s'.threadPool_.loops_ = s.threadPool_.loops_ ++ [loop]) := by
  cases hs with
  | own t o i rest r new hs hr =>
    rcases run_cases hr with ⟨sockfd, -, hnew⟩ | ⟨-, -, hr⟩
    · obtain ⟨-, -, rfl⟩ := newConnection_eq hnew
      exact ⟨s.threadPool_.getNextLoop_baseLoop, .inl s.threadPool_.getNextLoop_loops⟩
    · rw [hr]
      exact ⟨rfl, .inl rfl⟩
  | startLoop t loop rest hs hmain hself hnew hloop hstack =>
    exact ⟨rfl, .inr ⟨t, loop, rest, hs, hmain, rfl⟩⟩
  | call t c r new hu hc =>
    rw [frame_of_code hc]
    exact ⟨rfl, .inl rfl⟩
  | _ => exact ⟨rfl, .inl rfl⟩

theorem phase_step {l : ServerLabel T} (hs : Steps main s l s') (u : T)
    (hcontrol : ∀ c, l ≠ .control u c) (hpoll : ∀ w rs a, l ≠ .poll u w rs a) :
    (s'.loops u).phase = (s.loops u).phase := by
  have hupdate : ∀ {loop : T} {e : EventLoop (ServerFunctor T)},
      e.phase = (s.loops loop).phase →
      (Function.update s.loops loop e u).phase = (s.loops u).phase := by
    intro loop e he
    by_cases hu : u = loop
    · subst hu
      rw [Function.update_self, he]
    · rw [Function.update_of_ne hu]
  cases hs with
  | own t o i rest r new hs hr =>
    rcases run_cases hr with ⟨sockfd, -, hnew⟩ | ⟨-, hl | ⟨loop, hl⟩, -⟩
    · obtain ⟨-, -, rfl⟩ := newConnection_eq hnew
      rfl
    · rw [setStack, hl]
    · rw [setStack, hl]
      exact hupdate rfl
  | queue t o loop cb rest hs => exact hupdate (EventLoop.push_phase _ _)
  | wakeup t o loop rest hs => exact hupdate (EventLoop.wakeupAfterPush_phase _ _)
  | control t c loop hs hreturned hd ha =>
    have hu : u ≠ t := by
      rintro rfl
      exact hcontrol c rfl
    simp [setStack, setLoop, Function.update_of_ne hu]
  | poll t wakeup reports accept loop hs hr hacc ha =>
    have hu : u ≠ t := by
      rintro rfl
      exact hpoll _ _ _ rfl
    simp [setLoop, Function.update_of_ne hu]
  | call t c r new hu hc =>
    rw [frame_of_code hc]
    rfl
  | _ => rfl

/-- A thread that has nothing to run begins something in `loop()`, in a handler
or in code of the user. -/
theorem begins_of_step {l : ServerLabel T} (hs : Steps main s l s') {u : T}
    (hidle : s.stack u = []) (hbegins : s'.stack u ≠ []) :
    (∃ c, l = .control u c ∧ s.returned u = false) ∨
    (∃ k, s.Accepted k ∧ s.loopOf k = u ∧ (s.connection k).active = true) ∨ u = main ∨
    s.UserRuns u := by
  have hother : ∀ {t is}, u ≠ t → Function.update s.stack t is u = [] := by
    intro t is hut
    rwa [Function.update_of_ne hut]
  have hpop : ∀ {t i rest is}, s.stack t = i :: rest → Function.update s.stack t is u = [] := by
    intro t i rest is ht
    apply hother
    rintro rfl
    rw [hidle] at ht
    cases ht
  cases hs with
  | run t o head k i rest c new hs hi hr => exact absurd (hpop hs) hbegins
  | own t o i rest r new hs hr =>
    rw [setStack, (frame_of_run hr).1] at hbegins
    exact absurd (hpop hs) hbegins
  | queue t o loop cb rest hs => exact absurd (hpop hs) hbegins
  | wakeup t o loop rest hs => exact absurd (hpop hs) hbegins
  | startLoop t loop rest hs => exact absurd (hpop hs) hbegins
  | destroyNext k rest hs ha hk => exact absurd (hpop hs) hbegins
  | control t c loop hs hreturned hd ha =>
    by_cases hut : u = t
    · subst hut
      exact .inl ⟨c, rfl, hreturned⟩
    · exact absurd (hother hut) hbegins
  | handleEvent k hk hs ha =>
    by_cases hut : u = s.loopOf k
    · exact .inr (.inl ⟨k, hk, hut.symm, ha⟩)
    · exact absurd (hother hut) hbegins
  | acceptEvent hs ha =>
    by_cases hut : u = main
    · exact .inr (.inr (.inl hut))
    · exact absurd (hother hut) hbegins
  | call t c r new hu hc =>
    by_cases hut : u = t
    · subst hut
      exact .inr (.inr (.inr hu))
    · rw [frame_of_code hc] at hbegins
      exact absurd (hother hut) hbegins
  | _ => exact absurd hidle hbegins

theorem returned_mono {l : ServerLabel T} (hs : Steps main s l s') {u : T}
    (hu : s.returned u = true) : s'.returned u = true := by
  cases hs with
  | own t o i rest r new hs hr =>
    rcases run_cases hr with ⟨sockfd, -, hnew⟩ | ⟨-, -, hr⟩
    · obtain ⟨-, -, rfl⟩ := newConnection_eq hnew
      exact hu
    · rw [hr]
      exact hu
  | control t c loop hs hreturned hd ha =>
    have hut : u ≠ t := by
      rintro rfl
      rw [hu] at hreturned
      cases hreturned
    simpa [Function.update_of_ne hut] using hu
  | call t c r new hu' hc =>
    rw [frame_of_code hc]
    exact hu
  | _ => exact hu

theorem PoolThreads.returned_step (h : PoolThreads main s) {l : ServerLabel T}
    (hs : Steps main s l s') {u : T} (hu : s.returned u = true) :
    s'.returned u = true ∧ s'.stack u = [] ∧ (s'.loops u).phase = .outside := by
  obtain ⟨hpool, hstack, hphase⟩ := h.returned u hu
  refine ⟨returned_mono hs hu, ?_, ?_⟩
  · by_contra hbegins
    rcases begins_of_step hs hstack hbegins with
      ⟨c, _, hnot⟩ | ⟨k, hk, rfl, ha⟩ | rfl | ⟨_, _, hnot⟩ | ⟨i, hi, _⟩
    · rw [hu] at hnot
      cases hnot
    · obtain ⟨wakeup, hdispatch⟩ := h.active k hk ha
      rw [hphase] at hdispatch
      cases hdispatch
    · exact h.apart hpool
    · rw [hu] at hnot
      cases hnot
    · rw [hstack] at hi
      cases hi
  · by_cases hcontrol : ∃ c, l = .control u c
    · obtain ⟨c, rfl⟩ := hcontrol
      cases hs with
      | control t c loop hs hreturned hd ha =>
        rw [hu] at hreturned
        cases hreturned
      | pointers l j n hj hl => obtain ⟨t, hl | hl⟩ := hl <;> cases hl
    · by_cases hpoll : ∃ w rs a, l = .poll u w rs a
      · obtain ⟨w, rs, a, rfl⟩ := hpoll
        cases hs with
        | poll t wakeup reports accept loop hs hr hacc ha =>
          cases ha with
          | pollReturn w hp hw =>
            rw [hphase] at hp
            cases hp
        | pointers l j n hj hl => obtain ⟨t, hl | hl⟩ := hl <;> cases hl
      · refine (phase_step hs u ?_ ?_).trans hphase
        · exact fun c hl => hcontrol ⟨c, hl⟩
        · exact fun w rs a hl => hpoll ⟨w, rs, a, hl⟩

theorem returned_of_step {l : ServerLabel T} (hs : Steps main s l s') {u : T}
    (hu : s'.returned u = true) (hnot : s.returned u = false) :
    u ∈ s.threadPool_.loops_ ∧ s'.stack u = [] ∧ (s'.loops u).phase = .outside := by
  have hsame : s'.returned ≠ s.returned := by
    intro heq
    rw [heq, hnot] at hu
    cases hu
  cases hs with
  | control t c loop hs hreturned hd ha =>
    by_cases hut : u = t
    · subst hut
      simp only [Function.update_self, Bool.and_eq_true, decide_eq_true_eq] at hu
      obtain ⟨⟨hpool, rfl⟩, hquit⟩ := hu
      refine ⟨hpool, by simp [setStack, EventLoop.started], ?_⟩
      cases ha with
      | leave hp hq => simp [setLoop, setStack]
      | again hp hq =>
        rw [hquit] at hq
        cases hq
    · simp only [Function.update_of_ne hut, hnot] at hu
      cases hu
  | own t o i rest r new hs hr =>
    rcases run_cases hr with ⟨sockfd, -, hnew⟩ | ⟨-, -, hr⟩
    · obtain ⟨-, -, rfl⟩ := newConnection_eq hnew
      exact absurd rfl hsame
    · rw [hr] at hsame
      exact absurd rfl hsame
  | call t c r new hu hc =>
    rw [frame_of_code hc] at hsame
    exact absurd rfl hsame
  | _ => exact absurd rfl hsame

theorem PoolThreads.loop_step (h : PoolThreads main s) {l : ServerLabel T}
    (hs : Steps main s l s') {k : ℕ} (hk' : s'.Accepted k) :
    s'.loopOf k = main ∨ s'.loopOf k ∈ s'.threadPool_.loops_ := by
  have hgrows : ∀ loop ∈ s.threadPool_.loops_, loop ∈ s'.threadPool_.loops_ := by
    intro loop hloop
    rcases (pool_step hs).2 with heq | ⟨_, _, _, _, _, heq⟩ <;> rw [heq]
    · exact hloop
    · exact List.mem_append_left _ hloop
  by_cases hk : s.Accepted k
  · have hloop : s'.loopOf k = s.loopOf k := (continues_step hs).loop k hk
    rw [hloop]
    exact (h.loop k hk).imp_right (hgrows _)
  · obtain ⟨t, rest, sockfd, r, new, _, rfl, hnew, rfl⟩ := newConnection_of_accepted hs hk hk'
    obtain ⟨-, -, rfl⟩ := newConnection_eq hnew
    simp only [loopOf, setStack, Function.update_self, ServedConnection.create]
    rcases s.threadPool_.getNextLoop_mem with ⟨_, hbase⟩ | hmem
    · exact .inl (hbase.trans h.base)
    · exact .inr (hgrows _ hmem)

theorem active_of_step {l : ServerLabel T} (hs : Steps main s l s') {k : ℕ} (hk : s.Accepted k)
    (hactive : (s'.connection k).active = true) :
    (s.connection k).active = true ∨ ∃ wakeup reports accept revents,
      l = .poll (s.loopOf k) wakeup reports accept ∧ (k, revents) ∈ reports := by
  have hstep := connection_step hs hk
  generalize s'.connection k = c at hstep hactive
  cases hstep with
  | same | swapped | pointers => exact .inl hactive
  | run t o head i rest c new htop hi hr =>
    left
    simpa [setConnection] using hactive
  | reported wakeup reports accept revents hmem =>
    exact .inr ⟨wakeup, reports, accept, revents, rfl, hmem⟩
  | handled => cases hactive

theorem PoolThreads.active_step (h : PoolThreads main s) {l : ServerLabel T}
    (hs : Steps main s l s') {k : ℕ} (hk' : s'.Accepted k)
    (hactive : (s'.connection k).active = true) :
    ∃ wakeup, (s'.loops (s'.loopOf k)).phase = .dispatch wakeup := by
  by_cases hk : s.Accepted k
  · have hloop : s'.loopOf k = s.loopOf k := (continues_step hs).loop k hk
    rw [hloop]
    by_cases hpoll : ∃ w rs a, l = .poll (s.loopOf k) w rs a
    · obtain ⟨w, rs, a, rfl⟩ := hpoll
      cases hs with
      | poll t wakeup reports accept loop hs hr hacc ha =>
        cases ha with
        | pollReturn w hp hw => exact ⟨w, by simp [setLoop]⟩
      | pointers l j n hj hl => obtain ⟨t, hl | hl⟩ := hl <;> cases hl
    · obtain ⟨wakeup, hphase⟩ : ∃ wakeup, (s.loops (s.loopOf k)).phase = .dispatch wakeup := by
        rcases active_of_step hs hk hactive with hbefore | ⟨w, rs, a, _, hl, _⟩
        · exact h.active k hk hbefore
        · exact absurd ⟨w, rs, a, hl⟩ hpoll
      by_cases hcontrol : ∃ c, l = .control (s.loopOf k) c
      · obtain ⟨c, rfl⟩ := hcontrol
        have hbefore : (s.connection k).active = true := by
          rcases active_of_step hs hk hactive with hbefore | ⟨w, rs, a, _, hl, _⟩
          · exact hbefore
          · cases hl
        cases hs with
        | control t c loop hs hreturned hd ha =>
          cases ha with
          | handleRead hp => exact ⟨false, by simp [setStack, setLoop]⟩
          | endDispatch hp =>
            exact absurd (.inr ⟨k, hk.2, hk.1, rfl, hbefore⟩) (hd rfl)
          | _ => simp_all
        | pointers l j n hj hl => obtain ⟨t, hl | hl⟩ := hl <;> cases hl
      · refine ⟨wakeup, (phase_step hs _ ?_ ?_).trans hphase⟩
        · exact fun c hc => hcontrol ⟨c, hc⟩
        · exact fun w rs a hl => hpoll ⟨w, rs, a, hl⟩
  · obtain ⟨t, rest, sockfd, r, new, _, rfl, hnew, rfl⟩ := newConnection_of_accepted hs hk hk'
    obtain ⟨-, -, rfl⟩ := newConnection_eq hnew
    simp [setStack, ServedConnection.create] at hactive

theorem poolThreads_step {l : ServerLabel T} (h : PoolThreads main s) (hs : Steps main s l s') :
    PoolThreads main s' := by
  obtain ⟨hbase, hpool⟩ := pool_step hs
  have hgrows : ∀ loop ∈ s.threadPool_.loops_, loop ∈ s'.threadPool_.loops_ := by
    intro loop hloop
    rcases hpool with heq | ⟨_, _, _, _, _, heq⟩ <;> rw [heq]
    · exact hloop
    · exact List.mem_append_left _ hloop
  refine ⟨hbase.trans h.base, ?_, fun k => h.loop_step hs, ?_, fun k => h.active_step hs⟩
  · rcases hpool with heq | ⟨_, loop, _, _, hne, heq⟩ <;> rw [heq]
    · exact h.apart
    · rw [List.mem_append, List.mem_singleton]
      rintro (hmem | rfl)
      · exact h.apart hmem
      · exact hne rfl
  · intro u hu
    by_cases hbefore : s.returned u = true
    · obtain ⟨_, hstack, hphase⟩ := h.returned_step hs hbefore
      exact ⟨hgrows u (h.returned u hbefore).1, hstack, hphase⟩
    · obtain ⟨hmem, hstack, hphase⟩ := returned_of_step hs hu (by simpa using hbefore)
      exact ⟨hgrows u hmem, hstack, hphase⟩

theorem poolThreads_of_reachable {Good : ServerRun T → ServerLabel T → Prop}
    (h : (system main).Reachable Good s) : PoolThreads main s := by
  refine h.invariant (I := PoolThreads main) (fun _ => poolThreads_init) ?_
  intro s l s' hi _ hs
  exact poolThreads_step hi (steps_of_step hs.2)

end ServerRun
end MuduoCore
