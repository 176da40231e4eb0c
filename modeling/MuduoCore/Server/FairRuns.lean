import MuduoCore.Server.Progress

/-!
# Fair runs of a server

In a fair run every thread goes on whenever it can. How far a thread of the
pool is from a point of its `loop()` is told by the phase, then by the channels
it has still to handle, then by its stack: its own steps bring it nearer, and
those of the others do not take it further away.
-/

namespace MuduoCore

/-- How far a phase is from the next test of `quit_`. -/
def LoopPhase.toTest {F : Type*} : LoopPhase F → ℕ
  | outside => 7
  | poll => 6
  | dispatch true => 5
  | dispatch false => 4
  | swap => 3
  | batch _ _ | body _ _ _ => 2
  | release _ => 1
  | test => 0

/-- The functors of the vector that are left, with half of one that is running. -/
def LoopPhase.left {F : Type*} : LoopPhase F → ℕ
  | batch _ todo => 2 * todo.length
  | body _ _ todo => 2 * todo.length + 1
  | _ => 0

theorem EventLoop.Advances.nearer {F : Type*} {l l' : EventLoop F} {c : LoopStep}
    (h : l.Advances c l') (hpoll : l'.phase ≠ .poll) (hleave : l'.phase ≠ .outside) :
    Prod.Lex (· < ·) (· < ·) (l'.phase.toTest, l'.phase.left) (l.phase.toTest, l.phase.left) := by
  cases h with
  | leave => exact absurd rfl hleave
  | again => exact absurd rfl hpoll
  | runNext ran cb todo hp =>
    rw [hp]
    exact .right _ (by simp only [LoopPhase.left, List.length_cons]; omega)
  | endBody ran cb todo hp =>
    rw [hp]
    exact .right _ (by simp only [LoopPhase.left]; omega)
  | pollReturn w hp =>
    rw [hp]
    cases w <;> exact .left _ _ (by simp [LoopPhase.toTest])
  | enter hp | handleRead hp | endDispatch hp | swap hp | endBatch ran hp | release ran hp =>
    rw [hp]
    exact .left _ _ (by simp [LoopPhase.toTest])

/-- The thread of the loop stays where it is. Others may queue functors, and
tell it to quit. -/
structure EventLoop.Stays {F : Type*} (l l' : EventLoop F) : Prop where
  phase : l'.phase = l.phase
  quit : l.quit_ = true → l'.quit_ = true
  queued : ∃ new, l'.pendingFunctors_ = l.pendingFunctors_ ++ new

namespace EventLoop.Stays

variable {F : Type*} (l : EventLoop F)

theorem refl : l.Stays l := ⟨rfl, id, [], (List.append_nil _).symm⟩

theorem push (cb : F) : l.Stays (l.push cb) := ⟨rfl, id, [cb], rfl⟩

theorem setQuit : l.Stays l.setQuit := ⟨rfl, fun _ => rfl, [], (List.append_nil _).symm⟩

theorem wakeupAfterPush (b : Bool) : l.Stays (l.wakeupAfterPush b) := by
  unfold EventLoop.wakeupAfterPush
  split_ifs
  · exact ⟨rfl, id, [], (List.append_nil _).symm⟩
  · exact refl l

end EventLoop.Stays

namespace ServerRun

open TransitionSystem (Run)
open InstructionStack (weight)

variable {T : Type*} [DecidableEq T] {main u : T} {s s' : ServerRun T}
  {Good : ServerRun T → ServerLabel T → Prop} {d : LoopPhase (ServerFunctor T) → ℕ × ℕ}

/-! ## The steps of a loop -/

/-- The thread of a loop goes on in `loop()`, or leaves it with its end. -/
structure GoesRound (u : T) (s : ServerRun T) (l : ServerLabel T) (s' : ServerRun T)
    (c : LoopStep) : Prop where
  label : l = .control u c ∨ ∃ w rs a, l = .poll u w rs a ∧ c = .pollReturn w
  advances : (s.loops u).Advances c (s'.loops u)
  returns : (s'.loops u).phase = .outside → s'.returned u = true

theorem loop_of_step {l : ServerLabel T} (hs : Steps main s l s')
    (hu : u ∈ s.threadPool_.loops_) :
    (∃ c, GoesRound u s l s' c) ∨
      ((∀ c, l ≠ .control u c) ∧ (∀ w rs a, l ≠ .poll u w rs a) ∧
        (s.loops u).Stays (s'.loops u)) := by
  have hupdate : ∀ {loop : T} {e : EventLoop (ServerFunctor T)}, (s.loops loop).Stays e →
      (s.loops u).Stays (Function.update s.loops loop e u) := by
    intro loop e he
    by_cases hloop : u = loop
    · subst hloop
      rwa [Function.update_self]
    · rw [Function.update_of_ne hloop]
      exact .refl _
  cases hs with
  | own t o i rest r new hs hr =>
    refine .inr ⟨by simp, by simp, ?_⟩
    rcases run_cases hr with ⟨sockfd, -, hnew⟩ | ⟨-, hl | ⟨loop, hl⟩, -⟩
    · obtain ⟨-, -, rfl⟩ := newConnection_eq hnew
      exact .refl _
    · rw [setStack, hl]
      exact .refl _
    · rw [setStack, hl]
      exact hupdate (.setQuit _)
  | queue t o loop cb rest hs => exact .inr ⟨by simp, by simp, hupdate (.push _ cb)⟩
  | wakeup t o loop rest hs => exact .inr ⟨by simp, by simp, hupdate (.wakeupAfterPush _ _)⟩
  | control t c loop hs hreturned hd ha =>
    by_cases hut : u = t
    · subst hut
      refine .inl ⟨c, .inl rfl, by simpa [setStack, setLoop] using ha, ?_⟩
      simp only [setStack, setLoop, Function.update_self]
      intro hphase
      cases ha with
      | leave hp hq => simp [hu, hq]
      | _ => cases hphase
    · refine .inr ⟨by simp [Ne.symm hut], by simp, ?_⟩
      simp only [setStack, setLoop, Function.update_of_ne hut]
      exact .refl _
  | poll t wakeup reports accept loop hs hr hacc ha =>
    by_cases hut : u = t
    · subst hut
      refine .inl ⟨_, .inr ⟨wakeup, reports, accept, rfl, rfl⟩, by simpa [setLoop] using ha, ?_⟩
      simp only [setLoop, Function.update_self]
      intro hphase
      cases ha with
      | pollReturn w hp hw => cases hphase
    · refine .inr ⟨by simp, by simp [Ne.symm hut], ?_⟩
      simp only [setLoop, Function.update_of_ne hut]
      exact .refl _
  | call t c r new hu' hc =>
    rw [frame_of_code hc]
    exact .inr ⟨by simp, by simp, .refl _⟩
  | pointers l k n hk hl =>
    obtain ⟨t, rfl | rfl⟩ := hl <;> exact .inr ⟨by simp, by simp, .refl _⟩
  | _ => exact .inr ⟨by simp, by simp, .refl _⟩

/-! ## How far a thread is from a point of `loop()` -/

def activeChannels (u : T) (s : ServerRun T) : Finset ℕ :=
  (Finset.range s.nextConnId_).filter fun k =>
    0 < k ∧ s.loopOf k = u ∧ (s.connection k).active = true

/-- How far a thread is, by its phase, its `activeChannels_` and its stack. -/
def distance (d : LoopPhase (ServerFunctor T) → ℕ × ℕ) (u : T) (s : ServerRun T) :
    (ℕ × ℕ) × ℕ × Multiset ℕ :=
  (d (s.loops u).phase, (activeChannels u s).card, weight ServerInstr.rank (s.stack u))

def Nearer : (ℕ × ℕ) × ℕ × Multiset ℕ → (ℕ × ℕ) × ℕ × Multiset ℕ → Prop :=
  Prod.Lex (Prod.Lex (· < ·) (· < ·)) (Prod.Lex (· < ·) Multiset.IsDershowitzMannaLT)

theorem wellFounded_nearer : WellFounded Nearer := by
  have hlt : WellFounded fun m n : ℕ => m < n := wellFounded_lt
  exact (hlt.prod_lex hlt).prod_lex (hlt.prod_lex Multiset.wellFounded_isDershowitzMannaLT)

theorem activeChannels_step {l : ServerLabel T} (hs : Steps main s l s')
    (hpoll : ∀ w rs a, l ≠ .poll u w rs a) : activeChannels u s' ⊆ activeChannels u s := by
  intro k hk
  simp only [activeChannels, Finset.mem_filter, Finset.mem_range] at hk ⊢
  obtain ⟨hlt, hpos, hloop, hactive⟩ := hk
  by_cases hacc : s.Accepted k
  · have hsame : s'.loopOf k = s.loopOf k := (continues_step hs).loop k hacc
    refine ⟨hacc.2, hpos, hsame ▸ hloop, ?_⟩
    rcases active_of_step hs hacc hactive with hbefore | ⟨w, rs, a, _, rfl, _⟩
    · exact hbefore
    · rw [← hsame, hloop] at hpoll
      exact absurd rfl (hpoll w rs a)
  · obtain ⟨t, rest, sockfd, r, new, _, rfl, hnew, rfl⟩ :=
      newConnection_of_accepted hs hacc ⟨hpos, hlt⟩
    obtain ⟨-, -, rfl⟩ := newConnection_eq hnew
    simp [setStack, ServedConnection.create] at hactive

theorem nearer_of_stack (hphase : (s'.loops u).phase = (s.loops u).phase)
    (hactive : activeChannels u s' ⊆ activeChannels u s)
    (hstack : Multiset.IsDershowitzMannaLT (weight ServerInstr.rank (s'.stack u))
      (weight ServerInstr.rank (s.stack u))) : Nearer (distance d u s') (distance d u s) := by
  rw [distance, distance, hphase]
  apply Prod.Lex.right
  rcases (Finset.card_le_card hactive).lt_or_eq with hlt | heq
  · exact .left _ _ hlt
  · rw [heq]
    exact .right _ hstack

theorem nearer_of_same (hphase : (s'.loops u).phase = (s.loops u).phase)
    (hactive : activeChannels u s' ⊆ activeChannels u s) (hstack : s'.stack u = s.stack u) :
    distance d u s' = distance d u s ∨ Nearer (distance d u s') (distance d u s) := by
  rw [distance, distance, hphase, hstack]
  rcases (Finset.card_le_card hactive).lt_or_eq with hlt | heq
  · exact .inr (.right _ (.left _ _ hlt))
  · rw [heq]
    exact .inl rfl

/-- A thread of the pool comes nearer with each of its steps, where the steps
through `loop()` bring it nearer. -/
theorem distance_own {l : ServerLabel T} (hs : Steps main s l s') (hgoes : Goes main u s l)
    (hthreads : PoolThreads main s) (hu : u ∈ s.threadPool_.loops_)
    (hstart : ∀ i ∈ s.stack u, i.starts = false)
    (hround : ∀ c, GoesRound u s l s' c →
      Prod.Lex (· < ·) (· < ·) (d (s'.loops u).phase) (d (s.loops u).phase)) :
    Nearer (distance d u s') (distance d u s) := by
  have hne : u ≠ main := by
    rintro rfl
    exact hthreads.apart hu
  obtain ⟨hthread, huser⟩ := hgoes
  cases l with
  | exec t o =>
    obtain rfl : t = u := hthread
    obtain ⟨head, rest, new, hhead, hstack, hless⟩ := replaced_of_exec hs
    refine nearer_of_stack (phase_step hs t (by simp) (by simp))
      (activeChannels_step hs (by simp)) ?_
    rw [hstack, Function.update_self, hhead]
    exact InstructionStack.weight_replaced ServerInstr.rank fun j hj => (hless j hj).1
  | control t c =>
    obtain rfl : t = u := hthread
    rcases loop_of_step hs hu with ⟨c', hgoes⟩ | ⟨hnot, -⟩
    · exact .left _ _ (hround c' hgoes)
    · exact absurd rfl (hnot c)
  | poll t w rs a =>
    obtain rfl : t = u := hthread
    rcases loop_of_step hs hu with ⟨c', hgoes⟩ | ⟨-, hnot, -⟩
    · exact .left _ _ (hround c' hgoes)
    · exact absurd rfl (hnot w rs a)
  | handleEvent k =>
    have hsub : activeChannels u s' ⊂ activeChannels u s := by
      refine (Finset.ssubset_iff_of_subset (activeChannels_step hs (by simp))).mpr ⟨k, ?_⟩
      cases hs with
      | handleEvent k hk htop hactive =>
        have hloop : s.loopOf k = u := hthread
        simp [activeChannels, hk.1, hk.2, hloop, hactive]
      | pointers l k n hk hl => obtain ⟨t, hl | hl⟩ := hl <;> cases hl
    rw [distance, distance, phase_step hs u (by simp) (by simp)]
    exact .right _ (.left _ _ (Finset.card_lt_card hsub))
  | startLoop t loop =>
    obtain rfl : t = u := hthread
    cases hs with
    | startLoop t loop rest htop => cases hstart .startLoop (by simp [htop])
    | pointers l k n hk hl => obtain ⟨t, hl | hl⟩ := hl <;> cases hl
  | destroyNext k | acceptEvent => exact absurd hthread.symm hne
  | call t c | store t address value | copy t k | drop t k => cases huser

theorem stack_other {l : ServerLabel T} (hs : Steps main s l s') (hgoes : ¬ Goes main u s l)
    (hcall : ∀ c, l ≠ .call u c) : s'.stack u = s.stack u := by
  have hother : ∀ {t is}, l.thread s.loopOf main = t → l.isUser = false →
      Function.update s.stack t is u = s.stack u := by
    intro t is hthread huser
    apply Function.update_of_ne
    rintro rfl
    exact hgoes ⟨hthread, huser⟩
  cases hs with
  | own t o i rest r new hs hr =>
    rw [setStack, (frame_of_run hr).1]
    exact hother rfl rfl
  | call t c r new hu hc =>
    have hut : u ≠ t := by
      rintro rfl
      exact hcall c rfl
    rw [frame_of_code hc]
    simp [setStack, Function.update_of_ne hut]
  | poll | store | pointers => rfl
  | _ => exact hother rfl rfl

/-- What others do, and the code of the user without calls, takes a thread no
further away from the test. -/
theorem distance_other {l : ServerLabel T} (hs : Steps main s l s') (hgoes : ¬ Goes main u s l)
    (hcall : ∀ c, l ≠ .call u c) :
    distance d u s' = distance d u s ∨ Nearer (distance d u s') (distance d u s) := by
  refine nearer_of_same (phase_step hs u ?_ ?_) (activeChannels_step hs ?_) ?_
  · rintro c rfl
    exact hgoes ⟨rfl, rfl⟩
  · rintro w rs a rfl
    exact hgoes ⟨rfl, rfl⟩
  · rintro w rs a rfl
    exact hgoes ⟨rfl, rfl⟩
  · exact stack_other hs hgoes hcall

/-! ## Fair runs -/

variable {Good : ServerRun T → ServerLabel T → Prop}

/-- Code of the user on thread `u` does not go on calling for ever short of the goal. -/
def CallsEnd (u : T) (P : ServerRun T → Prop) (r : (system main).Run Good) : Prop :=
  ∀ n, (∀ m ≥ n, ¬ P (r.state m)) → ∃ m ≥ n, ∀ k ≥ m, ∀ c, r.label k ≠ .call u c

theorem mem_pool_step {l : ServerLabel T} (hs : Steps main s l s')
    (hu : u ∈ s.threadPool_.loops_) : u ∈ s'.threadPool_.loops_ := by
  rcases (pool_step hs).2 with heq | ⟨_, _, _, _, _, heq⟩ <;> rw [heq]
  · exact hu
  · exact List.mem_append_left _ hu

theorem mem_pool_stable {r : (system main).Run Good} {n : ℕ}
    (hu : u ∈ (r.state n).threadPool_.loops_) :
    ∀ m ≥ n, u ∈ (r.state m).threadPool_.loops_ :=
  Run.stable (I := fun s : ServerRun T => u ∈ s.threadPool_.loops_)
    (fun m _ => mem_pool_step (steps_of_step (r.step m).2)) hu

/-- A thread of the pool comes to a goal that includes its end, where its steps
through `loop()` bring it nearer. -/
theorem reaches_of_pool (d : LoopPhase (ServerFunctor T) → ℕ × ℕ) {r : (system main).Run Good}
    {P : ServerRun T → Prop} {n : ℕ} (hu : u ∈ (r.state n).threadPool_.loops_)
    (hfair : r.Fair (Goes main u))
    (hcalls : (∀ m ≥ n, ¬ P (r.state m)) → ∃ m ≥ n, ∀ k ≥ m, ∀ c, r.label k ≠ .call u c)
    (hend : ∀ s, s.returned u = true → P s)
    (hround : ∀ m ≥ n, ¬ P (r.state m) → ¬ P (r.state (m + 1)) → ∀ c,
      GoesRound u (r.state m) (r.label m) (r.state (m + 1)) c →
      Prod.Lex (· < ·) (· < ·) (d ((r.state (m + 1)).loops u).phase)
        (d ((r.state m).loops u).phase)) : ∃ m ≥ n, P (r.state m) := by
  by_contra hnever
  have hnot : ∀ m ≥ n, ¬ P (r.state m) := fun m hm hP => hnever ⟨m, hm, hP⟩
  have hsteps : ∀ m, Steps main (r.state m) (r.label m) (r.state (m + 1)) :=
    fun m => steps_of_step (r.step m).2
  have hpool := mem_pool_stable hu
  obtain ⟨N, hN, hcalls⟩ := hcalls hnot
  obtain ⟨m, hm, hP⟩ : ∃ m ≥ N, P (r.state m) := by
    refine hfair.reaches wellFounded_nearer (distance d u) ?_ ?_ ?_
    · intro m hm hP
      refine enabled_of_pool (r.reachable m) (hpool m (hN.trans hm)) ?_
      by_contra hreturned
      exact hP (hend _ (by simpa using hreturned))
    · intro m hm hP hP' hgoes
      have hnm := hN.trans hm
      exact distance_own (hsteps m) hgoes (poolThreads_of_reachable (r.reachable m)) (hpool m hnm)
        (not_starts_of_pool (r.reachable m) u (hpool m hnm)) (hround m hnm hP hP')
    · intro m hm _ hgoes
      exact distance_other (hsteps m) hgoes (hcalls m hm)
  exact hnot m (hN.trans hm) hP

def Rests (u : T) (s : ServerRun T) : Prop := (s.loops u).phase = .poll ∨ s.returned u = true

/-- Nothing makes the thread of a loop of the pool wait but its poll: in every
run in which it goes on whenever it can, whatever the other threads do, it
comes back to the poll again and again, or to its end. -/
theorem pool_thread_returns_to_poll (r : (system main).Run Good)
    (hu : u ∈ (r.state 0).threadPool_.loops_) (hfair : r.Fair (Goes main u))
    (hcalls : CallsEnd u (Rests u) r) (n : ℕ) : ∃ m ≥ n, Rests u (r.state m) := by
  refine reaches_of_pool (fun p => (p.toTest, p.left)) (mem_pool_stable hu n n.zero_le) hfair
    (hcalls n) (fun _ => .inr) ?_
  intro m _ _ hnot c hround
  refine hround.advances.nearer ?_ ?_
  · exact fun hpoll => hnot (.inl hpoll)
  · exact fun hout => hnot (.inr (hround.returns hout))

theorem stack_of_poll (h : (system main).Reachable Good s) (hne : u ≠ main) :
    (s.loops u).phase = .poll → s.stack u = [] := by
  refine h.invariant_of (J := PoolThreads main) (fun _ => poolThreads_of_reachable)
    (I := fun s => (s.loops u).phase = .poll → s.stack u = []) ?_ ?_
  · intro s hinit _
    exact hinit.stack u
  · intro s l s' ih hthreads _ hs hpoll
    have hsteps := steps_of_step hs.2
    by_contra hbegins
    have hcontrol : ∀ c, l ≠ .control u c := by
      rintro c rfl
      cases hsteps with
      | control t c loop htop hret hd ha =>
        simp only [setStack, setLoop, Function.update_self] at hpoll hbegins
        cases ha with
        | again hp hq => exact hbegins rfl
        | _ => cases hpoll
      | pointers l k n hk hl => obtain ⟨t, hl | hl⟩ := hl <;> cases hl
    have hpolls : ∀ w rs a, l ≠ .poll u w rs a := by
      rintro w rs a rfl
      cases hsteps with
      | poll t w rs a loop htop => exact hbegins htop
      | pointers l k n hk hl => obtain ⟨t, hl | hl⟩ := hl <;> cases hl
    have hphase : (s.loops u).phase = .poll :=
      (phase_step hsteps u hcontrol hpolls).symm.trans hpoll
    rcases begins_of_step hsteps (ih hphase) hbegins with
      ⟨c, hc, _⟩ | ⟨k, hk, rfl, hactive⟩ | hmain | ⟨_, hruns, _⟩ | ⟨i, hi, _⟩
    · exact hcontrol c hc
    · obtain ⟨w, hdispatch⟩ := hthreads.active k hk hactive
      rw [hphase] at hdispatch
      cases hdispatch
    · exact hne hmain
    · rw [hphase] at hruns
      cases hruns
    · rw [ih hphase] at hi
      cases hi

theorem not_call_of_poll (h : (system main).Reachable Good s) (hne : u ≠ main)
    (hpoll : (s.loops u).phase = .poll) {c : ServerCall T} :
    ¬ (system main).Step s (.call u c) s' := by
  intro hs
  cases steps_of_step hs.2 with
  | call t c r new hu hc =>
    rcases hu with ⟨-, hruns, -⟩ | ⟨i, hi, -⟩
    · rw [hpoll] at hruns
      cases hruns
    · rw [stack_of_poll h hne hpoll] at hi
      cases hi
  | pointers l k n hk hl => obtain ⟨t, hl | hl⟩ := hl <;> cases hl

/-- A thread that does not come back to the poll ends its calls short of its end. -/
theorem calls_end_of_leaving {r : (system main).Run Good} {n : ℕ}
    (hu : u ∈ (r.state n).threadPool_.loops_) (hcalls : CallsEnd u (Rests u) r)
    (hnot : ∀ m ≥ n, ¬ (r.state m).returned u = true)
    (hleaves : ∀ m ≥ n, ∀ c, GoesRound u (r.state m) (r.label m) (r.state (m + 1)) c →
      ((r.state (m + 1)).loops u).phase ≠ .poll) :
    ∃ m ≥ n, ∀ k ≥ m, ∀ c, r.label k ≠ .call u c := by
  have hne : u ≠ main := by
    rintro rfl
    exact (poolThreads_of_reachable (r.reachable n)).apart hu
  by_cases hpolls : ∀ m ≥ n, ((r.state m).loops u).phase = .poll
  · refine ⟨n, le_rfl, ?_⟩
    intro k hk c hcall
    have hstep := r.step k
    rw [hcall] at hstep
    exact not_call_of_poll (r.reachable k) hne (hpolls k hk) hstep
  · simp only [not_forall] at hpolls
    obtain ⟨m, hm, hleft⟩ := hpolls
    have haway : ∀ k ≥ m, ((r.state k).loops u).phase ≠ .poll := by
      refine Run.stable (I := fun s : ServerRun T => (s.loops u).phase ≠ .poll) ?_ hleft
      intro k hk hbefore
      have hnk := hm.trans hk
      rcases loop_of_step (steps_of_step (r.step k).2) (mem_pool_stable hu k hnk) with
        ⟨c, hround⟩ | ⟨-, -, hstays⟩
      · exact hleaves k hnk c hround
      · rwa [hstays.phase]
    obtain ⟨k, hk, hcalls⟩ := hcalls m fun k hk hrests =>
      hrests.elim (haway k hk) (hnot k (hm.trans hk))
    exact ⟨k, hm.trans hk, hcalls⟩

theorem step_of_guarded [∀ s l, Decidable (Good s l)] [Fintype T] (s : ServerRun T)
    (l : ServerLabel T) (s' : ServerRun T) (h : TransitionSystem.guarded Good
      (TransitionSystem.guarded Permitted (step main)) s l = some s') :
    Good s l ∧ (system main).Step s l s' := by
  obtain ⟨hgood, hl⟩ := TransitionSystem.guarded_eq_some.mp h
  exact ⟨hgood, TransitionSystem.guarded_eq_some.mp hl⟩

/-! ## A run in which a loop goes round -/

/-- The thread of a loop of the pool finds nothing to do on its way through `loop()`. -/
structure Unoccupied (main u : T) (s : ServerRun T) : Prop where
  apart : u ≠ main
  stack : s.stack u = []
  returned : s.returned u = false
  handled : activeChannels u s = ∅
  queued : (s.loops u).queued = []
  quit : (s.loops u).quit_ = false

theorem Unoccupied.step (h : Unoccupied main u s) :
    ∃ l s', Goes main u s l ∧ (system main).Step s l s' ∧ Unoccupied main u s' := by
  obtain ⟨c, hc⟩ := (s.loops u).exists_advance
  obtain ⟨loop, ha⟩ := Option.isSome_iff_exists.mp hc
  have hd : ¬ s.Dispatches main u := by
    rintro (⟨hmain, -⟩ | ⟨k, hk, hpos, hloop, hactive⟩)
    · exact h.apart hmain
    · have hmem : k ∈ activeChannels u s :=
        Finset.mem_filter.mpr ⟨Finset.mem_range.mpr hk, hpos, hloop, hactive⟩
      rw [h.handled] at hmem
      cases hmem
  obtain ⟨s', hs'⟩ := exists_control h.stack h.returned hd ha
  have hs : Steps main s (.control u c) s' := steps_of_step hs'
  refine ⟨.control u c, s', ⟨rfl, rfl⟩, ⟨trivial, hs'⟩, ?_⟩
  have hhandled : activeChannels u s' = ∅ :=
    Finset.subset_empty.mp (h.handled ▸ activeChannels_step hs (by simp))
  cases hs with
  | control t c loop htop hreturned hd ha =>
    have hqueue := ha.started_append_queued
    rw [h.queued, List.append_eq_nil_iff] at hqueue
    refine ⟨h.apart, ?_, ?_, hhandled, ?_, ?_⟩
    · simp [setStack, hqueue.1]
    · simp [h.quit]
    · simpa [setStack, setLoop] using hqueue.2
    · simpa [setStack, setLoop] using ha.quit h.quit
  | pointers l k n hk hl => obtain ⟨t, hl | hl⟩ := hl <;> cases hl

theorem fair_of_goes {r : (system main).Run Good} {N : ℕ}
    (hgoes : ∀ n ≥ N, Goes main u (r.state n) (r.label n)) :
    r.Fair (Goes main u) ∧ CallsEnd u (Rests u) r := by
  constructor
  · intro n _
    exact ⟨n + N, Nat.le_add_right _ _, hgoes _ (Nat.le_add_left _ _)⟩
  · intro n _
    refine ⟨n + N, Nat.le_add_right _ _, ?_⟩
    intro k hk c hcall
    obtain ⟨-, huser⟩ := hgoes k ((Nat.le_add_left _ _).trans hk)
    rw [hcall] at huser
    cases huser

open ConnectionRun (Party silent)

/-- A connection has been handed to the loop of the pool. Its thread establishes
it and goes round from then on. -/
theorem exists_polling_run : ∃ r : (system Party.main).Run TransitionSystem.AnyStep,
    (r.state 0).threadPool_.loops_ = [.io] ∧
      ((r.state 0).loops .io).queued = [.connection 1 .connectEstablished] ∧
      (∀ n, ¬ (r.state n).returned .io = true) ∧
      r.Fair (Goes .main .io) ∧ CallsEnd .io (Rests .io) r := by
  have hbefore : (TransitionSystem.replay (TransitionSystem.guarded TransitionSystem.AnyStep
      (TransitionSystem.guarded Permitted (step .main))) (newServer 1)
      (listening ++ accepting 7)).map (fun s => (s.threadPool_.loops_, (s.loops .io).queued)) =
        some ([Party.io], [.connection 1 .connectEstablished]) := by decide +kernel
  have hafter : (TransitionSystem.replay (TransitionSystem.guarded TransitionSystem.AnyStep
      (TransitionSystem.guarded Permitted (step .main))) (newServer 1)
      (listening ++ accepting 7 ++ establishing)).map (fun s =>
        decide (s.stack .io = [] ∧ s.returned .io = false ∧ activeChannels .io s = ∅ ∧
          (s.loops .io).queued = [] ∧ (s.loops .io).quit_ = false)) = some true := by
    decide +kernel
  obtain ⟨s, hs, hobs⟩ := Option.map_eq_some_iff.mp hbefore
  rw [TransitionSystem.replay_append, hs, Option.bind_some] at hafter
  obtain ⟨t, ht, hobs'⟩ := Option.map_eq_some_iff.mp hafter
  simp only [Prod.mk.injEq] at hobs
  obtain ⟨hstack, hreturned, hhandled, hqueued, hquit⟩ := of_decide_eq_true hobs'
  have hreach := TransitionSystem.reachable_of_replay step_of_guarded (.init (init_newServer 1)) hs
  have hstep : ∀ s, Unoccupied Party.main .io s → ∃ l s', Goes Party.main .io s l ∧
      TransitionSystem.AnyStep s l ∧ (system Party.main).Step s l s' ∧
      Unoccupied Party.main .io s' := by
    intro s h
    obtain ⟨l, s', hgoes, hl, h'⟩ := h.step
    exact ⟨l, s', hgoes, trivial, hl, h'⟩
  obtain ⟨r₀, rfl, hround⟩ := Run.exists_forever hstep
    (TransitionSystem.reachable_of_replay step_of_guarded hreach ht)
    ⟨by decide, hstack, hreturned, hhandled, hqueued, hquit⟩
  obtain ⟨r, rfl, happend⟩ := Run.exists_replay_append step_of_guarded r₀ hreach ht
  refine ⟨r, hobs.1, hobs.2, ?_, fair_of_goes (N := establishing.length) ?_⟩
  · intro n hend
    have hstays := Run.stable (r := r) (I := fun s : ServerRun Party => s.returned .io = true)
      (fun m _ => returned_mono (steps_of_step (r.step m).2)) hend (n + establishing.length)
      (Nat.le_add_right _ _)
    rw [(happend n).1, (hround n).1.returned] at hstays
    cases hstays
  · intro n hn
    obtain ⟨k, rfl⟩ := Nat.exists_eq_add_of_le' hn
    rw [(happend k).1, (happend k).2]
    exact (hround k).2

/-- The thread comes back to its poll again and again. -/
theorem pool_thread_returns_to_poll_again :
    ∃ r : (system Party.main).Run TransitionSystem.AnyStep,
      ((r.state 0).loops .io).queued = [.connection 1 .connectEstablished] ∧
      ∀ n, ∃ m ≥ n, ((r.state m).loops .io).phase = .poll := by
  obtain ⟨r, hloops, hqueued, hreturned, hfair, hcalls⟩ := exists_polling_run
  refine ⟨r, hqueued, fun n => ?_⟩
  obtain ⟨m, hm, hrests⟩ := pool_thread_returns_to_poll r (by simp [hloops]) hfair hcalls n
  exact ⟨m, hm, hrests.resolve_right (hreturned m)⟩

end ServerRun
end MuduoCore
