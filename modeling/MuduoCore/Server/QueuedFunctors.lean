import MuduoCore.Server.FairRuns

/-!
# What is queued on a loop of the pool is run

`queueInLoop` hands a functor over to the thread of a loop and relies on it to
run the functor some time. It does: in a fair run the functors in the queue of a
loop of the pool are started, in their order, whatever is queued behind them,
unless the thread comes to its end before.
-/

namespace MuduoCore

/-- How far a phase is from a functor that can be started. -/
def LoopPhase.toNext {F : Type*} : LoopPhase F → ℕ
  | outside => 9
  | body _ _ [] => 8
  | batch _ [] => 7
  | release _ => 6
  | test => 5
  | poll => 4
  | dispatch true => 3
  | dispatch false => 2
  | swap | body _ _ (_ :: _) => 1
  | batch _ (_ :: _) => 0

theorem EventLoop.Advances.toNext_lt {F : Type*} {l l' : EventLoop F} {c : LoopStep}
    (h : l.Advances c l') (hnext : c ≠ .runNext) (hqueued : l.queued ≠ [])
    (hleave : l'.phase ≠ .outside) : l'.phase.toNext < l.phase.toNext := by
  cases h with
  | leave => exact absurd rfl hleave
  | runNext => exact absurd rfl hnext
  | swap hp =>
    rw [hp]
    cases hpending : l.pendingFunctors_ with
    | nil => exact absurd (by simp [EventLoop.queued, hp, LoopPhase.todo, hpending]) hqueued
    | cons cb todo => exact Nat.one_pos
  | endBody ran cb todo hp =>
    rw [hp]
    cases todo <;> simp [LoopPhase.toNext]
  | pollReturn w hp =>
    rw [hp]
    cases w <;> simp [LoopPhase.toNext]
  | enter hp | again hp | handleRead hp | endDispatch hp | endBatch ran hp | release ran hp =>
    rw [hp]
    simp [LoopPhase.toNext]

namespace ServerRun

open TransitionSystem (Run)

variable {T : Type*} [DecidableEq T] {main u : T} {s s' : ServerRun T}
  {Good : ServerRun T → ServerLabel T → Prop}

def startedBy (u : T) (s : ServerRun T) : ServerLabel T → List (ServerFunctor T)
  | .control t c => if t = u then (s.loops u).started c else []
  | _ => []

def startedFrom (r : (system main).Run Good) (u : T) (n : ℕ) : ℕ → List (ServerFunctor T)
  | 0 => []
  | k + 1 => startedFrom r u n k ++ startedBy u (r.state (n + k)) (r.label (n + k))

theorem GoesRound.startedBy_eq {l : ServerLabel T} {c : LoopStep} (h : GoesRound u s l s' c) :
    startedBy u s l = (s.loops u).started c := by
  rcases h.label with rfl | ⟨w, rs, a, rfl, rfl⟩
  · exact if_pos rfl
  · rfl

/-- A step takes what it starts from the front of the queue, and adds behind it. -/
theorem queued_step {l : ServerLabel T} (hs : Steps main s l s') (hu : u ∈ s.threadPool_.loops_) :
    ∃ new, startedBy u s l ++ (s'.loops u).queued = (s.loops u).queued ++ new := by
  rcases loop_of_step hs hu with ⟨c, hround⟩ | ⟨hcontrol, -, hstays⟩
  · refine ⟨[], ?_⟩
    rw [hround.startedBy_eq, hround.advances.started_append_queued, List.append_nil]
  · have hnone : startedBy u s l = [] := by
      cases l with
      | control t c =>
        refine if_neg ?_
        rintro rfl
        exact hcontrol c rfl
      | _ => rfl
    obtain ⟨new, hnew⟩ := hstays.queued
    refine ⟨new, ?_⟩
    rw [hnone, EventLoop.queued, EventLoop.queued, hstays.phase, hnew, List.nil_append,
      List.append_assoc]

theorem startedFrom_queued {r : (system main).Run Good} {n : ℕ}
    (hu : u ∈ (r.state n).threadPool_.loops_) (k : ℕ) :
    ∃ new, startedFrom r u n k ++ ((r.state (n + k)).loops u).queued =
      ((r.state n).loops u).queued ++ new := by
  induction k with
  | zero => exact ⟨[], by simp [startedFrom]⟩
  | succ k ih =>
    obtain ⟨new, hnew⟩ := ih
    obtain ⟨last, hlast⟩ := queued_step (steps_of_step (r.step (n + k)).2)
      (mem_pool_stable hu (n + k) (Nat.le_add_right n k))
    refine ⟨new ++ last, ?_⟩
    rw [startedFrom, List.append_assoc, ← Nat.add_assoc, hlast, ← List.append_assoc, hnew,
      List.append_assoc]

theorem length_startedFrom_mono {r : (system main).Run Good} {n : ℕ} :
    Monotone fun k => (startedFrom r u n k).length := by
  refine monotone_nat_of_le_succ ?_
  intro k
  rw [startedFrom, List.length_append]
  exact Nat.le_add_right _ _

/-- With a functor in its queue all the time, the thread starts one. -/
theorem exists_started {r : (system main).Run Good} {n : ℕ}
    (hu : u ∈ (r.state n).threadPool_.loops_) (hfair : r.Fair (Goes main u))
    (hcalls : CallsEnd u (Rests u) r) (hreturned : ∀ m ≥ n, ¬ (r.state m).returned u = true)
    (hqueued : ∀ m ≥ n, ((r.state m).loops u).queued ≠ []) :
    ∃ m ≥ n, startedBy u (r.state m) (r.label m) ≠ [] := by
  by_contra hnone
  have hquiet : ∀ m ≥ n, startedBy u (r.state m) (r.label m) = [] :=
    fun m hm => not_not.mp fun h => hnone ⟨m, hm, h⟩
  have hnearer : ∀ m ≥ n, ∀ c, GoesRound u (r.state m) (r.label m) (r.state (m + 1)) c →
      ((r.state (m + 1)).loops u).phase.toNext < ((r.state m).loops u).phase.toNext := by
    intro m hm c hround
    refine hround.advances.toNext_lt ?_ (hqueued m hm) ?_
    · rintro rfl
      obtain ⟨f, hf⟩ := hround.advances.exists_started
      have hnil := hquiet m hm
      rw [hround.startedBy_eq, hf] at hnil
      cases hnil
    · exact fun hout => hreturned _ (hm.trans m.le_succ) (hround.returns hout)
  -- it polls once at most before it has the functor in a batch
  obtain ⟨N, hN, hleaves⟩ : ∃ N ≥ n, ∀ m ≥ N, ∀ c,
      GoesRound u (r.state m) (r.label m) (r.state (m + 1)) c →
      ((r.state (m + 1)).loops u).phase ≠ .poll := by
    by_cases hpolls : ∃ N ≥ n, ((r.state N).loops u).phase = .poll
    · obtain ⟨N, hN, hpoll⟩ := hpolls
      have hnear : ∀ m ≥ N, ((r.state m).loops u).phase.toNext ≤ 4 := by
        refine Run.stable (I := fun s : ServerRun T => (s.loops u).phase.toNext ≤ 4) ?_
          (by rw [hpoll]; exact le_rfl)
        intro m hm hle
        rcases loop_of_step (steps_of_step (r.step m).2) (mem_pool_stable hu m (hN.trans hm)) with
          ⟨c, hround⟩ | ⟨-, -, hstays⟩
        · exact (hnearer m (hN.trans hm) c hround).le.trans hle
        · rwa [hstays.phase]
      refine ⟨N, hN, ?_⟩
      intro m hm c hround hpoll'
      have hlt := hnearer m (hN.trans hm) c hround
      rw [hpoll'] at hlt
      exact absurd (hnear m hm) (not_le.mpr hlt)
    · refine ⟨n, le_rfl, ?_⟩
      intro m hm c _ hpoll
      exact hpolls ⟨m + 1, hm.trans m.le_succ, hpoll⟩
  have hpool := mem_pool_stable hu N hN
  have hnot : ∀ m ≥ N, ¬ (r.state m).returned u = true := fun m hm => hreturned m (hN.trans hm)
  obtain ⟨m, hm, hend⟩ : ∃ m ≥ N, (r.state m).returned u = true := by
    refine reaches_of_pool (fun p => (p.toNext, 0)) (P := fun s => s.returned u = true) hpool hfair
      (fun _ => calls_end_of_leaving hpool hcalls hnot hleaves) (fun _ => id) ?_
    intro m hm _ _ c hround
    exact .left _ _ (hnearer m (hN.trans hm) c hround)
  exact hnot m hm hend

/-- Whatever is queued on a loop of the pool is run: in every run in which its
thread goes on whenever it can, the functors that wait at some time are started
from then on before all others and in their order, unless the thread ends. -/
theorem no_functor_starves (r : (system main).Run Good)
    (hu : u ∈ (r.state 0).threadPool_.loops_) (hfair : r.Fair (Goes main u))
    (hcalls : CallsEnd u (Rests u) r) (n : ℕ) :
    ∃ k, (r.state (n + k)).returned u = true ∨
      ((r.state n).loops u).queued <+: startedFrom r u n k := by
  have hpool := mem_pool_stable hu n n.zero_le
  suffices hcount : ∀ j ≤ ((r.state n).loops u).queued.length, ∃ k,
      (r.state (n + k)).returned u = true ∨ j ≤ (startedFrom r u n k).length by
    obtain ⟨k, hk⟩ := hcount _ le_rfl
    refine ⟨k, hk.imp_right fun hlen => ?_⟩
    obtain ⟨new, hnew⟩ := startedFrom_queued hpool k
    exact List.prefix_of_prefix_length_le ⟨new, rfl⟩ ⟨_, hnew⟩ hlen
  intro j hj
  induction j with
  | zero => exact ⟨0, .inr (Nat.zero_le _)⟩
  | succ j ih =>
    obtain ⟨k, hend | hlen⟩ := ih (Nat.le_of_succ_le hj)
    · exact ⟨k, .inl hend⟩
    · by_contra hnever
      have hlater : ∀ m ≥ n + k, ∃ i ≥ k, m = n + i := by
        intro m hm
        exact ⟨m - n, by omega, by omega⟩
      have hfew : ∀ i, (startedFrom r u n i).length ≤ j :=
        fun i => not_lt.mp fun hlt => hnever ⟨i, .inr hlt⟩
      obtain ⟨m, hm, hstarts⟩ : ∃ m ≥ n + k, startedBy u (r.state m) (r.label m) ≠ [] := by
        refine exists_started (mem_pool_stable hu _ (Nat.zero_le _)) hfair hcalls ?_ ?_
        · intro m hm hend
          obtain ⟨i, -, rfl⟩ := hlater m hm
          exact hnever ⟨i, .inl hend⟩
        · intro m hm hnil
          obtain ⟨i, -, rfl⟩ := hlater m hm
          obtain ⟨new, hnew⟩ := startedFrom_queued hpool i
          have hlength := congrArg List.length hnew
          simp only [hnil, List.length_append, List.length_nil] at hlength
          have hle := hfew i
          omega
      obtain ⟨i, hi, rfl⟩ := hlater m hm
      have hmono : (startedFrom r u n k).length ≤ (startedFrom r u n i).length :=
        length_startedFrom_mono hi
      have hle := hfew (i + 1)
      rw [startedFrom, List.length_append] at hle
      have hpos := List.length_pos_iff.mpr hstarts
      omega

open ConnectionRun (Party)

/-- The connection that has been handed to the loop of the pool is established. -/
theorem no_functor_starves_established :
    ∃ r : (system Party.main).Run TransitionSystem.AnyStep,
      ((r.state 0).loops .io).queued = [.connection 1 .connectEstablished] ∧
      ∀ n, ∃ k, ((r.state n).loops .io).queued <+: startedFrom r .io n k := by
  obtain ⟨r, hloops, hqueued, hreturned, hfair, hcalls⟩ := exists_polling_run
  refine ⟨r, hqueued, fun n => ?_⟩
  obtain ⟨k, hk⟩ := no_functor_starves r (by simp [hloops]) hfair hcalls n
  exact ⟨k, hk.resolve_left (hreturned (n + k))⟩

end ServerRun
end MuduoCore
