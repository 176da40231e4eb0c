import MuduoCore.Foundation.Progress
import MuduoCore.Connection.OutputStream
import MuduoCore.Server.PoolThreads
import MuduoCore.Server.RoundRobin

/-!
# A thread of the pool waits for the kernel only

What the thread of a pool's loop does between two polls: handlers, functors and
what they leave on its stack. Every instruction makes place for smaller ones,
every handler that has been run is gone, and a functor that is queued meanwhile
waits for the next round. So the thread comes back to its poll or to its end,
and nothing on the way makes it wait for another thread.
-/

namespace MuduoCore

theorem EventLoop.exists_advance {F : Type*} (l : EventLoop F) :
    ∃ c, (l.advance c).isSome = true := by
  cases hp : l.phase with
  | outside => exact ⟨.enter, by simp [advance, hp]⟩
  | test =>
    refine ⟨.test, ?_⟩
    simp only [advance, hp]
    split_ifs <;> rfl
  | poll => exact ⟨.pollReturn false, by simp [advance, hp]⟩
  | dispatch wakeup =>
    cases wakeup with
    | true => exact ⟨.handleRead, by simp [advance, hp]⟩
    | false => exact ⟨.endDispatch, by simp [advance, hp]⟩
  | swap => exact ⟨.swap, by simp [advance, hp]⟩
  | batch ran todo =>
    cases todo with
    | nil => exact ⟨.endBatch, by simp [advance, hp]⟩
    | cons cb todo => exact ⟨.runNext, by simp [advance, hp]⟩
  | body ran cb todo => exact ⟨.endBody, by simp [advance, hp]⟩
  | release ran => exact ⟨.release, by simp [advance, hp]⟩

/-- What an instruction puts in its place has a smaller rank. -/
def Instr.rank {T : Type*} : Instr T → ℕ
  | handle .closeCallback => 5
  | handle _ => 6
  | send _ | sendFile _ _ _ | shutdown | closeCallback => 4
  | runInLoop _ _ => 3
  | call _ => 2
  | queueInLoop _ _ | connectionCallback | messageCallback => 1
  | setState _ | changeInterest _ | remove | drained | wakeup _ | user | release => 0

theorem Instr.rank_lt {T : Type*} {io main t : T} {i j : Instr T}
    (h : Shared.Follows io main t i j) : j.rank < i.rank := by
  cases h <;> simp [rank]

def ServerInstr.rank {T : Type*} : ServerInstr T → ℕ
  | connection _ i => i.rank
  | start | handleRead => 4
  | listenInLoop => 3
  | call _ => 2
  | queueInLoop _ _ | quit _ => 1
  | wakeup _ | startLoop | threadInitCallback | destroyConnections | join _ | destroyAcceptor
  | destroyed => 0

/-- Functors and the halves of `queueInLoop` are the server's, also where they
are of a connection. -/
def ServerInstr.isTagged {T : Type*} : ServerInstr T → Bool
  | connection _ (.queueInLoop _ _) | connection _ (.wakeup _) | connection _ (.call _) => false
  | _ => true

def ServerInstr.awaits {T : Type*} : ServerInstr T → Bool
  | destroyConnections | join _ => true
  | _ => false

structure ServerInstr.Sound {T : Type*} (main t : T) (i : ServerInstr T) : Prop where
  tagged : i.isTagged = true
  place : i.awaits = true → t = main

/-- The instruction neither brings a loop or a connection nor takes part in the
way the destructor ends. -/
def ServerInstr.isPlain {T : Type*} : ServerInstr T → Bool
  | start | startLoop | handleRead | quit _ | join _ | destroyed => false
  | _ => true

def ServerLabel.isUser {T : Type*} : ServerLabel T → Bool
  | call _ _ | store _ _ _ | copy _ _ | drop _ _ => true
  | _ => false

namespace ServerInstr

variable {T : Type*} {main t : T} {s : ServerRun T} {i j : ServerInstr T}

theorem Sound.of_awaits (htagged : i.isTagged = true) (hawaits : i.awaits = false) :
    i.Sound main t := by
  refine ⟨htagged, ?_⟩
  intro h
  rw [hawaits] at h
  cases h

theorem rank_tag (k : ℕ) (i : Instr T) : (i.tag k).rank = i.rank := by
  cases i <;> rfl

theorem rank_of_ofConnection {k : ℕ} {c : Instr T} (h : i.ofConnection = some (k, c)) :
    i.rank = c.rank := by
  cases i with
  | connection j c =>
    cases h
    rfl
  | call f =>
    cases f with
    | connection j f =>
      cases h
      rfl
    | listen | other => cases h
  | _ => cases h

theorem rank_lt (h : ServerRun.OwnFollows main t s i j) : j.rank < i.rank := by
  cases h <;> simp [rank, Instr.rank]

theorem isPlain_tag (k : ℕ) (i : Instr T) : (i.tag k).isPlain = true := by
  cases i <;> rfl

theorem isPlain_of_follows (h : ServerRun.OwnFollows main t s i j) :
    j.isPlain = true ∨ i = .start := by
  cases h with
  | start_loop => exact .inr rfl
  | _ => exact .inl rfl

end ServerInstr

namespace ServerRun

open ConnectionRun (wouldBlock)
open InstructionStack (weight)

variable {T : Type*} [DecidableEq T] {main u : T} {s s' : ServerRun T}

/-! ## The stack of a thread -/

theorem replaced_of_exec {o : Outcome} (hs : Steps main s (.exec u o) s') :
    ∃ head rest new, s.stack u = head :: rest ∧
      s'.stack = Function.update s.stack u (new ++ rest) ∧
      ∀ j ∈ new, j.rank < head.rank ∧ (j.isPlain = true ∨ head = .start) := by
  cases hs with
  | run t o head k i rest c new hs hi hr =>
    refine ⟨head, rest, new.map (Instr.tag k), hs, rfl, ?_⟩
    intro j hj
    obtain ⟨c', hc', rfl⟩ := List.mem_map.mp hj
    rw [ServerInstr.rank_tag, ServerInstr.rank_of_ofConnection hi]
    exact ⟨Instr.rank_lt (Shared.follows_of_run hr hc'), .inl (ServerInstr.isPlain_tag k c')⟩
  | own t o i rest r new hs hr =>
    refine ⟨i, rest, new, hs, by rw [setStack, (frame_of_run hr).1], ?_⟩
    intro j hj
    have hfollows := ownFollows_of_run hr hj
    exact ⟨ServerInstr.rank_lt hfollows, ServerInstr.isPlain_of_follows hfollows⟩
  | queue t o loop cb rest hs =>
    refine ⟨_, rest, .wakeup loop :: cb.destructor, hs, rfl, ?_⟩
    intro j hj
    rcases List.mem_cons.mp hj with rfl | hj
    · exact ⟨Nat.one_pos, .inl rfl⟩
    · cases cb with
      | connection k f =>
        simp only [ServerFunctor.destructor, Functor.destructor] at hj
        split_ifs at hj
        · rw [List.mem_singleton.mp hj]
          exact ⟨Nat.one_pos, .inl rfl⟩
        · cases hj
      | listen | other => cases hj
  | wakeup t o loop rest hs => exact ⟨_, rest, [], hs, rfl, by simp⟩
  | pointers l k n hk hl => obtain ⟨t, hl | hl⟩ := hl <;> cases hl

omit [DecidableEq T] in
theorem fits_wouldBlock (len : ℕ) : wouldBlock.Fits len := by
  intro n hn
  cases hn

/-- An instruction of a connection can be executed whatever the connection is
like, where the kernel accepts and delivers nothing. -/
theorem exists_run (c : Shared T) (io t : T) {i : Instr T}
    (hqueue : ∀ loop f, i ≠ .queueInLoop loop f) (hwakeup : ∀ loop, i ≠ .wakeup loop) :
    ∃ r, c.run io main t i wouldBlock = some r := by
  cases i with
  | queueInLoop loop f => exact absurd rfl (hqueue loop f)
  | wakeup loop => exact absurd rfl (hwakeup loop)
  | call f =>
    cases f with
    | sendInLoop p | sendFileInLoop fileDescriptor offset count =>
      simp only [Shared.run, Shared.body, if_pos (fits_wouldBlock _)]
      exact ⟨_, rfl⟩
    | _ => exact ⟨_, rfl⟩
  | handle cb =>
    cases cb with
    | writeCallback =>
      simp only [Shared.run, Shared.handler, if_pos (fits_wouldBlock _)]
      exact ⟨_, rfl⟩
    | _ => exact ⟨_, rfl⟩
  | _ => exact ⟨_, rfl⟩

theorem exists_exec {i : ServerInstr T} {rest : List (ServerInstr T)} (hs : s.stack u = i :: rest)
    (htag : i.isTagged = true) (hstart : i ≠ .startLoop)
    (hawaits : i.awaits = true → ∃ r, s.run main u i wouldBlock = some r) :
    ∃ s', (system main).Step s (.exec u wouldBlock) s' := by
  suffices h : ∃ s', s.exec main u wouldBlock = some s' from h.imp fun _ hs' => ⟨trivial, hs'⟩
  cases i with
  | startLoop => exact absurd rfl hstart
  | destroyConnections | join loop =>
    obtain ⟨r, hr⟩ := hawaits rfl
    rw [exec, hs]
    simp only [ServerInstr.ofConnection, hr]
    exact ⟨_, rfl⟩
  | queueInLoop loop cb | wakeup loop =>
    rw [exec, hs]
    exact ⟨_, rfl⟩
  | connection k i =>
    have hrun : ∃ r, (s.shared k).run (s.connection k).loop_ main u i wouldBlock = some r := by
      refine exists_run _ _ _ ?_ ?_
      · rintro loop f rfl
        cases htag
      · rintro loop rfl
        cases htag
    obtain ⟨r, hr⟩ := hrun
    rw [exec, hs]
    simp only [ServerInstr.ofConnection, hr]
    exact ⟨_, rfl⟩
  | call f =>
    rw [exec, hs]
    cases f with
    | connection k f =>
      have hrun : ∃ r, (s.shared k).run (s.connection k).loop_ main u (.call f) wouldBlock =
          some r := by
        refine exists_run _ _ _ ?_ ?_
        · intro loop f h
          cases h
        · intro loop h
          cases h
      obtain ⟨r, hr⟩ := hrun
      simp only [ServerInstr.ofConnection, hr]
      exact ⟨_, rfl⟩
    | listen | other => exact ⟨_, rfl⟩
  | _ =>
    rw [exec, hs]
    exact ⟨_, rfl⟩

/-! ## What can stand on which stack -/

omit [DecidableEq T] in
theorem sound_tag {t : T} (k : ℕ) (i : Instr T) : (i.tag k).Sound main t := by
  cases i <;> exact .of_awaits rfl rfl

theorem sound_of_code {t : T} {c : ServerCall T} {r : ServerRun T} {new : List (ServerInstr T)}
    (hc : s.code main t c = some (r, new)) : ∀ i ∈ new, i.Sound main t := by
  intro i hi
  cases codes_of_code hc with
  | connection k c hk hcallbacks =>
    obtain ⟨j, _, rfl⟩ := List.mem_map.mp hi
    exact sound_tag k j
  | queueInLoop | start =>
    rw [List.mem_singleton.mp hi]
    exact .of_awaits rfl rfl
  | destroy ht hlife =>
    refine ⟨?_, fun _ => ht⟩
    simp only [List.mem_cons, List.mem_append, List.mem_flatMap, List.not_mem_nil,
      or_false] at hi
    grind [ServerInstr.isTagged]

theorem sound_of_reachable {Good : ServerRun T → ServerLabel T → Prop}
    (h : (system main).Reachable Good s) : ∀ t, ∀ i ∈ s.work t, i.Sound main t := by
  refine h.invariant (I := fun s => ∀ t, ∀ i ∈ s.work t, i.Sound main t) ?_ ?_
  · intro s hinit t i hi
    rw [work, hinit.stack t, List.nil_append] at hi
    obtain ⟨f, hf, rfl⟩ := List.mem_map.mp hi
    rw [hinit.held t f (EventLoop.mem_held_of_mem_queued hf)]
    exact .of_awaits rfl rfl
  · intro s l s' hi _ hs
    have hsteps := steps_of_step hs.2
    apply hsteps.forall_work (P := fun t i => i.Sound main t) hi
    · intro t o head k i c new _ _ _ j _
      exact sound_tag k j
    · intro t o i rest r new _ hr _ j hj
      cases ownFollows_of_run hr hj <;> exact .of_awaits rfl rfl
    · exact fun t loop => .of_awaits rfl rfl
    · exact fun t k _ => .of_awaits rfl rfl
    · intro t loop cb _
      cases cb <;> exact .of_awaits rfl rfl
    · exact fun k _ => .of_awaits rfl rfl
    · exact fun k cb _ => .of_awaits rfl rfl
    · exact .of_awaits rfl rfl
    · exact fun t c r new _ hc => sound_of_code hc

theorem stack_of_joining {l : ServerLabel T} (hs : Steps main s l s') {u : T}
    (hu : u ∈ s'.threadPool_.loops_) : u ∈ s.threadPool_.loops_ ∨ s'.stack u = [] := by
  cases hs with
  | own t o i rest r new hs hr =>
    rcases run_cases hr with ⟨sockfd, -, hnew⟩ | ⟨-, -, hr⟩
    · obtain ⟨-, -, rfl⟩ := newConnection_eq hnew
      exact .inl (s.threadPool_.getNextLoop_loops ▸ hu)
    · rw [hr] at hu
      exact .inl hu
  | startLoop t loop rest hs hmain hself hnew hloop hstack =>
    rcases List.mem_append.mp hu with hu | hu
    · exact .inl hu
    · obtain rfl := List.mem_singleton.mp hu
      exact .inr (by simp [setStack, Function.update_of_ne hself, hstack])
  | call t c r new hu' hc =>
    rw [frame_of_code hc] at hu
    exact .inl hu
  | _ => exact .inl hu

theorem not_starts_of_pool {Good : ServerRun T → ServerLabel T → Prop}
    (h : (system main).Reachable Good s) :
    ∀ u ∈ s.threadPool_.loops_, ∀ i ∈ s.stack u, i.starts = false := by
  refine h.invariant_of (J := Startup) (fun _ => startup_of_reachable)
    (I := fun s => ∀ u ∈ s.threadPool_.loops_, ∀ i ∈ s.stack u, i.starts = false) ?_ ?_
  · intro s hinit u _ i hi
    rw [hinit.stack u] at hi
    cases hi
  · intro s l s' ih hstartup _ hs u hu i hi
    have hkept : ∀ {t rest new}, u ∈ s.threadPool_.loops_ → rest <:+ s.stack t →
        (∀ i ∈ new, i.starts = false) → s'.stack = Function.update s.stack t (new ++ rest) →
        i.starts = false := by
      intro t rest new hu hrest hnew hs'
      rw [hs'] at hi
      by_cases hut : u = t
      · subst hut
        rw [Function.update_self] at hi
        rcases List.mem_append.mp hi with hi | hi
        · exact hnew i hi
        · exact ih u hu i (hrest.subset hi)
      · rw [Function.update_of_ne hut] at hi
        exact ih u hu i hi
    have hsteps := steps_of_step hs.2
    rcases stack_of_joining hsteps hu with hbefore | hnil
    · cases startSteps_of_step hsteps with
      | quiet t popped kept new htop hs' hpopped hnew =>
        exact hkept hbefore (htop ▸ List.suffix_append popped kept) hnew hs'
      | start t rest init htop h0 =>
        -- the first call of `start` finds no loops
        cases hstartup with
        | fresh _ _ _ hnone =>
          rw [hnone] at hbefore
          cases hbefore
        | creating _ _ _ h0' | started h0' => exact absurd h0 h0'
      | startLoop t loop rest htop hs' =>
        exact hkept hbefore (htop ▸ List.suffix_cons _ rest) (List.forall_mem_nil _) hs'
      | listen t rest new htop hs' hnew =>
        exact hkept hbefore (htop ▸ List.suffix_cons _ rest) hnew hs'
    · rw [hnil] at hi
      cases hi

/-! ## Going on -/

/-- Thread `u` takes the step, and not in code of the user. -/
def Goes (main u : T) (s : ServerRun T) (l : ServerLabel T) : Prop :=
  l.thread s.loopOf main = u ∧ l.isUser = false

theorem exists_control {c : LoopStep} {loop : EventLoop (ServerFunctor T)} (hs : s.stack u = [])
    (hreturned : s.returned u = false) (hd : ¬ s.Dispatches main u)
    (ha : (s.loops u).advance c = some loop) : ∃ s', s.step main (.control u c) = some s' := by
  have hguard : ¬ (s.stack u ≠ [] ∨ s.returned u = true ∨
      (s.Dispatches main u ∧ c = .endDispatch)) := by
    rintro (h | h | ⟨h, -⟩)
    · exact h hs
    · rw [hreturned] at h
      cases h
    · exact hd h
  rw [step, control, if_neg hguard, ha]
  exact ⟨_, rfl⟩

theorem exists_handleEvent (hs : s.stack u = []) (hne : u ≠ main) (hd : s.Dispatches main u) :
    (system main).Enabled (Goes main u) s := by
  rcases hd with ⟨hmain, -⟩ | ⟨k, hk, hpos, hloop, hactive⟩
  · exact absurd hmain hne
  · suffices h : ∃ s', s.step main (.handleEvent k) = some s' by
      obtain ⟨s', hs'⟩ := h
      exact ⟨.handleEvent k, s', ⟨hloop, rfl⟩, trivial, hs'⟩
    rw [step, handleEvent, if_pos ⟨⟨hpos, hk⟩, by rw [hloop, hs], hactive⟩]
    exact ⟨_, rfl⟩

/-- A thread of the pool that has not come to its end can go on: its poll
returns at the latest when its time is over. -/
theorem enabled_of_pool {Good : ServerRun T → ServerLabel T → Prop}
    (h : (system main).Reachable Good s) (hu : u ∈ s.threadPool_.loops_)
    (hreturned : s.returned u = false) : (system main).Enabled (Goes main u) s := by
  have hne : u ≠ main := by
    rintro rfl
    exact (poolThreads_of_reachable h).apart hu
  cases hs : s.stack u with
  | cons i rest =>
    have hi : i ∈ s.stack u := by simp [hs]
    have hsound := sound_of_reachable h u i (List.mem_append_left _ hi)
    have hstart := not_starts_of_pool h u hu i hi
    have hne' : i ≠ .startLoop := by
      rintro rfl
      cases hstart
    obtain ⟨s', hs'⟩ := exists_exec hs hsound.tagged hne' fun hawaits =>
      absurd (hsound.place hawaits) hne
    exact ⟨_, s', ⟨rfl, rfl⟩, hs'⟩
  | nil =>
    by_cases hd : s.Dispatches main u
    · exact exists_handleEvent hs hne hd
    · obtain ⟨c, hc⟩ := (s.loops u).exists_advance
      obtain ⟨loop, ha⟩ := Option.isSome_iff_exists.mp hc
      obtain ⟨s', hs'⟩ := exists_control hs hreturned hd ha
      exact ⟨.control u c, s', ⟨rfl, rfl⟩, trivial, hs'⟩

end ServerRun
end MuduoCore
