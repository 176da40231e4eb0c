import MuduoCore.Loop.EventLoopThread
import MuduoCore.Loop.ThreadIdentity

/-!
# The loops of a program

A main thread that may have a loop of its own, and any number of
`EventLoopThread` objects. Threads and loops have the same names: `none` is the
main thread and its loop, `some k` the thread of object `k` and the local variable
of its `threadFunc`. However these run, every loop is on a thread of its own, and
`isInLoopThread()` tells the thread of the loop from all others.
-/

namespace MuduoCore

structure LoopPool (F T K : Type*) where
  process : Process (Option K) (Option K)
  thread : K → EventLoopThread F T

inductive LoopPoolLabel (F T K : Type*)
  /-- the main thread and its loop; `isInLoopThread()` on any thread -/
  | process (l : ProcessLabel (Option K) (Option K))
  /-- a step of an `EventLoopThread`, with the number of the thread that it may start -/
  | thread (k : K) (l : ThreadLabel F T) (gettid : ℕ)

namespace LoopPool

variable {F T K : Type*} [DecidableEq T] [DecidableEq K]

def processLabel (k : K) (gettid : ℕ) :
    ThreadLabel F T → Option (ProcessLabel (Option K) (Option K))
  | .startLoop => some (.clone (some k) gettid)
  | .construct => some (.construct (some k) (some k))
  | .destroy => some (.destroy (some k) (some k))
  | .ret => some (.exit (some k))
  | _ => none

def ofMain : ProcessLabel (Option K) (Option K) → Prop
  | .construct t l | .destroy t l => t = none ∧ l = none
  | .isInLoopThread _ _ _ => True
  | .clone _ _ | .exit _ => False

inductive Steps (u : T) (s : LoopPool F T K) : LoopPoolLabel F T K → LoopPool F T K → Prop
  | process (l : ProcessLabel (Option K) (Option K)) (p : Process (Option K) (Option K))
      (hl : ofMain l) (hs : Process.Steps s.process l p) :
      Steps u s (.process l) { s with process := p }
  | thread (k : K) (l : ThreadLabel F T) (gettid : ℕ) (e : EventLoopThread F T)
      (p : Process (Option K) (Option K)) (he : (s.thread k).step u l = some e)
      (hnone : processLabel k gettid l = none → p = s.process)
      (hsome : ∀ m, processLabel k gettid l = some m → Process.Steps s.process m p) :
      Steps u s (.thread k l gettid) ⟨p, Function.update s.thread k e⟩

def system (u : T) : TransitionSystem (LoopPool F T K) (LoopPoolLabel F T K) where
  Init s := (Process.system none).Init s.process ∧ s.thread = fun _ => .create
  Step s l s' := Steps u s l s'

/-- Loops are with their threads, and threads are where their `threadFunc` is. -/
structure Matches (s : LoopPool F T K) : Prop where
  reachable : (Process.system none).Reachable Process.Scoped s.process
  self : ∀ m loop, s.process.loop m = some loop → loop.creator = m
  loops : ∀ k, (s.process.loop (some k)).isSome = (s.thread k).thread.hasLoop
  live : ∀ k, (s.process.locals (some k)).isSome = !(s.thread k).thread.isOver

variable {u : T} {s s' : LoopPool F T K}

omit [DecidableEq T] in
theorem matches_init (hp : (Process.system none).Init s.process)
    (ht : s.thread = fun _ => .create) : Matches s := by
  obtain ⟨gettid, _, hloop, hthread⟩ := id hp
  refine ⟨.init hp, ?_, ?_, ?_⟩
  · intro m loop hm
    rw [hloop] at hm
    cases hm
  · intro k
    simp [hloop, ht, EventLoopThread.create, ThreadPhase.hasLoop]
  · intro k
    simp [Process.locals, hthread, ht, EventLoopThread.create, ThreadPhase.isOver, Life.locals]

omit [DecidableEq K] in
/-- Between its constructor and its destructor the loop stays, whatever
`threadFunc` and the others do. -/
theorem phase_of_step {k : K} {gettid : ℕ} {l : ThreadLabel F T} {e e' : EventLoopThread F T}
    (he : e.step u l = some e') (hnone : processLabel k gettid l = none) :
    e'.thread.hasLoop = e.thread.hasLoop ∧ e'.thread.isOver = e.thread.isOver := by
  cases EventLoopThread.steps_of_step he with
  | startLoop ho ht | construct ht | destroy ht | ret ht => cases hnone
  | publish ht hown | clear ht => simp [ht, ThreadPhase.hasLoop, ThreadPhase.isOver]
  | loop l threads ha hs =>
    cases l with
    | control c =>
      cases c with
      | enter =>
        have hthread : e.thread = .published := by simpa [EventLoopThread.allows] using ha
        simp [EventLoopThread.after, hthread, ThreadPhase.hasLoop, ThreadPhase.isOver]
      | _ =>
        have hthread : e.thread = .looping := by simpa [EventLoopThread.allows] using ha
        simp only [EventLoopThread.after, hthread]
        split_ifs <;> exact ⟨rfl, rfl⟩
    | _ => exact ⟨rfl, rfl⟩
  | _ => exact ⟨rfl, rfl⟩

omit [DecidableEq T] in
/-- The loops of the program are destroyed where they were made. -/
theorem Matches.scoped (h : Matches s) {l : ProcessLabel (Option K) (Option K)} (hl : ofMain l) :
    s.process.Scoped l := by
  cases l with
  | destroy t m =>
    obtain ⟨rfl, rfl⟩ := hl
    exact fun loop hm => h.self none loop hm
  | exit t => cases hl
  | clone t gettid => cases hl
  | construct t m => trivial
  | isInLoopThread t m answer => trivial

omit [DecidableEq T] in
theorem Matches.process (h : Matches s) {l : ProcessLabel (Option K) (Option K)}
    {p : Process (Option K) (Option K)} (hl : ofMain l) (hs : Process.Steps s.process l p) :
    Matches { s with process := p } := by
  have hinv := Process.inv_of_reachable h.reachable
  have hreachable := h.reachable.step (h.scoped hl) hs
  have hloop := Process.loop_of_steps hinv hs
  have hlive := Process.isSome_locals_of_steps hinv hs
  cases l with
  | construct t m =>
    obtain ⟨rfl, rfl⟩ := hl
    obtain ⟨threadId, hloop⟩ := hloop
    refine ⟨hreachable, ?_, fun k => ?_, fun k => (hlive _).trans (h.live k)⟩
    · intro m loop hm
      rw [hloop] at hm
      cases m with
      | none =>
        rw [Function.update_self, Option.some.injEq] at hm
        rw [← hm]
      | some k => exact h.self _ loop (by simpa using hm)
    · simpa [hloop] using h.loops k
  | destroy t m =>
    obtain ⟨rfl, rfl⟩ := hl
    refine ⟨hreachable, ?_, fun k => ?_, fun k => (hlive _).trans (h.live k)⟩
    · intro m loop hm
      rw [hloop] at hm
      cases m with
      | none => simp at hm
      | some k => exact h.self _ loop (by simpa using hm)
    · simpa [hloop] using h.loops k
  | isInLoopThread t m answer =>
    refine ⟨hreachable, ?_, fun k => ?_, fun k => (hlive _).trans (h.live k)⟩
    · rw [hloop]
      exact h.self
    · rw [hloop]
      exact h.loops k
  | clone t gettid => cases hl
  | exit t => cases hl

omit [DecidableEq T] in
theorem Matches.update (h : Matches s) {k : K} {e : EventLoopThread F T}
    {p : Process (Option K) (Option K)}
    (hreachable : (Process.system none).Reachable Process.Scoped p)
    (hself : ∀ m loop, p.loop m = some loop → loop.creator = m)
    (hloops : ∀ j ≠ k, p.loop (some j) = s.process.loop (some j))
    (hlive : ∀ j ≠ k, (p.locals (some j)).isSome = (s.process.locals (some j)).isSome)
    (hloop : (p.loop (some k)).isSome = e.thread.hasLoop)
    (hlocals : (p.locals (some k)).isSome = !e.thread.isOver) :
    Matches ⟨p, Function.update s.thread k e⟩ := by
  refine ⟨hreachable, hself, fun j => ?_, fun j => ?_⟩
  · by_cases hj : j = k
    · subst hj
      simpa using hloop
    · simpa [hloops j hj, Function.update_of_ne hj] using h.loops j
  · by_cases hj : j = k
    · subst hj
      simpa using hlocals
    · simpa [hlive j hj, Function.update_of_ne hj] using h.live j

theorem Matches.thread (h : Matches s) {k : K} {l : ThreadLabel F T} {gettid : ℕ}
    {e : EventLoopThread F T} {p : Process (Option K) (Option K)}
    (he : (s.thread k).step u l = some e)
    (hnone : processLabel k gettid l = none → p = s.process)
    (hsome : ∀ m, processLabel k gettid l = some m → Process.Steps s.process m p) :
    Matches ⟨p, Function.update s.thread k e⟩ := by
  have hinv := Process.inv_of_reachable h.reachable
  have hloops := h.loops k
  have hlive := h.live k
  cases hl : processLabel k gettid l with
  | none =>
    obtain ⟨hhas, hover⟩ := phase_of_step he hl
    rw [hnone hl]
    exact h.update h.reachable h.self (fun _ _ => rfl) (fun _ _ => rfl) (by rw [hhas, hloops])
      (by rw [hover, hlive])
  | some m =>
    have hs := hsome m hl
    have hloop := Process.loop_of_steps hinv hs
    have hlocals := Process.isSome_locals_of_steps hinv hs
    cases EventLoopThread.steps_of_step he with
    | startLoop ho ht =>
      cases hl
      rw [ht] at hloops
      refine h.update (h.reachable.step (by trivial) hs) ?_ ?_ ?_ ?_ ?_
      · rw [hloop]
        exact h.self
      · exact fun j _ => congrFun hloop (some j)
      · intro j hj
        simp [hlocals (some j), hj]
      · rw [hloop, hloops]
        rfl
      · simp [hlocals (some k), ThreadPhase.isOver]
    | construct ht =>
      cases hl
      obtain ⟨threadId, hloop⟩ := hloop
      rw [ht] at hlive
      refine h.update (h.reachable.step (by trivial) hs) ?_ ?_ ?_ ?_ ?_
      · intro m loop hm
        rw [hloop] at hm
        by_cases hmk : m = some k
        · subst hmk
          rw [Function.update_self, Option.some.injEq] at hm
          rw [← hm]
        · rw [Function.update_of_ne hmk] at hm
          exact h.self m loop hm
      · intro j hj
        simp [hloop, hj]
      · exact fun j _ => hlocals (some j)
      · simp [hloop, ThreadPhase.hasLoop]
      · exact (hlocals (some k)).trans hlive
    | destroy ht =>
      cases hl
      rw [ht] at hlive
      have hscoped : s.process.Scoped (.destroy (some k) (some k)) := h.self (some k)
      refine h.update (h.reachable.step hscoped hs) ?_ ?_ ?_ ?_ ?_
      · intro m loop hm
        rw [hloop] at hm
        by_cases hmk : m = some k
        · subst hmk
          simp at hm
        · rw [Function.update_of_ne hmk] at hm
          exact h.self m loop hm
      · intro j hj
        simp [hloop, hj]
      · exact fun j _ => hlocals (some j)
      · simp [hloop, ThreadPhase.hasLoop]
      · exact (hlocals (some k)).trans hlive
    | ret ht =>
      cases hl
      rw [ht] at hloops
      have hscoped : s.process.Scoped (.exit (some k)) := by
        intro m loop hm hcreator
        obtain rfl : some k = m := hcreator.symm.trans (h.self m loop hm)
        rw [hm] at hloops
        cases hloops
      refine h.update (h.reachable.step hscoped hs) ?_ ?_ ?_ ?_ ?_
      · rw [hloop]
        exact h.self
      · exact fun j _ => congrFun hloop (some j)
      · intro j hj
        simp [hlocals (some j), hj]
      · rw [hloop, hloops]
        rfl
      · simp [hlocals (some k), ThreadPhase.isOver]
    | _ => cases hl

theorem matches_of_reachable
    (h : (system u).Reachable TransitionSystem.AnyStep s) : Matches s := by
  induction h with
  | init h => exact matches_init h.1 h.2
  | step _ _ hs ih =>
    cases hs with
    | process l p hl hs => exact ih.process hl hs
    | thread k l gettid e p he hnone hsome => exact ih.thread he hnone hsome

/-- In every run of a main thread and its `EventLoopThread`s: no constructor of
a loop ends in `LOG_FATAL`, a thread's pointer names the loop of that thread
while it exists and nothing else, and `isInLoopThread()` is true exactly on the
thread of the loop. -/
theorem pool_loops_identified (u : T) (s : LoopPool F T K)
    (h : (system u).Reachable TransitionSystem.AnyStep s) :
    (∀ k, (s.thread k).thread = .starting →
      (s.process.construct (some k) (some k)).isSome = true) ∧
    (∀ t x l, s.process.locals t = some x →
      (x.t_loopInThisThread = some l ↔ t = l ∧ (s.process.loop l).isSome = true)) ∧
    (∀ k, (s.process.loop (some k)).isSome = (s.thread k).thread.hasLoop) ∧
    ∀ t l answer p, (s.process.loop l).isSome = true →
      Process.Steps s.process (.isInLoopThread t l answer) p → (answer = true ↔ t = l) := by
  have hmatches := matches_of_reachable h
  have hinv := Process.inv_of_reachable hmatches.reachable
  have howned := Process.owned_of_reachable hmatches.reachable
  refine ⟨?_, ?_, hmatches.loops, ?_⟩
  · intro k hk
    have hlive : (s.process.locals (some k)).isSome = true := by
      rw [hmatches.live k, hk]
      rfl
    obtain ⟨x, hx⟩ := Option.isSome_iff_exists.mp hlive
    rw [Option.isSome_iff_ne_none]
    intro hfatal
    obtain ⟨m, loop, hm, hcreator⟩ := (howned.construct_eq_none hinv hx).mp hfatal
    obtain rfl : some k = m := hcreator.symm.trans (hmatches.self m loop hm)
    have hloops := hmatches.loops k
    rw [hm, hk] at hloops
    cases hloops
  · intro t x l hx
    rw [howned.pointer_iff hx]
    constructor
    · rintro ⟨loop, hl, rfl⟩
      exact ⟨hmatches.self l loop hl, by simp [hl]⟩
    · rintro ⟨rfl, hl⟩
      obtain ⟨loop, hl⟩ := Option.isSome_iff_exists.mp hl
      exact ⟨loop, hl, hmatches.self t loop hl⟩
  · intro t l answer p hl hs
    obtain ⟨loop, hl⟩ := Option.isSome_iff_exists.mp hl
    obtain ⟨x, hx, _⟩ := howned.owner l loop hl
    cases hs with
    | isInLoopThread _ _ _ _ hs =>
      rw [hinv.answer_iff hl hx hs, hmatches.self l loop hl]

/-- The main thread has a loop, and so has the thread of one object. -/
theorem pool_loops_identified_two : ∃ s : LoopPool ℕ Bool (Fin 1),
    (s.process.loop none).isSome = true ∧ (s.process.loop (some 0)).isSome = true ∧
      ∀ p, Process.Steps s.process (.isInLoopThread none (some 0) false) p →
        (false = true ↔ (none : Option (Fin 1)) = some 0) := by
  let p₀ : Process (Option (Fin 1)) (Option (Fin 1)) :=
    ⟨Function.update (fun _ => .unborn) none (.live (.create 10)), fun _ => none⟩
  let p₁ := (p₀.construct none none).get rfl
  let p₂ := p₁.setLocals (some 0) (.create 11)
  let p₃ := (p₂.construct (some 0) (some 0)).get rfl
  let e₁ : EventLoopThread ℕ Bool := ((EventLoopThread.create).step true .startLoop).get rfl
  let e₂ : EventLoopThread ℕ Bool := (e₁.step true .construct).get rfl
  let s₀ : LoopPool ℕ Bool (Fin 1) := ⟨p₀, fun _ => .create⟩
  let s₁ : LoopPool ℕ Bool (Fin 1) := { s₀ with process := p₁ }
  let s₂ : LoopPool ℕ Bool (Fin 1) := ⟨p₂, Function.update s₁.thread 0 e₁⟩
  let s₃ : LoopPool ℕ Bool (Fin 1) := ⟨p₃, Function.update s₂.thread 0 e₂⟩
  have h₀ : (system true).Reachable TransitionSystem.AnyStep s₀ :=
    .init ⟨⟨10, by decide, rfl, rfl⟩, rfl⟩
  have hs₁ : Steps true s₀ (.process (.construct none none)) s₁ :=
    .process _ p₁ ⟨rfl, rfl⟩ (.construct none none p₁ rfl rfl)
  have hs₂ : Steps true s₁ (.thread 0 .startLoop 11) s₂ := by
    refine .thread 0 .startLoop 11 e₁ p₂ rfl (fun hnone => by cases hnone) ?_
    intro m hm
    cases hm
    exact .clone (some 0) 11 rfl (by decide) (by decide)
  have hs₃ : Steps true s₂ (.thread 0 .construct 0) s₃ := by
    refine .thread 0 .construct 0 e₂ p₃ rfl (fun hnone => by cases hnone) ?_
    intro m hm
    cases hm
    exact .construct (some 0) (some 0) p₃ rfl rfl
  have h₃ : (system true).Reachable TransitionSystem.AnyStep s₃ :=
    .step (.step (.step h₀ trivial hs₁) trivial hs₂) trivial hs₃
  obtain ⟨_, _, _, hanswer⟩ := pool_loops_identified true s₃ h₃
  exact ⟨s₃, rfl, rfl, fun p hp => hanswer none (some 0) false p rfl hp⟩

end LoopPool
end MuduoCore
