import MuduoCore.Foundation.TransitionSystem
import Mathlib.Tactic

/-!
# Which thread a loop belongs to

`CurrentThread::tid()` with its cache, and the two ways in which an `EventLoop`
is bound to the thread that constructs it: `threadId_`, which
`isInLoopThread()` compares with the caller, and `t_loopInThisThread`, by which
the constructor refuses a second loop. Threads come and go, and the kernel gives
the number of a thread that has ended to a later one.
-/

namespace MuduoCore

/-- What a thread keeps for itself, and the number the kernel knows it by. -/
structure ThreadLocals (E : Type*) where
  gettid : ℕ
  t_cachedTid : ℕ
  t_loopInThisThread : Option E
  deriving DecidableEq, Repr

namespace ThreadLocals

variable {E : Type*}

/-- A new thread; its variables are zero. -/
def create (gettid : ℕ) : ThreadLocals E := ⟨gettid, 0, none⟩

def cacheTid (x : ThreadLocals E) : ThreadLocals E :=
  if x.t_cachedTid = 0 then { x with t_cachedTid := x.gettid } else x

def tid (x : ThreadLocals E) : ℕ × ThreadLocals E :=
  let x := if x.t_cachedTid = 0 then x.cacheTid else x
  (x.t_cachedTid, x)

/-- The kernel's numbers are positive, and the cache is empty or right. -/
def Cached (x : ThreadLocals E) : Prop :=
  x.gettid ≠ 0 ∧ (x.t_cachedTid = 0 ∨ x.t_cachedTid = x.gettid)

theorem Cached.tid {x : ThreadLocals E} (h : x.Cached) :
    x.tid = (x.gettid, { x with t_cachedTid := x.gettid }) := by
  obtain ⟨hpos, hzero | hcached⟩ := h
  · simp [ThreadLocals.tid, cacheTid, hzero]
  · obtain ⟨gettid, cachedTid, loop⟩ := x
    obtain rfl : cachedTid = gettid := hcached
    simp [ThreadLocals.tid, hpos]

end ThreadLocals

/-- An `EventLoop` that exists; `creator` is the thread that ran its constructor. -/
structure LoopIdentity (T : Type*) where
  threadId_ : ℕ
  creator : T
  deriving DecidableEq, Repr

inductive Life (E : Type*)
  | unborn
  | live (locals : ThreadLocals E)
  | ended
  deriving DecidableEq, Repr

def Life.locals {E : Type*} : Life E → Option (ThreadLocals E)
  | live locals => some locals
  | _ => none

structure Process (T E : Type*) where
  thread : T → Life E
  loop : E → Option (LoopIdentity T)

inductive ProcessLabel (T E : Type*)
  /-- a thread begins, with the number the kernel gives it -/
  | clone (t : T) (gettid : ℕ)
  | exit (t : T)
  /-- `EventLoop::EventLoop()` and `~EventLoop()` -/
  | construct (t : T) (l : E)
  | destroy (t : T) (l : E)
  /-- `isInLoopThread()`, and what it returns -/
  | isInLoopThread (t : T) (l : E) (answer : Bool)

namespace Process

variable {T E : Type*} [DecidableEq T] [DecidableEq E]

def locals (s : Process T E) (t : T) : Option (ThreadLocals E) := (s.thread t).locals

def setLocals (s : Process T E) (t : T) (x : ThreadLocals E) : Process T E :=
  { s with thread := Function.update s.thread t (.live x) }

/-- No thread that lives has this number. -/
def Unused (s : Process T E) (gettid : ℕ) : Prop :=
  ∀ t, (s.locals t).map ThreadLocals.gettid ≠ some gettid

instance [Fintype T] (s : Process T E) (gettid : ℕ) : Decidable (s.Unused gettid) :=
  inferInstanceAs (Decidable (∀ _, _))

/-- `threadId_` is initialised before `t_loopInThisThread` is tested. Where the
test ends in `LOG_FATAL` the process exits. -/
def construct (s : Process T E) (t : T) (l : E) : Option (Process T E) :=
  (s.locals t).bind fun x =>
    let (threadId, x) := x.tid
    match x.t_loopInThisThread with
    | some _ => none
    | none =>
      some { s.setLocals t { x with t_loopInThisThread := some l } with
        loop := Function.update s.loop l (some ⟨threadId, t⟩) }

/-- The thread that runs the destructor need not be the one that made the loop. -/
def destroy (s : Process T E) (t : T) (l : E) : Option (Process T E) :=
  (s.locals t).map fun x =>
    { s.setLocals t { x with t_loopInThisThread := none } with
      loop := Function.update s.loop l none }

/-- `threadId_ == CurrentThread::tid()`. -/
def isInLoopThread (s : Process T E) (t : T) (l : E) : Option (Bool × Process T E) :=
  (s.loop l).bind fun loop => (s.locals t).map fun x =>
    let (tid, x) := x.tid
    (loop.threadId_ == tid, s.setLocals t x)

/-- A step of the process. The kernel's choice of numbers is `Unused`. -/
inductive Steps (s : Process T E) : ProcessLabel T E → Process T E → Prop
  | clone (t : T) (gettid : ℕ) (ht : s.thread t = .unborn) (hpos : gettid ≠ 0)
      (hunused : s.Unused gettid) :
      Steps s (.clone t gettid) (s.setLocals t (.create gettid))
  | exit (t : T) (x : ThreadLocals E) (ht : s.thread t = .live x) :
      Steps s (.exit t) { s with thread := Function.update s.thread t .ended }
  | construct (t : T) (l : E) (s' : Process T E) (hl : s.loop l = none)
      (hs : s.construct t l = some s') : Steps s (.construct t l) s'
  | destroy (t : T) (l : E) (s' : Process T E) (loop : LoopIdentity T)
      (hl : s.loop l = some loop) (hs : s.destroy t l = some s') : Steps s (.destroy t l) s'
  | isInLoopThread (t : T) (l : E) (answer : Bool) (s' : Process T E)
      (hs : s.isInLoopThread t l = some (answer, s')) :
      Steps s (.isInLoopThread t l answer) s'

def system (main : T) : TransitionSystem (Process T E) (ProcessLabel T E) where
  Init s := ∃ gettid, gettid ≠ 0 ∧ s.loop = (fun _ => none) ∧
    s.thread = Function.update (fun _ => .unborn) main (.live (.create gettid))
  Step s l s' := Steps s l s'

/-- A loop is destroyed by the thread that made it, before that thread ends. -/
def Scoped (s : Process T E) : ProcessLabel T E → Prop
  | .destroy t l => ∀ loop, s.loop l = some loop → loop.creator = t
  | .exit t => ∀ l loop, s.loop l = some loop → loop.creator ≠ t
  | _ => True

variable {s s' : Process T E} {t u : T} {x y : ThreadLocals E} {l : E}

/-! ## The numbers -/

omit [DecidableEq E] in
theorem locals_setLocals : (s.setLocals t x).locals u = if u = t then some x else s.locals u := by
  by_cases hu : u = t
  · subst hu
    simp [locals, setLocals, Life.locals]
  · simp [locals, setLocals, hu]

/-- The caches are right, threads that live have different numbers, and a loop
has the number of the thread that made it, as long as that thread lives. -/
structure Inv (s : Process T E) : Prop where
  cached : ∀ t x, s.locals t = some x → x.Cached
  distinct : ∀ t u x y, s.locals t = some x → s.locals u = some y → x.gettid = y.gettid → t = u
  begun : ∀ l loop, s.loop l = some loop → s.thread loop.creator ≠ .unborn
  identified : ∀ l loop x, s.loop l = some loop → s.locals loop.creator = some x →
    loop.threadId_ = x.gettid

omit [DecidableEq E] in
theorem Inv.setLocals (h : Inv s) (hx : s.locals t = some x) (hy : y.gettid = x.gettid)
    (hc : y.Cached) : Inv (s.setLocals t y) := by
  have hlocals : ∀ u z, (s.setLocals t y).locals u = some z →
      ∃ z', s.locals u = some z' ∧ z'.gettid = z.gettid := by
    intro u z hz
    rw [locals_setLocals] at hz
    split_ifs at hz with hu
    · cases hz
      exact ⟨x, hu ▸ hx, hy.symm⟩
    · exact ⟨z, hz, rfl⟩
  constructor
  · intro u z hz
    rw [locals_setLocals] at hz
    split_ifs at hz with hu
    · cases hz
      exact hc
    · exact h.cached u z hz
  · intro u v z w hz hw heq
    obtain ⟨z', hz', hzeq⟩ := hlocals u z hz
    obtain ⟨w', hw', hweq⟩ := hlocals v w hw
    exact h.distinct u v z' w' hz' hw' (by rw [hzeq, hweq, heq])
  · intro l loop hl
    by_cases hu : loop.creator = t
    · simp [Process.setLocals, hu]
    · simpa [Process.setLocals, Function.update_of_ne hu] using h.begun l loop hl
  · intro l loop z hl hz
    obtain ⟨z', hz', hzeq⟩ := hlocals _ z hz
    rw [← hzeq]
    exact h.identified l loop z' hl hz'

theorem Inv.construct (h : Inv s) (hs : s.construct t l = some s') :
    ∃ x, s.locals t = some x ∧ x.t_loopInThisThread = none ∧
      s' = { s.setLocals t ⟨x.gettid, x.gettid, some l⟩ with
        loop := Function.update s.loop l (some ⟨x.gettid, t⟩) } := by
  obtain ⟨x, hx, hs⟩ := Option.bind_eq_some_iff.mp hs
  rw [(h.cached t x hx).tid] at hs
  cases hnone : x.t_loopInThisThread with
  | none =>
    simp only [hnone, Option.some.injEq] at hs
    exact ⟨x, hx, hnone, hs.symm⟩
  | some other => simp [hnone] at hs

omit [DecidableEq E] in
theorem Inv.isInLoopThread (h : Inv s) {answer : Bool}
    (hs : s.isInLoopThread t l = some (answer, s')) :
    ∃ loop x, s.loop l = some loop ∧ s.locals t = some x ∧
      answer = (loop.threadId_ == x.gettid) ∧
      s' = s.setLocals t { x with t_cachedTid := x.gettid } := by
  obtain ⟨loop, hl, hs⟩ := Option.bind_eq_some_iff.mp hs
  obtain ⟨x, hx, hs⟩ := Option.map_eq_some_iff.mp hs
  rw [(h.cached t x hx).tid, Prod.mk.injEq] at hs
  exact ⟨loop, x, hl, hx, hs.1.symm, hs.2.symm⟩

theorem inv_init {main : T} (h : (system main).Init s) : Inv s := by
  obtain ⟨gettid, hpos, hloop, hthread⟩ := h
  have hlocals : ∀ u z, s.locals u = some z → u = main ∧ z = .create gettid := by
    intro u z hz
    rw [locals, hthread] at hz
    by_cases hu : u = main
    · subst hu
      rw [Function.update_self] at hz
      exact ⟨rfl, (Option.some.inj hz).symm⟩
    · rw [Function.update_of_ne hu] at hz
      cases hz
  constructor
  · intro u z hz
    obtain ⟨_, rfl⟩ := hlocals u z hz
    exact ⟨hpos, Or.inl rfl⟩
  · intro u v z w hz hw _
    rw [(hlocals u z hz).1, (hlocals v w hw).1]
  · intro l loop hl
    rw [hloop] at hl
    cases hl
  · intro l loop z hl
    rw [hloop] at hl
    cases hl

omit [DecidableEq T] in
theorem Inv.setLoop (h : Inv s) {new : Option (LoopIdentity T)}
    (hnew : ∀ loop, new = some loop → s.thread loop.creator ≠ .unborn ∧
      ∀ x, s.locals loop.creator = some x → loop.threadId_ = x.gettid) :
    Inv { s with loop := Function.update s.loop l new } := by
  refine ⟨h.cached, h.distinct, ?_, ?_⟩
  · intro m loop hm
    by_cases hml : m = l
    · subst hml
      exact (hnew loop (by simpa using hm)).1
    · exact h.begun m loop (by simpa [Function.update_of_ne hml] using hm)
  · intro m loop x hm hx
    by_cases hml : m = l
    · subst hml
      exact (hnew loop (by simpa using hm)).2 x hx
    · exact h.identified m loop x (by simpa [Function.update_of_ne hml] using hm) hx

omit [DecidableEq E] in
/-- A new thread has made no loop, so no loop comes to have its number. -/
theorem Inv.clone (h : Inv s) {gettid : ℕ} (ht : s.thread t = .unborn) (hpos : gettid ≠ 0)
    (hunused : s.Unused gettid) : Inv (s.setLocals t (.create gettid)) := by
  have hlocals : ∀ u z, (s.setLocals t (.create gettid)).locals u = some z →
      (u = t ∧ z = .create gettid) ∨ s.locals u = some z := by
    intro u z hz
    rw [locals_setLocals] at hz
    split_ifs at hz with hu
    · exact Or.inl ⟨hu, (Option.some.inj hz).symm⟩
    · exact Or.inr hz
  constructor
  · intro u z hz
    rcases hlocals u z hz with ⟨_, rfl⟩ | hz
    · exact ⟨hpos, Or.inl rfl⟩
    · exact h.cached u z hz
  · intro u v z w hz hw heq
    rcases hlocals u z hz with ⟨rfl, rfl⟩ | hz' <;>
      rcases hlocals v w hw with ⟨rfl, rfl⟩ | hw'
    · rfl
    · exact absurd (by simp [hw', ← heq, ThreadLocals.create]) (hunused v)
    · exact absurd (by simp [hz', heq, ThreadLocals.create]) (hunused u)
    · exact h.distinct u v z w hz' hw' heq
  · intro l loop hl
    by_cases hu : loop.creator = t
    · simp [Process.setLocals, hu]
    · simpa [Process.setLocals, Function.update_of_ne hu] using h.begun l loop hl
  · intro l loop z hl hz
    rcases hlocals _ z hz with ⟨hu, _⟩ | hz
    · exact absurd (hu ▸ ht) (h.begun l loop hl)
    · exact h.identified l loop z hl hz

omit [DecidableEq E] in
theorem locals_exit : locals { s with thread := Function.update s.thread t .ended } u =
    if u = t then none else s.locals u := by
  by_cases hu : u = t
  · subst hu
    simp [locals, Life.locals]
  · simp [locals, hu]

omit [DecidableEq E] in
theorem Inv.exit (h : Inv s) :
    Inv { s with thread := Function.update s.thread t .ended } := by
  have hlocals : ∀ u z, locals { s with thread := Function.update s.thread t .ended } u = some z →
      s.locals u = some z := by
    intro u z hz
    rw [locals_exit] at hz
    split_ifs at hz
    exact hz
  constructor
  · exact fun u z hz => h.cached u z (hlocals u z hz)
  · exact fun u v z w hz hw => h.distinct u v z w (hlocals u z hz) (hlocals v w hw)
  · intro l loop hl
    by_cases hu : loop.creator = t
    · simp [hu]
    · simpa [Function.update_of_ne hu] using h.begun l loop hl
  · exact fun l loop z hl hz => h.identified l loop z hl (hlocals _ z hz)

omit [DecidableEq E] [DecidableEq T] in
theorem thread_of_locals (hx : s.locals t = some x) : s.thread t = .live x := by
  rw [locals] at hx
  cases ht : s.thread t <;> simp_all [Life.locals]

theorem Inv.next (h : Inv s) {k : ProcessLabel T E} (hs : Steps s k s') : Inv s' := by
  cases hs with
  | clone t gettid ht hpos hunused => exact h.clone ht hpos hunused
  | exit t x ht => exact h.exit
  | construct t l _ hl hs =>
    obtain ⟨x, hx, _, rfl⟩ := h.construct hs
    have hpos := (h.cached t x hx).1
    have hset : Inv (s.setLocals t ⟨x.gettid, x.gettid, some l⟩) :=
      h.setLocals hx rfl ⟨hpos, Or.inr rfl⟩
    apply hset.setLoop
    rintro loop heq
    cases heq
    refine ⟨by simp [Process.setLocals], ?_⟩
    intro y hy
    rw [locals_setLocals, if_pos rfl, Option.some.injEq] at hy
    rw [← hy]
  | destroy t l _ loop hl hs =>
    obtain ⟨x, hx, rfl⟩ := Option.map_eq_some_iff.mp hs
    have hset : Inv (s.setLocals t { x with t_loopInThisThread := none }) :=
      h.setLocals hx rfl (h.cached t x hx)
    apply hset.setLoop
    rintro _ heq
    cases heq
  | isInLoopThread t l answer _ hs =>
    obtain ⟨loop, x, hl, hx, _, rfl⟩ := h.isInLoopThread hs
    exact h.setLocals hx rfl ⟨(h.cached t x hx).1, Or.inr rfl⟩

theorem inv_of_reachable {main : T} {Good : Process T E → ProcessLabel T E → Prop}
    (h : (system main).Reachable Good s) : Inv s :=
  h.invariant (fun _ => inv_init) fun _ _ _ hinv _ hs => hinv.next hs

omit [DecidableEq E] in
/-- While the thread that made the loop lives, no other thread has its number. -/
theorem Inv.answer_iff (h : Inv s) {answer : Bool} {loop : LoopIdentity T}
    (hl : s.loop l = some loop) (hy : s.locals loop.creator = some y)
    (hs : s.isInLoopThread t l = some (answer, s')) : answer = true ↔ t = loop.creator := by
  obtain ⟨loop', x, hl', hx, rfl, _⟩ := h.isInLoopThread hs
  obtain rfl : loop' = loop := Option.some.inj (hl'.symm.trans hl)
  rw [beq_iff_eq, h.identified l loop' y hl hy]
  constructor
  · exact fun heq => h.distinct t loop'.creator x y hx hy heq.symm
  · rintro rfl
    rw [hx, Option.some.injEq] at hy
    rw [hy]

/-- However often the kernel gives a number out again: while the thread that
made a loop lives, `isInLoopThread()` is true on that thread, and false on
every other. -/
theorem loop_thread_identified (main : T) (s s' : Process T E) (t : T) (l : E) (answer : Bool)
    (loop : LoopIdentity T) (h : (system main).Reachable TransitionSystem.AnyStep s)
    (hl : s.loop l = some loop) (hlive : (s.locals loop.creator).isSome = true)
    (hs : Steps s (.isInLoopThread t l answer) s') : answer = true ↔ t = loop.creator := by
  obtain ⟨y, hy⟩ := Option.isSome_iff_exists.mp hlive
  cases hs with
  | isInLoopThread _ _ _ _ hs => exact (inv_of_reachable h).answer_iff hl hy hs

/-- The main thread has made a loop; the number of a thread that has ended is
given to another one. -/
theorem loop_thread_identified_reused : ∃ s s' : Process (Fin 3) ℕ,
    s.thread 1 = .ended ∧ (s.locals 2).map ThreadLocals.gettid = some 11 ∧
      Steps s (.isInLoopThread 2 5 false) s' ∧ (false = true ↔ (2 : Fin 3) = 0) := by
  let s₀ : Process (Fin 3) ℕ :=
    ⟨Function.update (fun _ => .unborn) 0 (.live (.create 10)), fun _ => none⟩
  let s₁ := (s₀.construct 0 5).get rfl
  let s₂ := s₁.setLocals 1 (.create 11)
  let s₃ : Process (Fin 3) ℕ := { s₂ with thread := Function.update s₂.thread 1 .ended }
  let s₄ := s₃.setLocals 2 (.create 11)
  have h₀ : (system 0).Reachable TransitionSystem.AnyStep s₀ := .init ⟨10, by decide, rfl, rfl⟩
  have h₁ : (system 0).Reachable TransitionSystem.AnyStep s₁ :=
    .step h₀ trivial (Steps.construct 0 5 s₁ rfl rfl)
  have h₂ : (system 0).Reachable TransitionSystem.AnyStep s₂ :=
    .step h₁ trivial (Steps.clone 1 11 rfl (by decide) (by decide))
  have h₃ : (system 0).Reachable TransitionSystem.AnyStep s₃ :=
    .step h₂ trivial (Steps.exit 1 (.create 11) rfl)
  have h₄ : (system 0).Reachable TransitionSystem.AnyStep s₄ :=
    .step h₃ trivial (Steps.clone 2 11 rfl (by decide) (by decide))
  have hs : Steps s₄ (.isInLoopThread 2 5 false) (s₄.setLocals 2 ⟨11, 11, none⟩) :=
    Steps.isInLoopThread 2 5 false _ rfl
  exact ⟨s₄, _, rfl, rfl, hs,
    loop_thread_identified 0 s₄ _ 2 5 false ⟨10, 0⟩ h₄ rfl rfl hs⟩

/-! ## What a step changes -/

theorem loop_of_steps (h : Inv s) {k : ProcessLabel T E} (hs : Steps s k s') :
    match k with
    | .construct t l => ∃ threadId, s'.loop = Function.update s.loop l (some ⟨threadId, t⟩)
    | .destroy _ l => s'.loop = Function.update s.loop l none
    | _ => s'.loop = s.loop := by
  cases hs with
  | clone t gettid ht hpos hunused => rfl
  | exit t x ht => rfl
  | construct t l _ hl hs =>
    obtain ⟨x, _, _, rfl⟩ := h.construct hs
    exact ⟨_, rfl⟩
  | destroy t l _ loop hl hs =>
    obtain ⟨x, _, rfl⟩ := Option.map_eq_some_iff.mp hs
    rfl
  | isInLoopThread t l answer _ hs =>
    obtain ⟨_, _, _, _, _, rfl⟩ := h.isInLoopThread hs
    rfl

theorem isSome_locals_of_steps (h : Inv s) {k : ProcessLabel T E} (hs : Steps s k s') (v : T) :
    (s'.locals v).isSome = match k with
      | .clone t _ => v = t || (s.locals v).isSome
      | .exit t => v ≠ t && (s.locals v).isSome
      | _ => (s.locals v).isSome := by
  have hset : ∀ t x y, s.locals t = some x →
      ((s.setLocals t y).locals v).isSome = (s.locals v).isSome := by
    intro t x y hx
    rw [locals_setLocals]
    split_ifs with hv
    · simp [hv, hx]
    · rfl
  cases hs with
  | clone t gettid ht hpos hunused =>
    rw [locals_setLocals]
    by_cases hv : v = t <;> simp [hv]
  | exit t x ht =>
    rw [locals_exit]
    by_cases hv : v = t <;> simp [hv]
  | construct t l _ hl hs =>
    obtain ⟨x, hx, _, rfl⟩ := h.construct hs
    exact hset t x _ hx
  | destroy t l _ loop hl hs =>
    obtain ⟨x, hx, rfl⟩ := Option.map_eq_some_iff.mp hs
    exact hset t x _ hx
  | isInLoopThread t l answer _ hs =>
    obtain ⟨_, x, _, hx, _, rfl⟩ := h.isInLoopThread hs
    exact hset t x _ hx

/-! ## One loop per thread -/

/-- The pointer of a thread that lives names the loop it has made, and the
thread of every loop lives. -/
structure Owned (s : Process T E) : Prop where
  owner : ∀ l loop, s.loop l = some loop →
    ∃ x, s.locals loop.creator = some x ∧ x.t_loopInThisThread = some l
  points : ∀ t x l, s.locals t = some x → x.t_loopInThisThread = some l →
    ∃ loop, s.loop l = some loop ∧ loop.creator = t

theorem owned_init {main : T} (h : (system main).Init s) : Owned s := by
  obtain ⟨gettid, hpos, hloop, hthread⟩ := h
  constructor
  · intro l loop hl
    rw [hloop] at hl
    cases hl
  · intro t x l hx hpoints
    have hlive := thread_of_locals hx
    rw [hthread] at hlive
    by_cases ht : t = main
    · subst ht
      rw [Function.update_self] at hlive
      cases hlive
      cases hpoints
    · rw [Function.update_of_ne ht] at hlive
      cases hlive

omit [DecidableEq E] in
theorem Owned.setLocals (h : Owned s) (hx : ∀ x, s.locals t = some x →
    y.t_loopInThisThread = x.t_loopInThisThread)
    (hnew : s.locals t = none → y.t_loopInThisThread = none) : Owned (s.setLocals t y) := by
  constructor
  · intro l loop hl
    obtain ⟨x, hlocals, hpoints⟩ := h.owner l loop hl
    by_cases hu : loop.creator = t
    · refine ⟨y, by rw [locals_setLocals, if_pos hu], ?_⟩
      rw [hx x (hu ▸ hlocals), hpoints]
    · exact ⟨x, by rw [locals_setLocals, if_neg hu, hlocals], hpoints⟩
  · intro u z l hz hpoints
    rw [locals_setLocals] at hz
    split_ifs at hz with hu
    · cases hz
      cases hlocals : s.locals t with
      | none =>
        rw [hnew hlocals] at hpoints
        cases hpoints
      | some x =>
        rw [hx x hlocals] at hpoints
        exact hu ▸ h.points t x l hlocals hpoints
    · exact h.points u z l hz hpoints

theorem Owned.construct (h : Owned s) (hx : s.locals t = some x)
    (hnone : x.t_loopInThisThread = none) (hl : s.loop l = none)
    (hy : y.t_loopInThisThread = some l) {new : LoopIdentity T} (hnew : new.creator = t) :
    Owned { s.setLocals t y with loop := Function.update s.loop l (some new) } := by
  constructor
  · intro m loop hm
    by_cases hml : m = l
    · subst hml
      obtain rfl : new = loop := by simpa using hm
      exact ⟨y, (locals_setLocals).trans (if_pos hnew), hy⟩
    · obtain ⟨z, hlocals, hpoints⟩ :=
        h.owner m loop (by simpa [Function.update_of_ne hml] using hm)
      have hu : loop.creator ≠ t := by
        rintro rfl
        rw [hx, Option.some.injEq] at hlocals
        rw [← hlocals, hnone] at hpoints
        cases hpoints
      exact ⟨z, (locals_setLocals.trans (if_neg hu)).trans hlocals, hpoints⟩
  · intro u z m hz hpoints
    have hz' := locals_setLocals.symm.trans hz
    split_ifs at hz' with hu
    · cases hz'
      rw [hy, Option.some.injEq] at hpoints
      subst hpoints
      exact ⟨new, Function.update_self .., hnew.trans hu.symm⟩
    · obtain ⟨loop, hm, hcreator⟩ := h.points u z m hz' hpoints
      have hml : m ≠ l := by
        rintro rfl
        rw [hl] at hm
        cases hm
      exact ⟨loop, by simpa [Function.update_of_ne hml] using hm, hcreator⟩

theorem Owned.destroy (h : Owned s) (hx : s.locals t = some x) {loop : LoopIdentity T}
    (hl : s.loop l = some loop) (ht : loop.creator = t) :
    Owned { s.setLocals t { x with t_loopInThisThread := none } with
      loop := Function.update s.loop l none } := by
  have hpointer : x.t_loopInThisThread = some l := by
    obtain ⟨z, hz, hpoints⟩ := h.owner l loop hl
    rw [ht, hx, Option.some.injEq] at hz
    rw [hz, hpoints]
  constructor
  · intro m loop' hm
    have hml : m ≠ l := by
      rintro rfl
      simp at hm
    obtain ⟨z, hlocals, hpoints⟩ :=
      h.owner m loop' (by simpa [Function.update_of_ne hml] using hm)
    have hu : loop'.creator ≠ t := by
      rintro rfl
      rw [hx, Option.some.injEq] at hlocals
      rw [← hlocals, hpointer, Option.some.injEq] at hpoints
      exact hml hpoints.symm
    exact ⟨z, (locals_setLocals.trans (if_neg hu)).trans hlocals, hpoints⟩
  · intro u z m hz hpoints
    have hz' := locals_setLocals.symm.trans hz
    split_ifs at hz' with hu
    · cases hz'
      cases hpoints
    · obtain ⟨loop', hm, hcreator⟩ := h.points u z m hz' hpoints
      have hml : m ≠ l := by
        rintro rfl
        rw [hl, Option.some.injEq] at hm
        exact hu (by rw [← hcreator, ← hm, ht])
      exact ⟨loop', by simpa [Function.update_of_ne hml] using hm, hcreator⟩

theorem Owned.next (h : Owned s) (hinv : Inv s) {k : ProcessLabel T E} (hgood : Scoped s k)
    (hs : Steps s k s') : Owned s' := by
  cases hs with
  | clone t gettid ht hpos hunused =>
    refine h.setLocals ?_ fun _ => rfl
    intro x hx
    rw [locals, ht] at hx
    cases hx
  | exit t x ht =>
    constructor
    · intro l loop hl
      obtain ⟨z, hlocals, hpoints⟩ := h.owner l loop hl
      exact ⟨z, by rw [locals_exit, if_neg (hgood l loop hl), hlocals], hpoints⟩
    · intro u z l hz hpoints
      rw [locals_exit] at hz
      split_ifs at hz
      exact h.points u z l hz hpoints
  | construct t l _ hl hs =>
    obtain ⟨x, hx, hnone, rfl⟩ := hinv.construct hs
    exact h.construct hx hnone hl rfl rfl
  | destroy t l _ loop hl hs =>
    obtain ⟨x, hx, rfl⟩ := Option.map_eq_some_iff.mp hs
    exact h.destroy hx hl (hgood loop hl)
  | isInLoopThread t l answer _ hs =>
    obtain ⟨loop, x, hl, hx, _, rfl⟩ := hinv.isInLoopThread hs
    refine h.setLocals ?_ ?_
    · intro z hz
      rw [hx, Option.some.injEq] at hz
      rw [← hz]
    · intro hz
      rw [hx] at hz
      cases hz

theorem owned_of_reachable {main : T} (h : (system main).Reachable Scoped s) : Owned s :=
  h.invariant_of (J := Inv) (fun _ => inv_of_reachable) (fun _ => owned_init)
    fun _ _ _ howned hinv hgood hs => howned.next hinv hgood hs

omit [DecidableEq E] [DecidableEq T] in
theorem Owned.pointer_iff (h : Owned s) (hx : s.locals t = some x) :
    x.t_loopInThisThread = some l ↔ ∃ loop, s.loop l = some loop ∧ loop.creator = t := by
  refine ⟨h.points t x l hx, ?_⟩
  rintro ⟨loop, hl, rfl⟩
  obtain ⟨z, hz, hpoints⟩ := h.owner l loop hl
  rw [hx, Option.some.injEq] at hz
  rw [hz, hpoints]

theorem Owned.construct_eq_none (h : Owned s) (hinv : Inv s) (hx : s.locals t = some x) :
    s.construct t l = none ↔ ∃ m loop, s.loop m = some loop ∧ loop.creator = t := by
  rw [Process.construct, hx, Option.bind_some, (hinv.cached t x hx).tid]
  cases hpoints : x.t_loopInThisThread with
  | none =>
    simp only [reduceCtorEq, false_iff]
    rintro ⟨m, hm⟩
    rw [(h.pointer_iff hx).mpr hm] at hpoints
    cases hpoints
  | some m =>
    simp only [true_iff]
    exact ⟨m, (h.pointer_iff hx).mp hpoints⟩

/-- Where every loop is destroyed by the thread that made it, before that thread
ends: a thread has one loop at most, its pointer says which, the constructor
ends in `LOG_FATAL` exactly if the thread has a loop already, and
`isInLoopThread()` is true exactly on the thread that made the loop. -/
theorem loops_bound_to_threads (main : T) (s : Process T E)
    (h : (system main).Reachable Scoped s) :
    (∀ l m loop other, s.loop l = some loop → s.loop m = some other →
      loop.creator = other.creator → l = m) ∧
    (∀ t x l, s.locals t = some x →
      (x.t_loopInThisThread = some l ↔ ∃ loop, s.loop l = some loop ∧ loop.creator = t)) ∧
    (∀ t l, (s.locals t).isSome = true →
      (s.construct t l = none ↔ ∃ m loop, s.loop m = some loop ∧ loop.creator = t)) ∧
    ∀ t l loop answer s', s.loop l = some loop → Steps s (.isInLoopThread t l answer) s' →
      (answer = true ↔ t = loop.creator) := by
  have hinv := inv_of_reachable h
  have howned := owned_of_reachable h
  refine ⟨?_, fun t x l hx => howned.pointer_iff hx, ?_, ?_⟩
  · intro l m loop other hl hm heq
    obtain ⟨x, hx, hpoints⟩ := howned.owner l loop hl
    have hother := (howned.pointer_iff hx).mpr ⟨other, hm, heq.symm⟩
    rw [hpoints, Option.some.injEq] at hother
    exact hother
  · intro t l hlive
    obtain ⟨x, hx⟩ := Option.isSome_iff_exists.mp hlive
    exact howned.construct_eq_none hinv hx
  · intro t l loop answer s' hl hs
    obtain ⟨x, hx, _⟩ := howned.owner l loop hl
    cases hs with
    | isInLoopThread _ _ _ _ hs => exact hinv.answer_iff hl hx hs

/-- The main thread makes a loop and destroys it, and then makes another one. -/
theorem loops_bound_to_threads_again : ∃ s : Process (Fin 2) ℕ, (s.loop 6).isSome = true ∧
    (s.construct 0 7 = none ↔ ∃ m loop, s.loop m = some loop ∧ loop.creator = 0) := by
  let s₀ : Process (Fin 2) ℕ :=
    ⟨Function.update (fun _ => .unborn) 0 (.live (.create 10)), fun _ => none⟩
  let s₁ := (s₀.construct 0 5).get rfl
  let s₂ := (s₁.destroy 0 5).get rfl
  let s₃ := (s₂.construct 0 6).get rfl
  have h₀ : (system 0).Reachable Scoped s₀ := .init ⟨10, by decide, rfl, rfl⟩
  have hs₁ : Steps s₀ (.construct 0 5) s₁ := .construct 0 5 s₁ rfl rfl
  have h₁ : (system 0).Reachable Scoped s₁ := .step h₀ (by trivial) hs₁
  have hown : Scoped s₁ (.destroy 0 5) := by
    intro loop hl
    cases hl
    rfl
  have h₂ : (system 0).Reachable Scoped s₂ :=
    .step h₁ hown (Steps.destroy 0 5 s₂ ⟨10, 0⟩ rfl rfl)
  have hs₃ : Steps s₂ (.construct 0 6) s₃ := .construct 0 6 s₃ rfl rfl
  have h₃ : (system 0).Reachable Scoped s₃ := .step h₂ (by trivial) hs₃
  obtain ⟨_, _, hfatal, _⟩ := loops_bound_to_threads 0 s₃ h₃
  exact ⟨s₃, rfl, hfatal 0 7 rfl⟩

end Process
end MuduoCore
