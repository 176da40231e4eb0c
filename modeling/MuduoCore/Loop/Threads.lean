import MuduoCore.Loop.ThreadIdentity
import MuduoCore.Server.TcpServer

/-!
# Thread objects

`Thread` objects, each used by one owner, and the threads that they start. The
lambda of `start()` stores `tid_` and posts a semaphore, a local variable of
`start()`, before it calls `func_`; the destructor detaches a thread that has
not been joined. A thread may go on when its object is gone: destroyed objects
keep their last state and may still be used, since whether that happens is what
is to be found out. Where `std::thread` throws or ends the process, there is no
step.
-/

namespace MuduoCore

structure StdThread (T : Type*) where
  id : T
  joinable : Bool
  deriving DecidableEq, Repr

structure Thread (T : Type*) where
  started_ : Bool
  joined_ : Bool
  thread_ : Option (StdThread T)
  tid_ : ℕ
  name_ : Text
  deriving DecidableEq, Repr

namespace Thread

variable {T : Type*}

/-- `num` is what `++numCreated_` has returned. -/
def setDefaultName (name : Text) (num : ℕ) : Text :=
  if name = [] then snprintf 32 ("Thread".toList ++ decimal num) else name

def create (name : Text) (num : ℕ) : Thread T where
  started_ := false
  joined_ := false
  thread_ := none
  tid_ := 0
  name_ := setDefaultName name num

def joinable (x : Thread T) : Bool := x.thread_.any StdThread.joinable

/-- A `std::thread` that is joinable ends the process when it is replaced. -/
def setThread (x : Thread T) (t : T) : Option (Thread T) :=
  if x.joinable then none else some { x with thread_ := some ⟨t, true⟩ }

/-- What `join()` and `detach()` of the `std::thread` leave. Both throw where it
is not joinable. -/
def release (x : Thread T) : Option (Thread T) :=
  if x.joinable then some { x with thread_ := x.thread_.map fun d => { d with joinable := false } }
  else none

/-- The destructor, with that of the `std::thread`. -/
def destructor (x : Thread T) : Option (Thread T) :=
  (if x.started_ && !x.joined_ then x.release else some x).bind fun x =>
    if x.joinable then none else some x

variable {x y : Thread T} {t : T}

theorem joinable_iff : x.joinable = true ↔ ∃ t, x.thread_ = some ⟨t, true⟩ := by
  rw [joinable, Option.any_eq_true]
  constructor
  · rintro ⟨⟨t, joinable⟩, hd, rfl⟩
    exact ⟨t, hd⟩
  · rintro ⟨t, hd⟩
    exact ⟨_, hd, rfl⟩

theorem setThread_eq (h : x.setThread t = some y) :
    x.joinable = false ∧ y = { x with thread_ := some ⟨t, true⟩ } := by
  unfold setThread at h
  split_ifs at h with hj
  exact ⟨by simpa using hj, (Option.some.inj h).symm⟩

theorem release_eq (h : x.release = some y) :
    ∃ t, x.thread_ = some ⟨t, true⟩ ∧ y = { x with thread_ := some ⟨t, false⟩ } := by
  unfold release at h
  split_ifs at h with hj
  obtain ⟨t, hd⟩ := joinable_iff.mp hj
  rw [hd] at h
  exact ⟨t, hd, (Option.some.inj h).symm⟩

/-- The destructor detaches the thread, or has nothing left to do. -/
theorem destructor_eq (h : x.destructor = some y) :
    y.joinable = false ∧ ((x.started_ = true ∧ x.joined_ = false ∧ x.release = some y) ∨
      ((x.started_ = true → x.joined_ = true) ∧ y = x)) := by
  unfold destructor at h
  obtain ⟨z, hz, hy⟩ := Option.bind_eq_some_iff.mp h
  split_ifs at hy with hj
  cases hy
  refine ⟨by simpa using hj, ?_⟩
  split_ifs at hz with hdetach
  · simp only [Bool.and_eq_true, Bool.not_eq_true'] at hdetach
    exact Or.inl ⟨hdetach.1, hdetach.2, hz⟩
  · refine Or.inr ⟨?_, (Option.some.inj hz).symm⟩
    intro hs
    simpa [hs] using hdetach

end Thread

/-- What the owner of a `Thread` is doing with it. -/
inductive OwnerCall (T : Type*)
  | idle
  /-- `start()` has set `started_` -/
  | starting
  /-- `start()` has made the `std::thread`, which may run already, and has still
  to keep it in `thread_`; the value of the semaphore -/
  | created (t : T) (sem : ℕ)
  /-- `start()` is at `sem_wait`; the value of the semaphore -/
  | waiting (sem : ℕ)
  /-- `join()` has set `joined_` -/
  | joining
  deriving DecidableEq, Repr

namespace OwnerCall

variable {T : Type*}

def inStart : OwnerCall T → Bool
  | starting | created _ _ | waiting _ => true
  | _ => false

/-- The semaphore, while it exists and a thread may post it. -/
def sem : OwnerCall T → Option ℕ
  | created _ sem | waiting sem => some sem
  | _ => none

def sem_post : OwnerCall T → OwnerCall T
  | created t sem => .created t (sem + 1)
  | waiting sem => .waiting (sem + 1)
  | c => c

theorem sem_sem_post (c : OwnerCall T) : c.sem_post.sem = c.sem.map (· + 1) := by
  cases c <;> rfl

theorem sem_of_inStart {c : OwnerCall T} (h : c.inStart = false) : c.sem = none := by
  cases c with
  | created | waiting => cases h
  | _ => rfl

end OwnerCall

/-- A `Thread` that has been constructed. The last fields record the argument of
the constructor, what `++numCreated_` returned in it, and the destructor. -/
structure ThreadObject (T : Type*) extends Thread T where
  call : OwnerCall T
  given : Text
  number : ℕ
  destroyed : Bool
  deriving DecidableEq, Repr

/-- The thread that has been made last for the object. -/
def ThreadObject.current {T : Type*} (x : ThreadObject T) : Option T :=
  match x.call with
  | .created t _ => some t
  | _ => x.thread_.map StdThread.id

theorem ThreadObject.current_eq_of_inStart {T : Type*} {x : ThreadObject T}
    (h : x.call.inStart = false) : x.current = x.thread_.map StdThread.id := by
  unfold current
  split
  · rename_i hcall
    rw [hcall] at h
    cases h
  · rfl

/-- How far the lambda of `start()` has come, on a thread of its own. -/
inductive Routine (K : Type*)
  | storeTid (k : K)
  | post (k : K)
  | call (k : K)
  /-- in `func_` -/
  | func (k : K)
  deriving DecidableEq, Repr

namespace Routine

variable {K : Type*}

def object : Routine K → K
  | storeTid k | post k | call k | func k => k

def beforePost : Routine K → Bool
  | storeTid _ | post _ => true
  | _ => false

end Routine

structure ThreadTable (T E K : Type*) where
  process : Process T E
  numCreated_ : ℕ
  object : K → Option (ThreadObject T)
  routine : T → Option (Routine K)

inductive ThreadTableLabel (T E K : Type*)
  | construct (k : K) (name : Text)
  | start (k : K)
  /-- the new `std::thread`, and the number that the kernel gives it -/
  | spawn (k : K) (t : T) (gettid : ℕ)
  /-- `thread_` is assigned -/
  | assign (k : K)
  /-- `sem_wait` returns -/
  | started (k : K)
  | storeTid (t : T)
  | post (t : T)
  | call (t : T)
  /-- `func_` returns, and the thread ends -/
  | ret (t : T)
  | join (k : K)
  /-- the thread has ended, and `join()` returns -/
  | joined (k : K)
  | destroy (k : K)
  /-- a step of `func_` or of another thread that has to do with loops -/
  | process (l : ProcessLabel T E)

def ProcessLabel.runner {T E : Type*} : ProcessLabel T E → Option T
  | construct t _ | destroy t _ | isInLoopThread t _ _ => some t
  | clone _ _ | exit _ => none

namespace Process

variable {T E : Type*} [DecidableEq T] [DecidableEq E] {s s' : Process T E} {t u : T}
  {x y l : ThreadLocals E}

omit [DecidableEq E] in
theorem number_of_setLocals (hx : s.locals u = some x) (hy : y.gettid = x.gettid)
    (hcached : x.t_cachedTid = x.gettid → y.t_cachedTid = y.gettid)
    (hl : (s.setLocals u y).locals t = some l) :
    ∃ m, s.locals t = some m ∧ l.gettid = m.gettid ∧
      (m.t_cachedTid = m.gettid → l.t_cachedTid = l.gettid) := by
  rw [locals_setLocals] at hl
  split_ifs at hl with ht
  · cases hl
    exact ⟨x, ht ▸ hx, hy, hcached⟩
  · refine ⟨l, hl, rfl, id⟩

theorem number_of_steps (h : Inv s) {k : ProcessLabel T E} (hs : Steps s k s')
    (ht : s.thread t ≠ .unborn) (hl : s'.locals t = some l) :
    ∃ m, s.locals t = some m ∧ l.gettid = m.gettid ∧
      (m.t_cachedTid = m.gettid → l.t_cachedTid = l.gettid) := by
  cases hs with
  | clone u gettid hu hpos hunused =>
    have htu : t ≠ u := by
      rintro rfl
      exact ht hu
    rw [locals_setLocals, if_neg htu] at hl
    exact ⟨l, hl, rfl, id⟩
  | exit u x hu =>
    rw [locals_exit] at hl
    split_ifs at hl
    exact ⟨l, hl, rfl, id⟩
  | construct u e _ he hs =>
    obtain ⟨x, hx, _, rfl⟩ := h.construct hs
    exact number_of_setLocals (y := ⟨x.gettid, x.gettid, some e⟩) hx rfl (fun _ => rfl) hl
  | destroy u e _ loop he hs =>
    obtain ⟨x, hx, rfl⟩ := Option.map_eq_some_iff.mp hs
    exact number_of_setLocals (y := { x with t_loopInThisThread := none }) hx rfl id hl
  | isInLoopThread u e answer _ hs =>
    obtain ⟨_, x, _, hx, _, rfl⟩ := h.isInLoopThread hs
    exact number_of_setLocals (y := { x with t_cachedTid := x.gettid }) hx rfl (fun _ => rfl) hl

theorem begun_of_steps (h : Inv s) {k : ProcessLabel T E} (hs : Steps s k s')
    (ht : s.thread t ≠ .unborn) : s'.thread t ≠ .unborn := by
  have hset : ∀ u y, (s.setLocals u y).thread t ≠ .unborn := by
    intro u y
    by_cases htu : t = u <;> simp [setLocals, htu, ht]
  cases hs with
  | clone u gettid hu hpos hunused => exact hset u _
  | exit u x hu => by_cases htu : t = u <;> simp [htu, ht]
  | construct u e _ he hs =>
    obtain ⟨x, hx, _, rfl⟩ := h.construct hs
    exact hset u _
  | destroy u e _ loop he hs =>
    obtain ⟨x, hx, rfl⟩ := Option.map_eq_some_iff.mp hs
    exact hset u _
  | isInLoopThread u e answer _ hs =>
    obtain ⟨_, x, _, hx, _, rfl⟩ := h.isInLoopThread hs
    exact hset u _

end Process

namespace ThreadTable

variable {T E K : Type*} [DecidableEq T] [DecidableEq E] [DecidableEq K]

def setObject (s : ThreadTable T E K) (k : K) (x : ThreadObject T) : ThreadTable T E K :=
  { s with object := Function.update s.object k (some x) }

def setRoutine (s : ThreadTable T E K) (t : T) (r : Option (Routine K)) : ThreadTable T E K :=
  { s with routine := Function.update s.routine t r }

section

variable (s : ThreadTable T E K) (k j : K) (x : ThreadObject T) (t u : T) (r : Option (Routine K))

omit [DecidableEq T] [DecidableEq E] in
@[simp] theorem setObject_object :
    (s.setObject k x).object j = if j = k then some x else s.object j := Function.update_apply ..

omit [DecidableEq T] [DecidableEq E] in
theorem setObject_self : (s.setObject k x).object k = some x := Function.update_self ..

omit [DecidableEq T] [DecidableEq E] in
@[simp] theorem setObject_routine : (s.setObject k x).routine = s.routine := rfl

omit [DecidableEq T] [DecidableEq E] in
@[simp] theorem setObject_process : (s.setObject k x).process = s.process := rfl

omit [DecidableEq E] [DecidableEq K] in
@[simp] theorem setRoutine_routine :
    (s.setRoutine t r).routine u = if u = t then r else s.routine u := Function.update_apply ..

omit [DecidableEq E] [DecidableEq K] in
@[simp] theorem setRoutine_object : (s.setRoutine t r).object = s.object := rfl

omit [DecidableEq E] [DecidableEq K] in
@[simp] theorem setRoutine_process : (s.setRoutine t r).process = s.process := rfl

end

/-- Where `++numCreated_` would overflow, there is no step. -/
inductive Steps (s : ThreadTable T E K) : ThreadTableLabel T E K → ThreadTable T E K → Prop
  | construct (k : K) (name : Text) (hk : s.object k = none) (hnum : s.numCreated_ + 1 < 2 ^ 31) :
      Steps s (.construct k name)
        { s.setObject k ⟨.create name (s.numCreated_ + 1), .idle, name, s.numCreated_ + 1, false⟩
          with numCreated_ := s.numCreated_ + 1 }
  | start (k : K) (x : ThreadObject T) (hx : s.object k = some x) (hidle : x.call = .idle)
      (halive : x.destroyed = false) :
      Steps s (.start k) (s.setObject k { x with started_ := true, call := .starting })
  | spawn (k : K) (t : T) (gettid : ℕ) (x : ThreadObject T) (p : Process T E)
      (hx : s.object k = some x) (hcall : x.call = .starting)
      (hp : Process.Steps s.process (.clone t gettid) p) :
      Steps s (.spawn k t gettid)
        { (s.setObject k { x with call := .created t 0 }).setRoutine t (some (.storeTid k)) with
          process := p }
  | assign (k : K) (t : T) (sem : ℕ) (x : ThreadObject T) (y : Thread T)
      (hx : s.object k = some x) (hcall : x.call = .created t sem)
      (hy : x.setThread t = some y) :
      Steps s (.assign k) (s.setObject k { x with toThread := y, call := .waiting sem })
  | started (k : K) (x : ThreadObject T) (sem : ℕ) (hx : s.object k = some x)
      (hcall : x.call = .waiting (sem + 1)) :
      Steps s (.started k) (s.setObject k { x with call := .idle })
  | storeTid (t : T) (k : K) (x : ThreadObject T) (locals : ThreadLocals E)
      (ht : s.routine t = some (.storeTid k)) (hx : s.object k = some x)
      (hlocals : s.process.locals t = some locals) :
      Steps s (.storeTid t)
        { (s.setObject k { x with tid_ := locals.tid.1 }).setRoutine t (some (.post k)) with
          process := s.process.setLocals t locals.tid.2 }
  | post (t : T) (k : K) (x : ThreadObject T) (ht : s.routine t = some (.post k))
      (hx : s.object k = some x) :
      Steps s (.post t)
        ((s.setObject k { x with call := x.call.sem_post }).setRoutine t (some (.call k)))
  | call (t : T) (k : K) (ht : s.routine t = some (.call k)) :
      Steps s (.call t) (s.setRoutine t (some (.func k)))
  | ret (t : T) (k : K) (p : Process T E) (ht : s.routine t = some (.func k))
      (hp : Process.Steps s.process (.exit t) p) :
      Steps s (.ret t) { s.setRoutine t none with process := p }
  | join (k : K) (x : ThreadObject T) (hx : s.object k = some x) (hidle : x.call = .idle)
      (halive : x.destroyed = false) :
      Steps s (.join k) (s.setObject k { x with joined_ := true, call := .joining })
  | joined (k : K) (x : ThreadObject T) (y : Thread T) (hx : s.object k = some x)
      (hcall : x.call = .joining) (hy : x.release = some y)
      (hended : ∀ d, x.thread_ = some d → s.process.thread d.id = .ended) :
      Steps s (.joined k) (s.setObject k { x with toThread := y, call := .idle })
  | destroy (k : K) (x : ThreadObject T) (y : Thread T) (hx : s.object k = some x)
      (hidle : x.call = .idle) (halive : x.destroyed = false) (hy : x.destructor = some y) :
      Steps s (.destroy k) (s.setObject k { x with toThread := y, destroyed := true })
  | process (l : ProcessLabel T E) (t : T) (p : Process T E) (ht : l.runner = some t)
      (hr : s.routine t = none ∨ ∃ k, s.routine t = some (.func k))
      (hp : Process.Steps s.process l p) : Steps s (.process l) { s with process := p }

def system (main : T) : TransitionSystem (ThreadTable T E K) (ThreadTableLabel T E K) where
  Init s := (Process.system main).Init s.process ∧ s.numCreated_ = 0 ∧
    s.object = (fun _ => none) ∧ s.routine = fun _ => none
  Step s l s' := Steps s l s'

variable {main : T} {s s' : ThreadTable T E K} {k : K} {t : T} {x : ThreadObject T}

/-! ## The numbers of the threads -/

/-- The thread, if it lives, has this number and has called `tid()`. -/
def Known (s : ThreadTable T E K) (t : T) (tid : ℕ) : Prop :=
  tid ≠ 0 ∧ ∀ l, s.process.locals t = some l → tid = l.gettid ∧ l.t_cachedTid = l.gettid

/-- How far `start()` is with the object `k`. -/
structure Starts (s : ThreadTable T E K) (k : K) (x : ThreadObject T) : Prop where
  begun : ∀ t, x.current = some t → s.process.thread t ≠ .unborn
  spawned : x.started_ = true → x.call ≠ .starting → x.current.isSome = true
  unposted : x.call.sem = some 0 →
    ∃ t r, s.routine t = some r ∧ r.object = k ∧ r.beforePost = true
  stored : ∀ t, x.current = some t → s.routine t = some (.storeTid k) ∨ s.Known t x.tid_

structure Inv (s : ThreadTable T E K) : Prop where
  process : s.process.Inv
  live : ∀ t r, s.routine t = some r → (s.process.locals t).isSome = true
  object : ∀ k x, s.object k = some x → Starts s k x
  routine : ∀ t r, s.routine t = some r → ∃ x, s.object r.object = some x ∧
    (r.beforePost = true → x.current = some t ∧ x.call.sem = some 0)
  own : ∀ j k x y t, s.object j = some x → s.object k = some y → x.current = some t →
    y.current = some t → j = k

omit [DecidableEq K] in
theorem inv_init (h : (Process.system main).Init s.process) (hobject : s.object = fun _ => none)
    (hroutine : s.routine = fun _ => none) : Inv s := by
  refine ⟨Process.inv_init h, ?_, ?_, ?_, ?_⟩
  · intro t r ht
    simp [hroutine] at ht
  · intro k x hx
    simp [hobject] at hx
  · intro t r ht
    simp [hroutine] at ht
  · intro j k x y t hx
    simp [hobject] at hx

omit [DecidableEq T] [DecidableEq E] [DecidableEq K] in
/-- No lambda is between its thread's begin and its post, for an object whose
`start()` has no empty semaphore. -/
theorem Inv.posted (h : Inv s) (hx : s.object k = some x) (hcall : x.call.sem ≠ some 0) {t : T}
    {r : Routine K} (hr : s.routine t = some r) (hk : r.object = k) : r.beforePost = false := by
  obtain ⟨y, hy, hpost⟩ := h.routine t r hr
  rw [hk, hx, Option.some.injEq] at hy
  subst hy
  by_contra hbefore
  exact hcall (hpost (by simpa using hbefore)).2

omit [DecidableEq T] [DecidableEq E] in
theorem Inv.setObject_own (h : Inv s) (hsame : ∀ t, x.current = some t →
      ∀ j z, j ≠ k → s.object j = some z → z.current ≠ some t) :
    ∀ i j y z t, (s.setObject k x).object i = some y → (s.setObject k x).object j = some z →
      y.current = some t → z.current = some t → i = j := by
  intro i j y z t hy hz hyt hzt
  rw [setObject_object] at hy hz
  split_ifs at hy hz with hi hj hj
  · rw [hi, hj]
  · cases hy
    exact absurd hzt (hsame t hyt j z hj hz)
  · cases hz
    exact absurd hyt (hsame t hzt i y hi hy)
  · exact h.own i j y z t hy hz hyt hzt

omit [DecidableEq T] [DecidableEq E] in
theorem Inv.setObject (h : Inv s)
    (hposted : ∀ t r, s.routine t = some r → r.object = k → r.beforePost = true →
      x.current = some t ∧ x.call.sem = some 0)
    (hsem : x.call.sem = some 0 → ∃ y, s.object k = some y ∧ y.call.sem = some 0)
    (hspawned : x.started_ = true → x.call ≠ .starting → x.current.isSome = true)
    (hsame : ∀ t, x.current = some t →
      ∃ y, s.object k = some y ∧ y.current = some t ∧ y.tid_ = x.tid_) :
    Inv (s.setObject k x) := by
  refine ⟨h.process, h.live, ?_, ?_, h.setObject_own ?_⟩
  · intro j z hz
    rw [setObject_object] at hz
    split_ifs at hz with hj
    · cases hz
      subst hj
      refine ⟨?_, hspawned, ?_, ?_⟩
      · intro t ht
        obtain ⟨y, hy, hyt, _⟩ := hsame t ht
        exact (h.object _ y hy).begun t hyt
      · intro hempty
        obtain ⟨y, hy, hyempty⟩ := hsem hempty
        exact (h.object _ y hy).unposted hyempty
      · intro t ht
        obtain ⟨y, hy, hyt, htid⟩ := hsame t ht
        rw [← htid]
        exact (h.object _ y hy).stored t hyt
    · have hold := h.object j z hz
      exact ⟨hold.begun, hold.spawned, hold.unposted, hold.stored⟩
  · intro t r hr
    rw [setObject_object]
    split_ifs with hj
    · exact ⟨x, rfl, hposted t r hr hj⟩
    · exact h.routine t r hr
  · intro t ht j z hj hz hzt
    obtain ⟨y, hy, hyt, _⟩ := hsame t ht
    exact hj (h.own j k z y t hz hy hzt hyt)

omit [DecidableEq T] [DecidableEq E] in
theorem Inv.setObject_posted (h : Inv s) {y : ThreadObject T} (hx : s.object k = some x)
    (hposted : x.call.sem ≠ some 0) (hsem : y.call.sem = none)
    (hspawned : y.started_ = true → y.call ≠ .starting → y.current.isSome = true)
    (hcurrent : y.current = x.current) (htid : y.tid_ = x.tid_) : Inv (s.setObject k y) := by
  refine h.setObject ?_ (by rw [hsem]; exact nofun) hspawned fun t ht =>
    ⟨x, hx, hcurrent ▸ ht, htid.symm⟩
  intro t r hr hk hbefore
  rw [h.posted hx hposted hr hk] at hbefore
  cases hbefore

omit [DecidableEq E] in
/-- `start()` and its lambda, on thread `t`, have gone on together. -/
theorem Inv.lambda (h : Inv s) {r : Routine K} (hlive : (s.process.locals t).isSome = true)
    (ht : ∀ q, s.routine t = some q → q.object = k)
    (hposted : ∀ u q, u ≠ t → s.routine u = some q → q.object = k → q.beforePost = false)
    (hr : r.object = k) (hcurrent : x.current = some t)
    (hcall : ∃ sem, x.call.sem = some sem ∧ (sem = 0 ↔ r.beforePost = true))
    (hstored : r = .storeTid k ∨ s.Known t x.tid_)
    (hown : ∀ j z, j ≠ k → s.object j = some z → z.current ≠ some t) :
    Inv ((s.setObject k x).setRoutine t (some r)) := by
  obtain ⟨sem, hcall, hsem⟩ := hcall
  have hother : ∀ u q, q.object ≠ k → s.routine u = some q →
      ((s.setObject k x).setRoutine t (some r)).routine u = some q := by
    intro u q hq hu
    have hut : u ≠ t := by
      rintro rfl
      exact hq (ht q hu)
    simpa [hut] using hu
  refine ⟨h.process, ?_, ?_, ?_, ?_⟩
  · intro u q hu
    rw [setRoutine_routine] at hu
    split_ifs at hu with hut
    · rw [hut]
      exact hlive
    · exact h.live u q hu
  · intro j z hz
    rw [setRoutine_object, setObject_object] at hz
    split_ifs at hz with hj
    · cases hz
      subst hj
      refine ⟨?_, fun _ _ => by rw [hcurrent]; rfl, ?_, ?_⟩
      · intro u hu
        obtain ⟨l, hl⟩ := Option.isSome_iff_exists.mp hlive
        rw [hcurrent, Option.some.injEq] at hu
        rw [← hu, setRoutine_process, setObject_process, Process.thread_of_locals hl]
        exact nofun
      · intro hempty
        rw [hcall, Option.some.injEq] at hempty
        exact ⟨t, r, by simp, hr, hsem.mp hempty⟩
      · intro u hu
        rw [hcurrent, Option.some.injEq] at hu
        subst hu
        exact hstored.imp_left fun hr => by simp [hr]
    · have hold := h.object j z hz
      refine ⟨hold.begun, hold.spawned, ?_, fun u hu => (hold.stored u hu).imp_left (hother _ _ hj)⟩
      intro hempty
      obtain ⟨u, q, hu, rfl, hq⟩ := hold.unposted hempty
      exact ⟨u, q, hother u q hj hu, rfl, hq⟩
  · intro u q hu
    rw [setRoutine_routine] at hu
    rw [setRoutine_object, setObject_object]
    split_ifs at hu with hut
    · cases hu
      refine ⟨x, if_pos hr, fun hq => ⟨hut ▸ hcurrent, ?_⟩⟩
      rw [hcall, hsem.mpr hq]
    · split_ifs with hj
      · refine ⟨x, rfl, ?_⟩
        rw [hposted u q hut hu hj]
        exact nofun
      · exact h.routine u q hu
  · refine h.setObject_own ?_
    intro u hu j z hj hz
    rw [hcurrent, Option.some.injEq] at hu
    rw [← hu]
    exact hown j z hj hz

omit [DecidableEq E] [DecidableEq K] in
theorem Inv.setRoutine (h : Inv s) {r : Routine K} {n : Option (Routine K)}
    (hr : s.routine t = some r) (hpost : r.beforePost = false)
    (hn : ∀ q, n = some q → q.object = r.object ∧ q.beforePost = false) :
    Inv (s.setRoutine t n) := by
  have hother : ∀ u q, q.beforePost = true → s.routine u = some q →
      (s.setRoutine t n).routine u = some q := by
    intro u q hq hu
    have hut : u ≠ t := by
      rintro rfl
      rw [hr, Option.some.injEq] at hu
      subst hu
      rw [hpost] at hq
      cases hq
    simpa [hut] using hu
  refine ⟨h.process, ?_, ?_, ?_, h.own⟩
  · intro u q hu
    rw [setRoutine_routine] at hu
    split_ifs at hu with hut
    · rw [hut]
      exact h.live t r hr
    · exact h.live u q hu
  · intro k x hx
    have hold := h.object k x hx
    refine ⟨hold.begun, hold.spawned, ?_, fun u hu => (hold.stored u hu).imp_left (hother _ _ rfl)⟩
    intro hempty
    obtain ⟨u, q, hu, hk, hq⟩ := hold.unposted hempty
    exact ⟨u, q, hother u q hq hu, hk, hq⟩
  · intro u q hu
    rw [setRoutine_routine] at hu
    split_ifs at hu with hut
    · obtain ⟨hobject, hq⟩ := hn q hu
      obtain ⟨x, hx, _⟩ := h.routine t r hr
      refine ⟨x, by rw [hobject]; exact hx, ?_⟩
      rw [hq]
      exact nofun
    · exact h.routine u q hu

omit [DecidableEq T] [DecidableEq E] [DecidableEq K] in
theorem Inv.setProcess (h : Inv s) {p : Process T E} (hp : p.Inv)
    (hlive : ∀ t r, s.routine t = some r → (p.locals t).isSome = true)
    (hbegun : ∀ t, s.process.thread t ≠ .unborn → p.thread t ≠ .unborn)
    (hlocals : ∀ t l, s.process.thread t ≠ .unborn → p.locals t = some l →
      ∃ m, s.process.locals t = some m ∧ l.gettid = m.gettid ∧
        (m.t_cachedTid = m.gettid → l.t_cachedTid = l.gettid)) :
    Inv { s with process := p } := by
  refine ⟨hp, hlive, ?_, h.routine, h.own⟩
  intro k x hx
  have hold := h.object k x hx
  refine ⟨fun t ht => hbegun t (hold.begun t ht), hold.spawned, hold.unposted, ?_⟩
  intro t ht
  refine (hold.stored t ht).imp_right ?_
  rintro ⟨hpos, hknown⟩
  refine ⟨hpos, fun l hl => ?_⟩
  obtain ⟨m, hm, hnumber, hcached⟩ := hlocals t l (hold.begun t ht) hl
  obtain ⟨htid, hcache⟩ := hknown m hm
  exact ⟨htid.trans hnumber.symm, hcached hcache⟩

omit [DecidableEq K] in
theorem Inv.ofSteps (h : Inv s) {l : ProcessLabel T E} {p : Process T E}
    (hp : Process.Steps s.process l p)
    (hlive : ∀ t r, s.routine t = some r → (p.locals t).isSome = true) :
    Inv { s with process := p } :=
  h.setProcess (h.process.next hp) hlive (fun _ => Process.begun_of_steps h.process hp)
    fun _ _ => Process.number_of_steps h.process hp

theorem Inv.spawn (h : Inv s) {gettid : ℕ} {p : Process T E} (hx : s.object k = some x)
    (hcall : x.call = .starting) (hp : Process.Steps s.process (.clone t gettid) p) :
    Inv { (s.setObject k { x with call := .created t 0 }).setRoutine t (some (.storeTid k)) with
      process := p } := by
  have hunborn : s.process.thread t = .unborn := by
    cases hp with
    | clone _ _ ht => exact ht
  have hlives := Process.isSome_locals_of_steps h.process hp
  have hnone : ∀ q, s.routine t ≠ some q := by
    intro q hq
    obtain ⟨l, hl⟩ := Option.isSome_iff_exists.mp (h.live t q hq)
    rw [Process.thread_of_locals hl] at hunborn
    cases hunborn
  have hp' : Inv { s with process := p } := by
    refine h.ofSteps hp ?_
    intro u r hr
    rw [hlives u]
    simp [h.live u r hr]
  refine hp'.lambda (r := .storeTid k) (by rw [hlives t]; simp) (fun q hq => absurd hq (hnone q))
    ?_ rfl rfl ⟨0, rfl, by simp [Routine.beforePost]⟩ (Or.inl rfl) ?_
  · intro u q _ hu hk
    exact h.posted hx (by rw [hcall]; exact nofun) hu hk
  · intro j z _ hz hzt
    exact (h.object j z hz).begun t hzt hunborn

omit [DecidableEq T] [DecidableEq E] in
theorem Inv.assign (h : Inv s) {sem : ℕ} {y : Thread T} (hx : s.object k = some x)
    (hcall : x.call = .created t sem) (hy : x.setThread t = some y) :
    Inv (s.setObject k { x with toThread := y, call := .waiting sem }) := by
  obtain ⟨_, rfl⟩ := Thread.setThread_eq hy
  have hcurrent : x.current = some t := by rw [ThreadObject.current, hcall]
  have hsem : x.call.sem = some sem := by rw [hcall]; rfl
  refine h.setObject ?_ (fun hempty => ⟨x, hx, hsem.trans hempty⟩) (fun _ _ => rfl) ?_
  · intro u r hr hk hbefore
    obtain ⟨z, hz, hpost⟩ := h.routine u r hr
    rw [hk, hx, Option.some.injEq] at hz
    subst hz
    obtain ⟨hu, hempty⟩ := hpost hbefore
    exact ⟨hcurrent.symm.trans hu, hsem.symm.trans hempty⟩
  · rintro u hu
    exact ⟨x, hx, hcurrent.trans hu, rfl⟩

omit [DecidableEq T] [DecidableEq E] [DecidableEq K] in
theorem Inv.beforePost (h : Inv s) {r : Routine K} (ht : s.routine t = some r)
    (hr : r.beforePost = true) (hx : s.object r.object = some x) :
    x.current = some t ∧ x.call.sem = some 0 ∧
      (∀ u q, u ≠ t → s.routine u = some q → q.object = r.object → q.beforePost = false) ∧
      ∀ j z, j ≠ r.object → s.object j = some z → z.current ≠ some t := by
  obtain ⟨y, hy, hpost⟩ := h.routine t r ht
  obtain rfl : x = y := Option.some.inj (hx.symm.trans hy)
  obtain ⟨hcurrent, hcall⟩ := hpost hr
  refine ⟨hcurrent, hcall, ?_, ?_⟩
  · intro u q hut hu hk
    by_contra hq
    obtain ⟨z, hz, hq'⟩ := h.routine u q hu
    rw [hk, hx, Option.some.injEq] at hz
    subst hz
    have hu := (hq' (by simpa using hq)).1
    rw [hcurrent, Option.some.injEq] at hu
    exact hut hu.symm
  · intro j z hj hz hzt
    exact hj (h.own j r.object z x t hz hx hzt hcurrent)

omit [DecidableEq E] in
theorem Inv.storeTid (h : Inv s) {l : ThreadLocals E} (ht : s.routine t = some (.storeTid k))
    (hx : s.object k = some x) (hl : s.process.locals t = some l) :
    Inv { (s.setObject k { x with tid_ := l.tid.1 }).setRoutine t (some (.post k)) with
      process := s.process.setLocals t l.tid.2 } := by
  obtain ⟨hcurrent, hcall, hposted, hown⟩ := h.beforePost ht rfl hx
  have hcached := h.process.cached t l hl
  rw [hcached.tid]
  have hp : Inv { s with process := s.process.setLocals t { l with t_cachedTid := l.gettid } } := by
    refine h.setProcess (h.process.setLocals hl rfl ⟨hcached.1, Or.inr rfl⟩) ?_ ?_ ?_
    · intro u r hr
      rw [Process.locals_setLocals]
      split_ifs
      · rfl
      · exact h.live u r hr
    · intro u hu
      by_cases hut : u = t <;> simp [Process.setLocals, hut, hu]
    · intro u m _ hm
      exact Process.number_of_setLocals (y := { l with t_cachedTid := l.gettid }) hl rfl
        (fun _ => rfl) hm
  refine hp.lambda (r := .post k) ?_ ?_ hposted rfl hcurrent
    ⟨0, hcall, by simp [Routine.beforePost]⟩ (Or.inr ⟨hcached.1, ?_⟩) hown
  · simp [Process.locals_setLocals]
  · intro q hq
    rw [ht, Option.some.injEq] at hq
    rw [← hq]
    rfl
  · intro m hm
    rw [Process.locals_setLocals, if_pos rfl, Option.some.injEq] at hm
    rw [← hm]
    exact ⟨rfl, rfl⟩

omit [DecidableEq E] in
theorem Inv.post (h : Inv s) (ht : s.routine t = some (.post k)) (hx : s.object k = some x) :
    Inv ((s.setObject k { x with call := x.call.sem_post }).setRoutine t (some (.call k))) := by
  obtain ⟨hcurrent, hcall, hposted, hown⟩ := h.beforePost ht rfl hx
  have hcurrent' : ({ x with call := x.call.sem_post } : ThreadObject T).current = some t := by
    rw [← hcurrent]
    unfold ThreadObject.current
    cases x.call <;> rfl
  refine h.lambda (r := .call k) (h.live t _ ht) ?_ hposted rfl hcurrent' ⟨1, ?_, ?_⟩ (Or.inr ?_)
    hown
  · intro q hq
    rw [ht, Option.some.injEq] at hq
    rw [← hq]
    rfl
  · rw [OwnerCall.sem_sem_post, hcall]
    rfl
  · simp [Routine.beforePost]
  · rcases (h.object k x hx).stored t hcurrent with hstore | hknown
    · rw [ht] at hstore
      cases hstore
    · exact hknown

theorem Inv.next (h : Inv s) {l : ThreadTableLabel T E K} (hs : Steps s l s') : Inv s' := by
  cases hs with
  | construct k name hk hnum =>
    have hset := h.setObject (k := k)
      (x := ⟨.create name (s.numCreated_ + 1), .idle, name, s.numCreated_ + 1, false⟩) ?_ nofun
      nofun nofun
    · exact ⟨hset.process, hset.live, fun j x hx => ⟨(hset.object j x hx).begun,
        (hset.object j x hx).spawned, (hset.object j x hx).unposted, (hset.object j x hx).stored⟩,
        hset.routine, hset.own⟩
    · intro t r hr hrk
      obtain ⟨x, hx, _⟩ := h.routine t r hr
      rw [hrk, hk] at hx
      cases hx
  | start k x hx hidle halive =>
    refine h.setObject_posted hx (by rw [hidle]; exact nofun) rfl (fun _ hcall => absurd rfl hcall)
      ?_ rfl
    rw [ThreadObject.current, ThreadObject.current, hidle]
  | spawn k t gettid x p hx hcall hp => exact h.spawn hx hcall hp
  | assign k t sem x y hx hcall hy => exact h.assign hx hcall hy
  | started k x sem hx hcall =>
    have hcurrent : ({ x with call := .idle } : ThreadObject T).current = x.current := by
      rw [ThreadObject.current, ThreadObject.current, hcall]
    refine h.setObject_posted hx (by rw [hcall]; exact nofun) rfl ?_ hcurrent rfl
    intro hstarted _
    rw [hcurrent]
    exact (h.object k x hx).spawned hstarted (by rw [hcall]; exact nofun)
  | storeTid t k x l ht hx hl => exact h.storeTid ht hx hl
  | post t k x ht hx => exact h.post ht hx
  | call t k ht =>
    refine h.setRoutine ht rfl ?_
    rintro q hq
    cases hq
    exact ⟨rfl, rfl⟩
  | ret t k p ht hp =>
    refine (h.setRoutine (n := none) ht rfl nofun).ofSteps hp ?_
    intro u r hu
    have hlive := Process.isSome_locals_of_steps h.process hp u
    rw [setRoutine_routine] at hu
    split_ifs at hu with hut
    rw [hlive]
    simp [hut, h.live u r hu]
  | join k x hx hidle halive =>
    have hcurrent : ({ x with joined_ := true, call := .joining } : ThreadObject T).current =
        x.current := by
      rw [ThreadObject.current, ThreadObject.current, hidle]
    refine h.setObject_posted hx (by rw [hidle]; exact nofun) rfl ?_ hcurrent rfl
    intro hstarted _
    rw [hcurrent]
    exact (h.object k x hx).spawned hstarted (by rw [hidle]; exact nofun)
  | joined k x y hx hcall hy hended =>
    obtain ⟨t, hd, rfl⟩ := Thread.release_eq hy
    refine h.setObject_posted hx (by rw [hcall]; exact nofun) rfl (fun _ _ => rfl) ?_ rfl
    rw [ThreadObject.current, ThreadObject.current, hcall, hd]
    rfl
  | destroy k x y hx hidle halive hy =>
    have hsem : x.call.sem = none := by rw [hidle]; rfl
    rcases Thread.destructor_eq hy with ⟨_, ⟨_, _, hdetach⟩ | ⟨_, rfl⟩⟩
    · obtain ⟨t, hd, rfl⟩ := Thread.release_eq hdetach
      have hcurrent : ThreadObject.current { x with
          thread_ := some ⟨t, false⟩, destroyed := true } = x.current := by
        rw [ThreadObject.current, ThreadObject.current, hidle, hd]
        rfl
      refine h.setObject_posted hx (by rw [hsem]; exact nofun) hsem (fun _ _ => ?_) hcurrent rfl
      rw [hcurrent, ThreadObject.current, hidle, hd]
      rfl
    · exact h.setObject_posted hx (by rw [hsem]; exact nofun) hsem (h.object k x hx).spawned rfl rfl
  | process l t p ht hr hp =>
    refine h.ofSteps hp ?_
    intro u r hu
    have hlive := Process.isSome_locals_of_steps h.process hp u
    cases l with
    | clone _ _ | exit _ => cases ht
    | _ => exact hlive.trans (h.live u r hu)

theorem inv_of_reachable {Good : ThreadTable T E K → ThreadTableLabel T E K → Prop}
    (h : (system main).Reachable Good s) : Inv s := by
  refine h.invariant (I := Inv) ?_ fun _ _ _ hinv _ hs => hinv.next hs
  rintro s ⟨hprocess, _, hobject, hroutine⟩
  exact inv_init hprocess hobject hroutine

omit [DecidableEq K] [DecidableEq E] [DecidableEq T] in
theorem Inv.known (h : Inv s) (hx : s.object k = some x) (hcall : x.call.inStart = false)
    {d : StdThread T} (hd : x.thread_ = some d) : s.Known d.id x.tid_ := by
  have hcurrent : x.current = some d.id := by
    rw [ThreadObject.current_eq_of_inStart hcall, hd]
    rfl
  rcases (h.object k x hx).stored d.id hcurrent with hstore | hknown
  · have hsem := (h.beforePost hstore rfl hx).2.1
    rw [OwnerCall.sem_of_inStart hcall] at hsem
    cases hsem
  · exact hknown

/-- While the semaphore is empty, the new thread has something to do. -/
theorem Inv.waiting_step (h : Inv s) (hx : s.object k = some x) (hcall : x.call = .waiting 0) :
    ∃ t l s', (l = .storeTid t ∨ l = .post t) ∧ Steps s l s' := by
  obtain ⟨t, r, ht, rfl, hpost⟩ := (h.object k x hx).unposted (by rw [hcall]; rfl)
  cases r with
  | storeTid k =>
    obtain ⟨l, hl⟩ := Option.isSome_iff_exists.mp (h.live t _ ht)
    exact ⟨t, _, _, Or.inl rfl, Steps.storeTid t k x l ht hx hl⟩
  | post k => exact ⟨t, _, _, Or.inr rfl, Steps.post t k x ht hx⟩
  | call k | func k => cases hpost

/-- However threads come and go, and however often the kernel gives a number out
again: once `start()` has returned, `tid()` is the number of the new thread and
what `CurrentThread::tid()` returns on it, as long as the thread lives; no two
objects whose threads live have the same `tid()`; and `start()` waits only while
the new thread has a step to take. -/
theorem thread_numbers_known (main : T) (s : ThreadTable T E K)
    (h : (system main).Reachable TransitionSystem.AnyStep s) :
    (∀ k x, s.object k = some x → x.started_ = true → x.call.inStart = false →
      ∃ d, x.thread_ = some d ∧ s.Known d.id x.tid_) ∧
    (∀ j k x y d e, s.object j = some x → s.object k = some y → x.call.inStart = false →
      y.call.inStart = false → x.thread_ = some d → y.thread_ = some e →
      (s.process.locals d.id).isSome = true → (s.process.locals e.id).isSome = true →
      x.tid_ = y.tid_ → j = k) ∧
    ∀ k x, s.object k = some x → x.call = .waiting 0 →
      ∃ t l s', (l = .storeTid t ∨ l = .post t) ∧ Steps s l s' := by
  have hinv := inv_of_reachable h
  refine ⟨?_, ?_, fun k x => hinv.waiting_step⟩
  · intro k x hx hstarted hcall
    have hspawned : x.current.isSome = true := by
      refine (hinv.object k x hx).spawned hstarted ?_
      intro hstarting
      rw [hstarting] at hcall
      cases hcall
    rw [ThreadObject.current_eq_of_inStart hcall, Option.isSome_map] at hspawned
    obtain ⟨d, hd⟩ := Option.isSome_iff_exists.mp hspawned
    exact ⟨d, hd, hinv.known hx hcall hd⟩
  · intro j k x y d e hx hy hxcall hycall hd he hdlive helive htid
    obtain ⟨l, hl⟩ := Option.isSome_iff_exists.mp hdlive
    obtain ⟨m, hm⟩ := Option.isSome_iff_exists.mp helive
    have hxtid := ((hinv.known hx hxcall hd).2 l hl).1
    have hytid := ((hinv.known hy hycall he).2 m hm).1
    have hid := hinv.process.distinct d.id e.id l m hl hm (by rw [← hxtid, ← hytid, htid])
    refine hinv.own j k x y d.id hx hy ?_ ?_
    · rw [ThreadObject.current_eq_of_inStart hxcall, hd]
      rfl
    · rw [ThreadObject.current_eq_of_inStart hycall, he, hid]
      rfl

def newTable : ThreadTable (Fin 2) ℕ ℕ :=
  ⟨⟨Function.update (fun _ => .unborn) 0 (.live (.create 10)), fun _ => none⟩, 0, fun _ => none,
    fun _ => none⟩

theorem init_newTable : (system 0).Init newTable := ⟨⟨10, by decide, rfl, rfl⟩, rfl, rfl, rfl⟩

/-- `start()` has returned. -/
theorem thread_numbers_known_started : ∃ (s : ThreadTable (Fin 2) ℕ ℕ) (x : ThreadObject (Fin 2)),
    (s.object 0 = some x ∧ x.tid_ = 11 ∧ x.call = .idle) ∧
    ∃ d, x.thread_ = some d ∧ s.Known d.id x.tid_ := by
  have h₀ : (system 0).Reachable TransitionSystem.AnyStep newTable := .init init_newTable
  have h₁ := h₀.step trivial (Steps.construct 0 [] rfl (by decide))
  have h₂ := h₁.step trivial (Steps.start 0 _ rfl rfl rfl)
  have h₃ := h₂.step trivial (Steps.spawn 0 1 11 _ _ rfl rfl
    (Process.Steps.clone 1 11 rfl (by decide) (by decide)))
  have h₄ := h₃.step trivial (Steps.storeTid 1 0 _ _ rfl rfl rfl)
  have h₅ := h₄.step trivial (Steps.post 1 0 _ rfl rfl)
  have h₆ := h₅.step trivial (Steps.assign 0 1 1 _ _ rfl rfl rfl)
  have h₇ := h₆.step trivial (Steps.started 0 _ 0 rfl rfl)
  exact ⟨_, _, ⟨rfl, rfl, rfl⟩, (thread_numbers_known 0 _ h₇).1 0 _ rfl rfl rfl⟩

end ThreadTable
end MuduoCore
