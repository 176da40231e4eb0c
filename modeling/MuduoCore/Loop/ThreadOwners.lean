import MuduoCore.Loop.Threads

/-!
# The owners of threads

What the objects are called, what a thread finds of its object, and what the
calls of the owner do to the process. An object that is destroyed once its
thread has been joined outlives the lambda of `start()`; one that is started
once and joined once at most gives `std::thread` no reason to throw or to end
the process.
-/

namespace MuduoCore

theorem Thread.setDefaultName_default {num : ℕ} (hnum : num < 2 ^ 31) :
    setDefaultName [] num = "Thread".toList ++ decimal num := by
  have hlength : (decimal num).length ≤ 10 :=
    length_decimal_le (by norm_num) (hnum.trans (by norm_num))
  have hlen : ("Thread".toList ++ decimal num).length ≤ 31 := by
    rw [List.length_append]
    have hthread : "Thread".toList.length = 6 := by decide
    omega
  rw [setDefaultName, if_pos rfl, snprintf]
  exact List.take_of_length_le hlen

namespace ThreadTable

variable {T E K : Type*} [DecidableEq T] [DecidableEq E] [DecidableEq K] {main : T}
  {s s' : ThreadTable T E K} {k : K} {t : T} {x : ThreadObject T}

/-! ## The names -/

structure Named (s : ThreadTable T E K) : Prop where
  name : ∀ k x, s.object k = some x → x.name_ = Thread.setDefaultName x.given x.number
  number : ∀ k x, s.object k = some x → x.number ≤ s.numCreated_
  distinct : ∀ j k x y, s.object j = some x → s.object k = some y → x.number = y.number → j = k
  bound : s.numCreated_ < 2 ^ 31

omit [DecidableEq T] [DecidableEq E] in
theorem Named.setObject (h : Named s) {y : ThreadObject T} (hx : s.object k = some x)
    (hname : y.name_ = x.name_) (hgiven : y.given = x.given) (hnumber : y.number = x.number) :
    Named (s.setObject k y) := by
  have hold : ∀ j z, (s.setObject k y).object j = some z → ∃ z', s.object j = some z' ∧
      z.name_ = z'.name_ ∧ z.given = z'.given ∧ z.number = z'.number := by
    intro j z hz
    rw [setObject_object] at hz
    split_ifs at hz with hj
    · cases hz
      exact ⟨x, hj ▸ hx, hname, hgiven, hnumber⟩
    · exact ⟨z, hz, rfl, rfl, rfl⟩
  refine ⟨?_, ?_, ?_, h.bound⟩
  · intro j z hz
    obtain ⟨z', hz', hn, hg, hm⟩ := hold j z hz
    rw [hn, hg, hm]
    exact h.name j z' hz'
  · intro j z hz
    obtain ⟨z', hz', _, _, hm⟩ := hold j z hz
    rw [hm]
    exact h.number j z' hz'
  · intro i j w z hw hz hm
    obtain ⟨w', hw', _, _, hwm⟩ := hold i w hw
    obtain ⟨z', hz', _, _, hzm⟩ := hold j z hz
    exact h.distinct i j w' z' hw' hz' (by rw [← hwm, ← hzm, hm])

theorem Named.next (h : Named s) {l : ThreadTableLabel T E K} (hs : Steps s l s') : Named s' := by
  cases hs with
  | construct k name hk hnum =>
    have hnew : ∀ j x, s.object j = some x → x.number ≠ s.numCreated_ + 1 := by
      intro j x hx
      have hle := h.number j x hx
      omega
    refine ⟨?_, ?_, ?_, hnum⟩
    · intro j x hx
      rw [setObject_object] at hx
      split_ifs at hx with hj
      · cases hx
        rfl
      · exact h.name j x hx
    · intro j x hx
      rw [setObject_object] at hx
      split_ifs at hx with hj
      · cases hx
        exact le_rfl
      · exact (h.number j x hx).trans (Nat.le_succ _)
    · intro i j x y hx hy hm
      rw [setObject_object] at hx hy
      split_ifs at hx hy with hi hj hj
      · rw [hi, hj]
      · cases hx
        exact absurd hm.symm (hnew j y hy)
      · cases hy
        exact absurd hm (hnew i x hx)
      · exact h.distinct i j x y hx hy hm
  | spawn k t gettid x p hx hcall hp =>
    have hset := h.setObject (y := { x with call := .created t 0 }) hx rfl rfl rfl
    exact ⟨hset.name, hset.number, hset.distinct, hset.bound⟩
  | assign k t sem x y hx hcall hy =>
    obtain ⟨_, rfl⟩ := Thread.setThread_eq hy
    exact h.setObject hx rfl rfl rfl
  | storeTid t k x l ht hx hl =>
    have hset := h.setObject (y := { x with tid_ := l.tid.1 }) hx rfl rfl rfl
    exact ⟨hset.name, hset.number, hset.distinct, hset.bound⟩
  | post t k x ht hx =>
    have hset := h.setObject (y := { x with call := x.call.sem_post }) hx rfl rfl rfl
    exact ⟨hset.name, hset.number, hset.distinct, hset.bound⟩
  | start k x hx hidle halive => exact h.setObject hx rfl rfl rfl
  | started k x sem hx hcall => exact h.setObject hx rfl rfl rfl
  | join k x hx hidle halive => exact h.setObject hx rfl rfl rfl
  | joined k x y hx hcall hy hended =>
    obtain ⟨t, _, rfl⟩ := Thread.release_eq hy
    exact h.setObject hx rfl rfl rfl
  | destroy k x y hx hidle halive hy =>
    have hname : y.name_ = x.name_ := by
      rcases Thread.destructor_eq hy with ⟨_, ⟨_, _, hdetach⟩ | ⟨_, rfl⟩⟩
      · obtain ⟨t, _, rfl⟩ := Thread.release_eq hdetach
        rfl
      · rfl
    exact h.setObject hx hname rfl rfl
  | call t k ht | ret t k p ht hp | process l t p ht hr hp =>
    exact ⟨h.name, h.number, h.distinct, h.bound⟩

theorem named_of_reachable {Good : ThreadTable T E K → ThreadTableLabel T E K → Prop}
    (h : (system main).Reachable Good s) : Named s := by
  refine h.invariant (I := Named) ?_ fun _ _ _ hnamed _ hs => hnamed.next hs
  rintro s ⟨_, hnumber, hobject, _⟩
  have hnone : ∀ k, s.object k = none := fun k => by rw [hobject]
  refine ⟨?_, ?_, ?_, by rw [hnumber]; decide⟩
  · intro k x hx
    rw [hnone] at hx
    cases hx
  · intro k x hx
    rw [hnone] at hx
    cases hx
  · intro j k x y hx
    rw [hnone] at hx
    cases hx

/-- Two objects constructed without a name have different names, whatever has
become of them. -/
theorem default_names_distinct (main : T) (s : ThreadTable T E K) (j k : K) (x y : ThreadObject T)
    (h : (system main).Reachable TransitionSystem.AnyStep s) (hx : s.object j = some x)
    (hy : s.object k = some y) (hgiven : x.given = [] ∧ y.given = []) (hne : j ≠ k) :
    x.name_ ≠ y.name_ := by
  have hnamed := named_of_reachable h
  have hxnum : x.number < 2 ^ 31 := (hnamed.number j x hx).trans_lt hnamed.bound
  have hynum : y.number < 2 ^ 31 := (hnamed.number k y hy).trans_lt hnamed.bound
  rw [hnamed.name j x hx, hnamed.name k y hy, hgiven.1, hgiven.2,
    Thread.setDefaultName_default hxnum, Thread.setDefaultName_default hynum]
  intro heq
  exact hne (hnamed.distinct j k x y hx hy (decimal_injective (List.append_cancel_left heq)))

/-- Two objects, one of them gone. -/
theorem default_names_distinct_two : ∃ (s : ThreadTable (Fin 2) ℕ ℕ) (x y : ThreadObject (Fin 2)),
    (system 0).Reachable TransitionSystem.AnyStep s ∧
      (s.object 0 = some x ∧ s.object 1 = some y ∧ x.destroyed = true) ∧ x.name_ ≠ y.name_ := by
  have h₀ : (system 0).Reachable TransitionSystem.AnyStep newTable := .init init_newTable
  have h₁ := h₀.step trivial (Steps.construct 0 [] rfl (by decide))
  have h₂ := h₁.step trivial (Steps.destroy 0 _ _ rfl rfl rfl rfl)
  have h₃ := h₂.step trivial (Steps.construct 1 [] rfl (by decide))
  have hne := default_names_distinct 0 _ 0 1 _ _ h₃ rfl rfl ⟨rfl, rfl⟩ (by decide)
  exact ⟨_, _, _, h₃, ⟨rfl, rfl, rfl⟩, hne⟩

/-! ## The lambda and its object -/

/-- A thread that has been started is joined before its object is destroyed. -/
def JoinsFirst (s : ThreadTable T E K) : ThreadTableLabel T E K → Prop
  | .destroy k => ∀ x, s.object k = some x → x.started_ = true → x.joined_ = true
  | _ => True

/-- The thread is the joinable one of the object, or `start()` is about to make
it that. -/
def OnThread (x : ThreadObject T) (t : T) : Prop :=
  x.thread_ = some ⟨t, true⟩ ∨ ∃ sem, x.call = .created t sem

omit [DecidableEq T] in
theorem OnThread.thread (h : OnThread x t) (hcall : ∀ sem, x.call ≠ .created t sem) :
    x.thread_ = some ⟨t, true⟩ := by
  rcases h with hd | ⟨sem, hcreated⟩
  · exact hd
  · exact absurd hcreated (hcall sem)

omit [DecidableEq T] in
theorem OnThread.joinable (h : OnThread x t) (hcall : ∀ sem, x.call ≠ .created t sem) :
    x.joinable = true := Thread.joinable_iff.mpr ⟨t, h.thread hcall⟩

/-- A lambda is on the thread of an object that exists. -/
structure Attached (s : ThreadTable T E K) : Prop where
  routine : ∀ t r, s.routine t = some r →
    ∃ x, s.object r.object = some x ∧ x.destroyed = false ∧ OnThread x t
  busy : ∀ k x, s.object k = some x → x.call ≠ .idle → x.destroyed = false

omit [DecidableEq T] [DecidableEq E] in
theorem Attached.setObject (h : Attached s)
    (hthread : ∀ t r, s.routine t = some r → r.object = k → x.destroyed = false ∧ OnThread x t)
    (hbusy : x.call ≠ .idle → x.destroyed = false) : Attached (s.setObject k x) := by
  constructor
  · intro t r hr
    obtain ⟨z, hz, halive, ht⟩ := h.routine t r hr
    rw [setObject_object]
    split_ifs with hj
    · exact ⟨x, rfl, hthread t r hr hj⟩
    · exact ⟨z, hz, halive, ht⟩
  · intro j z hz hcall
    rw [setObject_object] at hz
    split_ifs at hz with hj
    · cases hz
      exact hbusy hcall
    · exact h.busy j z hz hcall

omit [DecidableEq T] [DecidableEq E] in
/-- A step of the owner while no thread runs the lambda. -/
theorem Attached.unattached (h : Attached s) (hnone : ∀ t r, s.routine t = some r → r.object ≠ k)
    (hbusy : x.call ≠ .idle → x.destroyed = false) : Attached (s.setObject k x) :=
  h.setObject (fun t r hr hk => absurd hk (hnone t r hr)) hbusy

omit [DecidableEq T] [DecidableEq E] in
/-- A step that leaves the thread where it is, or assigns it. -/
theorem Attached.keeps (h : Attached s) {y : ThreadObject T} (hx : s.object k = some x)
    (hthread : ∀ t, OnThread x t → OnThread y t) (hdestroyed : y.destroyed = x.destroyed)
    (hbusy : y.call ≠ .idle → x.destroyed = false) : Attached (s.setObject k y) := by
  refine h.setObject ?_ fun hcall => hdestroyed.trans (hbusy hcall)
  rintro t r hr rfl
  obtain ⟨z, hz, halive, ht⟩ := h.routine t r hr
  obtain rfl : x = z := Option.some.inj (hx.symm.trans hz)
  exact ⟨hdestroyed.trans halive, hthread t ht⟩

omit [DecidableEq E] [DecidableEq K] in
theorem Attached.setRoutine (h : Attached s) {r : Option (Routine K)}
    (hr : ∀ q, r = some q →
      ∃ x, s.object q.object = some x ∧ x.destroyed = false ∧ OnThread x t) :
    Attached (s.setRoutine t r) := by
  refine ⟨?_, h.busy⟩
  intro u q hu
  rw [setRoutine_routine] at hu
  split_ifs at hu with hut
  · rw [hut]
    exact hr q hu
  · exact h.routine u q hu

theorem Attached.next (h : Attached s) (hinv : Inv s) {l : ThreadTableLabel T E K}
    (hgood : JoinsFirst s l) (hs : Steps s l s') : Attached s' := by
  cases hs with
  | construct k name hk hnum =>
    have hset := h.unattached (k := k)
      (x := ⟨.create name (s.numCreated_ + 1), .idle, name, s.numCreated_ + 1, false⟩) ?_
      (fun _ => rfl)
    · exact ⟨hset.routine, hset.busy⟩
    · rintro t r hr rfl
      obtain ⟨x, hx, _⟩ := h.routine t r hr
      rw [hk] at hx
      cases hx
  | start k x hx hidle halive =>
    refine h.keeps hx (fun t ht => Or.inl (ht.thread ?_)) rfl fun _ => halive
    simp [hidle]
  | spawn k t gettid x p hx hcall hp =>
    have halive := h.busy k x hx (by rw [hcall]; exact nofun)
    have hobject := h.keeps (y := { x with call := .created t 0 }) hx
      (fun u hu => Or.inl (hu.thread (by simp [hcall]))) rfl fun _ => halive
    have hset := hobject.setRoutine (t := t) (r := some (.storeTid k)) ?_
    · exact ⟨hset.routine, hset.busy⟩
    · rintro q hq
      cases hq
      exact ⟨_, setObject_self .., halive, Or.inr ⟨0, rfl⟩⟩
  | assign k t sem x y hx hcall hy =>
    obtain ⟨hj, rfl⟩ := Thread.setThread_eq hy
    have halive := h.busy k x hx (by rw [hcall]; exact nofun)
    refine h.keeps hx (fun u hu => Or.inl ?_) rfl fun _ => halive
    -- the thread that is replaced is not joinable, so it runs no lambda
    rcases hu with hd | ⟨_, hcreated⟩
    · rw [Thread.joinable_iff.mpr ⟨u, hd⟩] at hj
      cases hj
    · rw [hcall, OwnerCall.created.injEq] at hcreated
      rw [hcreated.1]
  | started k x sem hx hcall =>
    refine h.keeps hx (fun t ht => Or.inl (ht.thread ?_)) rfl
      fun hidle => absurd rfl hidle
    simp [hcall]
  | storeTid t k x l ht hx hl =>
    obtain ⟨y, hy, halive, hthread⟩ := h.routine t _ ht
    obtain rfl : x = y := Option.some.inj (hx.symm.trans hy)
    have hobject := h.keeps (y := { x with tid_ := l.tid.1 }) hx (fun _ hu => hu) rfl
      fun _ => halive
    have hset := hobject.setRoutine (t := t) (r := some (.post k)) ?_
    · exact ⟨hset.routine, hset.busy⟩
    · rintro q hq
      cases hq
      exact ⟨_, setObject_self .., halive, hthread⟩
  | post t k x ht hx =>
    obtain ⟨y, hy, halive, hthread⟩ := h.routine t _ ht
    obtain rfl : x = y := Option.some.inj (hx.symm.trans hy)
    have hposted : ∀ u, OnThread x u → OnThread { x with call := x.call.sem_post } u := by
      rintro u (hd | ⟨sem, hcreated⟩)
      · exact Or.inl hd
      · exact Or.inr ⟨sem + 1, by simp [hcreated, OwnerCall.sem_post]⟩
    have hobject := h.keeps (y := { x with call := x.call.sem_post }) hx hposted rfl
      fun _ => halive
    refine hobject.setRoutine ?_
    rintro q hq
    cases hq
    exact ⟨_, setObject_self .., halive, hposted t hthread⟩
  | call t k ht =>
    refine h.setRoutine ?_
    rintro q hq
    cases hq
    exact h.routine t (.call k) ht
  | ret t k p ht hp =>
    have hset := h.setRoutine (t := t) (r := none) nofun
    exact ⟨hset.routine, hset.busy⟩
  | join k x hx hidle halive =>
    refine h.keeps hx (fun t ht => Or.inl (ht.thread ?_)) rfl fun _ => halive
    simp [hidle]
  | joined k x y hx hcall hy hended =>
    obtain ⟨u, hd, rfl⟩ := Thread.release_eq hy
    refine h.unattached ?_ fun hidle => absurd rfl hidle
    rintro t r hr rfl
    obtain ⟨z, hz, _, hthread⟩ := h.routine t r hr
    obtain rfl : x = z := Option.some.inj (hx.symm.trans hz)
    obtain ⟨l, hl⟩ := Option.isSome_iff_exists.mp (hinv.live t r hr)
    have hlive := Process.thread_of_locals hl
    rw [hended _ (hthread.thread (by simp [hcall]))] at hlive
    cases hlive
  | destroy k x y hx hidle halive hy =>
    obtain ⟨hj, ⟨hstarted, hjoined, _⟩ | ⟨_, rfl⟩⟩ := Thread.destructor_eq hy
    · rw [hgood x hx hstarted] at hjoined
      cases hjoined
    · refine h.unattached ?_ fun hbusy => absurd hidle hbusy
      rintro t r hr rfl
      obtain ⟨z, hz, _, hthread⟩ := h.routine t r hr
      obtain rfl : x = z := Option.some.inj (hx.symm.trans hz)
      rw [hthread.joinable (by simp [hidle])] at hj
      cases hj
  | process l t p ht hr hp => exact ⟨h.routine, h.busy⟩

theorem attached_of_reachable (h : (system main).Reachable JoinsFirst s) : Attached s := by
  refine h.invariant_of (J := Inv) (fun _ => inv_of_reachable) (I := Attached) ?_
    fun _ _ _ hattached hinv hgood hs => hattached.next hinv hgood hs
  rintro s ⟨_, _, hobject, hroutine⟩
  constructor
  · intro t r hr
    rw [hroutine] at hr
    cases hr
  · intro k x hx
    rw [hobject] at hx
    cases hx

/-- Where a thread that has been started is joined before its object is
destroyed: as long as a thread has the lambda to run, up to the end of `func_`,
its object exists, and `thread_` is the thread or is about to be assigned it by
`start()`. Before its post, `start()` has not got past `sem_wait`, so the
semaphore exists as well. -/
theorem threads_find_objects (main : T) (s : ThreadTable T E K)
    (h : (system main).Reachable JoinsFirst s) (t : T) (r : Routine K)
    (ht : s.routine t = some r) :
    ∃ x, s.object r.object = some x ∧ x.destroyed = false ∧
      (x.thread_ = some ⟨t, true⟩ ∨ ∃ sem, x.call = .created t sem) ∧
      (r.beforePost = true →
        x.call = .created t 0 ∨ x.thread_ = some ⟨t, true⟩ ∧ x.call = .waiting 0) := by
  obtain ⟨x, hx, halive, hthread⟩ := (attached_of_reachable h).routine t r ht
  refine ⟨x, hx, halive, hthread, fun hr => ?_⟩
  obtain ⟨hcurrent, hsem, -⟩ := (inv_of_reachable h).beforePost ht hr hx
  cases hcall : x.call with
  | created u sem =>
    rw [ThreadObject.current, hcall, Option.some.injEq] at hcurrent
    rw [hcall, OwnerCall.sem, Option.some.injEq] at hsem
    rw [hcurrent, hsem]
    exact Or.inl rfl
  | waiting sem =>
    rw [hcall, OwnerCall.sem, Option.some.injEq] at hsem
    rw [hsem]
    exact Or.inr ⟨hthread.thread (by simp [hcall]), rfl⟩
  | idle | starting | joining =>
    rw [hcall] at hsem
    cases hsem

/-- The new thread has stored its number before it is assigned to `thread_`. -/
theorem threads_find_objects_stored : ∃ s : ThreadTable (Fin 2) ℕ ℕ,
    (system 0).Reachable JoinsFirst s ∧ s.routine 1 = some (.post 0) ∧
      (∀ x, s.object 0 = some x → x.thread_ = none) ∧
      ∃ x, s.object 0 = some x ∧ x.destroyed = false ∧
        (x.thread_ = some ⟨1, true⟩ ∨ ∃ sem, x.call = .created 1 sem) ∧
        (true = true →
          x.call = .created 1 0 ∨ x.thread_ = some ⟨1, true⟩ ∧ x.call = .waiting 0) := by
  have h₀ : (system 0).Reachable JoinsFirst newTable := .init init_newTable
  have h₁ := h₀.step (by trivial) (Steps.construct 0 [] rfl (by decide))
  have h₂ := h₁.step (by trivial) (Steps.start 0 _ rfl rfl rfl)
  have h₃ := h₂.step (by trivial) (Steps.spawn 0 1 11 _ _ rfl rfl
    (Process.Steps.clone 1 11 rfl (by decide) (by decide)))
  have h₄ := h₃.step (by trivial) (Steps.storeTid 1 0 _ _ rfl rfl rfl)
  refine ⟨_, h₄, rfl, ?_, threads_find_objects 0 _ h₄ 1 (.post 0) rfl⟩
  rintro x ⟨⟩
  rfl

/-! ## The calls of the owner -/

/-- An object is started once, and joined once at most. -/
def UsedOnce (s : ThreadTable T E K) : ThreadTableLabel T E K → Prop
  | .start k => ∀ x, s.object k = some x → x.started_ = false
  | .join k => ∀ x, s.object k = some x → x.started_ = true ∧ x.joined_ = false
  | _ => True

end ThreadTable

/-- Where the owner is, and what it has of the thread. -/
def ThreadObject.InOrder {T : Type*} (x : ThreadObject T) : Prop :=
  match x.call with
  | .idle => if x.started_ then x.joinable = !x.joined_ else x.thread_ = none ∧ x.joined_ = false
  | .starting | .created _ _ => x.started_ = true ∧ x.joined_ = false ∧ x.thread_ = none
  | .waiting _ => x.started_ = true ∧ x.joined_ = false ∧ x.joinable = true
  | .joining => x.started_ = true ∧ x.joined_ = true ∧ x.joinable = true

namespace ThreadObject

variable {T : Type*} {x : ThreadObject T} {y : Thread T} {t : T}

/-- What is in order throws nothing and ends nothing. -/
theorem InOrder.succeeds (h : x.InOrder) :
    (x.call = .starting → ∀ t, (x.setThread t).isSome = true) ∧
    (∀ t sem, x.call = .created t sem → (x.setThread t).isSome = true) ∧
    (x.call = .joining → x.release.isSome = true) ∧
    (x.call = .idle → x.destructor.isSome = true) := by
  refine ⟨?_, ?_, ?_, ?_⟩
  · intro hcall t
    rw [InOrder, hcall] at h
    simp [Thread.setThread, Thread.joinable, h.2.2]
  · intro t sem hcall
    rw [InOrder, hcall] at h
    simp [Thread.setThread, Thread.joinable, h.2.2]
  · intro hcall
    rw [InOrder, hcall] at h
    simp [Thread.release, h.2.2]
  · intro hcall
    rw [InOrder, hcall] at h
    cases hstarted : x.started_ with
    | false => simp_all [Thread.destructor, Thread.joinable]
    | true =>
      cases hjoined : x.joined_ with
      | false =>
        have hj : x.joinable = true := by simpa [hstarted, hjoined] using h
        obtain ⟨t, hd⟩ := Thread.joinable_iff.mp hj
        simp [Thread.destructor, Thread.release, Thread.joinable, hstarted, hjoined, hd]
      | true =>
        have hj : x.joinable = false := by simpa [hstarted, hjoined] using h
        simp [Thread.destructor, hstarted, hjoined, hj]

end ThreadObject

namespace ThreadTable

variable {T E K : Type*} [DecidableEq T] [DecidableEq E] [DecidableEq K] {main : T}
  {s s' : ThreadTable T E K} {k : K} {t : T} {x : ThreadObject T}

def InOrder (s : ThreadTable T E K) : Prop :=
  ∀ k x, s.object k = some x → x.destroyed = false → x.InOrder

omit [DecidableEq T] [DecidableEq E] in
theorem InOrder.setObject (h : InOrder s) (hx : x.destroyed = false → x.InOrder) :
    InOrder (s.setObject k x) := by
  intro j y hy
  rw [setObject_object] at hy
  split_ifs at hy with hj
  · cases hy
    exact hx
  · exact h j y hy

theorem InOrder.next (h : InOrder s) {l : ThreadTableLabel T E K} (hgood : UsedOnce s l)
    (hs : Steps s l s') : InOrder s' := by
  cases hs with
  | construct k name hk hnum =>
    exact h.setObject (k := k)
      (x := ⟨.create name (s.numCreated_ + 1), .idle, name, s.numCreated_ + 1, false⟩)
      fun _ => ⟨rfl, rfl⟩
  | start k x hx hidle halive =>
    have hx' := h k x hx halive
    have hnot : x.started_ = false := hgood x hx
    refine h.setObject fun _ => ?_
    simp only [ThreadObject.InOrder, hidle, hnot, Bool.false_eq_true, if_false] at hx'
    exact ⟨rfl, hx'.2, hx'.1⟩
  | spawn k t gettid x p hx hcall hp =>
    refine InOrder.setObject (k := k) (x := { x with call := .created t 0 }) h fun halive => ?_
    have hx' := h k x hx halive
    rwa [ThreadObject.InOrder, hcall] at hx'
  | assign k t sem x y hx hcall hy =>
    obtain ⟨_, rfl⟩ := Thread.setThread_eq hy
    refine h.setObject fun halive => ?_
    have hx' := h k x hx halive
    rw [ThreadObject.InOrder, hcall] at hx'
    exact ⟨hx'.1, hx'.2.1, rfl⟩
  | started k x sem hx hcall =>
    refine h.setObject fun halive => ?_
    have hx' := h k x hx halive
    rw [ThreadObject.InOrder, hcall] at hx'
    simp [ThreadObject.InOrder, hx'.1, hx'.2.1, hx'.2.2]
  | storeTid t k x l ht hx hl =>
    exact InOrder.setObject (k := k) (x := { x with tid_ := l.tid.1 }) h (h k x hx)
  | post t k x ht hx =>
    refine InOrder.setObject (k := k) (x := { x with call := x.call.sem_post }) h fun halive => ?_
    have hx' := h k x hx halive
    rw [ThreadObject.InOrder] at hx' ⊢
    cases hcall : x.call <;> rw [hcall] at hx' <;> exact hx'
  | join k x hx hidle halive =>
    have hx' := h k x hx halive
    obtain ⟨hstarted, hjoined⟩ := hgood x hx
    refine h.setObject fun _ => ?_
    simp only [ThreadObject.InOrder, hidle, hstarted, if_true, hjoined] at hx'
    exact ⟨hstarted, rfl, hx'⟩
  | joined k x y hx hcall hy hended =>
    obtain ⟨t, _, rfl⟩ := Thread.release_eq hy
    refine h.setObject fun halive => ?_
    have hx' := h k x hx halive
    rw [ThreadObject.InOrder, hcall] at hx'
    simp [ThreadObject.InOrder, hx'.1, hx'.2.1, Thread.joinable]
  | destroy k x y hx hidle halive hy =>
    refine h.setObject fun hd => ?_
    cases hd
  | call t k ht | ret t k p ht hp | process l t p ht hr hp => exact h

/-- Where an object is started once, and joined once at most: whatever else
happens, no call of its owner makes `std::thread` throw or end the process, from
`start()` to the destructor. -/
theorem owner_calls_succeed (main : T) (s : ThreadTable T E K)
    (h : (system main).Reachable UsedOnce s) (k : K) (x : ThreadObject T)
    (hx : s.object k = some x) (halive : x.destroyed = false) :
    (x.call = .starting → ∀ t, (x.setThread t).isSome = true) ∧
    (∀ t sem, x.call = .created t sem → (x.setThread t).isSome = true) ∧
    (x.call = .joining → x.release.isSome = true) ∧
    (x.call = .idle → x.destructor.isSome = true) := by
  have horder : InOrder s := by
    refine h.invariant (I := InOrder) ?_ fun _ _ _ horder hgood hs => horder.next hgood hs
    rintro s ⟨_, _, hobject, _⟩ j y hy
    rw [hobject] at hy
    cases hy
  exact (horder k x hx halive).succeeds

/-- The owner has made the new thread, and is about to assign it. -/
theorem owner_calls_succeed_created : ∃ (s : ThreadTable (Fin 2) ℕ ℕ) (x : ThreadObject (Fin 2)),
    (system 0).Reachable UsedOnce s ∧ (s.object 0 = some x ∧ x.call = .created 1 0) ∧
      (x.setThread 1).isSome = true := by
  have h₀ : (system 0).Reachable UsedOnce newTable := .init init_newTable
  have h₁ := h₀.step (by trivial) (Steps.construct 0 [] rfl (by decide))
  have h₂ := h₁.step (by rintro x ⟨⟩; rfl) (Steps.start 0 _ rfl rfl rfl)
  have h₃ := h₂.step (by trivial) (Steps.spawn 0 1 11 _ _ rfl rfl
    (Process.Steps.clone 1 11 rfl (by decide) (by decide)))
  have hsucceeds := (owner_calls_succeed 0 _ h₃ 0 _ rfl rfl).2.1 1 0 rfl
  exact ⟨_, _, h₃, ⟨rfl, rfl⟩, hsucceeds⟩

end ThreadTable
end MuduoCore
