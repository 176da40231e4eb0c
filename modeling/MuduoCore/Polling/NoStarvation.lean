import MuduoCore.Polling.Polls

/-!
# The event list grows until it fits

A poll that fills `events_` may leave ready descriptors out, and doubles the
list. So a run has few such polls, the list stays within twice the number of
descriptors that are watched, and a descriptor that keeps being ready is
reported after logarithmically many polls.
-/

namespace MuduoCore.PollingLoop

variable {P : Type*} [DecidableEq P] {fd : P → ℤ} {s t : PollingLoop P}

/-- No more than `n` descriptors are watched when the loop polls. -/
def WatchesAtMost (n : ℕ) (s : PollingLoop P) : PollLabel P → Prop
  | .poll _ => ∃ fds : List ℤ, fds.length ≤ n ∧ ∀ f, (s.watched f).isSome = true → f ∈ fds
  | _ => True

theorem events_of_next {l : PollLabel P} (hl : ∀ revents, l ≠ .poll revents)
    (h : s.next l = some t) : t.events_ = s.events_ ∧ t.fullPolls = s.fullPolls := by
  cases l with
  | poll revents => exact absurd rfl (hl revents)
  | setCallback ptr cb =>
    cases h
    exact ⟨rfl, rfl⟩
  | call ptr c =>
    obtain ⟨_, _, rfl⟩ := Option.map_eq_some_iff.mp h
    exact ⟨rfl, rfl⟩
  | becomesReady f | becomesIdle f | pollError =>
    simp only [next] at h
    split_ifs at h
    cases h
    exact ⟨rfl, rfl⟩
  | handleEvent =>
    simp only [next] at h
    split at h
    · cases h
    · cases h
      exact ⟨rfl, rfl⟩

omit [DecidableEq P] in
theorem Inv.length_ready_le (h : Inv fd s) {n : ℕ} {fds : List ℤ} (hlen : fds.length ≤ n)
    (hfds : ∀ f, (s.watched f).isSome = true → f ∈ fds) : s.ready.length ≤ n := by
  have hsub : s.ready.Subperm fds :=
    h.nodup.subperm fun f hf => hfds f (h.ready f hf)
  exact hsub.length_le.trans hlen

/-- Every doubling has found as many descriptors as the list had entries. -/
theorem size_le_of_reachable (hfd : Function.Injective fd) {n : ℕ}
    (h : (system fd).Reachable (WatchesAtMost n) s) :
    Inv fd s ∧ s.events_.length ≤ max EventList.kInitEventListSize (2 * n) := by
  induction h with
  | init h =>
    subst h
    refine ⟨inv_create fd, ?_⟩
    simp [create, EventList.create]
  | @step s l t _ hgood hstep ih =>
    obtain ⟨hinv, hle⟩ := ih
    refine ⟨hinv.next hfd hstep, ?_⟩
    cases l with
    | poll revents =>
      obtain ⟨fds, hlen, hfds⟩ := hgood
      have hready := hinv.length_ready_le hlen hfds
      have hpoll : s.next (.poll revents) = some t := hstep
      simp only [next] at hpoll
      split_ifs at hpoll
      obtain ⟨reported, hp⟩ := polled_of_poll hpoll
      rw [hp.size]
      by_cases hf : s.Full
      · rw [if_pos hf]
        have htwice : s.events_.length * 2 ≤ 2 * n := by
          have hfull := hf.2
          omega
        exact htwice.trans (le_max_right _ _)
      · rwa [if_neg hf]
    | setCallback ptr cb | call ptr c | becomesReady f | becomesIdle f | pollError | handleEvent =>
      rw [(events_of_next (by simp) hstep).1]
      exact hle

/-- In a run that watches at most `n` descriptors, `events_` has doubled once
for every poll that filled it, never gets longer than 16 or twice `n` entries,
and has been filled no more often than that takes. -/
theorem event_list_bounded (fd : P → ℤ) (hfd : Function.Injective fd) (n : ℕ)
    (s : PollingLoop P) (h : (system fd).Reachable (WatchesAtMost n) s) :
    s.events_.length = 16 * 2 ^ s.fullPolls ∧ s.events_.length ≤ max 16 (2 * n) ∧
      s.fullPolls ≤ Nat.log 2 (2 * n / 16) := by
  obtain ⟨hinv, hle⟩ := size_le_of_reachable hfd h
  have hsize : s.events_.length = 16 * 2 ^ s.fullPolls := hinv.size
  refine ⟨hsize, hle, ?_⟩
  rcases Nat.eq_zero_or_pos s.fullPolls with hzero | hpos
  · omega
  · have htwo : 2 ≤ 2 ^ s.fullPolls := by
      calc 2 = 2 ^ 1 := rfl
        _ ≤ 2 ^ s.fullPolls := Nat.pow_le_pow_right (by omega) hpos
    have hfits : 16 * 2 ^ s.fullPolls ≤ 2 * n := by
      rw [hsize] at hle
      simp only [EventList.kInitEventListSize] at hle
      omega
    have hdiv : 2 ^ s.fullPolls ≤ 2 * n / 16 := by
      rw [Nat.le_div_iff_mul_le (by omega)]
      omega
    exact Nat.le_log_of_pow_le (by omega) hdiv

theorem watched_of_next (h : Inv fd s) (hfd : Function.Injective fd) {l : PollLabel P}
    (hstep : s.next l = some t) {f : ℤ} (hf : (t.watched f).isSome = true) :
    (s.watched f).isSome = true ∨ ∃ ptr c, l = .call ptr c ∧ f = fd ptr := by
  cases l with
  | call ptr c =>
    by_cases hp : f = fd ptr
    · exact .inr ⟨ptr, c, rfl, hp⟩
    · left
      obtain ⟨channels, hcall, rfl⟩ := Option.map_eq_some_iff.mp hstep
      rwa [watched, ← ((h.channels.called hfd hcall).frame f hp).2]
  | setCallback ptr cb =>
    cases hstep
    exact .inl hf
  | poll revents =>
    left
    simp only [next] at hstep
    split_ifs at hstep
    obtain ⟨reported, hp⟩ := polled_of_poll hstep
    rwa [watched, hp.channels] at hf
  | becomesReady g | becomesIdle g | pollError =>
    simp only [next] at hstep
    split_ifs at hstep
    cases hstep
    exact .inl hf
  | handleEvent =>
    simp only [next] at hstep
    split at hstep
    · cases hstep
    · cases hstep
      exact .inl hf

def seventeen : List (PollLabel ℕ) :=
  (List.range 17).flatMap fun n => [.call n (.change .enableReading), .becomesReady n]

/-- A poll finds all of them ready, and doubles the list. -/
theorem event_list_bounded_seventeen :
    ∃ s : PollingLoop ℕ, s.fullPolls = 1 ∧ s.events_.length = 16 * 2 ^ s.fullPolls ∧
      s.events_.length ≤ max 16 (2 * 17) ∧ s.fullPolls ≤ Nat.log 2 (2 * 17 / 16) := by
  let fds := (List.range 17).map fun n : ℕ => (n : ℤ)
  obtain ⟨s, hs⟩ : ∃ s, TransitionSystem.replay next (create fun n : ℕ => (n : ℤ)) seventeen =
      some s := ⟨_, rfl⟩
  obtain ⟨t, hpoll, hfull⟩ : ∃ t, s.next (.poll fun _ => EPOLLIN) = some t ∧ t.fullPolls = 1 := by
    cases hs
    exact ⟨_, rfl, by decide +kernel⟩
  obtain ⟨-, hreach, hwatched⟩ : Inv (fun n : ℕ => (n : ℤ)) s ∧
      (system fun n : ℕ => (n : ℤ)).Reachable (WatchesAtMost 17) s ∧
      ∀ f, (s.watched f).isSome = true → f ∈ fds := by
    refine TransitionSystem.replay_induction (I := fun s => Inv (fun n : ℕ => (n : ℤ)) s ∧
      (system fun n : ℕ => (n : ℤ)).Reachable (WatchesAtMost 17) s ∧
      ∀ f, (s.watched f).isSome = true → f ∈ fds) ?_ ⟨inv_create _, .init rfl, ?_⟩ hs
    · rintro s l hl s' ⟨hinv, hreach, hwatched⟩ hstep
      obtain ⟨n, hn, hl⟩ := List.mem_flatMap.mp hl
      have hgood : WatchesAtMost 17 s l := by
        rcases List.mem_pair.mp hl with rfl | rfl <;> trivial
      refine ⟨hinv.next Int.ofNat_injective hstep, .step hreach hgood hstep, fun f hf => ?_⟩
      rcases watched_of_next hinv Int.ofNat_injective hstep hf with hf | ⟨ptr, c, rfl, rfl⟩
      · exact hwatched f hf
      · simp only [List.mem_cons, PollLabel.call.injEq, List.not_mem_nil, or_false,
          reduceCtorEq] at hl
        exact List.mem_map.mpr ⟨n, hn, by rw [hl.1]⟩
    · intro f hf
      simp [watched, create, LoopChannels.create, EPollPoller.create] at hf
  have hreach' : (system fun n : ℕ => (n : ℤ)).Reachable (WatchesAtMost 17) t :=
    .step (l := PollLabel.poll fun _ => EPOLLIN) hreach ⟨fds, by simp [fds], hwatched⟩ hpoll
  exact ⟨t, hfull, event_list_bounded (fun n : ℕ => (n : ℤ)) Int.ofNat_injective 17 t hreach'⟩

/-! ## Waiting for a report -/

/-- A stretch of a run throughout which `f` is ready, and of whose polls, which
are counted, none reports it. -/
inductive Waits (fd : P → ℤ) (f : ℤ) (s : PollingLoop P) : ℕ → PollingLoop P → Prop
  | refl (hf : f ∈ s.ready) : Waits fd f s 0 s
  | poll {n : ℕ} {t u : PollingLoop P} (revents : ℤ → Events) (h : Waits fd f s n t)
      (hu : t.next (.poll revents) = some u) (hf : f ∉ u.activeChannels_.map fd) :
      Waits fd f s (n + 1) u
  | step {n : ℕ} {t u : PollingLoop P} (l : PollLabel P) (h : Waits fd f s n t)
      (hl : ∀ revents, l ≠ .poll revents) (hu : t.next l = some u) (hf : f ∈ u.ready) :
      Waits fd f s n u

theorem Inv.idxOf_next (h : Inv fd s) {l : PollLabel P} (hl : ∀ revents, l ≠ .poll revents)
    (hstep : s.next l = some t) {f : ℤ} (hs : f ∈ s.ready) (ht : f ∈ t.ready) :
    t.ready.idxOf f ≤ s.ready.idxOf f := by
  cases l with
  | poll revents => exact absurd rfl (hl revents)
  | setCallback ptr cb =>
    cases hstep
    exact le_rfl
  | call ptr c =>
    obtain ⟨_, _, rfl⟩ := Option.map_eq_some_iff.mp hstep
    exact ServiceQueue.idxOf_le_of_sublist List.filter_sublist h.nodup ht
  | becomesReady g =>
    simp only [PollingLoop.next] at hstep
    split_ifs at hstep
    cases hstep
    exact (List.idxOf_append_of_mem hs).le
  | becomesIdle g =>
    simp only [PollingLoop.next] at hstep
    split_ifs at hstep
    cases hstep
    exact ServiceQueue.idxOf_le_of_sublist List.erase_sublist h.nodup ht
  | pollError =>
    simp only [PollingLoop.next] at hstep
    split_ifs at hstep
    cases hstep
    exact le_rfl
  | handleEvent =>
    simp only [PollingLoop.next] at hstep
    split at hstep
    · cases hstep
    · cases hstep
      exact le_rfl

/-- A poll that leaves `f` out has filled its list with descriptors in front of it. -/
theorem Inv.idxOf_poll (h : Inv fd s) {revents : ℤ → Events}
    (hpoll : s.next (.poll revents) = some t) {f : ℤ} (hs : f ∈ s.ready)
    (hf : f ∉ t.activeChannels_.map fd) :
    f ∈ t.ready ∧ t.ready.idxOf f + s.events_.length = s.ready.idxOf f ∧
      t.events_.length = s.events_.length * 2 := by
  simp only [PollingLoop.next] at hpoll
  split_ifs at hpoll
  obtain ⟨reported, hp⟩ := polled_of_poll hpoll
  rw [(h.of_polled hp).1] at hf
  obtain ⟨hlt, hidx⟩ := ServiceQueue.idxOf_serve hs hf
  have hfull : s.Full := ⟨h.size_pos, hlt.le⟩
  rw [hp.ready, hp.size, if_pos hfull]
  exact ⟨ServiceQueue.mem_serve.mpr hs, hidx, rfl⟩

theorem Inv.waits (h : Inv fd s) (hfd : Function.Injective fd) {f : ℤ} {n : ℕ}
    (hw : Waits fd f s n t) :
    Inv fd t ∧ f ∈ t.ready ∧ t.events_.length = s.events_.length * 2 ^ n ∧
      t.ready.idxOf f + ServiceQueue.cleared s.events_.length n ≤ s.ready.idxOf f := by
  induction hw with
  | refl hf => exact ⟨h, hf, by simp, by simp [ServiceQueue.cleared]⟩
  | @poll n t u revents _ hu hf ih =>
    obtain ⟨hinv, hmem, hsize, hidx⟩ := ih
    obtain ⟨hmem', hidx', hsize'⟩ := hinv.idxOf_poll hu hmem hf
    refine ⟨hinv.next hfd hu, hmem', ?_, ?_⟩
    · rw [hsize', hsize, Nat.pow_succ, Nat.mul_assoc]
    · rw [ServiceQueue.cleared_succ, ← hsize]
      omega
  | @step n t u l _ hl hu hf ih =>
    obtain ⟨hinv, hmem, hsize, hidx⟩ := ih
    refine ⟨hinv.next hfd hu, hf, ?_, ?_⟩
    · rw [(events_of_next hl hu).1, hsize]
    · exact (Nat.add_le_add_right (hinv.idxOf_next hl hu hmem hf) _).trans hidx

/-- However many descriptors are ready, and whatever becomes ready or is removed
meanwhile: one that stays ready is left out by no more polls that succeed than
the logarithm of its place in the kernel's queue, counted in lengths of the event
list. -/
theorem ready_channel_reported (fd : P → ℤ) (hfd : Function.Injective fd)
    (s t : PollingLoop P) (f : ℤ) (n : ℕ)
    (h : (system fd).Reachable TransitionSystem.AnyStep s) (hw : Waits fd f s n t) :
    n ≤ Nat.log 2 (s.ready.idxOf f / s.events_.length + 1) := by
  have hinv := inv_of_reachable hfd h
  obtain ⟨_, _, _, hidx⟩ := hinv.waits hfd hw
  exact ServiceQueue.rounds_le_log hinv.size_pos (by omega)

/-- The last of seventeen ready channels waits for one poll. -/
theorem ready_channel_reported_last :
    ∃ s t : PollingLoop ℕ, Waits (fun n : ℕ => (n : ℤ)) 16 s 1 t ∧ s.ready.length = 17 ∧
      1 ≤ Nat.log 2 (s.ready.idxOf 16 / s.events_.length + 1) := by
  obtain ⟨s, hs⟩ : ∃ s, TransitionSystem.replay next (create fun n : ℕ => (n : ℤ)) seventeen =
      some s := ⟨_, rfl⟩
  have hreach : (system fun n : ℕ => (n : ℤ)).Reachable TransitionSystem.AnyStep s :=
    TransitionSystem.reachable_of_replay (fun _ _ _ h => ⟨trivial, h⟩) (.init rfl) hs
  obtain ⟨hlen, t, hpoll, hmem, hout⟩ : s.ready.length = 17 ∧ ∃ t,
      s.next (.poll fun _ => EPOLLIN) = some t ∧ (16 : ℤ) ∈ s.ready ∧
        (16 : ℤ) ∉ t.activeChannels_.map fun n : ℕ => (n : ℤ) := by
    cases hs
    exact ⟨by decide +kernel, _, rfl, by decide +kernel, by decide +kernel⟩
  have hw : Waits (fun n : ℕ => (n : ℤ)) 16 s 1 t := .poll _ (.refl hmem) hpoll hout
  exact ⟨s, t, hw, hlen, ready_channel_reported (fun n : ℕ => (n : ℤ)) Int.ofNat_injective
    s t 16 1 hreach hw⟩

end MuduoCore.PollingLoop
