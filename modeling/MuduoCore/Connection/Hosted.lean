import MuduoCore.Connection.Placement

/-!
# A connection among others

What one connection sees of a server: its own steps, and steps of the rest of
the program, which come between them on every thread. The rest is seen as
functors that have nothing to do with the connection. It may call the
connection where code of the user runs, and destroy it together with the
server; otherwise it leaves the connection's instructions where they are.
-/

namespace MuduoCore

/-- An instruction of the rest of the program. -/
def Instr.foreign {T : Type*} : Instr T → Bool
  | call .other | queueInLoop _ .other | wakeup _ => true
  | _ => false

inductive HostLabel (T : Type*)
  /-- the connection takes a step -/
  | own (l : RunLabel T)
  | call (t : T) (c : UserCall T)
  /-- the rest of the program takes a step -/
  | other
  /-- the destructor of the server takes the connection out of `connections_` -/
  | destroy
  deriving DecidableEq, Repr

namespace ConnectionRun

variable {T : Type*} [DecidableEq T]

/-- Code of the user, or of the rest of the program, is next on thread `t`. -/
def CodeRuns (s : ConnectionRun T) (t : T) : Prop :=
  s.stack t = [] ∨ (s.stack t).head? = some .user ∨ (s.stack t).head? = some (.call .other)

inductive HostSteps (io main : T) (s : ConnectionRun T) : HostLabel T → ConnectionRun T → Prop
  | own (l : RunLabel T) (s' : ConnectionRun T) (hl : ∀ t c, l ≠ .call t c)
      (hs : Steps io main s l s') : HostSteps io main s (.own l) s'
  | call (t : T) (c : UserCall T) (hu : s.CodeRuns t) (hc : s.callbacks ≠ []) :
      HostSteps io main s (.call t c) (s.setStack t (s.code t c ++ s.stack t))
  | other (t : T) (old new rest : List (Instr T)) (loops : T → EventLoop (Functor (Payload T)))
      (hs : s.stack t = old ++ rest) (hold : ∀ i ∈ old, i.foreign = true)
      (hidle : old = [] → s.CodeRuns t) (hnew : ∀ i ∈ new, i.foreign = true)
      (hloops : ∀ u, loops u = s.loops u ∨ loops u = (s.loops u).setQuit) :
      HostSteps io main s .other { s.setStack t (new ++ rest) with loops := loops }
  | queue (t loop : T) (new rest : List (Instr T))
      (hs : s.stack t = .queueInLoop loop .other :: rest) (hnew : ∀ i ∈ new, i.foreign = true) :
      HostSteps io main s .other ((s.setLoop loop ((s.loops loop).push .other)).setStack t
        (.wakeup loop :: new ++ rest))
  | store (t : T) (address : ℕ) (value : Byte) (hu : s.CodeRuns t) :
      HostSteps io main s .other { s with memory := Function.update s.memory address value }
  | destroy (rest : List (Instr T)) (hs : s.stack main = .call .other :: rest) :
      HostSteps io main s .destroy { s.setStack main
        (.runInLoop io .connectDestroyed :: .release :: .call .other :: rest) with
        inConnections := false }

/-- `newConnection` is about to hand `connectEstablished` to the loop `io`, and
nothing else is of this connection. -/
structure HostInit (io main : T) (s : ConnectionRun T) : Prop where
  conn : s.conn.New
  inConnections : s.inConnections = true
  closing : s.closing = false
  callbacks : s.callbacks = []
  closeCallbacks : s.closeCallbacks = 0
  active : s.active = false
  mainStack : ∃ rest, s.stack main = .runInLoop io .connectEstablished :: .release :: rest ∧
    ∀ i ∈ rest, i.foreign = true
  otherStacks : ∀ t ≠ main, ∀ i ∈ s.stack t, i.foreign = true
  held : ∀ t, ∀ f ∈ (s.loops t).held, f = .other

theorem HostInit.mem_work {io main : T} {s : ConnectionRun T} (h : HostInit io main s) {t : T}
    {i : Instr T} (hi : i ∈ s.work t) :
    (t = main ∧ i = .runInLoop io .connectEstablished) ∨ i = .release ∨ i.foreign = true := by
  rcases List.mem_append.mp hi with hi | hi
  · by_cases ht : t = main
    · subst ht
      obtain ⟨rest, hs, hrest⟩ := h.mainStack
      rw [hs] at hi
      simp only [List.mem_cons] at hi
      rcases hi with rfl | rfl | hi
      · exact Or.inl ⟨rfl, rfl⟩
      · exact Or.inr (Or.inl rfl)
      · exact Or.inr (Or.inr (hrest i hi))
    · exact Or.inr (Or.inr (h.otherStacks t ht i hi))
  · obtain ⟨f, hf, rfl⟩ := List.mem_map.mp hi
    rw [h.held t f (EventLoop.mem_held_of_mem_queued hf)]
    exact Or.inr (Or.inr rfl)

def hosted (io main : T) : TransitionSystem (ConnectionRun T) (HostLabel T) where
  Init := HostInit io main
  Step := HostSteps io main

/-! ## What the rest of the program changes -/

/-- The rest of the program replaces instructions of its own, and queues
functors of its own. -/
structure Interleaves (s s' : ConnectionRun T) (t : T) (old new : List (Instr T)) : Prop where
  foreign : ∀ i ∈ old, i.foreign = true
  idle : old = [] → s.CodeRuns t
  stack : ∃ rest, s.stack t = old ++ rest ∧ s'.stack = Function.update s.stack t (new ++ rest)
  conn : s'.conn = s.conn
  inConnections : s'.inConnections = s.inConnections
  closing : s'.closing = s.closing
  callbacks : s'.callbacks = s.callbacks
  active : s'.active = s.active
  phase : ∀ u, (s'.loops u).phase = (s.loops u).phase
  pending : ∀ u, (s'.loops u).pendingFunctors_ = (s.loops u).pendingFunctors_ ∨
    (s'.loops u).pendingFunctors_ = (s.loops u).pendingFunctors_ ++ [.other]

variable {io main : T} {s s' : ConnectionRun T}

/-- A step is one of the connection, one of the rest, or its destruction. -/
theorem HostSteps.split {hl : HostLabel T} (h : HostSteps io main s hl s') :
    (∃ l, hl = .own l ∧ (∀ t c, l ≠ .call t c) ∧ Steps io main s l s') ∨
    ((hl ≠ .destroy ∧ ∀ l, hl ≠ .own l) ∧ ∃ t old new, Interleaves s s' t old new ∧
      ((∀ i ∈ new, i.foreign = true) ∨
        ∃ c, hl = .call t c ∧ s.callbacks ≠ [] ∧ new = s.code t c)) ∨
    (hl = .destroy ∧ ∃ rest, s.stack main = .call .other :: rest ∧ s' = { s.setStack main
      (.runInLoop io .connectDestroyed :: .release :: .call .other :: rest) with
      inConnections := false }) := by
  cases h with
  | own l s' hl hs => exact Or.inl ⟨l, rfl, hl, hs⟩
  | call t c hu hc =>
    refine Or.inr (Or.inl ⟨by simp, t, [], s.code t c, ?_, Or.inr ⟨c, rfl, hc, rfl⟩⟩)
    exact ⟨by simp, fun _ => hu, ⟨s.stack t, rfl, rfl⟩, rfl, rfl, rfl, rfl, rfl, fun _ => rfl,
      fun _ => Or.inl rfl⟩
  | other t old new rest loops hs hold hidle hnew hloops =>
    refine Or.inr (Or.inl ⟨by simp, t, old, new, ?_, Or.inl hnew⟩)
    refine ⟨hold, hidle, ⟨rest, hs, rfl⟩, rfl, rfl, rfl, rfl, rfl, ?_, ?_⟩
    · intro u
      rcases hloops u with hu | hu <;> simp [hu]
    · intro u
      rcases hloops u with hu | hu <;> simp [hu]
  | queue t loop new rest hs hnew =>
    refine Or.inr (Or.inl ⟨by simp, t, [.queueInLoop loop .other], .wakeup loop :: new, ?_,
      Or.inl ?_⟩)
    · refine ⟨?_, by simp, ⟨rest, hs, rfl⟩, rfl, rfl, rfl, rfl, rfl, ?_, ?_⟩
      · intro i hi
        rw [List.mem_singleton.mp hi]
        rfl
      · intro u
        exact loops_update EventLoop.phase (EventLoop.push_phase _ _) u
      · intro u
        by_cases hu : u = loop
        · subst hu
          right
          simp
        · left
          simp [Function.update_of_ne hu]
    · intro i hi
      rcases List.mem_cons.mp hi with rfl | hi
      · rfl
      · exact hnew i hi
  | store t address value hu =>
    refine Or.inr (Or.inl ⟨by simp, t, [], [], ?_, Or.inl (by simp)⟩)
    exact ⟨by simp, fun _ => hu, ⟨s.stack t, rfl, by simp⟩, rfl, rfl, rfl, rfl, rfl,
      fun _ => rfl, fun _ => Or.inl rfl⟩
  | destroy rest hs => exact Or.inr (Or.inr ⟨rfl, rest, hs, rfl⟩)

theorem Interleaves.queued {t : T} {old new : List (Instr T)} (h : Interleaves s s' t old new)
    (u : T) : (s'.loops u).queued = (s.loops u).queued ∨
      (s'.loops u).queued = (s.loops u).queued ++ [.other] := by
  rcases h.pending u with hp | hp
  · left
    rw [EventLoop.queued, hp, h.phase u]
    rfl
  · right
    rw [EventLoop.queued, hp, h.phase u, ← List.append_assoc]
    rfl

/-- The rest replaces what is first in the work of a thread, and may queue a
functor of its own at the end. -/
theorem Interleaves.work {t : T} {old new : List (Instr T)} (h : Interleaves s s' t old new) :
    ∃ w, s.work t = old ++ w ∧ ∀ u, ∃ extra, (extra = [] ∨ extra = [.call .other]) ∧
      s'.work u = (if u = t then new ++ w else s.work u) ++ extra := by
  obtain ⟨rest, hs, hs'⟩ := h.stack
  refine ⟨rest ++ calls (s.loops t).queued, by simp [ConnectionRun.work, hs], ?_⟩
  intro u
  have hqueued : ∃ extra, (extra = [] ∨ extra = [Instr.call .other]) ∧
      calls (s'.loops u).queued = calls (s.loops u).queued ++ extra := by
    rcases h.queued u with hq | hq
    · exact ⟨[], Or.inl rfl, by rw [hq, List.append_nil]⟩
    · exact ⟨_, Or.inr rfl, by simp [hq, calls]⟩
  obtain ⟨extra, hextra, hq⟩ := hqueued
  refine ⟨extra, hextra, ?_⟩
  by_cases hu : u = t
  · subst hu
    simp [ConnectionRun.work, hs', hq]
  · simp [ConnectionRun.work, hs', hq, hu]

theorem Interleaves.forall_mem {P : T → Instr T → Prop} {t : T} {old new : List (Instr T)}
    (h : Interleaves s s' t old new) (hall : ∀ u, ∀ i ∈ s.work u, P u i)
    (hnew : ∀ i ∈ new, P t i) (hother : ∀ u, P u (.call .other)) :
    ∀ u, ∀ i ∈ s'.work u, P u i := by
  obtain ⟨w, hold, hwork⟩ := h.work
  intro u i hi
  obtain ⟨extra, hextra, hu⟩ := hwork u
  rw [hu, List.mem_append] at hi
  rcases hi with hi | hi
  · by_cases hut : u = t
    · subst hut
      rw [if_pos rfl, List.mem_append] at hi
      rcases hi with hi | hi
      · exact hnew i hi
      · exact hall u i (by simp [hold, hi])
    · rw [if_neg hut] at hi
      exact hall u i hi
  · rcases hextra with rfl | rfl
    · cases hi
    · rw [List.mem_singleton.mp hi]
      exact hother u

theorem replaces_destroy {rest : List (Instr T)} (hs : s.stack main = .call .other :: rest) :
    Replaces s { s.setStack main
      (.runInLoop io .connectDestroyed :: .release :: .call .other :: rest) with
      inConnections := false } main [.call .other]
      [.runInLoop io .connectDestroyed, .release, .call .other] := by
  have h : Replaces s _ main [.call .other]
      [.runInLoop io .connectDestroyed, .release, .call .other] :=
    replaces_run (c := { s.toShared with inConnections := false }) hs
  exact h

theorem HostSteps.forall_work {P : T → Instr T → Prop} {hl : HostLabel T}
    (h : HostSteps io main s hl s') (hall : ∀ u, ∀ i ∈ s.work u, P u i)
    (hrun : ∀ t o i new, (s.stack t).head? = some i → P t i →
      s.toShared.run io main t i o = some (s'.toShared, new) → new <+: s'.stack t →
      ∀ j ∈ new, P t j)
    (hforeign : ∀ t i, i.foreign = true → P t i) (hrelease : ∀ t, P t .release)
    (hqueue : ∀ t loop cb, P t (.queueInLoop loop cb) → P loop (.call cb))
    (hevent : s.active = true → ∀ cb, P io (.handle cb))
    (hcall : ∀ t c, hl = .call t c → s.callbacks ≠ [] → ∀ i ∈ s.code t c, P t i)
    (hdestroy : hl = .destroy → P main (.runInLoop io .connectDestroyed)) :
    ∀ u, ∀ i ∈ s'.work u, P u i := by
  rcases h.split with ⟨l, rfl, hl, hs⟩ | ⟨-, t, old, new, hi, hnew⟩ | ⟨rfl, rest, hs, rfl⟩
  · refine hs.forall_work hall hrun (fun t loop => hforeign t _ rfl) hrelease hqueue hevent ?_
    intro t c h
    exact absurd h (hl t c)
  · refine hi.forall_mem hall ?_ fun u => hforeign u _ rfl
    rcases hnew with hnew | ⟨c, rfl, hc, rfl⟩
    · exact fun i hi => hforeign t i (hnew i hi)
    · exact hcall t c rfl hc
  · refine (replaces_destroy hs).forall_mem hall ?_
    intro _ i hi
    simp only [List.mem_cons, List.not_mem_nil, or_false] at hi
    rcases hi with rfl | rfl | rfl
    · exact hdestroy rfl
    · exact hrelease main
    · exact hforeign main _ rfl

/-! ## What a step leaves where it is -/

omit [DecidableEq T] in
theorem Replaces.mem_kept {t u : T} {i : Instr T} {old new : List (Instr T)}
    (h : Replaces s s' u old new) (hi : i ∈ s.work t) : i ∈ s'.work t ∨ t = u ∧ i ∈ old := by
  obtain ⟨w, hold, hwork, hsame⟩ := h
  by_cases ht : t = u
  · subst ht
    rw [hold, List.mem_append] at hi
    rcases hi with hi | hi
    · exact Or.inr ⟨rfl, hi⟩
    · exact Or.inl (by simp [hwork, hi])
  · exact Or.inl (by rwa [hsame t ht])

theorem mem_work_step {l : RunLabel T} {t : T} {i : Instr T} (hs : Steps io main s l s')
    (hi : i ∈ s.work t) : i ∈ s'.work t ∨ ∃ o, l = .exec t o ∧ (s.stack t).head? = some i := by
  cases hs with
  | run u o j rest c new hs hr =>
    rcases (replaces_run hs).mem_kept hi with hi | ⟨rfl, hi⟩
    · exact Or.inl hi
    · rw [List.mem_singleton.mp hi]
      exact Or.inr ⟨o, rfl, by simp [hs]⟩
  | queue u o loop cb rest hs =>
    obtain ⟨w, hold, hwork⟩ := queues_queue hs
    rw [hwork t]
    by_cases ht : t = u
    · subst ht
      rw [hold] at hi
      rcases List.mem_cons.mp hi with rfl | hi
      · exact Or.inr ⟨o, rfl, by simp [hs]⟩
      · exact Or.inl (by simp [hi])
    · exact Or.inl (by simp [ht, hi])
  | wakeup u o loop rest hs =>
    rcases (replaces_wakeup hs).mem_kept hi with hi | ⟨rfl, hi⟩
    · exact Or.inl hi
    · rw [List.mem_singleton.mp hi]
      exact Or.inr ⟨o, rfl, by simp [hs]⟩
  | control u c loop hs hact ha => exact Or.inl (by rwa [work_control hs ha])
  | report wakeup revents mask loop hs hm hr ha => exact Or.inl (by rwa [work_report ha])
  | handleEvent hs hact =>
    rcases (replaces_handleEvent hs).mem_kept hi with hi | ⟨-, hi⟩
    · exact Or.inl hi
    · cases hi
  | call u c hu =>
    rcases (replaces_push s u (s.code u c) s.active).mem_kept hi with hi | ⟨-, hi⟩
    · exact Or.inl hi
    · cases hi
  | store u address value hu => exact Or.inl hi

theorem Interleaves.mem_kept {t u : T} {i : Instr T} {old new : List (Instr T)}
    (h : Interleaves s s' u old new) (hf : i.foreign = false) (hi : i ∈ s.work t) :
    i ∈ s'.work t := by
  obtain ⟨w, hold, hwork⟩ := h.work
  obtain ⟨extra, -, ht⟩ := hwork t
  rw [ht]
  by_cases htu : t = u
  · subst htu
    rw [hold, List.mem_append] at hi
    rcases hi with hi | hi
    · rw [h.foreign i hi] at hf
      cases hf
    · simp [hi]
  · simp [htu, hi]

theorem mem_work_host {hl : HostLabel T} {t : T} {i : Instr T} (hs : HostSteps io main s hl s')
    (hf : i.foreign = false) (hi : i ∈ s.work t) :
    i ∈ s'.work t ∨ ∃ o, hl = .own (.exec t o) ∧ (s.stack t).head? = some i := by
  rcases hs.split with ⟨l, rfl, -, hown⟩ | ⟨-, u, old, new, hinter, -⟩ | ⟨rfl, rest, htop, rfl⟩
  · rcases mem_work_step hown hi with hi | ⟨o, rfl, hhead⟩
    · exact Or.inl hi
    · exact Or.inr ⟨o, rfl, hhead⟩
  · exact Or.inl (hinter.mem_kept hf hi)
  · left
    rcases (replaces_destroy htop).mem_kept hi with hi | ⟨-, hi⟩
    · exact hi
    · rw [List.mem_singleton.mp hi] at hf
      cases hf

theorem Interleaves.stack_of_busy {t u : T} {i : Instr T} {old new rest : List (Instr T)}
    (h : Interleaves s s' u old new) (hs : s.stack t = i :: rest) (hf : i.foreign = false)
    (hi : i ≠ .user) : s'.stack t = s.stack t := by
  obtain ⟨r, hold, hs'⟩ := h.stack
  have htu : t ≠ u := by
    rintro rfl
    cases old with
    | nil =>
      rcases h.idle rfl with hidle | hidle | hidle <;> rw [hs] at hidle
      · cases hidle
      · exact hi (Option.some.inj hidle)
      · rw [Option.some.inj hidle] at hf
        cases hf
    | cons j old =>
      rw [hs] at hold
      obtain ⟨rfl, -⟩ := List.cons.inj hold
      rw [h.foreign i (List.mem_cons_self ..)] at hf
      cases hf
  rw [hs', Function.update_of_ne htu]

theorem HostSteps.stack_of_busy {hl : HostLabel T} {t : T} {i : Instr T} {rest : List (Instr T)}
    (h : HostSteps io main s hl s') (hs : s.stack t = i :: rest) (hf : i.foreign = false)
    (hi : i ≠ .user) (hexec : ∀ o, hl ≠ .own (.exec t o)) : s'.stack t = s.stack t := by
  rcases h.split with ⟨l, rfl, -, hown⟩ | ⟨-, u, old, new, hinter, -⟩ | ⟨rfl, r, htop, rfl⟩
  · exact ConnectionRun.stack_of_busy hs hi (fun o hl => hexec o (hl ▸ rfl)) hown
  · exact hinter.stack_of_busy hs hf hi
  · have ht : t ≠ main := by
      rintro rfl
      rw [hs] at htop
      obtain ⟨rfl, -⟩ := List.cons.inj htop
      cases hf
    simp [Function.update_of_ne ht]

theorem HostSteps.mem_queued {hl : HostLabel T} {t : T} {f : Functor (Payload T)}
    (hs : HostSteps io main s hl s') (hf : f ∈ (s'.loops t).queued) :
    f ∈ (s.loops t).queued ∨ f = .other ∨ ∃ u rest, s.stack u = .queueInLoop t f :: rest := by
  have hadvance : ∀ {u c loop}, (s.loops u).Advances c loop →
      f ∈ (Function.update s.loops u loop t).queued → f ∈ (s.loops t).queued := by
    intro u c loop ha hf
    by_cases htu : t = u
    · subst htu
      rw [Function.update_self] at hf
      exact ha.mem_queued hf
    · rwa [Function.update_of_ne htu] at hf
  rcases hs.split with ⟨l, rfl, -, hown⟩ | ⟨-, u, old, new, hinter, -⟩ | ⟨rfl, rest, htop, rfl⟩
  · cases hown with
    | queue u o loop cb rest htop =>
      simp only [setStack_loops, setLoop_loops, queued_push, List.mem_append] at hf
      rcases hf with hf | hf
      · exact Or.inl hf
      · split_ifs at hf with htl
        · rw [List.mem_singleton.mp hf, htl]
          exact Or.inr (Or.inr ⟨u, rest, htop⟩)
        · cases hf
    | wakeup u o loop rest hs =>
      have hq : ((s.loops loop).wakeupAfterPush (u = loop)).queued = (s.loops loop).queued := by
        simp [EventLoop.queued]
      left
      simpa [loops_update EventLoop.queued hq] using hf
    | control u c loop hs hact ha => exact Or.inl (hadvance ha hf)
    | report wakeup revents mask loop hs hm hr ha => exact Or.inl (hadvance ha hf)
    | _ => exact Or.inl hf
  · rcases hinter.queued t with hq | hq
    · exact Or.inl (hq ▸ hf)
    · rw [hq, List.mem_append, List.mem_singleton] at hf
      rcases hf with hf | hf
      · exact Or.inl hf
      · exact Or.inr (Or.inl hf)
  · exact Or.inl hf

/-! ## Where instructions run -/

omit [DecidableEq T] in
theorem placedOn_of_foreign {t : T} {i : Instr T} (h : i.foreign = true) :
    i.PlacedOn io main t := by
  cases i with
  | call f | queueInLoop loop f =>
    cases f <;> simp_all [Instr.foreign, Instr.PlacedOn, Functor.RunsOn, Functor.BoundBy,
      Functor.raw, Functor.bound]
  | wakeup loop => trivial
  | _ => cases h

theorem placed_hostInit (h : HostInit io main s) : Placed io main s := by
  intro t i hi
  rcases h.mem_work hi with ⟨-, rfl⟩ | rfl | hi
  · exact ⟨rfl, by simp [Functor.BoundBy]⟩
  · trivial
  · exact placedOn_of_foreign hi

theorem placed_host {hl : HostLabel T} (h : Placed io main s) (hs : HostSteps io main s hl s') :
    Placed io main s' := by
  refine hs.forall_work h ?_ (fun _ _ => placedOn_of_foreign) (fun _ => trivial) ?_
    (fun _ _ => rfl) ?_ ?_
  · intro t o i new _ hi hr _ j hj
    exact placedOn_follows hi (Shared.follows_of_run hr hj)
  · intro t loop cb hq
    exact hq.1
  · intro t c _ _ i hi
    exact placedOn_code s hi
  · intro _
    exact ⟨rfl, by simp [Functor.BoundBy]⟩

end ConnectionRun
end MuduoCore
