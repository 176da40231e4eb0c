import MuduoCore.Connection.Placement

/-!
# The order of the functors of one thread

`send` and `shutdown` hand functors with the raw `this` to the loop: from the
caller's stack, through the queue if the caller is another thread, to the stack
of the loop's thread. Seen through a mark on functors that only one thread
issues, this passage is a queue: what the thread issues enters at the end, and
what runs leaves at the front.
-/

namespace MuduoCore

def Instr.functor {T : Type*} : Instr T → Option (Functor (Payload T))
  | runInLoop _ f | queueInLoop _ f | call f => some f
  | _ => none

/-- The functor that a call of the user issues, once `state_` has been tested. -/
def Instr.issues {T : Type*} : Instr T → Option (Functor (Payload T))
  | send p => some (.sendInLoop p)
  | shutdown => some .shutdownInLoop
  | _ => none

def Instr.carries {T : Type*} : Instr T → Option (Functor (Payload T))
  | send p => some (.sendInLoop p)
  | shutdown => some .shutdownInLoop
  | runInLoop _ f | queueInLoop _ f => some f
  | _ => none

section Marks

variable {T α : Type*} (mark : Functor (Payload T) → Option α)

def Instr.marked (i : Instr T) : Option α := i.functor.bind mark

/-- The mark that the instruction adds to those on their way. -/
def Instr.entering (s : Shared T) (i : Instr T) : Option α :=
  if s.conn.connected then i.issues.bind mark else none

/-- The mark of the functor that the instruction runs. -/
def Instr.leaving : Instr T → Option α
  | call f => mark f
  | _ => none

def marks (is : List (Instr T)) : List α := is.filterMap (Instr.marked mark)

variable {mark} {is js : List (Instr T)}

@[simp] theorem marks_nil : marks mark ([] : List (Instr T)) = [] := rfl

@[simp] theorem marks_append : marks mark (is ++ js) = marks mark is ++ marks mark js :=
  List.filterMap_append

@[simp] theorem marks_cons (i : Instr T) :
    marks mark (i :: is) = (i.marked mark).toList ++ marks mark is := by
  cases h : i.marked mark <;> simp [marks, h]

theorem marks_eq_nil : marks mark is = [] ↔ ∀ i ∈ is, i.marked mark = none :=
  List.filterMap_eq_nil_iff

theorem marks_tail (h : marks mark is = []) : marks mark is.tail = [] := by
  rw [marks_eq_nil] at h ⊢
  intro j hj
  exact h j (List.mem_of_mem_tail hj)

theorem marks_handlers (cbs : List EventCallback) :
    marks mark (cbs.map Instr.handle ++ [Instr.release (T := T)]) = [] := by
  rw [marks_eq_nil]
  intro j hj
  rcases List.mem_append.mp hj with hj | hj
  · obtain ⟨cb, _, rfl⟩ := List.mem_map.mp hj
    rfl
  · rw [List.mem_singleton.mp hj]
    rfl

theorem marks_destructor (f : Functor (Payload T)) :
    marks mark (f.destructor : List (Instr T)) = [] := by
  unfold Functor.destructor
  split_ifs <;> rfl

theorem unmarked_of_not_raw (hraw : ∀ f, mark f ≠ none → f.raw = true)
    {f : Functor (Payload T)} (h : f.raw = false) : mark f = none := by
  by_contra hmark
  rw [hraw f hmark] at h
  cases h

theorem marks_code (hraw : ∀ f, mark f ≠ none → f.raw = true) (s : ConnectionRun T) (t : T)
    (c : UserCall T) : marks mark (s.code t c) = [] := by
  cases c with
  | queueInLoop loop =>
    have hother : mark .other = none := unmarked_of_not_raw hraw rfl
    simp [ConnectionRun.code, Instr.marked, Instr.functor, hother]
  | _ => rfl

theorem marked_of_follows (hraw : ∀ f, mark f ≠ none → f.raw = true) {io main t : T}
    {i j : Instr T} (h : Shared.Follows io main t i j) (hi : i.carries = none) :
    j.marked mark = none := by
  cases h with
  | sendFile_call | sendFile_run | remove_queue | closeCallback_run =>
    exact unmarked_of_not_raw hraw rfl
  | sent_queue p g hg | sentFile_queue _ _ _ g hg | write_queue g hg =>
    exact unmarked_of_not_raw hraw (Functor.raw_of_followsUp hg)
  | send_call | send_run | shutdown_store | shutdown_run | run_call | run_release | run_queue =>
    cases hi
  | _ => rfl

/-- Nothing below the top of the stack is marked, except that `shutdown` still
has its functor to hand over while it stores to `state_`. -/
def Below (mark : Functor (Payload T) → Option α) (io : T) (is : List (Instr T)) : Prop :=
  marks mark is.tail = [] ∨ ∃ rest, is =
    .setState .kDisconnecting :: .runInLoop io .shutdownInLoop :: rest ∧ marks mark rest = []

/-- What a run leaves on the stack: the marks it found, with the one that enters
and without the one that leaves, and none of them below the top. -/
structure Hands (mark : Functor (Payload T) → Option α) (io : T) (s : Shared T) (i : Instr T)
    (new : List (Instr T)) : Prop where
  balance : marks mark new ++ (i.leaving mark).toList =
    (i.marked mark).toList ++ (i.entering mark s).toList
  below : ∀ rest, marks mark rest = [] → Below mark io (new ++ rest)

theorem below_append {io : T} {new rest : List (Instr T)} (hnew : marks mark new.tail = [])
    (hrest : marks mark rest = []) : Below mark io (new ++ rest) := by
  left
  cases new with
  | nil => exact marks_tail hrest
  | cons k new => simpa [hrest] using hnew

theorem hands_of_unmarked {io : T} {s : Shared T} {i : Instr T} {new : List (Instr T)}
    (hnew : marks mark new = [])
    (hi : (i.leaving mark).toList = (i.marked mark).toList ++ (i.entering mark s).toList) :
    Hands mark io s i new := by
  refine ⟨by rw [hnew, hi, List.nil_append], ?_⟩
  intro rest hrest
  exact below_append (marks_tail hnew) hrest

/-- What enters is issued by a call that finds the connection `kConnected`. -/
theorem exists_of_entering {s : Shared T} {i : Instr T} {a : α}
    (h : i.entering mark s = some a) :
    s.conn.connected = true ∧ ∃ f, i.issues = some f ∧ mark f = some a := by
  unfold Instr.entering at h
  split_ifs at h with hc
  obtain ⟨f, hf, ha⟩ := Option.bind_eq_some_iff.mp h
  exact ⟨hc, f, hf, ha⟩

omit mark in
theorem carries_of_issues {i : Instr T} {f : Functor (Payload T)} (h : i.issues = some f) :
    i.carries = some f ∧ i.functor = none := by
  cases i with
  | send p | shutdown => exact ⟨h, rfl⟩
  | _ => cases h

variable [DecidableEq T]

theorem hands_of_run (hraw : ∀ f, mark f ≠ none → f.raw = true) {io main t : T} {s c : Shared T}
    {i : Instr T} {o : Outcome} {new : List (Instr T)}
    (h : s.run io main t i o = some (c, new)) : Hands mark io s i new := by
  cases i with
  | send p =>
    simp only [Shared.run, Option.some.injEq] at h
    by_cases hc : s.conn.connected = true
    · rw [if_pos hc] at h
      cases h
      refine ⟨?_, fun rest hrest => below_append rfl hrest⟩
      split_ifs <;> simp [Instr.marked, Instr.functor, Instr.leaving, Instr.entering,
        Instr.issues, hc]
    · rw [if_neg hc] at h
      cases h
      exact hands_of_unmarked rfl (by simp [Instr.marked, Instr.functor, Instr.leaving,
        Instr.entering, hc])
  | sendFile fileDescriptor offset count =>
    have hfile : mark (.sendFileInLoop fileDescriptor offset count) = none :=
      unmarked_of_not_raw hraw rfl
    cases h
    refine hands_of_unmarked ?_ (by simp [Instr.marked, Instr.functor, Instr.leaving,
      Instr.entering, Instr.issues])
    split_ifs <;> simp [Instr.marked, Instr.functor, hfile]
  | shutdown =>
    cases h
    by_cases hc : s.conn.connected = true
    · rw [if_pos hc]
      refine ⟨?_, fun rest hrest => Or.inr ⟨rest, rfl, hrest⟩⟩
      simp [Instr.marked, Instr.functor, Instr.leaving, Instr.entering, Instr.issues, hc]
    · rw [if_neg hc]
      exact hands_of_unmarked rfl (by simp [Instr.marked, Instr.functor, Instr.leaving,
        Instr.entering, hc])
  | runInLoop loop cb =>
    cases h
    have hentering : (Instr.runInLoop loop cb).entering mark s = none := by
      simp [Instr.entering, Instr.issues]
    refine ⟨?_, fun rest hrest => below_append ?_ hrest⟩
    · split_ifs <;> simp [Instr.marked, Instr.functor, Instr.leaving, hentering,
        marks_destructor]
    · split_ifs
      · exact marks_destructor cb
      · rfl
  | call f =>
    apply hands_of_unmarked
    · rw [marks_eq_nil]
      intro j hj
      exact marked_of_follows hraw (Shared.follows_of_run h hj) rfl
    · simp [Instr.marked, Instr.functor, Instr.leaving, Instr.entering, Instr.issues]
  | handle cb =>
    apply hands_of_unmarked
    · rw [marks_eq_nil]
      intro j hj
      exact marked_of_follows hraw (Shared.follows_of_run h hj) rfl
    · simp [Instr.marked, Instr.functor, Instr.leaving, Instr.entering, Instr.issues]
  | closeCallback =>
    have hremove : mark .removeConnectionInLoop = none := unmarked_of_not_raw hraw rfl
    cases h
    apply hands_of_unmarked <;>
      simp [Instr.marked, Instr.functor, Instr.leaving, Instr.entering, Instr.issues, hremove]
  | queueInLoop loop cb => cases h
  | wakeup loop => cases h
  | _ =>
    cases h
    apply hands_of_unmarked <;>
      simp [Instr.marked, Instr.functor, Instr.leaving, Instr.entering, Instr.issues]

end Marks

namespace ConnectionRun

variable {T α : Type*} [DecidableEq T] {mark : Functor (Payload T) → Option α}
  {io main u : T} {s s' : ConnectionRun T}

/-- The marked functors of thread `u` that are on their way, the next to run first. -/
def passage (mark : Functor (Payload T) → Option α) (io : T) (s : ConnectionRun T) (u : T) :
    List α :=
  marks mark (s.work io) ++ if u = io then [] else marks mark (s.work u)

/-- Only thread `u` issues marked functors. -/
def IssuedBy (mark : Functor (Payload T) → Option α) (u : T) (s : ConnectionRun T) : Prop :=
  ∀ t ≠ u, ∀ i ∈ s.work t, i.carries.bind mark = none

/-- The marked functors of thread `u` leave it from the top of its stack. -/
structure Orderly (mark : Functor (Payload T) → Option α) (io u : T) (s : ConnectionRun T) :
    Prop where
  stack : Below mark io (s.stack u)
  queue : marks mark (calls (s.loops u).queued) = []

/-- The mark that a step adds at the end of the passage of its thread. -/
def entering (mark : Functor (Payload T) → Option α) (s : ConnectionRun T) :
    RunLabel T → Option α
  | .exec t _ => (s.stack t).head?.bind (Instr.entering mark s.toShared)
  | _ => none

/-- The mark that a step takes from the front of a passage. -/
def leaving (mark : Functor (Payload T) → Option α) (s : ConnectionRun T) : RunLabel T → Option α
  | .exec t _ => (s.stack t).head?.bind (Instr.leaving mark)
  | _ => none

theorem passage_congr (h : ∀ v, marks mark (s'.work v) = marks mark (s.work v)) :
    passage mark io s' u = passage mark io s u := by
  simp only [passage, h]

omit [DecidableEq T] in
theorem Replaces.marks_same {t : T} {old new : List (Instr T)} (h : Replaces s s' t old new)
    (hsame : marks mark new = marks mark old) (v : T) :
    marks mark (s'.work v) = marks mark (s.work v) := by
  obtain ⟨w, hold, hnew, hother⟩ := h
  by_cases hv : v = t
  · subst hv
    rw [hold, hnew, marks_append, marks_append, hsame]
  · rw [hother v hv]

omit [DecidableEq T] in
theorem Orderly.rest (h : Orderly mark io u s) {i : Instr T} {rest : List (Instr T)}
    (hs : s.stack u = i :: rest) (hi : i ≠ .setState .kDisconnecting) : marks mark rest = [] := by
  have hbelow := h.stack
  rw [hs] at hbelow
  rcases hbelow with hbelow | ⟨_, heq, _⟩
  · exact hbelow
  · cases heq
    exact absurd rfl hi

theorem passage_run (hraw : ∀ f, mark f ≠ none → f.raw = true) {t : T} {o : Outcome}
    {i : Instr T} {rest new : List (Instr T)} {c : Shared T} (hplaced : Placed io main s)
    (hissued : IssuedBy mark u s) (h : Orderly mark io u s) (hs : s.stack t = i :: rest)
    (hr : s.toShared.run io main t i o = some (c, new)) :
    passage mark io s u ++ (i.entering mark s.toShared).toList = (i.leaving mark).toList ++
      passage mark io
        { s with toShared := c, stack := Function.update s.stack t (new ++ rest) } u := by
  have hreplaces : Replaces s
      { s with toShared := c, stack := Function.update s.stack t (new ++ rest) } t [i] new :=
    replaces_run hs
  have hmem : i ∈ s.work t := by simp [work, hs]
  have hbalance := (hands_of_run hraw hr).balance
  cases hl : i.leaving mark with
  | some a =>
    cases i with
    | call f =>
      have hf : mark f = some a := hl
      have ht : t = io := Functor.runsOn_io_of_raw (hraw f (by simp [hf])) (hplaced t _ hmem)
      subst ht
      have hnew : marks mark new = [] := by
        simpa [Instr.leaving, Instr.marked, Instr.functor, Instr.entering, Instr.issues, hf]
          using hbalance
      obtain ⟨w, hold, hwork, hother⟩ := hreplaces
      simp only [passage, hold, hwork, marks_append, hnew]
      by_cases hu : u = t
      · simp [hu, Instr.marked, Instr.functor, hf, Instr.entering, Instr.issues]
      · simp [hu, hother u hu, Instr.marked, Instr.functor, hf, Instr.entering, Instr.issues]
    | _ => cases hl
  | none =>
    rw [hl, Option.toList_none, List.append_nil] at hbalance
    cases he : i.entering mark s.toShared with
    | none =>
      rw [he, Option.toList_none, List.append_nil] at hbalance
      have hsame : marks mark new = marks mark [i] := by simp [hbalance]
      rw [passage_congr (hreplaces.marks_same hsame)]
      simp
    | some a =>
      obtain ⟨_, f, hissues, hf⟩ := exists_of_entering he
      obtain ⟨hcarries, hfunctor⟩ := carries_of_issues hissues
      have ht : t = u := by
        by_contra hne
        have hnone := hissued t hne i hmem
        rw [hcarries, Option.bind_some, hf] at hnone
        cases hnone
      subst ht
      have hmarked : i.marked mark = none := by rw [Instr.marked, hfunctor, Option.bind_none]
      have hnew : marks mark new = [a] := by
        rw [hbalance, hmarked, he]
        rfl
      have hrest : marks mark rest = [] := by
        apply h.rest hs
        rintro rfl
        cases hissues
      have hwork : marks mark (s.work t) = [] := by
        rw [work, hs, marks_append, marks_cons, hmarked, hrest, h.queue]
        rfl
      have hwork' : marks mark (work { s with
          toShared := c, stack := Function.update s.stack t (new ++ rest) } t) = [a] := by
        simp [work, hnew, hrest, h.queue]
      obtain ⟨w, hold, hnow, hother⟩ := hreplaces
      by_cases hio : t = io
      · subst hio
        simp [passage, hwork, hwork']
      · rw [passage, passage, if_neg hio, if_neg hio, hwork, hwork', hother io (Ne.symm hio)]
        simp

theorem orderly_run (hraw : ∀ f, mark f ≠ none → f.raw = true) {t : T} {o : Outcome}
    {i : Instr T} {rest new : List (Instr T)} {c : Shared T} (h : Orderly mark io u s)
    (hs : s.stack t = i :: rest) (hr : s.toShared.run io main t i o = some (c, new)) :
    Orderly mark io u
      { s with toShared := c, stack := Function.update s.stack t (new ++ rest) } := by
  refine ⟨?_, h.queue⟩
  by_cases ht : u = t
  · subst ht
    have hbelow := h.stack
    rw [hs] at hbelow
    simp only [Function.update_self]
    rcases hbelow with hrest | ⟨rest', heq, hrest⟩
    · exact (hands_of_run hraw hr).below rest hrest
    · cases heq
      cases hr
      exact Or.inl hrest
  · simp only [Function.update_of_ne ht]
    exact h.stack

theorem queued_of_marked (hraw : ∀ f, mark f ≠ none → f.raw = true) {t loop : T}
    {cb : Functor (Payload T)} (hplaced : Placed io main s) (hissued : IssuedBy mark u s)
    {rest : List (Instr T)} (hs : s.stack t = .queueInLoop loop cb :: rest) {a : α}
    (hcb : mark cb = some a) : t = u ∧ loop = io ∧ t ≠ io := by
  have hmem : .queueInLoop loop cb ∈ s.work t := by simp [work, hs]
  have hr : cb.raw = true := hraw cb (by simp [hcb])
  obtain ⟨hruns, _, hne⟩ := hplaced t _ hmem
  refine ⟨?_, Functor.runsOn_io_of_raw hr hruns, hne hr⟩
  by_contra ht
  have hnone : mark cb = none := hissued t ht _ hmem
  rw [hcb] at hnone
  cases hnone

theorem below_update {t : T} {is : List (Instr T)} (h : Orderly mark io u s)
    (his : t = u → marks mark is.tail = []) :
    Below mark io (Function.update s.stack t is u) := by
  by_cases ht : u = t
  · subst ht
    rw [Function.update_self]
    exact Or.inl (his rfl)
  · rw [Function.update_of_ne ht]
    exact h.stack

theorem marks_calls_queued_push {loop : T} {cb : Functor (Payload T)} (v : T) :
    marks mark (calls (Function.update s.loops loop ((s.loops loop).push cb) v).queued) =
      marks mark (calls (s.loops v).queued) ++ if v = loop then (mark cb).toList else [] := by
  rw [queued_push, calls, List.map_append, marks_append]
  split_ifs <;> simp [calls, Instr.marked, Instr.functor]

theorem orderly_queue (hraw : ∀ f, mark f ≠ none → f.raw = true) {t loop : T}
    {cb : Functor (Payload T)} {rest : List (Instr T)} (hplaced : Placed io main s)
    (hissued : IssuedBy mark u s) (h : Orderly mark io u s)
    (hs : s.stack t = .queueInLoop loop cb :: rest) :
    Orderly mark io u ((s.setLoop loop ((s.loops loop).push cb)).setStack t
      (.wakeup loop :: cb.destructor ++ rest)) := by
  constructor
  · apply below_update (s := s) h
    rintro rfl
    rw [List.cons_append, List.tail_cons, marks_append, marks_destructor, h.rest hs (by simp)]
    rfl
  · simp only [setStack_loops, setLoop_loops, marks_calls_queued_push, h.queue, List.nil_append]
    split_ifs with hu
    · cases hcb : mark cb with
      | none => rfl
      | some a =>
        obtain ⟨rfl, rfl, hne⟩ := queued_of_marked hraw hplaced hissued hs hcb
        exact absurd hu hne
    · rfl

theorem passage_queue (hraw : ∀ f, mark f ≠ none → f.raw = true) {t loop : T}
    {cb : Functor (Payload T)} {rest : List (Instr T)} (hplaced : Placed io main s)
    (hissued : IssuedBy mark u s) (hs : s.stack t = .queueInLoop loop cb :: rest) :
    passage mark io ((s.setLoop loop ((s.loops loop).push cb)).setStack t
      (.wakeup loop :: cb.destructor ++ rest)) u = passage mark io s u := by
  obtain ⟨w, hold, hwork⟩ := queues_queue hs
  have hhead : marks mark (s.work t) = (mark cb).toList ++ marks mark w := by
    rw [hold, marks_cons]
    rfl
  have hmarks : ∀ v, marks mark (work ((s.setLoop loop ((s.loops loop).push cb)).setStack t
      (.wakeup loop :: cb.destructor ++ rest)) v) =
      (if v = t then marks mark w else marks mark (s.work v)) ++
        if v = loop then (mark cb).toList else [] := by
    intro v
    rw [hwork v, marks_append]
    congr 1
    · split_ifs
      · rw [marks_append, marks_cons, marks_destructor]
        rfl
      · rfl
    · split_ifs
      · simp [Instr.marked, Instr.functor]
      · rfl
  cases hcb : mark cb with
  | none =>
    apply passage_congr
    intro v
    rw [hmarks v, hcb, Option.toList_none, ite_self, List.append_nil]
    split_ifs with hv
    · rw [hv, hhead, hcb]
      rfl
    · rfl
  | some a =>
    obtain ⟨rfl, rfl, hne⟩ := queued_of_marked hraw hplaced hissued hs hcb
    rw [passage, passage, if_neg hne, if_neg hne, hmarks t, hmarks loop, hhead]
    simp [hne, Ne.symm hne]

theorem orderly_init (hraw : ∀ f, mark f ≠ none → f.raw = true) (h : Init io main s) :
    Orderly mark io u s ∧ passage mark io s u = [] := by
  have hnone : ∀ t, ∀ j ∈ s.work t, j.marked mark = none := by
    intro t j hj
    rcases h.mem_work hj with ⟨_, rfl⟩ | rfl | rfl
    · exact unmarked_of_not_raw hraw rfl
    · rfl
    · exact unmarked_of_not_raw hraw rfl
  have hwork : ∀ t, marks mark (s.work t) = [] := fun t => marks_eq_nil.mpr (hnone t)
  refine ⟨⟨Or.inl ?_, ?_⟩, by simp [passage, hwork]⟩
  · apply marks_tail
    rw [marks_eq_nil]
    intro j hj
    exact hnone u j (List.mem_append_left _ hj)
  · rw [marks_eq_nil]
    intro j hj
    exact hnone u j (List.mem_append_right _ hj)

omit [DecidableEq T] in
theorem UserRuns.unmarked (hu : s.UserRuns u) (h : Orderly mark io u s) :
    marks mark (s.stack u) = [] := by
  rcases hu with ⟨hs, _⟩ | hs
  · rw [hs]
    rfl
  · obtain ⟨rest, hstack⟩ := List.head?_eq_some_iff.mp hs
    rw [hstack, marks_cons, h.rest hstack (by simp)]
    rfl

theorem mem_queued_advance {t : T} {c : LoopStep} {loop : EventLoop (Functor (Payload T))}
    (ha : (s.loops t).Advances c loop) (v : T) :
    ∀ f ∈ (Function.update s.loops t loop v).queued, f ∈ (s.loops v).queued := by
  intro f hf
  by_cases hv : v = t
  · subst hv
    rw [Function.update_self] at hf
    exact ha.mem_queued hf
  · rwa [Function.update_of_ne hv] at hf

theorem Orderly.queue_advance {t : T} {c : LoopStep} {loop : EventLoop (Functor (Payload T))}
    (h : Orderly mark io u s) (ha : (s.loops t).Advances c loop) :
    marks mark (calls (Function.update s.loops t loop u).queued) = [] := by
  have hqueue := h.queue
  rw [marks_eq_nil] at hqueue ⊢
  intro j hj
  obtain ⟨f, hf, rfl⟩ := List.mem_map.mp hj
  exact hqueue _ (List.mem_map_of_mem (mem_queued_advance ha u f hf))

theorem orderly_step (hraw : ∀ f, mark f ≠ none → f.raw = true) {l : RunLabel T}
    (hplaced : Placed io main s) (hissued : IssuedBy mark u s) (h : Orderly mark io u s)
    (hs : Steps io main s l s') : Orderly mark io u s' := by
  cases hs with
  | run t o i rest c new hs hr => exact orderly_run hraw h hs hr
  | queue t o loop cb rest hs => exact orderly_queue hraw hplaced hissued h hs
  | wakeup t o loop rest hs =>
    have hq : ((s.loops loop).wakeupAfterPush (t = loop)).queued = (s.loops loop).queued := by
      simp [EventLoop.queued]
    refine ⟨below_update (s := s) h ?_, ?_⟩
    · rintro rfl
      exact marks_tail (h.rest hs (by simp))
    · simpa [loops_update EventLoop.queued hq] using h.queue
  | control t c loop hs hact ha =>
    refine ⟨below_update (s := s) h ?_, h.queue_advance ha⟩
    intro _
    rw [calls, ← List.map_tail, EventLoop.started_tail]
    rfl
  | report wakeup revents mask loop hs hm hr ha => exact ⟨h.stack, h.queue_advance ha⟩
  | handleEvent hs hact =>
    refine ⟨below_update (s := s) h ?_, h.queue⟩
    intro _
    exact marks_tail (marks_handlers _)
  | call t c hu =>
    refine ⟨below_update (s := s) h ?_, h.queue⟩
    rintro rfl
    apply marks_tail
    rw [marks_append, marks_code hraw, hu.unmarked h]
    rfl
  | store t address value hu => exact ⟨h.stack, h.queue⟩

/-- The passage of a thread is a queue: its functors leave it in the order in
which they have entered. -/
theorem passage_step (hraw : ∀ f, mark f ≠ none → f.raw = true) {l : RunLabel T}
    (hplaced : Placed io main s) (hissued : IssuedBy mark u s) (h : Orderly mark io u s)
    (hs : Steps io main s l s') :
    passage mark io s u ++ (entering mark s l).toList =
      (leaving mark s l).toList ++ passage mark io s' u := by
  cases hs with
  | run t o i rest c new hs hr =>
    simpa [entering, leaving, hs] using passage_run hraw hplaced hissued h hs hr
  | queue t o loop cb rest hs =>
    rw [passage_queue hraw hplaced hissued hs]
    simp [entering, leaving, hs, Instr.entering, Instr.leaving, Instr.issues]
  | wakeup t o loop rest hs =>
    rw [passage_congr ((replaces_wakeup hs).marks_same rfl)]
    simp [entering, leaving, hs, Instr.entering, Instr.leaving, Instr.issues]
  | control t c loop hs hact ha =>
    rw [passage_congr fun v => congrArg (marks mark) (work_control hs ha v)]
    simp [entering, leaving]
  | report wakeup revents mask loop hs hm hr ha =>
    rw [passage_congr fun v => congrArg (marks mark) (work_report ha v)]
    simp [entering, leaving]
  | handleEvent hs hact =>
    rw [passage_congr ((replaces_handleEvent hs).marks_same (marks_handlers _))]
    simp [entering, leaving]
  | call t c hu =>
    have hsame : passage mark io (s.setStack t (s.code t c ++ s.stack t)) u =
        passage mark io s u :=
      passage_congr ((replaces_push s t (s.code t c) s.active).marks_same (marks_code hraw s t c))
    simp [entering, leaving, hsame]
  | store t address value hu =>
    simp only [entering, leaving, Option.toList_none, List.append_nil, List.nil_append]
    rfl

/-- What is on its way, or leaves, has been on its way or enters. -/
theorem mem_passage_of_step (hraw : ∀ f, mark f ≠ none → f.raw = true) {l : RunLabel T}
    (hplaced : Placed io main s) (hissued : IssuedBy mark u s) (h : Orderly mark io u s)
    (hs : Steps io main s l s') {a : α}
    (ha : a ∈ passage mark io s' u ∨ leaving mark s l = some a) :
    a ∈ passage mark io s u ∨ entering mark s l = some a := by
  have hmem : a ∈ (leaving mark s l).toList ++ passage mark io s' u := by
    rcases ha with ha | ha
    · exact List.mem_append_right _ ha
    · exact List.mem_append_left _ (by simp [ha])
  rw [← passage_step hraw hplaced hissued h hs] at hmem
  simpa using hmem

end ConnectionRun
end MuduoCore
