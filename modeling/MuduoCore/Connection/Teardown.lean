import MuduoCore.Connection.Arrival
import MuduoCore.Connection.CallbackProtocol

/-!
# Taking a connection down

`handleClose` and `connectDestroyed` mark a connection `kDisconnected`, stop
watching it and tell the user, in three instructions on top of the stack of the
loop's thread. The destructor of the server queues `connectDestroyed` whatever
has become of the connection, so it can come before `handleClose`, after it, or
while the removal is under way. Unless one of them goes wrong, the three are
executed once.
-/

namespace MuduoCore

/-- The instruction marks the connection, changes what the kernel watches, or
tells the user about it. -/
def Instr.takesDown {T : Type*} : Instr T → Bool
  | setState state => state ≠ .kDisconnecting
  | changeInterest _ | connectionCallback => true
  | _ => false

def Instr.destroys {T : Type*} : Instr T → Bool
  | runInLoop _ .connectDestroyed | queueInLoop _ .connectDestroyed | call .connectDestroyed
  | remove => true
  | _ => false

theorem takesDown_of_follows {T : Type*} {io main t : T} {i j : Instr T}
    (h : Shared.Follows io main t i j) (hj : j.takesDown = true) :
    i.establishes = true ∨ i = .call .connectDestroyed ∨ i = .handle .closeCallback := by
  cases h with
  | establish_store | establish_enable | establish_callback => exact Or.inl rfl
  | destroy_store | destroy_disable | destroy_callback => exact Or.inr (Or.inl rfl)
  | close_store | close_disable | close_callback => exact Or.inr (Or.inr rfl)
  | _ => cases hj

theorem eq_of_follows_remove {T : Type*} {io main t : T} {i : Instr T}
    (h : Shared.Follows io main t i .remove) : i = .call .connectDestroyed := by
  cases h
  rfl

theorem Instr.takesDown_of_foreign {T : Type*} {i : Instr T} (h : i.foreign = true) :
    i.takesDown = false := by
  cases i <;> first | rfl | cases h

namespace Shared

variable {T : Type*} {s c : Shared T} {w : List (Instr T)}

/-- The instruction does not take the connection down wrongly: `connectDestroyed`
does not find it `kDisconnecting`, nothing closes it again, no `shutdown`
overwrites `kDisconnected`, and no `sendInLoop` registers it afterwards. -/
structure InOrder (s : Shared T) (i : Instr T) (o : Outcome) : Prop where
  destroyed : i = .call .connectDestroyed → s.conn.state_ ≠ .kDisconnecting
  closed : i = .handle .closeCallback → s.closing = false
  stored : i = .setState .kDisconnecting → s.conn.state_ ≠ .kDisconnected
  sent : ∀ p ∈ i.payload, i.sends = true → s.closing = true → s.conn.leavesRest p.len o = false

instance [DecidableEq T] (s : Shared T) (i : Instr T) (o : Outcome) : Decidable (s.InOrder i o) :=
  decidable_of_iff ((i = .call .connectDestroyed → s.conn.state_ ≠ .kDisconnecting) ∧
    (i = .handle .closeCallback → s.closing = false) ∧
    (i = .setState .kDisconnecting → s.conn.state_ ≠ .kDisconnected) ∧
    ∀ p ∈ i.payload, i.sends = true → s.closing = true → s.conn.leavesRest p.len o = false)
    ⟨fun ⟨hd, hc, hs, hp⟩ => ⟨hd, hc, hs, hp⟩, fun ⟨hd, hc, hs, hp⟩ => ⟨hd, hc, hs, hp⟩⟩

structure Down (s : Shared T) : Prop where
  closing : s.closing = true
  state : s.conn.state_ = .kDisconnected
  unwatched : s.conn.Unwatched
  callbacks : s.callbacks.count (.connection false) = 1

/-- Its channel is in no poller any more. -/
structure Gone (s : Shared T) : Prop where
  down : s.Down
  index : s.conn.channel_.channel.index_ = .kNew

/-- How far a connection has been taken down, when `w` is what is left of it. -/
inductive TakenDown (s : Shared T) : List (Instr T) → Prop
  | up (hclosing : s.closing = false)
      (hstate : s.conn.state_ = .kConnected ∨ s.conn.state_ = .kDisconnecting)
      (hreading : s.conn.Reading) (hcount : s.callbacks.count (.connection false) = 0) :
      TakenDown s []
  | setState (hclosing : s.closing = true) (hreading : s.conn.Reading)
      (hcount : s.callbacks.count (.connection false) = 0) :
      TakenDown s
        [.setState .kDisconnected, .changeInterest .disableAll, .connectionCallback]
  | disableAll (hclosing : s.closing = true) (hstate : s.conn.state_ = .kDisconnected)
      (hreading : s.conn.Reading) (hcount : s.callbacks.count (.connection false) = 0) :
      TakenDown s [.changeInterest .disableAll, .connectionCallback]
  | connectionCallback (hclosing : s.closing = true) (hstate : s.conn.state_ = .kDisconnected)
      (hunwatched : s.conn.Unwatched) (hcount : s.callbacks.count (.connection false) = 0) :
      TakenDown s [.connectionCallback]
  | down (h : s.Down) : TakenDown s []

theorem TakenDown.down_of_closing (h : s.TakenDown []) (hc : s.closing = true) : s.Down := by
  cases h with
  | up hclosing =>
    rw [hclosing] at hc
    cases hc
  | down h => exact h

theorem TakenDown.closing (h : s.TakenDown w) (hw : w ≠ []) : s.closing = true := by
  cases h with
  | up | down => exact absurd rfl hw
  | _ => assumption

theorem TakenDown.congr (h : s.TakenDown w) (hclosing : c.closing = s.closing)
    (hup : s.conn.state_ = .kConnected ∨ s.conn.state_ = .kDisconnecting →
      c.conn.state_ = .kConnected ∨ c.conn.state_ = .kDisconnecting)
    (hdown : s.conn.state_ = .kDisconnected → c.conn.state_ = .kDisconnected)
    (hreading : s.conn.Reading → c.conn.Reading)
    (hunwatched : s.closing = true → s.conn.Unwatched → c.conn.Unwatched)
    (hcount : c.callbacks.count (.connection false) = s.callbacks.count (.connection false)) :
    c.TakenDown w ∧ (s.Down → c.Down) := by
  have hkept : s.Down → c.Down := fun h =>
    ⟨hclosing.trans h.closing, hdown h.state, hunwatched h.closing h.unwatched,
      hcount.trans h.callbacks⟩
  refine ⟨?_, hkept⟩
  cases h with
  | up hc hs hr hn => exact .up (hclosing.trans hc) (hup hs) (hreading hr) (hcount.trans hn)
  | setState hc hr hn => exact .setState (hclosing.trans hc) (hreading hr) (hcount.trans hn)
  | disableAll hc hs hr hn =>
    exact .disableAll (hclosing.trans hc) (hdown hs) (hreading hr) (hcount.trans hn)
  | connectionCallback hc hs hu hn =>
    exact .connectionCallback (hclosing.trans hc) (hdown hs) (hunwatched hc hu) (hcount.trans hn)
  | down h => exact .down (hkept h)

variable [DecidableEq T] {io main t : T} {i : Instr T} {o : Outcome} {new : List (Instr T)}

theorem TakenDown.run (h : s.TakenDown (i :: w)) (hr : s.run io main t i o = some (c, new)) :
    c.TakenDown w ∧ c.closing = true ∧ new.filter Instr.takesDown = [] ∧ (w ≠ [] → new = []) := by
  cases h with
  | setState hc hread hn =>
    cases hr
    exact ⟨.disableAll hc rfl hread hn, hc, rfl, fun _ => rfl⟩
  | disableAll hc hs hread hn =>
    cases hr
    exact ⟨.connectionCallback hc hs (s.conn.unwatched_disableAll hread) hn, hc, rfl, fun _ => rfl⟩
  | connectionCallback hc hs hu hn =>
    cases hr
    refine ⟨.down ⟨hc, hs, hu, ?_⟩, hc, rfl, by simp⟩
    simp [hn, TcpConnection.connected, hs]

/-- The instruction that begins to take the connection down, or finds it down. -/
theorem TakenDown.begin (h : s.TakenDown []) (hgood : s.InOrder i o)
    (hi : i = .call .connectDestroyed ∨ i = .handle .closeCallback)
    (hr : s.run io main t i o = some (c, new)) :
    ∃ w rest, new = w ++ rest ∧ rest.filter Instr.takesDown = [] ∧
      w.filter Instr.takesDown = w ∧ c.TakenDown w ∧ c.closing = true ∧ (s.Down → c.Down) := by
  have hstages : c = { s with closing := true } → s.conn.Reading →
      s.callbacks.count (.connection false) = 0 → c.TakenDown
        [.setState .kDisconnected, .changeInterest .disableAll, .connectionCallback] := by
    rintro rfl hread hn
    exact .setState rfl hread hn
  rcases hi with rfl | rfl
  · cases hr
    cases h with
    | up hc hs hread hn =>
      have hconnected : s.conn.connected = true := by
        rcases hs with hs | hs
        · simp [TcpConnection.connected, hs]
        · exact absurd hs (hgood.destroyed rfl)
      refine ⟨_, [.remove], by rw [hconnected]; rfl, rfl, rfl, hstages rfl hread hn, rfl, ?_⟩
      intro hdown
      rw [hdown.closing] at hc
      cases hc
    | down h =>
      have hconnected : s.conn.connected = false := by simp [TcpConnection.connected, h.state]
      have hdown : Down { s with closing := true } := ⟨rfl, h.state, h.unwatched, h.callbacks⟩
      exact ⟨[], [.remove], by rw [hconnected]; rfl, rfl, rfl, .down hdown, rfl, fun _ => hdown⟩
  · have hc := hgood.closed rfl
    cases hr
    cases h with
    | up _ hs hread hn =>
      refine ⟨_, [.closeCallback, .release], rfl, rfl, rfl, hstages rfl hread hn, rfl, ?_⟩
      intro hdown
      rw [hdown.closing] at hc
      cases hc
    | down h =>
      rw [h.closing] at hc
      cases hc

theorem TakenDown.run_other (h : s.TakenDown w) (hi : i.takesDown = false)
    (hbegin : ¬ (i = .call .connectDestroyed ∨ i = .handle .closeCallback))
    (hremove : i = .remove → s.Down) (hgood : s.InOrder i o)
    (hr : s.run io main t i o = some (c, new)) : c.TakenDown w ∧ (s.Down → c.Down) := by
  have hframe := frame_of_run hr
  rw [not_or] at hbegin
  have hinterest : ∀ k, i ≠ .changeInterest k := by
    rintro k rfl
    cases hi
  have hstate : (∀ state, i ≠ .setState state) ∨ i = .setState .kDisconnecting := by
    cases i with
    | setState state => cases state <;> simp_all [Instr.takesDown]
    | _ => exact Or.inl (by simp)
  refine h.congr (hframe.closing hbegin.1 hbegin.2) ?_ ?_ ?_ ?_ ?_
  · rcases hstate with hne | rfl
    · rw [hframe.state hne]
      exact id
    · cases hr
      exact fun _ => Or.inr rfl
  · rcases hstate with hne | rfl
    · rw [hframe.state hne]
      exact id
    · exact fun hs => absurd hs (hgood.stored rfl)
  · intro hread
    refine ConnectionRun.reading_of_run hread hinterest ?_ hr
    intro hi
    exact (hremove hi).unwatched.1 hread.1
  · intro hc hu
    exact ConnectionRun.unwatched_of_run hu hinterest (fun p hp hs => hgood.sent p hp hs hc) hr
  · by_cases hm : i = .messageCallback
    · subst hm
      cases hr
      simp
    · rw [hframe.callbacks (by rintro rfl; cases hi) hm]

end Shared

namespace ConnectionRun

variable {T : Type*} [DecidableEq T] {io main : T} {s s' : ConnectionRun T}
  {w : List (Instr T)}

/-- No step takes the connection down wrongly. -/
def TakesDownInOrder (s : ConnectionRun T) : HostLabel T → Prop
  | .own (.exec t o) => ∀ i ∈ (s.stack t).head?, s.toShared.InOrder i o
  | _ => True

/-- What is left to take the connection down, `w`, is what the loop's thread
does next; and `remove` comes afterwards. -/
structure GoingDown (io : T) (s : ConnectionRun T) (w : List (Instr T)) : Prop where
  stage : s.toShared.TakenDown w
  work : ∀ t, (s.work t).filter Instr.takesDown = if t = io then w else []
  top : w <+: s.stack io
  remove : s.closing = false → ∀ t, ∀ i ∈ s.work t, i ≠ .remove

theorem GoingDown.takesDown (h : GoingDown io s w) {i : Instr T} (hi : i ∈ w) :
    i.takesDown = true := by
  have hio := h.work io
  rw [if_pos rfl] at hio
  rw [← hio] at hi
  exact (List.mem_filter.mp hi).2

theorem GoingDown.head {t : T} {i : Instr T} {rest : List (Instr T)} (h : GoingDown io s w)
    (hs : s.stack t = i :: rest) (hi : i.takesDown = true) :
    t = io ∧ ∃ w', w = i :: w' ∧ w' <+: rest := by
  have hmem : i ∈ (s.work t).filter Instr.takesDown :=
    List.mem_filter.mpr ⟨List.mem_append_left _ (by simp [hs]), hi⟩
  rw [h.work t] at hmem
  have ht : t = io := by
    by_contra ht
    rw [if_neg ht] at hmem
    cases hmem
  subst ht
  have htop := h.top
  rw [hs] at htop
  rw [if_pos rfl] at hmem
  cases w with
  | nil => cases hmem
  | cons j w =>
    obtain ⟨rfl, htail⟩ := List.cons_prefix_cons.mp htop
    exact ⟨rfl, w, rfl, htail⟩

theorem GoingDown.nil_of_head {i : Instr T} {rest : List (Instr T)} (h : GoingDown io s w)
    (hs : s.stack io = i :: rest) (hi : i.takesDown = false) : w = [] := by
  cases w with
  | nil => rfl
  | cons j w =>
    have htop := h.top
    rw [hs] at htop
    obtain ⟨rfl, -⟩ := List.cons_prefix_cons.mp htop
    rw [h.takesDown (List.mem_cons_self ..)] at hi
    cases hi

/-! ## What a step leaves of it -/

/-- A step that does not execute what takes the connection down, and does not
begin to, leaves what there is of it in its place. -/
theorem filter_host {hl : HostLabel T} (hs : HostSteps io main s hl s')
    (hrun : ∀ t o i rest c new, hl = .own (.exec t o) → s.stack t = i :: rest →
      s.toShared.run io main t i o = some (c, new) →
      new.filter Instr.takesDown = [i].filter Instr.takesDown) (u : T) :
    (s'.work u).filter Instr.takesDown = (s.work u).filter Instr.takesDown := by
  have hreplaces : ∀ {r : ConnectionRun T} {t : T} {old new : List (Instr T)},
      Replaces s r t old new → new.filter Instr.takesDown = old.filter Instr.takesDown →
      (r.work u).filter Instr.takesDown = (s.work u).filter Instr.takesDown := by
    rintro r t old new ⟨x, hold, hwork, hsame⟩ hnew
    by_cases hu : u = t
    · subst hu
      rw [hold, hwork, List.filter_append, List.filter_append, hnew]
    · rw [hsame u hu]
  rcases hs.split with ⟨l, rfl, -, hown⟩ | ⟨-, t, old, new, hinter, hnew⟩ | ⟨rfl, rest, htop, rfl⟩
  · cases hown with
    | run t o i rest c new htop hr =>
      exact hreplaces (replaces_run htop) (hrun t o i rest c new rfl htop hr)
    | queue t o loop cb rest htop =>
      obtain ⟨x, hold, hwork⟩ := queues_queue htop
      have hdestructor : (cb.destructor : List (Instr T)).filter Instr.takesDown = [] := by
        unfold Functor.destructor
        split_ifs <;> rfl
      have hcall : (if u = loop then [Instr.call cb] else []).filter Instr.takesDown = [] := by
        split_ifs <;> rfl
      rw [hwork u, List.filter_append, hcall, List.append_nil]
      by_cases hu : u = t
      · subst hu
        rw [if_pos rfl, hold]
        simp [Instr.takesDown, hdestructor]
      · rw [if_neg hu]
    | wakeup t o loop rest htop => exact hreplaces (replaces_wakeup htop) rfl
    | control t c loop htop hact ha => rw [work_control htop ha]
    | report wakeup revents mask loop htop hm hr ha => rw [work_report ha]
    | handleEvent htop hact =>
      refine hreplaces (replaces_handleEvent htop) ?_
      simp [List.filter_map, Function.comp_def, Instr.takesDown]
    | call t c hu => exact hreplaces (replaces_push s t (s.code t c) s.active) (by cases c <;> rfl)
    | store t address value hu => rfl
  · obtain ⟨x, hold, hwork⟩ := hinter.work
    have hforeign : ∀ {is : List (Instr T)}, (∀ i ∈ is, i.foreign = true) →
        is.filter Instr.takesDown = [] := by
      intro is his
      rw [List.filter_eq_nil_iff]
      intro i hi
      simp [Instr.takesDown_of_foreign (his i hi)]
    have hnone : new.filter Instr.takesDown = [] := by
      rcases hnew with hnew | ⟨c, -, -, rfl⟩
      · exact hforeign hnew
      · cases c <;> rfl
    obtain ⟨extra, hextra, hu⟩ := hwork u
    have hlast : extra.filter Instr.takesDown = [] := by
      rcases hextra with rfl | rfl <;> rfl
    rw [hu, List.filter_append, hlast, List.append_nil]
    by_cases hut : u = t
    · subst hut
      rw [if_pos rfl, hold, List.filter_append, List.filter_append, hnone,
        hforeign hinter.foreign]
    · rw [if_neg hut]
  · exact hreplaces (replaces_destroy htop) rfl

theorem closing_host {hl : HostLabel T} (hs : HostSteps io main s hl s')
    (hc : s.closing = true) : s'.closing = true := by
  rcases hs.split with ⟨l, rfl, -, hown⟩ | ⟨-, t, old, new, hinter, -⟩ | ⟨rfl, rest, htop, rfl⟩
  · exact closing_step hown hc
  · exact hinter.closing.trans hc
  · exact hc

theorem remove_host {hl : HostLabel T} (h : s.closing = false → ∀ t, ∀ i ∈ s.work t, i ≠ .remove)
    (hs : HostSteps io main s hl s') (hc : s'.closing = false) :
    ∀ t, ∀ i ∈ s'.work t, i ≠ .remove := by
  have hbefore : s.closing = false := by
    by_contra hclosing
    rw [closing_host hs (by simpa using hclosing)] at hc
    cases hc
  refine hs.forall_work (P := fun _ i => i ≠ .remove) (h hbefore) ?_ ?_ (by simp) (by simp)
    (by simp) ?_ (by simp)
  · rintro t o i new - - hr - j hj rfl
    obtain rfl := eq_of_follows_remove (Shared.follows_of_run hr hj)
    simp only [Shared.run, Shared.body, Option.some.injEq, Prod.mk.injEq] at hr
    rw [← hr.1] at hc
    cases hc
  · rintro t i hi rfl
    cases hi
  · rintro t c - - i hi rfl
    cases c <;> simp [code] at hi

theorem GoingDown.top_step {hl : HostLabel T} (h : GoingDown io s w)
    (hs : HostSteps io main s hl s') (hexec : ∀ o, hl ≠ .own (.exec io o)) : w <+: s'.stack io := by
  cases w with
  | nil => exact List.nil_prefix
  | cons i w =>
    obtain ⟨rest, hrest⟩ := h.top
    have hi := h.takesDown (List.mem_cons_self ..)
    rw [hs.stack_of_busy hrest.symm ?_ (by rintro rfl; cases hi) hexec]
    · exact h.top
    · cases hf : i.foreign with
      | false => rfl
      | true =>
        rw [Instr.takesDown_of_foreign hf] at hi
        cases hi

/-! ## From the first callback on -/

theorem goingDown_run {t : T} {i : Instr T} {o : Outcome} {rest new : List (Instr T)}
    {c : Shared T} (h : GoingDown io s w) (hest : i.establishes = false)
    (hplaced : i.PlacedOn io main t) (hgood : s.toShared.InOrder i o) (hs : s.stack t = i :: rest)
    (hr : s.toShared.run io main t i o = some (c, new))
    (hstep : HostSteps io main s (.own (.exec t o))
      { s with toShared := c, stack := Function.update s.stack t (new ++ rest) }) :
    ∃ w', GoingDown io
        { s with toShared := c, stack := Function.update s.stack t (new ++ rest) } w' ∧
      (s.Down → c.Down) := by
  obtain ⟨x, hold, hwork, hsame⟩ : Replaces s
    { s with toShared := c, stack := Function.update s.stack t (new ++ rest) } t [i] new :=
    replaces_run hs
  have hremove := remove_host h.remove hstep
  -- what the thread has below the instruction is filtered as before
  have hfilter : ∀ w', t = io → new.filter Instr.takesDown ++ x.filter Instr.takesDown = w' →
      ∀ u, (work { s with toShared := c, stack := Function.update s.stack t (new ++ rest) }
        u).filter Instr.takesDown = if u = io then w' else [] := by
    rintro w' rfl hw' u
    by_cases hu : u = t
    · subst hu
      rw [if_pos rfl, hwork, List.filter_append, hw']
    · rw [hsame u hu, h.work u, if_neg hu, if_neg hu]
  have hbelow : (i :: x).filter Instr.takesDown = if t = io then w else [] := by
    rw [← h.work t, hold]
    rfl
  by_cases hi : i.takesDown = true
  · obtain ⟨rfl, w', rfl, htail⟩ := h.head hs hi
    obtain ⟨hstage, hclosing, hnew, hnil⟩ := h.stage.run hr
    rw [if_pos rfl, List.filter_cons_of_pos hi] at hbelow
    have hx : x.filter Instr.takesDown = w' := (List.cons.inj hbelow).2
    refine ⟨w', ⟨hstage, hfilter w' rfl (by rw [hnew, hx, List.nil_append]), ?_, hremove⟩, ?_⟩
    · simp only [Function.update_self]
      cases w' with
      | nil => exact List.nil_prefix
      | cons j w' =>
        rw [hnil (by simp)]
        exact htail
    · intro hdown
      have hstage' := h.stage
      cases hstage' with
      | setState _ hread => exact absurd hread.1 hdown.unwatched.1
      | disableAll _ _ hread => exact absurd hread.1 hdown.unwatched.1
      | connectionCallback _ _ _ hn =>
        rw [hdown.callbacks] at hn
        cases hn
  · have hfalse : i.takesDown = false := by simpa using hi
    rw [List.filter_cons_of_neg hi] at hbelow
    by_cases hbegin : i = .call .connectDestroyed ∨ i = .handle .closeCallback
    · have ht : t = io := by
        rcases hbegin with rfl | rfl
        · exact hplaced
        · exact hplaced
      subst ht
      obtain rfl := h.nil_of_head hs hfalse
      obtain ⟨w', tail, rfl, htail, hw', hstage, hclosing, hkept⟩ := h.stage.begin hgood hbegin hr
      rw [if_pos rfl] at hbelow
      refine ⟨w', ⟨hstage, hfilter w' rfl ?_, ?_, hremove⟩, hkept⟩
      · rw [List.filter_append, hw', htail, hbelow]
        simp
      · simp only [Function.update_self, List.append_assoc]
        exact List.prefix_append _ _
    · have hnew : new.filter Instr.takesDown = [] := by
        rw [List.filter_eq_nil_iff]
        intro j hj hjd
        rcases takesDown_of_follows (Shared.follows_of_run hr hj) hjd with he | hb
        · rw [he] at hest
          cases hest
        · exact hbegin hb
      have hdown : i = .remove → s.Down := by
        rintro rfl
        obtain rfl : t = io := hplaced
        obtain rfl := h.nil_of_head hs hfalse
        apply h.stage.down_of_closing
        by_contra hc
        exact h.remove (by simpa using hc) t _ (List.mem_append_left _ (by simp [hs])) rfl
      obtain ⟨hstage, hkept⟩ := h.stage.run_other hfalse hbegin hdown hgood hr
      refine ⟨w, ⟨hstage, ?_, ?_, hremove⟩, hkept⟩
      · intro u
        rw [← h.work u]
        by_cases hu : u = t
        · subst hu
          rw [hwork, hold, List.filter_append, hnew, List.singleton_append,
            List.filter_cons_of_neg hi, List.nil_append]
        · rw [hsame u hu]
      · by_cases ht : t = io
        · subst ht
          rw [h.nil_of_head hs hfalse]
          exact List.nil_prefix
        · simpa only [Function.update_of_ne (Ne.symm ht)] using h.top

/-- Whatever else happens, the connection goes down, and stays down. -/
theorem goingDown_step {hl : HostLabel T} (h : GoingDown io s w)
    (hest : ∀ t, ∀ i ∈ s.work t, i.establishes = false) (hplaced : Placed io main s)
    (hgood : TakesDownInOrder s hl) (hs : HostSteps io main s hl s') :
    ∃ w', GoingDown io s' w' ∧ (s.Down → s'.Down) := by
  have hidle : (∀ t o i rest c new, hl = .own (.exec t o) → s.stack t = i :: rest →
        s.toShared.run io main t i o = some (c, new) → False) →
      (∀ o, hl = .own (.exec io o) → w = []) → s'.conn.state_ = s.conn.state_ →
      (s.conn.Reading → s'.conn.Reading) → (s.conn.Unwatched → s'.conn.Unwatched) →
      s'.closing = s.closing → s'.callbacks = s.callbacks →
      ∃ w', GoingDown io s' w' ∧ (s.Down → s'.Down) := by
    intro hrun hexec hstate hread hun hclosing hcallbacks
    obtain ⟨hstage, hkept⟩ := h.stage.congr (c := s'.toShared) hclosing (by rw [hstate]; exact id)
      (by rw [hstate]; exact id) hread (fun _ => hun) (by rw [hcallbacks])
    refine ⟨w, ⟨hstage, ?_, ?_, remove_host h.remove hs⟩, hkept⟩
    · intro u
      rw [← h.work u]
      apply filter_host hs
      exact fun t o i rest c new hl htop hr => (hrun t o i rest c new hl htop hr).elim
    · by_cases he : ∃ o, hl = .own (.exec io o)
      · obtain ⟨o, ho⟩ := he
        rw [hexec o ho]
        exact List.nil_prefix
      · exact h.top_step hs fun o ho => he ⟨o, ho⟩
  have hs' := hs
  rcases hs'.split with ⟨l, rfl, -, hown⟩ | ⟨⟨-, hne⟩, t, old, new, hinter, -⟩ |
    ⟨rfl, rest, htop, rfl⟩
  · cases hown with
    | run t o i rest c new htop hr =>
      have hi : i ∈ s.work t := List.mem_append_left _ (by simp [htop])
      exact goingDown_run h (hest t i hi) (hplaced t i hi) (hgood i (by simp [htop])) htop hr hs
    | queue t o loop cb rest htop =>
      refine hidle ?_ ?_ rfl id id rfl rfl
      · intro u o' i r c new hl htop' hr
        cases hl
        rw [htop] at htop'
        cases htop'
        cases hr
      · intro o' hl
        cases hl
        exact h.nil_of_head htop rfl
    | wakeup t o loop rest htop =>
      refine hidle ?_ ?_ rfl id id rfl rfl
      · intro u o' i r c new hl htop' hr
        cases hl
        rw [htop] at htop'
        cases htop'
        cases hr
      · intro o' hl
        cases hl
        exact h.nil_of_head htop rfl
    | _ => exact hidle (by simp) (by simp) rfl id id rfl rfl
  · refine hidle ?_ ?_ (by rw [hinter.conn]) (by rw [hinter.conn]; exact id)
      (by rw [hinter.conn]; exact id) hinter.closing hinter.callbacks
    · exact fun u o i rest c new hl => absurd hl (hne _)
    · exact fun o hl => absurd hl (hne _)
  · exact hidle (by simp) (by simp) rfl id id rfl rfl

theorem goingDown_arrived (h : Arrived io s) : GoingDown io s [] := by
  have hwork : ∀ t, ∀ i ∈ s.work t, i.takesDown = false ∧ i ≠ .remove := by
    intro t i hi
    rcases h.work t i hi with hspare | rfl | ⟨rfl, -⟩
    · cases hspare with
      | foreign _ hf =>
        refine ⟨Instr.takesDown_of_foreign hf, ?_⟩
        rintro rfl
        cases hf
      | _ => exact ⟨rfl, by simp⟩
    · exact ⟨rfl, by simp⟩
    · exact ⟨rfl, by simp⟩
  refine ⟨.up h.closing (Or.inl h.state) h.reading (by simp [h.callbacks]), ?_, List.nil_prefix,
    fun _ t i hi => (hwork t i hi).2⟩
  intro t
  rw [ite_self, List.filter_eq_nil_iff]
  intro i hi
  simp [(hwork t i hi).1]

/-- Up to the first callback the connection arrives; from then on it goes down. -/
def GoesDown (io main : T) (s : ConnectionRun T) : Prop :=
  Arriving io main s ∨ (∀ t, ∀ i ∈ s.work t, i.establishes = false) ∧ ∃ w, GoingDown io s w

theorem goesDown_step {hl : HostLabel T} (h : GoesDown io main s) (hplaced : Placed io main s)
    (hgood : TakesDownInOrder s hl) (hs : HostSteps io main s hl s') :
    GoesDown io main s' ∧ (s.Down → s'.Down) := by
  rcases h with harriving | ⟨hest, w, hgoing⟩
  · constructor
    · rcases arriving_step harriving hs with h | h
      · exact Or.inl h
      · exact Or.inr ⟨h.established, [], goingDown_arrived h⟩
    · intro hdown
      have hclosing := hdown.closing
      rw [harriving.closing] at hclosing
      cases hclosing
  · obtain ⟨w', hgoing', hkept⟩ := goingDown_step hgoing hest hplaced hgood hs
    exact ⟨Or.inr ⟨established_host hest hs, w', hgoing'⟩, hkept⟩

theorem goesDown_of_reachable (h : (hosted io main).Reachable TakesDownInOrder s) :
    Placed io main s ∧ GoesDown io main s := by
  refine h.invariant (I := fun s => Placed io main s ∧ GoesDown io main s) ?_ ?_
  · exact fun s hinit => ⟨placed_hostInit hinit, Or.inl (arriving_init hinit)⟩
  · rintro s hl s' ⟨hplaced, hgoes⟩ hgood hs
    exact ⟨placed_host hplaced hs, (goesDown_step hgoes hplaced hgood hs).1⟩

theorem GoesDown.down_of_remove {t : T} {rest : List (Instr T)} (h : GoesDown io main s)
    (hplaced : Placed io main s) (hs : s.stack t = .remove :: rest) : s.Down := by
  rcases h with harriving | ⟨-, w, hgoing⟩
  · obtain ⟨u, w, before, after, hp⟩ := harriving.place
    rcases hp.head hs with ⟨hspare, -⟩ | ⟨-, -, w', rfl⟩
    · cases hspare with
      | foreign _ hf => cases hf
    · exact nomatch hp.establishing
  · have hmem : .remove ∈ s.work t := List.mem_append_left _ (by simp [hs])
    obtain rfl : t = io := hplaced t _ hmem
    obtain rfl := hgoing.nil_of_head hs rfl
    apply hgoing.stage.down_of_closing
    by_contra hc
    exact hgoing.remove (by simpa using hc) t _ hmem rfl

/-- The end of `connectDestroyed` takes the channel out of the poller. -/
theorem GoesDown.gone_of_remove {t : T} {o : Outcome} {rest : List (Instr T)}
    (h : GoesDown io main s) (hplaced : Placed io main s)
    (hgood : TakesDownInOrder s (.own (.exec t o))) (htop : s.stack t = .remove :: rest)
    (hs : HostSteps io main s (.own (.exec t o)) s') : s'.Gone := by
  refine ⟨(goesDown_step h hplaced hgood hs).2 (h.down_of_remove hplaced htop), ?_⟩
  cases hs with
  | own _ _ _ hown =>
    cases hown with
    | run _ _ i _ c new hs hr =>
      obtain ⟨rfl, rfl⟩ := List.cons.inj (htop.symm.trans hs)
      cases hr
      exact RegisteredChannel.remove_index _
    | queue _ _ loop cb _ hs => cases htop.symm.trans hs
    | wakeup _ _ loop _ hs => cases htop.symm.trans hs

theorem gone_step {hl : HostLabel T} (hgone : s.Gone) (h : GoesDown io main s)
    (hplaced : Placed io main s) (hgood : TakesDownInOrder s hl)
    (hs : HostSteps io main s hl s') : s'.Gone := by
  refine ⟨(goesDown_step h hplaced hgood hs).2 hgone.down, ?_⟩
  rcases hs.split with ⟨l, rfl, -, hown⟩ | ⟨-, t, old, new, hinter, -⟩ | ⟨rfl, rest, htop, rfl⟩
  · cases hown with
    | run t o i rest c new htop hr =>
      have hinterest : ∀ k, i ≠ .changeInterest k := by
        rintro k rfl
        rcases h with harriving | ⟨-, w, hgoing⟩
        · have hclosing := hgone.down.closing
          rw [harriving.closing] at hclosing
          cases hclosing
        · obtain ⟨rfl, w, rfl, -⟩ := hgoing.head htop rfl
          cases hgoing.stage with
          | disableAll hclosing hstate hreading =>
            have hindex := hreading.1
            rw [hgone.index] at hindex
            cases hindex
      have horder : s.toShared.InOrder i o := hgood i (by simp [htop])
      rcases channel_of_run hgone.down.unwatched hinterest
        (fun p hp hsends => horder.sent p hp hsends hgone.down.closing) hr with hc | hc
      · exact hc ▸ hgone.index
      · rw [hc]
        exact RegisteredChannel.remove_index _
    | _ => exact hgone.index
  · rw [hinter.conn]
    exact hgone.index
  · exact hgone.index

/-! ## The connection is not forgotten -/

/-- `connections_` has the connection, or its destruction is on its way, or it
is gone. -/
def Owed (s : ConnectionRun T) : Prop :=
  s.inConnections = true ∨ (∃ t, ∃ i ∈ s.work t, i.destroys = true) ∨ s.Gone

omit [DecidableEq T] in
theorem Replaces.owed {t : T} {i : Instr T} {old new : List (Instr T)} (h : Replaces s s' t old new)
    (hi : i ∈ new) (hdestroys : i.destroys = true) : Owed s' := by
  obtain ⟨x, -, hwork, -⟩ := h
  exact Or.inr (Or.inl ⟨t, i, by simp [hwork, hi], hdestroys⟩)

theorem owed_exec {t : T} {o : Outcome} {i : Instr T} {rest : List (Instr T)}
    (htop : s.stack t = i :: rest) (hi : i.destroys = true) (hremove : i = .remove → s'.Gone)
    (hs : Steps io main s (.exec t o) s') : Owed s' := by
  cases hs with
  | run _ _ j r c new hs hr =>
    obtain ⟨rfl, rfl⟩ := List.cons.inj (htop.symm.trans hs)
    have hreplaces : Replaces s
      { s with toShared := c, stack := Function.update s.stack t (new ++ rest) } t [i] new :=
      replaces_run hs
    cases i with
    | runInLoop loop f =>
      cases f with
      | connectDestroyed =>
        simp only [Shared.run, Option.some.injEq, Prod.mk.injEq] at hr
        obtain ⟨rfl, rfl⟩ := hr
        split_ifs at hreplaces ⊢
        · exact hreplaces.owed (List.mem_cons_self ..) rfl
        · exact hreplaces.owed (List.mem_cons_self ..) rfl
      | _ => cases hi
    | call f =>
      cases f with
      | connectDestroyed =>
        cases hr
        refine hreplaces.owed (i := .remove) ?_ rfl
        split_ifs <;> simp
      | _ => cases hi
    | remove => exact Or.inr (Or.inr (hremove rfl))
    | queueInLoop loop f => cases hr
    | _ => cases hi
  | queue _ _ loop cb r hs =>
    obtain ⟨rfl, rfl⟩ := List.cons.inj (htop.symm.trans hs)
    obtain ⟨x, -, hwork⟩ := queues_queue hs
    refine Or.inr (Or.inl ⟨loop, .call cb, ?_, ?_⟩)
    · rw [hwork loop]
      simp
    · cases cb <;> first | rfl | cases hi
  | wakeup _ _ loop r hs =>
    obtain ⟨rfl, rfl⟩ := List.cons.inj (htop.symm.trans hs)
    cases hi

theorem owed_step {hl : HostLabel T} (h : Owed s) (hkept : s.Gone → s'.Gone)
    (hremove : ∀ t o rest, s.stack t = .remove :: rest → hl = .own (.exec t o) → s'.Gone)
    (hs : HostSteps io main s hl s') : Owed s' := by
  rcases h with hin | ⟨t, i, hi, hdestroys⟩ | hgone
  · rcases hs.split with ⟨l, rfl, -, hown⟩ | ⟨-, t, old, new, hinter, -⟩ | ⟨rfl, rest, htop, rfl⟩
    · cases hown with
      | run t o i rest c new htop hr =>
        by_cases hi : i = .call .removeConnectionInLoop
        · subst hi
          cases hr
          exact (replaces_run htop).owed (List.mem_cons_self ..) rfl
        · exact Or.inl (((Shared.frame_of_run hr).inConnections hi).trans hin)
      | _ => exact Or.inl hin
    · exact Or.inl (hinter.inConnections.trans hin)
    · exact (replaces_destroy htop).owed (List.mem_cons_self ..) rfl
  · have hforeign : i.foreign = false := by
      cases i with
      | call f | queueInLoop loop f => cases f <;> first | rfl | cases hdestroys
      | wakeup loop => cases hdestroys
      | _ => rfl
    rcases mem_work_host hs hforeign hi with hi | ⟨o, rfl, hhead⟩
    · exact Or.inr (Or.inl ⟨t, i, hi, hdestroys⟩)
    · obtain ⟨rest, htop⟩ := List.head?_eq_some_iff.mp hhead
      cases hs with
      | own _ _ _ hown =>
        refine owed_exec htop hdestroys ?_ hown
        rintro rfl
        exact hremove t o rest htop rfl
  · exact Or.inr (Or.inr (hkept hgone))

theorem owed_of_reachable (h : (hosted io main).Reachable TakesDownInOrder s) : Owed s := by
  refine h.invariant_of (J := fun s => Placed io main s ∧ GoesDown io main s)
    (fun s => goesDown_of_reachable) ?_ ?_
  · exact fun s hinit => Or.inl hinit.inConnections
  · rintro s hl s' howed ⟨hplaced, hgoes⟩ hgood hs
    refine owed_step howed (fun hgone => gone_step hgone hgoes hplaced hgood hs) ?_ hs
    rintro t o rest htop rfl
    exact hgoes.gone_of_remove hplaced hgood htop hs

end ConnectionRun
end MuduoCore
