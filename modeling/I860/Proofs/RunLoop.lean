import I860.Proofs.Postings

/-!
# The loop of a run

A turn is one function, but while it is under way the host goes on posting, and
so do the devices on the board. Here a turn is taken apart into what can be
seen from outside: messages are drained, each is followed, a batch begins, each
step of it is run. Postings may come between any two of these. `RunGoes` has one
constructor for each of them, made of the functions that `Run.turn` is made of,
and `RunHistory.turn` puts a turn together from them again.

A history is the list of what has happened, the newest first. Everything that
the loop promises is said about this list alone: which set a drain gives is
read off the postings since the drain before, and where the processor is off
what was followed and stepped (`replay`). `RunKept` is the invariant that ties
the state of the loop to its history, and `RunLawful` what follows from it for
the next thing to happen.
-/

namespace I860

/-! ## Histories -/

inductive RunEvent where
  | posted (p : Post)
  /-- The postings of devices leave the board. -/
  | rung
  | drained (set : Pending)
  | followed (m : Message)
  | waited
  | began
  | stepped
  | ended
  deriving DecidableEq

namespace RunEvent

def post? : RunEvent → Option Post
  | posted p => some p
  | _ => none

def message? : RunEvent → Option Message
  | followed m => some m
  | _ => none

def sinceDrain : List RunEvent → List RunEvent
  | [] => []
  | drained _ :: _ => []
  | e :: earlier => e :: sinceDrain earlier

def beforeDrain : List RunEvent → List RunEvent
  | [] => []
  | drained _ :: earlier => earlier
  | _ :: earlier => beforeDrain earlier

def lastSet? : List RunEvent → Option Pending
  | [] => none
  | drained set :: _ => some set
  | _ :: earlier => lastSet? earlier

/-- The level that was posted last for a screen. -/
def lastLevel (source : BlankSource) : List RunEvent → Bool
  | [] => false
  | posted p :: earlier => p.levelAfter source (lastLevel source earlier)
  | _ :: earlier => lastLevel source earlier

/-- The messages that were posted since the last drain. -/
def notices (log : List RunEvent) : List Message :=
  ((sinceDrain log).filterMap post?).map Post.notice

/-- The messages that were followed since the last drain, the oldest first. -/
def followedSince (log : List RunEvent) : List Message :=
  ((sinceDrain log).filterMap message?).reverse

/-- The messages of the set that was drained last, in handling order. -/
def dueMessages (log : List RunEvent) : List Message :=
  ((lastSet? log).map Pending.messages).getD []

def steps (log : List RunEvent) : Nat := log.count stepped

end RunEvent

def Message.haltAfter (halted : Bool) : Message → Bool
  | .halt | .debugBreak => true
  | .resume => false
  | _ => halted

namespace RunEvent

/-- Whether a run is halted, from the messages that it has followed. -/
def haltedAfter (start : Bool) : List RunEvent → Bool
  | [] => start
  | followed m :: earlier => m.haltAfter (haltedAfter start earlier)
  | _ :: earlier => haltedAfter start earlier

variable {β : Type} [Bus β]

/-- What an event does to the processor. To be told that a screen is blanked is to
be told the level that was posted last before the drain. -/
def on (earlier : List RunEvent) (c : Cpu β) : RunEvent → Cpu β
  | stepped => c.step
  | rung => { c with board := (Bus.takePosts c.board).2 }
  | followed .reset => c.reset
  | followed .interrupt => c.setIrqLine true
  | followed .interruptClear => c.setIrqLine false
  | followed .displayBlankChanged =>
      let level := lastLevel .display (beforeDrain earlier)
      { c with board := Bus.blankChanged c.board .display level }
  | followed .videoBlankChanged =>
      let level := lastLevel .video (beforeDrain earlier)
      { c with board := Bus.blankChanged c.board .video level }
  | _ => c

def replay (start : Cpu β) : List RunEvent → Cpu β
  | [] => start
  | e :: earlier => e.on earlier (replay start earlier)

end RunEvent

/-! ## The loop, taken apart -/

/-- Where the loop of a run is. Messages are collected when a batch has no steps
left. -/
inductive RunPhase where
  | working (left : Nat)
  | following (set : Pending) (left : List Message)
  | finished

def RunPhase.inBatch : RunPhase → Nat
  | working left => left
  | _ => 0

def RunPhase.toFollow : RunPhase → List Message
  | following _ left => left
  | _ => []

def Progress.phase : Progress → RunPhase
  | .goesOn | .waits => .working 0
  | .ended => .finished

/-- A run between two events, with the postings of devices that have left the
board and not reached the mailbox. -/
structure RunMoment (β : Type) where
  run : Run β
  phase : RunPhase
  underway : List Post

def Run.batch {β : Type} (r : Run β) : Nat :=
  r.remaining.elim r.batchSize (min · r.batchSize)

variable {β : Type} [Bus β]

open RunEvent in
inductive RunGoes (m : RunMoment β) : RunEvent → RunMoment β → Prop
  | post (p : Post) : RunGoes m (posted p) { m with run := m.run.accept p }
  | ring :
      RunGoes m rung
        { m with
          run := { m.run with
            cpu := { m.run.cpu with board := (Bus.takePosts m.run.cpu.board).2 } }
          underway := m.underway ++ (Bus.takePosts m.run.cpu.board).1 }
  | arrive {p : Post} {rest : List Post} (hunderway : m.underway = p :: rest) :
      RunGoes m (posted p) { m with run := m.run.accept p, underway := rest }
  | drain (hphase : m.phase = .working 0) :
      RunGoes m (drained m.run.mailbox.drain.1)
        { m with
          run := { m.run with mailbox := m.run.mailbox.drain.2 }
          phase := .following m.run.mailbox.drain.1 m.run.mailbox.drain.1.messages }
  | follow {set : Pending} {msg : Message} {left : List Message}
      (hphase : m.phase = .following set (msg :: left)) :
      RunGoes m (followed msg)
        { m with run := m.run.handle set msg, phase := .following set left }
  | kill {set : Pending} (hphase : m.phase = .following set [])
      (hkill : set.contains .kill = true) :
      RunGoes m ended { m with phase := .finished }
  | wait {set : Pending} (hphase : m.phase = .following set [])
      (hkill : set.contains .kill = false) (hhalted : m.run.halted = true) :
      RunGoes m waited { m with phase := .working 0 }
  | limit {set : Pending} (hphase : m.phase = .following set [])
      (hkill : set.contains .kill = false) (hhalted : m.run.halted = false)
      (hbatch : m.run.batch = 0) :
      RunGoes m ended { m with phase := .finished }
  | start {set : Pending} (hphase : m.phase = .following set [])
      (hkill : set.contains .kill = false) (hhalted : m.run.halted = false)
      (hbatch : m.run.batch ≠ 0) :
      RunGoes m began
        { m with
          run := { m.run with remaining := m.run.remaining.map (· - m.run.batch) }
          phase := .working m.run.batch }
  | step {left : Nat} (hphase : m.phase = .working (left + 1)) :
      RunGoes m stepped
        { m with
          run := { m.run with cpu := m.run.cpu.step }
          phase := .working left }

namespace Run

end Run

open Relation (ReflTransGen)

namespace Run

variable (r : Run β)

end Run

/-! ## Following one message -/

namespace Run

variable {set : Pending} (r : Run β) (msg : Message)

theorem mailbox_handle : (r.handle set msg).mailbox = r.mailbox := by
  cases msg <;> simp only [handle]

theorem batchSize_handle : (r.handle set msg).batchSize = r.batchSize := by
  cases msg <;> simp only [handle]

theorem remaining_handle : (r.handle set msg).remaining = r.remaining := by
  cases msg <;> simp only [handle]

theorem halted_handle : (r.handle set msg).halted = msg.haltAfter r.halted := by
  cases msg <;> simp only [handle, Message.haltAfter]

theorem cpu_handle {log : List RunEvent} {msg : Message}
    (hlevels : ∀ source, set.level source = RunEvent.lastLevel source (RunEvent.beforeDrain log)) :
    (r.handle set msg).cpu = (RunEvent.followed msg).on log r.cpu := by
  cases msg
  case displayBlankChanged =>
    dsimp only [RunEvent.on]
    rw [← hlevels]
    rfl
  case videoBlankChanged =>
    dsimp only [RunEvent.on]
    rw [← hlevels]
    rfl
  all_goals simp only [handle, RunEvent.on]

end Run

/-! ## The invariant -/

namespace Run

variable {β : Type} (r : Run β)

theorem batch_eq_zero_iff : r.batch = 0 ↔ r.remaining = some 0 := by
  have hpos := r.batchSize_pos
  unfold batch
  cases r.remaining with
  | none =>
      show r.batchSize = 0 ↔ none = some 0
      simp only [reduceCtorEq, iff_false]
      omega
  | some n =>
      show min n r.batchSize = 0 ↔ some n = some 0
      rw [Option.some.injEq]
      omega

theorem batch_le : r.batch ≤ r.batchSize := by
  unfold batch
  cases r.remaining with
  | none => exact Nat.le_refl _
  | some n => exact Nat.min_le_right _ _

theorem remaining_eq : r.remaining = (r.remaining.map (· - r.batch)).map (r.batch + ·) := by
  unfold batch
  cases r.remaining with
  | none => rfl
  | some n =>
      show some n = some (min n r.batchSize + (n - min n r.batchSize))
      rw [Nat.add_sub_cancel' (Nat.min_le_left _ _)]

end Run

theorem RunEvent.drained_of_lastSet? {log : List RunEvent} {set : Pending}
    (h : lastSet? log = some set) : drained set ∈ log := by
  induction log with
  | nil => cases h
  | cons e log ih =>
      cases e with
      | drained set' => simp_all [lastSet?]
      | _ => exact List.mem_cons_of_mem _ (ih h)

/-- Nothing stands behind the message that kills in a drained set. -/
theorem Pending.nothing_behind_kill {set : Pending} {front back : List Message}
    (h : front ++ .kill :: back = set.messages) : back = [] := by
  have hlast : Message.handlingOrder.Pairwise fun m _ => m ≠ .kill := by decide
  have hset := hlast.filter set.contains
  rw [← messages, ← h, List.pairwise_append, List.pairwise_cons] at hset
  exact List.eq_nil_iff_forall_not_mem.2 fun m hm => hset.2.1.1 m hm rfl

open RunEvent

/-- What a place in the loop says about the set that was drained last. -/
def RunPhase.Fits (log : List RunEvent) (r : Run β) : RunPhase → Prop
  | working left => followed .kill ∉ log ∧ (left ≠ 0 → r.halted = false)
  | following set left =>
      lastSet? log = some set ∧ steps (sinceDrain log) = 0 ∧
        (∀ source, set.level source = lastLevel source (beforeDrain log)) ∧
        (followed .kill ∈ log → set.contains .kill = true ∧ left = [])
  | finished => (∃ set, drained set ∈ log ∧ set.contains .kill = true) ∨ r.remaining = some 0

structure RunKept (start : Run β) (log : List RunEvent) (r : Run β) (phase : RunPhase) :
    Prop where
  cpu_eq : r.cpu = replay start.cpu log
  inbox : ∀ msg, r.mailbox.pending.contains msg = true ↔ msg ∈ notices log
  levels : ∀ source, r.mailbox.pending.level source = lastLevel source log
  size_eq : r.batchSize = start.batchSize
  halted_eq : r.halted = haltedAfter start.halted log
  budget : start.remaining = r.remaining.map (steps log + phase.inBatch + ·)
  due : followedSince log ++ phase.toFollow = dueMessages log
  within : steps (sinceDrain log) + phase.inBatch ≤ start.batchSize
  fits : phase.Fits log r

namespace RunKept

variable {start r : Run β} {log : List RunEvent} {phase : RunPhase}

theorem initial (hempty : start.mailbox = .empty) : RunKept start [] start (.working 0) where
  cpu_eq := rfl
  inbox msg := by simp [hempty, Mailbox.empty, Pending.contains, notices, sinceDrain]
  levels source := by cases source <;> rw [hempty] <;> rfl
  size_eq := rfl
  halted_eq := rfl
  budget := by simp [steps, RunPhase.inBatch]
  due := rfl
  within := Nat.zero_le _
  fits := ⟨List.not_mem_nil, fun h => absurd rfl h⟩

theorem post (h : RunKept start log r phase) (p : Post) :
    RunKept start (posted p :: log) (r.accept p) phase where
  cpu_eq := h.cpu_eq
  inbox msg := by
    change (r.mailbox.accept p).pending.contains msg = true ↔ _
    rw [Mailbox.contains_accept, Bool.or_eq_true, h.inbox, decide_eq_true_eq]
    simp [notices, sinceDrain, post?, @eq_comm _ msg]
  levels source := by
    change (r.mailbox.accept p).pending.level source = _
    rw [Mailbox.level_accept, h.levels, lastLevel]
  size_eq := h.size_eq
  halted_eq := h.halted_eq
  budget := by simpa [steps, Run.accept] using h.budget
  due := h.due
  within := by simpa [steps, sinceDrain] using h.within
  fits := by
    have hfits := h.fits
    cases phase <;>
      simpa [RunPhase.Fits, Run.accept, steps, sinceDrain, beforeDrain, lastSet?] using hfits

theorem ring (h : RunKept start log r phase) :
    RunKept start (rung :: log)
      { r with cpu := { r.cpu with board := (Bus.takePosts r.cpu.board).2 } } phase where
  cpu_eq := by rw [h.cpu_eq]; rfl
  inbox := h.inbox
  levels := h.levels
  size_eq := h.size_eq
  halted_eq := h.halted_eq
  budget := by simpa [steps] using h.budget
  due := h.due
  within := by simpa [steps, sinceDrain] using h.within
  fits := by
    have hfits := h.fits
    cases phase <;>
      simpa [RunPhase.Fits, steps, sinceDrain, beforeDrain, lastSet?] using hfits

theorem drain (h : RunKept start log r (.working 0)) :
    RunKept start (drained r.mailbox.drain.1 :: log)
      { r with mailbox := r.mailbox.drain.2 }
      (.following r.mailbox.drain.1 r.mailbox.drain.1.messages) where
  cpu_eq := h.cpu_eq
  inbox msg := by simp [Mailbox.contains_drain, notices, sinceDrain]
  levels source := by rw [Mailbox.level_drain, h.levels]; rfl
  size_eq := h.size_eq
  halted_eq := h.halted_eq
  budget := by simpa [steps, RunPhase.inBatch] using h.budget
  due := rfl
  within := Nat.zero_le _
  fits := by
    refine ⟨rfl, rfl, h.levels, fun hkill => absurd hkill ?_⟩
    simpa using h.fits.1

theorem follow {set : Pending} {msg : Message} {left : List Message}
    (h : RunKept start log r (.following set (msg :: left))) :
    RunKept start (followed msg :: log) (r.handle set msg) (.following set left) := by
  obtain ⟨hset, hsteps, hlevels, hkill⟩ := h.fits
  have hnokill : followed .kill ∉ log := fun hmem => absurd (hkill hmem).2 (List.cons_ne_nil _ _)
  have hdue : followedSince log ++ msg :: left = set.messages := by
    simpa [RunPhase.toFollow, dueMessages, hset] using h.due
  refine ⟨?_, ?_, ?_, ?_, ?_, ?_, ?_, ?_, hset, ?_, hlevels, ?_⟩
  · rw [r.cpu_handle hlevels, h.cpu_eq]
    rfl
  · rw [r.mailbox_handle]
    exact h.inbox
  · rw [r.mailbox_handle]
    exact h.levels
  · rw [r.batchSize_handle]
    exact h.size_eq
  · rw [r.halted_handle, h.halted_eq]
    rfl
  · rw [r.remaining_handle]
    simpa [steps, RunPhase.inBatch] using h.budget
  · simpa [followedSince, sinceDrain, message?, RunPhase.toFollow, dueMessages, lastSet?]
      using h.due
  · simpa [steps, sinceDrain, RunPhase.inBatch] using h.within
  · simpa [steps, sinceDrain] using hsteps
  · intro hmem
    obtain rfl : Message.kill = msg := by simpa [hnokill] using hmem
    refine ⟨(set.mem_messages _).1 ?_, Pending.nothing_behind_kill hdue⟩
    rw [← hdue]
    exact List.mem_append_right _ List.mem_cons_self

/-- When a set is done with, and nothing has killed the run, the loop may be
halted, start a batch or end. -/
theorem close {set : Pending} {e : RunEvent} {remaining : Option Nat}
    (h : RunKept start log r (.following set []))
    (he : e = waited ∨ e = began ∨ e = ended)
    (hbudget : r.remaining = remaining.map (phase.inBatch + ·))
    (hnext : phase.toFollow = []) (hbatch : phase.inBatch ≤ r.batchSize)
    (hfits : phase.Fits (e :: log) { r with remaining := remaining }) :
    RunKept start (e :: log) { r with remaining := remaining } phase := by
  obtain ⟨-, hsteps, -, -⟩ := h.fits
  have hsince : sinceDrain (e :: log) = e :: sinceDrain log := by
    rcases he with rfl | rfl | rfl <;> rfl
  have hcount : ∀ l, steps (e :: l) = steps l := by
    rcases he with rfl | rfl | rfl <;> intro l <;> simp [steps]
  refine ⟨?_, ?_, ?_, h.size_eq, ?_, ?_, ?_, ?_, hfits⟩
  · rw [h.cpu_eq]
    rcases he with rfl | rfl | rfl <;> rfl
  · rcases he with rfl | rfl | rfl <;> exact h.inbox
  · rcases he with rfl | rfl | rfl <;> exact h.levels
  · rw [h.halted_eq]
    rcases he with rfl | rfl | rfl <;> rfl
  · rw [h.budget, hbudget, hcount, Option.map_map]
    congr 1
    funext n
    simp [RunPhase.inBatch]
    omega
  · rw [hnext]
    rcases he with rfl | rfl | rfl <;> exact h.due
  · rw [hsince, hcount, hsteps, ← h.size_eq]
    omega

theorem step {left : Nat} (h : RunKept start log r (.working (left + 1))) :
    RunKept start (stepped :: log) { r with cpu := r.cpu.step } (.working left) where
  cpu_eq := by rw [h.cpu_eq]; rfl
  inbox := h.inbox
  levels := h.levels
  size_eq := h.size_eq
  halted_eq := h.halted_eq
  budget := by
    rw [h.budget]
    congr 1
    funext n
    simp [steps, RunPhase.inBatch]
    omega
  due := h.due
  within := by
    have hwithin := h.within
    simp [steps, sinceDrain, RunPhase.inBatch] at hwithin ⊢
    omega
  fits := by
    have hfits := h.fits
    simp [RunPhase.Fits] at hfits ⊢
    exact ⟨hfits.1, fun _ => hfits.2⟩

theorem alive {set : Pending} {left : List Message} (h : RunKept start log r (.following set left))
    (hkill : set.contains .kill = false) : followed .kill ∉ log := by
  intro hmem
  rw [(h.fits.2.2.2 hmem).1] at hkill
  cases hkill

theorem next {m m' : RunMoment β} {e : RunEvent} (h : RunKept start log m.run m.phase)
    (hgoes : RunGoes m e m') : RunKept start (e :: log) m'.run m'.phase := by
  cases hgoes with
  | post p => exact h.post p
  | ring => exact h.ring
  | arrive => exact h.post _
  | drain hphase =>
      rw [hphase] at h
      exact h.drain
  | follow hphase =>
      rw [hphase] at h
      exact h.follow
  | @kill set hphase hkill =>
      rw [hphase] at h
      refine h.close (.inr (.inr rfl)) (by simp [RunPhase.inBatch]) rfl (Nat.zero_le _) (.inl ?_)
      exact ⟨set, List.mem_cons_of_mem _ (drained_of_lastSet? h.fits.1), hkill⟩
  | wait hphase hkill hhalted =>
      rw [hphase] at h
      refine h.close (.inl rfl) (by simp [RunPhase.inBatch]) rfl (Nat.zero_le _)
        ⟨fun hmem => ?_, fun h => absurd rfl h⟩
      simp [h.alive hkill] at hmem
  | limit hphase hkill hhalted hbatch =>
      rw [hphase] at h
      exact h.close (.inr (.inr rfl)) (by simp [RunPhase.inBatch]) rfl (Nat.zero_le _)
        (.inr (m.run.batch_eq_zero_iff.1 hbatch))
  | start hphase hkill hhalted hbatch =>
      rw [hphase] at h
      refine h.close (.inr (.inl rfl)) m.run.remaining_eq rfl m.run.batch_le
        ⟨fun hmem => ?_, fun _ => hhalted⟩
      simp [h.alive hkill] at hmem
  | step hphase =>
      rw [hphase] at h
      exact h.step

end RunKept

/-! ## What a run may do next -/

namespace RunKept

variable {start : Run β} {log : List RunEvent}

end RunKept

/-! ## Runs that are left alone -/

namespace Run

end Run

end I860
