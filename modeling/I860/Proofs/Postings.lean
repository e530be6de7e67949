import I860.Board.OpenMemory
import I860.Host.Run
import I860.Proofs.Steps

/-!
# What a run finds in its mailbox

The mailbox keeps a set of messages and two levels, and forgets everything
else about the postings it has taken in: how often a message was posted, and
in which order (`Mailbox.contains_accepted`, `Mailbox.level_accept`). A run
follows the messages of a set in one fixed order, the handling order.

For most messages this is no loss. The two for the interrupt pin are the
exception. They contradict each other, a run follows the one that clears the
pin behind the one that raises it, and so a set with both leaves the pin down,
whichever was posted last (`pin_after_drain`).
-/

namespace I860

/-! ## Postings -/

/-- The message that a posting puts into the mailbox. -/
def Post.notice : Post → Message
  | .message m => m
  | .blank .display _ => .displayBlankChanged
  | .blank .video _ => .videoBlankChanged

/-- The level of a screen behind a posting. -/
def Post.levelAfter (source : BlankSource) (level : Bool) : Post → Bool
  | .message _ => level
  | .blank other posted => if other = source then posted else level

/-- The level that is on its way to the board for a screen. -/
def Pending.level (p : Pending) : BlankSource → Bool
  | .display => p.displayBlank
  | .video => p.videoBlank

theorem Message.bit_and_bit_eq_zero_iff (m m' : Message) :
    m.bit &&& m'.bit = 0#16 ↔ m ≠ m' := by
  cases m <;> cases m' <;> decide

namespace Mailbox

variable (box : Mailbox)

theorem contains_post (m m' : Message) :
    (box.post m).pending.contains m' = (decide (m = m') || box.pending.contains m') := by
  have hbit := m.bit_and_bit_eq_zero_iff m'
  rw [Bool.eq_iff_iff]
  simp only [post, Pending.contains, BitVec.and_or_distrib_right, bne_iff_ne, ne_eq,
    BitVec.or_eq_zero_iff, hbit, Bool.or_eq_true, decide_eq_true_eq]
  by_cases hsame : m = m'
  · simp [hsame]
  · simp [hsame]

theorem contains_accept (p : Post) (m : Message) :
    (box.accept p).pending.contains m =
      (decide (p.notice = m) || box.pending.contains m) := by
  match p with
  | .message m' => exact box.contains_post m' m
  | .blank .display _ => exact contains_post ⟨{ box.pending with displayBlank := _ }⟩ _ m
  | .blank .video _ => exact contains_post ⟨{ box.pending with videoBlank := _ }⟩ _ m

theorem level_accept (p : Post) (source : BlankSource) :
    (box.accept p).pending.level source = p.levelAfter source (box.pending.level source) := by
  match p, source with
  | .message _, .display | .message _, .video => rfl
  | .blank .display _, .display | .blank .display _, .video => rfl
  | .blank .video _, .display | .blank .video _, .video => rfl

theorem contains_drain (m : Message) : box.drain.2.pending.contains m = false := by
  simp [drain, Pending.contains]

theorem level_drain (source : BlankSource) :
    box.drain.2.pending.level source = box.pending.level source := by
  cases source <;> rfl

/-- A message is there iff it was there or has been posted. -/
theorem contains_accepted (posts : List Post) (m : Message) :
    (posts.foldl accept box).pending.contains m = true ↔
      box.pending.contains m = true ∨ m ∈ posts.map Post.notice := by
  induction posts generalizing box with
  | nil => simp
  | cons p posts ih =>
      rw [List.foldl_cons, ih, contains_accept]
      simp only [Bool.or_eq_true, decide_eq_true_eq, List.map_cons, List.mem_cons]
      rw [or_assoc, or_left_comm, @eq_comm _ m]

end Mailbox

theorem Pending.mem_messages (p : Pending) (m : Message) :
    m ∈ p.messages ↔ p.contains m = true := by
  have hall : m ∈ Message.handlingOrder := by
    cases m <;> decide
  simp [messages, hall]

namespace Run

variable {β : Type}

/-- Postings of the host reach nothing but the mailbox. -/
theorem foldl_accept (r : Run β) (posts : List Post) :
    posts.foldl accept r = { r with mailbox := posts.foldl Mailbox.accept r.mailbox } := by
  induction posts generalizing r with
  | nil => rfl
  | cons p posts ih =>
      rw [List.foldl_cons, ih]
      rfl

variable [Bus β]

/-- The run after it has followed a set of messages, in their fixed order. -/
def follow (r : Run β) (pending : Pending) : Run β :=
  pending.messages.foldl (handle pending) r

/-- What is drained are the postings that were in the mailbox and those that
devices have made. -/
theorem drain_eq (r : Run β) :
    r.drain =
      (((Bus.takePosts r.cpu.board).1.foldl Mailbox.accept r.mailbox).pending,
        { r with
          cpu := { r.cpu with board := (Bus.takePosts r.cpu.board).2 }
          mailbox :=
            ((Bus.takePosts r.cpu.board).1.foldl Mailbox.accept r.mailbox).drain.2 }) := by
  unfold drain collect
  dsimp only
  rw [foldl_accept]
  rfl

end Run

/-! ## The interrupt pin -/

/-- The level of the interrupt pin that a message asks for, if it is about the
pin. -/
def Message.pin? : Message → Option Bool
  | .interrupt => some true
  | .interruptClear => some false
  | _ => none

/-- The level that was asked for last. -/
def askedPin? (posts : List Post) : Option Bool :=
  (posts.filterMap fun p => p.notice.pin?).getLast?

theorem Cpu.irqLine_reset {β : Type} (c : Cpu β) : c.reset.irqLine = c.irqLine := by
  unfold reset
  rfl

theorem Cpu.int_reset {β : Type} (c : Cpu β) : c.reset.control.epsr.int = c.irqLine := by
  unfold reset resetControl
  rfl

namespace Run

variable {β : Type} [Bus β] (levels : Pending)

theorem irqLine_handle (r : Run β) (m : Message) :
    (r.handle levels m).cpu.irqLine = m.pin?.getD r.cpu.irqLine := by
  cases m
  case reset => exact r.cpu.irqLine_reset
  all_goals rfl

/-- The status bit shows the pin behind each message that is about the pin, and
no message parts the two. -/
theorem int_handle (r : Run β) (m : Message)
    (h : m.pin?.isSome = true ∨ r.cpu.control.epsr.int = r.cpu.irqLine) :
    (r.handle levels m).cpu.control.epsr.int = (r.handle levels m).cpu.irqLine := by
  cases m
  case interrupt | interruptClear => rfl
  case reset => exact r.cpu.int_reset.trans r.cpu.irqLine_reset.symm
  all_goals exact h.resolve_left Bool.false_ne_true

theorem irqLine_foldl_handle (r : Run β) (ms : List Message) :
    (ms.foldl (handle levels) r).cpu.irqLine =
      (ms.filterMap Message.pin?).getLast?.getD r.cpu.irqLine := by
  induction ms generalizing r with
  | nil => rfl
  | cons m ms ih =>
      rw [List.foldl_cons, ih, irqLine_handle]
      cases hpin : m.pin? with
      | none => simp [hpin]
      | some level =>
          simp only [List.filterMap_cons, hpin, Option.getD_some, List.getLast?_cons]

theorem int_foldl_handle (r : Run β) (ms : List Message)
    (h : (∃ m ∈ ms, m.pin?.isSome = true) ∨ r.cpu.control.epsr.int = r.cpu.irqLine) :
    (ms.foldl (handle levels) r).cpu.control.epsr.int =
      (ms.foldl (handle levels) r).cpu.irqLine := by
  induction ms generalizing r with
  | nil => exact h.resolve_left (by simp)
  | cons m ms ih =>
      apply ih
      obtain ⟨m', hmem, hpin⟩ | hshown := h
      · obtain rfl | hmem := List.mem_cons.1 hmem
        · exact .inr (int_handle levels r m' (.inl hpin))
        · exact .inl ⟨m', hmem, hpin⟩
      · exact .inr (int_handle levels r m (.inr hshown))

end Run

/-- The handling order puts the message that clears the pin behind the one that
raises it. -/
theorem Pending.pins (p : Pending) :
    p.messages.filterMap Message.pin? =
      (if p.contains .interrupt then [true] else []) ++
        (if p.contains .interruptClear then [false] else []) := by
  have hpins : Message.handlingOrder.filterMap
      (fun m => if p.contains m then m.pin? else none) =
      (if p.contains .interrupt then [true] else []) ++
        (if p.contains .interruptClear then [false] else []) := by
    simp only [Message.handlingOrder, Message.pin?, List.filterMap_cons, List.filterMap_nil,
      ite_self]
    cases p.contains .interrupt <;> cases p.contains .interruptClear <;> rfl
  rw [← hpins, messages, List.filterMap_filter]

theorem Post.notice_eq_interruptClear_iff (p : Post) :
    p.notice = .interruptClear ↔ p = .message .interruptClear := by
  match p with
  | .message m => simp [notice]
  | .blank .display _ | .blank .video _ => simp [notice]

theorem mem_notices_of_askedPin? {posts : List Post} {level : Bool}
    (h : askedPin? posts = some level) :
    (if level then Message.interrupt else .interruptClear) ∈ posts.map Post.notice := by
  obtain ⟨p, hmem, hpin⟩ := List.mem_filterMap.1 (List.mem_of_getLast? h)
  refine List.mem_map.2 ⟨p, hmem, ?_⟩
  generalize p.notice = m at hpin
  cases m with
  | interrupt => cases hpin; rfl
  | interruptClear => cases hpin; rfl
  | _ => cases hpin

namespace Run

variable {β : Type} [Bus β]

theorem contains_drain (r : Run β) (posts : List Post) (m : Message) :
    (posts.foldl accept r).drain.1.contains m = true ↔
      r.mailbox.pending.contains m = true ∨
        m ∈ (posts ++ (Bus.takePosts r.cpu.board).1).map Post.notice := by
  rw [drain_eq, foldl_accept, ← Mailbox.contains_accepted, List.foldl_append]

theorem irqLine_follow (r : Run β) (p : Pending) :
    (r.follow p).cpu.irqLine =
      if p.contains .interruptClear then false
      else if p.contains .interrupt then true
      else r.cpu.irqLine := by
  rw [follow, irqLine_foldl_handle, Pending.pins]
  cases p.contains .interrupt <;> cases p.contains .interruptClear <;> rfl

theorem int_follow (r : Run β) (p : Pending) {m : Message} (hpin : m.pin?.isSome = true)
    (hmem : p.contains m = true) :
    (r.follow p).cpu.control.epsr.int = (r.follow p).cpu.irqLine :=
  int_foldl_handle p r p.messages (.inl ⟨m, (p.mem_messages m).2 hmem, hpin⟩)

end Run

/-- Postings have come into an empty mailbox, from the host and from devices,
and the last of them about the interrupt pin asks for a level. When the run has
followed what it drains, whatever else is in the set, the status bit shows the
pin, and the pin has that level, unless it was to be raised and the set holds
the message that clears it as well. -/
theorem pin_after_drain {β : Type} [Bus β] (r : Run β) (posts : List Post) (level : Bool)
    (hempty : r.mailbox.pending.isEmpty = true)
    (hasked : askedPin? (posts ++ (Bus.takePosts r.cpu.board).1) = some level) :
    let drained := (posts.foldl Run.accept r).drain
    let after := (drained.2.follow drained.1).cpu
    after.control.epsr.int = after.irqLine ∧
      (after.irqLine = level ↔
        ¬(level = true ∧
          .message .interruptClear ∈ posts ++ (Bus.takePosts r.cpu.board).1)) := by
  intro drained after
  have hset : ∀ m, drained.1.contains m = true ↔
      m ∈ (posts ++ (Bus.takePosts r.cpu.board).1).map Post.notice := by
    intro m
    have hbits : r.mailbox.pending.bits = 0#16 := by simpa [Pending.isEmpty] using hempty
    rw [Run.contains_drain]
    simp [Pending.contains, hbits]
  have hclear : drained.1.contains .interruptClear = true ↔
      .message .interruptClear ∈ posts ++ (Bus.takePosts r.cpu.board).1 := by
    rw [hset, List.mem_map]
    simp only [Post.notice_eq_interruptClear_iff, exists_eq_right]
  have hasked' := (hset _).2 (mem_notices_of_askedPin? hasked)
  have hpin : after.irqLine = _ := drained.2.irqLine_follow drained.1
  rw [← hclear, hpin]
  cases level with
  | true =>
      have hraised : drained.1.contains .interrupt = true := hasked'
      refine ⟨hpin ▸ drained.2.int_follow drained.1 rfl hraised, ?_⟩
      simp [hraised]
  | false =>
      have hcleared : drained.1.contains .interruptClear = true := hasked'
      refine ⟨hpin ▸ drained.2.int_follow drained.1 rfl hcleared, ?_⟩
      simp [hcleared]

/-- A run of a processor on blank memory, with the interrupt pin up. -/
def pinnedRun : Run OpenMemory :=
  .new ((Cpu.powerUp .blank .default).reset.setIrqLine true) Config.default.run

/-- The pin is cleared and raised, and then cleared; a reset and a halt are
pending beside that. -/
theorem pin_after_drain_of_clear :
    let posts : List Post :=
      [.message .interruptClear, .message .reset, .message .interrupt, .message .halt,
        .message .interruptClear]
    let drained := (posts.foldl Run.accept pinnedRun).drain
    let after := (drained.2.follow drained.1).cpu
    askedPin? posts = some false ∧ after.irqLine = false ∧ after.control.epsr.int = false := by
  intro posts drained after
  have hasked : askedPin? (posts ++ (Bus.takePosts pinnedRun.cpu.board).1) = some false := rfl
  obtain ⟨hint, hpin⟩ := pin_after_drain pinnedRun posts false rfl hasked
  have hdown := hpin.2 fun h => Bool.false_ne_true h.1
  exact ⟨hasked, hdown, hint.trans hdown⟩

/-- The pin is up, is cleared, and is raised again before the run collects its
messages. The pin ends down, and the interrupt is lost. -/
theorem raised_pin_is_lost :
    let posts : List Post := [.message .interruptClear, .message .interrupt]
    let drained := (posts.foldl Run.accept pinnedRun).drain
    let after := (drained.2.follow drained.1).cpu
    pinnedRun.mailbox.pending.isEmpty = true ∧ pinnedRun.cpu.irqLine = true ∧
      askedPin? (posts ++ (Bus.takePosts pinnedRun.cpu.board).1) = some true ∧
      after.irqLine = false ∧ after.control.epsr.int = false := by
  decide +kernel

end I860
