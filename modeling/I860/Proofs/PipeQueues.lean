import I860.Proofs.Bypass

/-!
# Pipes are queues

Over a whole session, what comes out of a pipe is what went into it, in order
and as many issues later as the pipe is deep. The log of the session has every
instruction that was executed to its end, so this is a statement about the log:
of the issues to a pipe, take what each has computed and what each has retired,
and compare the two lists. As long as all issues pass through the same number of
stages the contents before and what is computed are, in this order, what is
retired and the contents after (`Flows.fifo`). This holds for the adder, the
load pipe and the graphics pipe always, and for the multiplier over any stretch
of the log that does not change its depth.

What an instruction computes, or loads, is a matter of the state before it
(`Instruction.result`). No pipe is looked at for it but for operands, and that
this is what the pipe has afterwards in its first stage has to be proved
(`execute_result`).

Faults, traps, interrupts and returns from traps have no place in the statement
because they are interludes, and interludes leave the pipes alone.
-/

namespace I860

variable {β : Type}

namespace PipeDepth

/-- How many stages there are. -/
def stages : PipeDepth → Nat
  | .one => 1
  | .two => 2
  | .three => 3

end PipeDepth

/-- The depth of a pipe, if all instructions agree on it. -/
def PipeName.fixedDepth? : PipeName → Option PipeDepth
  | .adder => some .three
  | .multiplier => none
  | .loads => some .three
  | .graphics => some .one

theorem PipeName.issueDepth_eq {p : PipeName} {depth : PipeDepth}
    (hfixed : p.fixedDepth? = some depth) (i : Instruction) :
    i.issueDepth p = none ∨ i.issueDepth p = some depth := by
  cases p with
  | adder =>
      cases hfixed
      unfold Instruction.issueDepth
      dsimp only
      split
      case h_8 => exact .inr rfl
      case h_9 => exact .inl rfl
      all_goals
        split
        · exact .inr rfl
        · exact .inl rfl
  | multiplier => cases hfixed
  | loads =>
      cases hfixed
      unfold Instruction.issueDepth
      dsimp only
      split
      · exact .inr rfl
      · exact .inl rfl
  | graphics =>
      cases hfixed
      unfold Instruction.issueDepth
      dsimp only
      split
      case h_8 => exact .inl rfl
      all_goals
        split
        · exact .inr rfl
        · exact .inl rfl

/-- The first stages of a pipe, oldest slot first. -/
def Pipe.contents (p : Pipe) (depth : PipeDepth) : List PipeSlot :=
  (p.stages.take depth.stages).reverse

theorem Pipe.length_contents (p : Pipe) (depth : PipeDepth) :
    (p.contents depth).length = depth.stages := by
  cases depth <;> rfl

theorem Pipe.contents_empty (depth : PipeDepth) :
    Pipe.empty.contents depth = List.replicate depth.stages .empty := by
  cases depth <;> rfl

/-- An issue pushes a slot in at one end and another one out at the other. -/
theorem Pipe.contents_advance (p : Pipe) (depth : PipeDepth) (slot : PipeSlot) :
    p.contents depth ++ [slot] = p.last depth :: (p.advance depth slot).contents depth := by
  cases depth <;> rfl

/-! ## What is put in -/

section Results

open Execute

variable [Bus β]

namespace Instruction

variable (i : Instruction) (c : Cpu β)

/-- What a load through the pipe finds in memory. -/
def loaded : PipeSlot :=
  match readMem (effectiveAddr c i (floatWidth i)) (floatWidth i) c with
  | .ok v _ => .ofLoaded (floatWidth i) v
  | .error _ _ => .empty

/-- The first source as an integer, which is what `fix` and `ftrunc` compute. -/
def converted (truncate : Bool) : PipeSlot :=
  let v := c.fpu.toInt (readOperand c.regs.floats i.src1 i.doubleSource) truncate
  .ofBits ((BitVec.ofInt 32 v).setWidth 64) true

/-- The first source with the precision of the result. -/
def moved : PipeSlot :=
  let v := readOperand c.regs.floats i.src1 i.doubleSource
  if i.doubleResult then .ofDouble v else .ofSingle (narrowNearest v)

/-- What the instruction puts into a pipe that it issues to. -/
def result (p : PipeName) : PipeSlot :=
  match i.op with
  | .fix => i.converted c false
  | .ftrunc => i.converted c true
  | .famov => i.moved c
  | .form => .ofBits (readBits c.regs.floats i.src1 true ||| c.regs.merge) true
  | .pfld => i.loaded c
  | _ => i.resultWith c (i.second c) p

end Instruction

variable {i : Instruction} {c d : Cpu β} {p : PipeName} {depth : PipeDepth}

omit [Bus β] in
/-- Five instructions issue something else than what they compute from a second
source. -/
theorem issues_cases (hdepth : i.issueDepth p = some depth) :
    i.issuesSecond = true ∨
      (p = .adder ∧ i.pipelined = true ∧ (i.op = .fix ∨ i.op = .ftrunc ∨ i.op = .famov)) ∨
      (p = .graphics ∧ i.pipelined = true ∧ i.op = .form) ∨ (p = .loads ∧ i.op = .pfld) := by
  unfold Instruction.issueDepth at hdepth
  unfold Instruction.issuesSecond
  cases p <;> cases hop : i.op <;> simp_all

theorem result_of_issuesSecond (hissues : i.issuesSecond = true) :
    i.result c p = i.resultWith c (i.second c) p := by
  unfold Instruction.issuesSecond at hissues
  unfold Instruction.result
  cases hop : i.op <;> simp_all

/-- An instruction that completes has put what it computes, or loads, into every
pipe that it issues to. -/
theorem execute_result {slot : Exec β Unit} (ran : execute slot i c = .ok () d)
    (hdepth : i.issueDepth p = some depth) : (p.state d).stages.first = i.result c p := by
  obtain hsecond | ⟨rfl, hpipelined, hop⟩ | ⟨rfl, hpipelined, hop⟩ | ⟨rfl, hop⟩ :=
    issues_cases hdepth
  · rw [result_of_issuesSecond hsecond]
    exact (execute_issuesWith hsecond ran).inserted p depth hdepth
  · obtain hop | hop | hop := hop <;> rw [execute, hop] at ran <;> rw [Instruction.result, hop]
    · cases ran
      rw [fix, hpipelined]
      rfl
    · cases ran
      rw [fix, hpipelined]
      rfl
    · rw [eq_of_guarded ran, hpipelined]
      rfl
  · rw [execute, hop] at ran
    cases ran
    rw [form, hpipelined, Instruction.result, hop]
    rfl
  · rw [execute, hop] at ran
    obtain ⟨-, v, e, hread, rfl⟩ := pfld_of_ok ran
    rw [PipeName.state_autoIncrement, Instruction.result, hop]
    dsimp only
    rw [Instruction.loaded, hread]
    rfl

end Results

/-! ## Issues in a log -/

namespace Executed

variable (e : Executed β) (p : PipeName)

/-- Whether it is an issue to a pipe. -/
def issues : Bool := (e.word.issueDepth p).isSome

/-- What it puts into a pipe: what the instruction makes of the state before it. -/
def inserted [Bus β] : PipeSlot := e.word.result e.before p

/-- What came out of a pipe when it issued. -/
def retired : PipeSlot :=
  match e.word.issueDepth p with
  | some depth => (p.state e.before).stages.last depth
  | none => .empty

/-- The law of a pipe, and what has gone into it is what was computed. -/
structure Obeys [Bus β] : Prop where
  law : PipeLaw e.word e.before e.after p
  first : ∀ depth, e.word.issueDepth p = some depth →
    (p.state e.after).stages.first = e.inserted p

end Executed

section Logs

variable [Bus β]

/-- The issues to a pipe, in order. -/
def issuesTo (p : PipeName) (log : List (Executed β)) : List (Executed β) :=
  log.filter (·.issues p)

/-- A pipe after the issues of a log, and nothing else, have gone through it. -/
def PipeState.after (p : PipeName) (s : PipeState) (log : List (Executed β)) : PipeState :=
  log.foldl (fun s e =>
    match e.word.issueDepth p with
    | some depth => s.issue depth (e.inserted p)
    | none => s) s

/-- Each instruction of a log finds a pipe as the one before it has left it, and
obeys the law. -/
def Flows (p : PipeName) : PipeState → List (Executed β) → PipeState → Prop
  | s, [], s' => s' = s
  | s, e :: rest, s' =>
      p.state e.before = s ∧ e.Obeys p ∧ Flows p (p.state e.after) rest s'

namespace Flows

variable {p : PipeName} {s s' : PipeState} {log : List (Executed β)}

theorem append_iff {rest : List (Executed β)} :
    Flows p s (log ++ rest) s' ↔ ∃ m, Flows p s log m ∧ Flows p m rest s' := by
  induction log generalizing s with
  | nil =>
      constructor
      · intro h
        exact ⟨s, rfl, h⟩
      · rintro ⟨m, rfl, h⟩
        exact h
  | cons e log ih =>
      constructor
      · rintro ⟨hbefore, hlaw, h⟩
        obtain ⟨m, hlog, hrest⟩ := ih.1 h
        exact ⟨m, ⟨hbefore, hlaw, hlog⟩, hrest⟩
      · rintro ⟨m, ⟨hbefore, hlaw, hlog⟩, hrest⟩
        exact ⟨hbefore, hlaw, ih.2 ⟨m, hlog, hrest⟩⟩

theorem obeys (h : Flows p s log s') {e : Executed β} (he : e ∈ log) : e.Obeys p := by
  obtain ⟨before, rest, rfl⟩ := List.append_of_mem he
  obtain ⟨m, -, -, hobeys, -⟩ := append_iff.1 h
  exact hobeys

/-- What the law says about the state after an instruction. -/
theorem state_after {e : Executed β} (hobeys : e.Obeys p) :
    p.state e.after =
      match e.word.issueDepth p with
      | some depth => (p.state e.before).issue depth (e.inserted p)
      | none => p.state e.before := by
  have hlaw := hobeys.law
  unfold PipeLaw at hlaw
  cases hdepth : e.word.issueDepth p with
  | none =>
      rw [hdepth] at hlaw
      exact hlaw
  | some depth =>
      rw [hdepth, hobeys.first depth hdepth] at hlaw
      exact hlaw.1

theorem eq_after (h : Flows p s log s') : s' = s.after p log := by
  induction log generalizing s with
  | nil => exact h
  | cons e log ih =>
      obtain ⟨rfl, hlaw, hrest⟩ := h
      rw [ih hrest, state_after hlaw]
      rfl

/-- A pipe is a queue: its contents and what is put in behind them come out in
this order, up to the contents that are left. -/
theorem fifo {depth : PipeDepth} (h : Flows p s log s')
    (hdepth : ∀ e ∈ log, e.word.issueDepth p = none ∨ e.word.issueDepth p = some depth) :
    s.stages.contents depth ++ (issuesTo p log).map (·.inserted p) =
      (issuesTo p log).map (·.retired p) ++ s'.stages.contents depth := by
  induction log generalizing s with
  | nil =>
      obtain rfl := h
      simp [issuesTo]
  | cons e log ih =>
      obtain ⟨rfl, hlaw, hrest⟩ := h
      have htail := ih hrest fun e' he' => hdepth e' (List.mem_cons_of_mem e he')
      have hafter := state_after hlaw
      cases hdepth e List.mem_cons_self with
      | inl hnone =>
          have hfilter : issuesTo p (e :: log) = issuesTo p log :=
            List.filter_cons_of_neg (by simp [Executed.issues, hnone])
          rw [hnone] at hafter
          rw [hfilter, ← htail, hafter]
      | inr hsome =>
          have hfilter : issuesTo p (e :: log) = e :: issuesTo p log :=
            List.filter_cons_of_pos (by simp [Executed.issues, hsome])
          have hretired : e.retired p = (p.state e.before).stages.last depth := by
            rw [Executed.retired, hsome]
          rw [hsome] at hafter
          have hadvance : (p.state e.after).stages =
              (p.state e.before).stages.advance depth (e.inserted p) := by
            rw [hafter]
            rfl
          rw [hfilter, List.map_cons, List.map_cons, List.cons_append, ← htail, hadvance,
            hretired, List.append_cons, Pipe.contents_advance, List.cons_append]

/-- What the issue with a number retires. -/
theorem retired_eq {depth : PipeDepth} (h : Flows p s log s')
    (hdepth : ∀ e ∈ log, e.word.issueDepth p = none ∨ e.word.issueDepth p = some depth)
    (n : Nat) (hn : n < (issuesTo p log).length) :
    (issuesTo p log)[n].retired p =
      if n < depth.stages then (s.stages.contents depth).getD n .empty
      else (issuesTo p log)[n - depth.stages].inserted p := by
  have hqueue : (s.stages.contents depth ++ (issuesTo p log).map (·.inserted p))[n]? =
      ((issuesTo p log).map (·.retired p) ++ s'.stages.contents depth)[n]? := by
    rw [h.fifo hdepth]
  symm at hqueue
  rw [List.getElem?_append_left (by rwa [List.length_map]), List.getElem?_map,
    List.getElem?_eq_getElem hn] at hqueue
  by_cases hfirst : n < depth.stages
  · rw [List.getElem?_append_left (by rwa [Pipe.length_contents])] at hqueue
    rw [if_pos hfirst, List.getD_eq_getElem?_getD, ← hqueue]
    rfl
  · rw [List.getElem?_append_right (by rw [Pipe.length_contents]; omega),
      Pipe.length_contents, List.getElem?_map,
      List.getElem?_eq_getElem (by omega)] at hqueue
    rw [if_neg hfirst]
    exact Option.some.inj hqueue

/-- The precision on record is that of the slot retired last. -/
theorem precision_eq (h : Flows p s log s') :
    s'.precision =
      match (issuesTo p log).getLast? with
      | some e => (e.retired p).double
      | none => s.precision := by
  induction log generalizing s with
  | nil =>
      obtain rfl := h
      rfl
  | cons e log ih =>
      obtain ⟨rfl, hlaw, hrest⟩ := h
      have hafter := state_after hlaw
      rw [ih hrest]
      cases hdepth : e.word.issueDepth p with
      | none =>
          have hfilter : issuesTo p (e :: log) = issuesTo p log :=
            List.filter_cons_of_neg (by simp [Executed.issues, hdepth])
          rw [hdepth] at hafter
          rw [hfilter, hafter]
      | some depth =>
          have hfilter : issuesTo p (e :: log) = e :: issuesTo p log :=
            List.filter_cons_of_pos (by simp [Executed.issues, hdepth])
          have hretired : e.retired p = (p.state e.before).stages.last depth := by
            rw [Executed.retired, hdepth]
          rw [hdepth] at hafter
          rw [hfilter, List.getLast?_cons]
          cases (issuesTo p log).getLast? with
          | none =>
              rw [hafter]
              show (PipeState.issue _ depth _).precision = (e.retired p).double
              rw [hretired]
              rfl
          | some last => rfl

end Flows

end Logs

/-! ## Over a session -/

section Session

variable [Bus β] {c d : Cpu β} {log : List (Executed β)}

omit [Bus β] in
theorem PipeName.state_faulted (p : PipeName) (c : Cpu β) (kind : TrapKind) :
    p.state (c.faulted kind) = p.state c := by
  cases p <;> rfl

theorem PipeName.state_fetch (p : PipeName) (pc : VirtAddr) (c : Cpu β) :
    p.state (finalState (fetch pc c)) = p.state c := by
  obtain ⟨m, hlooked, heq | ⟨kind, heq⟩⟩ := fetch_looked pc c
  · rw [heq, hlooked.state_eq]
  · rw [heq, PipeName.state_faulted, hlooked.state_eq]

/-- Nothing between instructions touches a pipe. -/
theorem Interlude.pipeState (h : Interlude c d) (p : PipeName) : p.state d = p.state c := by
  cases h with
  | fetch pc => exact p.state_fetch pc c
  | refuse straight ran =>
      obtain ⟨m, kind, hlooked, rfl⟩ := refuse_looked straight ran
      rw [PipeName.state_faulted, hlooked.state_eq]
  | advanceDual =>
      unfold Cpu.advanceDual
      split
      · rfl
      · cases p <;> rfl
  | _ => cases p <;> rfl

/-- Nothing that the host does touches a pipe. -/
theorem HostAction.pipeState (h : HostAction c d) (p : PipeName) : p.state d = p.state c := by
  cases h with
  | outside h =>
      cases h with
      | pin level => cases p <;> rfl
      | board board => cases p <;> rfl
  | writeControl reg v => exact p.state_writeControl c reg v
  | inspectInstruction pc =>
      obtain ⟨psr, heq⟩ := c.inspectInstruction_state pc
      rw [heq, PipeName.state_setPsr, p.state_fetch]
  | withFloatUnit u => cases p <;> rfl

theorem Course.flows (h : Course c log d) (p : PipeName) :
    Flows p (p.state c) log (p.state d) := by
  induction h with
  | stop c => rfl
  | interlude hfirst _ ih => rwa [hfirst.pipeState p] at ih
  | executed straight ran _ ih =>
      have hlaw := (execute_pipes _ _ straight _ p).completed ran
      exact ⟨rfl, ⟨hlaw, fun _ hdepth => execute_result ran hdepth⟩, ih⟩

theorem Session.flows {start : Cpu β} (h : Session start log c) (p : PipeName) :
    Flows p (p.state start) log (p.state c) := by
  induction h with
  | begin => rfl
  | @step log c _ ih => exact Flows.append_iff.2 ⟨_, ih, (step_course c).flows p⟩
  | host _ haction ih => rwa [haction.pipeState p]

/-- What the log of a session that ends in `c` says about the pipes. -/
structure PipesAreQueues (log : List (Executed β)) (c : Cpu β) : Prop where
  /-- An issue to the adder, the load pipe or the graphics pipe retires what the
  issue as many places before it as the pipe is deep has computed or loaded. -/
  fifo : ∀ p depth, p.fixedDepth? = some depth → ∀ n (hn : n < (issuesTo p log).length),
    (issuesTo p log)[n].retired p =
      if n < depth.stages then .empty else (issuesTo p log)[n - depth.stages].inserted p
  /-- So does an issue to the multiplier, in a stretch of one depth. -/
  multiplier : ∀ before stretch rest depth, log = before ++ stretch ++ rest →
    (∀ e ∈ stretch, e.issues .multiplier = true →
      e.word.issueDepth .multiplier = some depth) →
    ∀ n (hn : n < (issuesTo .multiplier stretch).length), depth.stages ≤ n →
      (issuesTo .multiplier stretch)[n].retired .multiplier =
        (issuesTo .multiplier stretch)[n - depth.stages].inserted .multiplier
  /-- The destination of an issue gets what was retired, with the precision
  that it has. -/
  written : ∀ e ∈ log, ∀ p, e.issues p = true → e.word.delivers p = true →
    e.after.regs.floats = (e.before.writeSlot e.word.dest (e.retired p)).regs.floats ∧
      (e.word.dest.val < 2 → e.after.regs.floats = e.before.regs.floats)
  /-- An instruction that does not issue to a pipe leaves it alone. -/
  kept : ∀ e ∈ log, ∀ p, e.issues p = false → p.state e.after = p.state e.before
  /-- Every instruction finds a pipe as the issues before it have left it. -/
  found : ∀ before e rest, log = before ++ e :: rest → ∀ p,
    p.state e.before = PipeState.initial.after p before
  /-- At the end a pipe is as the issues have left it. -/
  final : ∀ p, p.state c = PipeState.initial.after p log
  /-- The precision bit of a pipe is that of what it retired last. -/
  precision : ∀ p, (p.state c).precision =
    match (issuesTo p log).getLast? with
    | some e => (e.retired p).double
    | none => false

/-- What an issue computes or loads is retired as many issues later as the pipe is deep. -/
theorem PipesAreQueues.retired_of_inserted (h : PipesAreQueues log c) {p : PipeName}
    {depth : PipeDepth} (hfixed : p.fixedDepth? = some depth) {n : Nat} {slot : PipeSlot}
    (hlater : n + depth.stages < (issuesTo p log).length)
    (hslot : (issuesTo p log)[n]?.map (·.inserted p) = some slot) :
    (issuesTo p log)[n + depth.stages]?.map (·.retired p) = some slot := by
  have hfifo := h.fifo p depth hfixed (n + depth.stages) hlater
  rw [List.getElem?_eq_getElem (by omega), Option.map_some] at hslot
  rw [List.getElem?_eq_getElem hlater, Option.map_some, hfifo, if_neg (by omega)]
  simpa using hslot

omit [Bus β] in
theorem PipeName.state_reset (p : PipeName) (r : Cpu β) : p.state r.reset = .initial := by
  cases p <;> rfl

omit [Bus β] in
theorem Cpu.writeSlot_zero {i : RegNum} (hi : i.val < 2) (slot : PipeSlot) :
    (c.writeSlot i slot).regs.floats = c.regs.floats := by
  unfold writeSlot setFloats FloatRegs.writePair FloatRegs.writeLane
  simp [hi]

/-- In any session that starts with a reset, the pipes are queues. -/
theorem pipes_are_queues {r : Cpu β} (session : Session r.reset log c) :
    PipesAreQueues log c := by
  have hflows : ∀ p : PipeName, Flows p .initial log (p.state c) := fun p => by
    rw [← p.state_reset r]
    exact session.flows p
  have hobeys : ∀ e ∈ log, ∀ p, e.Obeys p := fun e he p => (hflows p).obeys he
  refine ⟨?fifo, ?multiplier, ?written, ?kept, ?found, fun p => (hflows p).eq_after, ?precision⟩
  case fifo =>
    intro p depth hfixed n hn
    rw [(hflows p).retired_eq (fun e _ => p.issueDepth_eq hfixed e.word) n hn]
    have hempty : (PipeState.initial.stages.contents depth).getD n .empty = .empty := by
      rw [PipeState.initial, Pipe.contents_empty, List.getD_eq_getElem?_getD,
        List.getElem?_replicate]
      split <;> rfl
    rw [hempty]
  case multiplier =>
    rintro before stretch rest depth rfl hdepth n hn hn'
    obtain ⟨m, hbefore, -⟩ := Flows.append_iff.1 (hflows .multiplier)
    obtain ⟨m', -, hstretch⟩ := Flows.append_iff.1 hbefore
    have hall : ∀ e ∈ stretch, e.word.issueDepth .multiplier = none ∨
        e.word.issueDepth .multiplier = some depth := by
      intro e he
      cases hissues : e.word.issueDepth .multiplier with
      | none => exact .inl rfl
      | some other =>
          have hsome := hdepth e he (by simp [Executed.issues, hissues])
          exact .inr (hissues ▸ hsome)
    rw [hstretch.retired_eq hall n hn, if_neg (by omega)]
  case written =>
    intro e he p hissues hdelivers
    have hwritten : e.after.regs.floats =
        (e.before.writeSlot e.word.dest (e.retired p)).regs.floats := by
      have hp := (hobeys e he p).law
      unfold PipeLaw at hp
      unfold Executed.issues at hissues
      unfold Executed.retired
      cases hdepth : e.word.issueDepth p with
      | none => simp [hdepth] at hissues
      | some depth =>
          rw [hdepth] at hp
          exact hp.2 hdelivers
    exact ⟨hwritten, fun hzero => hwritten.trans (Cpu.writeSlot_zero hzero _)⟩
  case kept =>
    intro e he p hissues
    have hafter := Flows.state_after (hobeys e he p)
    have hnone : e.word.issueDepth p = none := by simpa [Executed.issues] using hissues
    rwa [hnone] at hafter
  case found =>
    rintro before e rest rfl p
    obtain ⟨m, hbefore, hfound, -⟩ := Flows.append_iff.1 (hflows p)
    rw [hfound, hbefore.eq_after]
  case precision =>
    intro p
    exact (hflows p).precision_eq

end Session

/-- Four sums and four loads, of which the first sum is one and one, and the first load is of
`0x40490fdb`. -/
def fourOfEach : Cpu OpenMemory :=
  .before 0x1000#32
    [(0x1000#32,
      [0xec043f80#32, 0x08042000#32, 0x48862430#32, 0x640c1102#32, 0x48072430#32, 0x640d1106#32,
        0x48080430#32, 0x640e1106#32, 0x48090430#32, 0x640f1106#32]),
      (0x1100#32, [0x40490fdb#32])]

/-- The last of the sums retires two, and the last of the loads what the first has read. -/
theorem pipes_are_queues_of_sums_and_loads :
    let c := fourOfEach.step
    let log := executedByStep fourOfEach ++ executedByStep c ++ executedByStep c.step ++
      executedByStep c.step.step ++ executedByStep c.step.step.step
    ((issuesTo .adder log).length = 4 ∧
      (issuesTo .adder log)[3]?.map (·.retired .adder) = some (.ofSingle 0x40000000#32)) ∧
    (issuesTo .loads log).length = 4 ∧
      (issuesTo .loads log)[3]?.map (·.retired .loads) = some (.ofSingle 0x40490fdb#32) := by
  intro c log
  have hfirst := Session.step (.begin : Session fourOfEach [] fourOfEach)
  rw [List.nil_append] at hfirst
  have hsession : Session fourOfEach log c.step.step.step.step := hfirst.step.step.step.step
  have hqueues := pipes_are_queues hsession
  have hsums : (issuesTo .adder log).length = 4 := by decide +kernel
  have hloads : (issuesTo .loads log).length = 4 := by decide +kernel
  have hsum : (issuesTo .adder log)[0]?.map (·.inserted .adder) =
      some (.ofSingle 0x40000000#32) := by
    decide +kernel
  have hload : (issuesTo .loads log)[0]?.map (·.inserted .loads) =
      some (.ofSingle 0x40490fdb#32) := by
    decide +kernel
  refine ⟨⟨hsums, ?_⟩, hloads, ?_⟩
  · exact hqueues.retired_of_inserted (rfl : PipeName.adder.fixedDepth? = some .three)
      (by rw [hsums]; decide) hsum
  · exact hqueues.retired_of_inserted (rfl : PipeName.loads.fixedDepth? = some .three)
      (by rw [hloads]; decide) hload

end I860
