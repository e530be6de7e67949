import I860.Proofs.GraphicsUnit

/-!
# MERGE is a shift register

An addition of pixels or depth values takes the topmost bits of every field of
its sum into MERGE, and moves what is there to the right. It moves all of MERGE
at once, so bits do cross from one field into the next one below. They come in
at the top, right where the bits of the sum go, and since the mask of each rule
selects as many bits of a field as the rule shifts by, none of them stays. What
is left is a shift register for each field by itself (`MergingAdd.getMsbD_take`),
and after any number of sums a field holds the topmost bits of the last one,
below them those of the one before, and so on down to its end. The width of a
field need not be a multiple of the distance: six bits do not divide sixteen, and
of the third sum from last there is room for four.

The rest is about the processor: only `faddp`, `faddz` and `form` write to MERGE,
whatever else happens in a session (`execute_merge`, `Interlude.merge_eq`,
`HostAction.merge_eq`).
-/

namespace I860

/-- An addition that takes its sum into MERGE. -/
inductive MergingAdd where
  | pixels (size : PixelSize)
  | depths
  deriving DecidableEq, Repr

namespace MergingAdd

/-- The width of the fields that it adds in MERGE. -/
def width : MergingAdd → Nat
  | .pixels _ => 16
  | .depths => 32

/-- How many bits of a field of the sum it takes in. -/
def taken : MergingAdd → Nat
  | .pixels .bits16 => 6
  | .pixels _ => 8
  | .depths => 16

def rule : MergingAdd → Graphics.MergeRule
  | .pixels size => Graphics.pixelRule size
  | .depths => Graphics.depthRule

variable (k : MergingAdd)

theorem shift_rule : k.rule.shift = k.taken := by
  cases k with
  | pixels size => cases size <;> rfl
  | depths => rfl

theorem taken_pos : 0 < k.taken := by
  cases k with
  | pixels size => cases size <;> decide
  | depths => decide

variable {k} {f q : Nat}

/-- A mask selects the topmost bits of each field, as many as the rule shifts by. -/
theorem getLsbD_mask (hf : k.width * (f + 1) ≤ 64) (hq : q < k.width) :
    k.rule.mask.getLsbD (k.width * f + (k.width - 1 - q)) = decide (q < k.taken) := by
  have hpixels : ∀ size, ∀ f < 4, ∀ q < 16, (Graphics.pixelRule size).mask.getLsbD
      (16 * f + (16 - 1 - q)) = decide (q < taken (.pixels size)) := by
    intro size
    cases size <;> decide
  have hdepths : ∀ f < 2, ∀ q < 32, Graphics.depthRule.mask.getLsbD
      (32 * f + (32 - 1 - q)) = decide (q < taken .depths) := by
    decide
  cases k with
  | pixels size =>
      have hfields : 16 * (f + 1) ≤ 64 := hf
      exact hpixels size f (by omega) q hq
  | depths =>
      have hfields : 32 * (f + 1) ≤ 64 := hf
      exact hdepths f (by omega) q hq

/-- The bits of a sum come in at the top of a field, and those of the field go down. -/
theorem getMsbD_take (m s : Double) (hf : k.width * (f + 1) ≤ 64) (hq : q < k.width) :
    (Graphics.field k.width (k.rule.apply m s) f).getMsbD q =
      if q < k.taken then (Graphics.field k.width s f).getMsbD q
      else (Graphics.field k.width m f).getMsbD (q - k.taken) := by
  have hmask := getLsbD_mask hf hq
  have hsucc : k.width * (f + 1) = k.width * f + k.width := Nat.mul_succ _ _
  have hin : k.width * f + (k.width - 1 - q) < 64 := by omega
  rw [Graphics.getMsbD_field _ _ hq, Graphics.MergeRule.apply, k.shift_rule]
  rw [BitVec.getLsbD_or, BitVec.getLsbD_and, BitVec.getLsbD_and, BitVec.getLsbD_not,
    BitVec.getLsbD_ushiftRight, hmask]
  split
  · next htop =>
      rw [Graphics.getMsbD_field _ _ hq]
      simp [htop]
  · next hlow =>
      have hplace : k.taken + (k.width * f + (k.width - 1 - q)) =
          k.width * f + (k.width - 1 - (q - k.taken)) := by
        omega
      have hbelow : q - k.taken < k.width := by omega
      rw [Graphics.getMsbD_field _ _ hbelow, hplace]
      simp [hlow, hin]

/-- Bit `q` from the top of field `f` of a register that held `m` and has then taken
in sums, of which `recent` has the last one first. -/
def bitAfter (k : MergingAdd) (m : Double) (recent : List Double) (f q : Nat) : Bool :=
  shiftedIn k.taken (fun s => (Graphics.field k.width s f).getMsbD)
    (Graphics.field k.width m f).getMsbD recent q

theorem getMsbD_take_all (m : Double) (sums : List Double) (hf : k.width * (f + 1) ≤ 64)
    (hq : q < k.width) :
    (Graphics.field k.width (sums.foldl k.rule.apply m) f).getMsbD q =
      k.bitAfter m sums.reverse f q :=
  shifted_in (fun m => (Graphics.field k.width m f).getMsbD) k.taken_pos
    (fun m s _ hq => getMsbD_take m s hf hq) m sums hq

end MergingAdd

variable {β : Type}

/-! ## What an instruction does to MERGE -/

namespace Executed

variable (e : Executed β)

/-- The addition for MERGE that it makes, if it makes one. -/
def adds? : Option MergingAdd :=
  match e.word.op with
  | .faddp => some (.pixels e.before.control.psr.pixelSize)
  | .faddz => some .depths
  | _ => none

def sum : Double := e.left + e.right

/-- What it makes of MERGE. -/
def merged (m : Double) : Double :=
  if e.word.op = .form then 0#64
  else match e.adds? with
    | some k => k.rule.apply m e.sum
    | none => m

end Executed

/-- What there is to know about an instruction and MERGE. -/
structure MergeLaw (e : Executed β) : Prop where
  merge : e.after.regs.merge = e.merged e.before.regs.merge
  sum : e.adds?.isSome → e.Yields e.sum
  form : e.word.op = .form → e.Yields (e.left ||| e.before.regs.merge)

theorem MergeLaw.of_kept {i : Instruction} {c d : Cpu β} (hop : i.op ≠ .form)
    (hnone : Executed.adds? ⟨i, c, d⟩ = none) (hkept : d.regs.merge = c.regs.merge) :
    MergeLaw ⟨i, c, d⟩ where
  merge := by
    rw [Executed.merged, if_neg hop, hnone]
    exact hkept
  sum := by simp [hnone]
  form h := absurd h hop

namespace Execute

variable (c : Cpu β) (i : Instruction)

theorem merge_issue (pipe : FloatPipe) (pipelined : Bool) (result : PipeSlot) :
    (issue c i pipe pipelined result).regs.merge = c.regs.merge := by
  cases pipelined with
  | true => cases pipe <;> rfl
  | false => rfl

theorem merge_autoIncrement (addr : VirtAddr) :
    (autoIncrement c i addr).regs.merge = c.regs.merge := by
  unfold autoIncrement
  split <;> rfl

theorem merge_setCompare (found : Bool) :
    (setCompare i found c).regs.merge = c.regs.merge := by
  have hnoted : ∀ noted : Cpu β, noted.regs.merge = c.regs.merge →
      (if i.pipelined then issue noted i .adder true (.ofBits 0#64 i.doubleSource)
        else noted).regs.merge = c.regs.merge := by
    intro noted h
    split
    · rw [merge_issue, h]
    · exact h
  unfold setCompare
  apply hnoted
  split <;> rfl

theorem merge_shift (op : AluOp) : (shift op i c).regs.merge = c.regs.merge := by
  unfold shift
  split <;> rfl

theorem merge_branchIf (taken : Bool) (target : Word) :
    (branchIf taken target c).regs.merge = c.regs.merge := by
  unfold branchIf
  split <;> rfl

theorem merge_ldC : (ldC i c).regs.merge = c.regs.merge := by
  have hread : ∀ reg, (c.readControl reg).2.regs = c.regs := by
    intro reg
    cases reg with
    | fir =>
        dsimp only [Cpu.readControl]
        split <;> rfl
    | _ => rfl
  unfold ldC
  split
  · rfl
  · next reg _ =>
      show (c.readControl reg).2.regs.merge = c.regs.merge
      rw [hread reg]

theorem merge_stC : (stC i c).regs.merge = c.regs.merge := by
  unfold stC
  split
  · rfl
  · next reg _ =>
      obtain ⟨control, mmu, icache, fpu, order, heq, -, -⟩ :=
        c.writeControl_cases reg (c.readInt i.src1)
      rw [heq]

end Execute

section Run

variable [Bus β] {c d : Cpu β}

theorem execute_merge (i : Instruction) (slot : Exec β Unit)
    (straight : i.op.isDelayedBranch = false) (c : Cpu β) :
    Ends c (fun _ d => MergeLaw ⟨i, c, d⟩) (execute slot i c) := by
  unfold execute
  cases hop : i.op <;> dsimp only
  case bri | calli | br | call | bcT | bncT | bla =>
    simp [hop, Op.isDelayedBranch] at straight
  -- The three that write to MERGE.
  case faddp | faddz =>
    refine .ok ⟨?_, fun _ => Executed.yields_of_issue rfl, fun h => ?_⟩
    · simp only [Executed.merged, Executed.adds?, hop]
      exact Execute.merge_issue ..
    · simp [hop] at h
  case form =>
    refine .ok ⟨?_, fun h => ?_, fun _ => Executed.yields_of_issue rfl⟩
    · simp only [Executed.merged, hop, if_true]
      exact Execute.merge_issue ..
    · simp [Executed.adds?, hop] at h
  -- The rest do not.
  all_goals
    have hkeeps : ∀ {d : Cpu β}, d.regs.merge = c.regs.merge → MergeLaw ⟨i, c, d⟩ :=
      fun hd => .of_kept (by simp [hop]) (by simp [Executed.adds?, hop]) hd
    have hlooked : ∀ {d e : Cpu β}, LookedUp c d → e.regs.merge = d.regs.merge →
        MergeLaw ⟨i, c, e⟩ := fun hd he => hkeeps (by rw [he, hd.regs_eq])
    have hstored : ∀ {d e : Cpu β}, Stored c d → e.regs.merge = d.regs.merge →
        MergeLaw ⟨i, c, e⟩ := fun hd he => hkeeps (by rw [he, hd.regs_eq])
  case illegal | trap => exact .raise (by decide) (.refl c)
  case intovr => exact intovr_ends c (hkeeps rfl)
  case ldInt => exact ldInt_ends i c fun _ _ hd => hlooked hd rfl
  case stInt => exact stInt_ends i c fun _ hd => hstored hd rfl
  case fld => exact fld_ends i c fun _ _ hd => hlooked hd (Execute.merge_autoIncrement ..)
  case pfld => exact pfld_ends i c fun _ _ hd => hlooked hd (Execute.merge_autoIncrement ..)
  case fst => exact fst_ends i c fun _ _ hd => hstored hd (Execute.merge_autoIncrement ..)
  case pstD => exact pstD_ends i c fun _ _ _ hd => hstored hd (Execute.merge_autoIncrement ..)
  case ldC => exact .ok (hkeeps (Execute.merge_ldC c i))
  case stC => exact .ok (hkeeps (Execute.merge_stC c i))
  case bc | bnc | bte | btne => exact .ok (hkeeps (Execute.merge_branchIf ..))
  case frcp | frsqr => exact reciprocal_ends i c _ fun _ => hkeeps rfl
  case dualOp | fmlow => exact guarded_ends c _ (hkeeps rfl)
  case fmul | pfmul3 | fadd | fsub | famov =>
    exact guarded_ends c _ (hkeeps (Execute.merge_issue ..))
  case flush => exact .ok (hkeeps (Execute.merge_autoIncrement ..))
  case shl | shr | shra => exact .ok (hkeeps (Execute.merge_shift ..))
  case pfgt | pfeq => exact .ok (hkeeps (Execute.merge_setCompare ..))
  case fix | ftrunc | fiadd | fisub | fzchkl | fzchks =>
    exact .ok (hkeeps (Execute.merge_issue ..))
  all_goals exact .ok (hkeeps rfl)

theorem fetch_merge (pc : VirtAddr) (c : Cpu β) :
    (finalState (fetch pc c)).regs = c.regs := by
  obtain ⟨m, hlooked, heq | ⟨kind, heq⟩⟩ := fetch_looked pc c
  · rw [heq, hlooked.regs_eq]
  · rw [heq, ← hlooked.regs_eq]
    rfl

theorem Interlude.merge_eq (h : Interlude c d) : d.regs.merge = c.regs.merge := by
  cases h with
  | fetch pc => rw [fetch_merge]
  | refuse straight ran =>
      obtain ⟨m, kind, hlooked, rfl⟩ := refuse_looked straight ran
      exact congrArg RegisterFile.merge hlooked.regs_eq
  | advanceDual =>
      unfold Cpu.advanceDual
      split <;> rfl
  | _ => rfl

theorem HostAction.merge_eq (h : HostAction c d) : d.regs.merge = c.regs.merge := by
  cases h with
  | outside h => cases h <;> rfl
  | writeControl reg v =>
      obtain ⟨control, mmu, icache, fpu, order, heq, -, -⟩ := c.writeControl_cases reg v
      rw [heq]
  | inspectInstruction pc =>
      obtain ⟨psr, heq⟩ := c.inspectInstruction_state pc
      rw [heq]
      exact congrArg RegisterFile.merge (fetch_merge pc c)
  | withFloatUnit u => rfl

/-! ## Over a session -/

/-- MERGE after the instructions of a log, and nothing else, have written to it. -/
def mergeAfter (m : Double) (log : List (Executed β)) : Double :=
  log.foldl (fun m e => e.merged m) m

/-- The sums of a log that go into MERGE, in order. -/
def sumsOf (log : List (Executed β)) : List Double :=
  (log.filter (·.adds?.isSome)).map (·.sum)

theorem Passage.merge_eq {start : Cpu β} {log : List (Executed β)} (h : Passage start log c) :
    c.regs.merge = mergeAfter start.regs.merge log := by
  induction h with
  | begin => rfl
  | interlude _ hnext ih => rw [hnext.merge_eq, ih]
  | host _ haction ih => rw [haction.merge_eq, ih]
  | executed _ straight ran ih =>
      have hlaw := ((execute_merge _ _ straight _).completed ran).merge
      rw [hlaw, mergeAfter, List.foldl_append]
      show Executed.merged _ _ = Executed.merged _ _
      rw [ih]
      rfl

omit [Bus β] in
/-- In a stretch with one kind of addition and without `form`, MERGE takes in the
sums. -/
theorem mergeAfter_of_one {k : MergingAdd} (m : Double) {stretch : List (Executed β)}
    (hone : ∀ e ∈ stretch, e.word.op ≠ .form ∧ (e.adds? = none ∨ e.adds? = some k)) :
    mergeAfter m stretch = (sumsOf stretch).foldl k.rule.apply m := by
  induction stretch generalizing m with
  | nil => rfl
  | cons e stretch ih =>
      obtain ⟨hop, hadds⟩ := hone e List.mem_cons_self
      have hrest := fun m => ih m fun e' he' => hone e' (List.mem_cons_of_mem e he')
      have hcons : mergeAfter m (e :: stretch) = mergeAfter (e.merged m) stretch := rfl
      rw [hcons, hrest, Executed.merged, if_neg hop]
      rcases hadds with hnone | hsome
      · have hfilter : sumsOf (e :: stretch) = sumsOf stretch := by simp [sumsOf, hnone]
        rw [hfilter, hnone]
      · have hfilter : sumsOf (e :: stretch) = e.sum :: sumsOf stretch := by
          simp [sumsOf, hsome]
        rw [hfilter, hsome, List.foldl_cons]

/-- MERGE as the first of some instructions finds it, and if there are none as it is
in `c`. -/
def mergeBefore (c : Cpu β) : List (Executed β) → Double
  | [] => c.regs.merge
  | e :: _ => e.before.regs.merge

theorem Passage.mergeBefore_eq {start : Cpu β} {before rest log : List (Executed β)}
    (h : Passage start log c) (hlog : log = before ++ rest) :
    mergeBefore c rest = mergeAfter start.regs.merge before := by
  cases rest with
  | nil =>
      rw [List.append_nil] at hlog
      exact hlog ▸ h.merge_eq
  | cons e rest => exact (h.cut hlog).1.merge_eq

/-- What the log of a session from `start` to `c` says about MERGE. -/
structure MergeShifts (start : Cpu β) (log : List (Executed β)) (c : Cpu β) : Prop where
  first : mergeBefore c log = start.regs.merge
  /-- Over a stretch with additions of one kind, whatever else is executed between
  them other than `form`, every field of MERGE is a shift register of its own. -/
  fields : ∀ before stretch rest k, log = before ++ (stretch ++ rest) →
    (∀ e ∈ stretch, e.word.op ≠ .form ∧ (e.adds? = none ∨ e.adds? = some k)) →
    ∀ f q, k.width * (f + 1) ≤ 64 → q < k.width →
      (Graphics.field k.width (mergeBefore c rest) f).getMsbD q =
        k.bitAfter (mergeBefore c (stretch ++ rest)) (sumsOf stretch).reverse f q
  /-- What an addition takes in is the sum that it delivers. -/
  sums : ∀ e ∈ log, e.adds?.isSome → e.Yields e.sum
  /-- `form` delivers its source joined with MERGE, and clears MERGE. -/
  formed : ∀ before e rest, log = before ++ e :: rest → e.word.op = .form →
    e.Yields (e.left ||| e.before.regs.merge) ∧ mergeBefore c rest = 0#64

/-- In any session, from whatever state it starts, MERGE is a shift register. -/
theorem merge_is_shift_register {start : Cpu β} {log : List (Executed β)}
    (session : Session start log c) : MergeShifts start log c := by
  have hpassage := session.passage
  have hlaw : ∀ e ∈ log, MergeLaw e := by
    intro e he
    obtain ⟨before, rest, hlog⟩ := List.append_of_mem he
    obtain ⟨-, straight, slot, ran⟩ := hpassage.cut hlog
    exact (execute_merge e.word slot straight e.before).completed ran
  refine ⟨hpassage.mergeBefore_eq (List.nil_append log).symm, ?fields,
    fun e he => (hlaw e he).sum, ?formed⟩
  case fields =>
    intro before stretch rest k hlog hone f q hf hq
    have hstart := hpassage.mergeBefore_eq hlog
    rw [← List.append_assoc] at hlog
    have hend : mergeBefore c rest =
        mergeAfter (mergeAfter start.regs.merge before) stretch :=
      (hpassage.mergeBefore_eq hlog).trans List.foldl_append
    rw [hend, hstart, mergeAfter_of_one _ hone]
    exact MergingAdd.getMsbD_take_all _ _ hf hq
  case formed =>
    intro before e rest hlog hop
    have he : e ∈ log := by simp [hlog]
    refine ⟨(hlaw e he).form hop, ?_⟩
    have hsplit : log = (before ++ [e]) ++ rest := by simp [hlog]
    have hend : mergeBefore c rest = e.merged (mergeAfter start.regs.merge before) :=
      (hpassage.mergeBefore_eq hsplit).trans List.foldl_append
    rw [hend, Executed.merged, if_pos hop]

end Run

/-- Two additions of pixels, and `form`. -/
def twoPixelSums : Cpu OpenMemory :=
  .before 0x1000#32 [(0x1000#32, [0x488621d0#32, 0x490a41d0#32, 0x480c01da#32, 0xa0000000#32])]

/-- `form` delivers, in each field, eight bits of the second sum over eight bits of
the first. -/
theorem merge_is_shift_register_of_pixels :
    let log := executedByStep twoPixelSums ++ executedByStep twoPixelSums.step
    sumsOf (log.take 2) = [0xbd5b7c0bbd5b7c08#64, 0xbd5b7c13bd5b7c10#64] ∧
      ∃ e merge, log[2]? = some e ∧ e.word.op = .form ∧ e.left = 0#64 ∧ e.Yields merge ∧
        mergeBefore twoPixelSums.step.step (log.drop 3) = 0#64 ∧
        ∀ f < 4, ∀ q < 16, (Graphics.field 16 merge f).getMsbD q =
          if q < 8 then (Graphics.field 16 0xbd5b7c13bd5b7c10#64 f).getMsbD q
          else (Graphics.field 16 0xbd5b7c0bbd5b7c08#64 f).getMsbD (q - 8) := by
  intro log
  have hsession : Session twoPixelSums log twoPixelSums.step.step := .step (.step .begin)
  have hshifts := merge_is_shift_register hsession
  have hsums : sumsOf (log.take 2) = [0xbd5b7c0bbd5b7c08#64, 0xbd5b7c13bd5b7c10#64] := by
    decide +kernel
  obtain ⟨hlength, hop, hleft⟩ :
      ∃ h : 2 < log.length, log[2].word.op = .form ∧ log[2].left = 0#64 := by
    decide +kernel
  have hone : ∀ e ∈ log.take 2, e.word.op ≠ .form ∧
      (e.adds? = none ∨ e.adds? = some (.pixels .bits8)) := by
    decide +kernel
  have hlog : log = log.take 2 ++ log[2] :: log.drop 3 := by
    rw [← List.drop_eq_getElem_cons, List.take_append_drop]
  obtain ⟨hyields, hcleared⟩ := hshifts.formed _ _ _ hlog hop
  rw [hleft, BitVec.zero_or] at hyields
  refine ⟨hsums, log[2], _, List.getElem?_eq_getElem hlength, hop, hleft, hyields, hcleared, ?_⟩
  intro f hf q hq
  have hfields := hshifts.fields [] (log.take 2) (log[2] :: log.drop 3) (.pixels .bits8) hlog hone
    f q (by simp [MergingAdd.width]; omega) hq
  rw [← hlog, hshifts.first] at hfields
  rw [hsums] at hfields
  refine hfields.trans ?_
  have hbits : ∀ f < 4, ∀ q < 16, MergingAdd.bitAfter (.pixels .bits8) 0#64
      [0xbd5b7c13bd5b7c10#64, 0xbd5b7c0bbd5b7c08#64] f q =
      if q < 8 then (Graphics.field 16 0xbd5b7c13bd5b7c10#64 f).getMsbD q
      else (Graphics.field 16 0xbd5b7c0bbd5b7c08#64 f).getMsbD (q - 8) := by
    decide +kernel
  exact hbits f hf q hq

end I860
