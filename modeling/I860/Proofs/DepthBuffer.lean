import I860.Proofs.PixelStores

/-!
# Depth checks select pixels

PM is a queue. A depth check fills it from its top, one bit for each of its
fields, and pushes down what it has; a store of pixels takes its bits from the
bottom. It has eight places, so after eight fields have been checked everything
that was there before is gone, and what is at the bottom is the first check
(`getLsbD_filled`). Each store then takes what one check has put there and makes
room for the next, in the order of the checks, and after the last store nothing is
left.
-/

namespace I860

/-- How wide the depth values are that a check compares, and the pixels with them. -/
inductive DepthWidth where
  | short
  | long
  deriving DecidableEq, Repr

namespace DepthWidth

def bits : DepthWidth → Nat
  | .short => 16
  | .long => 32

/-- How many of them a double holds. -/
def count : DepthWidth → Nat
  | .short => 4
  | .long => 2

def check : DepthWidth → Op
  | .short => .fzchks
  | .long => .fzchkl

/-- The contents of PS for pixels as wide as that. -/
def ps : DepthWidth → BitVec 2
  | .short => 1#2
  | .long => 2#2

def size : DepthWidth → PixelSize
  | .short => .bits16
  | .long => .bits32

theorem pixelSize_eq {r : Psr} {w : DepthWidth} (h : r.ps = w.ps) : r.pixelSize = w.size := by
  rw [Psr.pixelSize, Psr.pixelSize?, h]
  cases w <;> rfl

variable (w : DepthWidth)

theorem perDouble_size : w.size.perDouble = w.count := by
  cases w <;> rfl

theorem count_pos : 0 < w.count := by
  cases w <;> decide

theorem count_le : w.count ≤ 8 := by
  cases w <;> decide

end DepthWidth

namespace Graphics

/-- A byte with one bit in some place. -/
theorem getLsbD_placed (v : Bool) (s : Nat) {b : Nat} (hb : b < 8) :
    (((BitVec.ofBool v).setWidth 8 : Byte) <<< s).getLsbD b = (decide (b = s) && v) := by
  rw [BitVec.getLsbD_shiftLeft, BitVec.getLsbD_setWidth, BitVec.getLsbD_ofBool]
  rcases Nat.lt_trichotomy b s with hlt | rfl | hgt
  · simp [hlt, Nat.ne_of_lt hlt]
  · simp [hb]
  · have hne : b ≠ s := by omega
    have hsub : b - s ≠ 0 := by omega
    simp [hne, hsub]

variable (w : DepthWidth) (x y : Double)

/-- A check moves PM away from its top, and fills the places there, with the last
field at the very top. -/
theorem getMsbD_maskAfterCheck (pm : Byte) {t : Nat} (ht : t < 8) :
    (maskAfterCheck w.bits w.count x y pm).getMsbD t =
      if t < w.count then secondWins w.bits x y (w.count - 1 - t)
      else pm.getMsbD (t - w.count) := by
  have hle := w.count_le
  rw [BitVec.getMsbD_eq_getLsbD, BitVec.getMsbD_eq_getLsbD, maskAfterCheck, getLsbD_foldl_or,
    BitVec.getLsbD_ushiftRight]
  simp only [getLsbD_placed _ _ (by omega : 8 - 1 - t < 8)]
  split
  · next htop =>
      have hold : pm.getLsbD (w.count + (8 - 1 - t)) = false :=
        BitVec.getLsbD_of_ge _ _ (by omega)
      have hfield : 8 - 1 - t = 8 - w.count + (w.count - 1 - t) := by omega
      have hin : w.count - 1 - t < w.count := by omega
      rw [any_range_of_one (w.count - 1 - t) ?_, hold]
      · simp [ht, hfield, hin]
      · intro i _ hne
        have hplace : 8 - 1 - t ≠ 8 - w.count + i := by omega
        simp [hplace]
  · next hlow =>
      have hplace : w.count + (8 - 1 - t) = 8 - 1 - (t - w.count) := by omega
      have hin : t - w.count < 8 := by omega
      rw [any_range_of_one w.count ?_, hplace]
      · simp [ht, hin]
      · intro i _ _
        have hplace : 8 - 1 - t ≠ 8 - w.count + i := by omega
        simp [hplace]

theorem field_join (f : Nat → BitVec w.bits) {i : Nat} (hi : i < w.count) :
    field w.bits ((List.range w.count).foldl
      (fun acc i => acc ||| ((f i).setWidth 64 <<< (w.bits * i))) 0#64) i = f i := by
  have hbits : w.bits * w.count = 64 := by cases w <;> rfl
  apply BitVec.eq_of_getLsbD_eq
  intro b hb
  have hfits : w.bits * i + b < 64 := by
    have hmul := Nat.mul_le_mul_left w.bits hi
    rw [Nat.mul_succ] at hmul
    omega
  rw [getLsbD_field _ _ hb, getLsbD_foldl_or, BitVec.getLsbD_zero, Bool.false_or,
    any_range_of_one i ?_, decide_eq_true hi, Bool.true_and]
  · rw [BitVec.getLsbD_shiftLeft, BitVec.getLsbD_setWidth]
    have hsub : w.bits * i + b - w.bits * i = b := by omega
    have hin : b < 64 := by omega
    have hreached : ¬w.bits * i + b < w.bits * i := by omega
    rw [hsub, decide_eq_true hfits, decide_eq_true hin, decide_eq_false hreached]
    rfl
  -- A lower field ends before this one, and a higher one begins behind it.
  · intro i' _ hne
    rw [BitVec.getLsbD_shiftLeft, BitVec.getLsbD_setWidth]
    rcases Nat.lt_or_gt_of_ne hne with hlt | hgt
    · have hmul := Nat.mul_le_mul_left w.bits hlt
      rw [Nat.mul_succ] at hmul
      rw [BitVec.getLsbD_of_ge (f i') _ (by omega), Bool.and_false, Bool.and_false]
    · have hmul := Nat.mul_le_mul_left w.bits hgt
      rw [Nat.mul_succ] at hmul
      have hbelow : w.bits * i + b < w.bits * i' := by omega
      simp [hbelow]

/-- The result of a check holds in every field the lesser one. -/
theorem toNat_field_nearerFields {i : Nat} (hi : i < w.count) :
    (field w.bits (nearerFields w.bits w.count x y) i).toNat =
      min (field w.bits x i).toNat (field w.bits y i).toNat := by
  have hfield : field w.bits (nearerFields w.bits w.count x y) i =
      if secondWins w.bits x y i then field w.bits y i else field w.bits x i :=
    field_join w (fun i => if secondWins w.bits x y i then field w.bits y i
      else field w.bits x i) hi
  rw [hfield, secondWins, BitVec.ule_eq_decide]
  split
  · next hle =>
      rw [decide_eq_true_eq] at hle
      omega
  · next hgt =>
      rw [decide_eq_true_eq] at hgt
      omega

end Graphics

/-! ## Checks -/

section Run

variable {β : Type}

theorem Execute.psr_issue (c : Cpu β) (i : Instruction) (pipe : FloatPipe) (pipelined : Bool)
    (result : PipeSlot) : (issue c i pipe pipelined result).control.psr = c.control.psr := by
  cases pipelined with
  | true => cases pipe <;> rfl
  | false => rfl

variable [Bus β]

namespace Executed

variable (e : Executed β)

/-- Field `i` of the second operand of a depth check is not behind that of the first. -/
def Nearer (w : DepthWidth) (i : Nat) : Prop :=
  (Graphics.field w.bits e.right i).toNat ≤ (Graphics.field w.bits e.left i).toNat

instance (w : DepthWidth) (i : Nat) : Decidable (e.Nearer w i) :=
  inferInstanceAs (Decidable (_ ≤ _))

variable {e} {w : DepthWidth}

/-- What a check delivers, and what it makes of PM. -/
theorem Ran.check (h : e.Ran) (hop : e.word.op = w.check) :
    e.Yields (Graphics.nearerFields w.bits w.count e.left e.right) ∧
      e.after.control.psr.pm =
        Graphics.maskAfterCheck w.bits w.count e.left e.right e.before.control.psr.pm := by
  obtain ⟨slot, ran⟩ := h
  obtain ⟨i, c, d⟩ := e
  have hrun : execute slot i c = .ok () (Execute.depthCheck (w == .long) i c) := by
    unfold execute
    cases w with
    | short => rw [show i.op = .fzchks from hop]; rfl
    | long => rw [show i.op = .fzchkl from hop]; rfl
  have hafter : d = Execute.depthCheck (w == .long) i c := by
    have heq := hrun.symm.trans ran
    cases heq
    rfl
  subst hafter
  cases w with
  | short => exact ⟨yields_of_issue rfl, congrArg Psr.pm (Execute.psr_issue ..)⟩
  | long => exact ⟨yields_of_issue rfl, congrArg Psr.pm (Execute.psr_issue ..)⟩

end Executed

/-! ## Sequences -/

/-- PM is `pm` before the first of some instructions, and `pm'` after the last, and
between two of them it does not change. -/
def HandsOnPm : Byte → List (Executed β) → Byte → Prop
  | pm, [], pm' => pm' = pm
  | pm, e :: rest, pm' => e.before.control.psr.pm = pm ∧ HandsOnPm e.after.control.psr.pm rest pm'

instance decidableHandsOnPm : ∀ pm (log : List (Executed β)) pm',
    Decidable (HandsOnPm pm log pm')
  | pm, [], pm' => inferInstanceAs (Decidable (pm' = pm))
  | _, e :: rest, pm' =>
      have := decidableHandsOnPm e.after.control.psr.pm rest pm'
      inferInstanceAs (Decidable (_ ∧ _))

/-- As many depth checks as PM has room for, and then a store of pixels for each
of them. -/
structure DepthPass (w : DepthWidth) (checks stores : List (Executed β)) (pm pm' : Byte) :
    Prop where
  checks_length : checks.length = 8 / w.count
  stores_length : stores.length = 8 / w.count
  checked : ∀ e ∈ checks, e.Ran ∧ e.word.op = w.check
  stored : ∀ e ∈ stores, e.Ran ∧ e.word.op = .pstD ∧ e.before.control.psr.ps = w.ps
  apart : ∀ e ∈ stores, e.ApartFromTables
  handed : HandsOnPm pm (checks ++ stores) pm'

variable {w : DepthWidth} {checks stores rest : List (Executed β)} {pm pm' : Byte}

namespace HandsOnPm

/-- Checks fill PM from its top. -/
theorem filled (h : HandsOnPm pm (checks ++ rest) pm')
    (hchecked : ∀ e ∈ checks, e.Ran ∧ e.word.op = w.check) :
    HandsOnPm (checks.foldl
      (fun pm e => Graphics.maskAfterCheck w.bits w.count e.left e.right pm) pm) rest pm' := by
  induction checks generalizing pm with
  | nil => exact h
  | cons e checks ih =>
      obtain ⟨rfl, hrest⟩ := h
      obtain ⟨hran, hop⟩ := hchecked e List.mem_cons_self
      rw [(hran.check hop).2] at hrest
      exact ih hrest fun e' he' => hchecked e' (List.mem_cons_of_mem e he')

/-- Stores empty it from its bottom. -/
theorem drained [PlainMemory β] (h : HandsOnPm pm stores pm')
    (hstored : ∀ e ∈ stores, e.Ran ∧ e.word.op = .pstD ∧ e.before.control.psr.ps = w.ps)
    (hapart : ∀ e ∈ stores, e.ApartFromTables) :
    pm' = pm >>> (w.count * stores.length) ∧
      ∀ j (hj : j < stores.length),
        stores[j].StoresPixels w.size fun i => pm.getLsbD (w.count * j + i) = true := by
  induction stores generalizing pm with
  | nil => exact ⟨h, fun j hj => absurd hj (Nat.not_lt_zero j)⟩
  | cons e stores ih =>
      obtain ⟨rfl, hrest⟩ := h
      obtain ⟨hran, hop, hps⟩ := hstored e List.mem_cons_self
      obtain ⟨hpixels, hpm⟩ := hran.store hop (DepthWidth.pixelSize_eq hps)
        (hapart e List.mem_cons_self)
      rw [hpm, w.perDouble_size] at hrest
      obtain ⟨hend, hothers⟩ := ih hrest
        (fun e' he' => hstored e' (List.mem_cons_of_mem e he'))
        (fun e' he' => hapart e' (List.mem_cons_of_mem e he'))
      refine ⟨?_, fun j hj => ?_⟩
      · rw [hend, ← BitVec.shiftRight_add, List.length_cons, Nat.mul_succ, Nat.add_comm]
      -- The rest of the stores see PM further down by the places of one.
      · cases j with
        | zero => simpa using hpixels
        | succ j =>
            have hj : j < stores.length := by simpa using hj
            have hrest := hothers j hj
            simp only [BitVec.getLsbD_ushiftRight] at hrest
            have hplace : ∀ i, w.count + (w.count * j + i) = w.count * (j + 1) + i := by
              intro i
              rw [Nat.mul_succ]
              omega
            simp only [hplace] at hrest
            exact hrest

end HandsOnPm

omit [Bus β] in
/-- After as many checks as PM has room for, field `i` of check number `j` has its
bit at the place that number `j` of the stores looks at for pixel `i`. -/
theorem getLsbD_filled (pm : Byte) (hlength : checks.length = 8 / w.count) {i j : Nat}
    (hi : i < w.count) (hj : j < checks.length) :
    (checks.foldl (fun pm e => Graphics.maskAfterCheck w.bits w.count e.left e.right pm)
      pm).getLsbD (w.count * j + i) =
      Graphics.secondWins w.bits checks[j].left checks[j].right i := by
  have hin : w.count * j + i < 8 := by
    cases w <;> simp only [DepthWidth.count] at * <;> omega
  -- From the top it is in the share of as many checks as there are behind this one.
  have hnumber : (7 - (w.count * j + i)) / w.count = checks.length - 1 - j := by
    cases w <;> simp only [DepthWidth.count] at * <;> omega
  have hfield : w.count - 1 - (7 - (w.count * j + i)) % w.count = i := by
    cases w <;> simp only [DepthWidth.count] at * <;> omega
  have hfound : checks.reverse[checks.length - 1 - j]? = some checks[j] := by
    have hback : checks.length - 1 - (checks.length - 1 - j) = j := by omega
    rw [List.getElem?_reverse (by omega), hback, List.getElem?_eq_getElem hj]
  have hshifted := shifted_in (fun (pm : Byte) => pm.getMsbD) w.count_pos
    (fun pm (e : Executed β) _ ht => Graphics.getMsbD_maskAfterCheck w e.left e.right pm ht) pm
    checks (t := 7 - (w.count * j + i)) (by omega)
  have hplace : 8 - 1 - (7 - (w.count * j + i)) = w.count * j + i := by omega
  have hlast : 7 - (w.count * j + i) < 8 := by omega
  rw [BitVec.getMsbD_eq_getLsbD, hplace, decide_eq_true hlast, Bool.true_and] at hshifted
  rw [hshifted, shiftedIn, hnumber, hfound]
  show Graphics.secondWins _ _ _ (w.count - 1 - (7 - (w.count * j + i)) % w.count) = _
  rw [hfield]

omit [Bus β] in
theorem Executed.nearer_iff (e : Executed β) (i : Nat) :
    e.Nearer w i ↔ Graphics.secondWins w.bits e.left e.right i = true := by
  rw [Nearer, Graphics.secondWins, BitVec.ule_eq_decide, decide_eq_true_eq]

/-- Depth checks select the pixels that stores write. Over as many checks as PM has
room for, and as many stores behind them, store number `j` writes of its operand the
pixels for which check number `j` has found the second depth not behind the first,
and nothing else of it. It does not matter what PM has held before, and it holds
zero afterwards. A check delivers the lesser of the two depths in every field. -/
theorem depth_checks_select_pixels [PlainMemory β] (pass : DepthPass w checks stores pm pm') :
    (∀ e ∈ checks, ∃ v, e.Yields v ∧ ∀ i < w.count,
      (Graphics.field w.bits v i).toNat =
        min (Graphics.field w.bits e.left i).toNat (Graphics.field w.bits e.right i).toNat) ∧
      (∀ j (hc : j < checks.length) (hs : j < stores.length),
        stores[j].StoresPixels w.size (checks[j].Nearer w)) ∧
      pm' = 0#8 := by
  obtain ⟨hend, hstores⟩ := (pass.handed.filled pass.checked).drained pass.stored pass.apart
  refine ⟨fun e he => ?_, fun j hc hs => ?_, ?_⟩
  · obtain ⟨hran, hop⟩ := pass.checked e he
    exact ⟨_, (hran.check hop).1, fun i hi => Graphics.toNat_field_nearerFields w _ _ hi⟩
  · refine (hstores j hs).congr fun i hi => ?_
    rw [w.perDouble_size] at hi
    rw [getLsbD_filled pm pass.checks_length hi hc, checks[j].nearer_iff]
  · have hall : w.count * stores.length = 8 := by
      rw [pass.stores_length]
      cases w <;> rfl
    rw [hend, hall]
    exact BitVec.ushiftRight_eq_zero (Nat.le_refl 8)

end Run

/-- Two depth checks, and two stores of what they deliver. PM is not empty. -/
def twoDepthChecks : Cpu OpenMemory :=
  (Cpu.before 0x1000#32
    [(0x1000#32, [0x48c821df#32, 0x488a31df#32, 0x3c080100#32, 0x3c0a0108#32])]).writeControl
      .psr 0xa5400000#32

/-- The first check finds two fields of four nearer, and of the first double two
pixels are written. -/
theorem depth_checks_select_pixels_of_two :
    let log := executedByStep twoDepthChecks ++ executedByStep twoDepthChecks.step
    DepthPass .short (log.take 2) (log.drop 2) 0xa5#8 0#8 ∧
      ∃ check store, log[0]? = some check ∧ log[2]? = some store ∧
        (∀ i < 4, check.Nearer .short i ↔ i = 1 ∨ i = 3) ∧
        store.StoresPixels .bits16 (check.Nearer .short) := by
  intro log
  have hsession : Session twoDepthChecks log twoDepthChecks.step.step := .step (.step .begin)
  have hran : ∀ e ∈ log, e.Ran := fun _ he => hsession.ran he
  have hchecked : ∀ e ∈ log.take 2, e.word.op = .fzchks := by decide +kernel
  have hstored : ∀ e ∈ log.drop 2, e.word.op = .pstD ∧ e.before.control.psr.ps = 1#2 := by
    decide +kernel
  have hphysical : ∀ e ∈ log.drop 2, e.before.control.dirbase.ate = false := by
    decide +kernel
  have hpass : DepthPass .short (log.take 2) (log.drop 2) 0xa5#8 0#8 :=
    { checks_length := by decide +kernel
      stores_length := by decide +kernel
      checked := fun e he => ⟨hran e (List.mem_of_mem_take he), hchecked e he⟩
      stored := fun e he => ⟨hran e (List.mem_of_mem_drop he), hstored e he⟩
      apart := fun e he _ _ hate => by rw [hphysical e he] at hate; cases hate
      handed := by rw [List.take_append_drop]; decide +kernel }
  have hnearer : ∀ e ∈ log.take 1, ∀ i < 4, e.Nearer .short i ↔ i = 1 ∨ i = 3 := by
    decide +kernel
  have hchecks : 0 < (log.take 2).length := by decide +kernel
  have hstores : 0 < (log.drop 2).length := by decide +kernel
  have hpixels := (depth_checks_select_pixels hpass).2.1 0 hchecks hstores
  refine ⟨hpass, _, _, ?check, ?store, ?nearer, hpixels⟩
  case check =>
    rw [← List.getElem?_eq_getElem hchecks]
    exact (List.getElem?_take_of_lt (by omega)).symm
  case store =>
    rw [← List.getElem?_eq_getElem hstores, List.getElem?_drop]
  case nearer =>
    refine hnearer _ (List.mem_of_getElem? (i := 0) ?_)
    rw [← List.getElem?_eq_getElem hchecks, List.getElem?_take_of_lt (by omega),
      List.getElem?_take_of_lt (by omega)]

end I860
