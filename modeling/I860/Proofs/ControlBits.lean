import I860.Control.File

/-!
# Control registers as words

A control register is kept field by field and read and written as one word.
The lemmas here take a word apart that was put together from fields in their
places: a field is found in its own place (`extractLsb'_field`), and nothing of
it anywhere else (`extractLsb'_other_field`, `field_and`). With them each
register is the same again after it was turned into a word and back, provided
that the parts of it that are kept in place hold nothing out of place.

Of the masked writes the lemmas say what they leave alone.
-/

namespace I860

section Fields

variable {b : Bool} {n start len w k : Nat} {x : BitVec w} {v m : Word}

theorem getElem_flagBit (b : Bool) (n k : Nat) (hk : k < 32) :
    (flagBit b n)[k] = (b && decide (k = n)) := by
  unfold flagBit
  cases b
  · simp
  · by_cases h : k = n
    · subst h
      simp
    · simp only [BitVec.ofBool_true, BitVec.getElem_shiftLeft, BitVec.getElem_setWidth]
      simp [h]
      omega

theorem extractLsb'_flagBit (hlen : start + len ≤ 32) (h : n < start ∨ start + len ≤ n) :
    (flagBit b n).extractLsb' start len = 0 := by
  apply BitVec.eq_of_getLsbD_eq
  intro i hi
  have hne : start + i ≠ n := by omega
  rw [BitVec.getLsbD_extractLsb', BitVec.getLsbD_eq_getElem (by omega),
    getElem_flagBit b n _ (by omega)]
  simp [hne]

theorem flagBit_and (h : m.getLsbD n = false) : flagBit b n &&& m = 0#32 := by
  apply BitVec.eq_of_getLsbD_eq
  intro i hi
  rw [BitVec.getLsbD_and, BitVec.getLsbD_eq_getElem hi, getElem_flagBit b n i hi]
  by_cases hin : i = n
  · rw [hin, h]
    simp
  · simp [hin]

theorem extractLsb'_field (h : k + w ≤ 32) : (x.setWidth 32 <<< k).extractLsb' k w = x := by
  apply BitVec.eq_of_getLsbD_eq
  intro i hi
  have hsub : k + i - k = i := by omega
  have hin : k + i < 32 := by omega
  have hfit : i < 32 := by omega
  rw [BitVec.getLsbD_extractLsb', BitVec.getLsbD_shiftLeft, BitVec.getLsbD_setWidth, hsub]
  simp [hi, hin, hfit]

theorem extractLsb'_other_field (h : k + w ≤ start ∨ start + len ≤ k) :
    (x.setWidth 32 <<< k).extractLsb' start len = 0 := by
  apply BitVec.eq_of_getLsbD_eq
  intro i hi
  rw [BitVec.getLsbD_extractLsb', BitVec.getLsbD_shiftLeft, BitVec.getLsbD_setWidth]
  by_cases hlow : start + i < k
  · simp [hlow]
  · have hout : w ≤ start + i - k := by omega
    simp [BitVec.getLsbD_of_ge x _ hout]

theorem field_and (h : m.extractLsb' k w = 0) : (x.setWidth 32 <<< k) &&& m = 0#32 := by
  apply BitVec.eq_of_getLsbD_eq
  intro i hi
  rw [BitVec.getLsbD_and, BitVec.getLsbD_shiftLeft, BitVec.getLsbD_setWidth]
  by_cases hlow : i < k
  · simp [hlow]
  · by_cases hin : i - k < w
    · have hbit := congrArg (BitVec.getLsbD · (i - k)) h
      have hplace : k + (i - k) = i := by omega
      simp only [BitVec.getLsbD_extractLsb', hplace, hin, decide_true, Bool.true_and] at hbit
      simp [hbit]
    · simp [BitVec.getLsbD_of_ge x (i - k) (by omega)]

-- The first field of a word is not shifted, so the lemmas above do not match it.

theorem extractLsb'_first_field (h : w ≤ 32) : (x.setWidth 32).extractLsb' 0 w = x := by
  have hfield := extractLsb'_field (k := 0) (x := x) (by omega)
  rwa [BitVec.shiftLeft_zero] at hfield

theorem extractLsb'_after_first_field (h : w ≤ start) :
    (x.setWidth 32).extractLsb' start len = 0 := by
  have hfield : (x.setWidth 32 <<< 0).extractLsb' start len = 0 :=
    extractLsb'_other_field (by omega)
  rwa [BitVec.shiftLeft_zero] at hfield

theorem first_field_and (h : m.extractLsb' 0 w = 0) : x.setWidth 32 &&& m = 0#32 := by
  have hfield := field_and (k := 0) (x := x) h
  rwa [BitVec.shiftLeft_zero] at hfield

theorem extractLsb'_masked (h : m.extractLsb' start len = 0) :
    (v &&& m).extractLsb' start len = 0 := by
  rw [BitVec.extractLsb'_and, h]
  exact BitVec.and_zero

theorem extractLsb'_unmasked (h : m.extractLsb' start len = BitVec.allOnes len) :
    (v &&& m).extractLsb' start len = v.extractLsb' start len := by
  rw [BitVec.extractLsb'_and, h, BitVec.and_allOnes]

/-- What is under a mask, and there alone. -/
theorem masked_twice (h : v &&& ~~~m = 0#32) : v &&& m &&& m = v := by
  have hsplit : v &&& (m ||| ~~~m) = v := by
    rw [BitVec.or_not_self, BitVec.and_allOnes]
  rw [BitVec.and_or_distrib_left, h, BitVec.or_zero] at hsplit
  rw [hsplit, hsplit]

end Fields

/-! ## To a word and back -/

theorem Psr.ofBits_bits (r : Psr) : Psr.ofBits r.bits = r := by
  cases r
  simp (disch := omega) [ofBits, bits, getElem_flagBit, BitVec.extractLsb'_or,
    extractLsb'_flagBit, extractLsb'_field, extractLsb'_other_field]

theorem Fsr.ofBits_bits (r : Fsr) : Fsr.ofBits r.bits = r := by
  cases r
  simp (disch := omega) [ofBits, bits, getElem_flagBit, BitVec.extractLsb'_or,
    extractLsb'_flagBit, extractLsb'_field, extractLsb'_other_field,
    RoundingMode.ofField_field]

theorem Dirbase.ofBits_bits (r : Dirbase) (h : r.dtb &&& ~~~frameBits = 0#32) :
    Dirbase.ofBits r.bits = r := by
  have hdtb : r.dtb &&& frameBits &&& frameBits = r.dtb := masked_twice h
  have hlow : ∀ k (hk : k < 32), k < 12 → frameBits[k] = false := by decide
  cases r
  simp (disch := first | omega | decide) [ofBits, bits, getElem_flagBit,
    BitVec.extractLsb'_or, extractLsb'_flagBit, extractLsb'_field, extractLsb'_other_field,
    BitVec.and_or_distrib_right, flagBit_and, field_and, extractLsb'_masked, hlow] at hdtb ⊢
  exact hdtb

theorem Epsr.ofBits_bits (r : Epsr) (h : r.other &&& namedBits = 0#32) :
    Epsr.ofBits r.bits = r := by
  have hother : r.other &&& ~~~namedBits &&& ~~~namedBits = r.other :=
    masked_twice (by rwa [BitVec.not_not])
  have hnamed : namedBits[13] = true ∧ namedBits[14] = true ∧ namedBits[17] = true ∧
      namedBits[22] = true ∧ namedBits[23] = true ∧ namedBits[24] = true := by
    decide
  cases r
  simp (disch := first | omega | decide) [ofBits, bits, getElem_flagBit,
    BitVec.extractLsb'_or, extractLsb'_flagBit, extractLsb'_field, extractLsb'_other_field,
    extractLsb'_first_field, extractLsb'_after_first_field, first_field_and,
    BitVec.and_or_distrib_right, flagBit_and, field_and, extractLsb'_masked,
    hnamed] at hother ⊢
  exact hother

/-! ## Writes -/

/-- A write from user mode takes all but the four bits of the supervisor. -/
theorem Psr.write_user (r : Psr) (v : Word) :
    r.write v true = { ofBits v with im := r.im, pim := r.pim, u := r.u, pu := r.pu } := by
  simp only [write, ofBits, supervisorOnly, if_true]
  congr 1
  all_goals simp [bits, getElem_flagBit, BitVec.extractLsb'_or, BitVec.extractLsb'_and]
  all_goals exact BitVec.and_allOnes

/-- No write changes what identifies the processor, nor the bit of the pin. -/
theorem Epsr.write_kept (r : Epsr) (v : Word) (user : Bool) :
    (r.write v user).processorType = r.processorType ∧
      (r.write v user).stepping = r.stepping ∧ (r.write v user).int = r.int ∧
      (r.write v user).dcs = r.dcs := by
  have hnamed : namedBits[17] = true := by decide
  have hkept : (keptBits user)[17] = true := by cases user <;> decide
  cases user
  all_goals simp (disch := first | omega | decide) [write, ofBits, bits, getElem_flagBit,
    BitVec.extractLsb'_or, extractLsb'_flagBit, extractLsb'_field, extractLsb'_other_field,
    extractLsb'_first_field, extractLsb'_after_first_field, extractLsb'_masked,
    extractLsb'_unmasked, hnamed, hkept]

theorem Epsr.other_write (r : Epsr) (v : Word) (user : Bool) :
    (r.write v user).other &&& namedBits = 0#32 := by
  show (_ &&& ~~~namedBits) &&& namedBits = 0#32
  have hapart : ~~~namedBits &&& namedBits = 0#32 := by decide
  rw [BitVec.and_assoc, hapart, BitVec.and_zero]

/-- No write changes the precisions that the pipes have left. -/
theorem Fsr.write_kept (r : Fsr) (v : Word) :
    (r.write v).lrp = r.lrp ∧ (r.write v).irp = r.irp ∧ (r.write v).mrp = r.mrp ∧
      (r.write v).arp = r.arp := by
  have hwritable : writable[27] = false ∧ writable[28] = false ∧ writable[29] = false ∧
      writable[30] = false := by
    decide
  simp [write, ofBits, bits, getElem_flagBit, hwritable]

end I860
