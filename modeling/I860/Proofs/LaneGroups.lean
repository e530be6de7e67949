import I860.Proofs.Coherence
import I860.Proofs.SizedAccess

/-!
# Operands in the floating registers

An operand of a floating load or store is one, two or four words, and the
registers for it are as many lanes, of which it names any. Which lanes these are
is a matter of one quotient: two lanes lie in one group if their numbers divided
by the size of the group are the same. The remainder is then the place of a lane
in the operand.

There are three routines to read a group and three to write one, and each finds
the group in its own way. They come to the same: word `m` of what is stored is
the lane at place `m` (`wordOf_readStored`), and a load puts word `m` there and
changes nothing else (`readLane_writeLoaded`). The lanes 0 and 1 are stored as
zero, and a load passes them by. What was said of words is then said of bytes,
because these are what memory has (`byteOf_readStored_writeLoaded`).
-/

namespace I860

/-- The words of an operand in the floating registers. -/
def Width.lanes : Width → Nat
  | .quad => 4
  | .double => 2
  | _ => 1

theorem Width.lanes_pos (w : Width) : 0 < w.lanes := by
  cases w <;> decide

def Width.SameGroup (w : Width) (i k : RegNum) : Prop := k.val / w.lanes = i.val / w.lanes

instance (w : Width) (i k : RegNum) : Decidable (w.SameGroup i k) :=
  inferInstanceAs (Decidable (_ = _))

/-- The lane that byte `q` of an operand is in. -/
def Width.laneOf (w : Width) (i : RegNum) (q : Nat) : Nat := i.val / w.lanes * w.lanes + q / 4

theorem Width.laneOf_spec (w : Width) (i : RegNum) {q : Nat} (hq : q < 4 * w.lanes) :
    w.laneOf i q < 32 ∧ w.laneOf i q / w.lanes = i.val / w.lanes ∧
      w.laneOf i q % w.lanes = q / 4 := by
  unfold laneOf
  cases w with
  | byte | half | word | double | quad =>
      simp only [lanes] at hq ⊢
      omega

/-- A lane by itself is a group. -/
theorem Width.SameGroup.eq {w : Width} {i k : RegNum} (h : w.SameGroup i k)
    (hone : w.lanes = 1) : k = i := by
  unfold SameGroup at h
  rw [hone, Nat.div_one, Nat.div_one] at h
  exact Fin.ext h

/-- Word `m` of a number, counted from the least significant one. -/
def wordOf (v : Quad) (m : Nat) : Word := (v >>> (32 * m)).setWidth 32

/-! ## Numbers by their words -/

theorem getLsbD_wordOf (v : Quad) (m j : Nat) :
    (wordOf v m).getLsbD j = (decide (j < 32) && v.getLsbD (32 * m + j)) := by
  simp [wordOf]

theorem byteOf_wordOf (v : Quad) (m : Nat) {k : Nat} (hk : k < 4) :
    byteOf ((wordOf v m).setWidth 128) k = byteOf v (4 * m + k) := by
  apply BitVec.eq_of_getLsbD_eq
  intro j hj
  have hword : 8 * k + j < 32 := by omega
  have hquad : 8 * k + j < 128 := by omega
  have hplace : 32 * m + (8 * k + j) = 8 * (4 * m + k) + j := by omega
  rw [getLsbD_byteOf, getLsbD_byteOf, BitVec.getLsbD_setWidth, getLsbD_wordOf, hplace,
    decide_eq_true hword, decide_eq_true hquad, Bool.true_and, Bool.true_and]

theorem wordOf_low (v : Quad) {count m : Nat} (h : 4 * m + 4 ≤ count) :
    wordOf ((v.setWidth (8 * count)).setWidth 128) m = wordOf v m := by
  apply BitVec.eq_of_getLsbD_eq
  intro j hj
  have hin : 32 * m + j < 8 * count := by omega
  rw [getLsbD_wordOf, getLsbD_wordOf, BitVec.getLsbD_setWidth, BitVec.getLsbD_setWidth,
    decide_eq_true hin, Bool.true_and]
  by_cases hquad : 32 * m + j < 128
  · rw [decide_eq_true hquad, Bool.true_and]
  · rw [BitVec.getLsbD_of_ge v _ (by omega), Bool.and_false]

namespace Execute

theorem wordOf_quadOfWords (words : List Word) {m : Nat} (hm : m < 4) :
    wordOf (quadOfWords words) m = (words[m]?).getD 0#32 := by
  induction words generalizing m with
  | nil => simp [quadOfWords, wordOf]
  | cons word rest ih =>
      apply BitVec.eq_of_getLsbD_eq
      intro j hj
      have hquad : 32 * m + j < 128 := by omega
      rw [getLsbD_wordOf, decide_eq_true hj, Bool.true_and, quadOfWords, List.foldr_cons,
        BitVec.getLsbD_or, BitVec.getLsbD_shiftLeft, BitVec.getLsbD_setWidth]
      cases m with
      | zero =>
          have hin : j < 128 := by omega
          simp [hj, hin]
      | succ m =>
          have hbehind : ¬32 * (m + 1) + j < 32 := by omega
          have hback : 32 * (m + 1) + j - 32 = 32 * m + j := by omega
          have hrest := congrArg (BitVec.getLsbD · j) (ih (m := m) (by omega))
          simp only [getLsbD_wordOf, decide_eq_true hj, Bool.true_and] at hrest
          rw [BitVec.getLsbD_of_ge word _ (by omega), hback, List.getElem?_cons_succ, ← hrest,
            decide_eq_true hquad, decide_eq_false hbehind, Bool.and_false, Bool.or_false]
          rfl

theorem getElem?_wordsOfQuad (v : Quad) {m : Nat} (hm : m < 4) :
    (wordsOfQuad v)[m]? = some (wordOf v m) := by
  match m with
  | 0 | 1 | 2 | 3 => rfl
  | m + 4 => omega

end Execute

/-! ## The three pairs of routines -/

namespace FloatRegs

variable (r : FloatRegs) {i k : RegNum}

theorem groupBase_four (i : RegNum) : groupBase i 4 = i.val / 4 * 4 := by
  have hlog : ceilLog2 4 = 2 := by decide
  rw [groupBase, hlog]
  omega

theorem groupBase_of_quotient {j : RegNum} (h : j.val / 4 = i.val / 4) :
    groupBase j 4 = groupBase i 4 := by
  rw [groupBase_four, groupBase_four, h]

theorem pair_of_quotient {j : RegNum} (h : j.val / 2 = i.val / 2) :
    evenLane j = evenLane i ∧ oddLane j = oddLane i ∧ (j.val < 2 ↔ i.val < 2) := by
  refine ⟨Fin.ext ?_, Fin.ext ?_, ?_⟩
  · simp only [evenLane, h]
  · simp only [oddLane, h]
  · omega

theorem getElem_fillFrom (lanes : Vector Word 32) {base : Nat} {words : List Word}
    (h : base + words.length ≤ 32) (k : RegNum) :
    (fillFrom lanes base words)[k] =
      if base ≤ k.val then (words[k.val - base]?).getD lanes[k] else lanes[k] := by
  induction words generalizing lanes base with
  | nil => simp [fillFrom]
  | cons v rest ih =>
      simp only [List.length_cons] at h
      have hbase : (Fin.ofNat 32 base).val = base := Nat.mod_eq_of_lt (by omega)
      rw [fillFrom, ih _ (by omega)]
      simp only [Fin.getElem_fin]
      rcases Nat.lt_trichotomy k.val base with hbefore | hhere | hbehind
      · rw [if_neg (by omega), if_neg (by omega), Vector.getElem_set_ne _ _ (by omega)]
      · subst hhere
        rw [if_neg (by omega), if_pos (Nat.le_refl _), Nat.sub_self, List.getElem?_cons_zero]
        simp only [hbase, Vector.getElem_set_self, Option.getD_some]
      · have hnext : k.val - base = k.val - (base + 1) + 1 := by omega
        rw [if_pos (by omega), if_pos (by omega), hnext, List.getElem?_cons_succ,
          Vector.getElem_set_ne _ _ (by omega)]

theorem lane_of_pair (h : k.val / 2 = i.val / 2) :
    k.val % 2 = 0 ∧ k = evenLane i ∨ k.val % 2 = 1 ∧ k = oddLane i := by
  rcases Nat.mod_two_eq_zero_or_one k.val with hplace | hplace
  · exact .inl ⟨hplace, Fin.ext (by simp only [evenLane]; omega)⟩
  · exact .inr ⟨hplace, Fin.ext (by simp only [oddLane]; omega)⟩

/-- The lanes 0 and 1 can be told from what is read only by the others. -/
theorem ext_of_readLane {r s : FloatRegs} (hr : r.ZeroLanes) (hs : s.ZeroLanes)
    (h : ∀ k, r.readLane k = s.readLane k) : r = s := by
  obtain ⟨lanes⟩ := r
  obtain ⟨lanes'⟩ := s
  congr 1
  apply Vector.ext
  intro k hk
  rcases Nat.lt_or_ge k 2 with hzero | hkeeps
  · match k with
    | 0 => exact hr.1.trans hs.1.symm
    | 1 => exact hr.2.trans hs.2.symm
    | k + 2 => omega
  · have hlane := h ⟨k, hk⟩
    unfold readLane at hlane
    rw [if_neg (Nat.not_lt.2 hkeeps), if_neg (Nat.not_lt.2 hkeeps)] at hlane
    exact hlane

end FloatRegs

namespace Execute

open FloatRegs

variable (r : FloatRegs) (w : Width) {i j k : RegNum}

theorem wordOf_append (high low : Word) :
    wordOf ((high ++ low).setWidth 128) 0 = low ∧ wordOf ((high ++ low).setWidth 128) 1 = high := by
  constructor
  · apply BitVec.eq_of_getLsbD_eq
    intro j hj
    have hquad : 32 * 0 + j < 128 := by omega
    have hlow : 32 * 0 + j < 32 := by omega
    rw [getLsbD_wordOf, BitVec.getLsbD_setWidth, BitVec.getLsbD_append, if_pos hlow,
      decide_eq_true hquad, decide_eq_true hj, Bool.true_and, Bool.true_and, Nat.mul_zero,
      Nat.zero_add]
  · apply BitVec.eq_of_getLsbD_eq
    intro j hj
    have hquad : 32 * 1 + j < 128 := by omega
    have hhigh : ¬32 * 1 + j < 32 := by omega
    have hback : 32 * 1 + j - 32 = j := by omega
    rw [getLsbD_wordOf, BitVec.getLsbD_setWidth, BitVec.getLsbD_append, if_neg hhigh,
      decide_eq_true hquad, decide_eq_true hj, Bool.true_and, Bool.true_and, hback]

theorem wordOf_double (v : Quad) :
    (v.setWidth 64 : Double).setWidth 32 = wordOf v 0 ∧
      ((v.setWidth 64 : Double) >>> 32).setWidth 32 = wordOf v 1 := by
  constructor
  · apply BitVec.eq_of_getLsbD_eq
    intro j hj
    have hdouble : j < 64 := by omega
    rw [getLsbD_wordOf, BitVec.getLsbD_setWidth, BitVec.getLsbD_setWidth, decide_eq_true hdouble,
      Bool.true_and, Nat.mul_zero, Nat.zero_add]
  · apply BitVec.eq_of_getLsbD_eq
    intro j hj
    have hdouble : 32 + j < 64 := by omega
    rw [getLsbD_wordOf, BitVec.getLsbD_setWidth, BitVec.getLsbD_ushiftRight,
      BitVec.getLsbD_setWidth, decide_eq_true hdouble, Bool.true_and]

theorem wordOf_readGroup (h : k.val / 4 = i.val / 4) :
    wordOf (quadOfWords (r.readGroup i 4)) (k.val % 4) = r.readLane k := by
  have hplace : k.val % 4 < 4 := Nat.mod_lt _ (by omega)
  have hlane : Fin.ofNat 32 (groupBase i 4 + k.val % 4) = k := by
    apply Fin.ext
    rw [groupBase_four]
    show (i.val / 4 * 4 + k.val % 4) % 32 = k.val
    omega
  rw [wordOf_quadOfWords _ hplace, readGroup, List.getElem?_map, List.getElem?_range hplace,
    Option.map_some, Option.getD_some, hlane]

theorem wordOf_readPair (h : k.val / 2 = i.val / 2) :
    wordOf ((r.readPair i).setWidth 128) (k.val % 2) = r.readLane k := by
  by_cases hzero : i.val < 2
  · have hpair : r.readPair i = 0#64 := if_pos hzero
    have hlane : r.readLane k = 0#32 := if_pos (by omega)
    rw [hpair, hlane]
    simp [wordOf]
  · have hpair : r.readPair i = r.lanes[oddLane i] ++ r.lanes[evenLane i] := if_neg hzero
    have hlane : r.readLane k = r.lanes[k] := if_neg (by omega)
    rw [hpair, hlane]
    obtain ⟨hlow, hhigh⟩ := wordOf_append r.lanes[oddLane i] r.lanes[evenLane i]
    rcases lane_of_pair h with ⟨hplace, rfl⟩ | ⟨hplace, rfl⟩
    · rw [hplace, hlow]
    · rw [hplace, hhigh]

theorem lanes_loadGroup (v : Quad) (hkeeps : 2 ≤ k.val) :
    (r.loadGroup i (wordsOfQuad v)).lanes[k] =
      if k.val / 4 = i.val / 4 then wordOf v (k.val % 4) else r.lanes[k] := by
  have hlength : (wordsOfQuad v).length = 4 := rfl
  have hfits : i.val / 4 * 4 + (wordsOfQuad v).length ≤ 32 := by omega
  have hfilled := getElem_fillFrom r.lanes hfits k
  have hcleared : (0 : RegNum).val ≠ k.val ∧ (1 : RegNum).val ≠ k.val := by
    show 0 ≠ k.val ∧ 1 ≠ k.val
    omega
  simp only [Fin.getElem_fin] at hfilled ⊢
  simp only [loadGroup, hlength, groupBase_four]
  rw [Vector.getElem_set_ne _ _ hcleared.2, Vector.getElem_set_ne _ _ hcleared.1, hfilled]
  by_cases hgroup : k.val / 4 = i.val / 4
  · have hplace : k.val - i.val / 4 * 4 = k.val % 4 := by omega
    rw [if_pos (by omega), if_pos hgroup, hplace,
      getElem?_wordsOfQuad v (Nat.mod_lt _ (by omega)), Option.getD_some]
  · rw [if_neg hgroup]
    split
    · next hbehind => rw [List.getElem?_eq_none (by omega), Option.getD_none]
    · rfl

theorem lanes_writePair (v : Quad) (hkeeps : 2 ≤ k.val) :
    (r.writePair i (v.setWidth 64)).lanes[k] =
      if k.val / 2 = i.val / 2 then wordOf v (k.val % 2) else r.lanes[k] := by
  obtain ⟨hlow, hhigh⟩ := wordOf_double v
  have heven : (evenLane i).val = i.val / 2 * 2 := rfl
  have hodd : (oddLane i).val = i.val / 2 * 2 + 1 := rfl
  simp only [Fin.getElem_fin]
  by_cases hgroup : k.val / 2 = i.val / 2
  · have hwritten : ¬i.val < 2 := by omega
    rw [if_pos hgroup, writePair, if_neg hwritten]
    rcases lane_of_pair hgroup with ⟨hplace, rfl⟩ | ⟨hplace, rfl⟩
    · rw [Vector.getElem_set_ne _ _ (by omega), Vector.getElem_set_self, hlow, hplace]
    · rw [Vector.getElem_set_self, hhigh, hplace]
  · rw [if_neg hgroup, writePair]
    split
    · rfl
    · rw [Vector.getElem_set_ne _ _ (by omega), Vector.getElem_set_ne _ _ (by omega)]

theorem lanes_writeLane (v : Word) (hkeeps : 2 ≤ k.val) :
    (r.writeLane i v).lanes[k] = if k = i then v else r.lanes[k] := by
  unfold writeLane
  by_cases hlane : k = i
  · subst hlane
    rw [if_neg (Nat.not_lt.2 hkeeps), if_pos rfl]
    exact Vector.getElem_set_self _
  · rw [if_neg hlane]
    split
    · rfl
    · exact Vector.getElem_set_ne i.isLt k.isLt (fun h => hlane (Fin.ext h.symm))

/-! ## The operand in its lanes -/

theorem wordOf_readStored (h : w.SameGroup i k) :
    wordOf (readStored r i w) (k.val % w.lanes) = r.readLane k := by
  cases w with
  | quad => exact wordOf_readGroup r h
  | double => exact wordOf_readPair r h
  | byte | half | word =>
      obtain rfl : k = i := h.eq rfl
      have hplace : k.val % 1 = 0 := Nat.mod_one _
      show wordOf ((r.readLane k).setWidth 128) (k.val % 1) = r.readLane k
      rw [hplace]
      simp [wordOf]

theorem readLane_writeLoaded (v : Quad) (k : RegNum) :
    (writeLoaded r i w v).readLane k =
      if w.SameGroup i k ∧ 2 ≤ k.val then wordOf v (k.val % w.lanes) else r.readLane k := by
  rcases Nat.lt_or_ge k.val 2 with hzero | hkeeps
  · have hread : ∀ s : FloatRegs, s.readLane k = 0#32 := fun s => if_pos hzero
    rw [hread, if_neg (by omega), hread]
  have hread : ∀ s : FloatRegs, s.readLane k = s.lanes[k] := fun s => if_neg (by omega)
  rw [hread, hread]
  simp only [hkeeps, and_true]
  cases w with
  | quad => exact lanes_loadGroup r v hkeeps
  | double => exact lanes_writePair r v hkeeps
  | byte | half | word =>
      refine (lanes_writeLane r _ hkeeps).trans ?_
      have hsame : k = i ↔ k.val / 1 = i.val / 1 := by
        rw [Nat.div_one, Nat.div_one, Fin.ext_iff]
      have hplace : k.val % 1 = 0 := Nat.mod_one _
      simp only [Width.SameGroup, Width.lanes, hsame, hplace]
      rfl

/-! ## Groups -/

theorem readStored_of_sameGroup (h : w.SameGroup i j) : readStored r j w = readStored r i w := by
  cases w with
  | quad => simp only [readStored, readGroup, groupBase_of_quotient h]
  | double =>
      obtain ⟨heven, hodd, hzero⟩ := pair_of_quotient h
      unfold readStored readPair
      simp only [heven, hodd, hzero]
  | byte | half | word =>
      obtain rfl : j = i := h.eq rfl
      rfl

theorem writeLoaded_of_sameGroup (h : w.SameGroup i j) (v : Quad) :
    writeLoaded r j w v = writeLoaded r i w v := by
  cases w with
  | quad =>
      have hlength : (wordsOfQuad v).length = 4 := rfl
      simp only [writeLoaded, loadGroup, hlength, groupBase_of_quotient h]
  | double =>
      obtain ⟨heven, hodd, hzero⟩ := pair_of_quotient h
      unfold writeLoaded writePair
      simp only [heven, hodd, hzero]
  | byte | half | word =>
      obtain rfl : j = i := h.eq rfl
      rfl

/-! ## There and back -/

theorem readLane_writeLoaded_readStored {v : Quad}
    (hwords : ∀ m < w.lanes, wordOf v m = wordOf (readStored r i w) m) (k : RegNum) :
    (writeLoaded r i w v).readLane k = r.readLane k := by
  rw [readLane_writeLoaded]
  split
  · next h => rw [hwords _ (Nat.mod_lt _ w.lanes_pos), wordOf_readStored r w h.1]
  · rfl

theorem byteOf_readStored_writeLoaded (v : Quad) {q : Nat} (hq : q < 4 * w.lanes) :
    byteOf (readStored (writeLoaded r i w v) i w) q =
      if w.laneOf i q < 2 then 0#8 else byteOf v q := by
  obtain ⟨hin, hquotient, hplace⟩ := w.laneOf_spec i hq
  have hgroup : w.SameGroup i ⟨w.laneOf i q, hin⟩ := hquotient
  have hword := wordOf_readStored (writeLoaded r i w v) w hgroup
  rw [readLane_writeLoaded, hplace] at hword
  have hbyte : ∀ u : Quad, byteOf u q = byteOf ((wordOf u (q / 4)).setWidth 128) (q % 4) := by
    intro u
    rw [byteOf_wordOf u _ (Nat.mod_lt _ (by omega)), Nat.div_add_mod]
  rw [hbyte, hword]
  by_cases hzero : w.laneOf i q < 2
  · have hread : r.readLane ⟨w.laneOf i q, hin⟩ = 0#32 := if_pos hzero
    rw [if_pos hzero, if_neg (fun h => Nat.not_lt.2 h.2 hzero), hread]
    simp [byteOf]
  · rw [if_neg hzero, if_pos ⟨hgroup, Nat.le_of_not_lt hzero⟩, ← hbyte]

end Execute

end I860
