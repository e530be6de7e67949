import I860.Execute.LoadStore
import I860.Proofs.ListingText

/-!
# What lines show

The lines of loads, stores, flushes and branches, and what is read in them: an address
operand and a width, or an address to go to. The line that an instruction word gets is
brought into the form of mnemonic and operands (`text_load`, `text_store`, `text_flush`,
`text_longBranch`, `text_shortBranch`), and then it is read as any such line is.
-/

namespace I860

open Execute Listing

/-! ## Kinds of operations -/

namespace Op

/-- Whether an operation is a load or a store. -/
def accessesMemory : Op → Bool
  | .ldInt | .stInt | .fld | .fst | .pfld | .pstD => true
  | _ => false

/-- Whether an operation is a branch to an address that its word gives. -/
def isDirectBranch : Op → Bool
  | .br | .call | .bc | .bcT | .bnc | .bncT | .bte | .btne | .bla => true
  | _ => false

/-- Whether an operation is a branch to an address in a register. -/
def isIndirectBranch : Op → Bool
  | .bri | .calli => true
  | _ => false

end Op

/-! ## What is shown -/

namespace Listing

/-- The ending of a mnemonic for a width. -/
def widthSuffix : Width → String
  | .byte => ".b"
  | .half => ".s"
  | .word => ".l"
  | .double => ".d"
  | .quad => ".q"

/-- The index register of an instruction, or its displacement for a width. -/
def indexOf (i : Instruction) (w : Width) : RegNum ⊕ Int :=
  if i.hasImmediate then .inr (i.signedImm16 &&& w.alignMask).toInt else .inl i.src1

/-- The address operand that the line of a load, a store or a flush shows. -/
def addressOperand (i : Instruction) : AddressOperand :=
  match i.op with
  | .ldInt => ⟨i.src2, indexOf i (intWidth i), false⟩
  | .stInt => ⟨i.src2, .inr (i.splitOffset &&& (intWidth i).alignMask).toInt, false⟩
  | .pstD => ⟨i.src2, .inr (i.signedImm16 &&& Width.alignMask .double).toInt, false⟩
  | .flush => ⟨i.src2, .inr (i.signedImm16 &&& Width.alignMask .quad).toInt, false⟩
  | _ => ⟨i.src2, indexOf i (floatWidth i), i.autoIncrement⟩

/-- The width that the line of a load or store shows. -/
def widthOf (i : Instruction) : Width :=
  match i.op with
  | .ldInt | .stInt => intWidth i
  | .pstD => .double
  | _ => floatWidth i

theorem intSize_eq (i : Instruction) :
    intSize i = (widthSuffix (intWidth i), (intWidth i).alignMask) := by
  unfold intSize intWidth
  cases i.raw.getLsbD 28 <;> cases i.raw.getLsbD 0 <;> rfl

theorem floatSize_eq (i : Instruction) :
    floatSize i = (widthSuffix (floatWidth i), (floatWidth i).alignMask) := by
  unfold floatSize floatWidth
  cases i.raw.getLsbD 2 <;> cases i.raw.getLsbD 1 <;> rfl

theorem indexText_indexOf (i : Instruction) (w : Width) :
    indexText (indexOf i w) =
      if i.hasImmediate then displacement i.signedImm16 w.alignMask else intReg i.src1 := by
  unfold indexOf
  split <;> rfl

theorem line_singleton (name operand : String) : line name [operand] = name ++ " " ++ operand := by
  rw [line, String.intercalate_singleton]

theorem line_pair (name first second : String) :
    line name [first, second] = name ++ " " ++ first ++ "," ++ second := by
  rw [line, String.intercalate_cons_cons, String.intercalate_singleton]
  simp only [String.append_assoc]

theorem line_triple (name first second third : String) :
    line name [first, second, third] =
      name ++ " " ++ first ++ "," ++ second ++ "," ++ third := by
  rw [line, String.intercalate_cons_cons, String.intercalate_cons_cons,
    String.intercalate_singleton]
  simp only [String.append_assoc]

section Lines

variable {mnemonic register : String} {t : String} (hm : IsWord mnemonic.toList) (w : Width)
  (a : AddressOperand) (hr : IsWord register.toList)

include hm

theorem blank_not_mem_suffixed : ' ' ∉ (mnemonic ++ widthSuffix w).toList := by
  rw [String.toList_append, List.mem_append, not_or]
  refine ⟨hm.isOperand.1, ?_⟩
  cases w <;> decide

/-- The width is read behind the dot of the mnemonic. -/
theorem width?_suffixed :
    ((mnemonic ++ widthSuffix w).toList.splitOn '.').getLast?.bind width? = some w := by
  have hdot : '.' ∉ mnemonic.toList := hm.not_mem (by decide) (by decide)
  rw [String.toList_append]
  cases w <;> exact (congrArg (fun parts => (List.getLast? parts).bind width?)
    (List.splitOn_append_cons_self_of_not_mem hdot _))

include hr

theorem shown_of_load :
    shownAddress? (line (mnemonic ++ widthSuffix w) [a.text, register]) = some a ∧
      shownWidth? (line (mnemonic ++ widthSuffix w) [a.text, register]) = some w := by
  have hblank := blank_not_mem_suffixed hm w
  have hoperands : ∀ o ∈ [a.text, register], IsOperand o.toList :=
    List.forall_mem_cons.2 ⟨isOperand_text a, List.forall_mem_singleton.2 hr.isOperand⟩
  rw [shownAddress?, shownWidth?, operandsOf_line hblank (by simp) hoperands,
    mnemonicOf_line hblank (by simp) hoperands, width?_suffixed hm]
  refine ⟨?_, rfl⟩
  rw [List.map_cons, List.findSome?_cons, address?_text]

theorem shown_of_store :
    shownAddress? (line (mnemonic ++ widthSuffix w) [register, a.text]) = some a ∧
      shownWidth? (line (mnemonic ++ widthSuffix w) [register, a.text]) = some w := by
  have hblank := blank_not_mem_suffixed hm w
  have hoperands : ∀ o ∈ [register, a.text], IsOperand o.toList :=
    List.forall_mem_cons.2 ⟨hr.isOperand, List.forall_mem_singleton.2 (isOperand_text a)⟩
  rw [shownAddress?, shownWidth?, operandsOf_line hblank (by simp) hoperands,
    mnemonicOf_line hblank (by simp) hoperands, width?_suffixed hm]
  refine ⟨?_, rfl⟩
  rw [List.map_cons, List.findSome?_cons, address?_word hr, List.map_cons, List.findSome?_cons,
    address?_text]

end Lines

section Texts

variable {i : Instruction} (pc : Word)

theorem floatAddress_eq (i : Instruction) :
    floatAddress i = AddressOperand.text ⟨i.src2, indexOf i (floatWidth i), i.autoIncrement⟩ := by
  rw [floatAddress, floatSize_eq, AddressOperand.text, indexText_indexOf]

theorem text_unincremented (base : RegNum) (index : RegNum ⊕ Int) :
    AddressOperand.text ⟨base, index, false⟩ = indexText index ++ "(" ++ intReg base ++ ")" := by
  rw [AddressOperand.text, if_neg Bool.false_ne_true, String.append_empty]

/-- The line of a load. -/
theorem text_load (hop : i.op = .ldInt ∨ i.op = .fld ∨ i.op = .pfld) :
    ∃ mnemonic register, IsWord mnemonic.toList ∧ IsWord register.toList ∧
      text pc i =
        line (mnemonic ++ widthSuffix (widthOf i)) [(addressOperand i).text, register] := by
  simp only [line_pair]
  rcases hop with hop | hop | hop <;> rw [text, widthOf, addressOperand, hop]
  · have hclose : ("),": String) = ")" ++ "," := rfl
    refine ⟨"ld", intReg i.dest, by decide, isWord_intReg _, ?_⟩
    dsimp only
    rw [intSize_eq, text_unincremented, indexText_indexOf, hclose]
    simp only [String.append_assoc]
  · refine ⟨"fld", floatReg i.dest, by decide, isWord_floatReg _, ?_⟩
    rw [floatSize_eq, floatAddress_eq]
  · refine ⟨"pfld", floatReg i.dest, by decide, isWord_floatReg _, ?_⟩
    rw [floatSize_eq, floatAddress_eq]

/-- The line of a store. -/
theorem text_store (hop : i.op = .stInt ∨ i.op = .fst ∨ i.op = .pstD) :
    ∃ mnemonic register, IsWord mnemonic.toList ∧ IsWord register.toList ∧
      text pc i =
        line (mnemonic ++ widthSuffix (widthOf i)) [register, (addressOperand i).text] := by
  simp only [line_pair]
  rcases hop with hop | hop | hop <;> rw [text, widthOf, addressOperand, hop]
  · refine ⟨"st", intReg i.src1, by decide, isWord_intReg _, ?_⟩
    dsimp only
    rw [intSize_eq, text_unincremented, indexText, displacement]
    simp only [String.append_assoc]
  · refine ⟨"fst", floatReg i.dest, by decide, isWord_floatReg _, ?_⟩
    rw [floatSize_eq, floatAddress_eq]
  · have hname : ("pst.d " : String) = "pst" ++ widthSuffix .double ++ " " := rfl
    refine ⟨"pst", floatReg i.dest, by decide, isWord_floatReg _, ?_⟩
    dsimp only
    rw [text_unincremented, indexText, displacement, hname]
    simp only [String.append_assoc]
    rfl

theorem text_flush (hop : i.op = .flush) : text pc i = line "flush" [(addressOperand i).text] := by
  have hname : ("flush " : String) = "flush" ++ " " := rfl
  rw [line_singleton, text, addressOperand, hop]
  dsimp only
  rw [text_unincremented, indexText, displacement, hname]
  simp only [String.append_assoc]
  rfl

/-- What the line of a load or store shows. -/
theorem shown_of_access (hop : i.op.accessesMemory = true) :
    shownAddress? (text pc i) = some (addressOperand i) ∧
      shownWidth? (text pc i) = some (widthOf i) := by
  have hcases : (i.op = .ldInt ∨ i.op = .fld ∨ i.op = .pfld) ∨
      (i.op = .stInt ∨ i.op = .fst ∨ i.op = .pstD) := by
    revert hop
    generalize i.op = op
    cases op <;> decide
  rcases hcases with hload | hstore
  · obtain ⟨mnemonic, register, hm, hr, htext⟩ := text_load pc hload
    rw [htext]
    exact shown_of_load hm _ _ hr
  · obtain ⟨mnemonic, register, hm, hr, htext⟩ := text_store pc hstore
    rw [htext]
    exact shown_of_store hm _ _ hr

theorem shown_of_flush (hop : i.op = .flush) :
    shownAddress? (text pc i) = some (addressOperand i) := by
  have hoperands : ∀ o ∈ [(addressOperand i).text], IsOperand o.toList :=
    List.forall_mem_singleton.2 (isOperand_text _)
  rw [text_flush pc hop, shownAddress?, operandsOf_line (by decide) (by simp) hoperands,
    List.map_cons, List.findSome?_cons, address?_text]

/-- The address that the word of a direct branch at `pc` gives. -/
def targetOf (pc : Word) (i : Instruction) : Word :=
  match i.op with
  | .bte | .btne | .bla => pc + 4#32 + (i.splitOffset <<< 2)
  | _ => pc + 4#32 + (i.branchOffset <<< 2)

/-- The address at the end of a line. -/
theorem shownTarget?_line {mnemonic : String} (hm : ' ' ∉ mnemonic.toList) {operands : List String}
    (h : ∀ o ∈ operands, IsWord o.toList) (v : Word) :
    shownTarget? (line mnemonic (operands ++ [Text.markedHexOf v])) = some v := by
  have hoperands : ∀ o ∈ operands ++ [Text.markedHexOf v], IsOperand o.toList := by
    intro o ho
    rcases List.mem_append.1 ho with ho | ho
    · exact (h o ho).isOperand
    · rw [List.mem_singleton.1 ho]
      exact (isWord_markedHexOf v).isOperand
  rw [shownTarget?, operandsOf_line hm (by simp) hoperands, List.map_append, List.map_singleton,
    List.getLast?_concat, Option.bind_some, target?_markedHexOf]

/-- The line of a branch with an offset of 26 bits. -/
theorem text_longBranch (hop : i.op = .br ∨ i.op = .call ∨ i.op = .bc ∨ i.op = .bcT ∨
    i.op = .bnc ∨ i.op = .bncT) :
    ∃ name, ' ' ∉ name.toList ∧ text pc i = line name [Text.markedHexOf (targetOf pc i)] := by
  simp only [line_singleton]
  rcases hop with hop | hop | hop | hop | hop | hop <;> rw [text, targetOf, hop]
  · exact ⟨"br", by decide, rfl⟩
  · exact ⟨"call", by decide, rfl⟩
  · exact ⟨"bc", by decide, rfl⟩
  · exact ⟨"bc.t", by decide, rfl⟩
  · exact ⟨"bnc", by decide, rfl⟩
  · exact ⟨"bnc.t", by decide, rfl⟩

/-- The line of a branch that has its offset in two parts. -/
theorem text_shortBranch (hop : i.op = .bte ∨ i.op = .btne ∨ i.op = .bla) :
    ∃ name first, ' ' ∉ name.toList ∧ IsWord first.toList ∧
      text pc i = line name [first, intReg i.src2, Text.markedHexOf (targetOf pc i)] := by
  have hcompare :
      IsWord (if i.hasImmediate then toString i.src1.val else intReg i.src1).toList := by
    split
    · exact (isNumeral_nat _).isWord
    · exact isWord_intReg _
  simp only [line_triple]
  rcases hop with hop | hop | hop <;> rw [text, targetOf, hop]
  · exact ⟨"bte", _, by decide, hcompare, rfl⟩
  · exact ⟨"btne", _, by decide, hcompare, rfl⟩
  · exact ⟨"bla", _, by decide, isWord_intReg i.src1, rfl⟩

/-- What the line of a direct branch shows. -/
theorem shown_of_branch (hop : i.op.isDirectBranch = true) :
    shownTarget? (text pc i) = some (targetOf pc i) := by
  have hcases : (i.op = .br ∨ i.op = .call ∨ i.op = .bc ∨ i.op = .bcT ∨ i.op = .bnc ∨
      i.op = .bncT) ∨ (i.op = .bte ∨ i.op = .btne ∨ i.op = .bla) := by
    revert hop
    generalize i.op = op
    cases op <;> decide
  rcases hcases with hlong | hshort
  · obtain ⟨name, hname, htext⟩ := text_longBranch pc hlong
    rw [htext]
    exact shownTarget?_line hname (List.forall_mem_nil _) _
  · obtain ⟨name, first, hname, hfirst, htext⟩ := text_shortBranch pc hshort
    have hwords : ∀ o ∈ [first, intReg i.src2], IsWord o.toList :=
      List.forall_mem_cons.2 ⟨hfirst, List.forall_mem_singleton.2 (isWord_intReg _)⟩
    rw [htext]
    exact shownTarget?_line hname hwords _

/-- What the line of an indirect branch shows. -/
theorem shown_of_indirect (hop : i.op.isIndirectBranch = true) :
    shownRegister? (text pc i) = some i.src1 := by
  have htext : ∃ name, ' ' ∉ name.toList ∧ text pc i = line name [intReg i.src1] := by
    simp only [line_singleton]
    unfold text
    cases hcase : i.op <;> rw [hcase] at hop <;> try cases hop
    · exact ⟨"bri", by decide, rfl⟩
    · exact ⟨"calli", by decide, rfl⟩
  obtain ⟨name, hname, htext⟩ := htext
  have hoperands : ∀ o ∈ [intReg i.src1], IsOperand o.toList :=
    List.forall_mem_singleton.2 (isWord_intReg _).isOperand
  rw [htext, shownRegister?, operandsOf_line hname (by simp) hoperands]
  exact register?_intReg i.src1

end Texts

end Listing

end I860
