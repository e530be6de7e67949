import I860.Board.Access
import I860.Cpu.State
import I860.Isa.Listing

/-!
# Reading a listing

A line of a listing is a mnemonic, a blank, and operands with commas in between. What
a line says is what can be read in it again: the register, displacement and `++` of an
address operand, the size behind the dot of the mnemonic, the address at the end of a
branch. The readers here know nothing about instruction words.

Reading a line back works because no field has a separator in it. All fields but the
addresses are words of letters, digits and signs (`IsWord`), and an address is two of
them with parentheses.
-/

namespace I860

namespace Listing

/-- An address operand: a base register, an index register or a displacement that is added
to it, and whether the sum is written back. -/
structure AddressOperand where
  base : RegNum
  index : RegNum ⊕ Int
  increment : Bool
  deriving DecidableEq, Repr

/-- The address that an operand says in a state. -/
def AddressOperand.address {β : Type} (a : AddressOperand) (c : Cpu β) : VirtAddr :=
  c.readInt a.base + a.index.elim c.readInt (BitVec.ofInt 32)

/-! ## Readers -/

def mnemonicOf (text : String) : List Char := (text.toList.splitOn ' ').headD []

def operandsOf (text : String) : List (List Char) :=
  match text.toList.splitOn ' ' with
  | [_, operands] => operands.splitOn ','
  | _ => []

/-- A number by its digits, of which there is at least one. -/
def number? (base : Nat) (digits : List Char) : Option Nat :=
  if digits.isEmpty then none else Text.ofDigits? base digits

def register? : List Char → Option RegNum
  | 'r' :: digits => (number? 10 digits).bind fun n => if h : n < 32 then some ⟨n, h⟩ else none
  | _ => none

def displacement? : List Char → Option Int
  | '-' :: digits => (number? 10 digits).map fun n : Nat => -(n : Int)
  | digits => (number? 10 digits).map Int.ofNat

def index? (field : List Char) : Option (RegNum ⊕ Int) :=
  ((register? field).map .inl).or ((displacement? field).map .inr)

def increment? : List Char → Option Bool
  | [] => some false
  | ['+', '+'] => some true
  | _ => none

def address? (operand : List Char) : Option AddressOperand :=
  match operand.splitOn '(' with
  | [index, rest] =>
      match rest.splitOn ')' with
      | [base, sign] => do return ⟨← register? base, ← index? index, ← increment? sign⟩
      | _ => none
  | _ => none

def width? : List Char → Option Width
  | ['b'] => some .byte
  | ['s'] => some .half
  | ['l'] => some .word
  | ['d'] => some .double
  | ['q'] => some .quad
  | _ => none

def target? : List Char → Option Word
  | '0' :: 'x' :: digits => (number? 16 digits).map (BitVec.ofNat 32)
  | _ => none

/-- The address operand of a line. -/
def shownAddress? (text : String) : Option AddressOperand := (operandsOf text).findSome? address?

/-- The size of an access. -/
def shownWidth? (text : String) : Option Width :=
  ((mnemonicOf text).splitOn '.').getLast?.bind width?

/-- The address that a branch goes to. -/
def shownTarget? (text : String) : Option Word := (operandsOf text).getLast?.bind target?

/-- The register that a branch goes to. -/
def shownRegister? (text : String) : Option RegNum := (operandsOf text).getLast?.bind register?

/-! ## Numbers -/

theorem digit?_digitChar {base d : Nat} (hbase : base ≤ 16) (hd : d < base) :
    Text.digit? base d.digitChar = some d := by
  have hvalue : ∀ d < 16, (if '0' ≤ d.digitChar ∧ d.digitChar ≤ '9' then
      some (d.digitChar.toNat - '0'.toNat)
    else if 'a' ≤ d.digitChar ∧ d.digitChar ≤ 'z' then some (d.digitChar.toNat - 'a'.toNat + 10)
    else if 'A' ≤ d.digitChar ∧ d.digitChar ≤ 'Z' then some (d.digitChar.toNat - 'A'.toNat + 10)
    else none) = some d := by
    decide
  unfold Text.digit?
  rw [hvalue d (by omega), Option.filter_some, decide_eq_true hd, if_pos rfl]

theorem ofDigits?_concat (base : Nat) (digits : List Char) (c : Char) :
    Text.ofDigits? base (digits ++ [c]) =
      (Text.ofDigits? base digits).bind fun n =>
        (Text.digit? base c).map (n * base + ·) := by
  rw [Text.ofDigits?, List.foldlM_append]
  simp only [List.foldlM_cons, List.foldlM_nil, bind_pure]
  rfl

/-- The digits of a number are read as that number. -/
theorem ofDigits?_toDigits {base : Nat} (hone : 1 < base) (hbase : base ≤ 16) (n : Nat) :
    Text.ofDigits? base (Nat.toDigits base n) = some n := by
  -- As the digits are written: the last one is the remainder, the others are the quotient's.
  induction n using Nat.strongRecOn with
  | ind n ih =>
      rcases Nat.lt_or_ge n base with hlt | hge
      · rw [Nat.toDigits_of_lt_base hlt]
        show (Text.digit? base n.digitChar).map (0 * base + ·) >>= pure = some n
        rw [digit?_digitChar hbase hlt]
        simp
      · rw [Nat.toDigits_of_base_le hone hge, ofDigits?_concat,
          ih _ (Nat.div_lt_self (by omega) hone), Option.bind_some,
          digit?_digitChar hbase (Nat.mod_lt _ (by omega)), Option.map_some,
          Nat.div_add_mod']

theorem number?_toDigits {base : Nat} (hone : 1 < base) (hbase : base ≤ 16) (n : Nat) :
    number? base (Nat.toDigits base n) = some n := by
  rw [number?, if_neg (by simp [Nat.toDigits_ne_nil]), ofDigits?_toDigits hone hbase]

/-! ## Words -/

/-- Nothing but letters, digits and signs. -/
def IsWord (cs : List Char) : Prop := ∀ c ∈ cs, c.isAlphanum = true ∨ c = '-'

instance (cs : List Char) : Decidable (IsWord cs) :=
  List.decidableBAll (fun c : Char => c.isAlphanum = true ∨ c = '-') cs

/-- Nothing but digits and signs. -/
def IsNumeral (cs : List Char) : Prop := ∀ c ∈ cs, c.isDigit = true ∨ c = '-'

theorem IsNumeral.isWord {cs : List Char} (h : IsNumeral cs) : IsWord cs := fun c hc =>
  (h c hc).imp_left fun hdigit => by rw [Char.isAlphanum, hdigit, Bool.or_true]

theorem IsWord.cons {c : Char} {cs : List Char} (hc : c.isAlphanum = true ∨ c = '-')
    (h : IsWord cs) : IsWord (c :: cs) := by
  rintro d (_ | ⟨_, hd⟩)
  · exact hc
  · exact h d hd

/-- A separator is in no word. -/
theorem IsWord.not_mem {cs : List Char} (h : IsWord cs) {sep : Char}
    (hsep : sep.isAlphanum = false) (hsign : sep ≠ '-') : sep ∉ cs := by
  intro hmem
  rcases h sep hmem with hc | hc
  · rw [hsep] at hc
    cases hc
  · exact hsign hc

theorem isNumeral_nat (n : Nat) : IsNumeral (toString n).toList := by
  intro c hc
  rw [Nat.toString_eq_ofList_toDigits, String.toList_ofList] at hc
  exact .inl (Nat.isDigit_of_mem_toDigits (by decide) (by decide) hc)

theorem isNumeral_int (n : Int) : IsNumeral (toString n).toList := by
  show IsNumeral n.repr.toList
  rw [Int.repr_eq_if]
  split
  · exact isNumeral_nat _
  · rw [String.toList_append]
    intro c hc
    rcases List.mem_append.1 hc with hc | hc
    · exact .inr (List.mem_singleton.1 hc)
    · exact isNumeral_nat _ c hc

theorem toList_intReg (r : RegNum) : (intReg r).toList = 'r' :: (toString r.val).toList := by
  rw [intReg, String.toList_append]
  rfl

theorem toList_floatReg (r : RegNum) : (floatReg r).toList = 'f' :: (toString r.val).toList := by
  rw [floatReg, String.toList_append]
  rfl

theorem isWord_intReg (r : RegNum) : IsWord (intReg r).toList := by
  rw [toList_intReg]
  exact .cons (by decide) (isNumeral_nat _).isWord

theorem isWord_floatReg (r : RegNum) : IsWord (floatReg r).toList := by
  rw [toList_floatReg]
  exact .cons (by decide) (isNumeral_nat _).isWord

theorem register?_intReg (r : RegNum) : register? (intReg r).toList = some r := by
  rw [toList_intReg]
  show (number? 10 (toString r.val).toList).bind _ = some r
  rw [Nat.toString_eq_ofList_toDigits, String.toList_ofList,
    number?_toDigits (by decide) (by decide), Option.bind_some, dif_pos r.isLt]

/-- A numeral is no register. -/
theorem register?_numeral {cs : List Char} (h : IsNumeral cs) : register? cs = none := by
  unfold register?
  split
  · next digits =>
      rcases h 'r' (List.mem_cons_self ..) with hc | hc
      · cases hc
      · cases hc
  · rfl

/-- Without a sign, a displacement is a number. -/
theorem displacement?_unsigned {cs : List Char} (h : '-' ∉ cs) :
    displacement? cs = (number? 10 cs).map Int.ofNat := by
  unfold displacement?
  split
  · exact absurd (List.mem_cons_self ..) h
  · rfl

theorem displacement?_int (n : Int) : displacement? (toString n).toList = some n := by
  show displacement? n.repr.toList = some n
  rw [Int.repr_eq_if]
  split
  · next hpos =>
      have hunsigned : '-' ∉ Nat.toDigits 10 n.toNat := fun hmem =>
        absurd (Nat.isDigit_of_mem_toDigits (by decide) (by decide) hmem) (by decide)
      rw [Nat.repr_eq_ofList_toDigits, String.toList_ofList, displacement?_unsigned hunsigned,
        number?_toDigits (by decide) (by decide), Option.map_some, Int.ofNat_eq_natCast,
        Int.toNat_of_nonneg hpos]
  · next hneg =>
      have hsign : "-".toList = ['-'] := rfl
      rw [String.toList_append, hsign, Nat.repr_eq_ofList_toDigits, String.toList_ofList,
        List.singleton_append, displacement?, number?_toDigits (by decide) (by decide),
        Option.map_some, Int.toNat_of_nonneg (by omega), Int.neg_neg]

/-! ## Addresses -/

def indexText : RegNum ⊕ Int → String
  | .inl r => intReg r
  | .inr n => toString n

def AddressOperand.text (a : AddressOperand) : String :=
  indexText a.index ++ "(" ++ intReg a.base ++ ")" ++ (if a.increment then "++" else "")

theorem isWord_indexText (index : RegNum ⊕ Int) : IsWord (indexText index).toList := by
  cases index with
  | inl r => exact isWord_intReg r
  | inr n => exact (isNumeral_int n).isWord

theorem index?_indexText (index : RegNum ⊕ Int) : index? (indexText index).toList = some index := by
  cases index with
  | inl r =>
      show ((register? (intReg r).toList).map Sum.inl).or _ = _
      rw [register?_intReg]
      rfl
  | inr n =>
      show ((register? (toString n).toList).map Sum.inl).or
        ((displacement? (toString n).toList).map Sum.inr) = _
      rw [register?_numeral (isNumeral_int n), displacement?_int]
      rfl

theorem toList_text (a : AddressOperand) :
    a.text.toList = (indexText a.index).toList ++ '(' :: ((intReg a.base).toList ++
      ')' :: (if a.increment then ['+', '+'] else [])) := by
  rw [AddressOperand.text]
  simp only [String.toList_append, List.append_assoc]
  cases a.increment <;> rfl

/-- An address operand is read as it is. -/
theorem address?_text (a : AddressOperand) : address? a.text.toList = some a := by
  have hindex : '(' ∉ (indexText a.index).toList :=
    (isWord_indexText a.index).not_mem (by decide) (by decide)
  have hbase : ∀ sep, sep = '(' ∨ sep = ')' → sep ∉ (intReg a.base).toList := by
    rintro sep (rfl | rfl)
    · exact (isWord_intReg a.base).not_mem (by decide) (by decide)
    · exact (isWord_intReg a.base).not_mem (by decide) (by decide)
  have hrest : '(' ∉ (intReg a.base).toList ++ ')' :: (if a.increment then ['+', '+'] else []) := by
    rw [List.mem_append, not_or]
    refine ⟨hbase _ (.inl rfl), ?_⟩
    cases a.increment <;> decide
  have hsign : ')' ∉ (if a.increment then ['+', '+'] else []) := by
    cases a.increment <;> decide
  have hincrement : increment? (if a.increment then ['+', '+'] else []) = some a.increment := by
    cases a.increment <;> rfl
  -- The parentheses are where they were put, as no word has one in it.
  rw [toList_text]
  unfold address?
  rw [List.splitOn_append_cons_self_of_not_mem hindex, List.splitOn_eq_singleton hrest]
  dsimp only
  rw [List.splitOn_append_cons_self_of_not_mem (hbase _ (.inr rfl)),
    List.splitOn_eq_singleton hsign]
  dsimp only
  rw [register?_intReg, index?_indexText, hincrement]
  rfl

/-- No operand has a blank or comma in it. -/
def IsOperand (cs : List Char) : Prop := ' ' ∉ cs ∧ ',' ∉ cs

theorem IsWord.isOperand {cs : List Char} (h : IsWord cs) : IsOperand cs :=
  ⟨h.not_mem (by decide) (by decide), h.not_mem (by decide) (by decide)⟩

theorem isOperand_text (a : AddressOperand) : IsOperand a.text.toList := by
  have hindex := (isWord_indexText a.index).isOperand
  have hbase := (isWord_intReg a.base).isOperand
  rw [IsOperand, toList_text]
  simp only [List.mem_append, List.mem_cons, not_or]
  cases a.increment <;>
    exact ⟨⟨hindex.1, by decide, hbase.1, by decide, by decide⟩,
      ⟨hindex.2, by decide, hbase.2, by decide, by decide⟩⟩

/-! ## Lines -/

/-- A line with its mnemonic and its operands. -/
def line (mnemonic : String) (operands : List String) : String :=
  mnemonic ++ " " ++ ",".intercalate operands

variable {mnemonic : String} {operands : List String}

theorem splitOn_intercalate (hne : operands ≠ [])
    (h : ∀ o ∈ operands, IsOperand o.toList) :
    ' ' ∉ (",".intercalate operands).toList ∧
      (",".intercalate operands).toList.splitOn ',' = operands.map String.toList := by
  induction operands with
  | nil => exact absurd rfl hne
  | cons first rest ih =>
      obtain ⟨hblank, hcomma⟩ := h first (List.mem_cons_self ..)
      cases rest with
      | nil =>
          rw [String.intercalate_singleton, List.splitOn_eq_singleton hcomma]
          exact ⟨hblank, rfl⟩
      | cons second rest =>
          obtain ⟨hblanks, hsplit⟩ := ih (List.cons_ne_nil _ _) fun o ho => h o (.tail _ ho)
          have hsep : ",".toList = [','] := rfl
          rw [String.intercalate_cons_cons, String.toList_append, String.toList_append, hsep,
            List.append_assoc, List.singleton_append,
            List.splitOn_append_cons_self_of_not_mem hcomma, hsplit]
          refine ⟨?_, rfl⟩
          rw [List.mem_append, List.mem_cons]
          rintro (hmem | hmem | hmem)
          · exact hblank hmem
          · exact absurd hmem (by decide)
          · exact hblanks hmem

theorem splitOn_line (hmnemonic : ' ' ∉ mnemonic.toList) (hne : operands ≠ [])
    (h : ∀ o ∈ operands, IsOperand o.toList) :
    (line mnemonic operands).toList.splitOn ' ' =
      [mnemonic.toList, (",".intercalate operands).toList] := by
  have hsep : " ".toList = [' '] := rfl
  rw [line, String.toList_append, String.toList_append, hsep, List.append_assoc,
    List.singleton_append, List.splitOn_append_cons_self_of_not_mem hmnemonic,
    List.splitOn_eq_singleton (splitOn_intercalate hne h).1]

/-- The operands of a line are read as they are. -/
theorem operandsOf_line (hmnemonic : ' ' ∉ mnemonic.toList) (hne : operands ≠ [])
    (h : ∀ o ∈ operands, IsOperand o.toList) :
    operandsOf (line mnemonic operands) = operands.map String.toList := by
  rw [operandsOf, splitOn_line hmnemonic hne h]
  exact (splitOn_intercalate hne h).2

theorem mnemonicOf_line (hmnemonic : ' ' ∉ mnemonic.toList) (hne : operands ≠ [])
    (h : ∀ o ∈ operands, IsOperand o.toList) :
    mnemonicOf (line mnemonic operands) = mnemonic.toList := by
  rw [mnemonicOf, splitOn_line hmnemonic hne h]
  rfl

/-- A word is no address. -/
theorem address?_word {cs : List Char} (h : IsWord cs) : address? cs = none := by
  rw [address?, List.splitOn_eq_singleton (h.not_mem (by decide) (by decide))]

/-! ## Targets -/

theorem isWord_toDigits (n : Nat) : IsWord (Nat.toDigits 16 n) := by
  have hdigit : ∀ d < 16, d.digitChar.isAlphanum = true ∨ d.digitChar = '-' := by decide
  induction n using Nat.strongRecOn with
  | ind n ih =>
      rcases Nat.lt_or_ge n 16 with hlt | hge
      · rw [Nat.toDigits_of_lt_base hlt]
        exact .cons (hdigit n hlt) fun c hc => nomatch hc
      · rw [Nat.toDigits_of_base_le (by decide) hge]
        intro c hc
        rcases List.mem_append.1 hc with hc | hc
        · exact ih _ (Nat.div_lt_self (by omega) (by decide)) c hc
        · rw [List.mem_singleton.1 hc]
          exact hdigit _ (Nat.mod_lt _ (by decide))

/-- A marked number is digits with zeros in front. -/
theorem toList_markedHexOf (v : Word) : ∃ k, (Text.markedHexOf v).toList =
    '0' :: 'x' :: (List.replicate k '0' ++ Nat.toDigits 16 v.toNat) := by
  have hmark : "0x".toList = ['0', 'x'] := rfl
  refine ⟨8 - (Text.hexDigits v.toNat).length, ?_⟩
  rw [Text.markedHexOf, Text.hexOf, Text.hex, Text.padLeft, String.toList_append,
    String.toList_append, hmark, String.toList_ofList]
  rw [Text.hexDigits, String.toList_ofList]
  rfl

theorem isWord_markedHexOf (v : Word) : IsWord (Text.markedHexOf v).toList := by
  obtain ⟨k, hk⟩ := toList_markedHexOf v
  rw [hk]
  refine .cons (by decide) (.cons (by decide) fun c hc => ?_)
  rcases List.mem_append.1 hc with hc | hc
  · rw [List.eq_of_mem_replicate hc]
    decide
  · exact isWord_toDigits _ c hc

theorem ofDigits?_zeros (k : Nat) (digits : List Char) :
    Text.ofDigits? 16 (List.replicate k '0' ++ digits) = Text.ofDigits? 16 digits := by
  induction k with
  | zero => rfl
  | succ k ih => exact ih

theorem target?_markedHexOf (v : Word) : target? (Text.markedHexOf v).toList = some v := by
  obtain ⟨k, hk⟩ := toList_markedHexOf v
  rw [hk]
  show (number? 16 _).map _ = some v
  rw [number?, if_neg (by simp [Nat.toDigits_ne_nil]), ofDigits?_zeros,
    ofDigits?_toDigits (by decide) (by decide), Option.map_some, BitVec.ofNat_toNat,
    BitVec.setWidth_eq]

end Listing

end I860
