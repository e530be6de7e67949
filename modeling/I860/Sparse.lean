/-!
# Sparse tables

Memory, cache lines and page mappings are all tables indexed by a bit vector of which only
a few entries are ever filled. `Sparse w α` is such a table: a binary tree that follows
the bits of the index from the top. An update shares all it does not touch, and all
operations are recursions on the number of bits left, so they compute in the kernel as
they do when compiled.

The laws to use are `get?_insert` and `get?_erase`.
-/

namespace I860

/-- A binary tree whose paths are the bits of an index, top bit first. -/
inductive RadixTree (α : Type) where
  | empty
  | leaf (value : α)
  | branch (zero one : RadixTree α)
  deriving DecidableEq

namespace RadixTree

variable {α : Type}

/-- The value stored under the low `depth` bits of `key`. -/
def get? : (depth : Nat) → RadixTree α → (key : Nat) → Option α
  | 0, .leaf v, _ => some v
  | d + 1, .branch zero one, k =>
      if k.testBit d then get? d one k else get? d zero k
  | _, _, _ => none

/-- The half of the tree for a clear top bit. -/
def zeroHalf : RadixTree α → RadixTree α
  | .branch zero _ => zero
  | _ => .empty

/-- The half of the tree for a set top bit. -/
def oneHalf : RadixTree α → RadixTree α
  | .branch _ one => one
  | _ => .empty

/-- Puts `entry` under the low `depth` bits of `key`; `none` leaves nothing there. -/
def alter : (depth : Nat) → RadixTree α → (key : Nat) → (entry : Option α) → RadixTree α
  | 0, _, _, some v => .leaf v
  | 0, _, _, none => .empty
  | d + 1, t, k, entry =>
      if k.testBit d then .branch t.zeroHalf (alter d t.oneHalf k entry)
      else .branch (alter d t.zeroHalf k entry) t.oneHalf

theorem get?_empty (d k : Nat) : get? d (.empty : RadixTree α) k = none := by
  cases d <;> rfl

theorem get?_succ (d : Nat) (t : RadixTree α) (k : Nat) :
    get? (d + 1) t k = if k.testBit d then get? d t.oneHalf k else get? d t.zeroHalf k := by
  cases t <;> simp [get?, zeroHalf, oneHalf, get?_empty]

theorem get?_alter (d : Nat) (t : RadixTree α) (k k' : Nat) (entry : Option α) :
    get? d (alter d t k entry) k' =
      if ∀ i < d, k.testBit i = k'.testBit i then entry else get? d t k' := by
  induction d generalizing t with
  | zero => cases entry <;> simp [alter, get?]
  | succ d ih =>
    have hsplit : (∀ i < d + 1, k.testBit i = k'.testBit i) ↔
        (∀ i < d, k.testBit i = k'.testBit i) ∧ k.testBit d = k'.testBit d := by
      constructor
      · exact fun h => ⟨fun i hi => h i (by omega), h d (by omega)⟩
      · rintro ⟨h, hd⟩ i hi
        by_cases hid : i = d
        · exact hid ▸ hd
        · exact h i (by omega)
    rw [get?_succ d t]
    simp only [hsplit]
    cases hk : k.testBit d <;> cases hk' : k'.testBit d <;> simp [alter, get?, hk, hk', ih]

end RadixTree

/-- A table from `w`-bit indices to `α`, empty except where filled. -/
structure Sparse (w : Nat) (α : Type) where
  tree : RadixTree α
  deriving DecidableEq

namespace Sparse

variable {w : Nat} {α : Type}

/-- The table with no entry. -/
def empty : Sparse w α := ⟨.empty⟩

/-- The entry at `k`, if there is one. -/
def get? (s : Sparse w α) (k : BitVec w) : Option α :=
  s.tree.get? w k.toNat

/-- The table with `v` at `k`, whatever was there before. -/
def insert (s : Sparse w α) (k : BitVec w) (v : α) : Sparse w α :=
  ⟨s.tree.alter w k.toNat (some v)⟩

/-- The table with nothing at `k`. -/
def erase (s : Sparse w α) (k : BitVec w) : Sparse w α :=
  ⟨s.tree.alter w k.toNat none⟩

@[simp] theorem get?_empty (k : BitVec w) : (empty : Sparse w α).get? k = none :=
  RadixTree.get?_empty _ _

theorem forall_testBit_eq_iff (k k' : BitVec w) :
    (∀ i < w, k.toNat.testBit i = k'.toNat.testBit i) ↔ k = k' := by
  constructor
  · intro h
    apply BitVec.eq_of_getLsbD_eq
    intro i hi
    simpa [BitVec.getLsbD] using h i hi
  · rintro rfl _ _
    rfl

theorem get?_insert (s : Sparse w α) (k k' : BitVec w) (v : α) :
    (s.insert k v).get? k' = if k = k' then some v else s.get? k' := by
  simp only [get?, insert, RadixTree.get?_alter, forall_testBit_eq_iff]

theorem get?_erase (s : Sparse w α) (k k' : BitVec w) :
    (s.erase k).get? k' = if k = k' then none else s.get? k' := by
  simp only [get?, erase, RadixTree.get?_alter, forall_testBit_eq_iff]

@[simp] theorem get?_insert_self (s : Sparse w α) (k : BitVec w) (v : α) :
    (s.insert k v).get? k = some v := by
  simp [get?_insert]

theorem get?_insert_of_ne (s : Sparse w α) {k k' : BitVec w} (v : α) (h : k ≠ k') :
    (s.insert k v).get? k' = s.get? k' := by
  simp [get?_insert, h]

end Sparse

end I860
