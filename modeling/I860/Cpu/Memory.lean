import I860.Cpu.State
/-!
# Reading and writing memory

A data access passes three checks, in this order: alignment, the data breakpoint, and
the page tables. Only after all of them does the board see it, so an access that faults has
moved nothing.
-/

namespace I860

variable {β : Type} [Bus β]

/-- The physical address of `vaddr` under the current privilege. -/
def translate (vaddr : VirtAddr) (access : AccessKind) : Exec β PhysAddr := do
  let c ← get
  let who : Privilege := ⟨c.control.psr.u, c.control.epsr.wp⟩
  let (result, mmu, board) :=
    c.mmu.translate c.order c.board c.control.dirbase vaddr access who
  set { c with mmu := mmu, board := board }
  match result with
  | .ok paddr => return paddr
  | .error kind => raise kind

/-- Whether the data breakpoint catches an access of the given width. -/
def Cpu.hitsBreakpoint (c : Cpu β) (vaddr : VirtAddr) (width : Width) (access : AccessKind) :
    Bool :=
  (if access.isWrite then c.control.psr.bw else c.control.psr.br)
    && vaddr &&& width.alignMask == c.control.db &&& width.alignMask

/-- The physical address of an operand that passes all checks. -/
def checkData (vaddr : VirtAddr) (width : Width) (access : AccessKind) : Exec β PhysAddr := do
  let c ← get
  if vaddr &&& ~~~width.alignMask != 0#32 && c.params.trapMisaligned then raise .dataAccess
  else if c.hitsBreakpoint vaddr width access then raise .dataAccess
  else translate vaddr access

/-- The operand of the given width at `vaddr`. -/
def readMem (vaddr : VirtAddr) (width : Width) : Exec β Quad := do
  let paddr ← checkData vaddr width .read
  let c ← get
  return Bus.load c.order c.board paddr width

/-- Stores an operand of the given width at `vaddr`. -/
def writeMem (vaddr : VirtAddr) (width : Width) (value : Quad) : Exec β Unit := do
  let paddr ← checkData vaddr width .write
  modify fun c => { c with board := Bus.store c.order c.board paddr width value }

/-- Where byte `i` of a double lies, counted from the least significant one. -/
def ByteOrder.byteOffset (order : ByteOrder) (i : Nat) : Word :=
  match order with
  | .little => BitVec.ofNat 32 i
  | .big => BitVec.ofNat 32 (7 - i)

/-- Stores those bytes of a double that `mask` selects, each by itself. -/
def storeSelected (order : ByteOrder) (board : β) (paddr : PhysAddr) (value : Double)
    (mask : Byte) : β :=
  (List.range 8).foldl (fun board i =>
    if mask.getLsbD i then
      Bus.writeByte board (paddr + order.byteOffset i) ((value >>> (8 * i)).setWidth 8)
    else board) board

/-- Stores those bytes of a double at `vaddr` that `mask` selects; bit `i` stands for byte `i`,
counted from the least significant one. -/
def writeMasked (vaddr : VirtAddr) (value : Double) (mask : Byte) : Exec β Unit := do
  let paddr ← checkData vaddr .double .write
  modify fun c =>
    { c with
      board :=
        if mask = 0xff#8 then Bus.store c.order c.board paddr .double (value.setWidth 128)
        else storeSelected c.order c.board paddr value mask }

end I860
