import I860.Isa.Instruction
/-!
# Routes of dual operations

A dual operation issues a multiplication and an addition together. Four bits of the word
choose, for each of the four operands, where it comes from, and whether the registers T and K
are loaded.
-/

namespace I860

/-- Where an operand of a dual operation comes from. -/
inductive RouteSource where
  | src1
  | src2
  | kr
  | ki
  | t
  /-- The last stage of the adder. -/
  | adderLast
  /-- The last stage of the multiplier. -/
  | multiplierLast
  deriving DecidableEq, Repr

/-- One row of the routing table. -/
structure Route where
  /-- The ending of the mnemonic. -/
  name : String
  multiply1 : RouteSource
  multiply2 : RouteSource
  add1 : RouteSource
  add2 : RouteSource
  /-- T is loaded from the last stage of the multiplier. -/
  loadsT : Bool
  /-- K is loaded from the first source. -/
  loadsK : Bool
  deriving DecidableEq, Repr

namespace Route

/-- The rows of the routing table. -/
def table : Vector Route 16 := #v[
  ⟨"r2p1", .kr, .src2, .src1, .multiplierLast, false, true⟩,
  ⟨"r2pt", .kr, .src2, .t, .multiplierLast, false, true⟩,
  ⟨"r2ap1", .kr, .src2, .src1, .adderLast, true, true⟩,
  ⟨"r2apt", .kr, .src2, .t, .adderLast, true, true⟩,
  ⟨"i2p1", .ki, .src2, .src1, .multiplierLast, false, true⟩,
  ⟨"i2pt", .ki, .src2, .t, .multiplierLast, false, true⟩,
  ⟨"i2ap1", .ki, .src2, .src1, .adderLast, true, true⟩,
  ⟨"i2apt", .ki, .src2, .t, .adderLast, true, true⟩,
  ⟨"rat1p2", .kr, .adderLast, .src1, .src2, true, false⟩,
  ⟨"m12apm", .src1, .src2, .adderLast, .multiplierLast, false, false⟩,
  ⟨"ra1p2", .kr, .adderLast, .src1, .src2, false, false⟩,
  ⟨"m12ttpa", .src1, .src2, .t, .adderLast, true, false⟩,
  ⟨"iat1p2", .ki, .adderLast, .src1, .src2, true, false⟩,
  ⟨"m12tpm", .src1, .src2, .t, .multiplierLast, false, false⟩,
  ⟨"ia1p2", .ki, .adderLast, .src1, .src2, false, false⟩,
  ⟨"m12tpa", .src1, .src2, .t, .adderLast, false, false⟩]

/-- Whether the K register that the row works with is KI and not KR. -/
def usesKi (r : Route) : Bool := r.multiply1 == .ki

end Route

/-- The route of a dual operation. -/
def Instruction.route (i : Instruction) : Route := Route.table[i.routeField]

end I860
