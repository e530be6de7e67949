import I860.Board.Access
/-!
# Byte order

The bytes of an operand lie in memory with the least significant one first, or last. One
value of `ByteOrder` decides this for every width; `split` and `join` are the two
directions.
-/

namespace I860

/-- Which end of an operand lies at the lowest address. -/
inductive ByteOrder where
  | little
  | big
  deriving DecidableEq, Repr

/-- The low `count` bytes of `value`, least significant first. -/
def bytesLowFirst (count : Nat) (value : Quad) : List Byte :=
  (List.range count).map fun i => (value >>> (8 * i)).setWidth 8

/-- The number whose bytes, least significant first, are given. -/
def ofBytesLowFirst : List Byte → Quad
  | [] => 0#128
  | b :: rest => (ofBytesLowFirst rest <<< 8) ||| b.setWidth 128

namespace ByteOrder

/-- The order in use when the big-endian control bit has this value. -/
def ofBigEndian (big : Bool) : ByteOrder := if big then .big else .little

/-- The bytes of an operand in address order. -/
def split (order : ByteOrder) (width : Width) (value : Quad) : List Byte :=
  match order with
  | .little => bytesLowFirst width.bytes value
  | .big => (bytesLowFirst width.bytes value).reverse

/-- The operand whose bytes in address order are given. -/
def join (order : ByteOrder) (bytes : List Byte) : Quad :=
  match order with
  | .little => ofBytesLowFirst bytes
  | .big => ofBytesLowFirst bytes.reverse

/-- The name of the order in dumps. -/
def name : ByteOrder → String
  | .little => "Little"
  | .big => "Big"

end ByteOrder

end I860
