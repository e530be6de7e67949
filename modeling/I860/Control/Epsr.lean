import I860.Word
/-!
# The extended processor status register

It identifies the processor and holds the overflow flag, the byte order of data, the write
protection of supervisor accesses and a copy of the interrupt pin. Identification and pin
cannot be written; write protection, page-table mode and byte order only by a supervisor.

    0-7 type   8-12 stepping   13 IL   14 WP   17 INT   18-21 DCS   22 PBM   23 BE   24 OF

The other bits have no meaning and read back as written.
-/

namespace I860

/-- The extended processor status register, field by field. -/
structure Epsr where
  processorType : Byte
  stepping : BitVec 5
  /-- Interlock. -/
  il : Bool
  /-- Write protection also binds the supervisor. -/
  wp : Bool
  /-- The level of the interrupt pin. -/
  int : Bool
  /-- Size code of the data cache. -/
  dcs : BitVec 4
  /-- Page-table bit mode. -/
  pbm : Bool
  /-- Data accesses are big-endian. -/
  be : Bool
  /-- Integer overflow. -/
  of : Bool
  /-- The bits without a meaning, in place. -/
  other : Word
  deriving DecidableEq, Repr

namespace Epsr

/-- The bits that no write changes: type, stepping, INT and DCS. -/
def readOnly : Word := 0x003e1fff#32

/-- The bits that only a supervisor changes: WP, PBM and BE. -/
def supervisorOnly : Word := 0x00c04000#32

/-- The bits that have a field. -/
def namedBits : Word := 0x01fe7fff#32

def ofBits (v : Word) : Epsr where
  processorType := v.extractLsb' 0 8
  stepping := v.extractLsb' 8 5
  il := v.getLsbD 13
  wp := v.getLsbD 14
  int := v.getLsbD 17
  dcs := v.extractLsb' 18 4
  pbm := v.getLsbD 22
  be := v.getLsbD 23
  of := v.getLsbD 24
  other := v &&& ~~~namedBits

def bits (r : Epsr) : Word :=
  r.processorType.setWidth 32 ||| (r.stepping.setWidth 32 <<< 8) ||| flagBit r.il 13
    ||| flagBit r.wp 14 ||| flagBit r.int 17 ||| (r.dcs.setWidth 32 <<< 18)
    ||| flagBit r.pbm 22 ||| flagBit r.be 23 ||| flagBit r.of 24
    ||| (r.other &&& ~~~namedBits)

/-- The bits that a store leaves alone. -/
def keptBits (user : Bool) : Word := if user then readOnly ||| supervisorOnly else readOnly

/-- The register after a store of `v`, made from user mode or not. -/
def write (r : Epsr) (v : Word) (user : Bool) : Epsr :=
  ofBits ((v &&& ~~~keptBits user) ||| (r.bits &&& keptBits user))

end Epsr

end I860
