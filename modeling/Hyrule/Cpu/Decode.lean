import Hyrule.Cpu.Hart

/-!
# Decoding instructions

`instruction_decoding_per_type` of `translation.c` and `sign_extend32` of
`util.h`.  The fields of an instruction word are cut out as the encoding type
says, and the others are zero.  An immediate of a jump or a branch is counted in
half words: the translators shift it before they extend its sign.
-/

namespace Hyrule

/-- `enum INSTRUCTION_ENCODING_TYPE`.  No caller passes `ENCODING_TYPE_UNKNOWN`. -/
inductive EncodingType where
  | u
  | i
  | uj
  | s
  | b
  | r
deriving DecidableEq, Repr

/-- `struct decoding`. -/
structure Decoding where
  instrEncodingType : EncodingType
  opcode : Byte
  funct3 : Byte
  rdIndex : Byte
  rs1Index : Byte
  rs2Index : Byte
  funct7 : Byte
  imm : Word

/-- `(intrs >> shift) & mask`. -/
def bits (intrs : Word) (shift : Nat) (mask : Word) : Word := (intrs >>> shift) &&& mask

/-- The bits of a field that is a `uint8_t`. -/
def byteField (intrs : Word) (shift : Nat) (mask : Word) : Byte :=
  (bits intrs shift mask).setWidth 8

/-- `instruction_decoding_per_type`. -/
def instructionDecodingPerType (intrs : Word) (encodingType : EncodingType) : Decoding :=
  let dec : Decoding :=
    { instrEncodingType := encodingType
      opcode := byteField intrs 0 0x7f
      funct3 := 0
      rdIndex := 0
      rs1Index := 0
      rs2Index := 0
      funct7 := 0
      imm := 0 }
  match encodingType with
  | .u => { dec with
      rdIndex := byteField intrs 7 0x1f
      imm := bits intrs 12 0xfffff }
  | .uj => { dec with
      rdIndex := byteField intrs 7 0x1f
      imm := bits intrs 21 0x3ff ||| bits intrs 20 0x1 <<< 10 ||| bits intrs 12 0xff <<< 11 |||
        bits intrs 31 0x1 <<< 19 }
  | .i => { dec with
      rdIndex := byteField intrs 7 0x1f
      funct3 := byteField intrs 12 7
      rs1Index := byteField intrs 15 0x1f
      imm := bits intrs 20 0xfff }
  | .s => { dec with
      funct3 := byteField intrs 12 7
      rs1Index := byteField intrs 15 0x1f
      rs2Index := byteField intrs 20 0x1f
      imm := bits intrs 7 0x1f ||| bits intrs 25 0x7f <<< 5 }
  | .b => { dec with
      funct3 := byteField intrs 12 0x7
      rs1Index := byteField intrs 15 0x1f
      rs2Index := byteField intrs 20 0x1f
      imm := bits intrs 8 0xf ||| bits intrs 25 0x3f <<< 4 ||| bits intrs 7 0x1 <<< 10 |||
        bits intrs 31 0x1 <<< 11 }
  | .r => { dec with
      funct3 := byteField intrs 12 0x7
      rdIndex := byteField intrs 7 0x1f
      rs1Index := byteField intrs 15 0x1f
      rs2Index := byteField intrs 20 0x1f
      funct7 := byteField intrs 25 0x7f }

/-- `sign_extend32`.  The loop sets the bits from the sign bit on if it is set. -/
def signExtend32 (data : Word) (signBit : Nat) : Word :=
  let sign := (data >>> signBit) &&& 1
  (List.range' signBit (32 - signBit)).foldl (fun ret bitPosition => ret ||| sign <<< bitPosition)
    data

end Hyrule
