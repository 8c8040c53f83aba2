import Hyrule.Cpu.Encoding

/-!
# The encoding formats

The six formats in which the instruction set packs an instruction into a word.
`Operands` has what a word of each format says: the fields, each in its width, and the
immediate as the signed number that it stands for.  An offset of a branch or a jump
is even, and its lowest bit is not in the word.  `Operands.encode` packs them, and
scatters the bits of an immediate as the instruction set does.

`instruction_decoding_per_type` gives the operands back, and `sign_extend32` the
immediate (`decoding_inverts_encoding`).  Since a format has a place for each of the 32
bits of a word, every word is the encoding of what is decoded from it.
-/

namespace Hyrule

open Riscv

/-! ## Immediates -/

namespace Riscv

/-- The signed numbers of `n` bits that are multiples of a unit. -/
@[ext]
structure Immediate (n : Nat) (unit : Int) where
  value : Int
  lower : -2 ^ (n - 1) ≤ value
  upper : value < 2 ^ (n - 1)
  multiple : unit ∣ value

namespace Immediate

/-- The bits of an immediate in two's complement. -/
def bits {n : Nat} {unit : Int} (imm : Immediate n unit) : BitVec n := BitVec.ofInt n imm.value

/-- The immediate of some bits. -/
def ofBits {n : Nat} (x : BitVec n) : Immediate n 1 where
  value := x.toInt
  lower := x.le_toInt
  upper := BitVec.toInt_lt
  multiple := one_dvd _

/-- The immediate that counts half words. -/
def ofHalves {n : Nat} (x : BitVec n) : Immediate (n + 1) 2 where
  value := 2 * x.toInt
  lower := by
    have h := BitVec.le_two_mul_toInt (x := x)
    simpa using h
  upper := by
    have h := BitVec.two_mul_toInt_lt (x := x)
    simpa using h
  multiple := Int.dvd_mul_right 2 _

theorem toInt_bits {n : Nat} {unit : Int} (imm : Immediate n unit) (hn : 0 < n) :
    imm.bits.toInt = imm.value :=
  BitVec.toInt_ofInt_eq_self hn imm.lower imm.upper

theorem bits_ofBits {n : Nat} (x : BitVec n) : (ofBits x).bits = x := BitVec.ofInt_toInt

/-- The lowest bit of an even immediate is not set. -/
theorem getLsbD_bits_zero {n : Nat} (imm : Immediate n 2) : imm.bits.getLsbD 0 = false := by
  obtain ⟨k, hk⟩ := imm.multiple
  have hbits : imm.bits = BitVec.ofInt n k <<< 1 := by
    have htwo : BitVec.ofInt n 2 = BitVec.twoPow n 1 := by
      apply BitVec.eq_of_toNat_eq
      rw [BitVec.toNat_twoPow, BitVec.ofInt_ofNat, BitVec.toNat_ofNat]
    rw [bits, hk, BitVec.ofInt_mul, htwo, BitVec.twoPow_mul_eq_shiftLeft]
  rw [hbits, BitVec.getLsbD_shiftLeft]
  simp

theorem bits_ofHalves {n : Nat} (x : BitVec n) : (ofHalves x).bits = x ++ 0#1 := by
  apply BitVec.eq_of_toInt_eq
  rw [toInt_bits _ (Nat.succ_pos n), BitVec.toInt_append]
  cases n with
  | zero => simp [ofHalves, BitVec.eq_nil x]
  | succ n => simp [ofHalves]

theorem bits_injective {n : Nat} {unit : Int} (hn : 0 < n) {a b : Immediate n unit}
    (h : a.bits = b.bits) : a = b := by
  ext
  rw [← a.toInt_bits hn, ← b.toInt_bits hn, h]

theorem ofBits_bits {n : Nat} (hn : 0 < n) (imm : Immediate n 1) : ofBits imm.bits = imm :=
  bits_injective hn (bits_ofBits imm.bits)

/-- An even immediate is the bits above its lowest one, in half words. -/
theorem bits_eq_append {n : Nat} (imm : Immediate (n + 1) 2) :
    imm.bits.extractLsb' 1 n ++ 0#1 = imm.bits := by
  apply BitVec.eq_of_getLsbD_eq
  intro i hi
  rw [BitVec.getLsbD_append]
  cases i with
  | zero => simpa using imm.getLsbD_bits_zero.symm
  | succ i => simp [show i < n by omega, Nat.add_comm 1 i]

theorem ofHalves_bits {n : Nat} (imm : Immediate (n + 1) 2) :
    ofHalves (imm.bits.extractLsb' 1 n) = imm :=
  bits_injective (Nat.succ_pos n) (by rw [bits_ofHalves, bits_eq_append])

end Immediate

/-! ## Operands -/

/-- What an instruction word says, by its format. -/
inductive Operands where
  | u (opcode : BitVec 7) (rd : BitVec 5) (imm : BitVec 20)
  | uj (opcode : BitVec 7) (rd : BitVec 5) (imm : Immediate 21 2)
  | i (opcode : BitVec 7) (funct3 : BitVec 3) (rd rs1 : BitVec 5) (imm : Immediate 12 1)
  | s (opcode : BitVec 7) (funct3 : BitVec 3) (rs1 rs2 : BitVec 5) (imm : Immediate 12 1)
  | b (opcode : BitVec 7) (funct3 : BitVec 3) (rs1 rs2 : BitVec 5) (imm : Immediate 13 2)
  | r (opcode : BitVec 7) (funct3 : BitVec 3) (funct7 : BitVec 7) (rd rs1 rs2 : BitVec 5)

namespace Operands

def format : Operands → EncodingType
  | .u .. => .u
  | .uj .. => .uj
  | .i .. => .i
  | .s .. => .s
  | .b .. => .b
  | .r .. => .r

/-- The instruction word, the highest bits first. -/
def encode : Operands → Word
  | .u opcode rd imm => imm ++ rd ++ opcode
  | .uj opcode rd imm =>
      imm.bits.extractLsb' 20 1 ++ imm.bits.extractLsb' 1 10 ++ imm.bits.extractLsb' 11 1 ++
        imm.bits.extractLsb' 12 8 ++ rd ++ opcode
  | .i opcode funct3 rd rs1 imm => imm.bits ++ rs1 ++ funct3 ++ rd ++ opcode
  | .s opcode funct3 rs1 rs2 imm =>
      imm.bits.extractLsb' 5 7 ++ rs2 ++ rs1 ++ funct3 ++ imm.bits.extractLsb' 0 5 ++ opcode
  | .b opcode funct3 rs1 rs2 imm =>
      imm.bits.extractLsb' 12 1 ++ imm.bits.extractLsb' 5 6 ++ rs2 ++ rs1 ++ funct3 ++
        imm.bits.extractLsb' 1 4 ++ imm.bits.extractLsb' 11 1 ++ opcode
  | .r opcode funct3 funct7 rd rs1 rs2 => funct7 ++ rs2 ++ rs1 ++ funct3 ++ rd ++ opcode

/-- What a word says in a format. -/
def ofWord (w : Word) : EncodingType → Operands
  | .u => .u (w.extractLsb' 0 7) (w.extractLsb' 7 5) (w.extractLsb' 12 20)
  | .uj => .uj (w.extractLsb' 0 7) (w.extractLsb' 7 5)
      (.ofHalves (w.extractLsb' 31 1 ++ w.extractLsb' 12 8 ++ w.extractLsb' 20 1 ++
        w.extractLsb' 21 10))
  | .i => .i (w.extractLsb' 0 7) (w.extractLsb' 12 3) (w.extractLsb' 7 5) (w.extractLsb' 15 5)
      (.ofBits (w.extractLsb' 20 12))
  | .s => .s (w.extractLsb' 0 7) (w.extractLsb' 12 3) (w.extractLsb' 15 5) (w.extractLsb' 20 5)
      (.ofBits (w.extractLsb' 25 7 ++ w.extractLsb' 7 5))
  | .b => .b (w.extractLsb' 0 7) (w.extractLsb' 12 3) (w.extractLsb' 15 5) (w.extractLsb' 20 5)
      (.ofHalves (w.extractLsb' 31 1 ++ w.extractLsb' 7 1 ++ w.extractLsb' 25 6 ++
        w.extractLsb' 8 4))
  | .r => .r (w.extractLsb' 0 7) (w.extractLsb' 12 3) (w.extractLsb' 25 7) (w.extractLsb' 7 5)
      (w.extractLsb' 15 5) (w.extractLsb' 20 5)

/-- The immediate of the formats whose immediate is signed. -/
def immediate : Operands → Option Int
  | .u .. => none
  | .uj _ _ imm => some imm.value
  | .i _ _ _ _ imm => some imm.value
  | .s _ _ _ _ imm => some imm.value
  | .b _ _ _ _ imm => some imm.value
  | .r .. => none

/-- The operands as `struct decoding` has them.  The fields that the format has not are zero,
and an offset is counted in half words. -/
def decoding : Operands → Decoding
  | .u opcode rd imm => ⟨.u, opcode.setWidth 8, 0, rd.setWidth 8, 0, 0, 0, imm.setWidth 32⟩
  | .uj opcode rd imm =>
      ⟨.uj, opcode.setWidth 8, 0, rd.setWidth 8, 0, 0, 0,
        (imm.bits.extractLsb' 1 20).setWidth 32⟩
  | .i opcode funct3 rd rs1 imm =>
      ⟨.i, opcode.setWidth 8, funct3.setWidth 8, rd.setWidth 8, rs1.setWidth 8, 0, 0,
        imm.bits.setWidth 32⟩
  | .s opcode funct3 rs1 rs2 imm =>
      ⟨.s, opcode.setWidth 8, funct3.setWidth 8, 0, rs1.setWidth 8, rs2.setWidth 8, 0,
        imm.bits.setWidth 32⟩
  | .b opcode funct3 rs1 rs2 imm =>
      ⟨.b, opcode.setWidth 8, funct3.setWidth 8, 0, rs1.setWidth 8, rs2.setWidth 8, 0,
        (imm.bits.extractLsb' 1 12).setWidth 32⟩
  | .r opcode funct3 funct7 rd rs1 rs2 =>
      ⟨.r, opcode.setWidth 8, funct3.setWidth 8, rd.setWidth 8, rs1.setWidth 8, rs2.setWidth 8,
        funct7.setWidth 8, 0⟩

/-- The operands of a `struct decoding`. -/
def ofDecoding (dec : Decoding) : Operands :=
  match dec.instrEncodingType with
  | .u => .u (dec.opcode.setWidth 7) (dec.rdIndex.setWidth 5) (dec.imm.setWidth 20)
  | .uj => .uj (dec.opcode.setWidth 7) (dec.rdIndex.setWidth 5) (.ofHalves (dec.imm.setWidth 20))
  | .i => .i (dec.opcode.setWidth 7) (dec.funct3.setWidth 3) (dec.rdIndex.setWidth 5)
      (dec.rs1Index.setWidth 5) (.ofBits (dec.imm.setWidth 12))
  | .s => .s (dec.opcode.setWidth 7) (dec.funct3.setWidth 3) (dec.rs1Index.setWidth 5)
      (dec.rs2Index.setWidth 5) (.ofBits (dec.imm.setWidth 12))
  | .b => .b (dec.opcode.setWidth 7) (dec.funct3.setWidth 3) (dec.rs1Index.setWidth 5)
      (dec.rs2Index.setWidth 5) (.ofHalves (dec.imm.setWidth 12))
  | .r => .r (dec.opcode.setWidth 7) (dec.funct3.setWidth 3) (dec.funct7.setWidth 7)
      (dec.rdIndex.setWidth 5) (dec.rs1Index.setWidth 5) (dec.rs2Index.setWidth 5)

end Operands

end Riscv

/-- What the translators make of the immediate of a `struct decoding`. -/
def Decoding.extended (dec : Decoding) : Option Word :=
  match dec.instrEncodingType with
  | .u => none
  | .uj => some (signExtend32 (dec.imm <<< 1) 20)
  | .i => some (signExtend32 dec.imm 11)
  | .s => some (signExtend32 dec.imm 11)
  | .b => some (signExtend32 (dec.imm <<< 1) 12)
  | .r => none

/-! ## Decoding an encoded word -/

theorem byteField_eq_setWidth {w m : Word} {lo n : Nat} (hm : m.toNat = 2 ^ n - 1) (hn : n ≤ 32) :
    byteField w lo m = (w.extractLsb' lo n).setWidth 8 := by
  rw [byteField, bits_eq_setWidth hm hn, BitVec.setWidth_setWidth_of_le _ (by decide)]

/-- The source reads a word as its format says. -/
theorem instructionDecodingPerType_eq (w : Word) (type : EncodingType) :
    instructionDecodingPerType w type = (Operands.ofWord w type).decoding := by
  have hopcode : byteField w 0 0x7f = (w.extractLsb' 0 7).setWidth 8 :=
    byteField_eq_setWidth rfl (by decide)
  have hfunct3 : byteField w 12 7 = (w.extractLsb' 12 3).setWidth 8 :=
    byteField_eq_setWidth rfl (by decide)
  have hindex : ∀ lo, byteField w lo 0x1f = (w.extractLsb' lo 5).setWidth 8 :=
    fun lo => byteField_eq_setWidth rfl (by decide)
  cases type with
  | u =>
    have himm : bits w 12 0xfffff = (w.extractLsb' 12 20).setWidth 32 :=
      bits_eq_setWidth rfl (by decide)
    simp only [instructionDecodingPerType, hopcode, hindex, himm]
    rfl
  | uj =>
    have himm := immJ_halves w
    simp only [instructionDecodingPerType] at himm
    simp only [instructionDecodingPerType, hopcode, hindex, himm, Operands.ofWord,
      Operands.decoding, Immediate.bits_ofHalves, BitVec.extractLsb'_append_eq_left]
  | i =>
    have himm : bits w 20 0xfff = (w.extractLsb' 20 12).setWidth 32 :=
      bits_eq_setWidth rfl (by decide)
    simp only [instructionDecodingPerType, hopcode, hfunct3, hindex, himm, Operands.ofWord,
      Operands.decoding, Immediate.bits_ofBits]
  | s =>
    have himm := immS_bits w
    simp only [instructionDecodingPerType] at himm
    simp only [instructionDecodingPerType, hopcode, hfunct3, hindex, himm, Operands.ofWord,
      Operands.decoding, Immediate.bits_ofBits]
  | b =>
    have himm := immB_halves w
    simp only [instructionDecodingPerType] at himm
    simp only [instructionDecodingPerType, hopcode, hfunct3, hindex, himm, Operands.ofWord,
      Operands.decoding, Immediate.bits_ofHalves, BitVec.extractLsb'_append_eq_left]
  | r =>
    have hfunct7 : byteField w 25 0x7f = (w.extractLsb' 25 7).setWidth 8 :=
      byteField_eq_setWidth rfl (by decide)
    simp only [instructionDecodingPerType, hopcode, hfunct3, hindex, hfunct7]
    rfl

/-! ## Words and operands -/

/-- The operands that are read off a word are packed into it again. -/
theorem encode_ofWord (w : Word) (type : EncodingType) : (Operands.ofWord w type).encode = w := by
  apply BitVec.eq_of_getLsbD_eq
  intro i hi
  cases type <;>
    simp only [Operands.ofWord, Operands.encode, Immediate.bits_ofHalves, Immediate.bits_ofBits,
      BitVec.getLsbD_append, BitVec.getLsbD_extractLsb'] <;>
    interval_cases i <;>
    simp

theorem format_ofWord (w : Word) (type : EncodingType) :
    (Operands.ofWord w type).format = type := by
  cases type <;> rfl

theorem append_inj {n m : Nat} {a c : BitVec n} {b d : BitVec m} (h : a ++ b = c ++ d) :
    a = c ∧ b = d := by
  constructor
  · rw [← BitVec.extractLsb'_append_eq_left (a := a) (b := b), h,
      BitVec.extractLsb'_append_eq_left]
  · rw [← BitVec.extractLsb'_append_eq_right (a := a) (b := b), h,
      BitVec.extractLsb'_append_eq_right]

/-- The pieces of an immediate in a store, put together. -/
theorem Riscv.Immediate.store_pieces (imm : Immediate 12 1) :
    imm.bits.extractLsb' 5 7 ++ imm.bits.extractLsb' 0 5 = imm.bits := by
  rw [BitVec.extractLsb'_append_extractLsb'_eq_extractLsb' (by decide : 5 = 0 + 5)]
  exact BitVec.extractLsb'_eq_self

/-- The pieces of an immediate in a branch, put together. -/
theorem Riscv.Immediate.branch_pieces (imm : Immediate 13 2) :
    imm.bits.extractLsb' 12 1 ++ imm.bits.extractLsb' 11 1 ++ imm.bits.extractLsb' 5 6 ++
      imm.bits.extractLsb' 1 4 ++ 0#1 = imm.bits := by
  rw [BitVec.extractLsb'_append_extractLsb'_eq_extractLsb' (by decide : 12 = 11 + 1),
    BitVec.extractLsb'_append_extractLsb'_eq_extractLsb' (by decide : 11 = 5 + 6),
    BitVec.extractLsb'_append_extractLsb'_eq_extractLsb' (by decide : 5 = 1 + 4)]
  exact imm.bits_eq_append

/-- The pieces of an immediate in a jump, put together. -/
theorem Riscv.Immediate.jump_pieces (imm : Immediate 21 2) :
    imm.bits.extractLsb' 20 1 ++ imm.bits.extractLsb' 12 8 ++ imm.bits.extractLsb' 11 1 ++
      imm.bits.extractLsb' 1 10 ++ 0#1 = imm.bits := by
  rw [BitVec.extractLsb'_append_extractLsb'_eq_extractLsb' (by decide : 20 = 12 + 8),
    BitVec.extractLsb'_append_extractLsb'_eq_extractLsb' (by decide : 12 = 11 + 1),
    BitVec.extractLsb'_append_extractLsb'_eq_extractLsb' (by decide : 11 = 1 + 10)]
  exact imm.bits_eq_append

/-- A word is the encoding of no two operands of a format. -/
theorem encode_injective {f g : Operands} (hformat : f.format = g.format)
    (h : f.encode = g.encode) : f = g := by
  cases f with
  | u opcode rd imm =>
    cases g with
    | u opcode' rd' imm' =>
      obtain ⟨h1, rfl⟩ := append_inj h
      obtain ⟨rfl, rfl⟩ := append_inj h1
      rfl
    | _ => cases hformat
  | uj opcode rd imm =>
    cases g with
    | uj opcode' rd' imm' =>
      obtain ⟨h1, rfl⟩ := append_inj h
      obtain ⟨h2, rfl⟩ := append_inj h1
      obtain ⟨h3, h₁₂⟩ := append_inj h2
      obtain ⟨h4, h₁₁⟩ := append_inj h3
      obtain ⟨h₂₀, h₁⟩ := append_inj h4
      obtain rfl : imm = imm' := by
        apply Immediate.bits_injective (by decide)
        rw [← imm.jump_pieces, h₂₀, h₁₂, h₁₁, h₁, imm'.jump_pieces]
      rfl
    | _ => cases hformat
  | i opcode funct3 rd rs1 imm =>
    cases g with
    | i opcode' funct3' rd' rs1' imm' =>
      obtain ⟨h1, rfl⟩ := append_inj h
      obtain ⟨h2, rfl⟩ := append_inj h1
      obtain ⟨h3, rfl⟩ := append_inj h2
      obtain ⟨h4, rfl⟩ := append_inj h3
      obtain rfl := Immediate.bits_injective (by decide) h4
      rfl
    | _ => cases hformat
  | s opcode funct3 rs1 rs2 imm =>
    cases g with
    | s opcode' funct3' rs1' rs2' imm' =>
      obtain ⟨h1, rfl⟩ := append_inj h
      obtain ⟨h2, h₀⟩ := append_inj h1
      obtain ⟨h3, rfl⟩ := append_inj h2
      obtain ⟨h4, rfl⟩ := append_inj h3
      obtain ⟨h₅, rfl⟩ := append_inj h4
      obtain rfl : imm = imm' := by
        apply Immediate.bits_injective (by decide)
        rw [← imm.store_pieces, h₅, h₀, imm'.store_pieces]
      rfl
    | _ => cases hformat
  | b opcode funct3 rs1 rs2 imm =>
    cases g with
    | b opcode' funct3' rs1' rs2' imm' =>
      obtain ⟨h1, rfl⟩ := append_inj h
      obtain ⟨h2, h₁₁⟩ := append_inj h1
      obtain ⟨h3, h₁⟩ := append_inj h2
      obtain ⟨h4, rfl⟩ := append_inj h3
      obtain ⟨h5, rfl⟩ := append_inj h4
      obtain ⟨h6, rfl⟩ := append_inj h5
      obtain ⟨h₁₂, h₅⟩ := append_inj h6
      obtain rfl : imm = imm' := by
        apply Immediate.bits_injective (by decide)
        rw [← imm.branch_pieces, h₁₂, h₁₁, h₅, h₁, imm'.branch_pieces]
      rfl
    | _ => cases hformat
  | r opcode funct3 funct7 rd rs1 rs2 =>
    cases g with
    | r opcode' funct3' funct7' rd' rs1' rs2' =>
      obtain ⟨h1, rfl⟩ := append_inj h
      obtain ⟨h2, rfl⟩ := append_inj h1
      obtain ⟨h3, rfl⟩ := append_inj h2
      obtain ⟨h4, rfl⟩ := append_inj h3
      obtain ⟨rfl, rfl⟩ := append_inj h4
      rfl
    | _ => cases hformat

/-- The operands that are packed into a word are read off it again. -/
theorem ofWord_encode (f : Operands) : Operands.ofWord f.encode f.format = f :=
  encode_injective (format_ofWord _ _) (encode_ofWord _ _)

theorem ofDecoding_decoding (f : Operands) : Operands.ofDecoding f.decoding = f := by
  cases f with
  | u opcode rd imm => simp [Operands.ofDecoding, Operands.decoding]
  | uj opcode rd imm => simp [Operands.ofDecoding, Operands.decoding, Immediate.ofHalves_bits]
  | i opcode funct3 rd rs1 imm =>
    simp [Operands.ofDecoding, Operands.decoding, Immediate.ofBits_bits]
  | s opcode funct3 rs1 rs2 imm =>
    simp [Operands.ofDecoding, Operands.decoding, Immediate.ofBits_bits]
  | b opcode funct3 rs1 rs2 imm =>
    simp [Operands.ofDecoding, Operands.decoding, Immediate.ofHalves_bits]
  | r opcode funct3 funct7 rd rs1 rs2 => simp [Operands.ofDecoding, Operands.decoding]

/-- The translators extend the sign of an immediate from its highest bit. -/
theorem extended_decoding (f : Operands) :
    f.decoding.extended.map BitVec.toInt = f.immediate := by
  cases f with
  | u opcode rd imm => rfl
  | r opcode funct3 funct7 rd rs1 rs2 => rfl
  | i opcode funct3 rd rs1 imm =>
    simp only [Operands.decoding, Decoding.extended, Operands.immediate, Option.map_some]
    rw [signExtend32_setWidth (k := 11) _ (by decide), BitVec.toInt_signExtend_of_le (by decide),
      imm.toInt_bits (by decide)]
  | s opcode funct3 rs1 rs2 imm =>
    simp only [Operands.decoding, Decoding.extended, Operands.immediate, Option.map_some]
    rw [signExtend32_setWidth (k := 11) _ (by decide), BitVec.toInt_signExtend_of_le (by decide),
      imm.toInt_bits (by decide)]
  | uj opcode rd imm =>
    simp only [Operands.decoding, Decoding.extended, Operands.immediate, Option.map_some]
    rw [setWidth_shiftLeft_one, imm.bits_eq_append,
      signExtend32_setWidth (k := 20) _ (by decide), BitVec.toInt_signExtend_of_le (by decide),
      imm.toInt_bits (by decide)]
  | b opcode funct3 rs1 rs2 imm =>
    simp only [Operands.decoding, Decoding.extended, Operands.immediate, Option.map_some]
    rw [setWidth_shiftLeft_one, imm.bits_eq_append,
      signExtend32_setWidth (k := 12) _ (by decide), BitVec.toInt_signExtend_of_le (by decide),
      imm.toInt_bits (by decide)]

/-- Decoding inverts encoding.  The fields of an encoded word and its signed immediate come
back for all operands of every format, and every word is the encoding of what is decoded from
it. -/
theorem decoding_inverts_encoding :
    (∀ f : Operands,
      instructionDecodingPerType f.encode f.format = f.decoding ∧
      Operands.ofDecoding (instructionDecodingPerType f.encode f.format) = f ∧
      (instructionDecodingPerType f.encode f.format).extended.map BitVec.toInt = f.immediate) ∧
    ∀ (w : Word) (type : EncodingType),
      (Operands.ofDecoding (instructionDecodingPerType w type)).encode = w := by
  refine ⟨fun f => ?_, fun w type => ?_⟩
  · rw [instructionDecodingPerType_eq, ofWord_encode]
    exact ⟨rfl, ofDecoding_decoding f, extended_decoding f⟩
  · rw [instructionDecodingPerType_eq, ofDecoding_decoding, encode_ofWord]

-- The branch farthest back.
example : (instructionDecodingPerType 0x80000063 .b).extended = some (-4096) := by decide

end Hyrule
