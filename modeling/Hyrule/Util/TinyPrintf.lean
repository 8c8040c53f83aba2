import Hyrule.Lib.Numeral
import Hyrule.Lib.Result
import Hyrule.Util.Word
import Mathlib.Logic.Function.Basic

/-!
# Formatted output

`tinyprintf.c`.  `tfp_format` walks over a format string, and passes what it puts out
to a callback, byte by byte.  A number is first written to a local buffer, and a string
stays where it is, so a callback that writes to memory may write to a string that is
still being read.

The arguments are the words that were passed.  A string is the address of its first
byte.  The fields `uc` and `base` of `struct param` keep what the last directive has
left in them, and nothing sets them before the first.
-/

namespace Hyrule

open Lib Lib.Result

/-! ## Numbers -/

/-- A character of the source. -/
def ascii (c : Char) : Byte := BitVec.ofNat 8 c.toNat

/-- `struct param`, without `bf`. -/
structure FormatParam where
  /-- Leading zeros. -/
  lz : Bool
  /-- The alternate form. -/
  alt : Bool
  /-- Upper case. -/
  uc : Bool
  alignLeft : Bool
  width : Word
  /-- The sign, or 0. -/
  sign : Byte
  base : Nat

/-- The size of `bf`. -/
def numberBufferSize : Nat := 23

/-- The first loop of `ui2a`, on unsigned numbers of `w` bits.  A `d` that has wrapped to
zero divides by zero. -/
def scaleLoop (w base num : Nat) : Nat → Nat → Result Nat
  | 0, _ => throw .divergence
  | fuel + 1, d =>
      if d = 0 then throw .exception
      else if base ≤ num / d then scaleLoop w base num fuel (d * base % 2 ^ w)
      else return d

/-- The character of a digit. -/
def digitByte (uc : Bool) (dgt : Nat) : Byte :=
  BitVec.ofNat 8 (dgt + if dgt < 10 then 48 else (if uc then 65 else 97) - 10)

/-- The second loop of `ui2a`, where `n` says whether a digit was written. -/
def digitLoop (base : Nat) (uc : Bool) : Nat → Bool → Nat → Nat → Result (List Byte)
  | 0, _, _, _ => throw .divergence
  | fuel + 1, n, d, num =>
      if d = 0 then return []
      else do
        let dgt := num / d
        let writes := n || 0 < dgt || d / base = 0
        let rest ← digitLoop base uc fuel writes (d / base) (num % d)
        return if writes then digitByte uc dgt :: rest else rest

/-- `ui2a`, `uli2a` and `ulli2a`, on unsigned numbers of `w` bits: what is in `bf`. -/
def unsignedToText (w num : Nat) (p : FormatParam) : Result (List Byte) := do
  let d ← scaleLoop w p.base num (w + 1) 1
  let bf ← digitLoop p.base p.uc (w + 1) false d num
  if bf.length < numberBufferSize then return bf else throw .outOfBounds

/-- `ui2a`. -/
def ui2a (num : Word) (p : FormatParam) : Result (List Byte) := unsignedToText 32 num.toNat p

/-- `uli2a`. -/
def uli2a (num : BitVec 64) (p : FormatParam) : Result (List Byte) := unsignedToText 64 num.toNat p

/-- `ulli2a`. -/
def ulli2a (num : BitVec 64) (p : FormatParam) : Result (List Byte) := unsignedToText 64 num.toNat p

/-- What `i2a`, `li2a` and `lli2a` do before they write the number. -/
def takeSign {w : Nat} (num : BitVec w) (p : FormatParam) : BitVec w × FormatParam :=
  if num.slt 0 then (-num, { p with sign := ascii '-' }) else (num, p)

/-- `i2a`. -/
def i2a (num : Word) (p : FormatParam) : Result (FormatParam × List Byte) := do
  return ((takeSign num p).2, ← ui2a (takeSign num p).1 (takeSign num p).2)

/-- `li2a`. -/
def li2a (num : BitVec 64) (p : FormatParam) : Result (FormatParam × List Byte) := do
  return ((takeSign num p).2, ← uli2a (takeSign num p).1 (takeSign num p).2)

/-- `lli2a`. -/
def lli2a (num : BitVec 64) (p : FormatParam) : Result (FormatParam × List Byte) := do
  return ((takeSign num p).2, ← ulli2a (takeSign num p).1 (takeSign num p).2)

/-- `a2d`. -/
def a2d (ch : Byte) : Option Nat :=
  if ascii '0' ≤ ch ∧ ch ≤ ascii '9' then some (ch.toNat - 48)
  else if ascii 'a' ≤ ch ∧ ch ≤ ascii 'f' then some (ch.toNat - 97 + 10)
  else if ascii 'A' ≤ ch ∧ ch ≤ ascii 'F' then some (ch.toNat - 65 + 10)
  else none

/-- What is behind a character of the format, which ends in a zero byte. -/
def nextChar : List Byte → Byte × List Byte
  | [] => (0, [])
  | ch :: fmt => (ch, fmt)

/-- The digit that `a2u` goes on with.  It compares with `>`. -/
def a2uDigit (base : Nat) (ch : Byte) : Option Nat := (a2d ch).filter (· ≤ base)

/-- `a2u`, with the number that was read so far: the number, the character behind it, and
the format behind that. -/
def a2u (base : Nat) (src : List Byte) (ch : Byte) (num : Word) : Word × Byte × List Byte :=
  match a2uDigit base ch with
  | none => (num, ch, src)
  | some digit =>
      match src with
      | [] => (num * BitVec.ofNat 32 base + BitVec.ofNat 32 digit, 0, [])
      | ch :: src => a2u base src ch (num * BitVec.ofNat 32 base + BitVec.ofNat 32 digit)

/-! ## Fields -/

/-- The callback with the memory that it works on. -/
structure Sink (σ : Type) where
  memory : σ → Nat → Byte
  putf : σ → Byte → Result σ

/-- What `bf` points to. -/
inductive FieldText where
  | number (bf : List Byte)
  | string (address : Nat)

/-- `bf[i]`. -/
def FieldText.byteAt (memory : Nat → Byte) : FieldText → Nat → Byte
  | .number bf, i => bf.getD i 0
  | .string address, i => memory (address + i)

/-- The loop of `putchw` that counts down the characters to fill. -/
def fillRoom (bf : Nat → Byte) : Nat → Nat → Nat
  | _, 0 => 0
  | i, n + 1 => if bf i = 0 then n + 1 else fillRoom bf (i + 1) n

section Putchw

variable {σ : Type} (sink : Sink σ)

/-- A loop that fills, while the `int` is positive. -/
def putTimes (n : Word) (ch : Byte) (s : σ) : Result σ :=
  (List.replicate n.toInt.toNat ch).foldlM sink.putf s

/-- The loop that puts the buffer out, for as many bytes. -/
def putText (bf : FieldText) : Nat → Nat → σ → Result σ
  | 0, _, _ => throw .divergence
  | fuel + 1, i, s => do
      let ch := bf.byteAt (sink.memory s) i
      if ch = 0 then return s else putText bf fuel (i + 1) (← sink.putf s ch)

/-- The number of characters to fill, an `int`.  It wraps if the width is the least one, and a
sign is taken from it. -/
def FormatParam.fill (p : FormatParam) (bf : Nat → Byte) : Word :=
  let n :=
    if 0 < p.width.toInt then BitVec.ofNat 32 (fillRoom bf 0 p.width.toInt.toNat) else p.width
  let n := if p.sign ≠ 0 then n - 1 else n
  if p.alt ∧ p.base = 16 then n - 2 else if p.alt ∧ p.base = 8 then n - 1 else n

/-- The alternate form puts out this. -/
def FormatParam.altPrefix (p : FormatParam) : List Byte :=
  if p.alt ∧ p.base = 16 then [ascii '0', if p.uc then ascii 'X' else ascii 'x']
  else if p.alt ∧ p.base = 8 then [ascii '0'] else []

/-- `putchw`. -/
def putchw (fuel : Nat) (p : FormatParam) (bf : FieldText) (s : σ) : Result σ := do
  let n := p.fill (bf.byteAt (sink.memory s))
  let s ← if !p.lz && !p.alignLeft then putTimes sink n (ascii ' ') s else pure s
  let s ← if p.sign ≠ 0 then sink.putf s p.sign else pure s
  let s ← p.altPrefix.foldlM sink.putf s
  let s ← if p.lz then putTimes sink n (ascii '0') s else pure s
  let s ← putText sink bf fuel 0 s
  if !p.lz && p.alignLeft then putTimes sink n (ascii ' ') s else return s

end Putchw

/-! ## Directives -/

/-- The flags. -/
def readFlags : List Byte → FormatParam → FormatParam × Byte × List Byte
  | [], p => (p, 0, [])
  | ch :: fmt, p =>
      if ch = ascii '-' then readFlags fmt { p with alignLeft := true }
      else if ch = ascii '0' then readFlags fmt { p with lz := true }
      else if ch = ascii '#' then readFlags fmt { p with alt := true }
      else (p, ch, fmt)

/-- A decimal digit. -/
def isDecimal (ch : Byte) : Bool := ascii '0' ≤ ch && ch ≤ ascii '9'

/-- The width. -/
def readWidth (ch : Byte) (fmt : List Byte) : Word × Byte × List Byte :=
  if isDecimal ch then a2u 10 fmt ch 0 else (0, ch, fmt)

/-- The loop over the digits behind a point. -/
def skipDigits : List Byte → Byte × List Byte
  | [] => (0, [])
  | ch :: fmt => if isDecimal ch then skipDigits fmt else (ch, fmt)

/-- The point and its digits, which only make zeros lead. -/
def readPoint (p : FormatParam) (ch : Byte) (fmt : List Byte) : FormatParam × Byte × List Byte :=
  if ch = ascii '.' then ({ p with lz := true }, skipDigits fmt) else (p, ch, fmt)

/-- `lng`, and what is behind it. -/
def readLength (ch : Byte) (fmt : List Byte) : Nat × Byte × List Byte :=
  if ch = ascii 'z' then (1, nextChar fmt)
  else if ch = ascii 'l' then
    if (nextChar fmt).1 = ascii 'l' then (2, nextChar (nextChar fmt).2) else (1, nextChar fmt)
  else (0, ch, fmt)

/-- What stands between a `%` and its conversion. -/
def readDirective (fmt : List Byte) (p : FormatParam) : FormatParam × Nat × Byte × List Byte :=
  let (p, ch, fmt) :=
    readFlags fmt { p with lz := false, alt := false, width := 0, alignLeft := false, sign := 0 }
  let (width, ch, fmt) := readWidth ch fmt
  let (p, ch, fmt) := readPoint { p with width } ch fmt
  (p, readLength ch fmt)

/-- `va_arg`. -/
def vaArg : List (BitVec 64) → Result (BitVec 64 × List (BitVec 64))
  | [] => throw .outOfBounds
  | value :: va => return (value, va)

section Format

variable {σ : Type} (sink : Sink σ) (fuel : Nat)

/-- The conversions to unsigned numbers, up to their base. -/
def putUnsigned (lng : Nat) (p : FormatParam) (va : List (BitVec 64)) (s : σ) :
    Result (FormatParam × List (BitVec 64) × σ) := do
  let (value, va) ← vaArg va
  let bf ← (if lng = 2 then ulli2a value p
    else if lng = 1 then uli2a value p else ui2a (value.setWidth 32) p)
  return (p, va, ← putchw sink fuel p (.number bf) s)

/-- The conversions `d` and `i`. -/
def putSigned (lng : Nat) (p : FormatParam) (va : List (BitVec 64)) (s : σ) :
    Result (FormatParam × List (BitVec 64) × σ) := do
  let (value, va) ← vaArg va
  let (p, bf) ← (if lng = 2 then lli2a value p
    else if lng = 1 then li2a value p else i2a (value.setWidth 32) p)
  return (p, va, ← putchw sink fuel p (.number bf) s)

/-- A conversion.  An unknown one puts out nothing. -/
def convert (ch : Byte) (lng : Nat) (p : FormatParam) (va : List (BitVec 64)) (s : σ) :
    Result (FormatParam × List (BitVec 64) × σ) :=
  if ch = ascii 'u' then putUnsigned sink fuel lng { p with base := 10 } va s
  else if ch = ascii 'd' ∨ ch = ascii 'i' then putSigned sink fuel lng { p with base := 10 } va s
  else if ch = ascii 'p' then
    putUnsigned sink fuel 1 { p with alt := true, base := 16, uc := false } va s
  else if ch = ascii 'x' ∨ ch = ascii 'X' then
    putUnsigned sink fuel lng { p with base := 16, uc := ch = ascii 'X' } va s
  else if ch = ascii 'o' then putUnsigned sink fuel 0 { p with base := 8 } va s
  else if ch = ascii 'c' then do
    let (value, va) ← vaArg va
    return (p, va, ← sink.putf s (value.setWidth 8))
  else if ch = ascii 's' then do
    let (value, va) ← vaArg va
    return (p, va, ← putchw sink fuel p (.string value.toNat) s)
  else if ch = ascii '%' then do return (p, va, ← sink.putf s ch)
  else return (p, va, s)

/-- The loop of `tfp_format`, for as many characters and directives. -/
def tfpFormatLoop : Nat → List Byte → FormatParam → List (BitVec 64) → σ → Result σ
  | 0, _, _, _, _ => throw .divergence
  | _ + 1, [], _, _, s => return s
  | n + 1, ch :: fmt, p, va, s => do
      if ch ≠ ascii '%' then tfpFormatLoop n fmt p va (← sink.putf s ch)
      else
        let (p, lng, ch, fmt) := readDirective fmt p
        if ch = 0 then return s
        else
          let (p, va, s) ← convert sink fuel ch lng p va s
          tfpFormatLoop n fmt p va s

/-- `tfp_format`, with what is in `struct param` when it is called. -/
def tfpFormat (p : FormatParam) (fmt : List Byte) (va : List (BitVec 64)) (s : σ) : Result σ :=
  tfpFormatLoop sink fuel (fmt.length + 1) fmt p va s

end Format

/-! ## Strings -/

/-- `struct _vsnprintf_putcf_data` and memory.  Without a capacity it is
`struct _vsprintf_putcf_data`. -/
structure PutcfData where
  memory : Nat → Byte
  dest : Nat
  destCapacity : Option Nat
  numChars : Nat

/-- The character is stored. -/
def PutcfData.stores (data : PutcfData) : Bool :=
  match data.destCapacity with
  | none => true
  | some capacity => data.numChars < capacity

/-- `_vsnprintf_putcf`, and `_vsprintf_putcf`, which stores every character. -/
def vsnprintfPutcf (data : PutcfData) (c : Byte) : Result PutcfData :=
  return { data with
    memory := if data.stores then Function.update data.memory (data.dest + data.numChars) c
      else data.memory
    numChars := data.numChars + 1 }

/-- The callback of `tfp_vsprintf` and of `tfp_vsnprintf`. -/
def stringSink : Sink PutcfData := ⟨PutcfData.memory, vsnprintfPutcf⟩

/-- `tfp_vsprintf`: the `int` that it returns, and memory. -/
def tfpVsprintf (fuel : Nat) (p : FormatParam) (memory : Nat → Byte) (str : Nat)
    (format : List Byte) (ap : List (BitVec 64)) : Result (Word × (Nat → Byte)) := do
  let data ← tfpFormat stringSink fuel p format ap ⟨memory, str, none, 0⟩
  return (BitVec.ofNat 32 data.numChars, Function.update data.memory (str + data.numChars) 0)

/-- `tfp_vsnprintf`. -/
def tfpVsnprintf (fuel : Nat) (p : FormatParam) (memory : Nat → Byte) (str size : Nat)
    (format : List Byte) (ap : List (BitVec 64)) : Result (Word × (Nat → Byte)) := do
  if size < 1 then return (0, memory)
  else
    let data ← tfpFormat stringSink fuel p format ap ⟨memory, str, some (size - 1), 0⟩
    return (BitVec.ofNat 32 data.numChars,
      Function.update data.memory (str + min data.numChars (size - 1)) 0)

end Hyrule
