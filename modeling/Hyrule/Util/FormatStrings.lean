import Hyrule.Util.TinyPrintf

/-!
# What formatted output is

A format is a list of pieces: characters that stand for themselves, and directives with
flags, a width, a point, a length and a conversion.  `Directive.put` says what a directive
puts out.  A number is put out as its numeral, with a sign, and every field is filled up
to its width.  `putchw` counts in an `int`, so a width from which the sign and the prefix
cannot be taken there is none.

`tfp_format` reads a format piece by piece, and passes on exactly what the pieces put
out, as long as the strings that it reads stay as they are (`tfpFormat_pieces`).
`tfpVsprintf_pieces` and `tfpVsnprintf_pieces` say what is in memory then.
-/

namespace Hyrule

open Lib Lib.Result

/-! ## Numbers -/

section Numbers

variable {w base num k fuel : Nat} {uc : Bool} {p : FormatParam}

/-- The first loop finds the power of the highest digit, and `d` does not wrap. -/
theorem scaleLoop_eq (fuel : Nat) (hbase : 1 < base) (hnum : num < 2 ^ w) (hfuel : w < fuel + k)
    (hlow : k = 0 ∨ base ^ k ≤ num) :
    ∃ k', scaleLoop w base num fuel (base ^ k) = .ok (base ^ k') ∧ num < base ^ (k' + 1) ∧
      (k' = 0 ∨ base ^ k' ≤ num) := by
  have hpos : ∀ k, 0 < base ^ k := fun k => Nat.pow_pos (Nat.zero_lt_of_lt hbase)
  have hexponent : ∀ k, base ^ k ≤ num → k < w := by
    intro k hk
    have htwo : 2 ^ k ≤ base ^ k := Nat.pow_le_pow_left hbase k
    exact (Nat.pow_lt_pow_iff_right (by decide)).mp (Nat.lt_of_le_of_lt (htwo.trans hk) hnum)
  induction fuel generalizing k with
  | zero =>
    rcases hlow with rfl | hlow
    · omega
    · have := hexponent k hlow
      omega
  | succ fuel ih =>
    rw [scaleLoop, if_neg (Nat.ne_of_gt (hpos k))]
    by_cases hgo : base ≤ num / base ^ k
    · have hnext : base ^ (k + 1) ≤ num := by
        rw [Nat.le_div_iff_mul_le (hpos k)] at hgo
        rwa [Nat.pow_succ, Nat.mul_comm]
      rw [if_pos hgo, ← Nat.pow_succ, Nat.mod_eq_of_lt (Nat.lt_of_le_of_lt hnext hnum)]
      exact ih (by omega) (Or.inr hnext)
    · rw [if_neg hgo]
      refine ⟨k, rfl, ?_, hlow⟩
      rw [Nat.not_le, Nat.div_lt_iff_lt_mul (hpos k)] at hgo
      rwa [Nat.pow_succ, Nat.mul_comm]

/-- The second loop writes a digit for every power. -/
theorem digitLoop_true (hbase : 1 < base) (hfuel : k < fuel) (hnum : num < base ^ k) :
    digitLoop base uc fuel true (base ^ k / base) num =
      .ok ((paddedNumeral base k num).map (digitByte uc)) := by
  induction k generalizing fuel num with
  | zero =>
    obtain ⟨fuel, rfl⟩ := Nat.exists_eq_add_one_of_ne_zero (Nat.ne_of_gt hfuel)
    rw [digitLoop, Nat.pow_zero, if_pos (Nat.div_eq_of_lt hbase)]
    rfl
  | succ k ih =>
    obtain ⟨fuel, rfl⟩ := Nat.exists_eq_add_one_of_ne_zero (Nat.ne_zero_of_lt hfuel)
    have hpos : 0 < base ^ k := Nat.pow_pos (Nat.zero_lt_of_lt hbase)
    have hpower : base ^ (k + 1) / base = base ^ k := by
      rw [Nat.pow_succ, Nat.mul_div_cancel _ (Nat.zero_lt_of_lt hbase)]
    rw [digitLoop, hpower, if_neg (Nat.ne_of_gt hpos)]
    simp only [Bool.true_or]
    rw [ih (by omega) (Nat.mod_lt _ hpos)]
    rfl

/-- The second loop from the power of the highest digit. -/
theorem digitLoop_eq (hbase : 1 < base) (hfuel : k + 1 < fuel) (hhigh : num < base ^ (k + 1))
    (hlow : k = 0 ∨ base ^ k ≤ num) :
    digitLoop base uc fuel false (base ^ k) num =
      .ok ((paddedNumeral base (k + 1) num).map (digitByte uc)) := by
  obtain ⟨fuel, rfl⟩ := Nat.exists_eq_add_one_of_ne_zero (Nat.ne_zero_of_lt hfuel)
  have hpos : 0 < base ^ k := Nat.pow_pos (Nat.zero_lt_of_lt hbase)
  have hwrites : (false || decide (0 < num / base ^ k) || decide (base ^ k / base = 0)) = true := by
    rcases hlow with rfl | hlow
    · simp [Nat.div_eq_of_lt hbase]
    · simp [Nat.div_pos hlow hpos]
  rw [digitLoop, if_neg (Nat.ne_of_gt hpos)]
  simp only [hwrites]
  rw [digitLoop_true hbase (by omega) (Nat.mod_lt _ hpos)]
  rfl

/-- The numeral of a number of 64 bits fits in `bf`, in octal too. -/
theorem numeral_fits (hbase : 8 ≤ base) (hnum : num < 2 ^ 64) :
    (numeral base num).length < numberBufferSize := by
  have hcapacity : num < base ^ 22 :=
    calc num < 2 ^ 64 := hnum
      _ ≤ 8 ^ 22 := by norm_num
      _ ≤ base ^ 22 := Nat.pow_le_pow_left hbase 22
  exact Nat.lt_succ_of_le (length_numeral_le (by omega) (by decide) hcapacity)

/-- `ui2a` and its siblings write the numeral of the number, and it fits. -/
theorem unsignedToText_eq (hbase : 8 ≤ p.base) (hwidth : 0 < w ∧ w ≤ 64) (hnum : num < 2 ^ w) :
    unsignedToText w num p = .ok ((numeral p.base num).map (digitByte p.uc)) := by
  have hone : 1 < p.base := by omega
  have hlength := numeral_fits hbase
    (Nat.lt_of_lt_of_le hnum (Nat.pow_le_pow_right (by decide) hwidth.2))
  obtain ⟨k, hscale, hhigh, hlow⟩ := scaleLoop_eq (w + 1) (k := 0) hone hnum (by omega)
    (Or.inl rfl)
  have hk : k < w := by
    rcases hlow with rfl | hlow
    · exact hwidth.1
    · have htwo : 2 ^ k ≤ p.base ^ k := Nat.pow_le_pow_left (by omega) k
      exact (Nat.pow_lt_pow_iff_right (by decide)).mp (Nat.lt_of_le_of_lt (htwo.trans hlow) hnum)
  have hpadded : numeral p.base num = paddedNumeral p.base (k + 1) num := by
    refine numeral_eq_padded hone ?_ ?_ hhigh
    · intro hne
      rcases hlow with rfl | hlow
      · rw [Nat.pow_zero]
        omega
      · exact hlow
    · intro hzero
      rcases hlow with rfl | hlow
      · rfl
      · have := Nat.pow_pos (n := k) (Nat.zero_lt_of_lt hone)
        omega
  rw [Nat.pow_zero] at hscale
  rw [unsignedToText, hscale, ok_bind, digitLoop_eq hone (by omega) hhigh hlow, ← hpadded, ok_bind,
    if_pos (by rwa [List.length_map])]
  rfl

end Numbers

/-! ## Fields -/

/-- `bf` points to a text, behind which is a zero byte. -/
structure FieldText.Reads (bf : FieldText) (memory : Nat → Byte) (text : List Byte) : Prop where
  byte : ∀ i (h : i < text.length), bf.byteAt memory i = text[i]
  nonzero : ∀ ch ∈ text, ch ≠ 0
  ends : bf.byteAt memory text.length = 0

/-- A sign in front of the number. -/
def FormatParam.signBytes (p : FormatParam) : List Byte := if p.sign ≠ 0 then [p.sign] else []

/-- The characters to fill around a text. -/
def FormatParam.room (p : FormatParam) (text : List Byte) : Nat :=
  p.width.toInt.toNat - (text.length + p.signBytes.length + p.altPrefix.length)

/-- A text in its field. -/
def FormatParam.field (p : FormatParam) (text : List Byte) : List Byte :=
  if p.lz then
    p.signBytes ++ p.altPrefix ++ List.replicate (p.room text) (ascii '0') ++ text
  else if p.alignLeft then
    p.signBytes ++ p.altPrefix ++ text ++ List.replicate (p.room text) (ascii ' ')
  else List.replicate (p.room text) (ascii ' ') ++ (p.signBytes ++ p.altPrefix ++ text)

theorem FormatParam.length_field (p : FormatParam) (text : List Byte) :
    (p.field text).length =
      max p.width.toInt.toNat (text.length + p.signBytes.length + p.altPrefix.length) := by
  unfold field room
  split
  next =>
    simp only [List.length_append, List.length_replicate]
    omega
  next =>
    split
    all_goals
      simp only [List.length_append, List.length_replicate]
      omega

section Fields

variable {σ : Type} {sink : Sink σ} {p : FormatParam} {bf : FieldText} {text : List Byte}

/-- A numeral is read from the local buffer, whatever is in memory. -/
theorem FieldText.reads_number {bytes : List Byte} (hnonzero : ∀ ch ∈ bytes, ch ≠ 0)
    (memory : Nat → Byte) : (FieldText.number bytes).Reads memory bytes where
  byte i h := by simp [byteAt, h]
  nonzero := hnonzero
  ends := by simp [byteAt]

theorem fillRoom_eq {memory : Nat → Byte} (hreads : bf.Reads memory text) {i n : Nat}
    (hi : i ≤ text.length) :
    fillRoom (bf.byteAt memory) i n = n - (text.length - i) := by
  induction n generalizing i with
  | zero => rw [fillRoom, Nat.zero_sub]
  | succ n ih =>
    rw [fillRoom]
    rcases Nat.lt_or_eq_of_le hi with hi | rfl
    · rw [if_neg (by rw [hreads.byte i hi]; exact hreads.nonzero _ (List.getElem_mem hi)), ih hi]
      omega
    · rw [if_pos hreads.ends, Nat.sub_self, Nat.sub_zero]

/-- A sign and a prefix can be taken from the width as an `int`. -/
def WidthFits (width : Word) : Prop := -2 ^ 31 + 3 ≤ width.toInt
deriving Decidable

/-- What a sign and a prefix take. -/
def FormatParam.taken (p : FormatParam) : Nat := p.signBytes.length + p.altPrefix.length

theorem FormatParam.taken_le (p : FormatParam) : p.taken ≤ 3 := by
  have hsign : p.signBytes.length ≤ 1 := by
    unfold signBytes
    split <;> simp
  have halt : p.altPrefix.length ≤ 2 := by
    unfold altPrefix
    split
    next => exact Nat.le_refl 2
    next => split <;> simp
  exact Nat.add_le_add hsign halt

/-- The sign and the alternate form take their room from what is left of the width. -/
theorem FormatParam.fill_sub (p : FormatParam) (bf : Nat → Byte) :
    p.fill bf =
      (if 0 < p.width.toInt then BitVec.ofNat 32 (fillRoom bf 0 p.width.toInt.toNat)
        else p.width) - BitVec.ofNat 32 p.taken := by
  simp only [fill, taken, signBytes, altPrefix]
  generalize (if 0 < p.width.toInt then _ else _ : Word) = n
  split_ifs
  all_goals
    simp only [List.length_cons, List.length_nil]
    bv_omega

theorem FormatParam.toInt_sub_taken (p : FormatParam) {n : Word} (hn : WidthFits n) :
    (n - BitVec.ofNat 32 p.taken).toInt = n.toInt - p.taken := by
  have htaken := p.taken_le
  have hlt := n.two_mul_toInt_lt
  unfold WidthFits at hn
  have hint : (BitVec.ofNat 32 p.taken).toInt = p.taken := by
    rw [BitVec.toInt_ofNat', Int.bmod_eq_of_le (by omega) (by omega)]
  rw [BitVec.toInt_sub, hint, Int.bmod_eq_of_le (by omega) (by omega)]

theorem FormatParam.fill_eq {memory : Nat → Byte} (hwidth : WidthFits p.width)
    (hreads : bf.Reads memory text) :
    (p.fill (bf.byteAt memory)).toInt.toNat = p.room text := by
  have hlt := p.width.two_mul_toInt_lt
  have hroom : p.room text = p.width.toInt.toNat - text.length - p.taken := by
    unfold room taken
    omega
  rw [p.fill_sub, hroom]
  split
  next hpos =>
    have hleft : (BitVec.ofNat 32 (p.width.toInt.toNat - text.length)).toInt =
        (p.width.toInt.toNat - text.length : Nat) := by
      rw [BitVec.toInt_ofNat', Int.bmod_eq_of_le (by omega) (by omega)]
    rw [fillRoom_eq hreads (Nat.zero_le text.length), Nat.sub_zero, p.toInt_sub_taken, hleft]
    · omega
    · unfold WidthFits
      omega
  next hneg =>
    rw [p.toInt_sub_taken hwidth]
    omega

/-- The buffer is put out byte by byte, as long as it is not changed meanwhile. -/
theorem putText_eq {fuel i : Nat} {s : σ} (hfuel : text.length - i < fuel) (hi : i ≤ text.length)
    (hreads : ∀ k s', ((text.drop i).take k).foldlM sink.putf s = .ok s' →
      bf.Reads (sink.memory s') text) :
    putText sink bf fuel i s = (text.drop i).foldlM sink.putf s := by
  have hhere := hreads 0 s rfl
  induction fuel generalizing i s with
  | zero => omega
  | succ fuel ih =>
    rw [putText]
    rcases Nat.lt_or_eq_of_le hi with hlt | rfl
    · rw [hhere.byte i hlt, if_neg (hhere.nonzero _ (List.getElem_mem hlt)),
        List.drop_eq_getElem_cons hlt, List.foldlM_cons]
      cases hput : sink.putf s text[i] with
      | error e => rfl
      | ok next =>
        have hnext : ∀ k s', ((text.drop (i + 1)).take k).foldlM sink.putf next = .ok s' →
            bf.Reads (sink.memory s') text := by
          intro k s' hrun
          refine hreads (k + 1) s' ?_
          rw [List.drop_eq_getElem_cons hlt, List.take_succ_cons, List.foldlM_cons, hput, ok_bind,
            hrun]
        exact ih (by omega) hlt hnext (hnext 0 next rfl)
    · rw [hhere.ends, if_pos rfl, List.drop_length]
      rfl

/-- What is put out around the buffer. -/
theorem putText_between {fuel : Nat} {before behind : List Byte} {s : σ}
    (hfuel : text.length < fuel)
    (hreads : ∀ k s', ((before ++ text ++ behind).take k).foldlM sink.putf s = .ok s' →
      bf.Reads (sink.memory s') text) :
    (do
      let s ← before.foldlM sink.putf s
      let s ← putText sink bf fuel 0 s
      behind.foldlM sink.putf s) = (before ++ text ++ behind).foldlM sink.putf s := by
  rw [List.append_assoc, List.foldlM_append]
  cases hbefore : before.foldlM sink.putf s with
  | error e => rfl
  | ok middle =>
    rw [ok_bind, ok_bind, List.foldlM_append, putText_eq (by omega) (Nat.zero_le _), List.drop_zero]
    intro k s' hrun
    rw [List.drop_zero] at hrun
    refine hreads (before.length + min k text.length) s' ?_
    rw [List.append_assoc, List.take_length_add_append, List.take_append_of_le_length
      (Nat.min_le_right _ _), List.foldlM_append, hbefore, ok_bind, ← List.take_eq_take_min]
    exact hrun

theorem FormatParam.put_sign {α : Type} (p : FormatParam) (s : σ) (next : σ → Result α) :
    (if p.sign ≠ 0 then sink.putf s p.sign >>= next else next s) =
      p.signBytes.foldlM sink.putf s >>= next := by
  unfold signBytes
  split
  next => rw [List.foldlM_cons, bind_assoc]; rfl
  next => rfl

/-- A field is put out, as long as the text in it is not changed meanwhile. -/
theorem putchw_eq {fuel : Nat} {s : σ} (hwidth : WidthFits p.width) (hfuel : text.length < fuel)
    (hreads : ∀ k s', ((p.field text).take k).foldlM sink.putf s = .ok s' →
      bf.Reads (sink.memory s') text) :
    putchw sink fuel p bf s = (p.field text).foldlM sink.putf s := by
  have hfill := FormatParam.fill_eq hwidth (hreads 0 s rfl)
  cases hlz : p.lz with
  | true =>
    have hfield : p.field text = p.signBytes ++ p.altPrefix ++
        List.replicate (p.room text) (ascii '0') ++ text ++ [] := by
      rw [FormatParam.field, hlz, if_pos rfl, List.append_nil]
    rw [hfield] at hreads ⊢
    rw [← putText_between hfuel hreads]
    simp only [putchw, hlz, putTimes, hfill, Bool.not_true, Bool.false_and, Bool.false_eq_true,
      if_true, if_false, pure_bind, FormatParam.put_sign, List.foldlM_append, List.foldlM_nil,
      bind_pure, bind_assoc]
  | false =>
    cases hleft : p.alignLeft with
    | true =>
      have hfield : p.field text = p.signBytes ++ p.altPrefix ++ text ++
          List.replicate (p.room text) (ascii ' ') := by
        rw [FormatParam.field, hlz, hleft, if_neg Bool.false_ne_true, if_pos rfl]
      rw [hfield] at hreads ⊢
      rw [← putText_between hfuel hreads]
      simp only [putchw, hlz, hleft, putTimes, hfill, Bool.not_true, Bool.not_false, Bool.and_true,
        Bool.and_false, Bool.false_eq_true, if_true, if_false, pure_bind, FormatParam.put_sign,
        List.foldlM_append, bind_assoc]
    | false =>
      have hfield : p.field text = List.replicate (p.room text) (ascii ' ') ++
          (p.signBytes ++ p.altPrefix) ++ text ++ [] := by
        simp only [FormatParam.field, hlz, hleft, Bool.false_eq_true, if_false, List.append_nil,
          List.append_assoc]
      rw [hfield] at hreads ⊢
      rw [← putText_between hfuel hreads]
      simp only [putchw, hlz, hleft, putTimes, hfill, Bool.not_false, Bool.and_true, Bool.and_false,
        Bool.false_eq_true, if_true, if_false, pure_bind, FormatParam.put_sign, List.foldlM_append,
        List.foldlM_nil, bind_pure, bind_assoc]

end Fields

/-! ## Directives -/

/-- The flags. -/
inductive Flag where
  | left
  | zero
  | alternate

/-- The character of a flag. -/
def Flag.byte : Flag → Byte
  | .left => ascii '-'
  | .zero => ascii '0'
  | .alternate => ascii '#'

/-- What a flag asks for. -/
def Flag.set (p : FormatParam) : Flag → FormatParam
  | .left => { p with alignLeft := true }
  | .zero => { p with lz := true }
  | .alternate => { p with alt := true }

/-- The lengths. -/
inductive LengthModifier where
  | int
  | size
  | long
  | longLong

/-- The characters of a length. -/
def LengthModifier.bytes : LengthModifier → List Byte
  | .int => []
  | .size => [ascii 'z']
  | .long => [ascii 'l']
  | .longLong => [ascii 'l', ascii 'l']

/-- `lng`. -/
def LengthModifier.lng : LengthModifier → Nat
  | .int => 0
  | .size => 1
  | .long => 1
  | .longLong => 2

/-- The conversions. -/
inductive Conversion where
  | unsigned
  | decimal
  | integer
  | pointer
  | hex
  | upperHex
  | octal
  | char
  | string
  | percent

/-- The character of a conversion. -/
def Conversion.byte : Conversion → Byte
  | .unsigned => ascii 'u'
  | .decimal => ascii 'd'
  | .integer => ascii 'i'
  | .pointer => ascii 'p'
  | .hex => ascii 'x'
  | .upperHex => ascii 'X'
  | .octal => ascii 'o'
  | .char => ascii 'c'
  | .string => ascii 's'
  | .percent => ascii '%'

/-- A directive.  A width of zero is none. -/
structure Directive where
  flags : List Flag
  width : Word
  width_fits : WidthFits width
  point : Option (List (Fin 10))
  length : LengthModifier
  conversion : Conversion

namespace Directive

/-- The characters of the width. -/
def widthBytes (width : Word) : List Byte :=
  if width = 0 then [] else (numeral 10 width.toNat).map (digitByte false)

/-- The characters of the point. -/
def pointBytes : Option (List (Fin 10)) → List Byte
  | none => []
  | some digits => ascii '.' :: digits.map fun digit : Fin 10 => digitByte false digit.val

/-- The characters of a directive behind its `%`. -/
def bytes (d : Directive) : List Byte :=
  d.flags.map Flag.byte ++ (widthBytes d.width ++
    (pointBytes d.point ++ (d.length.bytes ++ [d.conversion.byte])))

/-- What a directive asks for. -/
def param (d : Directive) (p : FormatParam) : FormatParam :=
  let p := d.flags.foldl Flag.set
    { p with lz := false, alt := false, width := 0, alignLeft := false, sign := 0 }
  { p with width := d.width, lz := p.lz || d.point.isSome }

end Directive

/-- No flag and no digit. -/
structure StopsNumber (ch : Byte) : Prop where
  digit : a2uDigit 10 ch = none
  decimal : isDecimal ch = false
  left : ch ≠ ascii '-'
  zero : ch ≠ ascii '0'
  alternate : ch ≠ ascii '#'

section Directives

variable {ch : Byte} {fmt : List Byte} {p : FormatParam}

theorem readFlags_map (hleft : ch ≠ ascii '-') (hzero : ch ≠ ascii '0')
    (halternate : ch ≠ ascii '#') (flags : List Flag) :
    readFlags (flags.map Flag.byte ++ ch :: fmt) p = (flags.foldl Flag.set p, ch, fmt) := by
  induction flags generalizing p with
  | nil =>
    rw [List.map_nil, List.nil_append, readFlags, if_neg hleft, if_neg hzero, if_neg halternate]
    rfl
  | cons flag flags ih =>
    rw [List.map_cons, List.cons_append, List.foldl_cons, ← ih]
    cases flag with
    | left => rw [readFlags, Flag.byte, if_pos rfl]; rfl
    | zero => rw [readFlags, Flag.byte, if_neg (by decide), if_pos rfl]; rfl
    | alternate =>
      rw [readFlags, Flag.byte, if_neg (by decide), if_neg (by decide), if_pos rfl]
      rfl

theorem a2d_digitByte : ∀ uc, ∀ d < 16, a2d (digitByte uc d) = some d := by decide

theorem a2uDigit_digitByte {base : Nat} (hbase : base ≤ 16) (uc : Bool) {d : Nat} (hd : d < base) :
    a2uDigit base (digitByte uc d) = some d := by
  rw [a2uDigit, a2d_digitByte uc d (by omega), Option.filter_some,
    if_pos (decide_eq_true (Nat.le_of_lt hd))]

/-- The digits of a numeral are read up to the character behind them. -/
theorem a2u_digits {base : Nat} (hbase : base ≤ 16) (hch : a2uDigit base ch = none) (uc : Bool)
    {digits : List Nat} {d : Nat} (hdigits : ∀ d' ∈ d :: digits, d' < base) (value : Nat)
    (fmt : List Byte) :
    a2u base (digits.map (digitByte uc) ++ ch :: fmt) (digitByte uc d) (BitVec.ofNat 32 value) =
      (BitVec.ofNat 32 (readNumeral base value (d :: digits)), ch, fmt) := by
  have hstep : ∀ value d : Nat, BitVec.ofNat 32 value * BitVec.ofNat 32 base + BitVec.ofNat 32 d =
      BitVec.ofNat 32 (value * base + d) := by
    intro value d
    rw [BitVec.ofNat_add, BitVec.ofNat_mul]
  have hd := a2uDigit_digitByte hbase uc (hdigits d List.mem_cons_self)
  induction digits generalizing d value with
  | nil =>
    rw [List.map_nil, List.nil_append, a2u, hd]
    simp only [hstep]
    rw [a2u.eq_def, hch]
    rfl
  | cons next digits ih =>
    have hrest : ∀ d' ∈ next :: digits, d' < base :=
      fun d' h => hdigits d' (List.mem_cons_of_mem _ h)
    rw [List.map_cons, List.cons_append, a2u, hd]
    simp only [hstep]
    exact ih hrest _ (a2uDigit_digitByte hbase uc (hrest next List.mem_cons_self))

/-- `a2u` reads back what `ui2a` has written, up to a character that it does not take for a
digit. -/
theorem a2u_ui2a (num : Word) (p : FormatParam) (hbase : 8 ≤ p.base ∧ p.base ≤ 16)
    (hch : a2uDigit p.base ch = none) (fmt : List Byte) :
    ∃ first rest, ui2a num p = .ok (first :: rest) ∧
      a2u p.base (rest ++ ch :: fmt) first 0 = (num, ch, fmt) := by
  have hread := readNumeral_numeral p.base num.toNat
  have hlt : ∀ d ∈ numeral p.base num.toNat, d < p.base := fun d hd => numeral_lt (by omega) hd
  have htext : ui2a num p = .ok ((numeral p.base num.toNat).map (digitByte p.uc)) :=
    unsignedToText_eq hbase.1 (by decide) num.isLt
  cases hnumeral : numeral p.base num.toNat with
  | nil => exact absurd hnumeral (numeral_ne_nil p.base _)
  | cons d digits =>
    rw [hnumeral] at hread hlt htext
    refine ⟨digitByte p.uc d, digits.map (digitByte p.uc), htext, ?_⟩
    have ha2u := a2u_digits hbase.2 hch p.uc hlt 0 fmt
    rwa [hread, BitVec.ofNat_toNat, BitVec.setWidth_eq] at ha2u

/-- The largest word in upper case, in front of a `g`. -/
theorem a2u_ui2a_max : ∃ first rest,
    ui2a 0xffffffff ⟨false, false, true, false, 0, 0, 16⟩ = .ok (first :: rest) ∧
      a2u 16 (rest ++ [ascii 'g']) first 0 = (0xffffffff, ascii 'g', []) :=
  a2u_ui2a 0xffffffff ⟨false, false, true, false, 0, 0, 16⟩ (by decide) (by decide) []

theorem isDecimal_digitByte : ∀ d < 10, isDecimal (digitByte false d) = true := by decide

/-- No numeral of a width begins with a flag. -/
theorem stopsFlags_digitByte : ∀ d < 10, d ≠ 0 → digitByte false d ≠ ascii '-' ∧
    digitByte false d ≠ ascii '0' ∧ digitByte false d ≠ ascii '#' := by decide

/-- Flags and a width are read up to the character behind them. -/
theorem readFlags_width (p : FormatParam) (fmt : List Byte) (hch : StopsNumber ch)
    (flags : List Flag) (width : Word) :
    ∃ first rest, readFlags (flags.map Flag.byte ++ (Directive.widthBytes width ++ ch :: fmt)) p =
        (flags.foldl Flag.set p, first, rest) ∧
      readWidth first rest = (width, ch, fmt) := by
  unfold Directive.widthBytes
  split
  next hzero =>
    refine ⟨ch, fmt, readFlags_map hch.left hch.zero hch.alternate flags, ?_⟩
    rw [readWidth, hch.decimal, hzero]
    rfl
  next hwidth =>
    have hnat : width.toNat ≠ 0 := fun h => hwidth (BitVec.eq_of_toNat_eq (by simpa using h))
    have hlt : ∀ d ∈ numeral 10 width.toNat, d < 10 := fun d hd => numeral_lt (by decide) hd
    have hhead : (numeral 10 width.toNat).head? ≠ some 0 := numeral_head hnat
    have hread := readNumeral_numeral 10 width.toNat
    cases hnumeral : numeral 10 width.toNat with
    | nil => exact absurd hnumeral (numeral_ne_nil 10 _)
    | cons d digits =>
      rw [hnumeral] at hlt hhead hread
      have hd : d < 10 := hlt d List.mem_cons_self
      obtain ⟨hleft, hzero, halternate⟩ := stopsFlags_digitByte d hd (by simpa using hhead)
      refine ⟨digitByte false d, digits.map (digitByte false) ++ ch :: fmt,
        readFlags_map hleft hzero halternate flags, ?_⟩
      have ha2u := a2u_digits (by decide) hch.digit false hlt 0 fmt
      rw [hread, BitVec.ofNat_toNat, BitVec.setWidth_eq] at ha2u
      rw [readWidth, isDecimal_digitByte d hd, if_pos rfl]
      exact ha2u

theorem skipDigits_map (hch : isDecimal ch = false) (digits : List (Fin 10)) :
    skipDigits (digits.map (fun digit : Fin 10 => digitByte false digit.val) ++ ch :: fmt) =
      (ch, fmt) := by
  induction digits with
  | nil =>
    rw [List.map_nil, List.nil_append, skipDigits, hch]
    rfl
  | cons d digits ih =>
    rw [List.map_cons, List.cons_append, skipDigits, isDecimal_digitByte d d.isLt, if_pos rfl, ih]

theorem Conversion.stopsNumber (c : Conversion) : StopsNumber c.byte := by
  cases c <;> constructor <;> decide

theorem Conversion.byte_ne (c : Conversion) :
    c.byte ≠ ascii '.' ∧ c.byte ≠ ascii 'z' ∧ c.byte ≠ ascii 'l' ∧ c.byte ≠ 0 := by
  cases c <;> decide

/-- A length is read up to the conversion. -/
theorem readLength_bytes (fmt : List Byte) (length : LengthModifier) (c : Conversion) :
    ∃ first rest, length.bytes ++ c.byte :: fmt = first :: rest ∧ StopsNumber first ∧
      first ≠ ascii '.' ∧ readLength first rest = (length.lng, c.byte, fmt) := by
  obtain ⟨hpoint, hz, hl, -⟩ := c.byte_ne
  cases length with
  | int =>
    refine ⟨c.byte, fmt, rfl, c.stopsNumber, hpoint, ?_⟩
    rw [readLength, if_neg hz, if_neg hl]
    rfl
  | size =>
    refine ⟨ascii 'z', c.byte :: fmt, rfl, ?_, by decide, ?_⟩
    · constructor <;> decide
    · rw [readLength, if_pos rfl]
      rfl
  | long =>
    refine ⟨ascii 'l', c.byte :: fmt, rfl, ?_, by decide, ?_⟩
    · constructor <;> decide
    · rw [readLength, if_neg (by decide), if_pos rfl, nextChar, if_neg hl]
      rfl
  | longLong =>
    refine ⟨ascii 'l', ascii 'l' :: c.byte :: fmt, rfl, ?_, by decide, ?_⟩
    · constructor <;> decide
    · rw [readLength, if_neg (by decide), if_pos rfl, nextChar, if_pos rfl]
      rfl

/-- A point is read up to what is behind it. -/
theorem readPoint_bytes (p : FormatParam) (fmt : List Byte) (hch : StopsNumber ch)
    (hpoint : ch ≠ ascii '.') (point : Option (List (Fin 10))) :
    ∃ first rest, Directive.pointBytes point ++ ch :: fmt = first :: rest ∧ StopsNumber first ∧
      readPoint p first rest = ({ p with lz := p.lz || point.isSome }, ch, fmt) := by
  cases point with
  | none =>
    refine ⟨ch, fmt, rfl, hch, ?_⟩
    rw [readPoint, if_neg hpoint, Option.isSome_none, Bool.or_false]
  | some digits =>
    refine ⟨ascii '.', digits.map (fun digit : Fin 10 => digitByte false digit.val) ++ ch :: fmt,
      rfl, ?_, ?_⟩
    · constructor <;> decide
    · rw [readPoint, if_pos rfl, skipDigits_map hch.decimal, Option.isSome_some, Bool.or_true]

/-- A directive is read back. -/
theorem readDirective_bytes (d : Directive) :
    readDirective (d.bytes ++ fmt) p = (d.param p, d.length.lng, d.conversion.byte, fmt) := by
  obtain ⟨ch, rest, hlength, hstops, hpoint, hreadLength⟩ :=
    readLength_bytes fmt d.length d.conversion
  have hbytes : d.bytes ++ fmt = d.flags.map Flag.byte ++ (Directive.widthBytes d.width ++
      (Directive.pointBytes d.point ++ ch :: rest)) := by
    rw [← hlength]
    simp only [Directive.bytes, List.append_assoc, List.singleton_append]
  obtain ⟨first, behind, hpointBytes, hfirst, hreadPoint⟩ := readPoint_bytes
    { (d.flags.foldl Flag.set
      { p with lz := false, alt := false, width := 0, alignLeft := false, sign := 0 }) with
        width := d.width } rest hstops hpoint d.point
  obtain ⟨start, tail, hreadFlags, hreadWidth⟩ := readFlags_width
    { p with lz := false, alt := false, width := 0, alignLeft := false, sign := 0 }
    behind hfirst d.flags d.width
  rw [hbytes, hpointBytes, readDirective, hreadFlags]
  simp only [hreadWidth, hreadPoint, hreadLength]
  rfl

end Directives

/-! ## What directives put out -/

/-- The number that an argument stands for. -/
def argumentNumber (signed : Bool) (lng : Nat) (value : BitVec 64) : Int :=
  if lng = 0 then
    if signed then (value.setWidth 32 : Word).toInt else (value.setWidth 32 : Word).toNat
  else if signed then value.toInt else value.toNat

/-- A number in its field. -/
def FormatParam.numberField (p : FormatParam) (number : Int) : List Byte :=
  p.field ((numeral p.base number.natAbs).map (digitByte p.uc))

/-- A negative number has a sign. -/
def FormatParam.withSign (p : FormatParam) (number : Int) : FormatParam :=
  if number < 0 then { p with sign := ascii '-' } else p

/-- What a directive puts out, with what it leaves of the arguments.  `strings` has the
strings that may be read. -/
def Directive.put (strings : Nat → Option (List Byte)) (d : Directive) (p : FormatParam)
    (va : List (BitVec 64)) : Option (FormatParam × List (BitVec 64) × List Byte) :=
  let number (signed : Bool) (lng : Nat) (p : FormatParam) := do
    let value ← va.head?
    let number := argumentNumber signed lng value
    return (p.withSign number, va.tail, (p.withSign number).numberField number)
  match d.conversion with
  | .unsigned => number false d.length.lng { d.param p with base := 10 }
  | .decimal | .integer => number true d.length.lng { d.param p with base := 10 }
  | .pointer => number false 1 { d.param p with alt := true, base := 16, uc := false }
  | .hex => number false d.length.lng { d.param p with base := 16, uc := false }
  | .upperHex => number false d.length.lng { d.param p with base := 16, uc := true }
  | .octal => number false 0 { d.param p with base := 8 }
  | .char => do return (d.param p, va.tail, [(← va.head?).setWidth 8])
  | .string => do
      return (d.param p, va.tail, (d.param p).field (← strings (← va.head?).toNat))
  | .percent => return (d.param p, va, [ascii '%'])

/-- A piece of a format. -/
inductive FormatPiece where
  | char (ch : Byte) (hpercent : ch ≠ ascii '%') (hzero : ch ≠ 0)
  | directive (d : Directive)

/-- The characters of a piece. -/
def FormatPiece.bytes : FormatPiece → List Byte
  | .char ch _ _ => [ch]
  | .directive d => ascii '%' :: d.bytes

/-- The format of pieces. -/
def formatBytes (pieces : List FormatPiece) : List Byte := (pieces.map FormatPiece.bytes).flatten

/-- What pieces put out. -/
def formatOutput (strings : Nat → Option (List Byte)) :
    List FormatPiece → FormatParam → List (BitVec 64) → Option (List Byte)
  | [], _, _ => some []
  | .char ch _ _ :: pieces, p, va => do return ch :: (← formatOutput strings pieces p va)
  | .directive d :: pieces, p, va => do
      let (p, va, bytes) ← d.put strings p va
      return bytes ++ (← formatOutput strings pieces p va)

section Conversions

variable {σ : Type} {sink : Sink σ} {fuel lng : Nat} {p : FormatParam} {value : BitVec 64}
  {va : List (BitVec 64)} {s : σ}

theorem takeSign_eq {w : Nat} (num : BitVec w) (p : FormatParam) :
    (takeSign num p).1.toNat = num.toInt.natAbs ∧ (takeSign num p).2 = p.withSign num.toInt := by
  have hlt := num.isLt
  have hnegative : num.slt 0 = true ↔ num.toInt < 0 := by simp [BitVec.slt]
  have hint := num.toInt_eq_toNat_cond
  unfold takeSign FormatParam.withSign
  split
  next h =>
    refine ⟨?_, (if_pos (hnegative.mp h)).symm⟩
    have := hnegative.mp h
    rw [BitVec.toNat_neg]
    split at hint
    · omega
    · rw [Nat.mod_eq_of_lt (by omega)]
      omega
  next h =>
    have hnonneg : ¬num.toInt < 0 := fun hneg => h (hnegative.mpr hneg)
    refine ⟨?_, (if_neg hnonneg).symm⟩
    show num.toNat = num.toInt.natAbs
    split at hint <;> omega

theorem digitByte_ne_zero : ∀ uc, ∀ d < 16, digitByte uc d ≠ 0 := by decide

/-- A numeral is put out in its field. -/
theorem putchw_numeral (sink : Sink σ) (s : σ) {number : Int} (hwidth : WidthFits p.width)
    (hbase : 8 ≤ p.base ∧ p.base ≤ 16) (hnumber : number.natAbs < 2 ^ 64)
    (hfuel : numberBufferSize ≤ fuel) :
    putchw sink fuel p (.number ((numeral p.base number.natAbs).map (digitByte p.uc))) s =
      (p.numberField number).foldlM sink.putf s := by
  have hnonzero : ∀ ch ∈ (numeral p.base number.natAbs).map (digitByte p.uc), ch ≠ 0 := by
    intro ch hch
    obtain ⟨d, hd, rfl⟩ := List.mem_map.mp hch
    exact digitByte_ne_zero p.uc d (Nat.lt_of_lt_of_le (numeral_lt (by omega) hd) hbase.2)
  refine putchw_eq hwidth ?_ fun _ s' _ => FieldText.reads_number hnonzero (sink.memory s')
  rw [List.length_map]
  exact Nat.lt_of_lt_of_le (numeral_fits hbase.1 hnumber) hfuel

theorem FormatParam.withSign_base (p : FormatParam) (number : Int) :
    (p.withSign number).base = p.base := by
  unfold withSign
  split <;> rfl

theorem FormatParam.withSign_width (p : FormatParam) (number : Int) :
    (p.withSign number).width = p.width := by
  unfold withSign
  split <;> rfl

theorem unsignedArgument (hlng : lng ≤ 2) (hbase : 8 ≤ p.base) :
    (if lng = 2 then ulli2a value p
      else if lng = 1 then uli2a value p else ui2a (value.setWidth 32) p) =
      .ok ((numeral p.base (argumentNumber false lng value).natAbs).map (digitByte p.uc)) := by
  have hlong := unsignedToText_eq hbase (by decide) value.isLt
  have hint := unsignedToText_eq hbase (by decide) (value.setWidth 32).isLt
  obtain rfl | rfl | rfl : lng = 0 ∨ lng = 1 ∨ lng = 2 := by omega
  · exact hint
  · exact hlong
  · exact hlong

theorem signedArgument (hlng : lng ≤ 2) (hbase : 8 ≤ p.base) {number : Int} {signed : FormatParam}
    (hnumber : number = argumentNumber true lng value) (hsigned : signed = p.withSign number) :
    (if lng = 2 then lli2a value p
      else if lng = 1 then li2a value p else i2a (value.setWidth 32) p) =
      .ok (signed, (numeral signed.base number.natAbs).map (digitByte signed.uc)) := by
  have htext : ∀ {w : Nat} (num : BitVec w), 0 < w ∧ w ≤ 64 → number = num.toInt →
      (unsignedToText w (takeSign num p).1.toNat (takeSign num p).2 >>= fun bf =>
        .ok ((takeSign num p).2, bf)) =
      .ok (signed, (numeral signed.base number.natAbs).map (digitByte signed.uc)) := by
    intro w num hw hnum
    have hlt := (takeSign num p).1.isLt
    obtain ⟨htake, hparam⟩ := takeSign_eq num p
    rw [← hnum] at htake hparam
    rw [hparam, ← hsigned, unsignedToText_eq (by rw [hsigned, p.withSign_base]; exact hbase) hw hlt,
      htake]
    rfl
  obtain rfl | rfl | rfl : lng = 0 ∨ lng = 1 ∨ lng = 2 := by omega
  · exact htext (value.setWidth 32 : Word) (by decide) hnumber
  · exact htext value (by decide) hnumber
  · exact htext value (by decide) hnumber

theorem argumentNumber_lt (signed : Bool) (lng : Nat) (value : BitVec 64) :
    (argumentNumber signed lng value).natAbs < 2 ^ 64 := by
  have hword := (value.setWidth 32 : Word).isLt
  have hlong := value.isLt
  have hwordInt := (value.setWidth 32 : Word).toInt_eq_toNat_cond
  have hlongInt := value.toInt_eq_toNat_cond
  unfold argumentNumber
  split_ifs at hwordInt hlongInt ⊢ <;> omega

theorem putUnsigned_eq (hlng : lng ≤ 2) (hwidth : WidthFits p.width)
    (hbase : 8 ≤ p.base ∧ p.base ≤ 16) (hfuel : numberBufferSize ≤ fuel) :
    putUnsigned sink fuel lng p (value :: va) s =
      (p.numberField (argumentNumber false lng value)).foldlM sink.putf s >>=
        fun s => .ok (p, va, s) := by
  have hput := putchw_numeral sink s hwidth hbase (argumentNumber_lt false lng value) hfuel
  simp only [putUnsigned, vaArg, pure_bind, unsignedArgument hlng hbase.1, ok_bind, hput]
  rfl

theorem putSigned_eq (hlng : lng ≤ 2) (hwidth : WidthFits p.width)
    (hbase : 8 ≤ p.base ∧ p.base ≤ 16) (hfuel : numberBufferSize ≤ fuel) :
    putSigned sink fuel lng p (value :: va) s =
      ((p.withSign (argumentNumber true lng value)).numberField
        (argumentNumber true lng value)).foldlM sink.putf s >>=
        fun s => .ok (p.withSign (argumentNumber true lng value), va, s) := by
  have hsign : 8 ≤ (p.withSign (argumentNumber true lng value)).base ∧
      (p.withSign (argumentNumber true lng value)).base ≤ 16 := by rwa [p.withSign_base]
  have hfits : WidthFits (p.withSign (argumentNumber true lng value)).width := by
    rwa [p.withSign_width]
  have hput := putchw_numeral sink s hfits hsign (argumentNumber_lt true lng value) hfuel
  simp only [putSigned, vaArg, pure_bind, signedArgument hlng hbase.1 rfl rfl, ok_bind, hput]
  rfl

theorem FormatParam.withSign_unsigned (p : FormatParam) (lng : Nat) (value : BitVec 64) :
    p.withSign (argumentNumber false lng value) = p := by
  refine if_neg ?_
  simp only [argumentNumber, Bool.false_eq_true, if_false]
  split <;> omega

theorem LengthModifier.lng_le (length : LengthModifier) : length.lng ≤ 2 := by
  cases length <;> decide

/-- The strings that may be read are there, whatever part of the bytes was put out. -/
def StringsHeld (sink : Sink σ) (fuel : Nat) (strings : Nat → Option (List Byte))
    (bytes : List Byte) (s : σ) : Prop :=
  ∀ address text, strings address = some text → text.length < fuel ∧
    ∀ k s', (bytes.take k).foldlM sink.putf s = .ok s' →
      (FieldText.string address).Reads (sink.memory s') text

theorem convert_percent :
    convert sink fuel Conversion.percent.byte lng p va s =
      [ascii '%'].foldlM sink.putf s >>= fun s => .ok (p, va, s) := by
  rw [List.foldlM_cons, bind_assoc]
  rfl

/-- A conversion puts out what its directive stands for. -/
theorem convert_eq {d : Directive} {strings : Nat → Option (List Byte)} {p' : FormatParam}
    {va' : List (BitVec 64)} {bytes : List Byte} (hput : d.put strings p va = some (p', va', bytes))
    (hfuel : numberBufferSize ≤ fuel) (hstrings : StringsHeld sink fuel strings bytes s) :
    convert sink fuel d.conversion.byte d.length.lng (d.param p) va s =
      bytes.foldlM sink.putf s >>= fun s => .ok (p', va', s) := by
  unfold Directive.put at hput
  cases va with
  | nil =>
    -- Only a `%` takes no argument.
    cases hc : d.conversion with
    | percent =>
      simp only [hc, Option.pure_def, Option.some.injEq, Prod.mk.injEq] at hput
      obtain ⟨rfl, rfl, rfl⟩ := hput
      exact convert_percent
    | _ => simp [hc] at hput
  | cons value va =>
    cases hc : d.conversion
    all_goals
      simp only [hc, List.head?_cons, List.tail_cons, FormatParam.withSign_unsigned,
        Option.pure_def, Option.some.injEq, Prod.mk.injEq, Option.bind_eq_bind,
        Option.bind_some] at hput
    case unsigned =>
      obtain ⟨rfl, rfl, rfl⟩ := hput
      exact putUnsigned_eq d.length.lng_le d.width_fits (by decide : 8 ≤ 10 ∧ 10 ≤ 16) hfuel
    case decimal =>
      obtain ⟨rfl, rfl, rfl⟩ := hput
      exact putSigned_eq d.length.lng_le d.width_fits (by decide : 8 ≤ 10 ∧ 10 ≤ 16) hfuel
    case integer =>
      obtain ⟨rfl, rfl, rfl⟩ := hput
      exact putSigned_eq d.length.lng_le d.width_fits (by decide : 8 ≤ 10 ∧ 10 ≤ 16) hfuel
    case pointer =>
      obtain ⟨rfl, rfl, rfl⟩ := hput
      exact putUnsigned_eq (by decide) d.width_fits (by decide : 8 ≤ 16 ∧ 16 ≤ 16) hfuel
    case hex =>
      obtain ⟨rfl, rfl, rfl⟩ := hput
      exact putUnsigned_eq d.length.lng_le d.width_fits (by decide : 8 ≤ 16 ∧ 16 ≤ 16) hfuel
    case upperHex =>
      obtain ⟨rfl, rfl, rfl⟩ := hput
      exact putUnsigned_eq d.length.lng_le d.width_fits (by decide : 8 ≤ 16 ∧ 16 ≤ 16) hfuel
    case octal =>
      obtain ⟨rfl, rfl, rfl⟩ := hput
      exact putUnsigned_eq (by decide) d.width_fits (by decide : 8 ≤ 8 ∧ 8 ≤ 16) hfuel
    case char =>
      obtain ⟨rfl, rfl, rfl⟩ := hput
      rw [List.foldlM_cons, bind_assoc]
      rfl
    case string =>
      rw [Option.bind_eq_some_iff] at hput
      obtain ⟨text, htext, hput⟩ := hput
      simp only [Option.some.injEq, Prod.mk.injEq] at hput
      obtain ⟨rfl, rfl, rfl⟩ := hput
      obtain ⟨hlength, hreads⟩ := hstrings _ _ htext
      rw [← putchw_eq d.width_fits hlength hreads]
      rfl
    case percent =>
      obtain ⟨rfl, rfl, rfl⟩ := hput
      exact convert_percent

theorem StringsHeld.left {strings : Nat → Option (List Byte)} {bytes behind : List Byte}
    (h : StringsHeld sink fuel strings (bytes ++ behind) s) :
    StringsHeld sink fuel strings bytes s := by
  intro address text htext
  obtain ⟨hlength, hreads⟩ := h address text htext
  refine ⟨hlength, fun k s' hrun => hreads (min k bytes.length) s' ?_⟩
  rwa [List.take_append_of_le_length (Nat.min_le_right _ _), ← List.take_eq_take_min]

theorem StringsHeld.right {strings : Nat → Option (List Byte)} {bytes behind : List Byte} {s' : σ}
    (h : StringsHeld sink fuel strings (bytes ++ behind) s)
    (hrun : bytes.foldlM sink.putf s = .ok s') : StringsHeld sink fuel strings behind s' := by
  intro address text htext
  obtain ⟨hlength, hreads⟩ := h address text htext
  refine ⟨hlength, fun k s'' hbehind => hreads (bytes.length + k) s'' ?_⟩
  rw [List.take_length_add_append, List.foldlM_append, hrun, ok_bind, hbehind]

/-- `tfp_format` goes on behind a directive, with what the directive has left. -/
theorem tfpFormatLoop_directive (hfuel : numberBufferSize ≤ fuel) {d : Directive}
    {strings : Nat → Option (List Byte)} {p' : FormatParam} {va' : List (BitVec 64)}
    {bytes : List Byte} (hput : d.put strings p va = some (p', va', bytes))
    (hstrings : StringsHeld sink fuel strings bytes s) {n : Nat} {fmt : List Byte} :
    tfpFormatLoop sink fuel (n + 1) ((FormatPiece.directive d).bytes ++ fmt) p va s =
      bytes.foldlM sink.putf s >>= fun s => tfpFormatLoop sink fuel n fmt p' va' s := by
  have hzero := d.conversion.byte_ne.2.2.2
  rw [FormatPiece.bytes, List.cons_append, tfpFormatLoop, if_neg (not_not_intro rfl),
    readDirective_bytes]
  simp only [if_neg hzero]
  rw [convert_eq hput hfuel hstrings, bind_assoc]
  rfl

/-- `tfp_format` passes on what the pieces of its format put out. -/
theorem tfpFormatLoop_pieces (hfuel : numberBufferSize ≤ fuel)
    {strings : Nat → Option (List Byte)} {pieces : List FormatPiece} {bytes : List Byte}
    (houtput : formatOutput strings pieces p va = some bytes)
    (hstrings : StringsHeld sink fuel strings bytes s) {n : Nat}
    (hn : (formatBytes pieces).length < n) :
    tfpFormatLoop sink fuel n (formatBytes pieces) p va s = bytes.foldlM sink.putf s := by
  induction pieces generalizing p va bytes s n with
  | nil =>
    obtain ⟨n, rfl⟩ := Nat.exists_eq_add_one_of_ne_zero (Nat.ne_zero_of_lt hn)
    cases houtput
    rfl
  | cons piece pieces ih =>
    obtain ⟨n, rfl⟩ := Nat.exists_eq_add_one_of_ne_zero (Nat.ne_zero_of_lt hn)
    have hformat : formatBytes (piece :: pieces) = piece.bytes ++ formatBytes pieces := rfl
    rw [hformat, List.length_append] at hn
    rw [hformat]
    cases piece with
    | char ch hpercent hzero =>
      simp only [formatOutput, Option.bind_eq_bind, Option.bind_eq_some_iff, Option.pure_def,
        Option.some.injEq] at houtput
      obtain ⟨behind, hbehind, rfl⟩ := houtput
      rw [FormatPiece.bytes, List.singleton_append, tfpFormatLoop, if_pos hpercent,
        List.foldlM_cons]
      cases hput : sink.putf s ch with
      | error e => rfl
      | ok next =>
        have hone : [ch].foldlM sink.putf s = .ok next := by
          rw [List.foldlM_cons, hput]
          rfl
        have hheld : StringsHeld sink fuel strings ([ch] ++ behind) s := hstrings
        rw [ok_bind, ok_bind]
        refine ih hbehind (hheld.right hone) ?_
        simp only [FormatPiece.bytes, List.length_singleton] at hn
        omega
    | directive d =>
      simp only [formatOutput, Option.bind_eq_bind, Option.bind_eq_some_iff, Option.pure_def,
        Option.some.injEq] at houtput
      obtain ⟨⟨p', va', bytes⟩, hput, behind, hbehind, rfl⟩ := houtput
      rw [tfpFormatLoop_directive hfuel hput hstrings.left, List.foldlM_append]
      cases hrun : bytes.foldlM sink.putf s with
      | error e => rfl
      | ok next =>
        rw [ok_bind, ok_bind]
        refine ih hbehind (hstrings.right hrun) ?_
        rw [FormatPiece.bytes, List.length_cons] at hn
        omega

/-- `tfp_format` passes on exactly what the pieces of its format put out. -/
theorem tfpFormat_pieces (hfuel : numberBufferSize ≤ fuel)
    {strings : Nat → Option (List Byte)} {pieces : List FormatPiece} {bytes : List Byte}
    (houtput : formatOutput strings pieces p va = some bytes)
    (hstrings : StringsHeld sink fuel strings bytes s) :
    tfpFormat sink fuel p (formatBytes pieces) va s = bytes.foldlM sink.putf s :=
  tfpFormatLoop_pieces hfuel houtput hstrings (Nat.lt_succ_self _)

end Conversions

/-! ## Strings in memory -/

/-- Memory with bytes stored from an address on. -/
def overwrite (memory : Nat → Byte) (start : Nat) (bytes : List Byte) (address : Nat) : Byte :=
  if start ≤ address ∧ address < start + bytes.length then bytes.getD (address - start) 0
  else memory address

/-- What the callback stores. -/
def keptBytes (destCapacity : Option Nat) (bytes : List Byte) : List Byte :=
  match destCapacity with
  | none => bytes
  | some capacity => bytes.take capacity

section Strings

variable {memory : Nat → Byte} {start : Nat} {bytes : List Byte}

theorem overwrite_of_lt {address : Nat} (h : address < start ∨ start + bytes.length ≤ address) :
    overwrite memory start bytes address = memory address := if_neg (by omega)

theorem overwrite_concat (memory : Nat → Byte) (start : Nat) (bytes : List Byte) (c : Byte) :
    overwrite memory start (bytes ++ [c]) =
      Function.update (overwrite memory start bytes) (start + bytes.length) c := by
  funext address
  rcases eq_or_ne address (start + bytes.length) with rfl | hne
  · simp [overwrite]
  · rw [Function.update_of_ne hne, overwrite, overwrite, List.length_append, List.length_singleton]
    by_cases hin : start ≤ address ∧ address < start + bytes.length
    · rw [if_pos hin, if_pos (by omega), List.getD_eq_getElem?_getD, List.getD_eq_getElem?_getD,
        List.getElem?_append_left (by omega)]
    · rw [if_neg hin, if_neg (by omega)]

/-- The callback stores a byte behind the others, while there is room for it. -/
theorem vsnprintfPutcf_eq (destCapacity : Option Nat) (done : List Byte) (c : Byte) :
    vsnprintfPutcf
        ⟨overwrite memory start (keptBytes destCapacity done), start, destCapacity, done.length⟩ c =
      .ok ⟨overwrite memory start (keptBytes destCapacity (done ++ [c])), start, destCapacity,
        (done ++ [c]).length⟩ := by
  unfold vsnprintfPutcf PutcfData.stores keptBytes
  rw [List.length_append, List.length_singleton]
  cases destCapacity with
  | none => simp only [if_true, overwrite_concat, pure_eq_ok]
  | some capacity =>
    simp only [decide_eq_true_eq, pure_eq_ok]
    split
    next hroom =>
      rw [List.take_of_length_le (Nat.le_of_lt hroom),
        List.take_of_length_le (by simpa using hroom), overwrite_concat]
    next hfull => rw [List.take_append_of_le_length (Nat.le_of_not_lt hfull)]

/-- The callback stores the bytes in order. -/
theorem vsnprintfPutcf_foldlM (memory : Nat → Byte) (start : Nat) (destCapacity : Option Nat)
    (done bytes : List Byte) :
    bytes.foldlM vsnprintfPutcf
        ⟨overwrite memory start (keptBytes destCapacity done), start, destCapacity, done.length⟩ =
      .ok ⟨overwrite memory start (keptBytes destCapacity (done ++ bytes)), start, destCapacity,
        (done ++ bytes).length⟩ := by
  induction bytes generalizing done with
  | nil => rw [List.append_nil]; rfl
  | cons c bytes ih =>
    rw [List.foldlM_cons, vsnprintfPutcf_eq, ok_bind, ih, List.append_assoc, List.singleton_append]

theorem overwrite_nil (memory : Nat → Byte) (start : Nat) : overwrite memory start [] = memory := by
  funext address
  exact overwrite_of_lt (by rw [List.length_nil]; omega)

theorem keptBytes_length_le (destCapacity : Option Nat) (bytes : List Byte) :
    (keptBytes destCapacity bytes).length ≤ bytes.length := by
  cases destCapacity with
  | none => exact Nat.le_refl _
  | some capacity => exact List.length_take_le' _ _

/-- From its start, the callback stores the bytes at the destination. -/
theorem stringSink_foldlM (destCapacity : Option Nat) (bytes : List Byte) :
    bytes.foldlM stringSink.putf ⟨memory, start, destCapacity, 0⟩ =
      .ok ⟨overwrite memory start (keptBytes destCapacity bytes), start, destCapacity,
        bytes.length⟩ := by
  have hrun := vsnprintfPutcf_foldlM memory start destCapacity [] bytes
  have hnil : keptBytes destCapacity [] = [] :=
    List.eq_nil_of_length_eq_zero (Nat.le_zero.mp (keptBytes_length_le destCapacity []))
  rw [hnil, overwrite_nil, List.nil_append] at hrun
  exact hrun

/-- The strings lie beside what is written. -/
structure StringsBeside (memory : Nat → Byte) (fuel start size : Nat)
    (strings : Nat → Option (List Byte)) : Prop where
  fits : ∀ address text, strings address = some text → text.length < fuel
  reads : ∀ address text, strings address = some text →
    (FieldText.string address).Reads memory text
  beside : ∀ address text, strings address = some text →
    address + text.length < start ∨ start + size ≤ address

theorem FieldText.Reads.overwrite {address : Nat} {text : List Byte}
    (h : (FieldText.string address).Reads memory text)
    (hbeside : address + text.length < start ∨ start + bytes.length ≤ address) :
    (FieldText.string address).Reads (overwrite memory start bytes) text where
  byte i hi := by
    rw [← h.byte i hi]
    exact overwrite_of_lt (by omega)
  nonzero := h.nonzero
  ends := by
    rw [← h.ends]
    exact overwrite_of_lt (by omega)

/-- Strings beside the destination are not changed while it is written. -/
theorem StringsBeside.held {fuel : Nat} {strings : Nat → Option (List Byte)}
    (h : StringsBeside memory fuel start bytes.length strings) (destCapacity : Option Nat) :
    StringsHeld stringSink fuel strings bytes ⟨memory, start, destCapacity, 0⟩ := by
  intro address text htext
  refine ⟨h.fits address text htext, fun k s' hrun => ?_⟩
  rw [stringSink_foldlM, Except.ok.injEq] at hrun
  have hkept := keptBytes_length_le destCapacity (bytes.take k)
  have htake := List.length_take_le' k bytes
  have hbeside := h.beside address text htext
  rw [← hrun]
  exact (h.reads address text htext).overwrite (by omega)

end Strings

variable {memory : Nat → Byte} {fuel start : Nat} {strings : Nat → Option (List Byte)}

/-- The formatted string is at its place, and nothing else has changed: all of it, or what a
buffer of a size can hold of it.  Its length is returned as an `int`. -/
theorem formatted_string (p : FormatParam) {pieces : List FormatPiece} {va : List (BitVec 64)}
    {bytes : List Byte} (houtput : formatOutput strings pieces p va = some bytes)
    (hfuel : numberBufferSize ≤ fuel)
    (hstrings : StringsBeside memory fuel start bytes.length strings) :
    tfpVsprintf fuel p memory start (formatBytes pieces) va =
        .ok (BitVec.ofNat 32 bytes.length, overwrite memory start (bytes ++ [0])) ∧
      ∀ size, tfpVsnprintf fuel p memory start (size + 1) (formatBytes pieces) va =
        .ok (BitVec.ofNat 32 bytes.length, overwrite memory start (bytes.take size ++ [0])) := by
  have hformat : ∀ destCapacity, tfpFormat stringSink fuel p (formatBytes pieces) va
      ⟨memory, start, destCapacity, 0⟩ =
      .ok ⟨overwrite memory start (keptBytes destCapacity bytes), start, destCapacity,
        bytes.length⟩ := by
    intro destCapacity
    rw [tfpFormat_pieces hfuel houtput (hstrings.held destCapacity), stringSink_foldlM]
  constructor
  · rw [tfpVsprintf, hformat none, ok_bind, overwrite_concat]
    rfl
  · intro size
    have hlength : min bytes.length size = (bytes.take size).length := by
      rw [List.length_take, Nat.min_comm]
    rw [tfpVsnprintf, if_neg (by omega), Nat.add_sub_cancel, hformat (some size), ok_bind,
      overwrite_concat, ← hlength]
    rfl

/-- A region, and a name behind the destination, in a buffer of twelve bytes. -/
theorem formatted_string_region :
    let name := [ascii 'r', ascii 'o', ascii 'm']
    let memory := overwrite (fun _ => 0) 100 name
    let pieces := [.char (ascii '[') (by decide) (by decide),
      .directive ⟨[.zero], 8, by decide, none, .int, .hex⟩,
      .char (ascii ']') (by decide) (by decide), .directive ⟨[], 0, by decide, none, .int, .string⟩]
    tfpVsnprintf 23 ⟨false, false, false, false, 0, 0, 0⟩ memory 0 12 (formatBytes pieces)
        [0x1f000, 100] =
      .ok (13, overwrite memory 0 ([ascii '[', ascii '0', ascii '0', ascii '0', ascii '1',
        ascii 'f', ascii '0', ascii '0', ascii '0', ascii ']', ascii 'r'] ++ [0])) := by
  intro name memory pieces
  have houtput : formatOutput (fun address => if address = 100 then some name else none) pieces
      ⟨false, false, false, false, 0, 0, 0⟩ [0x1f000, 100] =
      some [ascii '[', ascii '0', ascii '0', ascii '0', ascii '1', ascii 'f', ascii '0', ascii '0',
        ascii '0', ascii ']', ascii 'r', ascii 'o', ascii 'm'] := by decide +kernel
  refine (formatted_string _ houtput (by decide) ?_).2 11
  have hname : ∀ address text, (if address = 100 then some name else none) = some text →
      address = 100 ∧ text = name := by
    intro address text h
    split at h
    next h100 => exact ⟨h100, (Option.some.inj h).symm⟩
    next => cases h
  constructor
  · intro address text h
    obtain ⟨-, rfl⟩ := hname address text h
    decide
  · intro address text h
    obtain ⟨rfl, rfl⟩ := hname address text h
    exact ⟨by decide, by decide, rfl⟩
  · intro address text h
    obtain ⟨rfl, rfl⟩ := hname address text h
    decide

end Hyrule
