import Hyrule.Fs.HostPath
import Hyrule.Util.FormatStrings

/-!
# Paths that are formatted

`call_chdir` and `call_execve` join a directory and a path with `tfp_sprintf`, and
`call_chdir` appends a slash with it, from a buffer to itself.  `formatPath` and `callChdir`
append strings instead.  Here both are compared: the formatted bytes in the buffer are the
appended strings, and a buffer overflows exactly where the strings do not fit
(`sprintf_joins`, `sprintf_appends_slash`).

The slash is put out where the string ended that is read, when all of it was read.  Up to
there each byte is stored over itself.
-/

namespace Hyrule

open Lib Lib.Result

/-! ## Strings as they are -/

/-- `%s`. -/
def stringDirective : Directive := ⟨[], 0, by decide, none, .int, .string⟩

theorem stringDirective_field (p : FormatParam) (text : List Byte) :
    (stringDirective.param p).field text = text := by
  simp [stringDirective, Directive.param, FormatParam.field, FormatParam.room,
    FormatParam.signBytes, FormatParam.altPrefix]

theorem stringDirective_put {strings : Nat → Option (List Byte)} {address : BitVec 64}
    {text : List Byte} (htext : strings address.toNat = some text) (p : FormatParam)
    (va : List (BitVec 64)) :
    stringDirective.put strings p (address :: va) =
      some (stringDirective.param p, va, text) := by
  have hput : stringDirective.put strings p (address :: va) =
      (strings address.toNat).map fun text =>
        (stringDirective.param p, va, (stringDirective.param p).field text) := by
    cases hstring : strings address.toNat <;> simp [stringDirective, Directive.put, hstring]
  rw [hput, htext, Option.map_some, stringDirective_field]

/-- `"%s/%s"`. -/
def joinFormat : List Byte := "%s/%s".toList.map ascii

/-- `"%s/"`. -/
def slashFormat : List Byte := "%s/".toList.map ascii

/-- The slash of the formats. -/
def slashPiece : FormatPiece := .char slash (by decide) (by decide)

theorem joinFormat_bytes :
    joinFormat =
      formatBytes [.directive stringDirective, slashPiece, .directive stringDirective] := by
  decide +kernel

theorem slashFormat_bytes :
    slashFormat = (FormatPiece.directive stringDirective).bytes ++ formatBytes [slashPiece] := by
  decide +kernel

/-! ## Appended strings -/

/-- Strings are appended in a buffer exactly if they fit. -/
theorem appendStrings_if (strings : List CString) {dst : List Byte} (hdst : dst.length < maxPath) :
    strings.foldlM appendString dst =
      if (dst ++ (strings.map CString.bytes).flatten).length < maxPath then
        .ok (dst ++ (strings.map CString.bytes).flatten)
      else .error .outOfBounds := by
  induction strings generalizing dst with
  | nil => simp [hdst]
  | cons s strings ih =>
    rw [List.foldlM_cons, appendString_eq dst s (Nat.le_of_lt hdst), List.map_cons,
      List.flatten_cons, ← List.append_assoc]
    split
    next hfits =>
      rw [ok_bind, ih (by rwa [List.length_append])]
    next hover =>
      refine (if_neg ?_).symm
      rw [List.length_append, List.length_append]
      omega

/-- The string of appended strings. -/
def concatStrings (strings : List CString) : CString :=
  ⟨(strings.map CString.bytes).flatten, noNul_flatten strings⟩

/-- The string in the buffer is the appended string. -/
theorem appendStrings_ofBuffer {α : Type} (strings : List CString) (next : CString → Result α) :
    (do
      let buffer ← strings.foldlM appendString []
      next (CString.ofBuffer buffer)) =
      if (concatStrings strings).length < maxPath then next (concatStrings strings)
      else .error .outOfBounds := by
  rw [appendStrings_if strings (by decide), List.nil_append]
  split
  next hfits =>
    have hbuffer :
        CString.ofBuffer (strings.map CString.bytes).flatten = concatStrings strings := by
      rw [CString.mk.injEq]
      exact CString.ofBuffer_bytes (noNul_flatten strings)
    rw [ok_bind, hbuffer]
    exact (if_pos hfits).symm
  next hover => exact (if_neg hover).symm

theorem formatPath_eq (dir path : CString) :
    formatPath dir path =
      if (concatStrings [dir, slashString, path]).length < maxPath then
        .ok (concatStrings [dir, slashString, path])
      else .error .outOfBounds := by
  rw [← appendStrings_ofBuffer]
  simp only [formatPath, List.foldlM_cons, List.foldlM_nil, bind_assoc, pure_bind]
  rfl

theorem callChdir_eq {cwd path cpath : CString} (hpath : chdirPath cwd path = .ok cpath) :
    callChdir cwd path =
      if (concatStrings [cpath, slashString]).length < nameSize then
        .ok (concatStrings [cpath, slashString])
      else .error .outOfBounds := by
  have hrun : callChdir cwd path = (do
      let buffer ← [cpath, slashString].foldlM appendString []
      copyName (CString.ofBuffer buffer)) := by
    simp only [callChdir, hpath, ok_bind, List.foldlM_cons, List.foldlM_nil, bind_assoc, pure_bind]
  rw [hrun, appendStrings_ofBuffer, copyName]
  split
  next => rfl
  next hover =>
    refine (if_neg ?_).symm
    have : nameSize ≤ maxPath := by decide
    omega

/-! ## Strings in memory -/

section Memory

variable {memory : Nat → Byte} {bf : FieldText} {text text' : List Byte}

/-- A string ends at its first zero. -/
theorem FieldText.Reads.length_le (h : bf.Reads memory text) (h' : bf.Reads memory text') :
    text.length ≤ text'.length := by
  refine Nat.le_of_not_lt fun hlt => ?_
  refine h.nonzero _ (List.getElem_mem hlt) ?_
  rw [← h.byte _ hlt, h'.ends]

/-- There is one string at an address. -/
theorem FieldText.Reads.unique (h : bf.Reads memory text) (h' : bf.Reads memory text') :
    text = text' := by
  refine List.ext_getElem (Nat.le_antisymm (h.length_le h') (h'.length_le h)) ?_
  intro i hi hi'
  rw [← h.byte i hi, h'.byte i hi']

theorem FieldText.reads_overwrite (memory : Nat → Byte) (start : Nat)
    (hnonzero : ∀ ch ∈ text, ch ≠ 0) :
    (FieldText.string start).Reads (Hyrule.overwrite memory start (text ++ [0])) text where
  byte i hi := by
    have hin : start ≤ start + i ∧ start + i < start + (text ++ [(0 : Byte)]).length := by
      rw [List.length_append]
      omega
    rw [byteAt, Hyrule.overwrite, if_pos hin, Nat.add_sub_cancel_left, List.getD_eq_getElem?_getD,
      List.getElem?_append_left hi, List.getElem?_eq_getElem hi, Option.getD_some]
  nonzero := hnonzero
  ends := by
    have hin : start ≤ start + text.length ∧
        start + text.length < start + (text ++ [(0 : Byte)]).length := by
      rw [List.length_append, List.length_singleton]
      omega
    rw [byteAt, Hyrule.overwrite, if_pos hin, Nat.add_sub_cancel_left]
    simp

theorem CString.bytes_ne (s : CString) : ∀ ch ∈ s.bytes, ch ≠ 0 := by
  intro ch hmem hzero
  rw [hzero] at hmem
  exact s.noNul hmem

/-- Bytes that are stored over themselves. -/
theorem overwrite_take {start : Nat} (h : (FieldText.string start).Reads memory text) (k : Nat) :
    overwrite memory start (text.take k) = memory := by
  funext address
  unfold overwrite
  split
  next hin =>
    rw [List.length_take] at hin
    have hbyte := h.byte (address - start) (by omega)
    rw [FieldText.byteAt, Nat.add_sub_cancel' hin.1] at hbyte
    rw [hbyte, List.getD_eq_getElem?_getD, List.getElem?_take_of_lt (by omega),
      List.getElem?_eq_getElem (by omega), Option.getD_some]
  next => rfl

/-- A string at an address, and others. -/
def stringAt (address : Nat) (text : List Byte) (others : Nat → Option (List Byte)) :
    Nat → Option (List Byte) := Function.update others address (some text)

theorem stringAt_cases {address address' : Nat} {others : Nat → Option (List Byte)}
    (h : stringAt address text others address' = some text') :
    address' = address ∧ text' = text ∨ others address' = some text' := by
  rcases eq_or_ne address' address with rfl | hne
  · rw [stringAt, Function.update_self] at h
    exact Or.inl ⟨rfl, (Option.some.inj h).symm⟩
  · rw [stringAt, Function.update_of_ne hne] at h
    exact Or.inr h

end Memory

/-! ## The formatted paths -/

variable {memory : Nat → Byte} {fuel : Nat}

/-- A buffer that a string is written to, with what was there before and what is there then.
`n` bytes are written in front of the zero. -/
structure FormattedString (memory memory' : Nat → Byte) (buffer n : Nat) (s : CString) : Prop where
  length : s.length = n
  reads : (FieldText.string buffer).Reads memory' s.bytes
  frame : ∀ address, address < buffer ∨ buffer + n < address → memory' address = memory address

theorem formattedString_overwrite (memory : Nat → Byte) (buffer : Nat) (s : CString) :
    FormattedString memory (overwrite memory buffer (s.bytes ++ [0])) buffer s.length s where
  length := rfl
  reads := FieldText.reads_overwrite memory buffer s.bytes_ne
  frame address h := overwrite_of_lt (by
    rw [List.length_append, List.length_singleton]
    have : s.length = s.bytes.length := rfl
    omega)

/-- `tfp_sprintf` joins a directory and a path.  What it leaves in the buffer is the path that
`formatPath` makes, and the buffer overflows exactly where that fails. -/
theorem sprintf_joins (p : FormatParam) {dir path : CString} {dirAddr pathAddr : BitVec 64}
    {buffer : Nat} (hdir : (FieldText.string dirAddr.toNat).Reads memory dir.bytes)
    (hpath : (FieldText.string pathAddr.toNat).Reads memory path.bytes)
    (hfuel : numberBufferSize ≤ fuel ∧ dir.length < fuel ∧ path.length < fuel)
    (hbesideDir : dirAddr.toNat + dir.length < buffer ∨
      buffer + (dir.length + 1 + path.length) ≤ dirAddr.toNat)
    (hbesidePath : pathAddr.toNat + path.length < buffer ∨
      buffer + (dir.length + 1 + path.length) ≤ pathAddr.toNat) :
    ∃ n memory' joined,
      tfpVsprintf fuel p memory buffer joinFormat [dirAddr, pathAddr] =
          .ok (BitVec.ofNat 32 n, memory') ∧
        FormattedString memory memory' buffer n joined ∧
        formatPath dir path = if n < maxPath then .ok joined else .error .outOfBounds := by
  have hfirst : stringAt dirAddr.toNat dir.bytes (stringAt pathAddr.toNat path.bytes fun _ => none)
      dirAddr.toNat = some dir.bytes := Function.update_self _ _ _
  have hsecond : stringAt dirAddr.toNat dir.bytes (stringAt pathAddr.toNat path.bytes fun _ => none)
      pathAddr.toNat = some path.bytes := by
    rcases eq_or_ne pathAddr.toNat dirAddr.toNat with heq | hne
    · rw [← heq] at hdir ⊢
      rw [stringAt, Function.update_self, hdir.unique hpath]
    · rw [stringAt, Function.update_of_ne hne, stringAt, Function.update_self]
  have houtput : formatOutput
      (stringAt dirAddr.toNat dir.bytes (stringAt pathAddr.toNat path.bytes fun _ => none))
      [.directive stringDirective, slashPiece, .directive stringDirective] p [dirAddr, pathAddr] =
      some (concatStrings [dir, slashString, path]).bytes := by
    simp only [formatOutput, slashPiece, stringDirective_put hfirst, stringDirective_put hsecond,
      Option.bind_eq_bind, Option.bind_some, Option.pure_def]
    rfl
  have hbytes : (concatStrings [dir, slashString, path]).bytes.length =
      dir.length + 1 + path.length := by
    simp only [concatStrings, slashString, CString.length, List.map_cons, List.map_nil,
      List.flatten_cons, List.flatten_nil, List.append_nil, List.length_append,
      List.length_singleton]
    omega
  have hcases : ∀ address text,
      stringAt dirAddr.toNat dir.bytes (stringAt pathAddr.toNat path.bytes fun _ => none) address =
        some text → address = dirAddr.toNat ∧ text = dir.bytes ∨
      address = pathAddr.toNat ∧ text = path.bytes := by
    intro address text h
    rcases stringAt_cases h with h | h
    · exact Or.inl h
    · rcases stringAt_cases h with h | h
      · exact Or.inr h
      · cases h
  have hbeside : StringsBeside memory fuel buffer
      (concatStrings [dir, slashString, path]).bytes.length
      (stringAt dirAddr.toNat dir.bytes (stringAt pathAddr.toNat path.bytes fun _ => none)) := by
    rw [hbytes]
    constructor
    all_goals
      intro address text h
      rcases hcases address text h with ⟨rfl, rfl⟩ | ⟨rfl, rfl⟩
    · exact hfuel.2.1
    · exact hfuel.2.2
    · exact hdir
    · exact hpath
    · exact hbesideDir
    · exact hbesidePath
  have hrun := (formatted_string p houtput hfuel.1 hbeside).1
  rw [← joinFormat_bytes] at hrun
  exact ⟨_, _, _, hrun, formattedString_overwrite memory buffer _, formatPath_eq dir path⟩

/-- The root and a name. -/
theorem sprintf_joins_name : ∃ n memory' joined,
    tfpVsprintf 23 ⟨false, false, false, false, 0, 0, 0⟩
        (overwrite (overwrite (fun _ => 0) 100 [slash]) 110 [ascii 'x']) 200 joinFormat
        [100, 110] = .ok (BitVec.ofNat 32 n, memory') ∧
      FormattedString (overwrite (overwrite (fun _ => 0) 100 [slash]) 110 [ascii 'x']) memory' 200
        n joined ∧
      formatPath slashString ⟨[ascii 'x'], by decide⟩ =
        if n < maxPath then .ok joined else .error .outOfBounds :=
  sprintf_joins _ ⟨by decide, by decide, by decide⟩ ⟨by decide, by decide, by decide⟩ (by decide)
    (by decide) (by decide)

/-- `tfp_sprintf` appends a slash to the path that it reads from the same buffer, and
`call_chdir` copies it, if it fits. -/
theorem sprintf_appends_slash (p : FormatParam) {cwd path cpath : CString} {buffer : BitVec 64}
    (hchdir : chdirPath cwd path = .ok cpath)
    (hcpath : (FieldText.string buffer.toNat).Reads memory cpath.bytes)
    (hfuel : numberBufferSize ≤ fuel ∧ cpath.length < fuel) :
    ∃ n memory' directory,
      tfpVsprintf fuel p memory buffer.toNat slashFormat [buffer] =
          .ok (BitVec.ofNat 32 n, memory') ∧
        FormattedString memory memory' buffer.toNat n directory ∧
        callChdir cwd path = if n < nameSize then .ok directory else .error .outOfBounds := by
  have hput := stringDirective_put (Function.update_self buffer.toNat (some cpath.bytes)
    fun _ => none) p []
  have hheld : StringsHeld stringSink fuel (stringAt buffer.toNat cpath.bytes fun _ => none)
      cpath.bytes ⟨memory, buffer.toNat, none, 0⟩ := by
    intro address text htext
    rcases stringAt_cases htext with ⟨rfl, rfl⟩ | htext
    · refine ⟨hfuel.2, fun k s' hrun => ?_⟩
      rw [stringSink_foldlM, Except.ok.injEq] at hrun
      have hmemory : s'.memory = memory := by
        rw [← hrun]
        exact overwrite_take hcpath k
      show (FieldText.string buffer.toNat).Reads s'.memory cpath.bytes
      rwa [hmemory]
    · cases htext
  have hslash : ∀ data p', tfpFormatLoop stringSink fuel slashFormat.length
      (formatBytes [slashPiece]) p' [] data = [slash].foldlM stringSink.putf data := by
    intro data p'
    have houtput : formatOutput (fun _ => none) [slashPiece] p' [] = some [slash] := rfl
    refine tfpFormatLoop_pieces hfuel.1 houtput ?_ (by decide)
    intro address text htext
    cases htext
  have hformat : tfpFormat stringSink fuel p slashFormat [buffer]
      ⟨memory, buffer.toNat, none, 0⟩ =
      (concatStrings [cpath, slashString]).bytes.foldlM stringSink.putf
        ⟨memory, buffer.toNat, none, 0⟩ := by
    have hbytes : (concatStrings [cpath, slashString]).bytes = cpath.bytes ++ [slash] := rfl
    rw [tfpFormat, hbytes, List.foldlM_append]
    nth_rewrite 2 [slashFormat_bytes]
    rw [tfpFormatLoop_directive hfuel.1 hput hheld]
    simp only [hslash]
  refine ⟨_, _, concatStrings [cpath, slashString], ?_,
    formattedString_overwrite memory buffer.toNat _, callChdir_eq hchdir⟩
  rw [tfpVsprintf, hformat, stringSink_foldlM, ok_bind, overwrite_concat]
  rfl

/-- A directory below the root. -/
theorem sprintf_appends_slash_name : ∃ n memory' directory,
    tfpVsprintf 23 ⟨false, false, false, false, 0, 0, 0⟩
        (overwrite (fun _ => 0) 100 [slash, ascii 'x']) 100 slashFormat [100] =
          .ok (BitVec.ofNat 32 n, memory') ∧
      FormattedString (overwrite (fun _ => 0) 100 [slash, ascii 'x']) memory' 100 n directory ∧
      callChdir slashString ⟨[ascii 'x'], by decide⟩ =
        if n < nameSize then .ok directory else .error .outOfBounds := by
  have hchdir : chdirPath slashString ⟨[ascii 'x'], by decide⟩ =
      .ok ⟨[slash, ascii 'x'], by decide⟩ := by decide +kernel
  have hcpath : (FieldText.string (100 : BitVec 64).toNat).Reads
      (overwrite (fun _ => 0) 100 [slash, ascii 'x']) [slash, ascii 'x'] :=
    ⟨by decide, by decide, by decide⟩
  exact sprintf_appends_slash _ hchdir hcpath (by decide)

end Hyrule
