import Hyrule.Lib.Parts
import Hyrule.Lib.Result
import Hyrule.Util.Word
import Mathlib.Data.List.Flatten
import Mathlib.Data.List.GetD
import Mathlib.Data.List.TakeWhile

/-!
# Path names

`canonicalize_path_name` of `vfs.c`.  The first loop cuts the path into words: the
first word starts at the first byte, every other one at a slash.  It keeps a
stack of the positions of words.  The second loop copies the words of the stack.

A path that starts with a slash has the words of its components.  The first word
of any other path has no slash, but the loop counts its bytes as if it had: it
drops a first word of one byte in front of others, of two bytes that end in a
dot, and of three bytes that end in two.

`canonicalizePathName_eq` says that the function returns, on every path of at
most 510 bytes, the words that are left, as `canonical` computes them.
`canonical_absolute` gives these by the components of an absolute path, and
`canonical_of_stays` and `canonical_of_not_stays` say what becomes of any path,
by whether its first word stays.
-/

namespace Hyrule

open Lib Lib.Result

/-! ## Strings -/

/-- `'\0'`. -/
def nul : Byte := 0

/-- A string that is terminated by a zero byte. -/
structure CString where
  bytes : List Byte
  noNul : nul ∉ bytes
deriving DecidableEq

namespace CString

/-- `s[i]`, up to the terminating zero. -/
def byteAt (s : CString) (i : Nat) : Byte := s.bytes.getD i nul

/-- `strlen`. -/
def length (s : CString) : Nat := s.bytes.length

/-- The string at the start of a buffer. -/
def ofBuffer (buffer : List Byte) : CString where
  bytes := buffer.takeWhile (· ≠ nul)
  noNul h := by simpa using List.mem_takeWhile_imp h

/-- A string in front of another. -/
def append (s t : CString) : CString where
  bytes := s.bytes ++ t.bytes
  noNul := by simp [s.noNul, t.noNul]

/-- The empty string. -/
def empty : CString := ⟨[], List.not_mem_nil⟩

end CString

/-- `'/'`. -/
def slash : Byte := 47

/-- `'.'`. -/
def dot : Byte := 46

/-- `' '`. -/
def space : Byte := 32

/-- The string `"/"`. -/
def slashString : CString := ⟨[slash], by decide⟩

/-- `MAX_PATH`. -/
def maxPath : Nat := 512

/-- The number of entries of `index_stack`. -/
def indexStackSize : Nat := 256

/-! ## The source -/

/-- `index_stack[index_ptr++] = word_start`. -/
def pushIndex (stack : List Nat) (start : Nat) : Result (List Nat) :=
  if stack.length < indexStackSize then return stack ++ [start] else throw .outOfBounds

/-- What the first loop does at the end of a word: the start of the next word, and
the stack. -/
def closeWord (src : CString) (idx start : Nat) (stack : List Nat) :
    Result (Nat × List Nat) := do
  let wordLen := idx - start
  if wordLen = 1 then
    if src.byteAt idx = nul ∧ stack = [] then return (start, ← pushIndex stack start)
    else return (idx, stack)
  else if wordLen = 2 ∧ src.byteAt (idx - 1) = dot then return (idx, stack)
  else if wordLen = 3 ∧ src.byteAt (idx - 1) = dot ∧ src.byteAt (idx - 2) = dot then
    return (idx, stack.dropLast)
  else return (idx, ← pushIndex stack start)

/-- The loop that finds the words.  It has `fuel` positions left to look at. -/
def findWords (src : CString) : Nat → Nat → Option Nat → List Nat → Result (List Nat)
  | 0, _, _, stack => return stack
  | fuel + 1, idx, wordStart, stack =>
      if src.byteAt idx ≠ slash ∧ src.byteAt idx ≠ nul ∧ idx ≠ 0 then
        findWords src fuel (idx + 1) wordStart stack
      else
        match wordStart with
        | none =>
            if src.byteAt idx ≠ nul then findWords src fuel (idx + 1) (some idx) stack
            else return stack
        | some start => do
            let (start, stack) ← closeWord src idx start stack
            if src.byteAt idx = nul then return stack
            else findWords src fuel (idx + 1) (some start) stack

/-- The loop that finds `word_end`. -/
def findWordEnd (src : CString) : Nat → Nat → Nat
  | 0, _ => 0
  | fuel + 1, idx =>
      if src.byteAt idx = slash then idx
      else if src.byteAt idx = nul then idx + 1
      else findWordEnd src fuel (idx + 1)

/-- `word_end` of the word that starts at a position. -/
def wordEnd (src : CString) (start : Nat) : Nat :=
  findWordEnd src (maxPath - (start + 1)) (start + 1)

/-- `dst[iptr++] = byte`, where `dst` has `MAX_PATH` bytes. -/
def putByte (dst : List Byte) (byte : Byte) : Result (List Byte) :=
  if dst.length < maxPath then return dst ++ [byte] else throw .outOfBounds

/-- The copy of a word, with the terminating zero if it is the last. -/
def copyWord (src : CString) (dst : List Byte) (start : Nat) : Result (List Byte) :=
  (List.range' start (wordEnd src start - start)).foldlM
    (fun dst i => putByte dst (src.byteAt i)) dst

/-- `canonicalize_path_name`. -/
def canonicalizePathName (src : CString) : Result CString := do
  let stack ← findWords src maxPath 0 none []
  let dst ← stack.foldlM (copyWord src) []
  let dst ← putByte dst nul
  return CString.ofBuffer dst

/-! ## The words that are left -/

/-- What is done with a word: whether it is the last, and the words on the stack. -/
def keepWord (last : Bool) (words : List (List Byte)) (word : List Byte) : List (List Byte) :=
  if word.length = 1 then if last ∧ words = [] then [word] else words
  else if word.length = 2 ∧ word.getLast? = some dot then words
  else if word.length = 3 ∧ word.tail = [dot, dot] then words.dropLast
  else words ++ [word]

/-- The words on the stack behind the rest of a path, with the word so far. -/
def keepWords (word : List Byte) : List Byte → List (List Byte) → List (List Byte)
  | [], words => keepWord true words word
  | c :: rest, words =>
      if c = slash then keepWords [c] rest (keepWord false words word)
      else keepWords (word ++ [c]) rest words

/-- The words that are left of a path. -/
def canonicalWords : List Byte → List (List Byte)
  | [] => []
  | c :: rest => keepWords [c] rest []

/-- The path of the words that are left. -/
def canonical (path : List Byte) : List Byte := (canonicalWords path).flatten

/-! ## The loops compute the words -/

/-- The word that starts at a position. -/
def wordAt (path : List Byte) (start : Nat) : List Byte :=
  match path.drop start with
  | [] => []
  | c :: rest => c :: rest.takeWhile (· ≠ slash)

theorem CString.byteAt_append {s : CString} {pre rest : List Byte} (h : s.bytes = pre ++ rest)
    (i : Nat) : s.byteAt (pre.length + i) = rest.getD i nul := by
  rw [CString.byteAt, h, List.getD_append_right _ _ _ _ (Nat.le_add_right _ _),
    Nat.add_sub_cancel_left]

/-- The word between a position and the next slash or the end. -/
theorem wordAt_eq {path pre word rest : List Byte} (h : path = pre ++ word ++ rest)
    (hword : word ≠ []) (hslash : slash ∉ word.tail) (hrest : rest = [] ∨ rest.head? = some slash) :
    wordAt path pre.length = word := by
  obtain ⟨c, w, rfl⟩ := List.exists_cons_of_ne_nil hword
  have hdrop : path.drop pre.length = c :: (w ++ rest) := by simp [h]
  have hw : ∀ b ∈ w, decide (b ≠ slash) = true := fun b hb => by
    simpa using fun heq : b = slash => hslash (heq ▸ hb)
  have hstop : rest.takeWhile (· ≠ slash) = [] := by
    rcases hrest with rfl | hrest
    · rfl
    · obtain ⟨l, rfl⟩ := List.head?_eq_some_iff.mp hrest
      simp
  simp only [wordAt, hdrop]
  rw [List.takeWhile_append_of_pos hw, hstop, List.append_nil]

/-- The words of a stack of positions stand one behind the other in the path, up
to a position. -/
structure StackedWords (path : List Byte) (stack : List Nat) (bound : Nat) : Prop where
  apart : stack.Pairwise fun i j => i + (wordAt path i).length ≤ j
  below : ∀ i ∈ stack, i + (wordAt path i).length ≤ bound
  inside : ∀ i ∈ stack, i < path.length
  total : ((stack.map (wordAt path)).flatten).length ≤ bound

theorem StackedWords.mono {path : List Byte} {stack : List Nat} {bound bound' : Nat}
    (h : StackedWords path stack bound) (hle : bound ≤ bound') :
    StackedWords path stack bound' :=
  ⟨h.apart, fun i hi => (h.below i hi).trans hle, h.inside, h.total.trans hle⟩

theorem StackedWords.dropLast {path : List Byte} {stack : List Nat} {bound : Nat}
    (h : StackedWords path stack bound) : StackedWords path stack.dropLast bound := by
  have hsub := List.dropLast_sublist stack
  refine ⟨h.apart.sublist hsub, fun i hi => h.below i (hsub.subset hi),
    fun i hi => h.inside i (hsub.subset hi), le_trans ?_ h.total⟩
  exact (hsub.map (wordAt path)).flatten.length_le

theorem StackedWords.push {path : List Byte} {stack : List Nat} {start : Nat}
    (h : StackedWords path stack start) (hstart : start < path.length) :
    StackedWords path (stack ++ [start]) (start + (wordAt path start).length) := by
  refine ⟨?_, ?_, ?_, ?_⟩
  · rw [List.pairwise_append]
    refine ⟨h.apart, List.pairwise_singleton _ _, fun i hi j hj => ?_⟩
    rw [List.mem_singleton.mp hj]
    exact h.below i hi
  · intro i hi
    rcases List.mem_append.mp hi with hi | hi
    · exact (h.below i hi).trans (Nat.le_add_right _ _)
    · rw [List.mem_singleton.mp hi]
  · intro i hi
    rcases List.mem_append.mp hi with hi | hi
    · exact h.inside i hi
    · rwa [List.mem_singleton.mp hi]
  · have := h.total
    simp only [List.map_append, List.flatten_append, List.length_append, List.map_cons,
      List.map_nil, List.flatten_cons, List.flatten_nil, List.length_nil, Nat.add_zero]
    omega

section EndOfWord

variable {src : CString} {pre word rest : List Byte}

/-- The byte behind a word is the terminator if nothing follows. -/
theorem byteAt_eq_nul_iff (h : src.bytes = pre ++ word ++ rest) :
    src.byteAt (pre ++ word).length = nul ↔ rest = [] := by
  have hbyte := CString.byteAt_append h 0
  rw [Nat.add_zero] at hbyte
  rw [hbyte]
  cases rest with
  | nil => simp
  | cons c rest =>
    have hc : c ≠ nul := fun hc => src.noNul (by simp [h, hc])
    simpa using hc

/-- The check for `"/."`. -/
theorem endsInDot_iff (h : src.bytes = pre ++ word ++ rest) :
    word.length = 2 ∧ src.byteAt ((pre ++ word).length - 1) = dot ↔
      word.length = 2 ∧ word.getLast? = some dot := by
  refine and_congr_right fun htwo => ?_
  obtain ⟨a, b, rfl⟩ := List.length_eq_two.mp htwo
  have hindex : (pre ++ [a, b]).length - 1 = pre.length + 1 := by simp
  rw [hindex, CString.byteAt_append (h.trans (List.append_assoc _ _ _))]
  simp

/-- The check for `"/.."`. -/
theorem endsInUp_iff (h : src.bytes = pre ++ word ++ rest) :
    word.length = 3 ∧ src.byteAt ((pre ++ word).length - 1) = dot ∧
        src.byteAt ((pre ++ word).length - 2) = dot ↔
      word.length = 3 ∧ word.tail = [dot, dot] := by
  refine and_congr_right fun hthree => ?_
  obtain ⟨a, b, c, rfl⟩ := List.length_eq_three.mp hthree
  have hbytes := CString.byteAt_append (h.trans (List.append_assoc _ _ _))
  have hlast : (pre ++ [a, b, c]).length - 1 = pre.length + 2 := by simp
  have hmiddle : (pre ++ [a, b, c]).length - 2 = pre.length + 1 := by simp
  rw [hlast, hmiddle, hbytes, hbytes]
  simp [and_comm]

end EndOfWord

/-- The end of a word. -/
theorem closeWord_spec {src : CString} {pre word rest : List Byte} {stack : List Nat}
    (h : src.bytes = pre ++ word ++ rest) (hword : word ≠ []) (hslash : slash ∉ word.tail)
    (hrest : rest = [] ∨ rest.head? = some slash) (hstack : StackedWords src.bytes stack pre.length)
    (hhalf : 2 * stack.length ≤ pre.length) (hlen : pre.length < maxPath) :
    ∃ start stack', closeWord src (pre ++ word).length pre.length stack = .ok (start, stack') ∧
      stack'.map (wordAt src.bytes) =
        keepWord (rest = []) (stack.map (wordAt src.bytes)) word ∧
      StackedWords src.bytes stack' (pre ++ word).length ∧
      (rest ≠ [] → start = (pre ++ word).length ∧ 2 * stack'.length ≤ (pre ++ word).length) := by
  have hat := wordAt_eq h hword hslash hrest
  have hstart : pre.length < src.bytes.length := by
    have : 0 < word.length := List.length_pos_iff.mpr hword
    simp [h]
    omega
  have hpush : pushIndex stack pre.length = .ok (stack ++ [pre.length]) := by
    have : stack.length < indexStackSize := by
      simp only [indexStackSize, maxPath] at hlen ⊢
      omega
    simp [pushIndex, this]
  have hpushed : StackedWords src.bytes (stack ++ [pre.length]) (pre ++ word).length := by
    have := hstack.push hstart
    rwa [hat, ← List.length_append] at this
  have hkept : StackedWords src.bytes stack (pre ++ word).length :=
    hstack.mono (by simp)
  have hlength : (pre ++ word).length - pre.length = word.length := by simp
  have hmap : (stack ++ [pre.length]).map (wordAt src.bytes) =
      stack.map (wordAt src.bytes) ++ [word] := by simp [hat]
  unfold closeWord keepWord
  simp only [hlength, hpush, ok_bind, pure_eq_ok, byteAt_eq_nul_iff h]
  by_cases hone : word.length = 1
  · simp only [hone, if_true]
    by_cases hlast : rest = [] ∧ stack = []
    · obtain ⟨hr, rfl⟩ := hlast
      refine ⟨pre.length, [pre.length], by simp [hr], ?_, hpushed, fun hne => absurd hr hne⟩
      simp [hr, hat]
    · refine ⟨_, stack, by simp only [if_neg hlast], ?_, hkept, fun _ => ⟨rfl, ?_⟩⟩
      · have : ¬ (rest = [] ∧ stack.map (wordAt src.bytes) = []) := by simpa using hlast
        simp only [decide_eq_true_eq, if_neg this]
      · rw [List.length_append]
        omega
  · simp only [hone, if_false]
    have hpos : 0 < word.length := List.length_pos_iff.mpr hword
    simp only [endsInDot_iff h, endsInUp_iff h]
    by_cases htwo : word.length = 2 ∧ word.getLast? = some dot
    · refine ⟨_, stack, by simp only [if_pos htwo], by simp only [if_pos htwo], hkept,
        fun _ => ⟨rfl, ?_⟩⟩
      rw [List.length_append]
      omega
    · by_cases hthree : word.length = 3 ∧ word.tail = [dot, dot]
      · refine ⟨_, stack.dropLast, by simp only [if_neg htwo, if_pos hthree], ?_,
          hkept.dropLast, fun _ => ⟨rfl, ?_⟩⟩
        · simp only [if_neg htwo, if_pos hthree, List.map_dropLast]
        · rw [List.length_append, List.length_dropLast]
          omega
      · refine ⟨_, stack ++ [pre.length], by simp only [if_neg htwo, if_neg hthree], ?_, hpushed,
          fun _ => ⟨rfl, ?_⟩⟩
        · simp only [if_neg htwo, if_neg hthree, hmap]
        · rw [List.length_append, List.length_append, List.length_singleton]
          omega

/-- The loop from the middle of a word on. -/
theorem findWords_spec {src : CString} {rest : List Byte} :
    ∀ (pre word : List Byte) (stack : List Nat) (fuel : Nat),
      src.bytes = pre ++ word ++ rest → word ≠ [] → slash ∉ word.tail →
      StackedWords src.bytes stack pre.length → 2 * stack.length ≤ pre.length →
      src.bytes.length < maxPath → rest.length < fuel →
      ∃ stack', findWords src fuel (pre ++ word).length (some pre.length) stack = .ok stack' ∧
        stack'.map (wordAt src.bytes) = keepWords word rest (stack.map (wordAt src.bytes)) ∧
        StackedWords src.bytes stack' src.bytes.length := by
  induction rest with
  | nil =>
    intro pre word stack fuel h hword hslash hstack hhalf hlen hfuel
    obtain ⟨fuel, rfl⟩ : ∃ k, fuel = k + 1 := ⟨fuel - 1, by simp at hfuel; omega⟩
    have hpre : pre.length ≤ src.bytes.length := by simp [h]
    have hbyte : src.byteAt (pre ++ word).length = nul := by
      have := CString.byteAt_append h 0
      rwa [Nat.add_zero] at this
    obtain ⟨start, stack', hclose, hmap, hstack', -⟩ :=
      closeWord_spec h hword hslash (Or.inl rfl) hstack hhalf (hpre.trans_lt hlen)
    refine ⟨stack', ?_, hmap, ?_⟩
    · simp only [findWords, hbyte, hclose, ok_bind, ne_eq, not_true_eq_false, false_and, and_false,
        if_false, if_true, pure_eq_ok]
    · rwa [h, List.append_nil] at hstack' ⊢
  | cons c rest ih =>
    intro pre word stack fuel h hword hslash hstack hhalf hlen hfuel
    obtain ⟨fuel, rfl⟩ : ∃ k, fuel = k + 1 := ⟨fuel - 1, by simp at hfuel; omega⟩
    have hpre : pre.length ≤ src.bytes.length := by simp [h]
    have hbyte : src.byteAt (pre ++ word).length = c := by
      have := CString.byteAt_append h 0
      rwa [Nat.add_zero] at this
    have hc : c ≠ nul := fun hc => src.noNul (by simp [h, hc])
    have hidx : (pre ++ word).length ≠ 0 := by
      have : 0 < word.length := List.length_pos_iff.mpr hword
      rw [List.length_append]
      omega
    have hfuel' : rest.length < fuel := by simpa using hfuel
    by_cases hsep : c = slash
    · subst hsep
      obtain ⟨start, stack', hclose, hmap, hstack', hnext⟩ :=
        closeWord_spec h hword hslash (Or.inr rfl) hstack hhalf (hpre.trans_lt hlen)
      obtain ⟨rfl, hhalf'⟩ := hnext (by simp)
      obtain ⟨stack'', hrun, hmap', hstack''⟩ := ih (pre ++ word) [slash]
        stack' fuel (by simp [h]) (by simp) (by simp) hstack' hhalf' hlen hfuel'
      refine ⟨stack'', ?_, ?_, hstack''⟩
      · have hlength : (pre ++ word ++ [slash]).length = (pre ++ word).length + 1 := by simp; omega
        rw [hlength] at hrun
        simp only [findWords, hbyte, hclose, ok_bind, ne_eq, not_true_eq_false, false_and,
          if_false, hc]
        exact hrun
      · rw [hmap', hmap, keepWords, if_pos rfl]
        simp
    · obtain ⟨stack', hrun, hmap, hstack'⟩ := ih pre (word ++ [c]) stack fuel
        (by simp [h]) (by simp) (by
          rw [List.tail_append_of_ne_nil hword]
          simp [hslash, Ne.symm hsep]) hstack hhalf hlen hfuel'
      refine ⟨stack', ?_, ?_, hstack'⟩
      · have hlength : (pre ++ (word ++ [c])).length = (pre ++ word).length + 1 := by simp; omega
        rw [hlength] at hrun
        simp only [findWords, hbyte, ne_eq, hsep, hc, hidx, not_false_eq_true, and_self, if_true]
        exact hrun
      · rw [hmap, keepWords, if_neg hsep]

theorem findWords_eq (src : CString) (hlen : src.bytes.length < maxPath) :
    ∃ stack, findWords src maxPath 0 none [] = .ok stack ∧
      stack.map (wordAt src.bytes) = canonicalWords src.bytes ∧
      StackedWords src.bytes stack src.bytes.length := by
  cases hbytes : src.bytes with
  | nil =>
    have hbyte : src.byteAt 0 = nul := by simp [CString.byteAt, hbytes]
    refine ⟨[], ?_, rfl, ⟨List.Pairwise.nil, by simp, by simp, by simp⟩⟩
    simp [maxPath, findWords, hbyte]
  | cons c rest =>
    have hbyte : src.byteAt 0 = c := by simp [CString.byteAt, hbytes]
    have hc : c ≠ nul := fun hc => src.noNul (by simp [hbytes, hc])
    have hempty : StackedWords src.bytes [] ([] : List Byte).length :=
      ⟨List.Pairwise.nil, by simp, by simp, by simp⟩
    obtain ⟨stack, hrun, hmap, hstack⟩ := findWords_spec [] [c] []
      (maxPath - 1) (show src.bytes = [] ++ [c] ++ rest by simp [hbytes]) (by simp) (by simp)
      hempty (by simp) hlen (by simp [hbytes] at hlen; omega)
    rw [hbytes] at hmap hstack
    refine ⟨stack, ?_, hmap, hstack⟩
    have hfuel : maxPath = (maxPath - 1) + 1 := rfl
    rw [hfuel, findWords]
    simp only [hbyte, hc, ne_eq, not_true_eq_false, and_false, if_false, not_false_eq_true, if_true]
    exact hrun

/-! ## The copy -/

theorem putBytes_eq {bytes : List Byte} : ∀ {dst : List Byte},
    dst.length + bytes.length ≤ maxPath → bytes.foldlM putByte dst = .ok (dst ++ bytes) := by
  induction bytes with
  | nil => intro dst _; simp
  | cons b bytes ih =>
    intro dst hlen
    have hput : putByte dst b = .ok (dst ++ [b]) := by
      have : dst.length < maxPath := by simp at hlen; omega
      simp [putByte, this]
    rw [List.foldlM_cons, hput, ok_bind, ih (by simp at hlen ⊢; omega)]
    simp

/-- The bytes of a stretch of a string, with its terminating zero. -/
theorem CString.range_bytes (s : CString) {start count : Nat}
    (h : start + count ≤ s.bytes.length + 1) :
    (List.range' start count).map s.byteAt = ((s.bytes ++ [nul]).drop start).take count := by
  refine List.ext_getElem (by simp; omega) fun i hi _ => ?_
  simp only [List.length_map, List.length_range'] at hi
  simp only [List.getElem_map, List.getElem_range', Nat.one_mul, CString.byteAt, List.getElem_take,
    List.getElem_drop]
  by_cases hlt : start + i < s.bytes.length
  · rw [List.getD_eq_getElem _ _ hlt, List.getElem_append_left hlt]
  · rw [List.getD_eq_default _ _ (by omega), List.getElem_append_right (by omega)]
    simp

theorem findWordEnd_eq {src : CString} {rest : List Byte} : ∀ (pre : List Byte) (fuel : Nat),
    src.bytes = pre ++ rest → (rest.takeWhile (· ≠ slash)).length < fuel →
    findWordEnd src fuel pre.length = pre.length + (rest.takeWhile (· ≠ slash)).length +
      if rest.dropWhile (· ≠ slash) = [] then 1 else 0 := by
  induction rest with
  | nil =>
    intro pre fuel h hfuel
    obtain ⟨fuel, rfl⟩ : ∃ k, fuel = k + 1 := ⟨fuel - 1, by simp at hfuel; omega⟩
    have hbyte : src.byteAt pre.length = nul := by
      have := CString.byteAt_append h 0
      rwa [Nat.add_zero] at this
    have hne : nul ≠ slash := by decide
    simp [findWordEnd, hbyte, hne]
  | cons c rest ih =>
    intro pre fuel h hfuel
    obtain ⟨fuel, rfl⟩ : ∃ k, fuel = k + 1 := ⟨fuel - 1, by simp at hfuel; omega⟩
    have hbyte : src.byteAt pre.length = c := by
      have := CString.byteAt_append h 0
      rwa [Nat.add_zero] at this
    have hc : c ≠ nul := fun hc => src.noNul (by simp [h, hc])
    by_cases hsep : c = slash
    · simp [findWordEnd, hbyte, hsep]
    · have hrec := ih (pre ++ [c]) fuel (by simp [h]) (by simpa [hsep] using hfuel)
      rw [List.length_append, List.length_singleton] at hrec
      simp only [findWordEnd, hbyte, hsep, hc, if_false, hrec]
      simp [hsep]
      omega

/-- The zero that the copy of a word adds, if the word is the last of the path. -/
def zeroBehind (path : List Byte) (start : Nat) : List Byte :=
  if start + (wordAt path start).length < path.length then [] else [nul]

theorem copyWord_eq {src : CString} {start : Nat} (dst : List Byte)
    (hstart : start < src.bytes.length)
    (hlen : start + (wordAt src.bytes start).length < maxPath)
    (hdst : dst.length + (wordAt src.bytes start).length + 1 ≤ maxPath) :
    copyWord src dst start =
      .ok (dst ++ wordAt src.bytes start ++ zeroBehind src.bytes start) := by
  obtain ⟨c, rest, hdrop⟩ := List.exists_cons_of_ne_nil
    (List.ne_nil_of_length_pos (by rw [List.length_drop]; omega) : src.bytes.drop start ≠ [])
  have hpre : (src.bytes.take start).length = start := by simp; omega
  have hbytes : src.bytes = (src.bytes.take start ++ [c]) ++ rest := by
    rw [List.append_assoc, List.singleton_append, ← hdrop, List.take_append_drop]
  have hrestLen : rest.length + start + 1 = src.bytes.length := by
    have := congrArg List.length hdrop
    simp at this
    omega
  have hword : wordAt src.bytes start = c :: rest.takeWhile (· ≠ slash) := by
    simp only [wordAt, hdrop]
  have hend : wordEnd src start = start + (wordAt src.bytes start).length +
      if rest.dropWhile (· ≠ slash) = [] then 1 else 0 := by
    have := findWordEnd_eq _ (maxPath - (start + 1)) hbytes (by
      rw [hword, List.length_cons] at hlen
      omega)
    rw [List.length_append, List.length_singleton, hpre] at this
    rw [wordEnd, this, hword, List.length_cons]
    omega
  have hsplit : rest = rest.takeWhile (· ≠ slash) ++ rest.dropWhile (· ≠ slash) :=
    (List.takeWhile_append_dropWhile).symm
  have hcopy : ∀ count, start + count ≤ src.bytes.length + 1 → dst.length + count ≤ maxPath →
      wordEnd src start - start = count → copyWord src dst start =
        .ok (dst ++ ((c :: rest) ++ [nul]).take count) := by
    intro count hcount hfit hwidth
    have hread := src.range_bytes hcount
    rw [List.drop_append_of_le_length (by omega), hdrop] at hread
    have hmap : ∀ l : List Nat, l.foldlM (fun dst i => putByte dst (src.byteAt i)) dst =
        (l.map src.byteAt).foldlM putByte dst := by
      intro l
      rw [List.foldlM_map]
    rw [copyWord, hwidth, hmap, hread]
    refine putBytes_eq ?_
    rw [List.length_take]
    omega
  by_cases hlast : rest.dropWhile (· ≠ slash) = []
  · have hall : rest.takeWhile (· ≠ slash) = rest := by
      rw [hlast, List.append_nil] at hsplit
      exact hsplit.symm
    rw [zeroBehind, hword, hall]
    rw [hword, hall] at hend hdst
    simp only [hlast, if_true, List.length_cons] at hend hdst
    rw [hcopy (rest.length + 2) (by omega) (by omega) (by omega),
      List.take_of_length_le (by simp), if_neg (by rw [List.length_cons]; omega), List.append_assoc]
  · simp only [hlast, if_false, Nat.add_zero] at hend
    have hwordLen : (wordAt src.bytes start).length < rest.length + 1 := by
      rw [hword, List.length_cons]
      have := congrArg List.length hsplit
      have := List.length_pos_iff.mpr hlast
      rw [List.length_append] at *
      omega
    have hbehind : (c :: rest) ++ [nul] =
        wordAt src.bytes start ++ (rest.dropWhile (· ≠ slash) ++ [nul]) := by
      rw [hword, List.cons_append, List.cons_append, ← List.append_assoc, ← hsplit]
    rw [hcopy (wordAt src.bytes start).length (by omega) (by omega) (by omega), zeroBehind,
      if_pos (by omega), List.append_nil, hbehind, List.take_left]

/-- The zero that the copy of the words of a stack adds: only the last can bring one. -/
def zeroBehindWords (path : List Byte) (stack : List Nat) : List Byte :=
  stack.getLast?.elim [] (zeroBehind path)

theorem zeroBehindWords_cases (path : List Byte) (stack : List Nat) :
    zeroBehindWords path stack = [] ∨ zeroBehindWords path stack = [nul] := by
  unfold zeroBehindWords zeroBehind
  cases stack.getLast? with
  | none => exact Or.inl rfl
  | some start =>
    rw [Option.elim_some]
    split
    next => exact Or.inl rfl
    next => exact Or.inr rfl

theorem copyWords_eq {src : CString} {stack : List Nat} :
    ∀ (dst : List Byte), stack.Pairwise (fun i j => i + (wordAt src.bytes i).length ≤ j) →
      (∀ i ∈ stack, i < src.bytes.length) →
      (∀ i ∈ stack, i + (wordAt src.bytes i).length < maxPath) →
      dst.length + ((stack.map (wordAt src.bytes)).flatten).length + 1 ≤ maxPath →
      stack.foldlM (copyWord src) dst =
        .ok (dst ++ (stack.map (wordAt src.bytes)).flatten ++ zeroBehindWords src.bytes stack) := by
  induction stack with
  | nil => intro dst _ _ _ _; simp [zeroBehindWords]
  | cons i stack ih =>
    intro dst hapart hinside hends hfit
    rw [List.map_cons, List.flatten_cons, List.length_append] at hfit
    obtain ⟨hi, hapart⟩ := List.pairwise_cons.mp hapart
    have hcopy := copyWord_eq dst (hinside i (by simp)) (hends i (by simp)) (by omega)
    cases stack with
    | nil => simp [hcopy, zeroBehindWords]
    | cons j stack =>
      have hzero : zeroBehind src.bytes i = [] :=
        if_pos (Nat.lt_of_le_of_lt (hi j (by simp)) (hinside j (by simp)))
      rw [hzero, List.append_nil] at hcopy
      have hrun := ih (dst ++ wordAt src.bytes i) hapart
        (fun k hk => hinside k (List.mem_cons_of_mem i hk))
        (fun k hk => hends k (List.mem_cons_of_mem i hk))
        (by rw [List.length_append]; omega)
      rw [List.foldlM_cons, hcopy, ok_bind, hrun]
      simp [zeroBehindWords]

theorem noNul_wordAt (src : CString) (start : Nat) : nul ∉ wordAt src.bytes start := by
  unfold wordAt
  split
  next => exact List.not_mem_nil
  next c rest hdrop =>
    have hsub : ∀ b ∈ c :: rest, b ∈ src.bytes := fun b hb =>
      List.mem_of_mem_drop (hdrop ▸ hb)
    intro hmem
    rcases List.mem_cons.mp hmem with hc | hmem
    · exact src.noNul (hsub nul (by simp [hc]))
    · exact src.noNul (hsub nul (by simp [(List.takeWhile_subset _) hmem]))

/-- `canonicalize_path_name` writes the words of the stack that it finds, perhaps a zero,
and a zero. -/
theorem canonicalizePathName_of_stack {src : CString} {stack : List Nat} {bound : Nat}
    (hfind : findWords src maxPath 0 none [] = .ok stack)
    (hstack : StackedWords src.bytes stack bound) (hbound : bound < maxPath) :
    (CString.ofBuffer ((stack.map (wordAt src.bytes)).flatten ++
        zeroBehindWords src.bytes stack ++ [nul])).bytes = (stack.map (wordAt src.bytes)).flatten ∧
      canonicalizePathName src = (do
        let dst ← putByte ((stack.map (wordAt src.bytes)).flatten ++
          zeroBehindWords src.bytes stack) nul
        return CString.ofBuffer dst) := by
  have htotal := hstack.total
  have hcopy : stack.foldlM (copyWord src) [] =
      .ok ([] ++ (stack.map (wordAt src.bytes)).flatten ++ zeroBehindWords src.bytes stack) :=
    copyWords_eq [] hstack.apart hstack.inside
      (fun i hi => (hstack.below i hi).trans_lt hbound) (by rw [List.length_nil]; omega)
  rw [List.nil_append] at hcopy
  constructor
  · have hnonzero : ∀ b ∈ (stack.map (wordAt src.bytes)).flatten, decide (b ≠ nul) = true := by
      intro b hb
      rw [List.mem_flatten] at hb
      obtain ⟨word, hword, hb⟩ := hb
      obtain ⟨start, -, rfl⟩ := List.mem_map.mp hword
      simpa using fun hnul : b = nul => noNul_wordAt src start (hnul ▸ hb)
    have hstop : (zeroBehindWords src.bytes stack ++ [nul]).takeWhile
        (fun b : Byte => decide (b ≠ nul)) = [] := by
      rcases zeroBehindWords_cases src.bytes stack with hzero | hzero <;> simp [hzero]
    show List.takeWhile (fun b => decide (b ≠ nul)) _ = _
    rw [List.append_assoc, List.takeWhile_append_of_pos hnonzero, hstop, List.append_nil]
  · simp only [canonicalizePathName, hfind, ok_bind, hcopy]

/-- A path that fits into a buffer: the words that are left. -/
theorem canonicalizePathName_writes {src : CString} (hlen : src.bytes.length < maxPath) :
    ∃ zero, (zero = [] ∨ zero = [nul]) ∧ (canonical src.bytes).length ≤ src.bytes.length ∧
      (CString.ofBuffer (canonical src.bytes ++ zero ++ [nul])).bytes = canonical src.bytes ∧
      canonicalizePathName src = (do
        let dst ← putByte (canonical src.bytes ++ zero) nul
        return CString.ofBuffer dst) := by
  obtain ⟨stack, hfind, hmap, hstack⟩ := findWords_eq src hlen
  have htotal := hstack.total
  have hwrites := canonicalizePathName_of_stack hfind hstack hlen
  rw [hmap] at htotal hwrites
  exact ⟨zeroBehindWords src.bytes stack, zeroBehindWords_cases _ _, htotal, hwrites⟩

/-- `canonicalize_path_name` returns the words that are left. -/
theorem canonicalizePathName_eq {src : CString} (hlen : src.bytes.length + 2 ≤ maxPath) :
    ∃ dst, canonicalizePathName src = .ok dst ∧ dst.bytes = canonical src.bytes := by
  obtain ⟨zero, hzero, htotal, hbytes, hrun⟩ :=
    canonicalizePathName_writes (show src.bytes.length < maxPath by omega)
  have hfits : (canonical src.bytes ++ zero).length < maxPath := by
    have : zero.length ≤ 1 := by rcases hzero with rfl | rfl <;> simp
    rw [List.length_append]
    omega
  refine ⟨_, ?_, hbytes⟩
  rw [hrun, putByte, if_pos hfits]
  rfl

/-- A path that fits into a buffer is canonicalised, or the result does not fit. -/
theorem canonicalizePathName_cases {src : CString} (hlen : src.bytes.length < maxPath) :
    (∃ dst, canonicalizePathName src = .ok dst ∧ dst.bytes = canonical src.bytes) ∨
      canonicalizePathName src = .error .outOfBounds := by
  obtain ⟨zero, -, -, hbytes, hrun⟩ := canonicalizePathName_writes hlen
  by_cases hfits : (canonical src.bytes ++ zero).length < maxPath
  · refine Or.inl ⟨_, ?_, hbytes⟩
    rw [hrun, putByte, if_pos hfits]
    rfl
  · refine Or.inr ?_
    rw [hrun, putByte, if_neg hfits]
    rfl

/-! ## The words by the components -/

/-- The components `"."` and `".."`. -/
def here : List Byte := [dot]

@[inherit_doc here]
def up : List Byte := [dot, dot]

/-- One component, on a stack of components. -/
def resolveStep (stack : List (List Byte)) (p : List Byte) : List (List Byte) :=
  if p = here then stack else if p = up then stack.dropLast else stack ++ [p]

/-- Components in the order of the path, on a stack of components. -/
def resolve (stack ps : List (List Byte)) : List (List Byte) := ps.foldl resolveStep stack

/-- The components of a path. -/
def components (path : List Byte) : List (List Byte) := parts slash path

/-- The words of components. -/
def slashed (ps : List (List Byte)) : List (List Byte) := ps.map (slash :: ·)

/-- One component, on a stack of words. -/
def wordStep (words : List (List Byte)) (p : List Byte) : List (List Byte) :=
  if p = here then words else if p = up then words.dropLast else words ++ [slash :: p]

@[simp] theorem up_ne_here : up ≠ here := by decide

theorem foldl_wordStep_slashed (ps : List (List Byte)) : ∀ (stack : List (List Byte)),
    ps.foldl wordStep (slashed stack) = slashed (resolve stack ps) := by
  induction ps with
  | nil => intro stack; rfl
  | cons p ps ih =>
    intro stack
    have hstep : wordStep (slashed stack) p = slashed (resolveStep stack p) := by
      unfold wordStep resolveStep
      split
      next => rfl
      next =>
        split
        next => rw [slashed, slashed, List.map_dropLast]
        next => simp [slashed]
    rw [List.foldl_cons, hstep, ih]
    rfl

theorem resolve_append (stack ps qs : List (List Byte)) :
    resolve stack (ps ++ qs) = resolve (resolve stack ps) qs := List.foldl_append

/-- Components that are not dots stay. -/
theorem resolve_of_plain {ps : List (List Byte)} : ∀ (stack : List (List Byte)),
    (∀ p ∈ ps, p ≠ here ∧ p ≠ up) → resolve stack ps = stack ++ ps := by
  induction ps with
  | nil => intro stack _; simp [resolve]
  | cons p ps ih =>
    intro stack h
    obtain ⟨hhere, hup⟩ := h p (by simp)
    have hstep : resolveStep stack p = stack ++ [p] := by simp [resolveStep, hhere, hup]
    have := ih (stack ++ [p]) fun q hq => h q (by simp [hq])
    rw [resolve, List.foldl_cons, hstep]
    rw [resolve] at this
    rw [this]
    simp

/-- Components without `".."` only add to the stack. -/
theorem resolve_of_no_up {ps : List (List Byte)} : ∀ {stack : List (List Byte)},
    (∀ p ∈ ps, p ≠ up) → stack <+: resolve stack ps := by
  induction ps with
  | nil => intro stack _; exact List.prefix_refl stack
  | cons p ps ih =>
    intro stack h
    have hstep : stack <+: resolveStep stack p := by
      unfold resolveStep
      rw [if_neg (h p (by simp))]
      split
      next => exact List.prefix_refl stack
      next => exact List.prefix_append stack [p]
    exact hstep.trans (ih fun q hq => h q (by simp [hq]))

/-- What is on the stack was there or is a component that is not a dot. -/
theorem mem_resolve {ps : List (List Byte)} : ∀ {stack : List (List Byte)} {q : List Byte},
    q ∈ resolve stack ps → q ∈ stack ∨ q ∈ ps ∧ q ≠ here ∧ q ≠ up := by
  induction ps with
  | nil => intro stack q h; exact Or.inl h
  | cons p ps ih =>
    intro stack q h
    rcases ih (show q ∈ resolve (resolveStep stack p) ps from h) with h | ⟨hq, hplain⟩
    · unfold resolveStep at h
      split at h
      next => exact Or.inl h
      next hhere =>
        split at h
        next => exact Or.inl (List.dropLast_subset _ h)
        next hup =>
          rcases List.mem_append.mp h with h | h
          · exact Or.inl h
          · rw [List.mem_singleton.mp h]
            exact Or.inr ⟨by simp, hhere, hup⟩
    · exact Or.inr ⟨by simp [hq], hplain⟩

/-- The end of a word that starts with a slash. -/
theorem keepWord_slash {last : Bool} {words : List (List Byte)} {cur : List Byte}
    (hcur : slash ∉ cur) :
    keepWord last words (slash :: cur) =
      if cur = [] ∧ last = true ∧ words = [] then [[slash]]
      else (components cur).foldl wordStep words := by
  by_cases hnil : cur = []
  · subst hnil
    simp [keepWord, components]
  · have hparts : components cur = [cur] := parts_of_not_mem hcur hnil
    have hlen : (slash :: cur).length ≠ 1 := by simpa using hnil
    have hhere : ((slash :: cur).length = 2 ∧ (slash :: cur).getLast? = some dot) ↔ cur = here := by
      rcases cur with _ | ⟨a, _ | ⟨b, cur⟩⟩ <;> simp_all [here]
    have hup : ((slash :: cur).length = 3 ∧ (slash :: cur).tail = [dot, dot]) ↔ cur = up := by
      simp only [List.tail_cons, up]
      refine ⟨And.right, fun h => ⟨by simp [h], h⟩⟩
    rw [hparts, if_neg (by simp [hnil])]
    simp only [keepWord, if_neg hlen, hhere, hup, List.foldl_cons, List.foldl_nil, wordStep]

/-- The words of the rest of a path, from a slash on. -/
theorem keepWords_slash (rest : List Byte) : ∀ (cur : List Byte) (words : List (List Byte)),
    slash ∉ cur → keepWords (slash :: cur) rest words =
        (components (cur ++ rest)).foldl wordStep words ∨
      (components (cur ++ rest)).foldl wordStep words = [] ∧
        keepWords (slash :: cur) rest words = [[slash]] := by
  induction rest with
  | nil =>
    intro cur words hcur
    rw [keepWords, keepWord_slash hcur, List.append_nil]
    split
    next h =>
      obtain ⟨rfl, -, rfl⟩ := h
      exact Or.inr ⟨rfl, rfl⟩
    next => exact Or.inl rfl
  | cons c rest ih =>
    intro cur words hcur
    by_cases hc : c = slash
    · subst hc
      have hparts : components (cur ++ slash :: rest) = components cur ++ components rest :=
        parts_append_sep cur rest
      rw [keepWords, if_pos rfl, keepWord_slash hcur, if_neg (by simp), hparts, List.foldl_append]
      simpa using ih [] ((components cur).foldl wordStep words) (by simp)
    · rw [keepWords, if_neg hc]
      simpa using ih (cur ++ [c]) words (by simp [hcur, Ne.symm hc])

theorem head_slashed (ps : List (List Byte)) :
    (slashed ps).flatten = [] ∨ (slashed ps).flatten.head? = some slash := by
  cases ps with
  | nil => exact Or.inl rfl
  | cons p ps => exact Or.inr (by simp [slashed])

theorem components_slashed {ps : List (List Byte)} (h : ∀ p ∈ ps, p ≠ [] ∧ slash ∉ p) :
    components (slashed ps).flatten = ps := parts_flatten h

theorem components_word {word : List Byte} {ps : List (List Byte)} (hword : word ≠ [])
    (hslash : slash ∉ word) (h : ∀ p ∈ ps, p ≠ [] ∧ slash ∉ p) :
    components (word ++ (slashed ps).flatten) = word :: ps := by
  rw [components, parts_append (Or.inr (head_slashed ps).symm), parts_of_not_mem hslash hword]
  exact congrArg _ (components_slashed h)

/-- A path that starts with a slash: the words of its resolved components are left, or a
slash. -/
theorem canonical_absolute_cases {path : List Byte} (h : path.head? = some slash) :
    canonical path = (slashed (resolve [] (components path))).flatten ∨
      resolve [] (components path) = [] ∧ canonical path = [slash] := by
  obtain ⟨rest, rfl⟩ := List.head?_eq_some_iff.mp h
  have hparts : components (slash :: rest) = components rest := parts_cons_sep rest
  have hfold : (components rest).foldl wordStep [] = slashed (resolve [] (components rest)) :=
    foldl_wordStep_slashed (components rest) []
  rw [hparts, canonical, canonicalWords]
  rcases keepWords_slash rest [] [] (by simp) with hrun | ⟨hnil, hrun⟩
  · rw [List.nil_append] at hrun
    rw [hrun, hfold]
    exact Or.inl rfl
  · rw [List.nil_append] at hnil
    rw [hrun]
    exact Or.inr ⟨List.map_eq_nil_iff.mp (hfold.symm.trans hnil), rfl⟩

/-- A path that starts with a slash: its components are resolved. -/
theorem canonical_absolute {path : List Byte} (h : path.head? = some slash) :
    components (canonical path) = resolve [] (components path) ∧
      (canonical path = [] ∨ (canonical path).head? = some slash) := by
  rcases canonical_absolute_cases h with hwords | ⟨hnil, hslash⟩
  · rw [hwords]
    refine ⟨components_slashed fun p hp => ?_, head_slashed _⟩
    rcases mem_resolve hp with hp | ⟨hp, -⟩
    · cases hp
    · exact of_mem_parts hp
  · rw [hslash, hnil]
    exact ⟨rfl, Or.inr rfl⟩

/-! ## The first word of a relative path -/

/-- Components that climb, from some depth, above where they start. -/
def climbs : Nat → List (List Byte) → Bool
  | _, [] => false
  | depth, p :: ps =>
      if p = here then climbs depth ps
      else if p = up then
        match depth with
        | 0 => true
        | depth + 1 => climbs depth ps
      else climbs (depth + 1) ps

/-- The bytes in front of the first slash. -/
def firstWord (path : List Byte) : List Byte := path.takeWhile (· ≠ slash)

/-- The path from its first slash on. -/
def behindFirstWord (path : List Byte) : List Byte := path.dropWhile (· ≠ slash)

/-- The path does not start with a slash, its first word is not one that is dropped,
and what follows does not climb above it. -/
def FirstWordStays (path : List Byte) : Prop :=
  firstWord path ≠ [] ∧
  ¬ ((firstWord path).length = 1 ∧ behindFirstWord path ≠ []) ∧
  ¬ ((firstWord path).length = 2 ∧ (firstWord path).getLast? = some dot) ∧
  ¬ ((firstWord path).length = 3 ∧ (firstWord path).tail = [dot, dot]) ∧
  climbs 0 (components (behindFirstWord path)) = false

instance (path : List Byte) : Decidable (FirstWordStays path) :=
  inferInstanceAs (Decidable (_ ∧ _))

/-- Components by what they do to a stack: each leaves a component of its own behind, takes
one of the stack, or climbs. -/
theorem climbs_induction {climbing : Bool} {P : List (List Byte) → List (List Byte) → Prop}
    (nil : climbing = false → ∀ stack, P stack [])
    (climb : climbing = true → ∀ ps, P [] (up :: ps))
    (step : ∀ stack p ps, p ≠ up ∨ stack ≠ [] → P (resolveStep stack p) ps → P stack (p :: ps))
    {ps : List (List Byte)} :
    ∀ stack : List (List Byte), climbs stack.length ps = climbing → P stack ps := by
  induction ps with
  | nil => intro stack h; exact nil h.symm stack
  | cons p ps ih =>
    intro stack h
    unfold climbs at h
    by_cases hhere : p = here
    · rw [if_pos hhere] at h
      refine step stack p ps (Or.inl (by simp [hhere, up_ne_here.symm])) ?_
      rw [resolveStep, if_pos hhere]
      exact ih stack h
    · rw [if_neg hhere] at h
      by_cases hup : p = up
      · rw [if_pos hup] at h
        rcases stack.eq_nil_or_concat with rfl | ⟨stack, q, rfl⟩
        · rw [hup]
          exact climb h.symm ps
        · rw [List.concat_eq_append] at h ⊢
          rw [List.length_append, List.length_singleton] at h
          refine step _ p ps (Or.inr (by simp)) ?_
          rw [resolveStep, if_neg hhere, if_pos hup, List.dropLast_concat]
          exact ih stack h
      · rw [if_neg hup] at h
        refine step stack p ps (Or.inl hup) ?_
        rw [resolveStep, if_neg hhere, if_neg hup]
        exact ih (stack ++ [p]) (by simpa using h)

/-- A component that does not climb leaves what is below the stack. -/
theorem resolveStep_append (base : List (List Byte)) {stack : List (List Byte)} {p : List Byte}
    (h : p ≠ up ∨ stack ≠ []) : resolveStep (base ++ stack) p = base ++ resolveStep stack p := by
  unfold resolveStep
  split
  next => rfl
  next =>
    split
    next hup => exact List.dropLast_append_of_ne_nil (h.resolve_left (not_not.mpr hup))
    next => exact List.append_assoc _ _ _

/-- The same for words, behind a first word. -/
theorem wordStep_word (word : List Byte) {stack : List (List Byte)} {p : List Byte}
    (h : p ≠ up ∨ stack ≠ []) :
    wordStep (word :: slashed stack) p = word :: slashed (resolveStep stack p) := by
  unfold wordStep resolveStep slashed
  split
  next => rfl
  next =>
    split
    next hup =>
      have hstack : stack.map (slash :: ·) ≠ [] := by simpa using h.resolve_left (not_not.mpr hup)
      rw [List.dropLast_cons_of_ne_nil hstack, List.map_dropLast]
    next => simp

theorem foldl_wordStep_stays (word : List Byte) {ps : List (List Byte)} :
    ∀ (stack : List (List Byte)), climbs stack.length ps = false →
      ps.foldl wordStep (word :: slashed stack) = word :: slashed (resolve stack ps) := by
  refine climbs_induction (P := fun stack ps => ps.foldl wordStep (word :: slashed stack) =
    word :: slashed (resolve stack ps)) (fun _ _ => rfl) ?_ fun stack p ps hp ih => ?_
  · intro h
    cases h
  · rw [List.foldl_cons, wordStep_word word hp, ih]
    rfl

/-- Components that climb take the first word away. -/
theorem foldl_wordStep_climbs (word : List Byte) {ps : List (List Byte)} :
    ∀ (stack : List (List Byte)), climbs stack.length ps = true →
      ps.foldl wordStep (word :: slashed stack) = slashed (resolve stack ps) := by
  refine climbs_induction (P := fun stack ps => ps.foldl wordStep (word :: slashed stack) =
    slashed (resolve stack ps)) ?_ (fun _ ps => ?_) fun stack p ps hp ih => ?_
  · intro h
    cases h
  · exact foldl_wordStep_slashed ps []
  · rw [List.foldl_cons, wordStep_word word hp, ih]
    rfl

theorem keepWords_word {w rest : List Byte} : ∀ {word : List Byte} {words : List (List Byte)},
    slash ∉ w → keepWords word (w ++ slash :: rest) words =
      keepWords [slash] rest (keepWord false words (word ++ w)) := by
  induction w with
  | nil => intro word words _; simp [keepWords]
  | cons c w ih =>
    intro word words h
    rw [List.mem_cons, not_or] at h
    rw [List.cons_append, keepWords, if_neg (Ne.symm h.1), ih h.2]
    simp

theorem keepWords_last {w : List Byte} : ∀ {word : List Byte} {words : List (List Byte)},
    slash ∉ w → keepWords word w words = keepWord true words (word ++ w) := by
  induction w with
  | nil => intro word words _; simp [keepWords]
  | cons c w ih =>
    intro word words h
    rw [List.mem_cons, not_or] at h
    rw [keepWords, if_neg (Ne.symm h.1), ih h.2]
    simp

/-- The words of a path by its first word. -/
theorem canonicalWords_first {path : List Byte} (h : firstWord path ≠ []) :
    slash ∉ firstWord path ∧ path = firstWord path ++ behindFirstWord path ∧
    (behindFirstWord path = [] ∧ canonicalWords path = keepWord true [] (firstWord path) ∨
      ∃ rest, behindFirstWord path = slash :: rest ∧
        canonicalWords path = keepWords [slash] rest (keepWord false [] (firstWord path))) := by
  have hslash : slash ∉ firstWord path := fun hmem => by
    simpa using List.mem_takeWhile_imp hmem
  have hsplit : path = firstWord path ++ behindFirstWord path :=
    (List.takeWhile_append_dropWhile).symm
  refine ⟨hslash, hsplit, ?_⟩
  obtain ⟨c, w, hword⟩ := List.exists_cons_of_ne_nil h
  rw [hword] at hslash hsplit ⊢
  rw [List.mem_cons, not_or] at hslash
  cases hrest : behindFirstWord path with
  | nil =>
    refine Or.inl ⟨rfl, ?_⟩
    rw [hrest, List.append_nil] at hsplit
    rw [hsplit, canonicalWords, keepWords_last hslash.2, List.singleton_append]
  | cons d rest =>
    have hd : d = slash := by
      have := List.head?_dropWhile_not (fun b : Byte => decide (b ≠ slash)) path
      rw [show path.dropWhile (fun b => decide (b ≠ slash)) = d :: rest from hrest] at this
      simpa using this
    subst hd
    refine Or.inr ⟨rest, rfl, ?_⟩
    rw [hrest, List.cons_append] at hsplit
    rw [hsplit, canonicalWords, keepWords_word hslash.2, List.singleton_append]

/-- The first word of a path without its own slash, on an empty stack. -/
theorem keepWord_first {last : Bool} {word : List Byte} (hword : word ≠ []) :
    keepWord last [] word =
      if ¬ (word.length = 1 ∧ last = false) ∧ ¬ (word.length = 2 ∧ word.getLast? = some dot) ∧
        ¬ (word.length = 3 ∧ word.tail = [dot, dot]) then [word] else [] := by
  have hpos : 0 < word.length := List.length_pos_iff.mpr hword
  unfold keepWord
  by_cases hone : word.length = 1
  · cases last <;> simp [hone]
  · by_cases htwo : word.length = 2 ∧ word.getLast? = some dot
    · simp [htwo]
    · by_cases hthree : word.length = 3 ∧ word.tail = [dot, dot]
      · simp [hthree]
      · simp only [hone, htwo, hthree, if_false, false_and, not_false_eq_true, and_self, if_true,
          List.nil_append]

/-- If the first word stays, the path is it and plain components behind it. -/
theorem canonical_of_stays {path : List Byte} (h : FirstWordStays path) :
    ∃ ps, canonical path = firstWord path ++ (slashed ps).flatten ∧
      (∀ p ∈ ps, (p ≠ [] ∧ slash ∉ p) ∧ p ≠ here ∧ p ≠ up) ∧
      ps = resolve [] (components (behindFirstWord path)) := by
  obtain ⟨hword, hone, htwo, hthree, hclimbs⟩ := h
  obtain ⟨-, -, ⟨hrest, hwords⟩ | ⟨rest, hrest, hwords⟩⟩ := canonicalWords_first hword
  · refine ⟨[], ?_, by simp, by simp [hrest, components, resolve]⟩
    rw [canonical, hwords, keepWord_first hword, if_pos ⟨by simp, htwo, hthree⟩]
    simp [slashed]
  · have hkept : keepWord false [] (firstWord path) = firstWord path :: slashed [] := by
      rw [keepWord_first hword, if_pos ⟨by simpa [hrest] using hone, htwo, hthree⟩]
      rfl
    have hcomps : components (behindFirstWord path) = components rest := by
      rw [hrest]
      exact parts_cons_sep rest
    rw [hcomps] at hclimbs
    have hfold := foldl_wordStep_stays (firstWord path) [] hclimbs
    rw [hkept] at hwords
    refine ⟨resolve [] (components rest), ?_, ?_, by rw [hcomps]⟩
    · rcases keepWords_slash rest [] (firstWord path :: slashed []) (by simp)
        with hrun | ⟨hnil, -⟩
      · rw [List.nil_append, hfold] at hrun
        rw [canonical, hwords, hrun, List.flatten_cons]
      · rw [List.nil_append, hfold] at hnil
        cases hnil
    · intro p hp
      rcases mem_resolve hp with hp | ⟨hp, hplain⟩
      · cases hp
      · exact ⟨of_mem_parts hp, hplain⟩

/-- If it does not, plain components are left, or a slash. -/
theorem canonical_slashed_of_not_stays {path : List Byte} (h : ¬ FirstWordStays path) :
    canonical path = [slash] ∨
      ∃ ps, canonical path = (slashed ps).flatten ∧
        ∀ p ∈ ps, (p ≠ [] ∧ slash ∉ p) ∧ p ≠ here ∧ p ≠ up := by
  have hplain : ∀ l, ∀ p ∈ resolve [] (components l),
      (p ≠ [] ∧ slash ∉ p) ∧ p ≠ here ∧ p ≠ up := by
    intro l p hp
    rcases mem_resolve hp with hp | ⟨hp, hdots⟩
    · cases hp
    · exact ⟨of_mem_parts hp, hdots⟩
  by_cases hword : firstWord path = []
  · cases hpath : path with
    | nil => exact Or.inr ⟨[], rfl, by simp⟩
    | cons c rest =>
      have hc : c = slash := by
        by_contra hne
        simp [firstWord, hpath, hne] at hword
      have hhead : (c :: rest).head? = some slash := by rw [hc]; rfl
      rcases canonical_absolute_cases hhead with hwords | ⟨-, hslash⟩
      · exact Or.inr ⟨_, hwords, hplain _⟩
      · exact Or.inl hslash
  · obtain ⟨-, -, ⟨hrest, hwords⟩ | ⟨rest, hrest, hwords⟩⟩ := canonicalWords_first hword
    · rw [keepWord_first hword, if_neg] at hwords
      · exact Or.inr ⟨[], by rw [canonical, hwords]; rfl, by simp⟩
      · intro hkept
        exact h ⟨hword, by simp [hrest], hkept.2.1, hkept.2.2, by simp [hrest, components, climbs]⟩
    · have hcomps : components (behindFirstWord path) = components rest := by
        rw [hrest]
        exact parts_cons_sep rest
      have hfold : (components rest).foldl wordStep (keepWord false [] (firstWord path)) =
          slashed (resolve [] (components rest)) := by
        rw [keepWord_first hword]
        split
        next hkept =>
          have hclimbs : climbs 0 (components rest) = true := by
            by_contra hnot
            refine h ⟨hword, by simpa [hrest] using hkept.1, hkept.2.1, hkept.2.2, ?_⟩
            rw [hcomps]
            simpa using hnot
          exact foldl_wordStep_climbs (firstWord path) [] hclimbs
        next => exact foldl_wordStep_slashed _ []
      rcases keepWords_slash rest [] (keepWord false [] (firstWord path))
        (by simp) with hrun | ⟨-, hrun⟩
      · rw [List.nil_append, hfold] at hrun
        refine Or.inr ⟨_, ?_, hplain rest⟩
        rw [canonical, hwords, hrun]
      · exact Or.inl (by rw [canonical, hwords, hrun]; rfl)

theorem canonical_of_not_stays {path : List Byte} (h : ¬ FirstWordStays path) :
    (canonical path = [] ∨ (canonical path).head? = some slash) ∧
      ∀ p ∈ components (canonical path), p ≠ here ∧ p ≠ up := by
  rcases canonical_slashed_of_not_stays h with hslash | ⟨ps, hwords, hps⟩
  · rw [hslash]
    exact ⟨Or.inr rfl, by simp [components]⟩
  · rw [hwords, components_slashed fun p hp => (hps p hp).1]
    exact ⟨head_slashed ps, fun p hp => (hps p hp).2⟩

/-! ## What is left of a path -/

theorem keepWord_sublist (last : Bool) (words : List (List Byte)) (word : List Byte) :
    (keepWord last words word).flatten.Sublist (words.flatten ++ word) := by
  have hpushed : (words ++ [word]).flatten = words.flatten ++ word := by simp
  unfold keepWord
  split
  next =>
    split
    next h => simp [h.2]
    next => exact List.sublist_append_left _ _
  next =>
    split
    next => exact List.sublist_append_left _ _
    next =>
      split
      next =>
        exact (List.dropLast_sublist words).flatten.trans (List.sublist_append_left _ _)
      next =>
        rw [hpushed]

theorem keepWords_sublist (rest : List Byte) : ∀ (word : List Byte) (words : List (List Byte)),
    (keepWords word rest words).flatten.Sublist (words.flatten ++ word ++ rest) := by
  induction rest with
  | nil =>
    intro word words
    rw [List.append_nil]
    exact keepWord_sublist true words word
  | cons c rest ih =>
    intro word words
    unfold keepWords
    split
    next =>
      have hkept := (keepWord_sublist false words word).append (List.Sublist.refl ([c] ++ rest))
      refine (ih [c] (keepWord false words word)).trans ?_
      rw [List.append_assoc]
      exact hkept
    next => simpa using ih (word ++ [c]) words

/-- Bytes of the path are dropped, and no others are added. -/
theorem canonical_sublist (path : List Byte) : (canonical path).Sublist path := by
  cases path with
  | nil => exact List.Sublist.refl _
  | cons c rest => exact keepWords_sublist rest [c] []

/-- No path gets longer. -/
theorem canonical_length (path : List Byte) : (canonical path).length ≤ path.length :=
  (canonical_sublist path).length_le

/-- No path keeps a component `".."`. -/
theorem canonical_no_up (path : List Byte) : ∀ p ∈ components (canonical path), p ≠ up := by
  by_cases h : FirstWordStays path
  · obtain ⟨ps, hcanonical, hps, -⟩ := canonical_of_stays h
    obtain ⟨hword, -, htwo, -⟩ := h
    obtain ⟨hslash, -⟩ := canonicalWords_first hword
    rw [hcanonical, components_word hword hslash fun p hp => (hps p hp).1]
    intro p hp
    rcases List.mem_cons.mp hp with rfl | hp
    · intro hup
      exact htwo (by simp [hup, up])
    · exact (hps p hp).2.2
  · exact fun p hp => ((canonical_of_not_stays h).2 p hp).2

end Hyrule
