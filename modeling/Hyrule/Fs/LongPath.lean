import Hyrule.Fs.Resolution

/-!
# Paths of any length

The first loop of `canonicalize_path_name` looks at `MAX_PATH` bytes.  Of a path that is
longer, it finds the words that a slash closes among these bytes, and not the word that
the bytes end in.  `left` is what is left of a path of any length.

`canonicalizePathName_total` says that the function returns what is left of every path
but one kind: a path of 511 bytes that loses none of them.  The copy of its last word
brings the zero along to the last byte of the buffer, and the zero that is written then
is behind it.

`Unreduced` are the paths that lose nothing.  What is left of any path is one of them, or
has at most one byte, and so `canonicalize_path_name` leaves it as it is
(`canonicalizePathName_idempotent`).
-/

namespace Hyrule

open Lib Lib.Result

/-! ## What is left -/

/-- The words on the stack behind some bytes of a path that does not end there, with the
word so far. -/
def closedWords (word : List Byte) : List Byte → List (List Byte) → List (List Byte)
  | [], words => words
  | c :: rest, words =>
      if c = slash then closedWords [c] rest (keepWord false words word)
      else closedWords (word ++ [c]) rest words

/-- What is left of a path. -/
def left (path : List Byte) : List Byte :=
  if path.length < maxPath then canonical path
  else (closedWords (path.take 1) ((path.take maxPath).drop 1) []).flatten

/-- No byte of the path is dropped: no two slashes in a row and none at the end, no dots,
and a first word that stays. -/
def Unreduced (path : List Byte) : Prop :=
  path = firstWord path ++ (slashed (components (behindFirstWord path))).flatten ∧
  (∀ p ∈ components (behindFirstWord path), p ≠ here ∧ p ≠ up) ∧
  (firstWord path = [] ∨ FirstWordStays path)

instance (path : List Byte) : Decidable (Unreduced path) :=
  inferInstanceAs (Decidable (_ ∧ _))

/-! ## The loop on a long path -/

theorem findWords_long {src : CString} : ∀ (fuel : Nat) (pre word rest : List Byte)
    (stack : List Nat), src.bytes = pre ++ word ++ rest → word ≠ [] → slash ∉ word.tail →
      StackedWords src.bytes stack pre.length → 2 * stack.length ≤ pre.length →
      (pre ++ word).length + fuel = maxPath → fuel ≤ rest.length →
      ∃ stack', findWords src fuel (pre ++ word).length (some pre.length) stack = .ok stack' ∧
        stack'.map (wordAt src.bytes) =
          closedWords word (rest.take fuel) (stack.map (wordAt src.bytes)) ∧
        StackedWords src.bytes stack' (maxPath - 1) := by
  intro fuel
  induction fuel with
  | zero =>
    intro pre word rest stack _ hword _ hstack _ hend _
    have hpos : 0 < word.length := List.length_pos_iff.mpr hword
    rw [List.length_append] at hend
    exact ⟨stack, rfl, by simp [closedWords], hstack.mono (by omega)⟩
  | succ fuel ih =>
    intro pre word rest stack h hword hslash hstack hhalf hend hrest
    have hpos : 0 < word.length := List.length_pos_iff.mpr hword
    have hidx : (pre ++ word).length ≠ 0 := by
      rw [List.length_append]
      omega
    obtain ⟨c, rest, rfl⟩ := List.exists_cons_of_ne_nil
      (List.ne_nil_of_length_pos (by omega) : rest ≠ [])
    have hbyte : src.byteAt (pre ++ word).length = c := by
      have := CString.byteAt_append h 0
      rwa [Nat.add_zero] at this
    have hc : c ≠ nul := fun hc => src.noNul (by simp [h, hc])
    rw [List.length_cons] at hrest
    by_cases hsep : c = slash
    · subst hsep
      have hpre : pre.length < maxPath := by
        rw [List.length_append] at hend
        omega
      obtain ⟨start, stack₁, hclose, hmap, hstack₁, hnext⟩ :=
        closeWord_spec h hword hslash (Or.inr rfl) hstack hhalf hpre
      obtain ⟨rfl, hhalf₁⟩ := hnext (by simp)
      have hlength : (pre ++ word ++ [slash]).length = (pre ++ word).length + 1 := by
        rw [List.length_append, List.length_singleton]
      obtain ⟨stack', hrun, hmap', hstack'⟩ := ih (pre ++ word) [slash] rest stack₁ (by simp [h])
        (by simp) (by simp) hstack₁ hhalf₁ (by omega) (by omega)
      rw [hlength] at hrun
      refine ⟨stack', ?_, ?_, hstack'⟩
      · simp only [findWords, hbyte, hclose, ok_bind, ne_eq, not_true_eq_false, false_and,
          if_false, hc]
        exact hrun
      · rw [hmap', hmap, List.take_succ_cons, closedWords, if_pos rfl]
        simp
    · have hlength : (pre ++ (word ++ [c])).length = (pre ++ word).length + 1 := by
        rw [← List.append_assoc, List.length_append, List.length_singleton]
      have htail : slash ∉ (word ++ [c]).tail := by
        rw [List.tail_append_of_ne_nil hword]
        simp [hslash, Ne.symm hsep]
      obtain ⟨stack', hrun, hmap, hstack'⟩ := ih pre (word ++ [c]) rest stack (by simp [h])
        (by simp) htail hstack hhalf (by omega) (by omega)
      rw [hlength] at hrun
      refine ⟨stack', ?_, ?_, hstack'⟩
      · simp only [findWords, hbyte, ne_eq, hsep, hc, hidx, not_false_eq_true, and_self, if_true]
        exact hrun
      · rw [hmap, List.take_succ_cons, closedWords, if_neg hsep]

/-- What the loop finds in any path. -/
theorem findWords_total (src : CString) :
    ∃ stack, findWords src maxPath 0 none [] = .ok stack ∧
      (stack.map (wordAt src.bytes)).flatten = left src.bytes ∧
      StackedWords src.bytes stack (min src.bytes.length (maxPath - 1)) := by
  by_cases hlen : src.bytes.length < maxPath
  · obtain ⟨stack, hrun, hmap, hstack⟩ := findWords_eq src hlen
    refine ⟨stack, hrun, ?_, ?_⟩
    · rw [hmap, left, if_pos hlen]
      rfl
    · rwa [Nat.min_eq_left (by omega)]
  · obtain ⟨c, rest, hbytes⟩ := List.exists_cons_of_ne_nil
      (List.ne_nil_of_length_pos (by unfold maxPath at hlen; omega) : src.bytes ≠ [])
    have hbyte : src.byteAt 0 = c := by simp [CString.byteAt, hbytes]
    have hc : c ≠ nul := fun hc => src.noNul (by simp [hbytes, hc])
    have hempty : StackedWords src.bytes [] ([] : List Byte).length :=
      ⟨List.Pairwise.nil, by simp, by simp, by simp⟩
    have hrest : maxPath - 1 ≤ rest.length := by
      rw [hbytes, List.length_cons] at hlen
      omega
    obtain ⟨stack, hrun, hmap, hstack⟩ := findWords_long (maxPath - 1) [] [c] rest []
      (by simp [hbytes]) (by simp) (by simp) hempty (by simp) rfl hrest
    refine ⟨stack, ?_, ?_, ?_⟩
    · have hfuel : maxPath = (maxPath - 1) + 1 := rfl
      rw [hfuel, findWords]
      simp only [hbyte, hc, ne_eq, not_true_eq_false, and_false, if_false, not_false_eq_true,
        if_true]
      exact hrun
    · rw [hmap, left, if_neg hlen, hbytes]
      rfl
    · rwa [Nat.min_eq_right (by omega)]

/-! ## The last zero -/

/-- Words that stand apart are not longer than the path up to their end. -/
theorem total_le_of_apart {path : List Byte} {stack : List Nat} :
    ∀ {bound : Nat}, stack.Pairwise (fun i j => i + (wordAt path i).length ≤ j) →
      (∀ i ∈ stack, i + (wordAt path i).length ≤ bound) →
      ((stack.map (wordAt path)).flatten).length ≤ bound := by
  induction stack using List.reverseRecOn with
  | nil => intro bound _ _; simp
  | append_singleton stack i ih =>
    intro bound hapart hbelow
    rw [List.pairwise_append] at hapart
    have hle := ih hapart.1 fun k hk => hapart.2.2 k hk i (by simp)
    have hend := hbelow i (by simp)
    simp only [List.map_append, List.map_cons, List.map_nil, List.flatten_append,
      List.flatten_cons, List.flatten_nil, List.append_nil, List.length_append]
    omega

/-- If no byte of the path is dropped, the last word brings a zero along. -/
theorem zeroBehindWords_eq {path : List Byte} {stack : List Nat} {bound : Nat}
    (hstack : StackedWords path stack bound) (hpath : path ≠ [])
    (hall : ((stack.map (wordAt path)).flatten).length = path.length) :
    zeroBehindWords path stack = [nul] := by
  rcases stack.eq_nil_or_concat with rfl | ⟨stack, i, rfl⟩
  · rw [List.map_nil, List.flatten_nil, List.length_nil] at hall
    exact absurd (List.length_eq_zero_iff.mp hall.symm) hpath
  · rw [List.concat_eq_append] at hstack hall ⊢
    rw [zeroBehindWords, List.getLast?_concat, Option.elim_some, zeroBehind, if_neg]
    intro hlt
    have hapart := List.pairwise_append.mp hstack.apart
    have hbelow : ∀ k ∈ stack ++ [i],
        k + (wordAt path k).length ≤ i + (wordAt path i).length := by
      intro k hk
      rcases List.mem_append.mp hk with hk | hk
      · exact Nat.le_add_right_of_le (hapart.2.2 k hk i (by simp))
      · rw [List.mem_singleton.mp hk]
    have hle := total_le_of_apart hstack.apart hbelow
    omega

/-! ## Paths that lose nothing -/

theorem canonical_eq_self_iff {path : List Byte} (hlong : 1 < path.length) :
    canonical path = path ↔ Unreduced path := by
  by_cases hword : firstWord path = []
  · have hhead : path.head? = some slash := by
      rcases absolute_of_firstWord hword with rfl | hhead
      · cases hlong
      · exact hhead
    have hbehind : behindFirstWord path = path := by
      have hsplit : firstWord path ++ behindFirstWord path = path :=
        List.takeWhile_append_dropWhile
      rwa [hword, List.nil_append] at hsplit
    have hplain : ∀ ps : List (List Byte), (∀ p ∈ ps, p ≠ here ∧ p ≠ up) → resolve [] ps = ps :=
      fun ps hps => resolve_of_plain [] hps
    unfold Unreduced
    rw [hbehind, hword, List.nil_append]
    constructor
    · intro hsame
      have hcomps := (canonical_absolute hhead).1
      rw [hsame] at hcomps
      refine ⟨?_, hcomps ▸ plain_resolve, Or.inl rfl⟩
      rcases canonical_absolute_cases hhead with hwords | ⟨-, hslash⟩
      · rw [← hcomps] at hwords
        exact hsame.symm.trans hwords
      · rw [hsame] at hslash
        rw [hslash] at hlong
        exact absurd hlong (by decide)
    · rintro ⟨hflat, hdots, -⟩
      rcases canonical_absolute_cases hhead with hwords | ⟨hnil, -⟩
      · rw [hplain _ hdots] at hwords
        exact hwords.trans hflat.symm
      · rw [hplain _ hdots] at hnil
        rw [hnil] at hflat
        rw [hflat] at hlong
        cases hlong
  · obtain ⟨hslash, hsplit, -⟩ := canonicalWords_first hword
    by_cases hstays : FirstWordStays path
    · obtain ⟨ps, hcanonical, hps, hresolve⟩ := canonical_of_stays hstays
      constructor
      · intro hsame
        have hbehind : behindFirstWord path = (slashed ps).flatten :=
          List.append_cancel_left ((hsplit.symm.trans hsame.symm).trans hcanonical)
        have hcomps : components (behindFirstWord path) = ps := by
          rw [hbehind]
          exact components_slashed fun p hp => (hps p hp).1
        refine ⟨?_, ?_, Or.inr hstays⟩
        · rw [hcomps]
          exact hsame.symm.trans hcanonical
        · rw [hcomps]
          exact fun p hp => (hps p hp).2
      · rintro ⟨hflat, hdots, -⟩
        rw [resolve_of_plain [] hdots, List.nil_append] at hresolve
        rw [hcanonical, hresolve]
        exact hflat.symm
    · constructor
      · intro hsame
        have hhead := (canonical_of_not_stays hstays).1
        rw [hsame] at hhead
        rcases hhead with hnil | hhead
        · rw [hnil] at hlong
          cases hlong
        · obtain ⟨rest, hpath⟩ := List.head?_eq_some_iff.mp hhead
          exact absurd (by rw [hpath]; simp [firstWord]) hword
      · rintro ⟨-, -, hfirst⟩
        exact absurd hfirst (not_or.mpr ⟨hword, hstays⟩)

/-- The first word in front of slashed components. -/
theorem firstWord_slashed {word : List Byte} (h : slash ∉ word) (ps : List (List Byte)) :
    firstWord (word ++ (slashed ps).flatten) = word ∧
      behindFirstWord (word ++ (slashed ps).flatten) = (slashed ps).flatten := by
  rcases head_slashed ps with hnil | hhead
  · have hword : ∀ b ∈ word, decide (b ≠ slash) = true := fun b hb => by
      simpa using fun heq : b = slash => h (heq ▸ hb)
    rw [hnil, List.append_nil, firstWord, behindFirstWord, List.takeWhile_eq_self_iff.mpr hword,
      List.dropWhile_eq_nil_iff.mpr hword]
    exact ⟨rfl, rfl⟩
  · obtain ⟨rest, hrest⟩ := List.head?_eq_some_iff.mp hhead
    rw [hrest]
    exact firstWord_append rest h

/-- What is left of a path loses nothing more. -/
theorem canonical_unreduced {path : List Byte} (hlong : 1 < (canonical path).length) :
    Unreduced (canonical path) := by
  by_cases hstays : FirstWordStays path
  · obtain ⟨ps, hcanonical, hps, hresolve⟩ := canonical_of_stays hstays
    obtain ⟨hword, hone, htwo, hthree, -⟩ := hstays
    obtain ⟨hslash, -⟩ := canonicalWords_first hword
    obtain ⟨hfirst, hbehind⟩ := firstWord_slashed hslash ps
    have hcomps : components (slashed ps).flatten = ps :=
      components_slashed fun p hp => (hps p hp).1
    have hstays' : FirstWordStays (firstWord path ++ (slashed ps).flatten) := by
      unfold FirstWordStays
      rw [hfirst, hbehind, hcomps]
      refine ⟨hword, fun hshort => hone ⟨hshort.1, fun hnil => ?_⟩, htwo, hthree, ?_⟩
      · rw [hresolve, hnil] at hshort
        exact hshort.2 rfl
      · exact climbs_of_plain 0 fun p hp => (hps p hp).2
    rw [hcanonical]
    unfold Unreduced
    rw [hfirst, hbehind, hcomps]
    exact ⟨rfl, fun p hp => (hps p hp).2, Or.inr hstays'⟩
  · rcases canonical_slashed_of_not_stays hstays with hone | ⟨ps, hwords, hps⟩
    · rw [hone] at hlong
      exact absurd hlong (by decide)
    · obtain ⟨hfirst, hbehind⟩ := firstWord_slashed (List.not_mem_nil (a := slash)) ps
      have hcomps : components (slashed ps).flatten = ps :=
        components_slashed fun p hp => (hps p hp).1
      rw [List.nil_append] at hfirst hbehind
      rw [hwords]
      unfold Unreduced
      rw [hfirst, hbehind, hcomps]
      exact ⟨rfl, fun p hp => (hps p hp).2, Or.inl rfl⟩

theorem canonical_idempotent (path : List Byte) : canonical (canonical path) = canonical path := by
  by_cases hlong : 1 < (canonical path).length
  · exact (canonical_eq_self_iff hlong).mpr (canonical_unreduced hlong)
  · -- One byte is a word of its own, and it is the last.
    cases hpath : canonical path with
    | nil => rfl
    | cons b rest =>
      rw [hpath, List.length_cons] at hlong
      obtain rfl : rest = [] := List.length_eq_zero_iff.mp (by omega)
      rfl

/-- `canonicalize_path_name` leaves what it has returned as it is, and makes no path longer. -/
theorem canonicalizePathName_idempotent {src : CString} (hlen : src.length ≤ 510) :
    ∃ dst, canonicalizePathName src = .ok dst ∧ canonicalizePathName dst = .ok dst ∧
      dst.length ≤ src.length := by
  have hfits : src.length + 2 ≤ maxPath := Nat.add_le_add_right hlen 2
  obtain ⟨dst, hrun, hbytes⟩ := canonicalizePathName_eq hfits
  have hle : dst.length ≤ src.length := by
    rw [CString.length, hbytes]
    exact canonical_length src.bytes
  have hfits' : dst.length + 2 ≤ maxPath := Nat.add_le_add_right (hle.trans hlen) 2
  obtain ⟨dst', hrun', hbytes'⟩ := canonicalizePathName_eq hfits'
  obtain rfl : dst' = dst := by
    have hsame : dst'.bytes = dst.bytes := by rw [hbytes', hbytes, canonical_idempotent]
    cases dst'
    cases dst
    cases hsame
    rfl
  exact ⟨dst', hrun, hrun', hle⟩

/-- The path `"ab/./c//"` becomes `"ab/c"` and stays so. -/
theorem canonicalizePathName_idempotent_relative :
    (CString.ofBuffer [97, 98, 47, 46, 47, 99, 47, 47]).length ≤ 510 ∧
      ∃ dst, canonicalizePathName (.ofBuffer [97, 98, 47, 46, 47, 99, 47, 47]) = .ok dst ∧
        dst.bytes = [97, 98, 47, 99] ∧ canonicalizePathName dst = .ok dst := by
  have hlen : (CString.ofBuffer [97, 98, 47, 46, 47, 99, 47, 47]).length ≤ 510 := by decide
  obtain ⟨dst, hrun, hagain, -⟩ := canonicalizePathName_idempotent hlen
  obtain ⟨dst', hrun', hbytes⟩ := canonicalizePathName_eq (Nat.add_le_add_right hlen 2)
  obtain rfl := Except.ok.inj (hrun'.symm.trans hrun)
  exact ⟨hlen, dst', hrun, hbytes.trans (by decide), hagain⟩

/-- What is left of another path fits into the buffer with its zeros. -/
theorem StackedWords.left_fits {path : List Byte} {stack : List Nat}
    (hstack : StackedWords path stack (min path.length (maxPath - 1)))
    (hleft : (stack.map (wordAt path)).flatten = left path)
    (hkept : ¬ (path.length = 511 ∧ Unreduced path)) :
    (left path).length + (zeroBehindWords path stack).length < maxPath := by
  have htotal := hstack.total
  rw [hleft] at htotal
  have hmax : maxPath = 512 := rfl
  by_cases hlong : path.length < maxPath
  · have hzero : (zeroBehindWords path stack).length ≤ 1 := by
      rcases zeroBehindWords_cases path stack with hzero | hzero
      · rw [hzero]
        exact Nat.zero_le 1
      · rw [hzero]
        exact Nat.le_refl 1
    have hne : (left path).length ≠ 511 := by
      intro hfull
      have hpath : path.length = 511 := by omega
      have hcanonical : left path = canonical path := if_pos hlong
      rw [hcanonical] at hfull
      have hsame := (canonical_sublist path).eq_of_length (hfull.trans hpath.symm)
      exact hkept ⟨hpath, (canonical_eq_self_iff (by omega)).mp hsame⟩
    omega
  · have hzero : zeroBehindWords path stack = [] := by
      unfold zeroBehindWords
      cases hlast : stack.getLast? with
      | none => rfl
      | some i =>
        have hend := hstack.below i (List.mem_of_getLast? hlast)
        exact if_pos (by omega)
    rw [hzero, List.length_nil]
    omega

/-- `canonicalize_path_name` returns what is left of a path, but for a path of 511 bytes
that loses none of them. -/
theorem canonicalizePathName_total (src : CString) :
    ((src.length = 511 ∧ Unreduced src.bytes) ∧
        canonicalizePathName src = .error .outOfBounds) ∨
      (¬ (src.length = 511 ∧ Unreduced src.bytes) ∧
        ∃ dst, canonicalizePathName src = .ok dst ∧ dst.bytes = left src.bytes) := by
  obtain ⟨stack, hfind, hleft, hstack⟩ := findWords_total src
  obtain ⟨hbytes, hrun⟩ := canonicalizePathName_of_stack hfind hstack
    ((Nat.min_le_right _ _).trans_lt (by decide))
  have htotal := hstack.total
  rw [hleft] at hbytes hrun htotal
  by_cases hkept : src.length = 511 ∧ Unreduced src.bytes
  · obtain ⟨hlen, hunreduced⟩ := hkept
    have hsame : left src.bytes = src.bytes := by
      rw [left, if_pos (by rw [← CString.length, hlen]; decide)]
      exact (canonical_eq_self_iff (by rw [← CString.length, hlen]; decide)).mpr hunreduced
    have hzero : zeroBehindWords src.bytes stack = [nul] := by
      refine zeroBehindWords_eq hstack ?_ (by rw [hleft, hsame])
      rintro hnil
      rw [CString.length, hnil] at hlen
      cases hlen
    refine Or.inl ⟨⟨hlen, hunreduced⟩, ?_⟩
    rw [hrun, hzero, hsame, putByte, if_neg]
    · rfl
    · rw [List.length_append, ← CString.length, hlen]
      decide
  · have hfits : (left src.bytes ++ zeroBehindWords src.bytes stack).length < maxPath := by
      rw [List.length_append]
      exact hstack.left_fits hleft hkept
    refine Or.inr ⟨hkept, _, ?_, hbytes⟩
    rw [hrun, putByte, if_pos hfits]
    rfl

end Hyrule
