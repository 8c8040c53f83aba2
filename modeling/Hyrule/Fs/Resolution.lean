import Hyrule.Fs.HostPath

/-!
# What canonical paths resolve to

`resolve` takes the components of a path one after the other.  What it does to the
stack that it starts with depends on whether the components climb above their start
(`resolve_of_not_climbs`, `length_resolve_of_climbs`).

`canonicalize_path_name` resolves the components of every path, but for its first
word.  For a path that starts with a slash this is `canonicalizePathName_absolute`.
`DropsFirst` says when a name in front is lost.  `canonical_of_keeps` and
`canonical_of_drops` compare what is left with the components of the path, and
`components_canonical_append` says what becomes of a path behind a directory.
-/

namespace Hyrule

open Lib Lib.Result

variable {path : List Byte} {ps : List (List Byte)}

/-! ## Climbing -/

theorem climbs_of_plain (depth : Nat) (h : ∀ p ∈ ps, p ≠ here ∧ p ≠ up) :
    climbs depth ps = false := by
  induction ps generalizing depth with
  | nil => rfl
  | cons p ps ih =>
    obtain ⟨hhere, hup⟩ := h p List.mem_cons_self
    have hrest := ih (depth + 1) fun q hq => h q (List.mem_cons_of_mem p hq)
    simp [climbs, hhere, hup, hrest]

/-- Components that do not climb leave what is below the stack. -/
theorem resolve_of_not_climbs (base : List (List Byte)) : ∀ stack : List (List Byte),
    climbs stack.length ps = false → resolve (base ++ stack) ps = base ++ resolve stack ps := by
  refine climbs_induction (P := fun stack ps => resolve (base ++ stack) ps =
    base ++ resolve stack ps) (fun _ _ => rfl) ?_ fun stack p ps hp ih => ?_
  · intro h
    cases h
  · rw [resolve, List.foldl_cons, resolveStep_append base hp]
    exact ih

theorem resolve_of_stays (base : List (List Byte)) (h : climbs 0 ps = false) :
    resolve base ps = base ++ resolve [] ps := by
  simpa using resolve_of_not_climbs base [] h

/-- Below the stack nothing is added. -/
theorem length_resolve_le (ps : List (List Byte)) : ∀ base stack : List (List Byte),
    (resolve (base ++ stack) ps).length ≤ base.length + (resolve stack ps).length := by
  induction ps with
  | nil => intro base stack; simp [resolve]
  | cons p ps ih =>
    intro base stack
    by_cases hp : p ≠ up ∨ stack ≠ []
    · rw [resolve, List.foldl_cons, resolveStep_append base hp]
      exact ih base _
    · rw [not_or, not_not, not_not] at hp
      obtain ⟨rfl, rfl⟩ := hp
      have hle := ih base.dropLast []
      rw [List.append_nil, List.length_dropLast] at hle
      simp only [resolve, List.foldl_cons, resolveStep, up_ne_here, if_false, if_true,
        List.append_nil, List.dropLast_nil] at hle ⊢
      omega

/-- Components that climb take something from below the stack. -/
theorem length_resolve_of_climbs {base : List (List Byte)} (hbase : base ≠ []) :
    ∀ stack : List (List Byte), climbs stack.length ps = true →
      (resolve (base ++ stack) ps).length < base.length + (resolve stack ps).length := by
  refine climbs_induction (P := fun stack ps => (resolve (base ++ stack) ps).length <
    base.length + (resolve stack ps).length) ?_ (fun _ ps => ?_) fun stack p ps hp ih => ?_
  · intro h
    cases h
  · have hle := length_resolve_le ps base.dropLast []
    have hpos := List.length_pos_iff.mpr hbase
    rw [List.append_nil, List.length_dropLast] at hle
    simp only [resolve, List.foldl_cons, resolveStep, up_ne_here, if_false, if_true,
      List.append_nil, List.dropLast_nil] at hle ⊢
    omega
  · rw [resolve, List.foldl_cons, resolveStep_append base hp]
    exact ih

/-- Components that climb take a single component away. -/
theorem resolve_of_climbs (word : List Byte) : ∀ stack : List (List Byte),
    climbs stack.length ps = true → resolve (word :: stack) ps = resolve stack ps := by
  refine climbs_induction (P := fun stack ps => resolve (word :: stack) ps = resolve stack ps)
    ?_ (fun _ _ => rfl) fun stack p ps hp ih => ?_
  · intro h
    cases h
  · rw [resolve, List.foldl_cons, ← List.singleton_append, resolveStep_append [word] hp]
    exact ih

/-! ## The first word -/

/-- The first word is a name, and `canonicalize_path_name` takes it for a lone slash or for
dots. -/
def DroppedName (path : List Byte) : Prop :=
  firstWord path ≠ here ∧ firstWord path ≠ up ∧
  ((firstWord path).length = 1 ∧ behindFirstWord path ≠ [] ∨
    (firstWord path).length = 2 ∧ (firstWord path).getLast? = some dot ∨
    (firstWord path).length = 3 ∧ (firstWord path).tail = [dot, dot])

/-- The name in front of the path is lost, and nothing behind it takes it away. -/
def DropsFirst (path : List Byte) : Prop :=
  DroppedName path ∧ climbs 0 (components (behindFirstWord path)) = false

instance (path : List Byte) : Decidable (DroppedName path) :=
  inferInstanceAs (Decidable (_ ∧ _))

instance (path : List Byte) : Decidable (DropsFirst path) :=
  inferInstanceAs (Decidable (_ ∧ _))

theorem DroppedName.word (h : DroppedName path) : firstWord path ≠ [] := by
  intro hnil
  obtain ⟨-, -, h⟩ := h
  rw [hnil] at h
  simp at h

theorem components_first (h : firstWord path ≠ []) :
    components path = firstWord path :: components (behindFirstWord path) := by
  obtain ⟨hslash, hsplit, hrest⟩ := canonicalWords_first h
  have hseam : behindFirstWord path = [] ∨ (behindFirstWord path).head? = some slash := by
    rcases hrest with ⟨hnil, -⟩ | ⟨rest, hrest, -⟩
    · exact Or.inl hnil
    · exact Or.inr (by rw [hrest]; rfl)
  conv_lhs => rw [hsplit]
  rw [components, parts_append (Or.inr hseam.symm), parts_of_not_mem hslash h]
  rfl

theorem components_resolve (ps : List (List Byte)) (h : ∀ p ∈ ps, p ≠ [] ∧ slash ∉ p) :
    components (slashed (resolve [] ps)).flatten = resolve [] ps := by
  refine components_slashed fun p hp => ?_
  rcases mem_resolve hp with hp | ⟨hp, -⟩
  · cases hp
  · exact h p hp

/-- The words of components behind a first word, or behind none. -/
theorem components_foldl_wordStep {word : List Byte} {kept : List (List Byte)}
    (ps : List (List Byte)) (hword : word ≠ []) (hslash : slash ∉ word)
    (hkept : kept = [word] ∨ kept = []) (h : ∀ p ∈ ps, p ≠ [] ∧ slash ∉ p) :
    components (ps.foldl wordStep kept).flatten = resolve kept ps := by
  rcases hkept with rfl | rfl
  · cases hclimbs : climbs 0 ps with
    | false =>
      have hfold : ps.foldl wordStep [word] = word :: slashed (resolve [] ps) :=
        foldl_wordStep_stays word [] hclimbs
      rw [hfold, resolve_of_stays [word] hclimbs, List.flatten_cons]
      refine components_word hword hslash fun p hp => ?_
      rcases mem_resolve hp with hp | ⟨hp, -⟩
      · cases hp
      · exact h p hp
    | true =>
      have hfold : ps.foldl wordStep [word] = slashed (resolve [] ps) :=
        foldl_wordStep_climbs word [] hclimbs
      rw [hfold, components_resolve ps h]
      exact (resolve_of_climbs word [] hclimbs).symm
  · have hfold : ps.foldl wordStep [] = slashed (resolve [] ps) := foldl_wordStep_slashed ps []
    rw [hfold]
    exact components_resolve ps h

/-- The components behind the first word are resolved on it, or on nothing if it is
dropped. -/
theorem components_canonical (h : firstWord path ≠ []) :
    components (canonical path) =
      resolve (keepWord (decide (behindFirstWord path = [])) [] (firstWord path))
        (components (behindFirstWord path)) := by
  have hkept : ∀ last, keepWord last [] (firstWord path) = [firstWord path] ∨
      keepWord last [] (firstWord path) = [] := by
    intro last
    rw [keepWord_first h]
    split
    next => exact Or.inl rfl
    next => exact Or.inr rfl
  obtain ⟨hslash, -, ⟨hrest, hwords⟩ | ⟨rest, hrest, hwords⟩⟩ := canonicalWords_first h
  · rw [canonical, hwords, hrest, decide_eq_true rfl]
    exact components_foldl_wordStep [] h hslash (hkept true) (by simp)
  · have hcomps : components (behindFirstWord path) = components rest := by
      rw [hrest]
      exact parts_cons_sep rest
    have hfold := components_foldl_wordStep (components rest) h hslash (hkept false)
      fun p hp => of_mem_parts hp
    have hlast : decide (behindFirstWord path = []) = false := by simp [hrest]
    rw [hlast, hcomps, canonical, hwords]
    rcases keepWords_slash rest [] (keepWord false [] (firstWord path)) (by simp) with
      hrun | ⟨hnil, hrun⟩
    · rw [hrun]
      exact hfold
    · rw [List.nil_append] at hnil
      rw [hnil] at hfold
      rw [hrun, ← hfold]
      rfl

/-! ## What is left of a path -/

theorem plain_resolve {ps : List (List Byte)} : ∀ p ∈ resolve [] ps, p ≠ here ∧ p ≠ up := by
  intro p hp
  rcases mem_resolve hp with hp | ⟨-, hplain⟩
  · cases hp
  · exact hplain

/-- `canonicalize_path_name` resolves the components of a path that starts with a slash, and
leaves no dots. -/
theorem canonicalizePathName_absolute {src : CString} (hlen : src.length ≤ 510)
    (hhead : src.bytes.head? = some slash) :
    ∃ dst, canonicalizePathName src = .ok dst ∧
      components dst.bytes = resolve [] (components src.bytes) ∧
      ∀ p ∈ components dst.bytes, p ≠ here ∧ p ≠ up := by
  have hfits : src.bytes.length + 2 ≤ maxPath := Nat.add_le_add_right hlen 2
  obtain ⟨dst, hrun, hbytes⟩ := canonicalizePathName_eq hfits
  have hcomps : components dst.bytes = resolve [] (components src.bytes) := by
    rw [hbytes]
    exact (canonical_absolute hhead).1
  refine ⟨dst, hrun, hcomps, ?_⟩
  rw [hcomps]
  exact plain_resolve

/-- The path `"//a/./b/..//c/"` becomes `"/a/c"`. -/
theorem canonicalizePathName_absolute_dots :
    components (CString.ofBuffer [47, 47, 97, 47, 46, 47, 98, 47, 46, 46, 47, 47, 99, 47]).bytes =
        [[97], here, [98], up, [99]] ∧
      ∃ dst, canonicalizePathName
          (.ofBuffer [47, 47, 97, 47, 46, 47, 98, 47, 46, 46, 47, 47, 99, 47]) = .ok dst ∧
        components dst.bytes = [[97], [99]] := by
  obtain ⟨dst, hrun, hcomps, -⟩ := canonicalizePathName_absolute
    (show (CString.ofBuffer
      [47, 47, 97, 47, 46, 47, 98, 47, 46, 46, 47, 47, 99, 47]).length ≤ 510 by decide) (by decide)
  exact ⟨by decide, dst, hrun, hcomps.trans (by decide)⟩

/-- The first word is kept, unless it is a name that is dropped, or dots. -/
theorem keepWord_cases (h : firstWord path ≠ []) :
    (keepWord (decide (behindFirstWord path = [])) [] (firstWord path) = [] ∧
      (DroppedName path ∨ firstWord path = here ∨ firstWord path = up)) ∨
    (keepWord (decide (behindFirstWord path = [])) [] (firstWord path) = [firstWord path] ∧
      ¬ DroppedName path ∧ firstWord path ≠ up ∧
      (firstWord path = here → behindFirstWord path = [])) := by
  rw [keepWord_first h]
  split
  next hkept =>
    rw [decide_eq_false_iff_not] at hkept
    obtain ⟨hone, htwo, hthree⟩ := hkept
    refine Or.inr ⟨rfl, fun hdropped => ?_, fun hup => ?_, fun hhere => ?_⟩
    · rcases hdropped.2.2 with hdropped | hdropped | hdropped
      · exact hone hdropped
      · exact htwo hdropped
      · exact hthree hdropped
    · exact htwo (by rw [hup]; decide)
    · by_contra hne
      exact hone ⟨by rw [hhere]; rfl, hne⟩
  next hdropped =>
    rw [decide_eq_false_iff_not] at hdropped
    refine Or.inl ⟨rfl, ?_⟩
    by_cases hhere : firstWord path = here
    · exact Or.inr (Or.inl hhere)
    · by_cases hup : firstWord path = up
      · exact Or.inr (Or.inr hup)
      · refine Or.inl ⟨hhere, hup, ?_⟩
        by_contra hnot
        simp only [not_or] at hnot
        exact hdropped hnot

theorem resolve_cons_name {word : List Byte} (hhere : word ≠ here) (hup : word ≠ up)
    (stack ps : List (List Byte)) : resolve stack (word :: ps) = resolve (stack ++ [word]) ps := by
  simp [resolve, resolveStep, hhere, hup]

theorem resolve_cons_dots {word : List Byte} (h : word = here ∨ word = up)
    (ps : List (List Byte)) : resolve [] (word :: ps) = resolve [] ps := by
  rcases h with rfl | rfl
  · simp [resolve, resolveStep]
  · simp [resolve, resolveStep]

theorem absolute_of_firstWord (h : firstWord path = []) :
    path = [] ∨ path.head? = some slash := by
  cases path with
  | nil => exact Or.inl rfl
  | cons b rest =>
    refine Or.inr ?_
    by_contra hne
    have hb : b ≠ slash := fun heq => hne (by rw [heq]; rfl)
    simp [firstWord, hb] at h

/-- A path that keeps the name in front, and is not a lone dot, has its components
resolved. -/
theorem canonical_of_keeps (h : ¬ DropsFirst path) (hdot : path ≠ here) :
    components (canonical path) = resolve [] (components path) := by
  by_cases hword : firstWord path = []
  · rcases absolute_of_firstWord hword with rfl | hhead
    · rfl
    · exact (canonical_absolute hhead).1
  · rw [components_canonical hword, components_first hword]
    rcases keepWord_cases hword with ⟨hkept, hcases⟩ | ⟨hkept, -, hup, hhere⟩
    · rw [hkept]
      rcases hcases with hdropped | hdots
      · have hclimbs : climbs 0 (components (behindFirstWord path)) = true := by
          rw [← Bool.not_eq_false]
          exact fun hstays => h ⟨hdropped, hstays⟩
        rw [resolve_cons_name hdropped.1 hdropped.2.1]
        exact (resolve_of_climbs _ [] hclimbs).symm
      · rw [resolve_cons_dots hdots]
    · have hne : firstWord path ≠ here := by
        intro heq
        obtain ⟨-, hsplit, -⟩ := canonicalWords_first hword
        rw [hhere heq, List.append_nil, heq] at hsplit
        exact hdot hsplit
      rw [hkept, resolve_cons_name hne hup]
      rfl

/-- What is left of such a path, or of a lone dot, behind a stack. -/
theorem resolve_canonical_of_keeps (h : ¬ DropsFirst path) (stack : List (List Byte)) :
    resolve stack (components (canonical path)) = stack ++ resolve [] (components path) := by
  by_cases hdot : path = here
  · subst hdot
    have hleft : components (canonical here) = [here] := by decide
    have hcomps : components here = [here] := by decide
    rw [hleft, hcomps]
    simp [resolve, resolveStep]
  · rw [canonical_of_keeps h hdot]
    exact resolve_of_plain stack plain_resolve

/-- A path that loses the name in front. -/
theorem canonical_of_drops (h : DropsFirst path) :
    components (canonical path) = resolve [] (components (behindFirstWord path)) ∧
    ∀ stack, resolve stack (components path) =
      stack ++ firstWord path :: components (canonical path) := by
  obtain ⟨hdropped, hstays⟩ := h
  have hword := hdropped.word
  have hleft : components (canonical path) = resolve [] (components (behindFirstWord path)) := by
    rcases keepWord_cases hword with ⟨hkept, -⟩ | ⟨-, hnot, -⟩
    · rw [components_canonical hword, hkept]
    · exact absurd hdropped hnot
  refine ⟨hleft, fun stack => ?_⟩
  rw [components_first hword, resolve_cons_name hdropped.1 hdropped.2.1, resolve_of_stays _ hstays,
    hleft]
  simp

/-- The first word of a path with a slash does not see what is appended. -/
theorem firstWord_append {word : List Byte} (rest : List Byte) (h : slash ∉ word) :
    firstWord (word ++ slash :: rest) = word ∧
      behindFirstWord (word ++ slash :: rest) = slash :: rest := by
  have hword : ∀ b ∈ word, decide (b ≠ slash) = true := fun b hb => by
    simpa using fun heq : b = slash => h (heq ▸ hb)
  constructor
  · rw [firstWord, List.takeWhile_append_of_pos hword]
    simp
  · rw [behindFirstWord, List.dropWhile_append_of_pos hword]
    simp

/-- A path behind a directory that ends in a slash. -/
theorem components_canonical_append {root : List Byte} (hroot : root.getLast? = some slash)
    (rest : List Byte) :
    components (canonical (root ++ rest)) =
      resolve (components (canonical root)) (components rest) := by
  by_cases hword : firstWord root = []
  · have hhead : root.head? = some slash := by
      rcases absolute_of_firstWord hword with rfl | hhead
      · cases hroot
      · exact hhead
    have hhead' : (root ++ rest).head? = some slash := by
      rw [List.head?_append, hhead]
      rfl
    have hcomps : components (root ++ rest) = components root ++ components rest :=
      parts_append (Or.inl hroot)
    rw [(canonical_absolute hhead).1, (canonical_absolute hhead').1, hcomps, resolve_append]
  · obtain ⟨hslash, hsplit, ⟨hrest, -⟩ | ⟨tail, hrest, -⟩⟩ := canonicalWords_first hword
    · rw [hsplit, hrest, List.append_nil] at hroot
      exact absurd (List.mem_of_getLast? hroot) hslash
    · have hbehind : (behindFirstWord root).getLast? = some slash := by
        rw [hsplit, List.getLast?_append_of_ne_nil _ (by simp [hrest])] at hroot
        exact hroot
      have happend : root ++ rest = firstWord root ++ slash :: (tail ++ rest) := by
        conv_lhs => rw [hsplit, hrest]
        simp
      obtain ⟨hfirst, hbehind'⟩ := firstWord_append (tail ++ rest) hslash
      rw [← happend] at hfirst hbehind'
      have hsame : behindFirstWord (root ++ rest) = behindFirstWord root ++ rest := by
        rw [hbehind', hrest]
        rfl
      have hcomps : components (behindFirstWord root ++ rest) =
          components (behindFirstWord root) ++ components rest := parts_append (Or.inl hbehind)
      have hlast : decide (behindFirstWord root ++ rest = []) =
          decide (behindFirstWord root = []) := by simp [hrest]
      rw [components_canonical (by rw [hfirst]; exact hword), components_canonical hword, hfirst,
        hsame, hcomps, hlast, resolve_append]

/-- A directory that ends in a slash has its components resolved if and only if it keeps the
name in front. -/
theorem canonical_directory_iff {root : List Byte} (hroot : root.getLast? = some slash) :
    components (canonical root) = resolve [] (components root) ↔ ¬ DropsFirst root := by
  constructor
  · intro hsame hdrops
    have hlost := (canonical_of_drops hdrops).2 []
    rw [hsame] at hlost
    have hlength := congrArg List.length hlost
    simp at hlength
  · intro hkeeps
    refine canonical_of_keeps hkeeps ?_
    rintro rfl
    exact absurd hroot (by decide)

/-- To resolve what is left of a path on a stack is to resolve the path if and only if the
path keeps the name in front, and does not climb out of the stack. -/
theorem resolve_canonical_iff (base stack : List (List Byte)) :
    resolve (base ++ stack) (components (canonical path)) =
        base ++ resolve stack (components path) ↔
      ¬ DropsFirst path ∧ (stack = [] ∨ climbs 0 (components path) = false) := by
  by_cases hdrops : DropsFirst path
  · obtain ⟨hleft, hlost⟩ := canonical_of_drops hdrops
    have hplain : resolve (base ++ stack) (components (canonical path)) =
        base ++ stack ++ components (canonical path) := by
      rw [hleft]
      exact resolve_of_plain _ plain_resolve
    rw [hplain, hlost stack, List.append_assoc, List.append_cancel_left_eq,
      List.append_cancel_left_eq]
    refine ⟨fun hsame => ?_, fun h => absurd hdrops h.1⟩
    have hlength := congrArg List.length hsame
    simp at hlength
  · rw [resolve_canonical_of_keeps hdrops, List.append_assoc, List.append_cancel_left_eq]
    refine ⟨fun hsame => ⟨hdrops, ?_⟩, fun h => ?_⟩
    · by_contra hnot
      rw [not_or, Bool.not_eq_false] at hnot
      have hlength := length_resolve_of_climbs hnot.1 [] hnot.2
      rw [List.append_nil, ← hsame, List.length_append] at hlength
      exact Nat.lt_irrefl _ hlength
    · rcases h.2 with rfl | hstays
      · rfl
      · exact (resolve_of_stays stack hstays).symm

end Hyrule
