import Hyrule.Memory.Access

/-!
# Free gaps and anonymous mappings

`mmap` without a usable hint takes the highest gap between the regions that is
longer than the mapping and a spare page.  The search runs from the last region
down, and the spare page is what the caller needs to round the address up.

*The search.*  `RegionTable.gaps` lists the gaps of a table.  The loop of
`search_free_mmap_region` finds the last of them that is long enough
(`freeMmapLoop_spec`).  As long as the length and the spare page stay below
2^32, the rounded address lies inside that gap (`searchFreeMmapRegion_gap`).

*The mapping.*  Neither the end of a mapping nor the length with the spare page
is checked.  A hint whose range ends at 2^32 or behind passes the eligibility
test, and a length in the last page of the address space looks like a short one
to the search.  Both end in a failed assertion, except where the found address
rounds up to 0 (`mmapContract_iff`).
-/

namespace Hyrule

open Lib Lib.Result

/-! ## Rounding up -/

theorem toNat_and_page (a : Word) : (a &&& 4095).toNat = a.toNat % 4096 :=
  toNat_and_low (m := 4095) a 12 rfl (by decide)

theorem toNat_and_not_page (a : Word) : (a &&& ~~~4095).toNat = a.toNat - a.toNat % 4096 :=
  toNat_and_not_low (m := 4095) a 12 rfl (by decide)

/-- `PAGE_ROUNDUP` is the next multiple of a page, but for the wrap at the end. -/
theorem toNat_pageRoundup (a : Word) :
    (pageRoundup a).toNat = (a.toNat + 4095) / 4096 * 4096 % 2 ^ 32 := by
  have hpage := toNat_and_page a
  unfold pageRoundup
  split
  next h =>
    have hne : a.toNat % 4096 ≠ 0 := by
      rw [← hpage]
      exact fun hz => h (BitVec.eq_of_toNat_eq hz)
    have hsize : (4096 : Word).toNat = 4096 := rfl
    rw [BitVec.toNat_add, toNat_and_not_page, hsize]
    omega
  next h =>
    rw [not_not.mp h] at hpage
    have hzero : (0 : Word).toNat = 0 := rfl
    omega

/-! ## Gaps -/

/-- A range of addresses, from `low` up to `high`. -/
structure Gap where
  low : Word
  high : Word
deriving DecidableEq

def Gap.size (g : Gap) : Nat := g.high.toNat - g.low.toNat

/-- The gaps below the regions of a list, where the first one starts at `low`. -/
def gapsFrom (low : Word) : List PmRegion → List Gap
  | [] => []
  | r :: rest => ⟨low, r.addrLow⟩ :: gapsFrom r.addrHigh rest

/-- The gaps of a table: the one below the first region, and those between two
consecutive regions. -/
def RegionTable.gaps (t : RegionTable) : List Gap := gapsFrom 0 t.pmrOps

/-- The highest gap of a list that is longer than `n`. -/
def HighestGap (gaps : List Gap) (n : Nat) (g : Gap) : Prop :=
  ∃ below above, gaps = below ++ g :: above ∧ n < g.size ∧ ∀ g' ∈ above, g'.size ≤ n

/-- The address that the gap above some regions starts at. -/
def endOf (low : Word) : List PmRegion → Word
  | [] => low
  | r :: rest => endOf r.addrHigh rest

@[simp] theorem endOf_concat (low : Word) (pmrOps : List PmRegion) (r : PmRegion) :
    endOf low (pmrOps ++ [r]) = r.addrHigh := by
  induction pmrOps generalizing low with
  | nil => rfl
  | cons x rest ih => exact ih x.addrHigh

theorem gapsFrom_concat (low : Word) (pmrOps : List PmRegion) (r : PmRegion) :
    gapsFrom low (pmrOps ++ [r]) = gapsFrom low pmrOps ++ [⟨endOf low pmrOps, r.addrLow⟩] := by
  induction pmrOps generalizing low with
  | nil => rfl
  | cons x rest ih =>
    rw [List.cons_append, gapsFrom, ih, gapsFrom, endOf, List.cons_append]

/-- A gap lies apart from all regions, and ends where one of them starts. -/
theorem gapsFrom_apart {low : Word} {pmrOps : List PmRegion} {g : Gap}
    (horder : RegionsInOrder pmrOps) (hlow : ∀ r ∈ pmrOps, low ≤ r.addrLow)
    (hg : g ∈ gapsFrom low pmrOps) :
    low ≤ g.low ∧ g.low ≤ g.high ∧ (∃ r ∈ pmrOps, r.addrLow = g.high) ∧
      ∀ r ∈ pmrOps, r.addrHigh ≤ g.low ∨ g.high ≤ r.addrLow := by
  induction pmrOps generalizing low with
  | nil => simp [gapsFrom] at hg
  | cons x rest ih =>
    obtain ⟨hbelow, -⟩ := List.pairwise_cons.mp horder.below
    have hx := horder.nonempty x List.mem_cons_self
    have hxLow := hlow x List.mem_cons_self
    rcases List.mem_cons.mp hg with rfl | hg
    · refine ⟨BitVec.le_refl _, hxLow, ⟨x, List.mem_cons_self, rfl⟩, fun r hr => Or.inr ?_⟩
      rcases List.mem_cons.mp hr with rfl | hr
      · exact BitVec.le_refl _
      · have := hbelow r hr
        show x.addrLow ≤ r.addrLow
        bv_omega
    · obtain ⟨h1, h2, ⟨y, hy, hend⟩, hapart⟩ :=
        ih (horder.sublist (List.sublist_cons_self x rest)) hbelow hg
      refine ⟨by bv_omega, h2, ⟨y, List.mem_cons_of_mem x hy, hend⟩, fun r hr => ?_⟩
      rcases List.mem_cons.mp hr with rfl | hr
      · exact Or.inl h1
      · exact hapart r hr

theorem gaps_apart {t : RegionTable} {g : Gap} (horder : RegionsInOrder t.pmrOps)
    (hg : g ∈ t.gaps) :
    g.low ≤ g.high ∧ (∃ r ∈ t.pmrOps, r.addrLow = g.high) ∧
      ∀ r ∈ t.pmrOps, r.addrHigh ≤ g.low ∨ g.high ≤ r.addrLow :=
  (gapsFrom_apart horder (fun _ _ => Nat.zero_le _) hg).2

theorem HighestGap.mem {gaps : List Gap} {n : Nat} {g : Gap} (h : HighestGap gaps n g) :
    g ∈ gaps := by
  obtain ⟨below, above, rfl, -⟩ := h
  exact List.mem_append_right _ List.mem_cons_self

/-! ## The search for a gap -/

/-- One step of the loop looks at the gap below the last of the regions. -/
theorem freeMmapLoop_concat (pmrOps rest : List PmRegion) (r : PmRegion) (len : Word) :
    freeMmapLoop (pmrOps ++ r :: rest) len (pmrOps.length + 1) =
      if len < r.addrLow - endOf 0 pmrOps then .ok (r.addrLow - len)
      else freeMmapLoop (pmrOps ++ r :: rest) len pmrOps.length := by
  rcases pmrOps.eq_nil_or_concat with rfl | ⟨init, below, rfl⟩
  · simp [freeMmapLoop, endOf, elem]
  · simp [freeMmapLoop, elem]

/-- The loop returns the address that lies the length below the highest gap that is
longer, or 0 if there is none. -/
theorem freeMmapLoop_spec {pmrOps : List PmRegion} (rest : List PmRegion) (len : Word)
    (horder : RegionsInOrder pmrOps) :
    (∃ g, HighestGap (gapsFrom 0 pmrOps) len.toNat g ∧
      freeMmapLoop (pmrOps ++ rest) len pmrOps.length = .ok (g.high - len)) ∨
    (∀ g ∈ gapsFrom 0 pmrOps, g.size ≤ len.toNat) ∧
      freeMmapLoop (pmrOps ++ rest) len pmrOps.length = .ok 0 := by
  -- From the last region down, as the loop goes.
  induction pmrOps using List.reverseRecOn generalizing rest with
  | nil => exact Or.inr ⟨by simp [gapsFrom], rfl⟩
  | append_singleton init r ih =>
    have hend : endOf 0 init ≤ r.addrLow := by
      rcases init.eq_nil_or_concat with rfl | ⟨l, x, rfl⟩
      · exact Nat.zero_le _
      · have hbelow := (List.pairwise_append.mp horder.below).2.2 x (by simp) r (by simp)
        simpa using hbelow
    have hsize : (⟨endOf 0 init, r.addrLow⟩ : Gap).size = (r.addrLow - endOf 0 init).toNat :=
      (BitVec.toNat_sub_of_le hend).symm
    rw [List.append_assoc, List.length_append, List.length_singleton, List.singleton_append,
      freeMmapLoop_concat, gapsFrom_concat]
    split
    next hlen =>
      refine Or.inl ⟨_, ⟨gapsFrom 0 init, [], rfl, ?_, by simp⟩, rfl⟩
      rw [hsize]
      exact hlen
    next hlen =>
      have hshort : (⟨endOf 0 init, r.addrLow⟩ : Gap).size ≤ len.toNat := by
        rw [hsize]
        bv_omega
      rcases ih (r :: rest) (horder.sublist (List.sublist_append_left _ _)) with
        ⟨g, ⟨below, above, hgaps, hlong, habove⟩, hloop⟩ | ⟨hnone, hloop⟩
      · refine Or.inl ⟨g, ⟨below, above ++ [_], by rw [hgaps, List.append_assoc]; rfl, hlong, ?_⟩,
          hloop⟩
        intro g' hg'
        rcases List.mem_append.mp hg' with hg' | hg'
        · exact habove g' hg'
        · exact List.mem_singleton.mp hg' ▸ hshort
      · refine Or.inr ⟨?_, hloop⟩
        intro g hg
        rcases List.mem_append.mp hg with hg | hg
        · exact hnone g hg
        · exact List.mem_singleton.mp hg ▸ hshort

/-- The address that lies a length below the end of a longer gap lies inside it. -/
theorem Gap.offset {g : Gap} {len : Word} (hlong : len.toNat < g.size) :
    (g.high - len).toNat = g.high.toNat - len.toNat ∧ g.low.toNat < (g.high - len).toNat := by
  unfold Gap.size at hlong
  have hle : len ≤ g.high := by
    show len.toNat ≤ g.high.toNat
    omega
  rw [BitVec.toNat_sub_of_le hle]
  omega

theorem HighestGap.long {gaps : List Gap} {n : Nat} {g : Gap} (h : HighestGap gaps n g) :
    n < g.size := by
  obtain ⟨-, -, -, hlong, -⟩ := h
  exact hlong

theorem HighestGap.unique {gaps : List Gap} {n : Nat} {g g' : Gap} (h : HighestGap gaps n g)
    (h' : HighestGap gaps n g') : g = g' := by
  obtain ⟨below, above, rfl, hlong, habove⟩ := h
  obtain ⟨below', above', heq, hlong', habove'⟩ := h'
  rcases List.append_eq_append_iff.mp heq with ⟨as, -, hcons⟩ | ⟨as, -, hcons⟩
  · cases as with
    | nil => exact (List.cons.inj hcons).1
    | cons x as =>
      have hmem : g' ∈ above := by
        rw [(List.cons.inj hcons).2]
        exact List.mem_append_right _ List.mem_cons_self
      exact absurd hlong' (Nat.not_lt.mpr (habove g' hmem))
  · cases as with
    | nil => exact (List.cons.inj hcons).1.symm
    | cons x as =>
      have hmem : g ∈ above' := by
        rw [(List.cons.inj hcons).2]
        exact List.mem_append_right _ List.mem_cons_self
      exact absurd hlong (Nat.not_lt.mpr (habove' g hmem))

/-- The address found in a gap is not 0. -/
theorem HighestGap.found_ne_zero {gaps : List Gap} {len : Word} {g : Gap}
    (h : HighestGap gaps len.toNat g) : g.high - len ≠ 0 := by
  intro hzero
  have hinside := (Gap.offset h.long).2
  rw [hzero] at hinside
  exact Nat.not_lt_zero _ hinside

/-- The search asserts that the range at the address found is eligible, or it finds
nothing. -/
theorem searchFreeMmapRegion_cases {t : RegionTable} (horder : RegionsInOrder t.pmrOps)
    (size : Word) :
    (∃ g, HighestGap t.gaps (size + 4096).toNat g ∧
      searchFreeMmapRegion t size = (do
        check (isRangeEligible t (g.high - (size + 4096)) (g.high - (size + 4096) + size))
        return g.high - (size + 4096))) ∨
    (∀ g ∈ t.gaps, g.size ≤ (size + 4096).toNat) ∧ searchFreeMmapRegion t size = .ok 0 := by
  have hloop := freeMmapLoop_spec [] (size + 4096) horder
  rw [List.append_nil] at hloop
  rcases hloop with ⟨g, hg, hloop⟩ | ⟨hnone, hloop⟩
  · refine Or.inl ⟨g, hg, ?_⟩
    rw [searchFreeMmapRegion, RegionTable.nrPmrOps, hloop, ok_bind, if_pos hg.found_ne_zero]
  · refine Or.inr ⟨hnone, ?_⟩
    rw [searchFreeMmapRegion, RegionTable.nrPmrOps, hloop, ok_bind, if_neg (by simp)]
    rfl

@[simp] theorem isRangeEligible_iff {t : RegionTable} {low high : Word} :
    isRangeEligible t low high = true ↔
      ∀ r ∈ t.pmrOps, r.addrHigh ≤ low ∨ high ≤ r.addrLow := by
  simp [isRangeEligible]

/-- A range inside a gap is eligible. -/
theorem isRangeEligible_of_gap {t : RegionTable} {g : Gap} {low high : Word}
    (horder : RegionsInOrder t.pmrOps) (hg : g ∈ t.gaps) (hlow : g.low ≤ low)
    (hhigh : high ≤ g.high) : isRangeEligible t low high = true := by
  obtain ⟨-, -, hapart⟩ := gaps_apart horder hg
  rw [isRangeEligible_iff]
  intro r hr
  rcases hapart r hr with hr | hr
  · exact Or.inl (by bv_omega)
  · exact Or.inr (by bv_omega)

theorem toNat_add_page {size : Word} (hsize : size.toNat + 4096 < 2 ^ 32) :
    (size + 4096).toNat = size.toNat + 4096 := by
  have hpage : (4096 : Word).toNat = 4096 := rfl
  rw [BitVec.toNat_add, hpage, Nat.mod_eq_of_lt hsize]

/-- The address found for a size that leaves room for the spare page: the range at the
rounded address lies strictly inside the highest gap that is long enough. -/
theorem Gap.rounded {g : Gap} {size : Word} (hsize : size.toNat + 4096 < 2 ^ 32)
    (hlong : (size + 4096).toNat < g.size) :
    (g.high - (size + 4096)).toNat = g.high.toNat - size.toNat - 4096 ∧
      (pageRoundup (g.high - (size + 4096))).toNat =
        ((g.high - (size + 4096)).toNat + 4095) / 4096 * 4096 ∧
      g.low.toNat < (pageRoundup (g.high - (size + 4096))).toNat ∧
      (pageRoundup (g.high - (size + 4096))).toNat + size.toNat < g.high.toNat := by
  have hlen := toNat_add_page hsize
  obtain ⟨hoffset, hinside⟩ := Gap.offset hlong
  unfold Gap.size at hlong
  have hround := toNat_pageRoundup (g.high - (size + 4096))
  have hlt := g.high.isLt
  rw [hlen] at hlong hoffset
  generalize (g.high - (size + 4096)).toNat = f at *
  generalize (pageRoundup (g.high - (size + 4096))).toNat = a at *
  omega

/-- The range that the search asserts to be eligible lies in the gap. -/
theorem isRangeEligible_of_search {t : RegionTable} {g : Gap} {size : Word}
    (horder : RegionsInOrder t.pmrOps) (hg : HighestGap t.gaps (size + 4096).toNat g)
    (hsize : size.toNat + 4096 < 2 ^ 32) :
    isRangeEligible t (g.high - (size + 4096)) (g.high - (size + 4096) + size) = true := by
  obtain ⟨hoffset, hinside⟩ := Gap.offset hg.long
  have hlen := toNat_add_page hsize
  refine isRangeEligible_of_gap horder hg.mem (Nat.le_of_lt hinside) ?_
  show (g.high - (size + 4096) + size).toNat ≤ g.high.toNat
  have hlt := g.high.isLt
  rw [BitVec.toNat_add, hoffset, hlen]
  omega

/-- The search for a size that leaves room for the spare page returns. -/
theorem searchFreeMmapRegion_spec {t : RegionTable} (horder : RegionsInOrder t.pmrOps)
    {size : Word} (hsize : size.toNat + 4096 < 2 ^ 32) :
    (∃ g, HighestGap t.gaps (size + 4096).toNat g ∧
      searchFreeMmapRegion t size = .ok (g.high - (size + 4096)) ∧
      g.high - (size + 4096) ≠ 0) ∨
    (∀ g ∈ t.gaps, g.size ≤ (size + 4096).toNat) ∧ searchFreeMmapRegion t size = .ok 0 := by
  refine (searchFreeMmapRegion_cases horder size).imp ?_ id
  rintro ⟨g, hg, hsearch⟩
  rw [check_true (isRangeEligible_of_search horder hg hsize)] at hsearch
  exact ⟨g, hg, hsearch, hg.found_ne_zero⟩

/-- For every table in order and every size below the last page and one byte, the search
returns.  The range at a non-zero address it finds, rounded up, lies strictly inside the
highest gap longer than the size and a page, and it finds 0 only if there is no such
gap. -/
theorem searchFreeMmapRegion_gap {t : RegionTable} (horder : RegionsInOrder t.pmrOps)
    {size : Word} (hsize : size.toNat ≤ 2 ^ 32 - 4097) :
    ∃ f, searchFreeMmapRegion t size = .ok f ∧
      (f ≠ 0 → ∃ g, HighestGap t.gaps (size.toNat + 4096) g ∧
        (pageRoundup f).toNat = (f.toNat + 4095) / 4096 * 4096 ∧
        g.low.toNat < (pageRoundup f).toNat ∧
        (pageRoundup f).toNat + size.toNat < g.high.toNat) ∧
      (f = 0 → ∀ g ∈ t.gaps, g.size ≤ size.toNat + 4096) := by
  have hwrap : size.toNat + 4096 < 2 ^ 32 := by omega
  have hspec := searchFreeMmapRegion_spec horder hwrap
  rcases hspec with ⟨g, hg, hsearch, hne⟩ | ⟨hnone, hsearch⟩
  · obtain ⟨-, hinside⟩ := Gap.rounded hwrap hg.long
    rw [toNat_add_page hwrap] at hg
    exact ⟨_, hsearch, fun _ => ⟨g, hg, hinside⟩, fun hzero => absurd hzero hne⟩
  · rw [toNat_add_page hwrap] at hnone
    exact ⟨0, hsearch, fun hne => absurd rfl hne, fun _ => hnone⟩

/-- A page below the stack. -/
theorem searchFreeMmapRegion_gap_stack :
    RegionsInOrder stackTable.pmrOps ∧
      ∃ f, searchFreeMmapRegion stackTable 4096 = .ok f ∧
        (f ≠ 0 → ∃ g, HighestGap stackTable.gaps 8192 g ∧
          (pageRoundup f).toNat = (f.toNat + 4095) / 4096 * 4096 ∧
          g.low.toNat < (pageRoundup f).toNat ∧ (pageRoundup f).toNat + 4096 < g.high.toNat) ∧
        (f = 0 → ∀ g ∈ stackTable.gaps, g.size ≤ 8192) :=
  ⟨stackTable_inOrder, searchFreeMmapRegion_gap stackTable_inOrder (by decide)⟩

/-! ## Anonymous mappings -/

/-- No region contains one of the `len` addresses from `low` on. -/
def RegionTable.Free (t : RegionTable) (low len : Nat) : Prop :=
  ∀ r ∈ t.pmrOps, ∀ address : Word, r.Contains address →
    ¬ (low ≤ address.toNat ∧ address.toNat < low + len)

/-- A range is free if each region ends below it or starts above it. -/
theorem free_of_apart {t : RegionTable} {low len : Nat}
    (h : ∀ r ∈ t.pmrOps, r.addrHigh.toNat ≤ low ∨ low + len ≤ r.addrLow.toNat) :
    t.Free low len := by
  rintro r hr address ⟨hlow, hhigh⟩ ⟨h1, h2⟩
  have hlow' : r.addrLow.toNat ≤ address.toNat := hlow
  have hhigh' : address.toNat < r.addrHigh.toNat := hhigh
  have hapart := h r hr
  omega

theorem apart_of_free {t : RegionTable} {low len : Nat} (horder : RegionsInOrder t.pmrOps)
    (hlen : 0 < len) (hfree : t.Free low len) {r : PmRegion} (hr : r ∈ t.pmrOps) :
    r.addrHigh.toNat ≤ low ∨ low + len ≤ r.addrLow.toNat := by
  by_contra hnot
  rw [not_or, Nat.not_le, Nat.not_le] at hnot
  have hnonempty : r.addrLow.toNat < r.addrHigh.toNat := horder.nonempty r hr
  -- The first common address is the higher one of the two starts.
  rcases Nat.le_total low r.addrLow.toNat with hle | hle
  · exact hfree r hr r.addrLow ⟨BitVec.le_refl _, hnonempty⟩ ⟨hle, hnot.2⟩
  · have hlt : low < 2 ^ 32 := Nat.lt_trans hnot.1 r.addrHigh.isLt
    have htoNat : (BitVec.ofNat 32 low).toNat = low := by
      rw [BitVec.toNat_ofNat, Nat.mod_eq_of_lt hlt]
    refine hfree r hr (BitVec.ofNat 32 low) ⟨?_, ?_⟩ ⟨?_, ?_⟩
    · show r.addrLow.toNat ≤ (BitVec.ofNat 32 low).toNat
      rw [htoNat]
      exact hle
    · show (BitVec.ofNat 32 low).toNat < r.addrHigh.toNat
      rw [htoNat]
      exact hnot.1
    · rw [htoNat]
    · rw [htoNat]
      omega

section Mmap

variable {heap : HostHeap} {vm : VirtualMemory} {proposalAddr len prot flags a : Word}
  {p : HostPointer}

/-- A mapping is set up: the address is that of a page, the range ends inside the address
space and was free, and the table has one region more. -/
structure MappedAt (vm vm' : VirtualMemory) (a len flags : Word) (p : HostPointer) : Prop where
  aligned : a.toNat % 4096 = 0
  inside : a.toNat + len.toNat ≤ 2 ^ 32
  free : vm.regions.Free a.toNat len.toNat
  added : ∃ l₁ l₂, vm.regions.pmrOps = l₁ ++ l₂ ∧
    vm'.regions.pmrOps = l₁ ++ ⟨a, a + len, mprotOfFlags flags, some p⟩ :: l₂

/-- The contract of an anonymous mapping: the call returns, it fails and changes nothing or
it sets up a mapping, and it maps at the hint if the range there is free. -/
def MmapContract (heap : HostHeap) (vm : VirtualMemory) (proposalAddr len prot flags : Word)
    (p : HostPointer) : Prop :=
  ∃ rv heap' vm', doMmap heap vm proposalAddr len prot flags (some p) = .ok (rv, heap', vm') ∧
    (rv = enomem ∧ heap' = heap ∧ vm' = vm ∨ MappedAt vm vm' rv len flags p) ∧
    (pageRoundup proposalAddr ≠ 0 → (pageRoundup proposalAddr).toNat + len.toNat ≤ 2 ^ 32 →
      vm.regions.Free (pageRoundup proposalAddr).toNat len.toNat → rv = pageRoundup proposalAddr)

/-- The hint is taken. -/
def HintEligible (t : RegionTable) (proposalAddr len : Word) : Prop :=
  proposalAddr ≠ 0 ∧
    isRangeEligible t (pageRoundup proposalAddr) (pageRoundup proposalAddr + len) = true

instance (t : RegionTable) (proposalAddr len : Word) :
    Decidable (HintEligible t proposalAddr len) :=
  inferInstanceAs (Decidable (_ ∧ _))

theorem doMmap_eq (hlen : len ≠ 0) (hflags : flags &&& mapAnonymous ≠ 0) :
    doMmap heap vm proposalAddr len prot flags (some p) =
      allocateMmapRegion heap vm proposalAddr len (mprotOfFlags flags) (some p) := by
  rw [doMmap, if_neg hlen, if_pos hflags]

/-- The region that `mmap_setup` registers has the buffer that was allocated. -/
theorem mmapSetup_register {heap' : HostHeap} {vm' : VirtualMemory}
    (h : mmapSetup heap vm a len flags none (some p) = .ok (heap', vm')) :
    registerPmRegionOperation vm.regions ⟨a, a + len, flags, some p⟩ = .ok vm'.regions := by
  simp only [mmapSetup, HostHeap.preallocatePhysicalMemory, bind_eq_ok, pure_eq_ok,
    Except.ok.injEq, Prod.mk.injEq] at h
  obtain ⟨regions, hregister, -, rfl⟩ := h
  exact hregister

/-- A mapping that is set up neither wraps nor overlaps a region. -/
theorem apart_of_doMmap (horder : RegionsInOrder vm.regions.pmrOps) (hlen : len ≠ 0)
    (hflags : flags &&& mapAnonymous ≠ 0)
    (heligible : eligibleAddress vm.regions proposalAddr len = .ok (some a))
    (h : ∃ s, doMmap heap vm proposalAddr len prot flags (some p) = .ok s) :
    a.toNat + len.toNat < 2 ^ 32 ∧
      ∀ r ∈ vm.regions.pmrOps, r.addrHigh ≤ a ∨ a + len ≤ r.addrLow := by
  obtain ⟨s, hs⟩ := h
  rw [doMmap_eq hlen hflags, allocateMmapRegion, heligible, ok_bind] at hs
  obtain ⟨⟨heap', vm'⟩, hsetup, -⟩ := bind_eq_ok.mp hs
  obtain ⟨l₁, l₂, hl, -, hpmr, hbelow, habove⟩ :=
    registerPmRegionOperation_ok (mmapSetup_register hsetup) horder
  constructor
  · have hlt : a.toNat < (a + len).toNat := hpmr
    rw [BitVec.toNat_add] at hlt
    have := a.isLt
    have := len.isLt
    omega
  · intro r hr
    rw [hl] at hr
    rcases List.mem_append.mp hr with hr | hr
    · exact Or.inl (hbelow r hr)
    · exact Or.inr (habove r hr)

/-- A mapping at a free address that does not wrap is set up. -/
theorem mapped_of_apart (horder : RegionsInOrder vm.regions.pmrOps)
    (hroom : vm.regions.nrPmrOps < maxVmaNr) (hlen : len ≠ 0)
    (hflags : flags &&& mapAnonymous ≠ 0)
    (heligible : eligibleAddress vm.regions proposalAddr len = .ok (some a))
    (haligned : a.toNat % 4096 = 0) (hinside : a.toNat + len.toNat < 2 ^ 32)
    (hapart : ∀ r ∈ vm.regions.pmrOps, r.addrHigh ≤ a ∨ a + len ≤ r.addrLow) :
    ∃ heap' vm', doMmap heap vm proposalAddr len prot flags (some p) = .ok (a, heap', vm') ∧
      MappedAt vm vm' a len flags p := by
  have hend : (a + len).toNat = a.toNat + len.toNat := by
    rw [BitVec.toNat_add, Nat.mod_eq_of_lt hinside]
  have hpos : 0 < len.toNat :=
    Nat.pos_of_ne_zero fun hzero => hlen (BitVec.eq_of_toNat_eq hzero)
  obtain ⟨l₁, l₂, hl, hbelow, habove⟩ := horder.split hapart
  have htable : vm.regions = ⟨l₁ ++ l₂, vm.regions.stale⟩ := by rw [← hl]
  have hregister : registerPmRegionOperation vm.regions
      ⟨a, a + len, mprotOfFlags flags, some p⟩ =
        .ok ⟨l₁ ++ ⟨a, a + len, mprotOfFlags flags, some p⟩ :: l₂, vm.regions.stale.tail⟩ := by
    rw [RegionTable.nrPmrOps, hl] at hroom
    rw [hl] at horder
    rw [htable]
    refine registerPmRegionOperation_returns horder ?_ hbelow habove
      (Nat.lt_trans hroom (by decide))
    show a.toNat < (a + len).toNat
    omega
  rw [doMmap_eq hlen hflags, allocateMmapRegion, heligible, ok_bind]
  simp only [mmapSetup, HostHeap.preallocatePhysicalMemory, hregister, ok_bind, pure_eq_ok]
  refine ⟨_, _, rfl, haligned, Nat.le_of_lt hinside, free_of_apart fun r hr => ?_, l₁, l₂, hl, rfl⟩
  rw [← hend]
  exact hapart r hr

/-- A free range at a hint that does not wrap is eligible. -/
theorem hintEligible_of_free (horder : RegionsInOrder vm.regions.pmrOps) (hlen : len ≠ 0)
    (hne : pageRoundup proposalAddr ≠ 0)
    (hinside : (pageRoundup proposalAddr).toNat + len.toNat ≤ 2 ^ 32)
    (hfree : vm.regions.Free (pageRoundup proposalAddr).toNat len.toNat) :
    HintEligible vm.regions proposalAddr len := by
  have hpos : 0 < len.toNat :=
    Nat.pos_of_ne_zero fun hzero => hlen (BitVec.eq_of_toNat_eq hzero)
  refine ⟨?_, ?_⟩
  · rintro rfl
    exact hne rfl
  · rw [isRangeEligible_iff]
    intro r hr
    refine (apart_of_free horder hpos hfree hr).imp id fun habove => ?_
    -- The end of the range is exact, or it wraps to 0.
    show (pageRoundup proposalAddr + len).toNat ≤ r.addrLow.toNat
    rw [BitVec.toNat_add]
    omega

theorem pageRoundup_aligned (a : Word) : (pageRoundup a).toNat % 4096 = 0 := by
  rw [toNat_pageRoundup]
  omega

theorem eligibleAddress_hint {t : RegionTable} (hhint : HintEligible t proposalAddr len) :
    eligibleAddress t proposalAddr len = .ok (some (pageRoundup proposalAddr)) := by
  exact if_pos hhint

theorem eligibleAddress_found {t : RegionTable} {f : Word}
    (hhint : ¬ HintEligible t proposalAddr len) (hsearch : searchFreeMmapRegion t len = .ok f)
    (hne : f ≠ 0) : eligibleAddress t proposalAddr len = .ok (some (pageRoundup f)) := by
  refine (if_neg hhint).trans ?_
  rw [hsearch, ok_bind, if_pos hne]
  rfl

theorem eligibleAddress_none {t : RegionTable} (hhint : ¬ HintEligible t proposalAddr len)
    (hsearch : searchFreeMmapRegion t len = .ok 0) :
    eligibleAddress t proposalAddr len = .ok none := by
  refine (if_neg hhint).trans ?_
  rw [hsearch, ok_bind, if_neg (by simp)]
  rfl

/-- At an eligible hint the contract holds unless the range ends at 2^32 or behind. -/
theorem mmapContract_hint (horder : RegionsInOrder vm.regions.pmrOps)
    (hroom : vm.regions.nrPmrOps < maxVmaNr) (hlen : len ≠ 0)
    (hflags : flags &&& mapAnonymous ≠ 0) (hhint : HintEligible vm.regions proposalAddr len) :
    MmapContract heap vm proposalAddr len prot flags p ↔
      (pageRoundup proposalAddr).toNat + len.toNat < 2 ^ 32 := by
  have heligible := eligibleAddress_hint hhint
  constructor
  · rintro ⟨rv, heap', vm', hmmap, -⟩
    exact (apart_of_doMmap horder hlen hflags heligible ⟨_, hmmap⟩).1
  · intro hinside
    obtain ⟨heap', vm', hmmap, hmapped⟩ := mapped_of_apart horder hroom hlen hflags heligible
      (pageRoundup_aligned _) hinside (isRangeEligible_iff.mp hhint.2)
    exact ⟨_, heap', vm', hmmap, Or.inr hmapped, fun _ _ _ => rfl⟩

/-- Without an eligible hint, a mapping that is set up meets the contract. -/
theorem mmapContract_of_apart (horder : RegionsInOrder vm.regions.pmrOps)
    (hroom : vm.regions.nrPmrOps < maxVmaNr) (hlen : len ≠ 0)
    (hflags : flags &&& mapAnonymous ≠ 0) (hhint : ¬ HintEligible vm.regions proposalAddr len)
    (heligible : eligibleAddress vm.regions proposalAddr len = .ok (some a))
    (haligned : a.toNat % 4096 = 0) (hinside : a.toNat + len.toNat < 2 ^ 32)
    (hapart : ∀ r ∈ vm.regions.pmrOps, r.addrHigh ≤ a ∨ a + len ≤ r.addrLow) :
    MmapContract heap vm proposalAddr len prot flags p := by
  obtain ⟨heap', vm', hmmap, hmapped⟩ :=
    mapped_of_apart horder hroom hlen hflags heligible haligned hinside hapart
  exact ⟨_, heap', vm', hmmap, Or.inr hmapped, fun hne hend hfree =>
    absurd (hintEligible_of_free horder hlen hne hend hfree) hhint⟩

/-- Without an eligible hint and without a gap, the call fails and changes nothing. -/
theorem mmapContract_of_none (horder : RegionsInOrder vm.regions.pmrOps) (hlen : len ≠ 0)
    (hflags : flags &&& mapAnonymous ≠ 0) (hhint : ¬ HintEligible vm.regions proposalAddr len)
    (hsearch : searchFreeMmapRegion vm.regions len = .ok 0) :
    MmapContract heap vm proposalAddr len prot flags p := by
  have hmmap : doMmap heap vm proposalAddr len prot flags (some p) = .ok (enomem, heap, vm) := by
    rw [doMmap_eq hlen hflags, allocateMmapRegion, eligibleAddress_none hhint hsearch]
    rfl
  exact ⟨_, heap, vm, hmmap, Or.inl ⟨rfl, rfl, rfl⟩, fun hne hend hfree =>
    absurd (hintEligible_of_free horder hlen hne hend hfree) hhint⟩

/-- Without an eligible hint, a length that leaves room for the spare page meets the
contract. -/
theorem mmapContract_of_room (horder : RegionsInOrder vm.regions.pmrOps)
    (hroom : vm.regions.nrPmrOps < maxVmaNr) (hlen : len ≠ 0)
    (hflags : flags &&& mapAnonymous ≠ 0) (hhint : ¬ HintEligible vm.regions proposalAddr len)
    (hpage : len.toNat + 4096 < 2 ^ 32) :
    MmapContract heap vm proposalAddr len prot flags p := by
  rcases searchFreeMmapRegion_spec horder hpage with ⟨g, hg, hsearch, hne⟩ | ⟨-, hsearch⟩
  · obtain ⟨-, -, hlow, hhigh⟩ := Gap.rounded hpage hg.long
    have heligible := eligibleAddress_found hhint hsearch hne
    have haligned := pageRoundup_aligned (g.high - (len + 4096))
    generalize pageRoundup (g.high - (len + 4096)) = a at hlow hhigh heligible haligned
    have hend : a.toNat + len.toNat < 2 ^ 32 := Nat.lt_trans hhigh g.high.isLt
    have hhigh' : a + len ≤ g.high := by
      show (a + len).toNat ≤ g.high.toNat
      rw [BitVec.toNat_add, Nat.mod_eq_of_lt hend]
      exact Nat.le_of_lt hhigh
    have hrange := isRangeEligible_of_gap horder hg.mem (Nat.le_of_lt hlow) hhigh'
    exact mmapContract_of_apart horder hroom hlen hflags hhint heligible haligned hend
      (isRangeEligible_iff.mp hrange)
  · exact mmapContract_of_none horder hlen hflags hhint hsearch

/-- A length in the last page of the address space, with the spare page. -/
theorem toNat_add_page_wraps (hpage : 2 ^ 32 ≤ len.toNat + 4096) :
    (len + 4096).toNat = len.toNat + 4096 - 2 ^ 32 := by
  have hsize : (4096 : Word).toNat = 4096 := rfl
  have hlt := len.isLt
  rw [BitVec.toNat_add, hsize]
  omega

/-- If the length with the spare page wraps, the address found has no room for the length
unless it rounds up to 0. -/
theorem Gap.rounded_wraps {g : Gap} (hpage : 2 ^ 32 ≤ len.toNat + 4096)
    (hlong : (len + 4096).toNat < g.size) :
    ((pageRoundup (g.high - (len + 4096))).toNat + len.toNat < 2 ^ 32 ↔ len.toNat < g.high.toNat) ∧
      (len.toNat < g.high.toNat → pageRoundup (g.high - (len + 4096)) = 0) := by
  obtain ⟨hoffset, hinside⟩ := Gap.offset hlong
  have hwraps := toNat_add_page_wraps hpage
  have hround := toNat_pageRoundup (g.high - (len + 4096))
  have hlt := g.high.isLt
  have hlt' := len.isLt
  rw [hwraps] at hoffset
  have hzero : len.toNat < g.high.toNat → (pageRoundup (g.high - (len + 4096))).toNat = 0 := by
    intro h
    omega
  refine ⟨?_, fun h => BitVec.eq_of_toNat_eq (hzero h)⟩
  constructor
  · intro h
    omega
  · intro h
    have := hzero h
    omega

/-- What the search asserts and returns for the highest gap. -/
theorem searchFreeMmapRegion_of_gap {t : RegionTable} {g : Gap} (horder : RegionsInOrder t.pmrOps)
    (hg : HighestGap t.gaps (len + 4096).toNat g) :
    searchFreeMmapRegion t len = (do
      check (isRangeEligible t (g.high - (len + 4096)) (g.high - (len + 4096) + len))
      return g.high - (len + 4096)) := by
  rcases searchFreeMmapRegion_cases horder len with ⟨g', hg', hsearch⟩ | ⟨hnone, -⟩
  · rw [hg'.unique hg] at hsearch
    exact hsearch
  · exact absurd hg.long (Nat.not_lt.mpr (hnone g hg.mem))

section Wraps

variable {g : Gap} (horder : RegionsInOrder vm.regions.pmrOps) (hlen : len ≠ 0)
  (hflags : flags &&& mapAnonymous ≠ 0) (hhint : ¬ HintEligible vm.regions proposalAddr len)
  (hpage : 2 ^ 32 ≤ len.toNat + 4096)
  (hg : HighestGap vm.regions.gaps (len + 4096).toNat g)

include horder hlen hflags hhint hpage hg

/-- A mapping whose length wraps with the spare page is made at 0, or not at all. -/
theorem start_of_mmapContract (h : MmapContract heap vm proposalAddr len prot flags p) :
    (∀ r ∈ vm.regions.pmrOps, len ≤ r.addrLow) ∧ g.high ≠ len := by
  obtain ⟨rv, heap', vm', hmmap, -⟩ := h
  have hsearch := searchFreeMmapRegion_of_gap horder hg
  obtain ⟨hfits, hzero⟩ := Gap.rounded_wraps hpage hg.long
  have heligible : eligibleAddress vm.regions proposalAddr len =
      .ok (some (pageRoundup (g.high - (len + 4096)))) := by
    by_cases hassert : isRangeEligible vm.regions (g.high - (len + 4096))
        (g.high - (len + 4096) + len) = true
    · rw [check_true hassert] at hsearch
      exact eligibleAddress_found hhint hsearch hg.found_ne_zero
    · have habort : eligibleAddress vm.regions proposalAddr len = .error .assertion := by
        refine (if_neg hhint).trans ?_
        rw [hsearch, check_eq_error.mpr ⟨hassert, rfl⟩]
        rfl
      rw [doMmap_eq hlen hflags, allocateMmapRegion, habort] at hmmap
      cases hmmap
  obtain ⟨hinside, hapart⟩ := apart_of_doMmap horder hlen hflags heligible ⟨_, hmmap⟩
  have hhigh := hfits.mp hinside
  rw [hzero hhigh] at hapart
  refine ⟨fun r hr => ?_, fun heq => ?_⟩
  · have hnonempty := horder.nonempty r hr
    rcases hapart r hr with hle | hle
    · bv_omega
    · bv_omega
  · rw [heq] at hhigh
    exact Nat.lt_irrefl _ hhigh

theorem mmapContract_of_start (hroom : vm.regions.nrPmrOps < maxVmaNr)
    (hstart : ∀ r ∈ vm.regions.pmrOps, len ≤ r.addrLow) (hne : g.high ≠ len) :
    MmapContract heap vm proposalAddr len prot flags p := by
  have hsearch := searchFreeMmapRegion_of_gap horder hg
  obtain ⟨hfits, hzero⟩ := Gap.rounded_wraps hpage hg.long
  obtain ⟨-, ⟨r, hr, hrHigh⟩, -⟩ := gaps_apart horder hg.mem
  have hhigh : len.toNat < g.high.toNat := by
    have hle : len.toNat ≤ g.high.toNat := by
      rw [← hrHigh]
      exact hstart r hr
    exact Nat.lt_of_le_of_ne hle fun heq => hne (BitVec.eq_of_toNat_eq heq.symm)
  -- The range that is asserted to be eligible ends a page below the gap's end.
  have hassert : isRangeEligible vm.regions (g.high - (len + 4096))
      (g.high - (len + 4096) + len) = true := by
    rw [isRangeEligible_iff]
    intro x hx
    have hx := hstart x hx
    exact Or.inr (by bv_omega)
  rw [check_true hassert] at hsearch
  have heligible := eligibleAddress_found hhint hsearch hg.found_ne_zero
  rw [hzero hhigh] at heligible hfits
  refine mmapContract_of_apart horder hroom hlen hflags hhint heligible rfl (hfits.mpr hhigh) ?_
  intro x hx
  have hend : (0 : Word) + len = len := BitVec.zero_add len
  rw [hend]
  exact Or.inr (hstart x hx)

/-- Without an eligible hint, a length that wraps with the spare page meets the contract in
a gap only if it can be mapped at 0 and the gap does not end where that mapping does. -/
theorem mmapContract_wraps (hroom : vm.regions.nrPmrOps < maxVmaNr) :
    MmapContract heap vm proposalAddr len prot flags p ↔
      (∀ r ∈ vm.regions.pmrOps, len ≤ r.addrLow) ∧ g.high ≠ len := by
  constructor
  · exact start_of_mmapContract horder hlen hflags hhint hpage hg
  · rintro ⟨hstart, hne⟩
    exact mmapContract_of_start horder hlen hflags hhint hpage hg hroom hstart hne

end Wraps

/-- No address computation of a mapping wraps: not the end at an eligible hint, and not the
length with the spare page of the search, unless no gap is long enough for what it wraps to
or the mapping goes to 0. -/
def MmapInside (t : RegionTable) (proposalAddr len : Word) : Prop :=
  if HintEligible t proposalAddr len then (pageRoundup proposalAddr).toNat + len.toNat < 2 ^ 32
  else len.toNat + 4096 < 2 ^ 32 ∨ (∀ g ∈ t.gaps, g.size ≤ (len + 4096).toNat) ∨
    (∀ r ∈ t.pmrOps, len ≤ r.addrLow) ∧
      ∃ g, HighestGap t.gaps (len + 4096).toNat g ∧ g.high ≠ len

/-- On a table in order with a free slot, an anonymous mapping of a non-zero length with any
hint meets its contract if and only if no address computation wraps. -/
theorem mmapContract_iff (horder : RegionsInOrder vm.regions.pmrOps)
    (hroom : vm.regions.nrPmrOps < maxVmaNr) (hlen : len ≠ 0)
    (hflags : flags &&& mapAnonymous ≠ 0) :
    MmapContract heap vm proposalAddr len prot flags p ↔
      MmapInside vm.regions proposalAddr len := by
  unfold MmapInside
  split
  next hhint => exact mmapContract_hint horder hroom hlen hflags hhint
  next hhint =>
    by_cases hpage : len.toNat + 4096 < 2 ^ 32
    · exact iff_of_true (mmapContract_of_room horder hroom hlen hflags hhint hpage)
        (Or.inl hpage)
    · rcases searchFreeMmapRegion_cases horder len with ⟨g, hg, -⟩ | ⟨hnone, hsearch⟩
      · rw [mmapContract_wraps horder hlen hflags hhint (Nat.not_lt.mp hpage) hg hroom]
        constructor
        · rintro ⟨hstart, hne⟩
          exact Or.inr (Or.inr ⟨hstart, g, hg, hne⟩)
        · rintro (hroom' | hnone | ⟨hstart, g', hg', hne⟩)
          · exact absurd hroom' hpage
          · exact absurd hg.long (Nat.not_lt.mpr (hnone g hg.mem))
          · exact ⟨hstart, by rw [hg.unique hg']; exact hne⟩
      · exact iff_of_true (mmapContract_of_none horder hlen hflags hhint hsearch)
          (Or.inr (Or.inl hnone))

end Mmap

/-- The memory of a guest with the stack alone. -/
def stackMemory : VirtualMemory := ⟨stackTable, none, some 0⟩

/-- A page with no hint, below the stack. -/
theorem mmapContract_stack :
    RegionsInOrder stackMemory.regions.pmrOps ∧
      MmapContract (fun _ => none) stackMemory 0 4096 3 (mapAnonymous ||| 3) 1 :=
  ⟨stackTable_inOrder,
    (mmapContract_iff stackTable_inOrder (by decide) (by decide) (by decide)).mpr
      (Or.inl (by decide))⟩

/-- All of the address space but one page looks like nothing to the search.  It finds room
at the start of the stack, where a region cannot be registered. -/
theorem mmap_wraps_stack :
    RegionsInOrder stackMemory.regions.pmrOps ∧
      doMmap (fun _ => none) stackMemory 0 0xfffff000 3 (mapAnonymous ||| 3) (some 1) =
        .error .assertion ∧
      ¬ MmapContract (fun _ => none) stackMemory 0 0xfffff000 3 (mapAnonymous ||| 3) 1 := by
  have habort : doMmap (fun _ => none) stackMemory 0 0xfffff000 3 (mapAnonymous ||| 3)
      (some 1) = .error .assertion := by
    have hrun : (doMmap (fun _ => none) stackMemory 0 0xfffff000 3 (mapAnonymous ||| 3)
        (some 1)).map (fun r => r.1) = .error .assertion := by
      decide +kernel
    cases h : doMmap (fun _ => none) stackMemory 0 0xfffff000 3 (mapAnonymous ||| 3) (some 1) with
    | ok s =>
      rw [h] at hrun
      cases hrun
    | error e =>
      rw [h] at hrun
      rw [Except.error.inj hrun]
  refine ⟨stackTable_inOrder, habort, ?_⟩
  rintro ⟨rv, heap', vm', hmmap, -⟩
  cases habort.symm.trans hmmap

end Hyrule
