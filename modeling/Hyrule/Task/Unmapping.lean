import Hyrule.Memory.Mapping
import Hyrule.Task.Isolation

/-!
# Removing a mapping

`munmap` looks up the region that contains the address and compares its length
with the one it is given.  Where the region starts is not compared.  The range
that is removed is therefore the region's, and it is the one named if and only if
the region starts at the address (`unmapsRange_iff`).

What is left of the table is compacted in place.  The regions keep their buffers,
and since no two regions share one, freeing the buffer of the removed region
leaves their bytes alone.
-/

namespace Hyrule

open Lib Lib.Result

variable {heap heap' : HostHeap} {vm vm' : VirtualMemory} {addr len rv : Word}

/-! ## The law -/

/-- Some region contains the address. -/
def RegionTable.Covers (t : RegionTable) (address : Word) : Prop :=
  ∃ r ∈ t.pmrOps, r.Contains address

/-- The address is one of the `len` addresses from `addr` on. -/
def InRange (addr len address : Word) : Prop :=
  addr.toNat ≤ address.toNat ∧ address.toNat < addr.toNat + len.toNat

/-- The bounds lie below or above the `len` addresses from `addr` on. -/
def OutOfRange (addr len : Word) (v : RegionView) : Bool :=
  decide (v.addrHigh.toNat ≤ addr.toNat ∨ addr.toNat + len.toNat ≤ v.addrLow.toNat)

/-- A call of `do_munmap` that returns 0 removes the addresses it names and leaves the other
regions with their bounds, flags and bytes.  A call that returns an error changes nothing. -/
def UnmapsRange (heap : HostHeap) (vm : VirtualMemory) (addr len : Word) : Prop :=
  ∀ rv heap' vm', doMunmap heap vm addr len = .ok (rv, heap', vm') →
    (rv = 0 →
      (∀ address, vm'.regions.Covers address ↔
        vm.regions.Covers address ∧ ¬ InRange addr len address) ∧
      memoryView heap' vm' = (memoryView heap vm).filter (OutOfRange addr len)) ∧
    (rv ≠ 0 → heap' = heap ∧ vm' = vm)

/-- A region of the length that contains the address starts there. -/
def StartsRegion (t : RegionTable) (addr len : Word) : Prop :=
  ∀ r ∈ t.pmrOps, r.Contains addr → r.addrHigh - r.addrLow = len → r.addrLow = addr

/-! ## The region that is removed -/

/-- A region of the length is removed at each of its addresses. -/
theorem doMunmap_of_contains {r : PmRegion} (heap : HostHeap)
    (horder : RegionsInOrder vm.regions.pmrOps) (hr : r ∈ vm.regions.pmrOps)
    (hcontains : r.Contains addr) (hlen : r.addrHigh - r.addrLow = len) :
    ∃ heap' vm', doMunmap heap vm addr len = .ok (0, heap', vm') := by
  obtain ⟨slot, hsearch, hslot⟩ := lookup_of_contains horder hr hcontains
  obtain ⟨hlt, -⟩ := List.getElem?_eq_some_iff.mp (searchPmRegionCallback_slot hsearch hslot)
  have hregistered : slot < (vm.regions.setSlot slot (vmaGenericReclaim heap r).2).nrPmrOps := by
    simp [RegionTable.setSlot, RegionTable.nrPmrOps, hlt]
  have hunregister : ∃ regions, unregisterPmRegion
      (vm.regions.setSlot slot (vmaGenericReclaim heap r).2) slot = .ok regions := by
    rw [unregisterPmRegion, check_true hregistered]
    exact ⟨_, rfl⟩
  obtain ⟨regions, hunregister⟩ := hunregister
  refine ⟨(vmaGenericReclaim heap r).1, { vm with regions }, ?_⟩
  rw [doMunmap, hsearch, ok_bind]
  dsimp only
  rw [hslot, ok_bind, if_neg (not_not.mpr hlen), hunregister]
  rfl

section Erase

variable {pmrOps : List PmRegion} {slot : Nat} {r : PmRegion}

/-- The regions below and above the one in a slot. -/
theorem RegionsInOrder.around (horder : RegionsInOrder pmrOps) (hr : pmrOps[slot]? = some r) :
    ∃ l₁ l₂, pmrOps = l₁ ++ r :: l₂ ∧ pmrOps.eraseIdx slot = l₁ ++ l₂ ∧
      (∀ x ∈ l₁, x.addrHigh ≤ r.addrLow) ∧ ∀ x ∈ l₂, r.addrHigh ≤ x.addrLow := by
  obtain ⟨hlt, rfl⟩ := List.getElem?_eq_some_iff.mp hr
  have hsplit : pmrOps = pmrOps.take slot ++ pmrOps[slot] :: pmrOps.drop (slot + 1) := by simp
  have hbelow := horder.below
  rw [hsplit] at hbelow
  obtain ⟨-, hpairs, hcross⟩ := List.pairwise_append.mp hbelow
  refine ⟨pmrOps.take slot, pmrOps.drop (slot + 1), hsplit, List.eraseIdx_eq_take_drop_succ _ _,
    fun x hx => hcross x hx _ List.mem_cons_self, (List.pairwise_cons.mp hpairs).1⟩

/-- Without a region, the table covers what it covered before but for the region. -/
theorem covers_erase {t t' : RegionTable} (horder : RegionsInOrder t.pmrOps)
    (hr : t.pmrOps[slot]? = some r) (hregions : t'.pmrOps = t.pmrOps.eraseIdx slot)
    (address : Word) : t'.Covers address ↔ t.Covers address ∧ ¬ r.Contains address := by
  obtain ⟨l₁, l₂, hl, herase, hbelow, habove⟩ := horder.around hr
  unfold RegionTable.Covers
  rw [hregions, herase, hl]
  constructor
  · rintro ⟨x, hx, hcontains⟩
    have hapart : x.addrHigh ≤ r.addrLow ∨ r.addrHigh ≤ x.addrLow :=
      (List.mem_append.mp hx).imp (hbelow x) (habove x)
    have hmem : x ∈ l₁ ++ r :: l₂ :=
      (List.Sublist.append_left (List.sublist_cons_self r l₂) l₁).subset hx
    refine ⟨⟨x, hmem, hcontains⟩, fun hremoved => ?_⟩
    unfold PmRegion.Contains at hcontains hremoved
    bv_omega
  · rintro ⟨⟨x, hx, hcontains⟩, hnot⟩
    have hne : x ≠ r := by
      rintro rfl
      exact hnot hcontains
    refine ⟨x, ?_, hcontains⟩
    simpa [hne] using hx

/-- The range that starts with a region and has its length ends with it. -/
theorem range_end (hnonempty : r.addrLow < r.addrHigh) (hlen : r.addrHigh - r.addrLow = len) :
    r.addrLow.toNat + len.toNat = r.addrHigh.toNat := by
  have hlt : r.addrLow.toNat < r.addrHigh.toNat := hnonempty
  rw [← hlen, BitVec.toNat_sub_of_le (by bv_omega)]
  omega

theorem inRange_iff_contains (hnonempty : r.addrLow < r.addrHigh)
    (hlen : r.addrHigh - r.addrLow = len) (address : Word) :
    InRange r.addrLow len address ↔ r.Contains address := by
  unfold InRange
  rw [range_end hnonempty hlen]
  exact Iff.rfl

/-- The views out of the range of a region are those of the other regions. -/
theorem filter_outOfRange (horder : RegionsInOrder pmrOps) (hr : pmrOps[slot]? = some r)
    (hlen : r.addrHigh - r.addrLow = len) (heap : HostHeap) :
    (pmrOps.map (PmRegion.view heap)).filter (OutOfRange r.addrLow len) =
      (pmrOps.eraseIdx slot).map (PmRegion.view heap) := by
  have hnonempty := horder.nonempty r (List.mem_of_getElem? hr)
  have hend := range_end hnonempty hlen
  obtain ⟨l₁, l₂, hl, herase, hbelow, habove⟩ := horder.around hr
  have hout : ∀ x : PmRegion, OutOfRange r.addrLow len (x.view heap) = true ↔
      x.addrHigh ≤ r.addrLow ∨ r.addrHigh ≤ x.addrLow := by
    intro x
    rw [OutOfRange, decide_eq_true_eq, hend]
    exact Iff.rfl
  have hremoved : ¬ OutOfRange r.addrLow len (r.view heap) = true := by
    rw [hout]
    bv_omega
  have hkept : ∀ x ∈ l₁ ++ l₂, OutOfRange r.addrLow len (x.view heap) = true := by
    intro x hx
    exact (hout x).mpr ((List.mem_append.mp hx).imp (hbelow x) (habove x))
  rw [herase, hl, List.map_append, List.map_cons, List.filter_append,
    List.filter_cons_of_neg hremoved, ← List.filter_append, ← List.map_append]
  refine List.filter_eq_self.mpr fun v hv => ?_
  obtain ⟨x, hx, rfl⟩ := List.mem_map.mp hv
  exact hkept x hx

end Erase

/-- Freeing the buffer of a region leaves the bytes of the other regions alone. -/
theorem memoryView_erase {slot : Nat} {r : PmRegion} (hr : vm.regions.pmrOps[slot]? = some r)
    (hnodup : (pointers vm.bases).Nodup)
    (hregions : vm'.regions.pmrOps = vm.regions.pmrOps.eraseIdx slot) :
    memoryView (vmaGenericReclaim heap r).1 vm' =
      (vm.regions.pmrOps.eraseIdx slot).map (PmRegion.view heap) := by
  rw [memoryView, hregions]
  refine List.map_congr_left fun x hx => view_congr fun q hq => ?_
  have hperm : (pointers (bases vm.regions.pmrOps)).Perm
      (pointers (r.owned ++ bases (vm.regions.pmrOps.eraseIdx slot))) := (bases_split hr).map _
  have hsplit := hperm.nodup_iff.mp hnodup
  rw [pointers, List.map_append, List.nodup_append] at hsplit
  have hother : q ∈ pointers (bases (vm.regions.pmrOps.eraseIdx slot)) :=
    mem_pointers_bases.mpr ⟨x, hx, hq⟩
  cases hbase : r.hostBase with
  | none => simp only [vmaGenericReclaim, hbase]
  | some p =>
    have hown : p ∈ pointers r.owned := mem_pointers.mpr ⟨_, mem_owned.mpr ⟨hbase, rfl⟩⟩
    have hne : q ≠ p := fun heq => hsplit.2.2 p hown q hother heq.symm
    simp only [vmaGenericReclaim, hbase, HostHeap.free, Function.update_of_ne hne]

/-! ## When the range is the one named -/

theorem unmapsRange_of_starts (horder : RegionsInOrder vm.regions.pmrOps)
    (hnodup : (pointers vm.bases).Nodup) (hstarts : StartsRegion vm.regions addr len) :
    UnmapsRange heap vm addr len := by
  intro rv heap' vm' h
  rcases doMunmap_cases h with
    ⟨hheap, hvm, hrv, -⟩ | ⟨slot, r, hr, hcontains, hheap, hregions, -, -, hlen, hrv⟩
  · refine ⟨fun hzero => ?_, fun _ => ⟨hheap, hvm⟩⟩
    rw [hrv] at hzero
    exact absurd hzero (by decide)
  · refine ⟨fun _ => ?_, fun hne => absurd hrv hne⟩
    have hmem := List.mem_of_getElem? hr
    obtain rfl := hstarts r hmem hcontains hlen
    constructor
    · intro address
      rw [inRange_iff_contains (horder.nonempty r hmem) hlen]
      exact covers_erase horder hr hregions address
    · rw [hheap, memoryView_erase hr hnodup hregions]
      exact (filter_outOfRange horder hr hlen heap).symm

theorem starts_of_unmapsRange (horder : RegionsInOrder vm.regions.pmrOps)
    (h : UnmapsRange heap vm addr len) : StartsRegion vm.regions addr len := by
  intro r hr hcontains hlen
  by_contra hne
  obtain ⟨heap', vm', hmunmap⟩ := doMunmap_of_contains heap horder hr hcontains hlen
  obtain ⟨hcovers, -⟩ := (h _ _ _ hmunmap).1 rfl
  rcases doMunmap_cases hmunmap with
    ⟨-, -, hrv, -⟩ | ⟨slot, r', hr', hcontains', -, hregions, -⟩
  · exact absurd hrv (by decide)
  · obtain rfl := contains_unique horder (List.mem_of_getElem? hr') hr hcontains' hcontains
    have hnonempty := horder.nonempty r' hr
    -- The first byte of the region lies below the range, and it is gone.
    have hfirst : r'.Contains r'.addrLow := ⟨BitVec.le_refl _, hnonempty⟩
    have hbelow : ¬ InRange addr len r'.addrLow := by
      rintro ⟨hle, -⟩
      have hge : r'.addrLow.toNat ≤ addr.toNat := hcontains.1
      exact hne (BitVec.eq_of_toNat_eq (Nat.le_antisymm hge hle))
    have hkept := (hcovers r'.addrLow).mpr ⟨⟨r', hr, hfirst⟩, hbelow⟩
    exact ((covers_erase horder hr' hregions _).mp hkept).2 hfirst

/-- In every reachable memory, `munmap` removes the range it names if and only if a region
of the length that contains the address starts there. -/
theorem unmapsRange_iff {root : CString} {s : Forest} (hreach : (forestRuns root).Reachable s)
    (t : TaskId) (addr len : Word) :
    UnmapsRange s.heap (s.vm t).memory addr len ↔
      StartsRegion (s.vm t).memory.regions addr len := by
  have hs := wellFormed_of_reachable hreach
  constructor
  · exact starts_of_unmapsRange (hs.inOrder t)
  · exact unmapsRange_of_starts (hs.inOrder t) (hs.isolated.holds t).nodup

/-! ## The stack -/

/-- The heap and the stack of a start-up. -/
theorem startUp_regions :
    ∃ s, (forestRuns (.ofBuffer [47, 115, 114, 118])).Reachable s ∧
      (s.vm 0).memory.regions.pmrOps =
        [⟨0xffff, 0x10000, programRead ||| programWrite, none⟩,
          ⟨0xdf800000, 0xe0000000, programRead ||| programWrite, some 0⟩] := by
  have hrun : (do
      let s ← applicationSandboxInit (bareBoot (.ofBuffer [47, 115, 114, 118])) (.lowest 8)
      return (s.vm 0).memory.regions.pmrOps) =
        .ok [⟨0xffff, 0x10000, programRead ||| programWrite, none⟩,
          ⟨0xdf800000, 0xe0000000, programRead ||| programWrite, some 0⟩] := by
    decide +kernel
  obtain ⟨s, hboot, hregions⟩ := bind_eq_ok.mp hrun
  exact ⟨s, .init ⟨_, _, rfl, hboot⟩, Except.ok.inj hregions⟩

/-- The stack is removed by its own bounds. -/
theorem unmapsRange_stack :
    ∃ s, (forestRuns (.ofBuffer [47, 115, 114, 118])).Reachable s ∧
      UnmapsRange s.heap (s.vm 0).memory 0xdf800000 0x800000 := by
  obtain ⟨s, hreach, hregions⟩ := startUp_regions
  refine ⟨s, hreach, (unmapsRange_iff hreach 0 0xdf800000 0x800000).mpr ?_⟩
  intro r hr
  rw [hregions] at hr
  revert r
  decide

/-- The length of the stack from its second page on names a range that ends a page behind
it.  The call returns 0 and removes the stack, with the first page of it. -/
theorem munmap_inside_stack :
    ∃ s, (forestRuns (.ofBuffer [47, 115, 114, 118])).Reachable s ∧
      (∃ heap' vm', doMunmap s.heap (s.vm 0).memory 0xdf801000 0x800000 =
          .ok (0, heap', vm') ∧
        (s.vm 0).memory.regions.Covers 0xdf800000 ∧ ¬ vm'.regions.Covers 0xdf800000) ∧
      ¬ InRange 0xdf801000 0x800000 0xdf800000 ∧
      ¬ UnmapsRange s.heap (s.vm 0).memory 0xdf801000 0x800000 := by
  obtain ⟨s, hreach, hregions⟩ := startUp_regions
  have horder := (wellFormed_of_reachable hreach).inOrder 0
  have hstack : (⟨0xdf800000, 0xe0000000, programRead ||| programWrite, some 0⟩ : PmRegion) ∈
      (s.vm 0).memory.regions.pmrOps := by
    rw [hregions]
    decide
  have hrange : ¬ InRange 0xdf801000 0x800000 0xdf800000 := by
    rintro ⟨hle, -⟩
    exact absurd hle (by decide)
  have hcontains : (⟨0xdf800000, 0xe0000000, programRead ||| programWrite, some 0⟩ :
      PmRegion).Contains 0xdf801000 := by
    decide
  obtain ⟨heap', vm', hmunmap⟩ : ∃ heap' vm',
      doMunmap s.heap (s.vm 0).memory 0xdf801000 0x800000 = .ok (0, heap', vm') :=
    doMunmap_of_contains s.heap horder hstack hcontains (by decide)
  have hcovers : (s.vm 0).memory.regions.Covers 0xdf800000 := ⟨_, hstack, by decide⟩
  have hgone : ¬ vm'.regions.Covers 0xdf800000 := by
    rcases doMunmap_cases hmunmap with
      ⟨-, -, hrv, -⟩ | ⟨slot, r, hr, hr', -, hregions', -⟩
    · exact absurd hrv (by decide)
    · obtain rfl := contains_unique horder (List.mem_of_getElem? hr) hstack hr' hcontains
      intro hkept
      exact ((covers_erase horder hr hregions' _).mp hkept).2 (by decide)
  refine ⟨s, hreach, ⟨heap', vm', hmunmap, hcovers, hgone⟩, hrange, fun h => hgone ?_⟩
  obtain ⟨hlaw, -⟩ := (h _ _ _ hmunmap).1 rfl
  exact (hlaw 0xdf800000).mpr ⟨hcovers, hrange⟩

end Hyrule
