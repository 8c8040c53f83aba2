import Hyrule.Memory.Buffers

/-!
# Accesses to guest memory

`direct_read` and `direct_write` look up the region of the first byte of an access
and hand the whole access to that region.  Here is what they do on a table in
order: they abort if no region contains the first byte, and otherwise access the
buffer of the region that does.

The lookup itself is exact but for the last address of the address space
(`lookupExact_iff`): the region of one byte there would end at 2^32, which wraps
to 0, and the comparator asserts that a region does not end before it starts.

Nothing looks at the last byte.  A region may end at any address, so an access
that starts inside a region may end behind it.  It is performed on the buffer of
the region all the same.  An access stays inside the region it found exactly if no
region contains its first byte and ends before its last one
(`directAccess_inside_iff`).
-/

namespace Hyrule

open Lib Lib.Result

/-! ## Lookups -/

variable {heap : HostHeap} {t : RegionTable} {address : Word} {r : PmRegion}

/-- The last address of the address space cannot be looked up. -/
theorem searchPmRegionCallback_last (hlast : ¬ address < address + 1) (hne : t.pmrOps ≠ []) :
    searchPmRegionCallback t address = .error .assertion := by
  have hlen : 0 < t.pmrOps.length := List.length_pos_iff.mpr hne
  have hcompare : ∀ r, pmRegionOperationCompare (lookupTarget address) r = .error .assertion := by
    intro r
    have hcheck : ¬ (lookupTarget address).addrLow ≤ (lookupTarget address).addrHigh := by
      simp only [lookupTarget]
      bv_omega
    simp [pmRegionOperationCompare, check, hcheck]
  rw [searchPmRegionCallback, search, if_neg (by omega), searchLoop, dif_pos (Nat.zero_le _),
    elem_of_lt hlen, ok_bind, elem_of_lt (by omega), ok_bind, hcompare, error_bind]

/-- What no region contains cannot be accessed. -/
theorem lookup_aborts {α : Type} {f : Nat → Result α} (horder : RegionsInOrder t.pmrOps)
    (hnot : ∀ r ∈ t.pmrOps, ¬ r.Contains address) :
    (do
      match ← searchPmRegionCallback t address with
      | none => throw .assertion
      | some i => f i) = (.error .assertion : Result α) := by
  by_cases haddress : address < address + 1
  · rw [searchPmRegionCallback_of_not_contains horder haddress hnot]
    rfl
  · by_cases hne : t.pmrOps = []
    · rw [searchPmRegionCallback, hne]
      rfl
    · rw [searchPmRegionCallback_last haddress hne]
      rfl

/-- The slot of the region that contains an address. -/
theorem lookup_of_contains (horder : RegionsInOrder t.pmrOps) (hr : r ∈ t.pmrOps)
    (hcontains : r.Contains address) :
    ∃ i, searchPmRegionCallback t address = .ok (some i) ∧ t.slot i = .ok r := by
  obtain ⟨i, hi, rfl⟩ := List.getElem_of_mem hr
  have hslot : t.pmrOps[i]? = some t.pmrOps[i] := List.getElem?_eq_getElem hi
  refine ⟨i, searchPmRegionCallback_of_contains horder hslot hcontains, ?_⟩
  rw [RegionTable.slot, elem_eq_ok, List.getElem?_append_left hi, hslot]

/-- No two regions contain an address. -/
theorem contains_unique {r' : PmRegion} (horder : RegionsInOrder t.pmrOps) (hr : r ∈ t.pmrOps)
    (hr' : r' ∈ t.pmrOps) (h : r.Contains address) (h' : r'.Contains address) : r = r' := by
  obtain ⟨i, hsearch, hslot⟩ := lookup_of_contains horder hr h
  obtain ⟨j, hsearch', hslot'⟩ := lookup_of_contains horder hr' h'
  obtain rfl : i = j := by
    rw [hsearch] at hsearch'
    exact Option.some.inj (Except.ok.inj hsearch')
  exact Except.ok.inj (hslot.symm.trans hslot')

/-! ## Lookups of any address -/

/-- `user_accessible`: every region has the generic callback for direct addresses. -/
def userAccessible (t : RegionTable) (uaddress : Word) : Result Bool := do
  match ← searchPmRegionCallback t uaddress with
  | none => return false
  | some _ => return true

/-- A lookup returns the one region that contains the address, or null if there is none,
and `user_accessible` answers which. -/
def LookupExact (t : RegionTable) (address : Word) : Prop :=
  ∃ found, searchPmRegionCallback t address = .ok found ∧
    userAccessible t address = .ok found.isSome ∧
    ∀ i, found = some i ↔ ∃ r, t.pmrOps[i]? = some r ∧ r.Contains address

theorem userAccessible_eq {found : Option Nat}
    (h : searchPmRegionCallback t address = .ok found) :
    userAccessible t address = .ok found.isSome := by
  rw [userAccessible, h, ok_bind]
  cases found with
  | none => rfl
  | some i => rfl

theorem lookupExact_of_lt (horder : RegionsInOrder t.pmrOps) (haddress : address < address + 1) :
    LookupExact t address := by
  by_cases hfound : ∃ (i : Nat) (r : PmRegion), t.pmrOps[i]? = some r ∧ r.Contains address
  · obtain ⟨i, r, hr, hcontains⟩ := hfound
    have hsearch := searchPmRegionCallback_of_contains horder hr hcontains
    refine ⟨some i, hsearch, userAccessible_eq hsearch, fun j => ⟨?_, ?_⟩⟩
    · rintro ⟨⟩
      exact ⟨r, hr, hcontains⟩
    · rintro ⟨r', hr', hcontains'⟩
      -- A second region with the address would be found as well.
      exact Except.ok.inj
        (hsearch.symm.trans (searchPmRegionCallback_of_contains horder hr' hcontains'))
  · have hnone : ∀ r ∈ t.pmrOps, ¬ r.Contains address := by
      intro r hr hcontains
      obtain ⟨i, hi⟩ := List.getElem?_of_mem hr
      exact hfound ⟨i, r, hi, hcontains⟩
    have hsearch := searchPmRegionCallback_of_not_contains horder haddress hnone
    refine ⟨none, hsearch, userAccessible_eq hsearch, fun i => ⟨nofun, ?_⟩⟩
    rintro ⟨r, hr, hcontains⟩
    exact absurd hcontains (hnone r (List.mem_of_getElem? hr))

/-- Nothing is compared in an empty table. -/
theorem lookupExact_of_nil (hempty : t.pmrOps = []) : LookupExact t address := by
  have hsearch : searchPmRegionCallback t address = .ok none := by
    rw [searchPmRegionCallback, hempty]
    rfl
  exact ⟨none, hsearch, userAccessible_eq hsearch, fun i => by simp [hempty]⟩

/-- In a table in order, a lookup is exact at every address but the last one of the
address space, which it can look up in an empty table only. -/
theorem lookupExact_iff (horder : RegionsInOrder t.pmrOps) (address : Word) :
    LookupExact t address ↔ (t.pmrOps = [] ∨ address ≠ 0xffffffff) := by
  constructor
  · rintro ⟨found, hsearch, -⟩
    by_cases hempty : t.pmrOps = []
    · exact Or.inl hempty
    · have haddress := searchPmRegionCallback_lt hsearch hempty
      exact Or.inr (by bv_omega)
  · rintro (hempty | hlast)
    · exact lookupExact_of_nil hempty
    · exact lookupExact_of_lt horder (by bv_omega)

/-- A table with the stack alone. -/
def stackTable : RegionTable :=
  ⟨[⟨0xdf800000, 0xe0000000, programRead ||| programWrite, some 0⟩], []⟩

theorem stackTable_inOrder : RegionsInOrder stackTable.pmrOps :=
  ⟨by decide, List.pairwise_singleton _ _⟩

/-- The last byte of the stack is found there. -/
theorem lookupExact_stack :
    RegionsInOrder stackTable.pmrOps ∧ LookupExact stackTable 0xdfffffff :=
  ⟨stackTable_inOrder,
    (lookupExact_iff stackTable_inOrder 0xdfffffff).mpr (Or.inr (by decide))⟩

/-- The last address of the address space is in no region, and its lookup aborts: the
region of one byte that it compares with ends at 0. -/
theorem lookup_last_aborts :
    RegionsInOrder stackTable.pmrOps ∧
      (∀ r ∈ stackTable.pmrOps, ¬ r.Contains 0xffffffff) ∧
      searchPmRegionCallback stackTable 0xffffffff = .error .assertion ∧
      userAccessible stackTable 0xffffffff = .error .assertion ∧
      ¬ LookupExact stackTable 0xffffffff := by
  have habort : searchPmRegionCallback stackTable 0xffffffff = .error .assertion :=
    searchPmRegionCallback_last (by decide) (by decide)
  refine ⟨stackTable_inOrder, by decide, habort, ?_, ?_⟩
  · rw [userAccessible, habort]
    rfl
  · rintro ⟨found, hsearch, -⟩
    cases habort.symm.trans hsearch

/-! ## Accesses -/

theorem directRead_of_not_contains (horder : RegionsInOrder t.pmrOps)
    (hnot : ∀ r ∈ t.pmrOps, ¬ r.Contains address) (heap : HostHeap) (accessSize : Nat) :
    directRead heap t address accessSize = .error .assertion :=
  lookup_aborts horder hnot

theorem directWrite_of_not_contains (horder : RegionsInOrder t.pmrOps)
    (hnot : ∀ r ∈ t.pmrOps, ¬ r.Contains address) (heap : HostHeap) (accessSize value : Nat) :
    directWrite heap t address accessSize value = .error .assertion :=
  lookup_aborts horder hnot

theorem directRead_of_contains (horder : RegionsInOrder t.pmrOps) (hr : r ∈ t.pmrOps)
    (hcontains : r.Contains address) (heap : HostHeap) (accessSize : Nat) :
    directRead heap t address accessSize = vmaGenericRead heap r address accessSize := by
  obtain ⟨i, hsearch, hslot⟩ := lookup_of_contains horder hr hcontains
  rw [directRead, hsearch, ok_bind]
  dsimp only
  rw [hslot, ok_bind]

theorem directWrite_of_contains (horder : RegionsInOrder t.pmrOps) (hr : r ∈ t.pmrOps)
    (hcontains : r.Contains address) (heap : HostHeap) (accessSize value : Nat) :
    directWrite heap t address accessSize value =
      vmaGenericWrite heap r address accessSize value := by
  obtain ⟨i, hsearch, hslot⟩ := lookup_of_contains horder hr hcontains
  rw [directWrite, hsearch, ok_bind]
  dsimp only
  rw [hslot, ok_bind]

/-- The bytes of a buffer from an offset on. -/
def Buffer.bytes (b : Buffer) (offset n : Nat) : List Byte :=
  (List.range n).map fun i => b.byte (offset + i)

/-- A buffer with bytes copied to an offset. -/
def Buffer.copy (b : Buffer) (offset : Nat) (bytes : List Byte) : Buffer :=
  ⟨b.size, memcpy b.byte offset (fun i => bytes.getD i 0) bytes.length⟩

variable {p : HostPointer} {b : Buffer} {accessSize : Nat}

theorem vmaGenericRead_eq (hbase : r.hostBase = some p) (hb : heap p = some b)
    (hsize : (address - r.addrLow).toNat + accessSize ≤ b.size) :
    vmaGenericRead heap r address accessSize =
      .ok (ofLeBytes (b.bytes (address - r.addrLow).toNat accessSize)) := by
  simp only [vmaGenericRead, hbase, deref, ok_bind, HostHeap.load, hb, if_pos hsize, pure_eq_ok]
  rfl

theorem vmaGenericWrite_eq (hbase : r.hostBase = some p) (hb : heap p = some b)
    (hsize : (address - r.addrLow).toNat + accessSize ≤ b.size) (value : Nat) :
    vmaGenericWrite heap r address accessSize value =
      .ok (Function.update heap p
        (some (b.copy (address - r.addrLow).toNat (leBytes accessSize value)))) := by
  rw [← length_leBytes accessSize value] at hsize
  simp only [vmaGenericWrite, hbase, deref, ok_bind, HostHeap.store, hb, if_pos hsize, pure_eq_ok]
  rfl

/-- A store that was performed went to the buffer of the region that was found, which has
room for it. -/
theorem directWrite_ok {heap' : HostHeap} {value : Nat}
    (h : directWrite heap t address accessSize value = .ok heap') :
    ∃ i r p b, searchPmRegionCallback t address = .ok (some i) ∧ t.slot i = .ok r ∧
      r ∈ t.pmrOps ∧ r.Contains address ∧ r.hostBase = some p ∧ heap p = some b ∧
      (address - r.addrLow).toNat + accessSize ≤ b.size ∧
      heap' = Function.update heap p
        (some (b.copy (address - r.addrLow).toNat (leBytes accessSize value))) := by
  obtain ⟨found, hsearch, h⟩ := bind_eq_ok.mp h
  cases found with
  | none => cases h
  | some i =>
    obtain ⟨r, hslot, h⟩ := bind_eq_ok.mp h
    obtain ⟨p, hbase, hstore⟩ := bind_eq_ok.mp h
    have hr := searchPmRegionCallback_slot hsearch hslot
    obtain ⟨r', hr', hcontains⟩ := searchPmRegionCallback_sound hsearch
    obtain rfl := Option.some.inj (hr.symm.trans hr')
    unfold HostHeap.store at hstore
    split at hstore
    next => cases hstore
    next b hb =>
      split at hstore
      next hsize =>
        rw [length_leBytes] at hsize
        cases hstore
        exact ⟨i, r, p, b, hsearch, hslot, List.mem_of_getElem? hr, hcontains,
          deref_eq_ok.mp hbase, hb, hsize, rfl⟩
      next => cases hstore

/-! ## Accesses near the end of a region -/

/-- A region has a live buffer with a byte for each of its addresses. -/
def PmRegion.Backed (heap : HostHeap) (r : PmRegion) : Prop :=
  ∃ p b, r.hostBase = some p ∧ heap p = some b ∧ r.size ≤ b.size

/-- Every region of a table is backed. -/
def RegionTable.FullyBacked (heap : HostHeap) (t : RegionTable) : Prop :=
  ∀ r ∈ t.pmrOps, r.Backed heap

/-- All bytes of an access lie in a region. -/
def PmRegion.ContainsAccess (r : PmRegion) (address : Word) (accessSize : Nat) : Prop :=
  r.Contains address ∧ address.toNat + accessSize ≤ r.addrHigh.toNat

instance (r : PmRegion) (address : Word) (accessSize : Nat) :
    Decidable (r.ContainsAccess address accessSize) :=
  inferInstanceAs (Decidable (_ ∧ _))

/-- The offset of an access inside a region leaves room for it. -/
theorem PmRegion.ContainsAccess.offset_le (h : r.ContainsAccess address accessSize) :
    (address - r.addrLow).toNat + accessSize ≤ r.size := by
  obtain ⟨⟨hlow, hhigh⟩, hend⟩ := h
  have hoffset : (address - r.addrLow).toNat = address.toNat - r.addrLow.toNat :=
    BitVec.toNat_sub_of_le hlow
  have hsize : r.size = r.addrHigh.toNat - r.addrLow.toNat :=
    BitVec.toNat_sub_of_le (by bv_omega)
  rw [hoffset, hsize]
  have hlow' : r.addrLow.toNat ≤ address.toNat := hlow
  omega

/-- An access whose offset leaves room for it lies in the region. -/
theorem PmRegion.ContainsAccess.of_offset_le (h : r.Contains address)
    (hsize : (address - r.addrLow).toNat + accessSize ≤ r.size) :
    r.ContainsAccess address accessSize := by
  refine ⟨h, ?_⟩
  obtain ⟨hlow, hhigh⟩ := h
  have hoffset : (address - r.addrLow).toNat = address.toNat - r.addrLow.toNat :=
    BitVec.toNat_sub_of_le hlow
  have hrange : r.size = r.addrHigh.toNat - r.addrLow.toNat :=
    BitVec.toNat_sub_of_le (by bv_omega)
  rw [hoffset, hrange] at hsize
  have hlow' : r.addrLow.toNat ≤ address.toNat := hlow
  have hhigh' : address.toNat < r.addrHigh.toNat := hhigh
  omega

/-- `direct_read` and `direct_write` abort because no region contains the first byte, or
they access the buffer of a region that contains all bytes of the access. -/
def AccessInside (heap : HostHeap) (t : RegionTable) (address : Word) (accessSize : Nat) : Prop :=
  ((∀ r ∈ t.pmrOps, ¬ r.Contains address) ∧
      directRead heap t address accessSize = .error .assertion ∧
      ∀ value, directWrite heap t address accessSize value = .error .assertion) ∨
    ∃ i r p b, searchPmRegionCallback t address = .ok (some i) ∧ t.slot i = .ok r ∧
      r.hostBase = some p ∧ heap p = some b ∧ r.ContainsAccess address accessSize ∧
      (address - r.addrLow).toNat + accessSize ≤ b.size ∧
      directRead heap t address accessSize =
        .ok (ofLeBytes (b.bytes (address - r.addrLow).toNat accessSize)) ∧
      ∀ value, directWrite heap t address accessSize value =
        .ok (Function.update heap p
          (some (b.copy (address - r.addrLow).toNat (leBytes accessSize value))))

/-- A region contains the first byte of an access and ends before its last one. -/
def CrossesEnd (t : RegionTable) (address : Word) (accessSize : Nat) : Prop :=
  ∃ r ∈ t.pmrOps, r.Contains address ∧ r.addrHigh.toNat < address.toNat + accessSize

theorem accessInside_of_containsAccess (horder : RegionsInOrder t.pmrOps) (hr : r ∈ t.pmrOps)
    (hbacked : r.Backed heap) (h : r.ContainsAccess address accessSize) :
    AccessInside heap t address accessSize := by
  obtain ⟨i, hsearch, hslot⟩ := lookup_of_contains horder hr h.1
  obtain ⟨p, b, hbase, hb, hsize⟩ := hbacked
  have hfits : (address - r.addrLow).toNat + accessSize ≤ b.size :=
    Nat.le_trans h.offset_le hsize
  refine Or.inr ⟨i, r, p, b, hsearch, hslot, hbase, hb, h, hfits, ?_, fun value => ?_⟩
  · rw [directRead_of_contains horder hr h.1, vmaGenericRead_eq hbase hb hfits]
  · rw [directWrite_of_contains horder hr h.1, vmaGenericWrite_eq hbase hb hfits]

theorem not_accessInside_of_crossesEnd (horder : RegionsInOrder t.pmrOps)
    (h : CrossesEnd t address accessSize) : ¬ AccessInside heap t address accessSize := by
  obtain ⟨r, hr, hcontains, hend⟩ := h
  rintro (⟨hnot, -⟩ | ⟨i, r', -, -, hsearch, hslot, -, -, haccess, -⟩)
  · exact hnot r hr hcontains
  · have hr' : t.pmrOps[i]? = some r' := searchPmRegionCallback_slot hsearch hslot
    obtain rfl := contains_unique horder hr (List.mem_of_getElem? hr') hcontains haccess.1
    exact absurd haccess.2 (by omega)

theorem accessInside_of_not_crossesEnd (horder : RegionsInOrder t.pmrOps)
    (hbacked : t.FullyBacked heap) (h : ¬ CrossesEnd t address accessSize) :
    AccessInside heap t address accessSize := by
  by_cases hfound : ∃ r ∈ t.pmrOps, r.Contains address
  · obtain ⟨r, hr, hcontains⟩ := hfound
    have hend : ¬ r.addrHigh.toNat < address.toNat + accessSize :=
      fun hend => h ⟨r, hr, hcontains, hend⟩
    exact accessInside_of_containsAccess horder hr (hbacked r hr) ⟨hcontains, by omega⟩
  · have hnone : ∀ r ∈ t.pmrOps, ¬ r.Contains address :=
      fun r hr hcontains => hfound ⟨r, hr, hcontains⟩
    exact Or.inl ⟨hnone, directRead_of_not_contains horder hnone _ _,
      fun value => directWrite_of_not_contains horder hnone _ _ value⟩

/-- In every reachable table with fully backed regions, and for every address and size,
an access aborts or stays inside the region it found if and only if it does not cross
the end of a region. -/
theorem directAccess_inside_iff {s : HostHeap × VirtualMemory} (h : memoryRuns.Reachable s)
    (hbacked : s.2.regions.FullyBacked s.1) (address : Word) :
    ∀ accessSize ∈ [1, 2, 4, 8],
      AccessInside s.1 s.2.regions address accessSize ↔
        ¬ CrossesEnd s.2.regions address accessSize := by
  intro accessSize _
  have horder := regionsInOrder_of_reachable h
  constructor
  · intro hinside hcross
    exact not_accessInside_of_crossesEnd horder hcross hinside
  · exact accessInside_of_not_crossesEnd horder hbacked

/-! ## The end of the heap -/

/-- The calls of a start-up, and a program break that is no multiple of 4. -/
def oddBreak : Result (HostHeap × VirtualMemory) := do
  let s ← MemoryCall.run (fun _ => none) .empty (.stackInit (some 0))
  let s ← MemoryCall.run s.1 s.2 (.heapInit 0)
  MemoryCall.run s.1 s.2 (.brk 0x10002 (some 1) fun _ => 0)

theorem oddBreak_reachable {s : HostHeap × VirtualMemory} (h : oddBreak = .ok s) :
    memoryRuns.Reachable s := by
  simp only [oddBreak, bind_eq_ok] at h
  obtain ⟨s₁, h₁, s₂, h₂, h₃⟩ := h
  have hinit : memoryRuns.Reachable (fun _ => none, .empty) := .init rfl
  exact ((hinit.step h₁).step h₂).step h₃

/-- The heap has 3 bytes by then. -/
def oddHeap : PmRegion := ⟨0xffff, 0x10002, programRead ||| programWrite, some 1⟩

theorem oddBreak_ok :
    ∃ s, oddBreak = .ok s ∧ oddHeap ∈ s.2.regions.pmrOps ∧ s.2.regions.FullyBacked s.1 := by
  have hrun : (do
      let s ← oddBreak
      return (s.2.regions.pmrOps, (s.1 0).map Buffer.size, (s.1 1).map Buffer.size)) =
        (.ok ([oddHeap, ⟨0xdf800000, 0xe0000000, programRead ||| programWrite, some 0⟩],
          some defaultStackSize, some 3) : Result _) := by
    decide +kernel
  obtain ⟨s, hs, hvalues⟩ := bind_eq_ok.mp hrun
  simp only [pure_eq_ok, Except.ok.injEq, Prod.mk.injEq, Option.map_eq_some_iff] at hvalues
  obtain ⟨hregions, ⟨stack, hstack, hstackSize⟩, heap, hheap, hheapSize⟩ := hvalues
  refine ⟨s, hs, by rw [hregions]; exact List.mem_cons_self, fun r hr => ?_⟩
  rw [hregions, List.mem_cons, List.mem_singleton] at hr
  rcases hr with rfl | rfl
  · exact ⟨1, heap, rfl, hheap, by rw [hheapSize]; decide⟩
  · exact ⟨0, stack, rfl, hstack, by rw [hstackSize]; decide⟩

/-- A half-word at the end of this heap stays inside it. -/
theorem directAccess_inside_oddHeap :
    ∃ s, memoryRuns.Reachable s ∧ s.2.regions.FullyBacked s.1 ∧
      AccessInside s.1 s.2.regions 0x10000 2 := by
  obtain ⟨s, hs, hheap, hbacked⟩ := oddBreak_ok
  have hreach := oddBreak_reachable hs
  refine ⟨s, hreach, hbacked, ?_⟩
  refine (directAccess_inside_iff hreach hbacked 0x10000 2 (by decide)).mpr ?_
  rintro ⟨r, hr, hcontains, hend⟩
  have horder := regionsInOrder_of_reachable hreach
  obtain rfl := contains_unique horder hr hheap hcontains ⟨by decide, by decide⟩
  exact absurd hend (by decide)

/-- A word at the same address ends behind the heap.  It is read from the buffer of the
heap, where only two of its bytes are. -/
theorem directRead_crosses_oddHeap :
    ∃ s, memoryRuns.Reachable s ∧ s.2.regions.FullyBacked s.1 ∧
      directRead s.1 s.2.regions 0x10000 4 = .error .outOfBounds ∧
      ¬ AccessInside s.1 s.2.regions 0x10000 4 := by
  have hrun : (match oddBreak with
      | .ok s => directRead s.1 s.2.regions 0x10000 4
      | .error e => .error e) = .error .outOfBounds := by
    decide +kernel
  obtain ⟨s, hs, hheap, hbacked⟩ := oddBreak_ok
  have hreach := oddBreak_reachable hs
  have hcontains : oddHeap.Contains 0x10000 := ⟨by decide, by decide⟩
  have hcross : CrossesEnd s.2.regions 0x10000 4 := ⟨oddHeap, hheap, hcontains, by decide⟩
  rw [hs] at hrun
  exact ⟨s, hreach, hbacked, hrun,
    not_accessInside_of_crossesEnd (regionsInOrder_of_reachable hreach) hcross⟩

end Hyrule
