import Hyrule.Memory.Access
import Mathlib.Data.List.GetD

/-!
# Guest memory as a byte map

What a guest sees of its memory is a byte for each address.  An access of several
bytes has the lowest one first, and a store changes its bytes and no others.

A region table and the buffers of its regions stand for such a map
(`flatMemory`).  If the table is in order and every region has a buffer of its own,
an access inside one region is an access to the map (`directRead_flat`,
`directWrite_flat`).
-/

namespace Hyrule

open Lib Lib.Result

/-! ## The map -/

/-- A byte for each address. -/
abbrev FlatMemory := Word → Byte

namespace FlatMemory

/-- The number whose bytes start at an address. -/
def read (m : FlatMemory) (address : Word) (n : Nat) : Nat :=
  ofLeBytes ((List.range n).map fun i => m (address + BitVec.ofNat 32 i))

/-- The low bytes of a number stored from an address on. -/
def write (m : FlatMemory) (address : Word) (n value : Nat) : FlatMemory :=
  fun a => (leBytes n value).getD (a - address).toNat (m a)

/-- Only the low bytes of the number matter. -/
theorem write_mod (m : FlatMemory) (address : Word) (n value : Nat) :
    m.write address n (value % 256 ^ n) = m.write address n value := by
  unfold write
  rw [leBytes_mod]

/-- A store leaves the other bytes. -/
theorem write_of_ge (m : FlatMemory) {address a : Word} {n : Nat} (value : Nat)
    (h : n ≤ (a - address).toNat) : m.write address n value a = m a := by
  rw [write, List.getD_eq_default _ _ (by rwa [length_leBytes])]

theorem write_of_lt (m : FlatMemory) {address a : Word} {n : Nat} (value : Nat)
    (h : (a - address).toNat < n) :
    m.write address n value a = (leBytes n value).getD (a - address).toNat 0 := by
  rw [← length_leBytes n value] at h
  rw [write, List.getD_eq_getElem _ _ h, List.getD_eq_getElem _ _ h]

end FlatMemory

/-! ## Regions -/

/-- The byte that a guest sees at an address.  What no buffer holds is zero. -/
def flatMemory (heap : HostHeap) (t : RegionTable) : FlatMemory := fun a =>
  match t.pmrOps.find? fun r => decide (r.Contains a) with
  | none => 0
  | some r => ((r.hostBase.bind heap).map fun b => b.byte (a - r.addrLow).toNat).getD 0

/-- Every region has a buffer of its own, with a byte for each of its addresses. -/
structure SeparatelyBacked (heap : HostHeap) (t : RegionTable) : Prop where
  backed : ∀ r ∈ t.pmrOps, ∃ p b, r.hostBase = some p ∧ heap p = some b ∧ b.size = r.size
  separate : ∀ r ∈ t.pmrOps, ∀ r' ∈ t.pmrOps, r.hostBase = r'.hostBase → r = r'

variable {heap : HostHeap} {t : RegionTable} {address a : Word} {r : PmRegion} {p : HostPointer}
  {b : Buffer} {accessSize : Nat}

theorem flatMemory_of_contains (horder : RegionsInOrder t.pmrOps) (hr : r ∈ t.pmrOps)
    (hcontains : r.Contains a) :
    flatMemory heap t a =
      ((r.hostBase.bind heap).map fun b => b.byte (a - r.addrLow).toNat).getD 0 := by
  unfold flatMemory
  cases hfind : t.pmrOps.find? fun r => decide (r.Contains a) with
  | none => exact absurd (decide_eq_true hcontains) (List.find?_eq_none.mp hfind r hr)
  | some r' =>
    have hfound := List.find?_some hfind
    have hcontains' : r'.Contains a := of_decide_eq_true hfound
    obtain rfl := contains_unique horder hr (List.mem_of_find?_eq_some hfind) hcontains hcontains'
    rfl

theorem flatMemory_of_not_contains (hnot : ¬ ∃ r ∈ t.pmrOps, r.Contains a) :
    flatMemory heap t a = 0 := by
  have hfind : t.pmrOps.find? (fun r => decide (r.Contains a)) = none :=
    List.find?_eq_none.mpr fun r hr hr' => hnot ⟨r, hr, of_decide_eq_true hr'⟩
  rw [flatMemory, hfind]

theorem flatMemory_eq_byte (horder : RegionsInOrder t.pmrOps) (hr : r ∈ t.pmrOps)
    (hcontains : r.Contains a) (hbase : r.hostBase = some p) (hb : heap p = some b) :
    flatMemory heap t a = b.byte (a - r.addrLow).toNat := by
  rw [flatMemory_of_contains horder hr hcontains, hbase, Option.bind_some, hb]
  rfl

/-- A byte of an access, as an address and as an offset. -/
theorem PmRegion.ContainsAccess.byte (h : r.ContainsAccess address accessSize) {i : Nat}
    (hi : i < accessSize) :
    r.Contains (address + BitVec.ofNat 32 i) ∧
      (address + BitVec.ofNat 32 i - r.addrLow).toNat = (address - r.addrLow).toNat + i := by
  obtain ⟨⟨hlow, hhigh⟩, hend⟩ := h
  have hbound := r.addrHigh.isLt
  have hsum : (address + BitVec.ofNat 32 i).toNat = address.toNat + i := by
    rw [BitVec.toNat_add, BitVec.toNat_ofNat]
    omega
  have hlow' : r.addrLow ≤ address + BitVec.ofNat 32 i := by
    rw [BitVec.le_def, hsum]
    exact Nat.le_add_right_of_le hlow
  refine ⟨⟨hlow', by rw [BitVec.lt_def, hsum]; omega⟩, ?_⟩
  rw [BitVec.toNat_sub_of_le hlow', BitVec.toNat_sub_of_le hlow, hsum]
  have hle : r.addrLow.toNat ≤ address.toNat := hlow
  omega

/-- The same, for an address that is one of an access. -/
theorem PmRegion.ContainsAccess.contains (h : r.ContainsAccess address accessSize)
    (ha : (a - address).toNat < accessSize) :
    r.Contains a ∧ (a - r.addrLow).toNat = (address - r.addrLow).toNat + (a - address).toNat := by
  have hsum : address + BitVec.ofNat 32 (a - address).toNat = a := by
    rw [BitVec.ofNat_toNat, BitVec.setWidth_eq]
    grind
  have hbyte := h.byte ha
  rwa [hsum] at hbyte

/-- An address of a region whose offset is one of an access is one of the access. -/
theorem PmRegion.ContainsAccess.lt_of_offset (h : r.ContainsAccess address accessSize)
    (ha : r.Contains a) (hlow : (address - r.addrLow).toNat ≤ (a - r.addrLow).toNat)
    (hhigh : (a - r.addrLow).toNat < (address - r.addrLow).toNat + accessSize) :
    (a - address).toNat < accessSize := by
  rw [BitVec.toNat_sub_of_le ha.1, BitVec.toNat_sub_of_le h.1.1] at hlow hhigh
  have hle : r.addrLow.toNat ≤ a.toNat := ha.1
  have hle' : r.addrLow.toNat ≤ address.toNat := h.1.1
  have hbelow : address ≤ a := by
    rw [BitVec.le_def]
    omega
  rw [BitVec.toNat_sub_of_le hbelow]
  omega

/-- A read inside a region is a read of the map. -/
theorem directRead_flat (horder : RegionsInOrder t.pmrOps) (hbacked : SeparatelyBacked heap t)
    (hr : r ∈ t.pmrOps) (h : r.ContainsAccess address accessSize) :
    directRead heap t address accessSize =
      .ok ((flatMemory heap t).read address accessSize) := by
  obtain ⟨p, b, hbase, hb, hsize⟩ := hbacked.backed r hr
  have hfits : (address - r.addrLow).toNat + accessSize ≤ b.size := hsize ▸ h.offset_le
  rw [directRead_of_contains horder hr h.1, vmaGenericRead_eq hbase hb hfits]
  refine congrArg (Except.ok ∘ ofLeBytes) (List.map_congr_left fun i hi => ?_)
  obtain ⟨hcontains, hoffset⟩ := h.byte (List.mem_range.mp hi)
  rw [flatMemory_eq_byte horder hr hcontains hbase hb, hoffset]

/-- The buffer of a region with a store seen through the map. -/
theorem flatMemory_update (horder : RegionsInOrder t.pmrOps) (hbacked : SeparatelyBacked heap t)
    (hr : r ∈ t.pmrOps) (hbase : r.hostBase = some p) (hb : heap p = some b)
    (h : r.ContainsAccess address accessSize) (value : Nat) :
    flatMemory (Function.update heap p
        (some (b.copy (address - r.addrLow).toNat (leBytes accessSize value)))) t =
      (flatMemory heap t).write address accessSize value := by
  have hself : Function.update heap p
      (some (b.copy (address - r.addrLow).toNat (leBytes accessSize value))) p = some _ :=
    Function.update_self ..
  funext a
  by_cases ha : (a - address).toNat < accessSize
  · obtain ⟨hcontains, hoffset⟩ := h.contains ha
    rw [flatMemory_eq_byte horder hr hcontains hbase hself, FlatMemory.write_of_lt _ _ ha, hoffset]
    have hlength : (a - address).toNat < (leBytes accessSize value).length := by
      rwa [length_leBytes]
    simp only [Buffer.copy]
    rw [memcpy_add hlength]
  · rw [FlatMemory.write_of_ge _ _ (by omega)]
    by_cases hfound : ∃ r' ∈ t.pmrOps, r'.Contains a
    · obtain ⟨r', hr', hcontains⟩ := hfound
      by_cases heq : r' = r
      · subst heq
        rw [flatMemory_eq_byte horder hr' hcontains hbase hself,
          flatMemory_eq_byte horder hr' hcontains hbase hb]
        have hout : ¬ ((address - r'.addrLow).toNat ≤ (a - r'.addrLow).toNat ∧
            (a - r'.addrLow).toNat < (address - r'.addrLow).toNat + accessSize) :=
          fun hin => ha (h.lt_of_offset hcontains hin.1 hin.2)
        exact if_neg (by rwa [length_leBytes])
      · obtain ⟨p', b', hbase', hb', -⟩ := hbacked.backed r' hr'
        have hp : p' ≠ p := by
          rintro rfl
          exact heq (hbacked.separate r' hr' r hr (hbase'.trans hbase.symm))
        rw [flatMemory_eq_byte horder hr' hcontains hbase' hb',
          flatMemory_eq_byte horder hr' hcontains hbase' ((Function.update_of_ne hp ..).trans hb')]
    · rw [flatMemory_of_not_contains hfound, flatMemory_of_not_contains hfound]

/-- A store inside a region is a store to the map. -/
theorem directWrite_flat (horder : RegionsInOrder t.pmrOps) (hbacked : SeparatelyBacked heap t)
    (hr : r ∈ t.pmrOps) (h : r.ContainsAccess address accessSize) (value : Nat) :
    ∃ heap', directWrite heap t address accessSize value = .ok heap' ∧
      flatMemory heap' t = (flatMemory heap t).write address accessSize value ∧
      SeparatelyBacked heap' t ∧
      ∀ p, (∀ r ∈ t.pmrOps, r.hostBase ≠ some p) → heap' p = heap p := by
  obtain ⟨p, b, hbase, hb, hsize⟩ := hbacked.backed r hr
  have hfits : (address - r.addrLow).toNat + accessSize ≤ b.size := hsize ▸ h.offset_le
  rw [directWrite_of_contains horder hr h.1, vmaGenericWrite_eq hbase hb hfits]
  refine ⟨_, rfl, flatMemory_update horder hbacked hr hbase hb h value, ⟨?_, hbacked.separate⟩, ?_⟩
  · intro r' hr'
    obtain ⟨p', b', hbase', hb', hsize'⟩ := hbacked.backed r' hr'
    by_cases hp : p' = p
    · subst hp
      rw [hb] at hb'
      cases hb'
      exact ⟨p', _, hbase', Function.update_self .., hsize'⟩
    · exact ⟨p', b', hbase', by rw [Function.update_of_ne hp, hb'], hsize'⟩
  · intro q hq
    refine Function.update_of_ne ?_ ..
    rintro rfl
    exact hq r hr hbase

end Hyrule
