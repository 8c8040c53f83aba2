import Hyrule.Util.Sort
import Hyrule.Util.Word

/-!
# Breakpoints

The table of `debug_breakpoint.c`: an array of addresses that is kept with the
insertion sort and searched with the binary search.  Both compare two addresses
by the sign of their difference in 32 bits.  That is an order on a window of
`2^31` bytes, wherever it begins, and no order on more: in a table that goes
beyond, the search misses addresses (`addBreakpoints_missed`).
-/

namespace Hyrule

open Lib Lib.Result

/-- `MAX_BREAKPOINTS`. -/
def maxBreakpoints : Nat := 256

/-- `addr_cmp`. -/
def addrCmp (addr0 addr1 : Word) : Result Int := return (addr0 - addr1).toInt

/-- `is_address_breakpoint`, on the first `nr_breakpoints` entries of the table. -/
def isAddressBreakpoint (breakpoints : List Word) (guestAddr : Word) : Result Bool := do
  let pbp ← search addrCmp breakpoints guestAddr
  return pbp.isSome

/-- `add_breakpoint`: the code it returns, and the table behind it. -/
def addBreakpoint (breakpoints : List Word) (guestAddr : Word) : Result (Int × List Word) := do
  if guestAddr &&& 3 ≠ 0 then return (-2, breakpoints)
  else if breakpoints.length ≥ maxBreakpoints then return (-1, breakpoints)
  else if ← isAddressBreakpoint breakpoints guestAddr then return (0, breakpoints)
  else
    let breakpoints ← insertionSort addrCmp (breakpoints ++ [guestAddr])
    return (0, breakpoints)

/-- A sequence of calls of `add_breakpoint` on the empty table: every call with the code it
returned, and the table behind them. -/
def addBreakpoints (addrs : List Word) : Result (List (Word × Int) × List Word) :=
  addrs.foldlM (fun s guestAddr => do
    let r ← addBreakpoint s.2 guestAddr
    return (s.1 ++ [(guestAddr, r.1)], r.2)) ([], [])

/-- The table is the set of the addresses that were added. -/
structure BreakpointSet (calls : List (Word × Int)) (breakpoints : List Word) : Prop where
  member : ∀ q, isAddressBreakpoint breakpoints q = .ok (decide ((q, 0) ∈ calls))
  nodup : breakpoints.Nodup
  /-- A call that must fail does so and changes nothing. -/
  refused : ∀ guestAddr, guestAddr.toNat % 4 ≠ 0 ∨ breakpoints.length = maxBreakpoints →
    ∃ rc ≠ 0, addBreakpoint breakpoints guestAddr = .ok (rc, breakpoints)
  /-- A stored address takes no further slot. -/
  stored : ∀ guestAddr ∈ breakpoints,
    ∃ rc, addBreakpoint breakpoints guestAddr = .ok (rc, breakpoints)

/-! ## The search -/

theorem addrCmp_eq_zero {a b : Word} (h : addrCmp a b = .ok 0) : a = b := by
  have hzero : (a - b).toInt = 0 := Except.ok.inj h
  have hsub : a - b = 0 := BitVec.eq_of_toInt_eq hzero
  exact sub_eq_zero.mp hsub

/-- In a window the comparator follows the distance from its begin. -/
theorem addrCmp_follows {base : Word} {l : List Word} (h : ∀ a ∈ l, InWindow base a) :
    Follows addrCmp (fun a => (a - base).toNat) l := by
  intro a ha b hb
  refine ⟨_, rfl, ?_⟩
  rw [toInt_sub_of_inWindow (h a ha) (h b hb)]
  beta_reduce
  omega

/-- The search finds nothing but members, and on a table in order every one. -/
theorem isAddressBreakpoint_eq {base : Word} {breakpoints : List Word}
    (hwindow : ∀ a ∈ breakpoints, InWindow base a)
    (hasc : Ascending (fun a => (a - base).toNat) breakpoints) (q : Word) :
    isAddressBreakpoint breakpoints q = .ok (decide (q ∈ breakpoints)) := by
  have hanswers : ∀ e ∈ breakpoints, ∃ c, addrCmp q e = .ok c := fun e _ => ⟨_, rfl⟩
  obtain ⟨r, hsearch⟩ := search_returns q hanswers
  have hfound : r.isSome = true ↔ q ∈ breakpoints := by
    constructor
    · intro hsome
      obtain ⟨i, rfl⟩ := Option.isSome_iff_exists.mp hsome
      obtain ⟨e, he, hcmp⟩ := search_sound hsearch
      exact addrCmp_eq_zero hcmp ▸ List.mem_of_getElem? he
    · intro hq
      have hall : ∀ a ∈ q :: breakpoints, InWindow base a := by
        intro a ha
        rcases List.mem_cons.mp ha with rfl | ha
        · exact hwindow a hq
        · exact hwindow a ha
      obtain ⟨c, hdescends, hequal⟩ := (addrCmp_follows hall).descends hasc
      obtain ⟨r', hsearch', -, hnone⟩ := search_spec hdescends
      obtain rfl := Except.ok.inj (hsearch'.symm.trans hsearch)
      obtain ⟨i, hi, rfl⟩ := List.getElem_of_mem hq
      refine Option.isSome_iff_ne_none.mpr fun hr => ?_
      exact hnone hr i hi ((hequal i hi).mpr rfl)
  rw [isAddressBreakpoint, hsearch, ok_bind, pure_eq_ok, Except.ok.injEq, Bool.eq_iff_iff, hfound,
    decide_eq_true_iff]

/-! ## The calls -/

theorem misaligned_iff (guestAddr : Word) : guestAddr &&& 3 ≠ 0 ↔ guestAddr.toNat % 4 ≠ 0 := by
  have hlow : (guestAddr &&& 3).toNat = guestAddr.toNat % 4 := by
    simpa using toNat_and_low guestAddr 2 (m := 3) rfl (by decide)
  rw [← hlow]
  exact not_congr (BitVec.toNat_inj (y := 0)).symm

/-- What the table is like after calls with addresses of a window. -/
structure Breakpoints (base : Word) (calls : List (Word × Int)) (breakpoints : List Word) :
    Prop where
  bound : breakpoints.length ≤ maxBreakpoints
  window : ∀ a ∈ breakpoints, InWindow base a
  ascending : Ascending (fun a => (a - base).toNat) breakpoints
  nodup : breakpoints.Nodup
  added : ∀ q, q ∈ breakpoints ↔ (q, 0) ∈ calls

namespace Breakpoints

variable {base : Word} {calls : List (Word × Int)} {breakpoints : List Word}

theorem isAddressBreakpoint (h : Breakpoints base calls breakpoints) (q : Word) :
    isAddressBreakpoint breakpoints q = .ok (decide (q ∈ breakpoints)) :=
  isAddressBreakpoint_eq h.window h.ascending q

/-- A call that failed or found the address stored. -/
theorem unchanged (h : Breakpoints base calls breakpoints) {guestAddr : Word} {rc : Int}
    (hrc : rc = 0 → guestAddr ∈ breakpoints) :
    Breakpoints base (calls ++ [(guestAddr, rc)]) breakpoints where
  bound := h.bound
  window := h.window
  ascending := h.ascending
  nodup := h.nodup
  added q := by
    rw [h.added, List.mem_append, List.mem_singleton, Prod.mk.injEq]
    constructor
    · exact Or.inl
    · rintro (hq | ⟨rfl, hzero⟩)
      · exact hq
      · exact (h.added q).mp (hrc hzero.symm)

/-- An address that is put into the table. -/
theorem inserted (h : Breakpoints base calls breakpoints) {guestAddr : Word} {m : Nat}
    (hm : m ≤ breakpoints.length) (hfree : breakpoints.length < maxBreakpoints)
    (hnew : guestAddr ∉ breakpoints) (hin : InWindow base guestAddr)
    (hasc : Ascending (fun a => (a - base).toNat) (breakpoints.insertIdx m guestAddr)) :
    Breakpoints base (calls ++ [(guestAddr, 0)]) (breakpoints.insertIdx m guestAddr) where
  bound := by
    rw [List.length_insertIdx_of_le_length hm]
    omega
  window a ha := by
    rcases (List.mem_insertIdx hm).mp ha with rfl | ha
    · exact hin
    · exact h.window a ha
  ascending := hasc
  nodup := (List.perm_insertIdx guestAddr breakpoints hm).nodup_iff.mpr
    (List.nodup_cons.mpr ⟨hnew, h.nodup⟩)
  added q := by
    rw [List.mem_insertIdx hm, h.added, List.mem_append, List.mem_singleton, Prod.mk.injEq,
      or_comm, and_iff_left rfl]

/-- One call. -/
theorem addBreakpoint (h : Breakpoints base calls breakpoints) {guestAddr : Word}
    (hin : guestAddr.toNat % 4 = 0 → InWindow base guestAddr) :
    ∃ rc breakpoints', addBreakpoint breakpoints guestAddr = .ok (rc, breakpoints') ∧
      Breakpoints base (calls ++ [(guestAddr, rc)]) breakpoints' := by
  unfold Hyrule.addBreakpoint
  split
  next => exact ⟨-2, breakpoints, rfl, h.unchanged (by omega)⟩
  next haligned =>
    split
    next => exact ⟨-1, breakpoints, rfl, h.unchanged (by omega)⟩
    next hfree =>
      rw [h.isAddressBreakpoint, ok_bind]
      split
      next hstored =>
        exact ⟨0, breakpoints, rfl, h.unchanged fun _ => of_decide_eq_true hstored⟩
      next hnew =>
        have hin' : InWindow base guestAddr :=
          hin (not_not.mp fun hmis => haligned ((misaligned_iff guestAddr).mpr hmis))
        have hall : ∀ a ∈ breakpoints ++ [guestAddr], InWindow base a := by
          intro a ha
          rcases List.mem_append.mp ha with ha | ha
          · exact h.window a ha
          · exact List.mem_singleton.mp ha ▸ hin'
        obtain ⟨m, hm, hsort, hasc⟩ := insertionSort_sorted (addrCmp_follows hall) h.ascending
        rw [hsort, ok_bind]
        exact ⟨0, _, rfl, h.inserted hm (by omega) (fun hmem => hnew (decide_eq_true hmem)) hin'
          hasc⟩

/-- The table is a set. -/
theorem set (h : Breakpoints base calls breakpoints) : BreakpointSet calls breakpoints where
  member q := by
    rw [h.isAddressBreakpoint, decide_eq_decide.mpr (h.added q)]
  nodup := h.nodup
  refused guestAddr hbad := by
    unfold Hyrule.addBreakpoint
    by_cases hmis : guestAddr &&& 3 ≠ 0
    · exact ⟨-2, by decide, if_pos hmis⟩
    · have hfull : breakpoints.length = maxBreakpoints :=
        hbad.resolve_left fun hne => hmis ((misaligned_iff guestAddr).mpr hne)
      rw [if_neg hmis, if_pos (Nat.le_of_eq hfull.symm)]
      exact ⟨-1, by decide, rfl⟩
  stored guestAddr hmem := by
    unfold Hyrule.addBreakpoint
    split
    next => exact ⟨-2, rfl⟩
    next =>
      split
      next => exact ⟨-1, rfl⟩
      next =>
        rw [h.isAddressBreakpoint, ok_bind, if_pos (decide_eq_true hmem)]
        exact ⟨0, rfl⟩

end Breakpoints

/-- Calls with addresses of a window of `2^31` bytes, those that are not aligned apart. -/
theorem addBreakpoints_window {base : Word} {addrs : List Word}
    (h : ∀ guestAddr ∈ addrs, guestAddr.toNat % 4 = 0 → InWindow base guestAddr) :
    ∃ calls breakpoints, addBreakpoints addrs = .ok (calls, breakpoints) ∧
      calls.map Prod.fst = addrs ∧ Breakpoints base calls breakpoints := by
  induction addrs using List.reverseRecOn with
  | nil =>
    refine ⟨[], [], rfl, rfl, ?_⟩
    exact ⟨Nat.zero_le _, by simp, List.Pairwise.nil, List.nodup_nil, by simp⟩
  | append_singleton addrs guestAddr ih =>
    obtain ⟨calls, breakpoints, hrun, hcalls, hbps⟩ :=
      ih fun a ha => h a (List.mem_append_left _ ha)
    obtain ⟨rc, breakpoints', hcall, hbps'⟩ := hbps.addBreakpoint (h guestAddr (by simp))
    refine ⟨calls ++ [(guestAddr, rc)], breakpoints', ?_, by simp [hcalls], hbps'⟩
    unfold addBreakpoints at hrun ⊢
    rw [List.foldlM_append, hrun, ok_bind, List.foldlM_cons, hcall]
    rfl

/-- The table is the set of the addresses that were added, if the aligned ones among them lie in
one window of `2^31` bytes. -/
theorem addBreakpoints_set {base : Word} {addrs : List Word}
    (h : ∀ guestAddr ∈ addrs, guestAddr.toNat % 4 = 0 → InWindow base guestAddr) :
    ∃ calls breakpoints, addBreakpoints addrs = .ok (calls, breakpoints) ∧
      calls.map Prod.fst = addrs ∧ BreakpointSet calls breakpoints := by
  obtain ⟨calls, breakpoints, hrun, hcalls, hbps⟩ := addBreakpoints_window h
  exact ⟨calls, breakpoints, hrun, hcalls, hbps.set⟩

/-- Code at `0x10000` and a page up to `0x8000ffff` fit into a window. -/
theorem addBreakpoints_set_code :
    (∀ guestAddr ∈ [0x10000, 0x10006, 0x7ffff000, (0x10000 : Word)],
      guestAddr.toNat % 4 = 0 → InWindow 0x10000 guestAddr) ∧
    ∃ calls breakpoints,
      addBreakpoints [0x10000, 0x10006, 0x7ffff000, 0x10000] = .ok (calls, breakpoints) ∧
        BreakpointSet calls breakpoints := by
  have hwindow : ∀ guestAddr ∈ [0x10000, 0x10006, 0x7ffff000, (0x10000 : Word)],
      guestAddr.toNat % 4 = 0 → InWindow 0x10000 guestAddr := by
    simp [InWindow]
  obtain ⟨calls, breakpoints, hrun, -, hset⟩ := addBreakpoints_set hwindow
  exact ⟨hwindow, calls, breakpoints, hrun, hset⟩

/-- With breakpoints in low and in high memory, one that was added is not found. -/
theorem addBreakpoints_missed :
    ¬ ∃ calls breakpoints,
      addBreakpoints [0, 0xc0000000, 0x40000000, 0x10000] = .ok (calls, breakpoints) ∧
        BreakpointSet calls breakpoints := by
  have hrun : addBreakpoints [0, 0xc0000000, 0x40000000, 0x10000] =
      .ok ([(0, 0), (0xc0000000, 0), (0x40000000, 0), (0x10000, 0)],
        [0x10000, 0x40000000, 0xc0000000, 0]) := by
    decide +kernel
  -- The search leaves the half of the table that holds the address.
  have hsearch : isAddressBreakpoint [0x10000, 0x40000000, 0xc0000000, 0] 0xc0000000 =
      .ok false := by
    decide +kernel
  rintro ⟨calls, breakpoints, hrun', hset⟩
  rw [hrun, Except.ok.injEq, Prod.mk.injEq] at hrun'
  have hfound := hset.member 0xc0000000
  rw [← hrun'.1, ← hrun'.2, hsearch, Except.ok.injEq] at hfound
  have hadded : ((0xc0000000 : Word), (0 : Int)) ∈
      [(0, 0), (0xc0000000, 0), (0x40000000, 0), (0x10000, 0)] :=
    List.mem_cons_of_mem _ List.mem_cons_self
  exact of_decide_eq_false hfound.symm hadded

end Hyrule
