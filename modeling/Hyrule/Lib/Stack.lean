import Mathlib.Data.BitVec
import Mathlib.Logic.Function.Basic
import Mathlib.Tactic.Common

/-!
# Stacks in memory

The part of a 64-bit x86 processor that hand-written code for stacks uses: pushes, pops,
and the moves between the stack pointer and a register.  Memory is an array of bytes, and
a stack grows to lower addresses.  The registers are arbitrary, and a slot is what one push
saves: a register, the flags or the address of the next instruction.

Pushing a list of slots leaves their values in a block of memory below the stack pointer
(`exec_pushes`).  Popping a block back sets the slots to its values (`exec_pops`), and a
block that holds all the slots restores the whole context (`exec_pops_context`), wherever
the processor has been in between.
-/

namespace Lib.Stack

/-- A 64-bit value. -/
abbrev Quad := BitVec 64

/-- The bytes at the addresses. -/
abbrev Memory := Quad → BitVec 8

/-! ## Blocks of memory -/

/-- `x` is one of the `n` bytes from `a` on. -/
def InBlock (a : Quad) (n : Nat) (x : Quad) : Prop := (x - a).toNat < n

/-- A block inside a block. -/
theorem InBlock.shift {a x : Quad} {k n size : Nat} (h : InBlock (a + BitVec.ofNat 64 k) n x)
    (hsize : k + n ≤ size) : InBlock a size x := by
  unfold InBlock at h ⊢
  bv_omega

/-- An address without low bits is the same rounded down. -/
theorem and_not_low {a : Quad} {k : Nat} (h : a.toNat % 2 ^ k = 0) (hk : k < 64) :
    a &&& ~~~BitVec.ofNat 64 (2 ^ k - 1) = a := by
  have hsize : 2 ^ k < 2 ^ 64 := Nat.pow_lt_pow_right (by decide) hk
  have hlow : a &&& BitVec.ofNat 64 (2 ^ k - 1) = 0 := by
    refine BitVec.eq_of_toNat_eq ?_
    rw [BitVec.toNat_and, BitVec.toNat_ofNat, Nat.mod_eq_of_lt (by omega),
      Nat.and_two_pow_sub_one_eq_mod, h]
    rfl
  ext i hi
  have hbit := congrArg (fun x : Quad => x.getLsbD i) hlow
  simp only [BitVec.getLsbD_and] at hbit
  rw [BitVec.getElem_and, BitVec.getElem_not, ← BitVec.getLsbD_eq_getElem,
    ← BitVec.getLsbD_eq_getElem]
  cases hbit' : a.getLsbD i with
  | false => rfl
  | true =>
    rw [hbit', Bool.true_and] at hbit
    rw [hbit]
    simp

/-- Two memories agree on some bytes. -/
def Agree (P : Quad → Prop) (m m' : Memory) : Prop := ∀ x, P x → m' x = m x

theorem Agree.refl (P : Quad → Prop) (m : Memory) : Agree P m m := fun _ _ => rfl

theorem Agree.trans {P : Quad → Prop} {m m' m'' : Memory} (h : Agree P m m')
    (h' : Agree P m' m'') : Agree P m m'' := fun x hx => (h' x hx).trans (h x hx)

theorem Agree.mono {P Q : Quad → Prop} {m m' : Memory} (h : Agree Q m m')
    (hPQ : ∀ x, P x → Q x) : Agree P m m' := fun x hx => h x (hPQ x hx)

/-- Eight bytes, the lowest first. -/
def readQuad (m : Memory) (a : Quad) : Quad :=
  m (a + 7) ++ m (a + 6) ++ m (a + 5) ++ m (a + 4) ++ m (a + 3) ++ m (a + 2) ++ m (a + 1) ++ m a

/-- Eight bytes are written. -/
def writeQuad (m : Memory) (a v : Quad) : Memory := fun x =>
  if (x - a).toNat < 8 then v.extractLsb' (8 * (x - a).toNat) 8 else m x

/-- `memset`. -/
def memset (m : Memory) (a : Quad) (byte : BitVec 8) (n : Nat) : Memory := fun x =>
  if (x - a).toNat < n then byte else m x

theorem readQuad_congr {m m' : Memory} {a : Quad} (h : Agree (InBlock a 8) m m') :
    readQuad m' a = readQuad m a := by
  have hbyte : ∀ i : Quad, i.toNat < 8 → m' (a + i) = m (a + i) := by
    intro i hi
    refine h _ ?_
    rwa [InBlock, BitVec.add_comm, BitVec.add_sub_cancel]
  have hfirst : m' a = m a := by simpa using hbyte 0 (by decide)
  simp only [readQuad, hfirst, hbyte 7 (by decide), hbyte 6 (by decide), hbyte 5 (by decide),
    hbyte 4 (by decide), hbyte 3 (by decide), hbyte 2 (by decide), hbyte 1 (by decide)]

theorem append_bytes (v : Quad) :
    v.extractLsb' 56 8 ++ v.extractLsb' 48 8 ++ v.extractLsb' 40 8 ++ v.extractLsb' 32 8 ++
      v.extractLsb' 24 8 ++ v.extractLsb' 16 8 ++ v.extractLsb' 8 8 ++ v.extractLsb' 0 8 = v := by
  simp only [BitVec.extractLsb'_append_extractLsb'_eq_extractLsb']
  simp

theorem readQuad_writeQuad (m : Memory) (a v : Quad) : readQuad (writeQuad m a v) a = v := by
  have hbyte : ∀ i : Quad, i.toNat < 8 →
      writeQuad m a v (a + i) = v.extractLsb' (8 * i.toNat) 8 := by
    intro i hi
    rw [writeQuad, BitVec.add_comm, BitVec.add_sub_cancel, if_pos hi]
  have hfirst : writeQuad m a v a = v.extractLsb' 0 8 := by simpa using hbyte 0 (by decide)
  simp only [readQuad, hfirst, hbyte 7 (by decide), hbyte 6 (by decide), hbyte 5 (by decide),
    hbyte 4 (by decide), hbyte 3 (by decide), hbyte 2 (by decide), hbyte 1 (by decide)]
  exact append_bytes v

theorem agree_writeQuad (m : Memory) (a v : Quad) :
    Agree (fun x => ¬ InBlock a 8 x) m (writeQuad m a v) := fun _ hx => if_neg hx

theorem agree_memset (m : Memory) (a : Quad) (byte : BitVec 8) (n : Nat) :
    Agree (fun x => ¬ InBlock a n x) m (memset m a byte n) := fun _ hx => if_neg hx

/-! ## Blocks of quads -/

/-- The quads `vs` stand in memory from `a` on. -/
def HoldsQuads (m : Memory) : Quad → List Quad → Prop
  | _, [] => True
  | a, v :: vs => readQuad m a = v ∧ HoldsQuads m (a + 8) vs

theorem inBlock_head {a x : Quad} {n : Nat} (h : InBlock a 8 x) : InBlock a (8 * (n + 1)) x := by
  unfold InBlock at h ⊢
  omega

theorem inBlock_tail {a x : Quad} {n : Nat} (h : InBlock (a + 8) (8 * n) x) :
    InBlock a (8 * (n + 1)) x :=
  h.shift (k := 8) (by omega)

theorem not_inBlock_head {a x : Quad} {n : Nat} (hn : 8 * (n + 1) ≤ 2 ^ 64)
    (h : InBlock (a + 8) (8 * n) x) : ¬ InBlock a 8 x := by
  unfold InBlock at h ⊢
  bv_omega

/-- A block is read from its own bytes. -/
theorem HoldsQuads.congr {m m' : Memory} {a : Quad} {vs : List Quad} (h : HoldsQuads m a vs)
    (hlen : 8 * vs.length ≤ 2 ^ 64) (hagree : Agree (InBlock a (8 * vs.length)) m m') :
    HoldsQuads m' a vs := by
  induction vs generalizing a with
  | nil => trivial
  | cons v vs ih =>
    obtain ⟨hread, hrest⟩ := h
    rw [List.length_cons] at hlen hagree
    refine ⟨?_, ih hrest (by omega) (hagree.mono fun x => inBlock_tail)⟩
    rw [readQuad_congr (hagree.mono fun x => inBlock_head), hread]

/-- The second part of a block. -/
theorem HoldsQuads.append {m : Memory} {a : Quad} {vs ws : List Quad}
    (h : HoldsQuads m a (vs ++ ws)) :
    HoldsQuads m a vs ∧ HoldsQuads m (a + BitVec.ofNat 64 (8 * vs.length)) ws := by
  induction vs generalizing a with
  | nil => exact ⟨trivial, by simpa using h⟩
  | cons v vs ih =>
    obtain ⟨hread, hrest⟩ := h
    have haddr : a + BitVec.ofNat 64 (8 * (vs.length + 1)) =
        a + 8 + BitVec.ofNat 64 (8 * vs.length) := by
      bv_omega
    obtain ⟨hvs, hws⟩ := ih hrest
    rw [List.length_cons, haddr]
    exact ⟨⟨hread, hvs⟩, hws⟩

/-- A write in front of a block makes it longer. -/
theorem HoldsQuads.write_front {m : Memory} {a v : Quad} {vs : List Quad}
    (h : HoldsQuads m (a + 8) vs) (hlen : 8 * (vs.length + 1) ≤ 2 ^ 64) :
    HoldsQuads (writeQuad m a v) a (v :: vs) := by
  refine ⟨readQuad_writeQuad m a v, h.congr (by omega) ?_⟩
  exact (agree_writeQuad m a v).mono fun x => not_inBlock_head hlen

/-- A write to a quad of a block. -/
theorem HoldsQuads.write {m : Memory} {a v : Quad} {vs : List Quad} (h : HoldsQuads m a vs)
    (hlen : 8 * vs.length ≤ 2 ^ 64) {i : Nat} (hi : i < vs.length) :
    HoldsQuads (writeQuad m (a + BitVec.ofNat 64 (8 * i)) v) a (vs.set i v) := by
  induction vs generalizing a i with
  | nil => cases hi
  | cons w vs ih =>
    obtain ⟨hread, hrest⟩ := h
    rw [List.length_cons] at hlen hi
    cases i with
    | zero =>
      rw [Nat.mul_zero, BitVec.add_zero, List.set_cons_zero]
      exact hrest.write_front hlen
    | succ i =>
      have haddr : a + BitVec.ofNat 64 (8 * (i + 1)) = a + 8 + BitVec.ofNat 64 (8 * i) := by
        bv_omega
      have hapart : ∀ x, InBlock a 8 x → ¬ InBlock (a + BitVec.ofNat 64 (8 * (i + 1))) 8 x := by
        intro x hx
        unfold InBlock at hx ⊢
        bv_omega
      refine ⟨?_, ?_⟩
      · rw [readQuad_congr ((agree_writeQuad m _ v).mono hapart), hread]
      · rw [haddr]
        exact ih hrest (by omega) (by omega)

/-- Zeros are a block of zeros. -/
theorem holds_memset (m : Memory) (a : Quad) (n : Nat) (hn : 8 * n ≤ 2 ^ 64) :
    HoldsQuads (memset m a 0 (8 * n)) a (List.replicate n 0) := by
  have hzero : ∀ k b, (∀ x, InBlock b (8 * k) x → InBlock a (8 * n) x) → 8 * k ≤ 2 ^ 64 →
      HoldsQuads (memset m a 0 (8 * n)) b (List.replicate k 0) := by
    intro k
    induction k with
    | zero => exact fun _ _ _ => trivial
    | succ k ih =>
      intro b hb hk
      refine ⟨?_, ih (b + 8) (fun x hx => hb x (inBlock_tail hx)) (by omega)⟩
      have hbytes : Agree (InBlock b 8) (fun _ => 0) (memset m a 0 (8 * n)) :=
        fun x hx => if_pos (hb x (inBlock_head hx))
      rw [readQuad_congr hbytes, readQuad]
      decide
  exact hzero n a (fun _ hx => hx) hn

/-! ## The processor -/

variable {ρ : Type}

/-- The registers of a processor. -/
structure Context (ρ : Type) where
  regs : ρ → Quad
  /-- The flags that code can set. -/
  rflags : Quad
  rsp : Quad
  /-- The address of the next instruction. -/
  rip : Quad

/-- What one push saves. -/
inductive Slot (ρ : Type) where
  | reg (r : ρ)
  | rflags
  | rip
deriving DecidableEq

/-- The value of a slot. -/
def Context.get (c : Context ρ) : Slot ρ → Quad
  | .reg r => c.regs r
  | .rflags => c.rflags
  | .rip => c.rip

/-- A slot gets a value. -/
def Context.set [DecidableEq ρ] (c : Context ρ) : Slot ρ → Quad → Context ρ
  | .reg r, v => { c with regs := Function.update c.regs r v }
  | .rflags, v => { c with rflags := v }
  | .rip, v => { c with rip := v }

/-- The stack pointer moves. -/
def Context.withRsp (c : Context ρ) (rsp : Quad) : Context ρ := { c with rsp }

@[simp] theorem Context.get_withRsp (c : Context ρ) (rsp : Quad) (s : Slot ρ) :
    (c.withRsp rsp).get s = c.get s := by
  cases s <;> rfl

@[simp] theorem Context.rsp_withRsp (c : Context ρ) (rsp : Quad) : (c.withRsp rsp).rsp = rsp := rfl

@[simp] theorem Context.rsp_set [DecidableEq ρ] (c : Context ρ) (s : Slot ρ) (v : Quad) :
    (c.set s v).rsp = c.rsp := by
  cases s <;> rfl

theorem Context.get_set [DecidableEq ρ] (c : Context ρ) (s t : Slot ρ) (v : Quad) :
    (c.set s v).get t = if t = s then v else c.get t := by
  cases s with
  | reg r =>
    cases t with
    | reg r' => simp [Context.set, Context.get, Function.update_apply]
    | rflags => rfl
    | rip => rfl
  | rflags => cases t <;> simp [Context.set, Context.get]
  | rip => cases t <;> simp [Context.set, Context.get]

theorem Context.ext_get {c c' : Context ρ} (hget : ∀ s, c.get s = c'.get s)
    (hrsp : c.rsp = c'.rsp) : c = c' := by
  obtain ⟨regs, rflags, rsp, rip⟩ := c
  obtain ⟨regs', rflags', rsp', rip'⟩ := c'
  obtain rfl : regs = regs' := funext fun r => hget (.reg r)
  obtain rfl : rflags = rflags' := hget .rflags
  obtain rfl : rip = rip' := hget .rip
  obtain rfl : rsp = rsp' := hrsp
  rfl

/-! ## Code -/

/-- The instructions.  The instruction that pushes the address of the next one is the call, and
the one that pops it is the return. -/
inductive Instr (ρ : Type) where
  | push (s : Slot ρ)
  | pop (s : Slot ρ)
  | movqFromRsp (dst : ρ)
  | movqToRsp (src : ρ)

/-- The processor and the memory. -/
structure State (ρ : Type) where
  context : Context ρ
  memory : Memory

/-- One instruction. -/
def Instr.exec [DecidableEq ρ] (st : State ρ) : Instr ρ → State ρ
  | .push s =>
      ⟨st.context.withRsp (st.context.rsp - 8),
        writeQuad st.memory (st.context.rsp - 8) (st.context.get s)⟩
  | .pop s =>
      ⟨(st.context.set s (readQuad st.memory st.context.rsp)).withRsp (st.context.rsp + 8),
        st.memory⟩
  | .movqFromRsp dst => ⟨st.context.set (.reg dst) st.context.rsp, st.memory⟩
  | .movqToRsp src => ⟨st.context.withRsp (st.context.regs src), st.memory⟩

/-- The instructions in their order. -/
def exec [DecidableEq ρ] (code : List (Instr ρ)) (st : State ρ) : State ρ :=
  code.foldl Instr.exec st

variable [DecidableEq ρ]

theorem exec_append (code code' : List (Instr ρ)) (st : State ρ) :
    exec (code ++ code') st = exec code' (exec code st) := List.foldl_append

/-- Pushes leave the context but for the stack pointer, and the bytes outside their block. -/
theorem exec_pushes (slots : List (Slot ρ)) (st : State ρ) (hroom : 8 * slots.length < 2 ^ 64) :
    (∀ s, (exec (slots.map .push) st).context.get s = st.context.get s) ∧
    (exec (slots.map .push) st).context.rsp =
      st.context.rsp - BitVec.ofNat 64 (8 * slots.length) ∧
    Agree (fun x => ¬ InBlock (st.context.rsp - BitVec.ofNat 64 (8 * slots.length))
      (8 * slots.length) x) st.memory (exec (slots.map .push) st).memory := by
  induction slots generalizing st with
  | nil => simp [exec, Agree]
  | cons s slots ih =>
    rw [List.length_cons] at hroom
    obtain ⟨hget, hrsp, hagree⟩ := ih (Instr.exec st (.push s)) (by omega)
    have hexec : exec ((s :: slots).map .push) st =
        exec (slots.map .push) (Instr.exec st (.push s)) := rfl
    have hpushed : (Instr.exec st (.push s)).context.rsp = st.context.rsp - 8 := rfl
    have haddr : st.context.rsp - 8 - BitVec.ofNat 64 (8 * slots.length) =
        st.context.rsp - BitVec.ofNat 64 (8 * (slots.length + 1)) := by
      bv_omega
    rw [hpushed, haddr] at hrsp hagree
    rw [hexec, List.length_cons]
    refine ⟨fun t => ?_, hrsp, fun x hx => ?_⟩
    · rw [hget t]
      exact st.context.get_withRsp _ t
    · rw [hagree x fun hin => hx ?_]
      · refine agree_writeQuad st.memory (st.context.rsp - 8) _ x fun hin => hx ?_
        unfold InBlock at hin ⊢
        bv_omega
      · unfold InBlock at hin ⊢
        bv_omega

/-- Pushes put the values of the slots in front of what stands at the stack pointer. -/
theorem holds_pushes (slots : List (Slot ρ)) (st : State ρ) {vs : List Quad}
    (hvs : HoldsQuads st.memory st.context.rsp vs)
    (hroom : 8 * (slots.length + vs.length) ≤ 2 ^ 64) :
    HoldsQuads (exec (slots.map .push) st).memory (exec (slots.map .push) st).context.rsp
      (slots.reverse.map st.context.get ++ vs) := by
  induction slots generalizing st vs with
  | nil => exact hvs
  | cons s slots ih =>
    rw [List.length_cons] at hroom
    have hpushed : HoldsQuads (Instr.exec st (.push s)).memory (Instr.exec st (.push s)).context.rsp
        (st.context.get s :: vs) := by
      refine HoldsQuads.write_front ?_ (by omega)
      rwa [BitVec.sub_add_cancel]
    have hrest := ih (Instr.exec st (.push s)) hpushed (by rw [List.length_cons]; omega)
    have hget : (Instr.exec st (.push s)).context.get = st.context.get :=
      funext (st.context.get_withRsp _)
    rw [hget] at hrest
    rw [List.reverse_cons, List.map_append, List.append_assoc]
    exact hrest

/-- Pops set the slots to the quads at the stack pointer. -/
theorem exec_pops (slots : List (Slot ρ)) (st : State ρ) {f : Slot ρ → Quad}
    (h : HoldsQuads st.memory st.context.rsp (slots.map f)) :
    (exec (slots.map .pop) st).memory = st.memory ∧
    (exec (slots.map .pop) st).context.rsp =
      st.context.rsp + BitVec.ofNat 64 (8 * slots.length) ∧
    ∀ s, (exec (slots.map .pop) st).context.get s =
      if s ∈ slots then f s else st.context.get s := by
  induction slots generalizing st with
  | nil => simp [exec]
  | cons s slots ih =>
    obtain ⟨hread, hrest⟩ := h
    obtain ⟨hmemory, hrsp, hget⟩ := ih (Instr.exec st (.pop s)) hrest
    have hpopped : (Instr.exec st (.pop s)).context.rsp = st.context.rsp + 8 := rfl
    have haddr : st.context.rsp + 8 + BitVec.ofNat 64 (8 * slots.length) =
        st.context.rsp + BitVec.ofNat 64 (8 * (slots.length + 1)) := by
      bv_omega
    refine ⟨hmemory, ?_, fun t => ?_⟩
    · rw [List.length_cons, ← haddr, ← hpopped]
      exact hrsp
    · have hset : (Instr.exec st (.pop s)).context.get t =
          if t = s then f s else st.context.get t := by
        rw [← hread]
        exact (Context.get_withRsp _ _ t).trans (st.context.get_set s t _)
      refine (hget t).trans ?_
      rw [hset]
      by_cases hts : t = s
      · subst hts
        simp
      · simp [hts]

/-- Pops of all slots restore a context that a block holds. -/
theorem exec_pops_context {slots : List (Slot ρ)} (st : State ρ) {c : Context ρ}
    (hall : ∀ s, s ∈ slots) (h : HoldsQuads st.memory st.context.rsp (slots.map c.get))
    (hrsp : c.rsp = st.context.rsp + BitVec.ofNat 64 (8 * slots.length)) :
    exec (slots.map .pop) st = ⟨c, st.memory⟩ := by
  obtain ⟨hmemory, hrsp', hget⟩ := exec_pops slots st h
  have hcontext : (exec (slots.map .pop) st).context = c := by
    refine Context.ext_get (fun s => ?_) (hrsp'.trans hrsp.symm)
    rw [hget s, if_pos (hall s)]
  rw [← hcontext, ← hmemory]

end Lib.Stack
