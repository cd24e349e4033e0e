import DeSearch.Lib.Frames
import DeSearch.ObliviousFunctions

/-!
# What the oblivious functions do

The effects of the routines of `ObliviousFunctions` on the memory. On their flag, the assignments
write values that they have read before, and the moves copy as many bytes as eight times the number
of chunks in the low word of the size. Without the flag, each writes back what is there.

* `assignments_return` and `moves_return`: each routine returns to its caller with its effect.
-/

namespace DeSearch

open X86 Memory

/-- A flag of this width is set: it is one. -/
def isOne (w : Width) (v : BitVec 64) : Bool := v.setWidth w.bits == BitVec.ofInt w.bits 1

theorem beq_one (w : Width) (v : BitVec 64) :
    (v.setWidth w.bits == BitVec.ofInt w.bits 1) = isOne w v := rfl

/-! ## Assignments -/

/-- An assignment on a flag: the cells that it sets, and their values before any is set. -/
structure Assignment where
  code : List Instr
  flag : Args → Bool
  sets : Args → List (Addr × (Mem → BitVec 32))

namespace Assignment

def effect (f : Assignment) (args : Args) (mem : Mem) : Mem :=
  if f.flag args then (f.sets args).foldl (fun mem' s => store mem' s.1 4 (s.2 mem)) mem else mem

/-- `oset_value`, `oset_block_as_dummy` and `pd_setdeepest`. -/
def setOnFlag : Assignment where
  code := DeSearch.setOnFlag
  flag a := isOne .dword a.rdx
  sets a := [(a.rdi, fun _ => a.rsi.setWidth 32)]

/-- The caller's flag is in `esi`. The code compares `edx`, and that decides. -/
def oincrementValue : Assignment where
  code := DeSearch.oincrementValue
  flag a := isOne .dword a.rdx
  sets a := [(a.rdi, fun mem => load mem a.rdi 4 + 1)]

def ptSetSrcDest : Assignment where
  code := DeSearch.ptSetSrcDest
  flag a := isOne .dword a.r8
  sets a := [(a.rdi, fun _ => a.rdx.setWidth 32), (a.rsi, fun _ => a.rcx.setWidth 32)]

def ptSetTargetPosition : Assignment where
  code := DeSearch.ptSetTargetPosition
  flag a := isOne .dword a.rcx
  sets a := [(a.rdi, fun _ => a.rsi.setWidth 32), (a.rdx, fun _ => 1)]

def ptSettarget : Assignment where
  code := DeSearch.ptSettarget
  flag a := isOne .dword a.rcx
  sets a := [(a.rdi, fun mem => load mem a.rsi 4), (a.rdx, fun _ => -1), (a.rsi, fun _ => -1)]

def osetHoldDest : Assignment where
  code := DeSearch.osetHoldDest
  flag a := isOne .dword a.rcx
  sets a := [(a.rdi, fun _ => -1), (a.rsi, fun _ => -1), (a.rdx, fun _ => 1)]

def oassignNewlabel : Assignment where
  code := DeSearch.oassignNewlabel
  flag a := isOne .qword a.rdx
  sets a := [(a.rdi, fun _ => a.rsi.setWidth 32)]

def ofixRecursion : Assignment where
  code := DeSearch.ofixRecursion
  flag a := isOne .qword a.rsi
  sets a := [(a.rcx, fun mem => load mem a.rdi 4), (a.rdi, fun _ => a.rdx.setWidth 32)]

def osetGoalSource : Assignment where
  code := DeSearch.osetGoalSource
  flag a := isOne .dword a.rdx
  sets a := [(a.rcx, fun _ => a.rdi.setWidth 32), (a.r8, fun _ => a.rsi.setWidth 32)]

/-- Its flag is that `i` is `loc`. -/
def omove : Assignment where
  code := DeSearch.omove
  flag a := a.rdi.setWidth Width.dword.bits == a.rdx.setWidth Width.dword.bits
  sets a := [(a.rcx, fun mem => load mem a.rsi 4), (a.rsi, fun _ => a.r8.setWidth 32)]

end Assignment

/-- The assignments that use no registers of their caller. -/
def leafAssignments : List Assignment :=
  [.setOnFlag, .oincrementValue, .ptSetSrcDest, .ptSetTargetPosition, .ptSettarget, .osetHoldDest,
   .oassignNewlabel, .ofixRecursion, .osetGoalSource]

def assignments : List Assignment := .omove :: leafAssignments

/-- The code up to its `ret`. -/
theorem exec_leafAssignments (m : Machine) : ∀ f ∈ leafAssignments,
    ∃ m', execAll f.code.dropLast m = some m' ∧ m'.mem = f.effect m.regs.args m.mem ∧
      m'.regs.rsp = m.regs.rsp ∧ ∀ r ∈ calleeSaved, m'.regs.get r = m.regs.get r := by
  obtain ⟨⟨rax, rbx, rcx, rdx, rsi, rdi, rbp, rsp, r8, r9, r10, r11, r12, r13, r14, r15⟩,
    zf, mem⟩ := m
  simp only [leafAssignments, List.forall_mem_cons]
  refine ⟨?_, ?_, ?_, ?_, ?_, ?_, ?_, ?_, ?_, by simp⟩ <;>
  simp only [Assignment.setOnFlag, Assignment.oincrementValue, Assignment.ptSetSrcDest,
    Assignment.ptSetTargetPosition, Assignment.ptSettarget, Assignment.osetHoldDest,
    Assignment.oassignNewlabel, Assignment.ofixRecursion, Assignment.osetGoalSource, setOnFlag,
    oincrementValue, ptSetSrcDest, ptSetTargetPosition, ptSettarget, osetHoldDest, oassignNewlabel,
    ofixRecursion, osetGoalSource, List.dropLast, execAll_cons, execAll_nil, Instr.exec,
    Option.bind_some, Option.map_some, Machine.write, Machine.read, Machine.value, Machine.address,
    Regs.get, Regs.set, Width.merge, Option.some.injEq, exists_eq_left', Assignment.effect,
    Regs.args, List.foldl, beq_one]
  all_goals refine ⟨?_, trivial, by simp [calleeSaved]⟩
  -- without the flag, what was loaded is stored again
  all_goals split_ifs <;> simp [Width.bits, Width.bytes, store_load, Alu.apply] <;> rfl

/-- The cells that an assignment reads are among those that it sets. -/
theorem Assignment.value_congr {f : Assignment} (hf : f ∈ assignments) {args : Args}
    {mem mem' : Mem} (h : ∀ s ∈ f.sets args, ∀ x, Within s.1 4 x → mem x = mem' x) :
    ∀ s ∈ f.sets args, s.2 mem = s.2 mem' := by
  have hload : ∀ a, (∀ x, Within a 4 x → mem x = mem' x) → load mem a 4 = load mem' a 4 :=
    fun a ha => load_congr_of_within (by decide) ha
  revert f
  simp only [assignments, leafAssignments, List.forall_mem_cons, omove, setOnFlag, oincrementValue,
    ptSetSrcDest, ptSetTargetPosition, ptSettarget, osetHoldDest, oassignNewlabel, ofixRecursion,
    osetGoalSource]
  refine ⟨?_, ?_, ?_, ?_, ?_, ?_, ?_, ?_, ?_, ?_, by simp⟩ <;> simp +contextual [hload]

theorem foldl_store_of_not_within {x : Addr} (mem : Mem) {sets : List (Addr × (Mem → BitVec 32))}
    (h : ∀ s ∈ sets, ¬Within s.1 4 x) (mem' : Mem) :
    sets.foldl (fun mem' s => store mem' s.1 4 (s.2 mem)) mem' x = mem' x := by
  induction sets generalizing mem' with
  | nil => rfl
  | cons s sets ih =>
      rw [List.forall_mem_cons] at h
      rw [List.foldl_cons, ih h.2, store_of_not_within h.1]

theorem Assignment.effect_of_not_within {f : Assignment} {args : Args} {mem : Mem} {x : Addr}
    (h : ∀ s ∈ f.sets args, ¬Within s.1 4 x) : f.effect args mem x = mem x := by
  unfold effect
  split_ifs
  · exact foldl_store_of_not_within mem h mem
  · rfl

theorem foldl_store_congr {S : Addr → Prop} {mem mem' : Mem}
    {sets : List (Addr × (Mem → BitVec 32))} (hvalue : ∀ s ∈ sets, s.2 mem = s.2 mem')
    {acc acc' : Mem} (h : ∀ x, S x → acc x = acc' x) : ∀ x, S x →
    sets.foldl (fun acc s => store acc s.1 4 (s.2 mem)) acc x =
      sets.foldl (fun acc s => store acc s.1 4 (s.2 mem')) acc' x := by
  induction sets generalizing acc acc' with
  | nil => exact h
  | cons s sets ih =>
      rw [List.forall_mem_cons] at hvalue
      rw [List.foldl_cons, List.foldl_cons, hvalue.1]
      exact ih hvalue.2 (store_congr h s.1 4 _)

theorem Assignment.effect_congr {f : Assignment} (hf : f ∈ assignments) {args : Args}
    {S : Addr → Prop} {mem mem' : Mem} (hS : ∀ s ∈ f.sets args, ∀ x, Within s.1 4 x → S x)
    (h : ∀ x, S x → mem x = mem' x) : ∀ x, S x → f.effect args mem x = f.effect args mem' x := by
  have hvalue := f.value_congr hf fun s hs x hx => h x (hS s hs x hx)
  unfold effect
  split_ifs
  · exact foldl_store_congr hvalue h
  · exact h

theorem code_leafAssignments : ∀ f ∈ leafAssignments, f.code = f.code.dropLast ++ [.ret] := by
  decide

/-- The return address is none of the cells that are set. -/
theorem returns_leaf {f : Assignment} (hf : f ∈ leafAssignments) {m : Machine}
    (hoff : ∀ s ∈ f.sets m.regs.args, Apart s.1 4 (m.regs.rsp - 48) 56) :
    Returns f.code m 48 (f.effect m.regs.args m.mem) := by
  obtain ⟨m', hexec, hmem, hsp, hsaved⟩ := exec_leafAssignments m f hf
  rw [code_leafAssignments f hf, ← hmem]
  refine returns_block hexec ?_ hsp hsaved 48
  rw [hmem]
  apply load_congr_of_within (by decide)
  intro x hx
  apply Assignment.effect_of_not_within
  intro s hs hx'
  have htop : Within (m.regs.rsp - 48 + BitVec.ofNat 64 48) 8 x := by
    change Within (m.regs.rsp - 48 + 48) 8 x
    rwa [sub_add_cancel]
  exact hoff s hs x hx' (htop.of_part (by decide) (by decide))

theorem exec_omove (m : Machine) :
    ∃ m', execAll ((omove.drop 6).take 7) m = some m' ∧ m'.regs.rsp = m.regs.rsp ∧
      m'.mem = Assignment.omove.effect m.regs.args m.mem := by
  obtain ⟨⟨rax, rbx, rcx, rdx, rsi, rdi, rbp, rsp, r8, r9, r10, r11, r12, r13, r14, r15⟩,
    zf, mem⟩ := m
  simp only [omove, saveRegisters, List.cons_append, List.nil_append, List.drop_succ_cons,
    List.drop_zero, List.take_succ_cons, List.take_zero, execAll_cons, execAll_nil, Instr.exec,
    Option.bind_some, Option.map_some, Machine.write, Machine.read, Machine.value, Machine.address,
    Regs.get, Regs.set, Width.merge, Option.some.injEq, exists_eq_left', Assignment.effect,
    Assignment.omove, Regs.args, List.foldl]
  refine ⟨trivial, ?_⟩
  split_ifs <;> simp [Width.bits, Width.bytes, store_load]

/-- The ranges that an assignment reads and writes. -/
def Assignment.ranges (f : Assignment) (args : Args) : List (Addr × Nat) :=
  (f.sets args).map fun s => (s.1, 4)

theorem Assignment.frame (f : Assignment) (args : Args) (mem : Mem) (x : Addr)
    (h : ∀ s ∈ f.ranges args, ¬Within s.1 s.2 x) : f.effect args mem x = mem x :=
  effect_of_not_within fun _ hs => h _ (List.mem_map_of_mem hs)

theorem Assignment.congr {f : Assignment} (hf : f ∈ assignments) (args : Args) (S : Addr → Prop)
    (mem mem' : Mem) (hS : ∀ s ∈ f.ranges args, ∀ x, Within s.1 s.2 x → S x) :
    (∀ x, S x → mem x = mem' x) → ∀ x, S x → f.effect args mem x = f.effect args mem' x :=
  f.effect_congr hf fun _ hs => hS _ (List.mem_map_of_mem hs)

def framedOmove : Framed where
  code := omove
  last := 13
  Pre _ := True
  ranges := Assignment.omove.ranges
  effect := Assignment.omove.effect
  pushes := by decide
  pops := by decide
  ret := rfl
  body m _ := by
    obtain ⟨m', hexec, hsp, hmem⟩ := exec_omove m
    exact ⟨m', reaches_block (by decide) hexec, hsp, hmem⟩
  frame := Assignment.omove.frame
  congr := Assignment.congr List.mem_cons_self

/-- **The assignments.** Each routine returns to its caller, with the registers that belong to it,
after it has set its cells if the flag is one, and without a change if it is not. -/
theorem assignments_return {f : Assignment} (hf : f ∈ assignments) {m : Machine}
    (hoff : ∀ s ∈ f.sets m.regs.args, Apart s.1 4 (m.regs.rsp - 48) 56) :
    Returns f.code m 48 (f.effect m.regs.args m.mem) := by
  rcases List.mem_cons.1 hf with heq | hleaf
  · subst heq
    refine framedOmove.returns m trivial fun r hr => ?_
    obtain ⟨s, hs, heq⟩ := List.mem_map.1 hr
    rw [← heq]
    exact hoff s hs
  · exact returns_leaf hleaf hoff

/-- A step `i` of a search for `loc`, in a memory filled with nines. The new label is seven. -/
def searchCall (i loc : BitVec 64) : Machine where
  regs := ⟨0, 0, 4096, loc, 8192, i, 0, 65536, 7, 0, 0, 0, 0, 0, 0, 0⟩
  zf := none
  mem := fun _ => 9

/-- The step at which the entry is found: it is read, and replaced by the new label. -/
theorem assignments_return_omove :
    Returns omove (searchCall 5 5) 48
      (Assignment.omove.effect (searchCall 5 5).regs.args fun _ => 9) ∧
    load (Assignment.omove.effect (searchCall 5 5).regs.args fun _ => 9) 4096 4 = 0x09090909 ∧
    load (Assignment.omove.effect (searchCall 5 5).regs.args fun _ => 9) 8192 4 = 7 := by
  refine ⟨assignments_return List.mem_cons_self fun s hs => ?_, by decide, by decide⟩
  rcases List.mem_cons.1 hs with heq | hs
  · subst heq
    exact apart_of_le (by decide) (by decide)
  · rw [List.mem_singleton.1 hs]
    exact apart_of_le (by decide) (by decide)

/-! ## Moves -/

/-- The turns of a loop over a size. -/
def chunks (size : BitVec 64) : Nat := (low size).toNat / 8

theorem chunks_lt (size : BitVec 64) : chunks size < 2 ^ 16 :=
  Nat.lt_of_le_of_lt (Nat.div_le_self _ _) (low size).isLt

theorem exec_moveChunk (m : Machine) :
    ∃ m', execAll moveChunk m = some m' ∧ m'.regs.rcx = m.regs.rcx ∧ m'.regs.rbp = m.regs.rbp ∧
      m'.regs.rsp = m.regs.rsp ∧ m'.regs.r10 = m.regs.r10 + 8 ∧ m'.regs.r11 = m.regs.r11 + 8 ∧
      m'.mem = if isOne .byte m.regs.rbp then copy m.mem m.regs.r10 m.regs.r11 8 else m.mem := by
  obtain ⟨⟨rax, rbx, rcx, rdx, rsi, rdi, rbp, rsp, r8, r9, r10, r11, r12, r13, r14, r15⟩,
    zf, mem⟩ := m
  simp only [moveChunk, execAll_cons, execAll_nil, Instr.exec, Option.bind_some, Machine.write,
    Machine.read, Machine.value, Machine.address, Regs.get, Regs.set, Width.merge, Option.map_some,
    Option.some.injEq, exists_eq_left', beq_one]
  refine ⟨trivial, trivial, trivial, BitVec.setWidth_eq _, BitVec.setWidth_eq _, ?_⟩
  split_ifs <;> simp [Width.bits, Width.bytes, store_load_eq_copy, copy_self]

/-- `n` of `total` turns are left. -/
structure Moving (m : Machine) (total n : Nat) (m' : Machine) : Prop where
  rcx : m'.regs.rcx = BitVec.ofNat 64 n
  le : n ≤ total
  rbp : m'.regs.rbp = m.regs.rbp
  rsp : m'.regs.rsp = m.regs.rsp
  r10 : m'.regs.r10 = m.regs.r10 + BitVec.ofNat 64 (8 * (total - n))
  r11 : m'.regs.r11 = m.regs.r11 + BitVec.ofNat 64 (8 * (total - n))
  mem : m'.mem = if isOne .byte m.regs.rbp then
    copy m.mem m.regs.r10 m.regs.r11 (8 * (total - n)) else m.mem

section
variable {code : List Instr} {pc : Nat} {m : Machine}

theorem reaches_moveChunks (hbody : CodeAt code pc moveChunk)
    (hloop : code[pc + 7]? = some (.loop pc)) {total : Nat} (hpos : 0 < total)
    (htotal : total < 2 ^ 16) (hcount : m.regs.rcx = BitVec.ofNat 64 total)
    (hapart : Apart m.regs.r11 (8 * total) m.regs.r10 (8 * total)) :
    ∃ m', Reaches code ⟨.run pc, m⟩ ⟨.run (pc + 8), m'⟩ ∧ m'.regs.rsp = m.regs.rsp ∧
      m'.mem = if isOne .byte m.regs.rbp then copy m.mem m.regs.r10 m.regs.r11 (8 * total)
        else m.mem := by
  have hturn : ∀ n m₁, Moving m total (n + 1) m₁ → ∃ m₂, execAll moveChunk m₁ = some m₂ ∧
      m₂.regs.rcx = BitVec.ofNat 64 (n + 1) ∧ Moving m total n m₂.counted := by
    intro n m₁ h
    obtain ⟨m₂, hexec, hrcx, hrbp, hrsp, hr10, hr11, hmem⟩ := exec_moveChunk m₁
    have hle := h.le
    have hnext : 8 * (total - n) = 8 * (total - (n + 1)) + 8 := by omega
    refine ⟨m₂, hexec, hrcx.trans h.rcx, ?_, by omega, hrbp.trans h.rbp, hrsp.trans h.rsp, ?_, ?_,
      ?_⟩
    · change m₂.regs.rcx - 1 = _
      rw [hrcx, h.rcx, BitVec.ofNat_add]
      exact add_sub_cancel_right _ _
    · change m₂.regs.r10 = _
      rw [hr10, h.r10, hnext, BitVec.ofNat_add, add_assoc]
      rfl
    · change m₂.regs.r11 = _
      rw [hr11, h.r11, hnext, BitVec.ofNat_add, add_assoc]
      rfl
    · change m₂.mem = _
      rw [hmem, h.mem, h.rbp, hnext]
      split_ifs
      · rw [h.r10, h.r11]
        apply copy_copy _ (by omega)
        intro x hx hx'
        exact hapart x (Nat.lt_of_lt_of_le hx (by omega)) (Nat.lt_of_lt_of_le hx' (by omega))
      · rfl
  have hstart : Moving m total (total - 1 + 1) m := by
    have hzero : 8 * (total - (total - 1 + 1)) = 0 := by omega
    refine ⟨?_, by omega, rfl, rfl, ?_, ?_, ?_⟩
    · rw [hcount, Nat.sub_add_cancel hpos]
    · rw [hzero]
      exact (add_zero _).symm
    · rw [hzero]
      exact (add_zero _).symm
    · rw [hzero, copy_zero, ite_self]
  obtain ⟨m', hrun, hend⟩ := reaches_loop hbody hloop hturn (by omega) hstart
  exact ⟨m', hrun, hend.rsp, hend.mem⟩

theorem merge_word_of_lt {old : BitVec 64} (hold : old.toNat < 2 ^ 16) {n : Nat} (hn : n < 2 ^ 16) :
    Width.merge .word old (BitVec.ofNat 16 n) = BitVec.ofNat 64 n := by
  have hzero : old >>> 16 = 0#64 := by
    apply BitVec.eq_of_toNat_eq
    rw [BitVec.toNat_ushiftRight, Nat.shiftRight_eq_div_pow, Nat.div_eq_of_lt hold]
    rfl
  apply BitVec.eq_of_toNat_eq
  change (old >>> 16 <<< 16 ||| BitVec.setWidth 64 (BitVec.ofNat 16 n)).toNat = _
  rw [hzero, toNat_ofNat_of_lt (by omega)]
  simp only [BitVec.zero_shiftLeft, BitVec.zero_or, BitVec.toNat_setWidth, BitVec.toNat_ofNat]
  omega

theorem exec_countChunks (hrcx : m.regs.rcx.toNat < 2 ^ 16) :
    ∃ m', execAll countChunks m = some m' ∧ m'.regs.rcx = BitVec.ofNat 64 (chunks m.regs.rdx) ∧
      m'.regs.rbp = m.regs.rbp ∧ m'.regs.rsp = m.regs.rsp ∧ m'.regs.r10 = m.regs.r10 ∧
      m'.regs.r11 = m.regs.r11 ∧ m'.mem = m.mem := by
  obtain ⟨⟨rax, rbx, rcx, rdx, rsi, rdi, rbp, rsp, r8, r9, r10, r11, r12, r13, r14, r15⟩,
    zf, mem⟩ := m
  have hsize : (rdx.setWidth Width.word.bits).toNat / 8 < 2 ^ 16 := chunks_lt rdx
  have hdx : ((Width.merge .qword rdx 0#_).setWidth Width.word.bits).toNat = 0 := rfl
  have hbx : (BitVec.ofInt Width.word.bits 8).toNat = 8 := rfl
  simp only [countChunks, execAll_cons, execAll_nil, Instr.exec, Option.bind_some, Machine.write,
    Machine.read, Machine.value, Regs.get, Regs.set, Machine.dividend, setWidth_merge,
    Alu.xor_self, hdx, hbx, Nat.zero_mul, Nat.zero_add]
  rw [if_neg (by omega)]
  simp only [Option.bind_some, Option.some.injEq, exists_eq_left', execAll_cons, execAll_nil,
    Instr.exec, Machine.write, Machine.read, Machine.value, Regs.get, Regs.set]
  refine ⟨?_, trivial, trivial, trivial, trivial, trivial⟩
  exact (congrArg (Width.merge .word rcx) (setWidth_merge .word _ _)).trans
    (merge_word_of_lt hrcx hsize)

/-- The part that all moves share, from the loop parameters on. -/
theorem reaches_countedMoves (hcount : CodeAt code pc countChunks)
    (hbody : CodeAt code (pc + 5) moveChunk) (hloop : code[pc + 12]? = some (.loop (pc + 5)))
    (hrcx : m.regs.rcx.toNat < 2 ^ 16) (hpos : 0 < chunks m.regs.rdx)
    (hapart : Apart m.regs.r11 (8 * chunks m.regs.rdx) m.regs.r10 (8 * chunks m.regs.rdx)) :
    ∃ m', Reaches code ⟨.run pc, m⟩ ⟨.run (pc + 13), m'⟩ ∧ m'.regs.rsp = m.regs.rsp ∧
      m'.mem = if isOne .byte m.regs.rbp then
        copy m.mem m.regs.r10 m.regs.r11 (8 * chunks m.regs.rdx) else m.mem := by
  obtain ⟨m₁, hexec, hrcx₁, hrbp, hrsp, hr10, hr11, hmem⟩ := exec_countChunks hrcx
  rw [← hr10, ← hr11] at hapart
  obtain ⟨m₂, hrun, hsp, hmem₂⟩ := reaches_moveChunks hbody hloop hpos (chunks_lt _) hrcx₁ hapart
  refine ⟨m₂, (reaches_block hcount hexec).trans hrun, hsp.trans hrsp, ?_⟩
  rw [hmem₂, hrbp, hmem, hr10, hr11]

end

/-! ### The parts before the loop -/

/-- The machine is ready for the loop from `dst` and `src`, and has moved other things on the flag
before, which gives `mem`. -/
structure Ready (m : Machine) (dst src : Addr) (mem : Mem) (m' : Machine) : Prop where
  rdi : m'.regs.rdi = m.regs.rdi
  rsi : m'.regs.rsi = m.regs.rsi
  rdx : m'.regs.rdx = m.regs.rdx
  rcx : m'.regs.rcx = m.regs.rcx
  rsp : m'.regs.rsp = m.regs.rsp
  r10 : m'.regs.r10 = dst
  r11 : m'.regs.r11 = src
  rbp : isOne .byte m'.regs.rbp = isOne .byte m.regs.rcx
  zf : m'.zf = some (isOne .byte m.regs.rcx)
  mem : m'.mem = if isOne .byte m.regs.rcx then mem else m.mem

section
variable {m m₁ : Machine} {dst src : Addr} {mem : Mem}

theorem isOne_merge_byte (old : BitVec 64) (v : BitVec (Width.bits .byte)) :
    isOne .byte (Width.merge .byte old v) = (v == BitVec.ofInt _ 1) := by
  rw [isOne, setWidth_merge]

/-- A pointer is moved and advanced. -/
theorem merge_mov_add (old v : BitVec 64) (k : Int) :
    Width.merge .qword (Width.merge .qword old (v.setWidth Width.qword.bits))
      (Alu.add.apply ((Width.merge .qword old (v.setWidth Width.qword.bits)).setWidth
        Width.qword.bits) (BitVec.ofInt _ k)) = v + BitVec.ofInt 64 k := by
  rw [merge_add_imm, merge_qword]

theorem exec_moveDword (h : Ready m dst src mem m₁) (disp : Nat) :
    ∃ m₂, execAll (moveDword disp) m₁ = some m₂ ∧
      Ready m dst src (copy mem (m.regs.rdi + BitVec.ofNat 64 disp)
        (m.regs.rsi + BitVec.ofNat 64 disp) 4) m₂ := by
  obtain ⟨hrdi, hrsi, hrdx, hrcx, hrsp, hr10, hr11, hrbp, hzf, hmem⟩ := h
  obtain ⟨⟨rax, rbx, rcx, rdx, rsi, rdi, rbp, rsp, r8, r9, r10, r11, r12, r13, r14, r15⟩, zf,
    mem₁⟩ := m₁
  simp only at hrdi hrsi hzf hmem
  subst hrdi hrsi hzf hmem
  simp only [moveDword, execAll_cons, execAll_nil, Instr.exec, Option.bind_some, Option.map_some,
    Machine.write, Machine.read, Machine.value, Machine.address, Regs.get, Regs.set, Width.merge,
    Option.some.injEq, exists_eq_left']
  refine ⟨rfl, rfl, hrdx, hrcx, hrsp, hr10, hr11, hrbp, rfl, ?_⟩
  split_ifs <;> simp [Width.bits, Width.bytes, store_load_eq_copy, copy_self]

theorem exec_omoveBuffer (m : Machine) :
    ∃ m', execAll ((omoveBuffer.drop 6).take 4) m = some m' ∧
      Ready m m.regs.rdi m.regs.rsi m.mem m' := by
  obtain ⟨⟨rax, rbx, rcx, rdx, rsi, rdi, rbp, rsp, r8, r9, r10, r11, r12, r13, r14, r15⟩,
    zf, mem⟩ := m
  simp only [omoveBuffer, saveRegisters, List.cons_append, List.nil_append, List.drop_succ_cons,
    List.drop_zero, List.take_succ_cons, List.take_zero, execAll_cons, execAll_nil, Instr.exec,
    Option.bind_some, Machine.write, Machine.read, Machine.value, Regs.get, Regs.set,
    Option.some.injEq, exists_eq_left', setWidth_merge]
  exact ⟨rfl, rfl, rfl, rfl, rfl, BitVec.setWidth_eq _, BitVec.setWidth_eq _,
    isOne_merge_byte _ _, rfl, (ite_self _).symm⟩

theorem exec_omoveSerializedBlock (m : Machine) :
    ∃ m', execAll ((omoveSerializedBlock.drop 6).take 10) m = some m' ∧
      Ready m (m.regs.rdi + 24) (m.regs.rsi + 24)
        (copy m.mem (m.regs.rdi + 20) (m.regs.rsi + 20) 4) m' := by
  obtain ⟨⟨rax, rbx, rcx, rdx, rsi, rdi, rbp, rsp, r8, r9, r10, r11, r12, r13, r14, r15⟩,
    zf, mem⟩ := m
  simp only [omoveSerializedBlock, saveRegisters, List.cons_append, List.nil_append,
    List.drop_succ_cons, List.drop_zero, List.take_succ_cons, List.take_zero, execAll_cons,
    execAll_nil, Instr.exec, Option.bind_some, Option.map_some, Machine.write, Machine.read,
    Machine.value, Machine.address, Regs.get, Regs.set]
  refine ⟨_, rfl, rfl, rfl, rfl, rfl, rfl, ?_, ?_, isOne_merge_byte _ _, ?_, ?_⟩
  · exact merge_mov_add r10 rdi 24
  · exact merge_mov_add r11 rsi 24
  · exact congrArg some (isOne_merge_byte _ _)
  · simp only [setWidth_merge, beq_one]
    split_ifs <;> simp [Width.bytes, store_load_eq_copy, copy_self]

theorem exec_stashSerializedInsert (m : Machine) :
    ∃ m', execAll ((stashSerializedInsert.drop 6).take 8) m = some m' ∧
      m'.regs.r8 = m.regs.r8 ∧ Ready m (m.regs.rdi + 24) (m.regs.rsi + 24) m.mem m' := by
  obtain ⟨⟨rax, rbx, rcx, rdx, rsi, rdi, rbp, rsp, r8, r9, r10, r11, r12, r13, r14, r15⟩,
    zf, mem⟩ := m
  simp only [stashSerializedInsert, saveRegisters, List.cons_append, List.nil_append,
    List.drop_succ_cons, List.drop_zero, List.take_succ_cons, List.take_zero, execAll_cons,
    execAll_nil, Instr.exec, Option.bind_some, Machine.write, Machine.read, Machine.value, Regs.get,
    Regs.set]
  refine ⟨_, rfl, rfl, rfl, rfl, rfl, rfl, rfl, merge_mov_add r10 rdi 24, merge_mov_add r11 rsi 24,
    ?_, ?_, (ite_self _).symm⟩
  · exact congrArg (isOne .byte) (merge_qword rbp rcx)
  · exact congrArg (fun v => some (isOne .byte v)) (merge_qword rbp rcx)

/-- The byte `block_written` is set on the flag. -/
theorem exec_blockWritten (h : Ready m dst src mem m₁) (hr8 : m₁.regs.r8 = m.regs.r8) :
    ∃ m₂, execAll ((stashSerializedInsert.drop 14).take 4) m₁ = some m₂ ∧
      Ready m dst src (store mem m.regs.r8 1 1) m₂ := by
  obtain ⟨hrdi, hrsi, hrdx, hrcx, hrsp, hr10, hr11, hrbp, hzf, hmem⟩ := h
  obtain ⟨⟨rax, rbx, rcx, rdx, rsi, rdi, rbp, rsp, r8, r9, r10, r11, r12, r13, r14, r15⟩, zf,
    mem₁⟩ := m₁
  simp only at hr8 hzf hmem
  subst hr8 hzf hmem
  simp only [stashSerializedInsert, saveRegisters, List.cons_append, List.nil_append,
    List.drop_succ_cons, List.drop_zero, List.take_succ_cons, List.take_zero, execAll_cons,
    execAll_nil, Instr.exec, Option.bind_some, Option.map_some, Machine.write, Machine.read,
    Machine.value, Machine.address, Regs.get, Regs.set, Option.some.injEq, exists_eq_left',
    BitVec.add_zero]
  refine ⟨hrdi, hrsi, hrdx, hrcx, hrsp, hr10, hr11, hrbp, rfl, ?_⟩
  split_ifs
  · simp only [merge_qword, setWidth_merge]
    rfl
  · simp only [merge_qword, setWidth_merge]
    exact store_load _ _ 1

/-- The loop after these parts. -/
theorem reaches_moves (code : List Instr) (pc : Nat) (h : Ready m dst src mem m₁)
    (hcount : CodeAt code pc countChunks) (hbody : CodeAt code (pc + 5) moveChunk)
    (hloop : code[pc + 12]? = some (.loop (pc + 5))) (hpos : 0 < chunks m.regs.rdx)
    (hrcx : m.regs.rcx.toNat < 2 ^ 16)
    (hapart : Apart src (8 * chunks m.regs.rdx) dst (8 * chunks m.regs.rdx)) :
    ∃ m₂, Reaches code ⟨.run pc, m₁⟩ ⟨.run (pc + 13), m₂⟩ ∧ m₂.regs.rsp = m.regs.rsp ∧
      m₂.mem = if isOne .byte m.regs.rcx then copy mem dst src (8 * chunks m.regs.rdx)
        else m.mem := by
  rw [← h.rdx] at hpos hapart ⊢
  rw [← h.r10, ← h.r11] at hapart ⊢
  obtain ⟨m₂, hrun, hsp, hmem⟩ :=
    reaches_countedMoves hcount hbody hloop (h.rcx ▸ hrcx) hpos hapart
  refine ⟨m₂, hrun, hsp.trans h.rsp, ?_⟩
  rw [hmem, h.rbp, h.mem]
  split_ifs <;> rfl

theorem flagged_congr {S : Addr → Prop} {flag : Bool} {mem mem' new new' : Mem}
    (h : ∀ x, S x → mem x = mem' x) (hnew : ∀ x, S x → new x = new' x) :
    ∀ x, S x → (if flag then new else mem) x = (if flag then new' else mem') x := by
  cases flag with
  | false => exact h
  | true => exact hnew

theorem flagged_frame {flag : Bool} {mem new : Mem} {x : Addr} (h : new x = mem x) :
    (if flag then new else mem) x = mem x := by
  cases flag with
  | false => rfl
  | true => exact h

end

/-! ### The routines -/

section
variable {dst src : Addr} {n : Nat}

theorem Apart.data (hn : 8 + n ≤ 2 ^ 64)
    (h : Apart (src + 16) (8 + n) (dst + 16) (8 + n)) : Apart (src + 24) n (dst + 24) n := by
  have hpart := h.of_parts (k := 8) (l := 8) le_rfl hn le_rfl hn
  rwa [add_assoc, add_assoc] at hpart

/-- The tree label, the id and the data are moved one after another. -/
theorem copy_label_id_data (mem : Mem) (hn : 8 + n ≤ 2 ^ 64)
    (h : Apart (src + 16) (8 + n) (dst + 16) (8 + n)) :
    copy (copy (copy mem (dst + 20) (src + 20) 4) (dst + 16) (src + 16) 4) (dst + 24) (src + 24) n =
      copy mem (dst + 16) (src + 16) (8 + n) := by
  have hhead : Apart (src + 16) (4 + 4) (dst + 16) (4 + 4) :=
    fun x hx hx' => h x (Nat.lt_of_lt_of_le hx (by omega)) (Nat.lt_of_lt_of_le hx' (by omega))
  have htwo := copy_copy_back mem (n := 4) (m := 4) (by decide) hhead
  rw [add_assoc, add_assoc] at htwo
  have hall := copy_copy mem hn h
  rw [add_assoc, add_assoc] at hall
  exact (congrArg (fun mem => copy mem (dst + 24) (src + 24) n) htwo).trans hall

/-- The id comes first. -/
theorem copy_id_label_data (mem : Mem) (hn : 8 + n ≤ 2 ^ 64)
    (h : Apart (src + 16) (8 + n) (dst + 16) (8 + n)) :
    copy (copy (copy mem (dst + 16) (src + 16) 4) (dst + 20) (src + 20) 4) (dst + 24) (src + 24) n =
      copy mem (dst + 16) (src + 16) (8 + n) := by
  have hhead : Apart (src + 16) (4 + 4) (dst + 16) (4 + 4) :=
    fun x hx hx' => h x (Nat.lt_of_lt_of_le hx (by omega)) (Nat.lt_of_lt_of_le hx' (by omega))
  have htwo := copy_copy mem (n := 4) (m := 4) (by decide) hhead
  rw [add_assoc, add_assoc] at htwo
  have hall := copy_copy mem hn h
  rw [add_assoc, add_assoc] at hall
  exact (congrArg (fun mem => copy mem (dst + 24) (src + 24) n) htwo).trans hall

end

theorem chunks_le (size : BitVec 64) : 8 + 8 * chunks size ≤ 2 ^ 64 := by
  have := chunks_lt size
  omega

namespace Oblivious

/-- `omove_buffer`. -/
def omoveBuffer : Framed where
  code := DeSearch.omoveBuffer
  last := 23
  Pre a := 0 < chunks a.rdx ∧ a.rcx.toNat < 2 ^ 16 ∧
    Apart a.rsi (8 * chunks a.rdx) a.rdi (8 * chunks a.rdx)
  ranges a := [(a.rdi, 8 * chunks a.rdx), (a.rsi, 8 * chunks a.rdx)]
  effect a mem := if isOne .byte a.rcx then copy mem a.rdi a.rsi (8 * chunks a.rdx) else mem
  pushes := by decide
  pops := by decide
  ret := rfl
  body m hpre := by
    obtain ⟨m₁, hexec, hready⟩ := exec_omoveBuffer m
    obtain ⟨m₂, hrun, hsp, hmem⟩ := reaches_moves DeSearch.omoveBuffer 10 hready
      (by decide) (by decide) rfl hpre.1 hpre.2.1 hpre.2.2
    exact ⟨m₂, (reaches_block (by decide) hexec).trans hrun, hsp, hmem⟩
  frame a mem x hx := flagged_frame (copy_of_not_within (hx (a.rdi, _) List.mem_cons_self))
  congr a S mem mem' hS h := flagged_congr h (copy_congr (hS (a.rsi, _) (by simp)) h _)

/-- `omove_serialized_block`. The nonce of a block is not moved. -/
def omoveSerializedBlock : Framed where
  code := DeSearch.omoveSerializedBlock
  last := 33
  Pre a := 0 < chunks a.rdx ∧ a.rcx.toNat < 2 ^ 16 ∧
    Apart (a.rsi + 16) (8 + 8 * chunks a.rdx) (a.rdi + 16) (8 + 8 * chunks a.rdx)
  ranges a := [(a.rdi + 16, 8 + 8 * chunks a.rdx), (a.rsi + 16, 8 + 8 * chunks a.rdx)]
  effect a mem :=
    if isOne .byte a.rcx then copy mem (a.rdi + 16) (a.rsi + 16) (8 + 8 * chunks a.rdx) else mem
  pushes := by decide
  pops := by decide
  ret := rfl
  body m hpre := by
    obtain ⟨m₁, hexec, hready⟩ := exec_omoveSerializedBlock m
    obtain ⟨m₂, hexec', hready'⟩ := exec_moveDword hready 16
    have hcopy := copy_label_id_data m.mem (chunks_le m.regs.rdx) hpre.2.2
    obtain ⟨m₃, hrun, hsp, hmem⟩ :=
      reaches_moves DeSearch.omoveSerializedBlock 20 hready'
        (by decide) (by decide) rfl hpre.1 hpre.2.1 (Apart.data (chunks_le m.regs.rdx) hpre.2.2)
    refine ⟨m₃, ((reaches_block (by decide) hexec).trans
      (reaches_block (by decide) hexec')).trans hrun, hsp, ?_⟩
    rw [hmem]
    exact if_congr Iff.rfl hcopy rfl
  frame a mem x hx := flagged_frame (copy_of_not_within (hx (a.rdi + 16, _) List.mem_cons_self))
  congr a S mem mem' hS h := flagged_congr h (copy_congr (hS (a.rsi + 16, _) (by simp)) h _)

/-- `stash_serialized_insert`. -/
def stashSerializedInsert : Framed where
  code := DeSearch.stashSerializedInsert
  last := 39
  Pre a := 0 < chunks a.rdx ∧ a.rcx.toNat < 2 ^ 16 ∧
    Apart (a.rsi + 16) (8 + 8 * chunks a.rdx) (a.rdi + 16) (8 + 8 * chunks a.rdx)
  ranges a := [(a.rdi + 16, 8 + 8 * chunks a.rdx), (a.rsi + 16, 8 + 8 * chunks a.rdx), (a.r8, 1)]
  effect a mem := if isOne .byte a.rcx then
    copy (store mem a.r8 1 1) (a.rdi + 16) (a.rsi + 16) (8 + 8 * chunks a.rdx) else mem
  pushes := by decide
  pops := by decide
  ret := rfl
  body m hpre := by
    obtain ⟨m₁, hhead, hr8, hready₁⟩ := exec_stashSerializedInsert m
    obtain ⟨m₂, hwritten, hready₂⟩ := exec_blockWritten hready₁ hr8
    obtain ⟨m₃, hid, hready₃⟩ := exec_moveDword hready₂ 16
    obtain ⟨m₄, hlabel, hready₄⟩ := exec_moveDword hready₃ 20
    have hcopy :=
      copy_id_label_data (store m.mem m.regs.r8 1 1) (chunks_le m.regs.rdx) hpre.2.2
    obtain ⟨m₅, hrun, hsp, hmem⟩ :=
      reaches_moves DeSearch.stashSerializedInsert 26 hready₄
        (by decide) (by decide) rfl hpre.1 hpre.2.1 (Apart.data (chunks_le m.regs.rdx) hpre.2.2)
    have hmoved : Reaches DeSearch.stashSerializedInsert ⟨.run 6, m⟩ ⟨.run 26, m₄⟩ :=
      ((reaches_block (by decide) hhead).trans (reaches_block (by decide) hwritten)).trans
        ((reaches_block (by decide) hid).trans (reaches_block (by decide) hlabel))
    refine ⟨m₅, hmoved.trans hrun, hsp, ?_⟩
    rw [hmem]
    exact if_congr Iff.rfl hcopy rfl
  frame a mem x hx := by
    apply flagged_frame
    rw [copy_of_not_within (hx (a.rdi + 16, _) List.mem_cons_self),
      store_of_not_within (hx (a.r8, 1) (by simp))]
  congr a S mem mem' hS h :=
    flagged_congr h (copy_congr (hS (a.rsi + 16, _) (by simp)) (store_congr h a.r8 1 1) _)

end Oblivious

/-- **The moves.** Each routine returns to its caller, with the registers that belong to it. If the
flag is one, it has copied the bytes behind the nonce of a block, or those of a buffer, and an
insertion has noted that the block is written. If it is not, nothing has changed. -/
theorem moves_return (m : Machine) (hpos : 0 < chunks m.regs.rdx)
    (hflag : m.regs.rcx.toNat < 2 ^ 16) :
    (Apart (m.regs.rsi + 16) (8 + 8 * chunks m.regs.rdx)
        (m.regs.rdi + 16) (8 + 8 * chunks m.regs.rdx) →
      Apart (m.regs.rdi + 16) (8 + 8 * chunks m.regs.rdx) (m.regs.rsp - 48) 56 →
      Apart (m.regs.rsi + 16) (8 + 8 * chunks m.regs.rdx) (m.regs.rsp - 48) 56 →
      Returns omoveSerializedBlock m 48 (if isOne .byte m.regs.rcx then
          copy m.mem (m.regs.rdi + 16) (m.regs.rsi + 16) (8 + 8 * chunks m.regs.rdx)
        else m.mem) ∧
      (Apart m.regs.r8 1 (m.regs.rsp - 48) 56 →
        Returns stashSerializedInsert m 48 (if isOne .byte m.regs.rcx then
            copy (store m.mem m.regs.r8 1 1) (m.regs.rdi + 16) (m.regs.rsi + 16)
              (8 + 8 * chunks m.regs.rdx)
          else m.mem))) ∧
    (Apart m.regs.rsi (8 * chunks m.regs.rdx) m.regs.rdi (8 * chunks m.regs.rdx) →
      Apart m.regs.rdi (8 * chunks m.regs.rdx) (m.regs.rsp - 48) 56 →
      Apart m.regs.rsi (8 * chunks m.regs.rdx) (m.regs.rsp - 48) 56 →
      Returns omoveBuffer m 48 (if isOne .byte m.regs.rcx then
          copy m.mem m.regs.rdi m.regs.rsi (8 * chunks m.regs.rdx)
        else m.mem)) := by
  refine ⟨fun hapart hdst hsrc => ⟨?_, fun hwritten => ?_⟩, fun hapart hdst hsrc => ?_⟩
  · apply Oblivious.omoveSerializedBlock.returns m ⟨hpos, hflag, hapart⟩
    exact List.forall_mem_cons.2 ⟨hdst, List.forall_mem_singleton.2 hsrc⟩
  · apply Oblivious.stashSerializedInsert.returns m ⟨hpos, hflag, hapart⟩
    exact List.forall_mem_cons.2
      ⟨hdst, List.forall_mem_cons.2 ⟨hsrc, List.forall_mem_singleton.2 hwritten⟩⟩
  · apply Oblivious.omoveBuffer.returns m ⟨hpos, hflag, hapart⟩
    exact List.forall_mem_cons.2 ⟨hdst, List.forall_mem_singleton.2 hsrc⟩

/-- Two chunks and the head of a block are copied. -/
theorem moves_return_two_chunks :
    Returns stashSerializedInsert (moveCall 1 9) 48
      (copy (store (fun _ => 9) 0 1 1) (4096 + 16) (8192 + 16) 24) :=
  ((moves_return (moveCall 1 9) (by decide) (by decide)).1
    (Apart.symm (apart_of_le (by decide) (by decide))) (apart_of_le (by decide) (by decide))
    (apart_of_le (by decide) (by decide))).2 (apart_of_le (by decide) (by decide))

end DeSearch
