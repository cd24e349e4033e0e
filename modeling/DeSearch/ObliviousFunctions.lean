import DeSearch.Lib.ConstantTime

/-!
# The oblivious functions of the enclave

The routines of `ZeroTrace/oblivious_functions.asm`, instruction by instruction, with which the
Circuit ORAM assigns variables and moves blocks without a branch on whether it does. They follow the
System V calling convention: the arguments are in `rdi`, `rsi`, `rdx`, `rcx`, `r8`, and `rbx`,
`rbp` and `r12` to `r15` are the caller's. A label is the number of its instruction.

Sizes are divided by eight as 16-bit numbers, `bx` being the divisor, and only the low word of `rcx`
gets the quotient, while `loop` counts with all of `rcx`, of which the rest is still the flag.

* `oblivious_constant_time`: what a run shows depends on pointers and sizes alone.
-/

namespace DeSearch

open X86 X86.Instr X86.Width X86.Reg X86.Operand

/-! ## Common parts -/

def saveRegisters : List Instr := [push rbx, push rbp, push r12, push r13, push r14, push r15]

def restoreRegisters : List Instr := [pop r15, pop r14, pop r13, pop r12, pop rbp, pop rbx]

/-- The body of a loop over eight bytes of a destination `r10` and a source `r11`, with the flag in
`bpl`. -/
def moveChunk : List Instr :=
  [cmp byte rbp (imm 1),
   mov qword r14 (mem r10 0),
   mov qword r15 (mem r11 0),
   cmovz qword r14 (reg r15),
   put qword r10 0 r14,
   alu .add qword r10 (imm 8),
   alu .add qword r11 (imm 8)]

/-- A double word of the source `rsi` is moved to the destination `rdi`. -/
def moveDword (disp : Nat) : List Instr :=
  [mov dword r12 (mem rdi disp),
   mov dword r13 (mem rsi disp),
   cmovz dword r12 (reg r13),
   put dword rdi disp r12]

/-- The loop parameters. -/
def countChunks : List Instr :=
  [mov word rax (reg rdx),
   alu .xor qword rdx (reg rdx),
   mov word rbx (imm 8),
   div rbx,
   mov word rcx (reg rax)]

/-! ## Assignments -/

/-- `oset_value(&dest, value, flag)`, which is also `oset_block_as_dummy(&id, gN, flag)` and
`pd_setdeepest(&deepest, src, flag)`. -/
def setOnFlag : List Instr :=
  [mov dword r10 (mem rdi 0),
   cmp dword rdx (imm 1),
   cmovz dword r10 (reg rsi),
   put dword rdi 0 r10,
   ret]

def osetValue : List Instr := setOnFlag

def osetBlockAsDummy : List Instr := setOnFlag

def pdSetdeepest : List Instr := setOnFlag

/-- `oincrement_value(&value, flag)`. It compares `edx`, not the flag in `esi`. -/
def oincrementValue : List Instr :=
  [mov dword r10 (mem rdi 0),
   mov dword r9 (reg r10),
   alu .add dword r9 (imm 1),
   cmp dword rdx (imm 1),
   cmovz dword r10 (reg r9),
   put dword rdi 0 r10,
   ret]

/-- `pt_set_src_dest(&src, &dest, deepest[i], i, flag)`. -/
def ptSetSrcDest : List Instr :=
  [mov dword r10 (mem rdi 0),
   mov dword r11 (mem rsi 0),
   cmp dword r8 (imm 1),
   mov dword r9 (reg rdx),
   cmovz dword r10 (reg r9),
   mov dword r9 (reg rcx),
   cmovz dword r11 (reg r9),
   put dword rdi 0 r10,
   put dword rsi 0 r11,
   ret]

/-- `pt_set_target_position(&target_position[i], k, &target_set, flag)`. -/
def ptSetTargetPosition : List Instr :=
  [mov dword r10 (mem rdi 0),
   mov dword r11 (mem rdx 0),
   mov dword rax (imm 1),
   cmp dword rcx (imm 1),
   cmovz dword r10 (reg rsi),
   cmovz dword r11 (reg rax),
   put dword rdi 0 r10,
   put dword rdx 0 r11,
   ret]

/-- `pt_settarget(&target[i], &dest, &src, flag)`. -/
def ptSettarget : List Instr :=
  [mov dword rax (mem rdi 0),
   mov dword r9 (mem rdx 0),
   mov dword r10 (mem rsi 0),
   cmp dword rcx (imm 1),
   cmovz dword rax (reg r10),
   put dword rdi 0 rax,
   mov dword r8 (imm (-1)),
   cmovz dword r9 (reg r8),
   cmovz dword r10 (reg r8),
   put dword rdx 0 r9,
   put dword rsi 0 r10,
   ret]

/-- `oset_hold_dest(&hold, &dest, &write_flag, flag)`. -/
def osetHoldDest : List Instr :=
  [mov dword r9 (mem rdi 0),
   mov dword r10 (mem rsi 0),
   mov dword r11 (mem rdx 0),
   mov dword r8 (imm (-1)),
   cmp dword rcx (imm 1),
   cmovz dword r9 (reg r8),
   cmovz dword r10 (reg r8),
   mov dword r8 (imm 1),
   cmovz dword r11 (reg r8),
   put dword rdi 0 r9,
   put dword rsi 0 r10,
   put dword rdx 0 r11,
   ret]

/-- `oassign_newlabel(&label, newLabel, flag)`. The flag is a `bool`, and all of `rdx` is
compared. -/
def oassignNewlabel : List Instr :=
  [mov dword r9 (mem rdi 0),
   cmp qword rdx (imm 1),
   cmovz dword r9 (reg rsi),
   put dword rdi 0 r9,
   ret]

/-- `ofix_recursion(ptr, flag, newLabel, &nextLeaf)`. The flag is a `bool`, and all of `rsi` is
compared. -/
def ofixRecursion : List Instr :=
  [mov dword r9 (mem rcx 0),
   mov dword r8 (mem rdi 0),
   mov dword rax (mem rdi 0),
   cmp qword rsi (imm 1),
   cmovz dword r9 (reg r8),
   cmovz dword rax (reg rdx),
   put dword rcx 0 r9,
   put dword rdi 0 rax,
   ret]

/-- `oset_goal_source(level_in_path, local_deepest_in_path, flag, &src, &goal)`. -/
def osetGoalSource : List Instr :=
  [mov dword r10 (mem rcx 0),
   mov dword r11 (mem r8 0),
   cmp dword rdx (imm 1),
   cmovz dword r10 (reg rdi),
   cmovz dword r11 (reg rsi),
   put dword rcx 0 r10,
   put dword r8 0 r11,
   ret]

/-! ## Moves -/

/-- `omove(i, &array[i], loc, &leaf, newLabel)`. -/
def omove : List Instr :=
  saveRegisters ++
  [mov dword r13 (mem rsi 0),
   mov dword rbx (mem rcx 0),
   cmp dword rdi (reg rdx),
   cmovz dword rbx (mem rsi 0),
   cmovz dword r13 (reg r8),
   put dword rcx 0 rbx,
   put dword rsi 0 r13] ++
  restoreRegisters ++ [ret]

/-- `omove_buffer(dest, source, size, flag)`. -/
def omoveBuffer : List Instr :=
  saveRegisters ++
  [mov qword r10 (reg rdi),
   mov qword r11 (reg rsi),
   mov byte rbp (reg rcx),
   cmp byte rbp (imm 1)] ++
  countChunks ++
  -- `loopstart5`, the instruction 15
  moveChunk ++ [loop 15] ++
  restoreRegisters ++ [ret]

/-- `omove_serialized_block(dest, source, data_size, flag)`. -/
def omoveSerializedBlock : List Instr :=
  saveRegisters ++
  [mov qword r10 (reg rdi),
   mov qword r11 (reg rsi),
   alu .add qword r10 (imm 24),
   alu .add qword r11 (imm 24),
   mov dword r12 (mem rdi 20),
   mov dword r13 (mem rsi 20),
   mov byte rbp (reg rcx),
   cmp byte rbp (imm 1),
   cmovz dword r12 (reg r13),
   put dword rdi 20 r12] ++
  moveDword 16 ++
  countChunks ++
  -- `loopstart3`, the instruction 25
  moveChunk ++ [loop 25] ++
  restoreRegisters ++ [ret]

/-- `stash_serialized_insert(iter_block, block, size, flag, &block_written)`. -/
def stashSerializedInsert : List Instr :=
  saveRegisters ++
  [mov qword rbp (reg rcx),
   mov qword r10 (reg rdi),
   alu .add qword r10 (imm 24),
   mov qword r11 (reg rsi),
   alu .add qword r11 (imm 24),
   alu .xor qword rax (reg rax),
   alu .xor qword rbx (reg rbx),
   cmp byte rbp (imm 1),
   mov byte rax (imm 1),
   mov byte rbx (mem r8 0),
   cmovz qword rbx (reg rax),
   put byte r8 0 rbx] ++
  moveDword 16 ++ moveDword 20 ++
  countChunks ++
  -- `loop_stash_insert2`, the instruction 31
  moveChunk ++ [loop 31] ++
  restoreRegisters ++ [ret]

/-- `ocomp_set_flag(buff1, buff2, size, &flag)`. -/
def ocompSetFlag : List Instr :=
  saveRegisters ++
  [mov qword r10 (reg rdi),
   mov qword r11 (reg rsi),
   mov qword r12 (reg rcx),
   mov qword r13 (reg rdx),
   mov word rax (reg rdx),
   alu .xor qword rdx (reg rdx),
   alu .xor qword rcx (reg rcx),
   mov word rbx (imm 8),
   div rbx,
   mov word rcx (reg rax),
   mov dword rbp (imm 1),
   alu .xor dword rdx (reg rdx),
   -- `loopstart_ocsf`, the instruction 18
   mov qword r14 (mem r10 0),
   mov qword r15 (mem r11 0),
   cmp qword r14 (reg r15),
   setz rdx,
   alu .and byte rbp (reg rdx),
   alu .add qword r10 (imm 8),
   alu .add qword r11 (imm 8),
   loop 18,
   put dword r12 0 rbp] ++
  restoreRegisters ++ [ret]

/-! ## What a run shows -/

/-- Pointers among the arguments, and the stack pointer. -/
def pointers (args : List Reg) : Public := ⟨rsp :: args, rsp :: args⟩

/-- With a size in `rdx` and a flag in `rcx`, of which the upper 48 bits get into the count. -/
def sized (args : List Reg) : Public := ⟨rdx :: rsp :: args, rcx :: rsp :: args⟩

/-- The routines with what may be known of their arguments. -/
def routines : List (List Instr × Public) :=
  [(omove, pointers [rsi, rcx]),
   (osetValue, pointers [rdi]),
   (ocompSetFlag, ⟨[rdx, rsp, rdi, rsi, rcx], [rsp, rdi, rsi, rcx]⟩),
   (oincrementValue, pointers [rdi]),
   (osetBlockAsDummy, pointers [rdi]),
   (ptSetSrcDest, pointers [rdi, rsi]),
   (pdSetdeepest, pointers [rdi]),
   (ptSetTargetPosition, pointers [rdi, rdx]),
   (ptSettarget, pointers [rdi, rsi, rdx]),
   (osetHoldDest, pointers [rdi, rsi, rdx]),
   (omoveSerializedBlock, sized [rdi, rsi]),
   (omoveBuffer, sized [rdi, rsi]),
   (oassignNewlabel, pointers [rdi]),
   (ofixRecursion, pointers [rdi, rcx]),
   (osetGoalSource, pointers [rcx, r8]),
   (stashSerializedInsert, sized [rdi, rsi, r8])]

theorem checks_routines : routines.all (fun r => r.2.checks r.1) = true := by decide +kernel

/-- **The oblivious functions are oblivious.** Two calls of a routine with the same pointers and
sizes execute the same instructions, access the same addresses and divide the same numbers at every
step, whatever the flags, the values and the contents of the memory are. -/
theorem oblivious_constant_time {r : List Instr × Public} (hr : r ∈ routines) {m m' : Machine}
    (h : r.2.Agree m m') (n : Nat) :
    trace r.1 n ⟨.run 0, m⟩ = trace r.1 n ⟨.run 0, m'⟩ :=
  constant_time (List.all_eq_true.1 checks_routines r hr) h n

/-- A call that moves sixteen bytes, with a flag, in a memory filled with one byte. -/
def moveCall (flag : BitVec 64) (byte : BitVec 8) : Machine where
  regs := ⟨0, 0, flag, 16, 8192, 4096, 0, 65536, 0, 0, 0, 0, 0, 0, 0, 0⟩
  zf := none
  mem := fun _ => byte

/-- Whether a block is moved, and which, does not show. -/
theorem constant_time_moveCall :
    trace omoveSerializedBlock 60 ⟨.run 0, moveCall 0 7⟩ =
      trace omoveSerializedBlock 60 ⟨.run 0, moveCall 1 9⟩ :=
  @oblivious_constant_time (omoveSerializedBlock, sized [rdi, rsi]) (by simp [routines])
    (moveCall 0 7) (moveCall 1 9) ⟨by decide, by decide, rfl⟩ 60

end DeSearch
