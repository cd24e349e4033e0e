import DeSearch.Lib.Memory
import Mathlib.Logic.Relation

/-!
# A part of the x86-64 instruction set

Moves, conditional moves, comparisons, a little arithmetic, the stack and `loop`: what code needs
that works without branches on its data. Instructions have no encodings here and are numbered from
zero, and a label is a number. Of the flags only ZF is kept. After `div` it is undefined, and an
instruction that reads it then has no result.

A program is observed through its instruction pointer, the addresses that it accesses, and the
operands of its divisions (`observe`).

* `reaches_block` and `reaches_loop`: the rules for straight-line code and for `loop`.
-/

namespace X86

open Memory

/-! ## Registers -/

inductive Reg where
  | rax | rbx | rcx | rdx | rsi | rdi | rbp | rsp
  | r8 | r9 | r10 | r11 | r12 | r13 | r14 | r15
deriving DecidableEq

@[ext]
structure Regs where
  rax : BitVec 64
  rbx : BitVec 64
  rcx : BitVec 64
  rdx : BitVec 64
  rsi : BitVec 64
  rdi : BitVec 64
  rbp : BitVec 64
  rsp : BitVec 64
  r8 : BitVec 64
  r9 : BitVec 64
  r10 : BitVec 64
  r11 : BitVec 64
  r12 : BitVec 64
  r13 : BitVec 64
  r14 : BitVec 64
  r15 : BitVec 64

namespace Regs

def get (s : Regs) : Reg → BitVec 64
  | .rax => s.rax | .rbx => s.rbx | .rcx => s.rcx | .rdx => s.rdx
  | .rsi => s.rsi | .rdi => s.rdi | .rbp => s.rbp | .rsp => s.rsp
  | .r8 => s.r8 | .r9 => s.r9 | .r10 => s.r10 | .r11 => s.r11
  | .r12 => s.r12 | .r13 => s.r13 | .r14 => s.r14 | .r15 => s.r15

def set (s : Regs) (v : BitVec 64) : Reg → Regs
  | .rax => { s with rax := v } | .rbx => { s with rbx := v }
  | .rcx => { s with rcx := v } | .rdx => { s with rdx := v }
  | .rsi => { s with rsi := v } | .rdi => { s with rdi := v }
  | .rbp => { s with rbp := v } | .rsp => { s with rsp := v }
  | .r8 => { s with r8 := v } | .r9 => { s with r9 := v }
  | .r10 => { s with r10 := v } | .r11 => { s with r11 := v }
  | .r12 => { s with r12 := v } | .r13 => { s with r13 := v }
  | .r14 => { s with r14 := v } | .r15 => { s with r15 := v }

theorem get_set (s : Regs) (v : BitVec 64) (r r' : Reg) :
    (s.set v r).get r' = if r' = r then v else s.get r' := by
  cases r <;> cases r' <;> rfl

end Regs

/-- The size of an operand. -/
inductive Width where
  | byte | word | dword | qword
deriving DecidableEq

def Width.bytes : Width → Nat
  | byte => 1
  | word => 2
  | dword => 4
  | qword => 8

abbrev Width.bits (w : Width) : Nat := 8 * w.bytes

/-- A register after a write to its low part: bytes and words leave the rest as it is, and double
words clear it. -/
def Width.merge : (w : Width) → BitVec 64 → BitVec w.bits → BitVec 64
  | byte, old, v => old >>> 8 <<< 8 ||| v.setWidth 64
  | word, old, v => old >>> 16 <<< 16 ||| v.setWidth 64
  | dword, _, v => v.setWidth 64
  | qword, _, v => v.setWidth 64

/-- What is written to a register is read back. -/
theorem setWidth_merge (w : Width) (old : BitVec 64) (v : BitVec w.bits) :
    (w.merge old v).setWidth w.bits = v := by
  apply BitVec.eq_of_getLsbD_eq
  intro i hi
  have hlt : i < 64 := Nat.lt_of_lt_of_le hi (by cases w <;> decide)
  have hbit : (BitVec.setWidth 64 v).getLsbD i = v.getLsbD i := by simp [hlt]
  rw [BitVec.getLsbD_setWidth, decide_eq_true hi, Bool.true_and, ← hbit]
  cases w with
  | byte =>
      have hi' : i < 8 := hi
      simp [Width.merge, hi']
  | word =>
      have hi' : i < 16 := hi
      simp [Width.merge, hi']
  | dword => rfl
  | qword => rfl

theorem merge_qword (old v : BitVec 64) :
    Width.merge .qword old (v.setWidth Width.qword.bits) = v := by
  change BitVec.setWidth 64 (BitVec.setWidth 64 v) = v
  simp

/-! ## Instructions -/

/-- What an instruction reads. -/
inductive Operand where
  | reg (r : Reg)
  | imm (value : Int)
  | mem (base : Reg) (disp : Nat)
deriving DecidableEq

inductive Alu where
  | add | and | xor
deriving DecidableEq

def Alu.apply {w : Nat} : Alu → BitVec w → BitVec w → BitVec w
  | add, a, b => a + b
  | and, a, b => a &&& b
  | xor, a, b => a ^^^ b

theorem Alu.xor_self {w : Nat} (v : BitVec w) : Alu.xor.apply v v = 0#w := BitVec.xor_self

theorem merge_add_imm (old v : BitVec 64) (k : Int) :
    Width.merge .qword old (Alu.add.apply (v.setWidth Width.qword.bits) (BitVec.ofInt _ k)) =
      v + BitVec.ofInt 64 k := by
  change BitVec.setWidth 64 (BitVec.setWidth 64 v + BitVec.ofInt 64 k) = _
  simp

inductive Instr where
  | mov (w : Width) (dst : Reg) (src : Operand)
  /-- `mov` to memory -/
  | put (w : Width) (base : Reg) (disp : Nat) (src : Reg)
  | cmovz (w : Width) (dst : Reg) (src : Operand)
  | cmp (w : Width) (a : Reg) (b : Operand)
  | alu (op : Alu) (w : Width) (dst : Reg) (src : Operand)
  | setz (dst : Reg)
  /-- `div` by a word: the dividend is `dx:ax` -/
  | div (src : Reg)
  | push (src : Reg)
  | pop (dst : Reg)
  | loop (target : Nat)
  | ret
deriving DecidableEq

structure Machine where
  regs : Regs
  /-- ZF, if it is defined -/
  zf : Option Bool
  mem : Mem

namespace Machine

def read (m : Machine) (w : Width) (r : Reg) : BitVec w.bits := (m.regs.get r).setWidth w.bits

def write (m : Machine) (w : Width) (r : Reg) (v : BitVec w.bits) : Machine :=
  { m with regs := m.regs.set (w.merge (m.regs.get r) v) r }

def address (m : Machine) (base : Reg) (disp : Nat) : Addr :=
  m.regs.get base + BitVec.ofNat 64 disp

def value (m : Machine) (w : Width) : Operand → BitVec w.bits
  | .reg r => m.read w r
  | .imm v => BitVec.ofInt w.bits v
  | .mem base disp => load m.mem (m.address base disp) w.bytes

/-- `dx:ax`. -/
def dividend (m : Machine) : Nat := (m.read .word .rdx).toNat * 2 ^ 16 + (m.read .word .rax).toNat

end Machine

/-- The effect of an instruction that goes on to the next one. There is none if it faults. -/
def Instr.exec : Instr → Machine → Option Machine
  | mov w dst src, m => some (m.write w dst (m.value w src))
  | put w base disp src, m =>
      some { m with mem := store m.mem (m.address base disp) w.bytes (m.read w src) }
  | cmovz w dst src, m =>
      m.zf.map fun z => m.write w dst (if z then m.value w src else m.read w dst)
  | cmp w a b, m => some { m with zf := some (m.read w a == m.value w b) }
  | alu op w dst src, m =>
      let v := op.apply (m.read w dst) (m.value w src)
      some { m.write w dst v with zf := some (v == 0) }
  | setz dst, m => m.zf.map fun z => m.write .byte dst (if z then 1 else 0)
  | div src, m =>
      let d := (m.read .word src).toNat
      if d = 0 ∨ 2 ^ 16 ≤ m.dividend / d then none
      else some { (m.write .word .rax (BitVec.ofNat 16 (m.dividend / d))).write .word .rdx
        (BitVec.ofNat 16 (m.dividend % d)) with zf := none }
  | push src, m =>
      some { m with
        regs := m.regs.set (m.regs.rsp - 8) .rsp
        mem := store m.mem (m.regs.rsp - 8) 8 (m.regs.get src) }
  | pop dst, m =>
      some ({ m with regs := m.regs.set (m.regs.rsp + 8) .rsp }.write .qword dst
        (load m.mem m.regs.rsp 8))
  | loop _, _ => none
  | ret, _ => none

/-! ## Runs -/

/-- Where a program stands. -/
inductive Control where
  | run (pc : Nat)
  | returned (address : Addr)
deriving DecidableEq

structure Config where
  control : Control
  machine : Machine

/-- The machine after `loop` has counted. -/
def Machine.counted (m : Machine) : Machine :=
  { m with regs := m.regs.set (m.regs.rcx - 1) .rcx }

/-- The machine after the return address is popped. -/
def Machine.popped (m : Machine) : Machine :=
  { m with regs := m.regs.set (m.regs.rsp + 8) .rsp }

/-- The effect of the instruction at `pc`. -/
def Instr.next (pc : Nat) (m : Machine) : Instr → Option Config
  | loop target => some ⟨.run (if m.counted.regs.rcx = 0 then pc + 1 else target), m.counted⟩
  | ret => some ⟨.returned (load m.mem m.regs.rsp 8), m.popped⟩
  | i => (i.exec m).map fun m' => ⟨.run (pc + 1), m'⟩

/-- One step, unless the program has returned or faults. -/
def step (code : List Instr) (c : Config) : Option Config :=
  match c.control with
  | .returned _ => none
  | .run pc => (code[pc]?).bind fun i => i.next pc c.machine

/-- The program gets there. -/
def Reaches (code : List Instr) : Config → Config → Prop :=
  Relation.ReflTransGen fun c c' => step code c = some c'

/-- What can be observed. -/
inductive Event where
  | pc (n : Nat)
  | access (a : Addr)
  | operands (dividend divisor : Nat)
deriving DecidableEq

def Operand.leak (m : Machine) : Operand → List Event
  | mem base disp => [.access (m.address base disp)]
  | _ => []

/-- What an instruction shows besides its position. A conditional move reads its source whether it
moves it or not. -/
def Instr.leak (m : Machine) : Instr → List Event
  | mov _ _ src => src.leak m
  | put _ base disp _ => [.access (m.address base disp)]
  | cmovz _ _ src => src.leak m
  | cmp _ _ b => b.leak m
  | alu _ _ _ src => src.leak m
  | setz _ => []
  | div src => [.operands m.dividend (m.read .word src).toNat]
  | push _ => [.access (m.regs.rsp - 8)]
  | pop _ => [.access m.regs.rsp]
  | loop _ => []
  | ret => [.access m.regs.rsp]

def observe (code : List Instr) (c : Config) : List Event :=
  match c.control with
  | .returned _ => []
  | .run pc => .pc pc :: ((code[pc]?).map (Instr.leak c.machine)).getD []

/-- What `n` steps show. -/
def trace (code : List Instr) : Nat → Config → List Event
  | 0, _ => []
  | n + 1, c =>
      observe code c ++ match step code c with
        | none => []
        | some c' => trace code n c'

/-! ## Straight-line code -/

/-- The effect of instructions one after another. -/
def execAll (block : List Instr) (m : Machine) : Option Machine :=
  block.foldlM (fun m i => i.exec m) m

/-- The instructions stand at this place of the code. -/
def CodeAt (code : List Instr) (pc : Nat) (block : List Instr) : Prop :=
  (code.drop pc).take block.length = block

instance (code : List Instr) (pc : Nat) (block : List Instr) : Decidable (CodeAt code pc block) :=
  inferInstanceAs (Decidable (_ = _))

variable {code block : List Instr} {pc : Nat} {m m' m'' : Machine} {c c' c'' : Config}

theorem Reaches.trans (h : Reaches code c c') (h' : Reaches code c' c'') : Reaches code c c'' :=
  Relation.ReflTransGen.trans h h'

theorem reaches_of_step (h : step code c = some c') : Reaches code c c' :=
  Relation.ReflTransGen.single h

theorem execAll_nil (m : Machine) : execAll [] m = some m := rfl

theorem execAll_cons (i : Instr) (block : List Instr) (m : Machine) :
    execAll (i :: block) m = (i.exec m).bind (execAll block) := rfl

theorem codeAt_cons {i : Instr} :
    CodeAt code pc (i :: block) ↔ code[pc]? = some i ∧ CodeAt code (pc + 1) block := by
  unfold CodeAt
  rw [← List.head?_drop, ← List.tail_drop]
  cases code.drop pc with
  | nil => simp
  | cons a l => simp

theorem step_of_getElem? {i : Instr} (hcode : code[pc]? = some i) :
    step code ⟨.run pc, m⟩ = i.next pc m := by
  change (code[pc]?).bind _ = _
  rw [hcode, Option.bind_some]

theorem step_exec {i : Instr} (hcode : code[pc]? = some i) (h : i.exec m = some m') :
    step code ⟨.run pc, m⟩ = some ⟨.run (pc + 1), m'⟩ := by
  rw [step_of_getElem? hcode]
  cases i with
  | loop => cases h
  | ret => cases h
  | _ => exact congrArg (Option.map fun m' => Config.mk (.run (pc + 1)) m') h

theorem reaches_block (hcode : CodeAt code pc block) (h : execAll block m = some m') :
    Reaches code ⟨.run pc, m⟩ ⟨.run (pc + block.length), m'⟩ := by
  induction block generalizing pc m with
  | nil =>
      cases h
      exact Relation.ReflTransGen.refl
  | cons i block ih =>
      obtain ⟨hi, hrest⟩ := codeAt_cons.1 hcode
      obtain ⟨m₁, hexec, htail⟩ := Option.bind_eq_some_iff.1 h
      have hlen : pc + (i :: block).length = pc + 1 + block.length := by
        rw [List.length_cons]
        omega
      rw [hlen]
      exact (reaches_of_step (step_exec hi hexec)).trans (ih hrest htail)

theorem reaches_ret (hcode : code[pc]? = some .ret) :
    Reaches code ⟨.run pc, m⟩ ⟨.returned (load m.mem m.regs.rsp 8), m.popped⟩ :=
  reaches_of_step (step_of_getElem? hcode)

/-! ## Loops -/

theorem step_loop {target : Nat} (hcode : code[pc]? = some (.loop target)) :
    step code ⟨.run pc, m⟩ =
      some ⟨.run (if m.regs.rcx - 1 = 0 then pc + 1 else target), m.counted⟩ :=
  step_of_getElem? hcode

/-- **The rule for `loop`.** What each turn of the body takes from `n + 1` turns to go to `n`, the
loop takes from any number that fits `rcx` to zero. -/
theorem reaches_loop {body : List Instr} {P : Nat → Machine → Prop}
    (hbody : CodeAt code pc body) (hloop : code[pc + body.length]? = some (.loop pc))
    (hturn : ∀ n m, P (n + 1) m → ∃ m', execAll body m = some m' ∧
      m'.regs.rcx = BitVec.ofNat 64 (n + 1) ∧ P n m'.counted)
    {n : Nat} (hn : n + 1 < 2 ^ 64) (h : P (n + 1) m) :
    ∃ m', Reaches code ⟨.run pc, m⟩ ⟨.run (pc + body.length + 1), m'⟩ ∧ P 0 m' := by
  induction n generalizing m with
  | zero =>
      obtain ⟨m', hexec, hrcx, hP⟩ := hturn 0 m h
      refine ⟨m'.counted, (reaches_block hbody hexec).trans (reaches_of_step ?_), hP⟩
      rw [step_loop hloop, hrcx]
      rfl
  | succ n ih =>
      obtain ⟨m', hexec, hrcx, hP⟩ := hturn (n + 1) m h
      obtain ⟨m'', hreach, hP'⟩ := ih (by omega) hP
      refine ⟨m'', (reaches_block hbody hexec).trans ((reaches_of_step ?_).trans hreach), hP'⟩
      have hpred : m'.regs.rcx - 1 = BitVec.ofNat 64 (n + 1) := by
        rw [hrcx, BitVec.ofNat_add (n := 64) (n + 1) 1]
        exact add_sub_cancel_right _ _
      have hne : m'.regs.rcx - 1 ≠ 0 := by
        rw [hpred]
        intro hzero
        have := congrArg BitVec.toNat hzero
        rw [toNat_ofNat_of_lt (by omega)] at this
        cases this
      rw [step_loop hloop, if_neg hne]

end X86
