import DeSearch.Lib.X86

/-!
# Code whose observations do not depend on secrets

A check of a program, instruction by instruction, that follows which parts of the registers are
public: functions of what two runs have in common. All of memory counts as secret. For each register
the low word and the rest are told apart, because code that divides a size moves the quotient into a
low word only.

* `constant_time`: two runs of a checked program from machines with the same public parts show the
  same at every step.
-/

namespace X86

open Memory

/-! ## Public parts of the registers -/

/-- The low word of a register. -/
def low (v : BitVec 64) : BitVec 16 := v.setWidth 16

/-- The rest of it. -/
def high (v : BitVec 64) : BitVec 48 := v.extractLsb' 16 48

/-- The registers whose low words, and those whose other parts, are public. -/
structure Public where
  lows : List Reg
  highs : List Reg

namespace Public

/-- The two machines have the same public parts, and ZF is defined in both or in none. -/
structure Agree (A : Public) (m m' : Machine) : Prop where
  lows : ∀ r ∈ A.lows, low (m.regs.get r) = low (m'.regs.get r)
  highs : ∀ r ∈ A.highs, high (m.regs.get r) = high (m'.regs.get r)
  zf : m.zf.isSome = m'.zf.isSome

def full (A : Public) (r : Reg) : Bool := A.lows.contains r && A.highs.contains r

/-- What an instruction reads is public. -/
def known (A : Public) : Width → Operand → Bool
  | .byte, .reg r => A.lows.contains r
  | .word, .reg r => A.lows.contains r
  | .dword, .reg r => A.full r
  | .qword, .reg r => A.full r
  | _, .imm _ => true
  | _, .mem _ _ => false

/-- A register is added to a list or taken out of it. -/
def mark (l : List Reg) (r : Reg) (pub : Bool) : List Reg :=
  if pub then r :: l else l.filter (· ≠ r)

/-- After a write of something public or secret. -/
def write (A : Public) (w : Width) (r : Reg) (pub : Bool) : Public :=
  match w with
  | .byte => if pub then A else { A with lows := mark A.lows r false }
  | .word => { A with lows := mark A.lows r pub }
  | _ => ⟨mark A.lows r pub, mark A.highs r pub⟩

/-- After an instruction. The source of a conditional move may be public, but not whether it was
moved. `xor` of a register with itself is zero. -/
def after (A : Public) : Instr → Public
  | .mov w dst src => A.write w dst (A.known w src)
  | .cmovz w dst _ => A.write w dst false
  | .alu op w dst src => A.write w dst
      (A.known w (.reg dst) && A.known w src || op = .xor && src = .reg dst)
  | .setz dst => A.write .byte dst false
  | .div _ => (A.write .word .rax true).write .word .rdx true
  | .pop dst => A.write .qword dst false
  | _ => A

/-- The address of the operand is public. -/
def knownAddress (A : Public) : Operand → Bool
  | .mem base _ => A.full base
  | _ => true

/-- What the instruction shows, and where it goes on, is public. -/
def allows (A : Public) : Instr → Bool
  | .mov _ _ src => A.knownAddress src
  | .put _ base _ _ => A.full base
  | .cmovz _ _ src => A.knownAddress src
  | .cmp _ _ b => A.knownAddress b
  | .alu _ _ _ src => A.knownAddress src
  | .setz _ => true
  | .div src => A.lows.contains .rax && A.lows.contains .rdx && A.lows.contains src
  | .push _ => A.full .rsp
  | .pop _ => A.full .rsp
  | .loop _ => A.full .rcx
  | .ret => A.full .rsp

/-- No more is public. -/
def le (A B : Public) : Bool := A.lows.all B.lows.contains && A.highs.all B.highs.contains

/-- What is public in both. -/
def meet (A B : Public) : Public := ⟨A.lows.filter B.lows.contains, A.highs.filter B.highs.contains⟩

/-- The body of the loop that starts at `pc`, if one does. -/
def loopBody (code : List Instr) (pc : Nat) : List Instr :=
  if code.contains (.loop pc) then (code.drop pc).takeWhile (· ≠ .loop pc) else []

/-- What stays public in the loop that starts at `pc`. -/
def enter (A : Public) (code : List Instr) (pc : Nat) : Public :=
  A.meet ((loopBody code pc).foldl after A)

/-- What is public before the instruction at `pc`. -/
def before (A : Public) (code : List Instr) : Nat → Public
  | 0 => A
  | pc + 1 =>
      match code[pc]? with
      | none => A
      | some i => ((A.before code pc).after i).enter code (pc + 1)

/-- A loop leads back to where no more is public than behind it. -/
def closes (A : Public) (code : List Instr) (pc : Nat) : Instr → Bool
  | .loop target => (A.before code target).le (A.before code pc)
  | _ => true

/-- The check of a program. -/
def checks (A : Public) (code : List Instr) : Bool :=
  (List.range code.length).all fun pc =>
    ((code[pc]?).map fun i => (A.before code pc).allows i && A.closes code pc i).getD true

end Public

/-! ## What stays public -/

theorem eq_of_low_high {v v' : BitVec 64} (hlow : low v = low v') (hhigh : high v = high v') :
    v = v' := by
  apply BitVec.eq_of_getLsbD_eq
  intro i hi
  by_cases h : i < 16
  · have := congrArg (BitVec.getLsbD · i) hlow
    simpa [low, h] using this
  · have := congrArg (BitVec.getLsbD · (i - 16)) hhigh
    have hsub : 16 + (i - 16) = i := by omega
    simpa [high, hsub, show i - 16 < 48 by omega] using this

theorem low_merge_byte {old old' : BitVec 64} {v v' : BitVec (Width.bits .byte)}
    (hold : low old = low old') (hv : v = v') :
    low (Width.merge .byte old v) = low (Width.merge .byte old' v') := by
  subst hv
  apply BitVec.eq_of_getLsbD_eq
  intro i hi
  have hbit := congrArg (BitVec.getLsbD · i) hold
  by_cases h : i < 8
  · simp [low, Width.merge, h, hi]
  · have hsub : 8 + (i - 8) = i := by omega
    simp only [low, BitVec.getLsbD_setWidth, hi, decide_true, Bool.true_and] at hbit
    simp only [low, Width.merge, BitVec.getLsbD_setWidth, BitVec.getLsbD_or,
      BitVec.getLsbD_shiftLeft, BitVec.getLsbD_ushiftRight, hsub, hbit]

theorem high_merge_byte (old : BitVec 64) (v : BitVec (Width.bits .byte)) :
    high (Width.merge .byte old v) = high old := by
  apply BitVec.eq_of_getLsbD_eq
  intro i hi
  have hsub : 8 + (16 + i - 8) = 16 + i := by omega
  have hbyte : v.getLsbD (16 + i) = false :=
    BitVec.getLsbD_of_ge v _ (show 8 ≤ 16 + i by omega)
  simp [high, Width.merge, hi, hsub, hbyte, show 16 + i < 64 by omega, show ¬16 + i < 8 by omega]

theorem high_merge_word (old : BitVec 64) (v : BitVec (Width.bits .word)) :
    high (Width.merge .word old v) = high old := by
  apply BitVec.eq_of_getLsbD_eq
  intro i hi
  have hword : v.getLsbD (16 + i) = false := BitVec.getLsbD_of_ge v _ (Nat.le_add_right 16 i)
  simp [high, Width.merge, hi, hword, show 16 + i < 64 by omega]

theorem Machine.get_write (m : Machine) (w : Width) (r r' : Reg) (v : BitVec w.bits) :
    (m.write w r v).regs.get r' =
      if r' = r then w.merge (m.regs.get r) v else m.regs.get r' :=
  Regs.get_set _ _ _ _

namespace Public

variable {A B : Public} {m m' : Machine} {w : Width} {r r' : Reg}

theorem mem_mark {l : List Reg} {pub : Bool} :
    r' ∈ mark l r pub ↔ r' = r ∧ pub = true ∨ r' ≠ r ∧ r' ∈ l ∨ r' ∈ l ∧ pub = true := by
  unfold mark
  cases pub <;> by_cases h : r' = r <;> simp [h]

theorem Agree.get_eq (h : A.Agree m m') (hr : A.full r = true) : m.regs.get r = m'.regs.get r := by
  simp only [full, Bool.and_eq_true, List.contains_iff_mem] at hr
  exact eq_of_low_high (h.lows r hr.1) (h.highs r hr.2)

theorem Agree.read_word (h : A.Agree m m') (hr : r ∈ A.lows) : m.read .word r = m'.read .word r :=
  h.lows r hr

theorem Agree.read_byte (h : A.Agree m m') (hr : r ∈ A.lows) :
    m.read .byte r = m'.read .byte r := by
  have hbyte : ∀ v : BitVec 64, v.setWidth 8 = (low v).setWidth 8 := by
    intro v
    rw [low, BitVec.setWidth_setWidth_of_le _ (by decide)]
  exact (hbyte _).trans ((congrArg (BitVec.setWidth 8) (h.lows r hr)).trans (hbyte _).symm)

theorem Agree.address_eq (h : A.Agree m m') (hr : A.full r = true) (disp : Nat) :
    m.address r disp = m'.address r disp := by
  unfold Machine.address
  rw [h.get_eq hr]

theorem Agree.value_eq (h : A.Agree m m') {src : Operand} (hsrc : A.known w src = true) :
    m.value w src = m'.value w src := by
  cases src with
  | imm v => rfl
  | mem base disp => cases w <;> cases hsrc
  | reg r =>
      cases w with
      | byte => exact h.read_byte (List.contains_iff_mem.1 hsrc)
      | word => exact h.read_word (List.contains_iff_mem.1 hsrc)
      | dword => exact congrArg (BitVec.setWidth 32) (h.get_eq hsrc)
      | qword => exact congrArg (BitVec.setWidth 64) (h.get_eq hsrc)

theorem Agree.write (h : A.Agree m m') {pub : Bool} {v v' : BitVec w.bits}
    (hv : pub = true → v = v') : (A.write w r pub).Agree (m.write w r v) (m'.write w r v') := by
  constructor
  · intro r' hr'
    rw [Machine.get_write, Machine.get_write]
    by_cases hrr : r' = r
    · rw [if_pos hrr, if_pos hrr]
      subst hrr
      cases w with
      | byte =>
          cases pub with
          | false => simp [Public.write, mem_mark] at hr'
          | true => exact low_merge_byte (h.lows r' hr') (hv rfl)
      | word =>
          have hpub : pub = true := by
            simp only [Public.write, mem_mark] at hr'
            tauto
          exact (setWidth_merge .word _ v).trans
            ((hv hpub).trans (setWidth_merge .word _ v').symm)
      | dword | qword =>
          have hpub : pub = true := by
            simp only [Public.write, mem_mark] at hr'
            tauto
          rw [hv hpub]
          rfl
    · rw [if_neg hrr, if_neg hrr]
      apply h.lows
      cases w with
      | byte =>
          cases pub with
          | false => simpa [Public.write, mem_mark, hrr] using hr'
          | true => exact hr'
      | word | dword | qword =>
          simp only [Public.write, mem_mark] at hr'
          tauto
  · intro r' hr'
    rw [Machine.get_write, Machine.get_write]
    by_cases hrr : r' = r
    · rw [if_pos hrr, if_pos hrr]
      subst hrr
      cases w with
      | byte =>
          rw [high_merge_byte, high_merge_byte]
          apply h.highs
          cases pub <;> exact hr'
      | word =>
          rw [high_merge_word, high_merge_word]
          exact h.highs r' hr'
      | dword | qword =>
          have hpub : pub = true := by
            simp only [Public.write, mem_mark] at hr'
            tauto
          rw [hv hpub]
          rfl
    · rw [if_neg hrr, if_neg hrr]
      apply h.highs
      cases w with
      | byte => cases pub <;> exact hr'
      | word => exact hr'
      | dword | qword =>
          simp only [Public.write, mem_mark] at hr'
          tauto
  · exact h.zf

theorem Agree.write_secret (h : A.Agree m m') (w : Width) (r : Reg) (v v' : BitVec w.bits) :
    (A.write w r false).Agree (m.write w r v) (m'.write w r v') :=
  h.write fun hpub => by cases hpub

theorem Agree.write_public (h : A.Agree m m') (w : Width) (r : Reg) (v : BitVec w.bits) :
    (A.write w r true).Agree (m.write w r v) (m'.write w r v) :=
  h.write fun _ => rfl

theorem rel_map {α β γ δ : Type} {R : α → β → Prop} {S : γ → δ → Prop} {f : α → γ} {g : β → δ}
    {a : Option α} {b : Option β} (h : Option.Rel R a b) (hfg : ∀ x y, R x y → S (f x) (g y)) :
    Option.Rel S (a.map f) (b.map g) := by
  cases h with
  | none => exact .none
  | some hxy => exact .some (hfg _ _ hxy)

/-- ZF itself is secret. -/
theorem Agree.rel_zf (h : A.Agree m m') : Option.Rel (fun _ _ => True) m.zf m'.zf := by
  have hzf := h.zf
  cases hz : m.zf with
  | none =>
      rw [hz] at hzf
      rw [Option.isSome_eq_false_iff.1 hzf.symm |> Option.isNone_iff_eq_none.1]
      exact .none
  | some z =>
      rw [hz] at hzf
      obtain ⟨z', hz'⟩ := Option.isSome_iff_exists.1 hzf.symm
      rw [hz']
      exact .some trivial

theorem Agree.setFlag (h : A.Agree m m') (z z' : Bool) :
    A.Agree { m with zf := some z } { m' with zf := some z' } :=
  ⟨h.lows, h.highs, rfl⟩

theorem Agree.clearFlag (h : A.Agree m m') :
    A.Agree { m with zf := none } { m' with zf := none } :=
  ⟨h.lows, h.highs, rfl⟩

theorem Agree.setMem (h : A.Agree m m') (mem mem' : Mem) :
    A.Agree { m with mem := mem } { m' with mem := mem' } :=
  ⟨h.lows, h.highs, h.zf⟩

/-- The same value in both. -/
theorem Agree.setReg (h : A.Agree m m') (r : Reg) (v : BitVec 64) :
    A.Agree { m with regs := m.regs.set v r } { m' with regs := m'.regs.set v r } := by
  constructor
  · intro r' hr'
    change low ((m.regs.set v r).get r') = low ((m'.regs.set v r).get r')
    rw [Regs.get_set, Regs.get_set]
    split_ifs
    · rfl
    · exact h.lows r' hr'
  · intro r' hr'
    change high ((m.regs.set v r).get r') = high ((m'.regs.set v r).get r')
    rw [Regs.get_set, Regs.get_set]
    split_ifs
    · rfl
    · exact h.highs r' hr'
  · exact h.zf

theorem Agree.leakOperand (h : A.Agree m m') {src : Operand} (hsrc : A.knownAddress src = true) :
    src.leak m = src.leak m' := by
  cases src with
  | mem base disp => rw [Operand.leak, Operand.leak, h.address_eq hsrc]
  | _ => rfl

theorem Agree.dividend_eq (h : A.Agree m m') (hax : .rax ∈ A.lows) (hdx : .rdx ∈ A.lows) :
    m.dividend = m'.dividend := by
  unfold Machine.dividend
  rw [h.read_word hax, h.read_word hdx]

/-- What an allowed instruction shows is the same. -/
theorem Agree.leak_eq (h : A.Agree m m') {i : Instr} (hi : A.allows i = true) :
    i.leak m = i.leak m' := by
  cases i with
  | mov w dst src => exact h.leakOperand hi
  | cmovz w dst src => exact h.leakOperand hi
  | cmp w a b => exact h.leakOperand hi
  | alu op w dst src => exact h.leakOperand hi
  | put w base disp src => rw [Instr.leak, Instr.leak, h.address_eq hi]
  | setz dst => rfl
  | div src =>
      simp only [allows, Bool.and_eq_true, List.contains_iff_mem] at hi
      rw [Instr.leak, Instr.leak, h.dividend_eq hi.1.1 hi.1.2, h.read_word hi.2]
  | push src | pop dst | ret =>
      have hrsp : m.regs.rsp = m'.regs.rsp := h.get_eq (r := .rsp) hi
      rw [Instr.leak, Instr.leak, hrsp]
  | loop target => rfl

/-- An allowed instruction leaves machines that agree, or faults in both. -/
theorem Agree.exec (h : A.Agree m m') {i : Instr} (hi : A.allows i = true) :
    Option.Rel (A.after i).Agree (i.exec m) (i.exec m') := by
  cases i with
  | mov w dst src => exact .some (h.write fun hsrc => h.value_eq hsrc)
  | put w base disp src => exact .some (h.setMem _ _)
  | cmovz w dst src =>
      rw [Instr.exec, Instr.exec]
      exact rel_map h.rel_zf fun _ _ _ => h.write_secret w dst _ _
  | cmp w a b => exact .some (h.setFlag _ _)
  | alu op w dst src =>
      refine .some ((h.write ?_).setFlag _ _)
      intro hpub
      rcases Bool.or_eq_true_iff.1 hpub with hknown | hzero
      · obtain ⟨hdst, hsrc⟩ := Bool.and_eq_true_iff.1 hknown
        have hread : m.value w (.reg dst) = m'.value w (.reg dst) := h.value_eq hdst
        change m.read w dst = m'.read w dst at hread
        rw [hread, h.value_eq hsrc]
      · obtain ⟨hop, hsrc⟩ := Bool.and_eq_true_iff.1 hzero
        rw [decide_eq_true_eq] at hop hsrc
        subst hop hsrc
        change m.read w dst ^^^ m.read w dst = m'.read w dst ^^^ m'.read w dst
        rw [BitVec.xor_self, BitVec.xor_self]
  | setz dst =>
      rw [Instr.exec, Instr.exec]
      exact rel_map h.rel_zf fun _ _ _ => h.write_secret .byte dst _ _
  | div src =>
      simp only [allows, Bool.and_eq_true, List.contains_iff_mem] at hi
      simp only [Instr.exec, h.dividend_eq hi.1.1 hi.1.2, h.read_word hi.2]
      split_ifs
      · exact .none
      · exact .some ((h.write_public .word .rax _).write_public .word .rdx _).clearFlag
  | push src =>
      have hrsp : m.regs.rsp = m'.regs.rsp := h.get_eq (r := .rsp) hi
      rw [Instr.exec, Instr.exec, hrsp]
      exact .some ((h.setReg .rsp _).setMem _ _)
  | pop dst =>
      have hrsp : m.regs.rsp = m'.regs.rsp := h.get_eq (r := .rsp) hi
      rw [Instr.exec, Instr.exec, hrsp]
      exact .some ((h.setReg .rsp _).write_secret .qword dst _ _)
  | loop target => exact .none
  | ret => exact .none

theorem Agree.of_le (h : B.Agree m m') (hle : A.le B = true) : A.Agree m m' := by
  simp only [le, Bool.and_eq_true, List.all_eq_true, List.contains_iff_mem] at hle
  exact ⟨fun r hr => h.lows r (hle.1 r hr), fun r hr => h.highs r (hle.2 r hr), h.zf⟩

theorem meet_le (A B : Public) : (A.meet B).le A = true := by
  simp only [le, meet, Bool.and_eq_true, List.all_eq_true, List.contains_iff_mem]
  exact ⟨fun r hr => (List.mem_filter.1 hr).1, fun r hr => (List.mem_filter.1 hr).1⟩

theorem before_succ_le {code : List Instr} {pc : Nat} {i : Instr} (hi : code[pc]? = some i) :
    (A.before code (pc + 1)).le ((A.before code pc).after i) = true := by
  rw [before, hi]
  exact meet_le _ _

theorem of_checks {code : List Instr} (h : A.checks code = true) {pc : Nat} {i : Instr}
    (hi : code[pc]? = some i) :
    (A.before code pc).allows i = true ∧ A.closes code pc i = true := by
  have hlt : pc < code.length := (List.getElem?_eq_some_iff.1 hi).1
  have hpc := List.all_eq_true.1 h pc (List.mem_range.2 hlt)
  rw [hi] at hpc
  exact Bool.and_eq_true_iff.1 hpc

end Public

/-! ## Two runs -/

/-- The two runs are at the same place with the same public parts, or both have returned. -/
inductive Lockstep (A : Public) (code : List Instr) : Config → Config → Prop
  | run {pc m m'} : (A.before code pc).Agree m m' → Lockstep A code ⟨.run pc, m⟩ ⟨.run pc, m'⟩
  | returned {a a' m m'} : Lockstep A code ⟨.returned a, m⟩ ⟨.returned a', m'⟩

section

variable {A : Public} {code : List Instr} {c c' : Config}

theorem Lockstep.observe_eq (hcheck : A.checks code = true) (h : Lockstep A code c c') :
    observe code c = observe code c' := by
  cases h with
  | returned => rfl
  | @run pc m m' hagree =>
      change Event.pc pc :: ((code[pc]?).map (Instr.leak m)).getD [] =
        Event.pc pc :: ((code[pc]?).map (Instr.leak m')).getD []
      cases hi : code[pc]? with
      | none => rfl
      | some i => rw [Option.map_some, Option.map_some, hagree.leak_eq
          (Public.of_checks hcheck hi).1]

theorem Lockstep.step (hcheck : A.checks code = true) (h : Lockstep A code c c') :
    Option.Rel (Lockstep A code) (X86.step code c) (X86.step code c') := by
  cases h with
  | returned => exact .none
  | @run pc m m' hagree =>
      cases hi : code[pc]? with
      | none =>
          change Option.Rel _ ((code[pc]?).bind _) ((code[pc]?).bind _)
          rw [hi]
          exact .none
      | some i =>
          obtain ⟨hallows, hcloses⟩ := Public.of_checks hcheck hi
          rw [step_of_getElem? hi, step_of_getElem? hi]
          have hexec := hagree.exec hallows
          have hnext := Public.before_succ_le (A := A) hi
          cases i with
          | loop target =>
              -- both runs count down from the same number
              have hrcx : m.regs.rcx = m'.regs.rcx := hagree.get_eq (r := .rcx) hallows
              have hcounted : (A.before code pc).Agree m.counted m'.counted := by
                unfold Machine.counted
                rw [hrcx]
                exact hagree.setReg .rcx _
              have hsame : m.counted.regs.rcx = m'.counted.regs.rcx :=
                hcounted.get_eq (r := .rcx) hallows
              rw [Instr.next, Instr.next, hsame]
              split_ifs
              · exact .some (.run (hcounted.of_le hnext))
              · exact .some (.run (hcounted.of_le hcloses))
          | ret => exact .some .returned
          | _ => exact Public.rel_map hexec fun _ _ hafter => .run (hafter.of_le hnext)

/-- **Constant time.** Two runs of a checked program from machines with the same public parts show
the same, however long they are watched. -/
theorem constant_time (hcheck : A.checks code = true) {m m' : Machine} (h : A.Agree m m')
    (n : Nat) : trace code n ⟨.run 0, m⟩ = trace code n ⟨.run 0, m'⟩ := by
  have hrun : ∀ n c c', Lockstep A code c c' → trace code n c = trace code n c' := by
    intro n
    induction n with
    | zero => exact fun _ _ _ => rfl
    | succ n ih =>
        intro c c' hc
        rw [trace, trace, hc.observe_eq hcheck]
        have hstep := hc.step hcheck
        congr 1
        generalize step code c = next, step code c' = next' at hstep
        cases hstep with
        | none => rfl
        | some hnext => exact ih _ _ hnext
  exact hrun n _ _ (.run h)

end

end X86
