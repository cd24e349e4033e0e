import DeSearch.Lib.X86

/-!
# Calls and the stack

What a routine owes its caller under the System V calling convention: it returns to the address on
top of the stack, pops it, and leaves the registers that belong to the caller as they were. A
routine that needs these registers pushes them first and pops them in the end.

* `returns_block`: a routine without a frame.
* `returns_framed`: a routine that saves registers, if its body leaves the stack alone.
* `Framed.returns`: the same for a body that is given by its effect on the memory.
-/

namespace X86

open Memory

/-- The registers that belong to the caller. -/
def calleeSaved : List Reg := [.rbx, .rbp, .r12, .r13, .r14, .r15]

/-- A call returns with `mem'` in all of the memory but `d` bytes below the stack pointer. -/
def Returns (code : List Instr) (m : Machine) (d : Nat) (mem' : Mem) : Prop :=
  ∃ m', Reaches code ⟨.run 0, m⟩ ⟨.returned (load m.mem m.regs.rsp 8), m'⟩ ∧
    (∀ r ∈ calleeSaved, m'.regs.get r = m.regs.get r) ∧
    m'.regs.rsp = m.regs.rsp + 8 ∧
    ∀ x, ¬Within (m.regs.rsp - BitVec.ofNat 64 d) d x → m'.mem x = mem' x

/-- The words lie one after another from `a` on. -/
def Stacked (mem : Mem) (a : Addr) : List (BitVec 64) → Prop
  | [] => True
  | v :: vs => load mem a 8 = v ∧ Stacked mem (a + 8) vs

variable {code block : List Instr} {pc d : Nat} {m m' : Machine} {mem mem' : Mem} {a : Addr}

/-! ## A routine without a frame -/

theorem codeAt_zero_append (block rest : List Instr) : CodeAt (block ++ rest) 0 block := by
  simp [CodeAt]

theorem returns_block (h : execAll block m = some m')
    (hret : load m'.mem m.regs.rsp 8 = load m.mem m.regs.rsp 8) (hsp : m'.regs.rsp = m.regs.rsp)
    (hsaved : ∀ r ∈ calleeSaved, m'.regs.get r = m.regs.get r) (d : Nat) :
    Returns (block ++ [.ret]) m d m'.mem := by
  have hrun := reaches_block (codeAt_zero_append block [.ret]) h
  have hcode : (block ++ [Instr.ret])[0 + block.length]? = some .ret := by simp
  refine ⟨m'.popped, ?_, ?_, ?_, fun x _ => rfl⟩
  · rw [← hret, ← hsp]
    exact hrun.trans (reaches_ret hcode)
  · intro r hr
    change (m'.regs.set (m'.regs.rsp + 8) .rsp).get r = _
    have hne : r ≠ .rsp := fun heq => absurd (heq ▸ hr) (by decide)
    rw [Regs.get_set, if_neg hne, hsaved r hr]
  · change m'.regs.rsp + 8 = _
    rw [hsp]

/-! ## Saving registers -/

theorem Stacked.append {vs ws : List (BitVec 64)} (hvs : Stacked mem a vs)
    (hws : Stacked mem (a + BitVec.ofNat 64 (8 * vs.length)) ws) : Stacked mem a (vs ++ ws) := by
  induction vs generalizing a with
  | nil => simpa using hws
  | cons v vs ih =>
      refine ⟨hvs.1, ih hvs.2 ?_⟩
      have hadd : a + 8 + BitVec.ofNat 64 (8 * vs.length) =
          a + BitVec.ofNat 64 (8 * (v :: vs).length) := by
        rw [List.length_cons, Nat.mul_add, Nat.add_comm, BitVec.ofNat_add, ← add_assoc]
        rfl
      rwa [hadd]

theorem Stacked.congr {vs : List (BitVec 64)} (hlen : 8 * vs.length ≤ 2 ^ 64)
    (hmem : ∀ x, Within a (8 * vs.length) x → mem x = mem' x) (h : Stacked mem a vs) :
    Stacked mem' a vs := by
  induction vs generalizing a with
  | nil => trivial
  | cons v vs ih =>
      rw [List.length_cons] at hlen hmem
      constructor
      · rw [← h.1]
        apply load_congr_of_within (by decide)
        intro x hx
        exact (hmem x (Nat.lt_of_lt_of_le hx (by omega))).symm
      · refine ih (by omega) (fun x hx => hmem x ?_) h.2
        exact Within.of_part (k := 8) hx (by omega) hlen

theorem Regs.set_set (s : Regs) (v v' : BitVec 64) (r : Reg) :
    (s.set v r).set v' r = s.set v' r := by
  cases r <;> rfl

theorem execAll_push {rs : List Reg} (hrs : .rsp ∉ rs) (hlen : 8 * rs.length ≤ 2 ^ 64)
    (m : Machine) :
    ∃ mem', execAll (rs.map .push) m =
        some ⟨m.regs.set (m.regs.rsp - BitVec.ofNat 64 (8 * rs.length)) .rsp, m.zf, mem'⟩ ∧
      (∀ x, ¬Within (m.regs.rsp - BitVec.ofNat 64 (8 * rs.length)) (8 * rs.length) x →
        mem' x = m.mem x) ∧
      Stacked mem' (m.regs.rsp - BitVec.ofNat 64 (8 * rs.length)) (rs.reverse.map m.regs.get) := by
  induction rs generalizing m with
  | nil =>
      refine ⟨m.mem, ?_, fun x _ => rfl, trivial⟩
      rw [List.length_nil, Nat.mul_zero, BitVec.sub_zero]
      rfl
  | cons r rs ih =>
      rw [List.mem_cons, not_or] at hrs
      rw [List.length_cons] at hlen ⊢
      obtain ⟨mem', hexec, hout, hstack⟩ := ih hrs.2 (by omega)
        ⟨m.regs.set (m.regs.rsp - 8) .rsp, m.zf, store m.mem (m.regs.rsp - 8) 8 (m.regs.get r)⟩
      have hsp : m.regs.rsp - 8 - BitVec.ofNat 64 (8 * rs.length) =
          m.regs.rsp - BitVec.ofNat 64 (8 * (rs.length + 1)) := by
        rw [Nat.mul_add, BitVec.ofNat_add, sub_sub, add_comm]
        rfl
      change execAll _ _ = some ⟨(m.regs.set (m.regs.rsp - 8) .rsp).set
        (m.regs.rsp - 8 - BitVec.ofNat 64 (8 * rs.length)) .rsp, m.zf, mem'⟩ at hexec
      change ∀ x, ¬Within (m.regs.rsp - 8 - BitVec.ofNat 64 (8 * rs.length)) _ x → _ at hout
      change Stacked mem' (m.regs.rsp - 8 - BitVec.ofNat 64 (8 * rs.length)) _ at hstack
      rw [Regs.set_set, hsp] at hexec
      rw [hsp] at hout hstack
      -- the word that was pushed first lies above the others
      have htop : m.regs.rsp - 8 =
          m.regs.rsp - BitVec.ofNat 64 (8 * (rs.length + 1)) + BitVec.ofNat 64 (8 * rs.length) := by
        rw [Nat.mul_add, BitVec.ofNat_add]
        change m.regs.rsp - 8 = _ - (_ + 8) + _
        abel
      refine ⟨mem', hexec, ?_, ?_⟩
      · intro x hx
        rw [hout x fun h => hx (Nat.lt_of_lt_of_le h (by omega))]
        apply store_of_not_within
        intro h
        rw [htop] at h
        exact hx (h.of_part (by omega) hlen)
      · rw [List.reverse_cons, List.map_append]
        apply Stacked.append
        · have hget : ∀ r' ∈ rs.reverse,
              (m.regs.set (m.regs.rsp - 8) .rsp).get r' = m.regs.get r' := by
            intro r' hr'
            have hne : r' ≠ .rsp := fun heq => hrs.2 (heq ▸ List.mem_reverse.1 hr')
            rw [Regs.get_set, if_neg hne]
          rwa [← List.map_congr_left hget]
        · rw [List.length_map, List.length_reverse, ← htop]
          refine ⟨?_, trivial⟩
          refine (load_congr_of_within (by decide) fun x hx => hout x ?_).trans
            (load_store (by decide) _)
          rw [htop] at hx
          exact hx.not_before (by omega)

theorem execAll_pop {f : Reg → BitVec 64} {rs : List Reg} (hrs : .rsp ∉ rs)
    (h : Stacked m.mem m.regs.rsp (rs.map f)) :
    ∃ regs, execAll (rs.map .pop) m = some ⟨regs, m.zf, m.mem⟩ ∧
      regs.rsp = m.regs.rsp + BitVec.ofNat 64 (8 * rs.length) ∧
      (∀ r ∈ rs, regs.get r = f r) ∧ ∀ r, r ≠ .rsp → r ∉ rs → regs.get r = m.regs.get r := by
  induction rs generalizing m with
  | nil => exact ⟨m.regs, rfl, (add_zero _).symm, fun r hr => absurd hr List.not_mem_nil,
      fun r _ _ => rfl⟩
  | cons r rs ih =>
      rw [List.mem_cons, not_or] at hrs
      have hwrite : ∀ r', (m.regs.set (m.regs.rsp + 8) .rsp |>.set (f r) r).get r' =
          if r' = r then f r else if r' = .rsp then m.regs.rsp + 8 else m.regs.get r' := by
        intro r'
        rw [Regs.get_set, Regs.get_set]
      have hsp : (m.regs.set (m.regs.rsp + 8) .rsp |>.set (f r) r).rsp = m.regs.rsp + 8 := by
        have := hwrite .rsp
        rwa [if_neg hrs.1, if_pos rfl] at this
      obtain ⟨regs, hexec, hrsp, hpop, hkeep⟩ := ih
        (m := ⟨m.regs.set (m.regs.rsp + 8) .rsp |>.set (f r) r, m.zf, m.mem⟩) hrs.2
        (by rw [hsp]; exact h.2)
      have hstep : (Instr.pop r).exec m =
          some ⟨m.regs.set (m.regs.rsp + 8) .rsp |>.set (f r) r, m.zf, m.mem⟩ := by
        rw [← h.1]
        change some _ = some _
        congr 3
      refine ⟨regs, ?_, ?_, ?_, ?_⟩
      · rw [List.map_cons, execAll_cons, hstep]
        exact hexec
      · rw [hrsp, hsp, List.length_cons, Nat.mul_add, Nat.add_comm, BitVec.ofNat_add, ← add_assoc]
        rfl
      · intro r' hr'
        by_cases hin : r' ∈ rs
        · exact hpop r' hin
        · have heq : r' = r := (List.mem_cons.1 hr').resolve_right hin
          have hne : r' ≠ .rsp := fun h => hrs.1 (h.symm.trans heq)
          rw [hkeep r' hne hin, hwrite, if_pos heq, heq]
      · intro r' hne hout
        rw [List.mem_cons, not_or] at hout
        rw [hkeep r' hne hout.2, hwrite, if_neg hout.1, if_neg hne]

/-- **A routine with a frame.** It pushes registers, its body leaves the stack pointer, the words on
the stack and the return address as they are, and it pops the registers in reverse order. -/
theorem returns_framed (rs : List Reg) {mem' : Mem} (hrs : .rsp ∉ rs)
    (hlen : 8 * rs.length + 8 ≤ 2 ^ 64) (hpush : CodeAt code 0 (rs.map .push))
    (hpop : CodeAt code pc (rs.reverse.map .pop)) (hret : code[pc + rs.length]? = some .ret)
    (hbody : ∀ mem₁, (∀ x, ¬Within (m.regs.rsp - BitVec.ofNat 64 (8 * rs.length))
        (8 * rs.length) x → mem₁ x = m.mem x) →
      ∃ m₂, Reaches code
          ⟨.run rs.length,
            ⟨m.regs.set (m.regs.rsp - BitVec.ofNat 64 (8 * rs.length)) .rsp, m.zf, mem₁⟩⟩
          ⟨.run pc, m₂⟩ ∧
        m₂.regs.rsp = m.regs.rsp - BitVec.ofNat 64 (8 * rs.length) ∧
        (∀ r ∈ calleeSaved, r ∉ rs → m₂.regs.get r = m.regs.get r) ∧
        (∀ x, Within (m.regs.rsp - BitVec.ofNat 64 (8 * rs.length)) (8 * rs.length + 8) x →
          m₂.mem x = mem₁ x) ∧
        ∀ x, ¬Within (m.regs.rsp - BitVec.ofNat 64 (8 * rs.length)) (8 * rs.length) x →
          m₂.mem x = mem' x) :
    Returns code m (8 * rs.length) mem' := by
  obtain ⟨mem₁, hsave, hout, hstack⟩ := execAll_push hrs (by omega) m
  obtain ⟨m₂, hrun, hsp, hkept, hframe, hmem⟩ := hbody mem₁ hout
  have hstack₂ : Stacked m₂.mem m₂.regs.rsp (rs.reverse.map m.regs.get) := by
    rw [hsp]
    refine hstack.congr (by simp; omega) fun x hx => (hframe x ?_).symm
    rw [List.length_map, List.length_reverse] at hx
    exact Nat.lt_of_lt_of_le hx (by omega)
  obtain ⟨regs, hrestore, hrsp, hpopped, hrest⟩ :=
    execAll_pop (fun h => hrs (List.mem_reverse.1 h)) hstack₂
  have hrsp' : regs.rsp = m.regs.rsp := by
    rw [hrsp, hsp, List.length_reverse]
    exact sub_add_cancel _ _
  have hreturn : load m₂.mem regs.rsp 8 = load m.mem m.regs.rsp 8 := by
    rw [hrsp']
    apply load_congr_of_within (by decide)
    intro x hx
    have hx' : Within (m.regs.rsp - BitVec.ofNat 64 (8 * rs.length) +
        BitVec.ofNat 64 (8 * rs.length)) 8 x := by rwa [sub_add_cancel]
    rw [hframe x (hx'.of_part (by omega) hlen), hout x (hx'.not_before hlen)]
  have hpushed := reaches_block hpush hsave
  rw [List.length_map, Nat.zero_add] at hpushed
  have hpops := reaches_block hpop hrestore
  rw [List.length_map, List.length_reverse] at hpops
  have hback := reaches_ret (m := ⟨regs, m₂.zf, m₂.mem⟩) hret
  change Reaches code _ ⟨.returned (load m₂.mem regs.rsp 8), _⟩ at hback
  rw [hreturn] at hback
  refine ⟨_, ((hpushed.trans hrun).trans hpops).trans hback, ?_, ?_, hmem⟩
  · intro r hr
    change (regs.set (regs.rsp + 8) .rsp).get r = _
    have hne : r ≠ .rsp := fun heq => absurd (heq ▸ hr) (by decide)
    rw [Regs.get_set, if_neg hne]
    by_cases hin : r ∈ rs
    · exact hpopped r (List.mem_reverse.2 hin)
    · rw [hrest r hne fun h => hin (List.mem_reverse.1 h), hkept r hr hin]
  · change regs.rsp + 8 = _
    rw [hrsp']

/-! ## Routines with an effect -/

/-- The arguments of a call. -/
structure Args where
  rdi : BitVec 64
  rsi : BitVec 64
  rdx : BitVec 64
  rcx : BitVec 64
  r8 : BitVec 64

def Regs.args (s : Regs) : Args := ⟨s.rdi, s.rsi, s.rdx, s.rcx, s.r8⟩

/-- A routine that saves the registers of its caller, with the effect of its body. -/
structure Framed where
  code : List Instr
  /-- Where it restores the registers. -/
  last : Nat
  Pre : Args → Prop
  ranges : Args → List (Addr × Nat)
  effect : Args → Mem → Mem
  pushes : CodeAt code 0 (calleeSaved.map .push)
  pops : CodeAt code last (calleeSaved.reverse.map .pop)
  ret : code[last + 6]? = some .ret
  body : ∀ m : Machine, Pre m.regs.args → ∃ m', Reaches code ⟨.run 6, m⟩ ⟨.run last, m'⟩ ∧
    m'.regs.rsp = m.regs.rsp ∧ m'.mem = effect m.regs.args m.mem
  frame : ∀ args mem x, (∀ s ∈ ranges args, ¬Within s.1 s.2 x) → effect args mem x = mem x
  congr : ∀ (args : Args) (S : Addr → Prop) (mem mem' : Mem),
    (∀ s ∈ ranges args, ∀ x, Within s.1 s.2 x → S x) → (∀ x, S x → mem x = mem' x) →
    ∀ x, S x → effect args mem x = effect args mem' x

/-- The body works on ranges off the stack, so that the registers are restored. -/
theorem Framed.returns (f : Framed) (m : Machine) (hpre : f.Pre m.regs.args)
    (hoff : ∀ s ∈ f.ranges m.regs.args, Apart s.1 s.2 (m.regs.rsp - 48) 56) :
    Returns f.code m 48 (f.effect m.regs.args m.mem) := by
  refine returns_framed calleeSaved (by decide) (by decide) f.pushes f.pops f.ret ?_
  intro mem₁ hmem₁
  obtain ⟨m₂, hrun, hsp, hmem⟩ :=
    f.body ⟨m.regs.set (m.regs.rsp - 48) .rsp, m.zf, mem₁⟩ hpre
  refine ⟨m₂, hrun, hsp, fun r hr hr' => absurd hr hr', fun x hx => ?_, fun x hx => ?_⟩
  · rw [hmem]
    exact f.frame m.regs.args mem₁ x fun s hs hx' => hoff s hs x hx' hx
  · rw [hmem]
    refine f.congr m.regs.args (fun x => ¬Within (m.regs.rsp - 48) 48 x) mem₁ m.mem ?_ hmem₁ x hx
    intro s hs y hy hstack
    exact hoff s hs y hy (Nat.lt_of_lt_of_le hstack (by decide))

end X86
