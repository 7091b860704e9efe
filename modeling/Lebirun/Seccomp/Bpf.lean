import Mathlib

namespace Lebirun.Seccomp
set_option autoImplicit true

structure BpfInsn where
  code : BitVec 16
  jt : BitVec 8
  jf : BitVec 8
  k : BitVec 32
  deriving DecidableEq, Repr

abbrev bpfLd : BitVec 16 := 0x00
abbrev bpfLdx : BitVec 16 := 0x01
abbrev bpfSt : BitVec 16 := 0x02
abbrev bpfStx : BitVec 16 := 0x03
abbrev bpfAlu : BitVec 16 := 0x04
abbrev bpfJmp : BitVec 16 := 0x05
abbrev bpfRet : BitVec 16 := 0x06
abbrev bpfMisc : BitVec 16 := 0x07
abbrev bpfW : BitVec 16 := 0x00
abbrev bpfImm : BitVec 16 := 0x00
abbrev bpfAbs : BitVec 16 := 0x20
abbrev bpfMem : BitVec 16 := 0x60
abbrev bpfLen : BitVec 16 := 0x80
abbrev bpfAdd : BitVec 16 := 0x00
abbrev bpfSub : BitVec 16 := 0x10
abbrev bpfMul : BitVec 16 := 0x20
abbrev bpfDiv : BitVec 16 := 0x30
abbrev bpfOr : BitVec 16 := 0x40
abbrev bpfAnd : BitVec 16 := 0x50
abbrev bpfLsh : BitVec 16 := 0x60
abbrev bpfRsh : BitVec 16 := 0x70
abbrev bpfNeg : BitVec 16 := 0x80
abbrev bpfMod : BitVec 16 := 0x90
abbrev bpfXor : BitVec 16 := 0xa0
abbrev bpfJa : BitVec 16 := 0x00
abbrev bpfJeq : BitVec 16 := 0x10
abbrev bpfJgt : BitVec 16 := 0x20
abbrev bpfJge : BitVec 16 := 0x30
abbrev bpfJset : BitVec 16 := 0x40
abbrev bpfK : BitVec 16 := 0x00
abbrev bpfX : BitVec 16 := 0x08
abbrev bpfA : BitVec 16 := 0x10
abbrev bpfTax : BitVec 16 := 0x00
abbrev bpfTxa : BitVec 16 := 0x80

abbrev seccompRetAllow : BitVec 32 := 0x7fff0000
abbrev seccompRetKill : BitVec 32 := 0x00000000
abbrev seccompRetErrno : BitVec 32 := 0x00050000
abbrev seccompRetMask : BitVec 32 := 0x0000ffff
abbrev auditArchX86_64 : BitVec 32 := 0xc000003e
abbrev seccompBpfMaxLen : Nat := 512
abbrev seccompBpfMaxSteps : Nat := 4096

/-- The system call a filter is asked about. -/
structure BpfInput where
  nr : BitVec 32
  arch : BitVec 32
  ip : BitVec 64
  args : Fin 6 → BitVec 64

/-- The offsets at which `bpfLoadWord` has a field of the input. -/
def WordDefined (k : BitVec 32) : Prop :=
  k = 0 ∨ k = 4 ∨ k = 8 ∨ k = 12 ∨ (16 ≤ k ∧ k ≤ 56 ∧ (k - 16) &&& 7 = 0)

instance (k : BitVec 32) : Decidable (WordDefined k) :=
  inferInstanceAs (Decidable (_ ∨ _))

def bpfLoadWord (inp : BpfInput) (k : BitVec 32) : BitVec 32 :=
  if k = 0 then inp.nr
  else if k = 4 then inp.arch
  else if k = 8 then (inp.ip &&& 0xffffffff).truncate 32
  else if k = 12 then (inp.ip >>> 32).truncate 32
  else if 16 ≤ k ∧ k ≤ 56 ∧ (k - 16) &&& 7 = 0 then
    (inp.args (Fin.ofNat 6 ((k - 16) / 8).toNat) &&& 0xffffffff).truncate 32
  else 0

/-- The class bits select the decoder of both the checker and the interpreter. -/
def BpfInsn.cls (i : BpfInsn) : BitVec 16 := i.code &&& 0x07

/-- The body of the checker's loop at `pc`; `false` is its `return -1`. Targets are
truncated to 32 bits here, and only here. -/
def bpfCheckInsn (len pc : Nat) (i : BpfInsn) : Bool :=
  if i.cls = bpfLd then
    if i.code = bpfLd ||| bpfW ||| bpfAbs then
      !(i.k ≠ 0 ∧ i.k ≠ 4 ∧ i.k ≠ 8 ∧ i.k ≠ 12 ∧
        (i.k < 16 ∨ i.k > 56 ∨ (i.k - 16) &&& 7 ≠ 0))
    else if i.code = bpfLd ||| bpfW ||| bpfImm then true
    else if i.code = bpfLd ||| bpfW ||| bpfLen then true
    else if i.code = bpfLd ||| bpfMem then !((i.k &&& ~~~0xf#32) ≠ 0)
    else false
  else if i.cls = bpfLdx then
    if i.code ≠ bpfLdx ||| bpfW ||| bpfImm ∧ i.code ≠ bpfLdx ||| bpfW ||| bpfLen ∧
        i.code ≠ bpfLdx ||| bpfMem then false
    else !(i.code = bpfLdx ||| bpfMem ∧ (i.k &&& ~~~0xf#32) ≠ 0)
  else if i.cls = bpfSt then
    if i.code ≠ bpfSt ||| bpfMem then false
    else !((i.k &&& ~~~0xf#32) ≠ 0)
  else if i.cls = bpfStx then
    if i.code ≠ bpfStx ||| bpfMem then false
    else !((i.k &&& ~~~0xf#32) ≠ 0)
  else if i.cls = bpfAlu then
    let op := i.code &&& 0xf0
    let src := i.code &&& 0x08
    if op ≠ bpfAdd ∧ op ≠ bpfSub ∧ op ≠ bpfMul ∧ op ≠ bpfDiv ∧ op ≠ bpfMod ∧ op ≠ bpfOr ∧
        op ≠ bpfAnd ∧ op ≠ bpfXor ∧ op ≠ bpfLsh ∧ op ≠ bpfRsh ∧ op ≠ bpfNeg then false
    else if src ≠ bpfK ∧ src ≠ bpfX then false
    else !(op = bpfNeg ∧ src ≠ bpfX)
  else if i.cls = bpfJmp then
    let op := i.code &&& 0xf0
    if op = bpfJa then
      if i.k = 0 then false
      else
        let target := (pc + 1 + i.k.toNat) % 2 ^ 32
        !(target ≥ len ∨ target ≤ pc)
    else if op = bpfJeq ∨ op = bpfJgt ∨ op = bpfJge ∨ op = bpfJset then
      let src := i.code &&& 0x08
      let target := (pc + 1 + i.jt.toNat) % 2 ^ 32
      let target' := (pc + 1 + i.jf.toNat) % 2 ^ 32
      if src ≠ bpfK ∧ src ≠ bpfX then false
      else if target ≥ len ∨ target ≤ pc then false
      else !(target' ≥ len ∨ target' ≤ pc)
    else false
  else if i.cls = bpfRet then
    !(i.code ≠ bpfRet ||| bpfK ∧ i.code ≠ bpfRet ||| bpfX ∧ i.code ≠ bpfRet ||| bpfA)
  else if i.cls = bpfMisc then
    !(i.code ≠ bpfMisc ||| bpfTax ∧ i.code ≠ bpfMisc ||| bpfTxa)
  else false

def bpfCheckFrom (len : Nat) : Nat → List BpfInsn → Bool
  | _, [] => true
  | pc, i :: rest => bpfCheckInsn len pc i && bpfCheckFrom len (pc + 1) rest

/-- `0` accepts the program and `-1` rejects it. -/
def bpfCheckProgram (prog : List BpfInsn) : Int :=
  if prog.length = 0 ∨ prog.length > seccompBpfMaxLen then -1
  else if !bpfCheckFrom prog.length 0 prog then -1
  else
    match prog.getLast? with
    | none => -1
    | some i => if i.cls ≠ bpfRet then -1 else 0

structure BpfState where
  pc : Nat
  a : BitVec 32
  x : BitVec 32
  mem : Nat → BitVec 32

/-- How the interpreter's loop ends. The last three are its `SECCOMP_RET_KILL` fallbacks. -/
inductive BpfExit where
  | ret (v : BitVec 32)
  | offEnd
  | unknownClass
  | tooManySteps
  deriving DecidableEq, Repr

def BpfExit.value : BpfExit → BitVec 32
  | .ret v => v
  | .offEnd => seccompRetKill
  | .unknownClass => seccompRetKill
  | .tooManySteps => seccompRetKill

inductive BpfNext where
  | next (s : BpfState)
  | done (e : BpfExit)

def BpfInsn.memIndex (i : BpfInsn) : Nat := (i.k &&& 0xf).toNat

def bpfAluOp (op : BitVec 16) (a v : BitVec 32) : BitVec 32 :=
  if op = bpfAdd then a + v
  else if op = bpfSub then a - v
  else if op = bpfMul then a * v
  else if op = bpfDiv then if v ≠ 0 then a / v else 0
  else if op = bpfMod then if v ≠ 0 then a % v else 0
  else if op = bpfOr then a ||| v
  else if op = bpfAnd then a &&& v
  else if op = bpfXor then a ^^^ v
  else if op = bpfLsh then a <<< (v &&& 31)
  else if op = bpfRsh then a >>> (v &&& 31)
  else if op = bpfNeg then -a
  else a

def bpfTake (op : BitVec 16) (a v : BitVec 32) : Bool :=
  if op = bpfJeq then a = v
  else if op = bpfJgt then a > v
  else if op = bpfJge then a ≥ v
  else (a &&& v) ≠ 0

def bpfRetValue (i : BpfInsn) (s : BpfState) : BitVec 32 :=
  if i.code = bpfRet ||| bpfX then s.x
  else if i.code = bpfRet ||| bpfA then s.a
  else i.k

/-- One turn of the interpreter's `switch`. -/
def bpfStep (len : Nat) (inp : BpfInput) (i : BpfInsn) (s : BpfState) : BpfNext :=
  if i.cls = bpfLd then
    let a :=
      if i.code = bpfLd ||| bpfW ||| bpfAbs then bpfLoadWord inp i.k
      else if i.code = bpfLd ||| bpfW ||| bpfImm then i.k
      else if i.code = bpfLd ||| bpfMem then s.mem i.memIndex
      else BitVec.ofNat 32 len
    .next { s with a := a, pc := s.pc + 1 }
  else if i.cls = bpfLdx then
    let x :=
      if i.code = bpfLdx ||| bpfW ||| bpfImm then i.k
      else if i.code = bpfLdx ||| bpfMem then s.mem i.memIndex
      else BitVec.ofNat 32 len
    .next { s with x := x, pc := s.pc + 1 }
  else if i.cls = bpfSt then
    .next { s with mem := Function.update s.mem i.memIndex s.a, pc := s.pc + 1 }
  else if i.cls = bpfStx then
    .next { s with mem := Function.update s.mem i.memIndex s.x, pc := s.pc + 1 }
  else if i.cls = bpfMisc then
    if i.code = bpfMisc ||| bpfTax then .next { s with x := s.a, pc := s.pc + 1 }
    else .next { s with a := s.x, pc := s.pc + 1 }
  else if i.cls = bpfAlu then
    let v := if i.code &&& 0x08 ≠ 0 then s.x else i.k
    .next { s with a := bpfAluOp (i.code &&& 0xf0) s.a v, pc := s.pc + 1 }
  else if i.cls = bpfJmp then
    let op := i.code &&& 0xf0
    if op = bpfJa then .next { s with pc := s.pc + 1 + i.k.toNat }
    else
      let v := if i.code &&& 0x08 ≠ 0 then s.x else i.k
      let off := if bpfTake op s.a v then i.jt.toNat else i.jf.toNat
      .next { s with pc := s.pc + 1 + off }
  else if i.cls = bpfRet then .done (.ret (bpfRetValue i s))
  else .done .unknownClass

/-- A run of the interpreter's loop: the states at the head of each executed instruction,
in order, and how the loop ended. -/
structure BpfRun where
  visited : List BpfState
  exit : BpfExit

/-- The interpreter's `while` loop. The source counts `steps` up to its limit; `fuel` is
what is left of it. -/
def bpfLoop (prog : List BpfInsn) (inp : BpfInput) : Nat → BpfState → BpfRun
  | fuel, s =>
    match prog[s.pc]? with
    | none => ⟨[], .offEnd⟩
    | some i =>
      match fuel with
      | 0 => ⟨[], .tooManySteps⟩
      | fuel + 1 =>
        match bpfStep prog.length inp i s with
        | .done e => ⟨[s], e⟩
        | .next s' =>
          let r := bpfLoop prog inp fuel s'
          ⟨s :: r.visited, r.exit⟩

def BpfState.init : BpfState := ⟨0, 0, 0, fun _ => 0⟩

def bpfRun (prog : List BpfInsn) (inp : BpfInput) : BpfRun :=
  bpfLoop prog inp seccompBpfMaxSteps .init

/-- The instructions on which the interpreter indexes its scratch memory. -/
def BpfInsn.UsesMem (i : BpfInsn) : Prop :=
  i.code = bpfLd ||| bpfMem ∨ i.code = bpfLdx ||| bpfMem ∨ i.cls = bpfSt ∨ i.cls = bpfStx

/-- What the checker establishes about a program it accepts. -/
structure Accepted (prog : List BpfInsn) : Prop where
  bound : prog.length ≤ seccompBpfMaxLen
  insn : ∀ pc i, prog[pc]? = some i → bpfCheckInsn prog.length pc i = true
  last : ∃ i, prog[prog.length - 1]? = some i ∧ i.cls = bpfRet

theorem bpfCheckFrom_get {l : List BpfInsn} {j : Nat} (h : bpfCheckFrom len pc l = true)
    (hj : l[j]? = some i) : bpfCheckInsn len (pc + j) i = true := by
  induction l generalizing pc j with
  | nil => simp at hj
  | cons a l ih =>
    simp only [bpfCheckFrom, Bool.and_eq_true] at h
    cases j with
    | zero =>
      simp only [List.getElem?_cons_zero, Option.some.injEq] at hj
      subst a
      exact h.1
    | succ j =>
      have hr := ih h.2 (by simpa using hj)
      rwa [Nat.add_right_comm, Nat.add_assoc] at hr

theorem bpfCheckProgram_accepted (h : bpfCheckProgram prog = 0) : Accepted prog := by
  unfold bpfCheckProgram at h
  split at h
  · cases h
  · rename_i hl
    split at h
    · cases h
    · rename_i hc
      refine ⟨by omega, fun pc i hi => ?_, ?_⟩
      · have hr := @bpfCheckFrom_get _ 0 _ _ _ (by simpa using hc) hi
        rwa [Nat.zero_add] at hr
      · cases hg : prog.getLast? with
        | none => rw [hg] at h; cases h
        | some i =>
          rw [hg] at h
          refine ⟨i, by rw [← List.getLast?_eq_getElem?, hg], ?_⟩
          by_contra hn
          simp only [hn, ne_eq, not_false_eq_true, ↓reduceIte] at h
          cases h

/-- Only a return instruction can be the last one. -/
theorem Accepted.succ_lt (h : Accepted prog) (hi : prog[pc]? = some i) (hr : i.cls ≠ bpfRet) :
    pc + 1 < prog.length := by
  obtain ⟨j, hj, hc⟩ := h.last
  have hlt : pc < prog.length := (List.getElem?_eq_some_iff.1 hi).1
  by_contra hn
  have he : pc = prog.length - 1 := by omega
  rw [he, hj] at hi
  cases hi
  exact hr hc

/-- A truncated target that passes the checker is the untruncated one: a displacement that
wraps past `2 ^ 32` lands at or before the jump itself. -/
theorem target_forward {pc len d : Nat} (hd : d < 2 ^ 32) (hl : len ≤ seccompBpfMaxLen)
    (h : ¬((pc + 1 + d) % 2 ^ 32 ≥ len ∨ (pc + 1 + d) % 2 ^ 32 ≤ pc)) :
    pc < pc + 1 + d ∧ pc + 1 + d < len := by
  simp only [seccompBpfMaxLen] at hl
  omega

theorem BpfInsn.cls_cases (i : BpfInsn) :
    i.cls = bpfLd ∨ i.cls = bpfLdx ∨ i.cls = bpfSt ∨ i.cls = bpfStx ∨ i.cls = bpfAlu ∨
      i.cls = bpfJmp ∨ i.cls = bpfRet ∨ i.cls = bpfMisc := by
  have h : i.cls.toNat < 8 := by
    rw [BpfInsn.cls, BitVec.toNat_and]
    exact Nat.and_lt_two_pow (n := 3) _ (by decide)
  simp only [← BitVec.toNat_inj, bpfLd, bpfLdx, bpfSt, bpfStx, bpfAlu, bpfJmp, bpfRet, bpfMisc,
    BitVec.ofNat_eq_ofNat, BitVec.toNat_ofNat]
  omega

theorem bpfCheckInsn_jmp (h : bpfCheckInsn len pc i = true) (hl : len ≤ seccompBpfMaxLen)
    (hj : i.cls = bpfJmp) :
    (i.code &&& 0xf0 = bpfJa ∧ pc < pc + 1 + i.k.toNat ∧ pc + 1 + i.k.toNat < len) ∨
      i.code &&& 0xf0 ≠ bpfJa ∧ (pc < pc + 1 + i.jt.toNat ∧ pc + 1 + i.jt.toNat < len) ∧
        pc < pc + 1 + i.jf.toNat ∧ pc + 1 + i.jf.toNat < len := by
  simp only [bpfCheckInsn, hj, bpfLd, bpfLdx, bpfSt, bpfStx, bpfAlu, bpfJmp, BitVec.reduceEq,
    ↓reduceIte] at h
  have ht := i.jt.isLt
  have hf := i.jf.isLt
  split at h
  · rename_i ho
    refine .inl ⟨ho, target_forward i.k.isLt hl ?_⟩
    split at h
    · cases h
    · simpa using h
  · rename_i ho
    refine .inr ⟨ho, ?_⟩
    split at h
    · split at h
      · cases h
      · split at h
        · cases h
        · rename_i h₁
          exact ⟨target_forward (by omega) hl h₁, target_forward (by omega) hl (by simpa using h)⟩
    · cases h

theorem bpfStep_ret (hr : i.cls = bpfRet) :
    bpfStep len inp i s = .done (.ret (bpfRetValue i s)) := by
  simp only [bpfStep, hr, bpfLd, bpfLdx, bpfSt, bpfStx, bpfAlu, bpfJmp, bpfRet, bpfMisc,
    BitVec.reduceEq, ↓reduceIte]

theorem bpfStep_jmp (hj : i.cls = bpfJmp) :
    bpfStep len inp i s =
      if i.code &&& 0xf0 = bpfJa then .next { s with pc := s.pc + 1 + i.k.toNat }
      else
        let v := if i.code &&& 0x08 ≠ 0 then s.x else i.k
        let off := if bpfTake (i.code &&& 0xf0) s.a v then i.jt.toNat else i.jf.toNat
        .next { s with pc := s.pc + 1 + off } := by
  simp only [bpfStep, hj, bpfLd, bpfLdx, bpfSt, bpfStx, bpfAlu, bpfJmp, bpfMisc,
    BitVec.reduceEq, ↓reduceIte]

/-- Every class but the jumps and the returns falls through to the next instruction. -/
theorem bpfStep_seq (len : Nat) (inp : BpfInput) (s : BpfState) (hr : i.cls ≠ bpfRet)
    (hj : i.cls ≠ bpfJmp) : ∃ s', bpfStep len inp i s = .next s' ∧ s'.pc = s.pc + 1 := by
  rcases i.cls_cases with hc | hc | hc | hc | hc | hc | hc | hc
  case inr.inr.inr.inr.inr.inl => exact absurd hc hj
  case inr.inr.inr.inr.inr.inr.inl => exact absurd hc hr
  all_goals
    simp only [bpfStep, hc, bpfLd, bpfLdx, bpfSt, bpfStx, bpfAlu, bpfMisc,
      BitVec.reduceEq, ↓reduceIte]
  case inr.inr.inr.inr.inr.inr.inr =>
    split
    · exact ⟨_, rfl, rfl⟩
    · exact ⟨_, rfl, rfl⟩
  all_goals exact ⟨_, rfl, rfl⟩

/-- The interpreter moves an accepted program strictly forward inside it, or returns. -/
theorem Accepted.step (h : Accepted prog) (hi : prog[s.pc]? = some i) (inp : BpfInput) :
    (∃ s', bpfStep prog.length inp i s = .next s' ∧ s.pc < s'.pc ∧ s'.pc < prog.length) ∨
      i.cls = bpfRet ∧ bpfStep prog.length inp i s = .done (.ret (bpfRetValue i s)) := by
  by_cases hr : i.cls = bpfRet
  · exact .inr ⟨hr, bpfStep_ret hr⟩
  left
  by_cases hj : i.cls = bpfJmp
  · rw [bpfStep_jmp hj]
    rcases bpfCheckInsn_jmp (h.insn _ _ hi) h.bound hj with ⟨ho, hk⟩ | ⟨ho, ht, hf⟩
    · rw [if_pos ho]
      exact ⟨_, rfl, hk⟩
    · rw [if_neg ho]
      refine ⟨_, rfl, ?_⟩
      cases bpfTake (i.code &&& 0xf0) s.a (if i.code &&& 0x08 ≠ 0 then s.x else i.k) with
      | true => exact ht
      | false => exact hf
  · obtain ⟨s', hs, hp⟩ := bpfStep_seq prog.length inp s hr hj
    have hlt := h.succ_lt hi hr
    exact ⟨s', hs, by omega, by omega⟩

theorem and_not_mask {k : BitVec 32} (h : k &&& ~~~0xf#32 = 0) : k &&& 0xf = k ∧ k.toNat < 16 := by
  have he : k &&& 0xf = k := by
    have hk : k = (k &&& 0xf) ||| (k &&& ~~~0xf#32) := by
      rw [← BitVec.and_or_distrib_left, show (0xf ||| ~~~0xf#32) = BitVec.allOnes 32 from rfl,
        BitVec.and_allOnes]
    rw [h] at hk
    simpa using hk.symm
  refine ⟨he, ?_⟩
  rw [← he, BitVec.toNat_and]
  exact Nat.and_lt_two_pow (n := 4) _ (by decide)

theorem bpfCheckInsn_mem (h : bpfCheckInsn len pc i = true) (hu : i.UsesMem) :
    i.memIndex = i.k.toNat ∧ i.k.toNat < 16 := by
  have hm : i.k &&& ~~~0xf#32 = 0 := by
    rcases hu with hc | hc | hc | hc
    · have hl : i.cls = bpfLd := by rw [BpfInsn.cls, hc]; rfl
      simpa [bpfCheckInsn, hl, hc] using h
    · have hl : i.cls = bpfLdx := by rw [BpfInsn.cls, hc]; rfl
      simpa [bpfCheckInsn, hl, hc] using h
    all_goals
      simp only [bpfCheckInsn, hc, bpfLd, bpfLdx, bpfSt, bpfStx, BitVec.reduceEq,
        ↓reduceIte] at h
      split at h
      · cases h
      · simpa using h
  obtain ⟨he, hk⟩ := and_not_mask hm
  exact ⟨congrArg BitVec.toNat he, hk⟩

theorem bpfCheckInsn_word (h : bpfCheckInsn len pc i = true)
    (hc : i.code = bpfLd ||| bpfW ||| bpfAbs) : WordDefined i.k := by
  have hl : i.cls = bpfLd := by rw [BpfInsn.cls, hc]; rfl
  simp only [bpfCheckInsn, hl, hc, ↓reduceIte, Bool.not_eq_true', decide_eq_false_iff_not] at h
  by_contra hn
  refine h ⟨fun h0 => hn (.inl h0), fun h4 => hn (.inr (.inl h4)),
    fun h8 => hn (.inr (.inr (.inl h8))), fun h12 => hn (.inr (.inr (.inr (.inl h12)))), ?_⟩
  by_contra hx
  simp only [not_or, ne_eq, not_not, gt_iff_lt, BitVec.not_lt] at hx
  exact hn (.inr (.inr (.inr (.inr hx))))

/-- What holds at each instruction an accepted program executes. -/
structure Sound (prog : List BpfInsn) (s : BpfState) : Prop where
  inside : s.pc < prog.length
  mem : ∀ i, prog[s.pc]? = some i → i.UsesMem → i.memIndex = i.k.toNat ∧ i.k.toNat < 16
  word : ∀ i, prog[s.pc]? = some i → i.code = bpfLd ||| bpfW ||| bpfAbs → WordDefined i.k

theorem Accepted.sound (h : Accepted prog) (hs : s.pc < prog.length) : Sound prog s :=
  ⟨hs, fun _ hi hu => bpfCheckInsn_mem (h.insn _ _ hi) hu,
    fun _ hi hc => bpfCheckInsn_word (h.insn _ _ hi) hc⟩

/-- The run ends at the return instruction it visited last. -/
def BpfRun.Returns (prog : List BpfInsn) (r : BpfRun) : Prop :=
  ∃ s i, r.visited.getLast? = some s ∧ prog[s.pc]? = some i ∧ i.cls = bpfRet ∧
    r.exit = .ret (bpfRetValue i s)

/-- The loop started inside an accepted program with a step left for every instruction
ahead of it. -/
theorem Accepted.loop (h : Accepted prog) (hs : s.pc < prog.length)
    (hf : prog.length - s.pc ≤ fuel) (inp : BpfInput) :
    let r := bpfLoop prog inp fuel s
    (∃ rest, r.visited = s :: rest) ∧ r.visited.length ≤ prog.length - s.pc ∧
      r.visited.Pairwise (fun t u => t.pc < u.pc) ∧ (∀ t ∈ r.visited, s.pc ≤ t.pc) ∧
      (∀ t ∈ r.visited, Sound prog t) ∧ r.Returns prog := by
  induction fuel generalizing s with
  | zero => omega
  | succ fuel ih =>
    have hi : prog[s.pc]? = some (prog.get ⟨s.pc, hs⟩) := List.getElem?_eq_getElem hs
    rcases h.step hi inp with ⟨s', hn, hlt, hs'⟩ | ⟨hr, hd⟩
    · obtain ⟨⟨rest, hv⟩, hlen, hp, hle, hsd, t, j, ht, hj, hc, he⟩ :=
        ih (s := s') hs' (by omega)
      have hl : bpfLoop prog inp (fuel + 1) s =
          ⟨s :: (bpfLoop prog inp fuel s').visited, (bpfLoop prog inp fuel s').exit⟩ := by
        rw [bpfLoop, hi]
        simp only [hn]
      rw [hl]
      refine ⟨⟨_, rfl⟩, ?_, List.pairwise_cons.2 ⟨fun u hu => ?_, hp⟩, fun u hu => ?_,
        fun u hu => ?_, t, j, ?_, hj, hc, he⟩
      · simp only [List.length_cons]
        omega
      · have := hle u hu
        omega
      · rcases List.mem_cons.1 hu with rfl | hu
        · exact le_rfl
        · have := hle u hu
          omega
      · rcases List.mem_cons.1 hu with rfl | hu
        · exact h.sound hs
        · exact hsd u hu
      · rw [List.getLast?_cons, ht]
        rfl
    · have hl : bpfLoop prog inp (fuel + 1) s =
          ⟨[s], .ret (bpfRetValue (prog.get ⟨s.pc, hs⟩) s)⟩ := by
        rw [bpfLoop, hi]
        simp only [hd]
      rw [hl]
      refine ⟨⟨_, rfl⟩, ?_, List.pairwise_singleton _ _, fun u hu => ?_, fun u hu => ?_,
        s, _, rfl, hi, hr, rfl⟩
      · simp only [List.length_singleton]
        omega
      · rw [List.mem_singleton.1 hu]
      · rw [List.mem_singleton.1 hu]
        exact h.sound hs

/-- An accepted filter decides every system call by a return instruction. -/
theorem bpfRun_returns (prog : List BpfInsn) (inp : BpfInput) (h : bpfCheckProgram prog = 0) :
    (bpfRun prog inp).visited.length ≤ prog.length ∧
      (bpfRun prog inp).visited.Pairwise (fun t u => t.pc < u.pc) ∧
      (∀ s ∈ (bpfRun prog inp).visited, Sound prog s) ∧
      (bpfRun prog inp).Returns prog ∧
      (bpfRun prog inp).exit ≠ .offEnd ∧ (bpfRun prog inp).exit ≠ .unknownClass ∧
      (bpfRun prog inp).exit ≠ .tooManySteps := by
  have ha := bpfCheckProgram_accepted h
  have hpos : 0 < prog.length := by
    obtain ⟨i, hi, -⟩ := ha.last
    have := (List.getElem?_eq_some_iff.1 hi).1
    omega
  have hb := ha.bound
  simp only [seccompBpfMaxLen] at hb
  obtain ⟨-, hlen, hp, -, hsd, s, i, hl, hi, hc, he⟩ :=
    ha.loop (s := .init) hpos (show prog.length - 0 ≤ 4096 by omega) inp
  refine ⟨hlen.trans (Nat.sub_le _ _), hp, hsd, ⟨s, i, hl, hi, hc, he⟩, ?_, ?_, ?_⟩
  all_goals
    rw [bpfRun, he]
    exact BpfExit.noConfusion

/-- A filter that allows call `1` and fails the others with errno `5`. -/
def allowOne : List BpfInsn :=
  [⟨bpfLd ||| bpfW ||| bpfAbs, 0, 0, 0⟩, ⟨bpfJmp ||| bpfJeq, 0, 1, 1⟩,
    ⟨bpfRet, 0, 0, seccompRetAllow⟩, ⟨bpfRet, 0, 0, seccompRetErrno ||| 5⟩]

theorem allowOne_returns :
    bpfCheckProgram allowOne = 0 ∧
      (bpfRun allowOne ⟨1, auditArchX86_64, 0, fun _ => 0⟩).Returns allowOne :=
  have h : bpfCheckProgram allowOne = 0 := by decide
  ⟨h, (bpfRun_returns allowOne ⟨1, auditArchX86_64, 0, fun _ => 0⟩ h).2.2.2.1⟩

end Lebirun.Seccomp
