import Mathlib
import Lebirun.Tls.P256Mul

namespace Lebirun.Tls.P256
open Limbs
set_option autoImplicit true

/-! Field operations on buffers, where the output may be an input. -/

/-- The buffers of eight limbs, by address. -/
abbrev Store := Nat → Field

/-- An operand of `p256_sub_raw`: a buffer, or limbs that no buffer shares. -/
inductive Operand where
  | buffer (i : Nat)
  | limbs (f : Field)

def Operand.read (m : Store) : Operand → Field
  | buffer i => m i
  | limbs f => f

/-- The loop of `p256_sub_raw` from limb `i` on, with `n` limbs left; limb `i` of the output is written before limb
`i + 1` of the operands is read. -/
def subRawLoop (r : Nat) (a b : Operand) : Nat → Nat → Nat → Store → Store
  | 0, _, _, m => m
  | n + 1, i, borrow, m =>
    let t := (((a.read m).getD i 0).toNat + 2 ^ 64 - ((b.read m).getD i 0).toNat + 2 ^ 64 - borrow) % 2 ^ 64
    subRawLoop r a b n (i + 1) (t / 2 ^ 63) (Function.update m r ((m r).set i (UInt32.ofNat t)))

def subRawInto (r : Nat) (a b : Operand) (m : Store) : Store := subRawLoop r a b 8 0 0 m

/-- The last loop of `p256_mul` on the output buffer. -/
def subtractInto (r : Nat) : Nat → Store → Store
  | 0, m => m
  | i + 1, m =>
    if p256Cmp (m r) p256P = .lt then m else subtractInto r i (subRawInto r (.buffer r) (.limbs p256P) m)

inductive Op where
  | add (r a b : Nat)
  | sub (r a b : Nat)
  | mul (r a b : Nat)
  | copy (r a : Nat)
  | put (r : Nat) (f : Field)

/-- One call; a sum is built in a buffer of its own and copied, a product in its accumulators. -/
def Op.exec (m : Store) : Op → Option Store
  | add r a b => some (Function.update m r (p256Add (m a) (m b)))
  | sub r a b =>
    some (if p256Cmp (m a) (m b) = .lt then
      subRawInto r (.limbs p256P) (.limbs (p256SubRaw (m b) (m a))) m
    else subRawInto r (.buffer a) (.buffer b) m)
  | mul r a b =>
    ((productRows (m b) (m a) (List.replicate 16 0)).bind (reduceLoop 16)).map fun acc =>
      subtractInto r 8 (Function.update m r ((acc.take 8).map fun z => UInt32.ofNat (z % 2 ^ 32).toNat))
  | copy r a => some (Function.update m r (m a))
  | put r f => some (Function.update m r f)

def execAll : List Op → Store → Option Store
  | [], m => some m
  | op :: ops, m => (op.exec m).bind (execAll ops)

/-- The same call on elements of the field. -/
def Op.eval (f : Nat → ZMod p) : Op → Nat → ZMod p
  | add r a b => Function.update f r (f a + f b)
  | sub r a b => Function.update f r (f a - f b)
  | mul r a b => Function.update f r (f a * f b)
  | copy r a => Function.update f r (f a)
  | put r l => Function.update f r (val l)

def evalAll : List Op → (Nat → ZMod p) → Nat → ZMod p
  | [], f => f
  | op :: ops, f => evalAll ops (op.eval f)

def Op.target : Op → Nat
  | add r _ _ | sub r _ _ | mul r _ _ | copy r _ | put r _ => r

/-- What the call reads holds an element of the field. -/
def Op.Defined (s : Set Nat) : Op → Prop
  | add _ a b | sub _ a b | mul _ a b => a ∈ s ∧ b ∈ s
  | copy _ a => a ∈ s
  | put _ f => f.length = 8 ∧ val f < p

def DefinedAll : List Op → Set Nat → Prop
  | [], _ => True
  | op :: ops, s => op.Defined s ∧ DefinedAll ops (insert op.target s)

/-- The buffers in `s` hold the elements `f`, each below `p`. -/
structure Holds (s : Set Nat) (m : Store) (f : Nat → ZMod p) : Prop where
  length : ∀ i, (m i).length = 8
  below : ∀ i ∈ s, val (m i) < p
  value : ∀ i ∈ s, (val (m i) : ZMod p) = f i

variable {s : Set Nat} {m m' : Store} {f : Nat → ZMod p} {a b : Operand} {r i n c : Nat} {x y : Field}

/-- Writing the limbs below `i` does not change what is read from `i` on. -/
theorem read_drop (a : Operand) {done : Field} (hdone : done.length = i) {j : Nat} (hj : i ≤ j) :
    ((a.read (Function.update m r (done ++ (m r).drop i))).getD j 0) = (a.read m).getD j 0 := by
  cases a with
  | limbs f => rfl
  | buffer k =>
    change (Function.update m r _ k).getD j 0 = (m k).getD j 0
    by_cases hk : k = r
    · subst hk
      rw [Function.update_self, List.getD_append_right _ _ _ _ (by rw [hdone]; exact hj), hdone, List.getD_eq_getElem?_getD,
        List.getElem?_drop, Nat.add_sub_cancel' hj, ← List.getD_eq_getElem?_getD]
    · rw [Function.update_of_ne hk]

theorem drop_cons (h : i < x.length) : x.drop i = x.getD i 0 :: x.drop (i + 1) := by
  rw [List.drop_eq_getElem_cons h, List.getD_eq_getElem _ _ h]

theorem subRawLoop_eq (a b : Operand) (n i c : Nat) {done : Field} (hdone : done.length = i)
    (hr : (m r).length = i + n) (ha : (a.read m).length = i + n) (hb : (b.read m).length = i + n) :
    subRawLoop r a b n i c (Function.update m r (done ++ (m r).drop i)) =
      Function.update m r (done ++ (Limbs.sub c ((a.read m).drop i) ((b.read m).drop i)).1) := by
  induction n generalizing i c done with
  | zero =>
    rw [Nat.add_zero] at hr ha hb
    rw [subRawLoop, List.drop_of_length_le hr.le, List.drop_of_length_le ha.le, List.drop_of_length_le hb.le]
    rfl
  | succ n ih =>
    have hset : ∀ w : UInt32, (done ++ (m r).drop i).set i w = (done ++ [w]) ++ (m r).drop (i + 1) := by
      intro w
      rw [drop_cons (by omega : i < (m r).length), List.set_append_right _ _ hdone.le, hdone, Nat.sub_self,
        List.set_cons_zero, List.append_assoc, List.singleton_append]
    rw [subRawLoop, read_drop a hdone le_rfl, read_drop b hdone le_rfl, Function.update_self,
      drop_cons (by omega : i < (a.read m).length), drop_cons (by omega : i < (b.read m).length), Limbs.sub]
    dsimp only
    generalize (((a.read m).getD i 0).toNat + 2 ^ 64 - ((b.read m).getD i 0).toNat + 2 ^ 64 - c) % 2 ^ 64 = t
    rw [hset, Function.update_idem,
      ih (i + 1) (t / 2 ^ 63) (by rw [List.length_append, hdone]; rfl) (by omega) (by omega) (by omega),
      List.append_assoc, List.singleton_append]

/-- The output may be one of the operands. -/
theorem subRawInto_eq (a b : Operand) (hr : (m r).length = 8) (ha : (a.read m).length = 8)
    (hb : (b.read m).length = 8) :
    subRawInto r a b m = Function.update m r (p256SubRaw (a.read m) (b.read m)) := by
  have hloop := subRawLoop_eq a b 8 0 0 (List.length_nil) hr ha hb
  rw [List.drop_zero, List.drop_zero, List.drop_zero, List.nil_append, List.nil_append,
    Function.update_eq_self] at hloop
  exact hloop

theorem subtractInto_eq (n : Nat) (hr : (m r).length = 8) :
    subtractInto r n m = Function.update m r (subtractLoop n (m r)) := by
  induction n generalizing m with
  | zero => rw [subtractInto, subtractLoop, Function.update_eq_self]
  | succ n ih =>
    rw [subtractInto, subtractLoop]
    by_cases hlt : p256Cmp (m r) p256P = .lt
    · rw [if_pos hlt, if_pos hlt, Function.update_eq_self]
    · have hlen : (p256SubRaw (m r) p256P).length = 8 :=
        ((@sub_val (m r) p256P 0 (hr.trans rfl) (by decide)).2.1).trans hr
      rw [if_neg hlt, if_neg hlt, subRawInto_eq (.buffer r) (.limbs p256P) hr hr rfl, ih (by rw [Function.update_self]; exact hlen),
        Function.update_self, Function.update_idem]
      rfl

theorem Op.exec_mul (r a b : Nat) (ha : (m a).length = 8) (hb : (m b).length = 8) :
    (Op.mul r a b).exec m = (p256Mul (m a) (m b)).map fun w => Function.update m r w := by
  obtain ⟨acc, hacc, low, hloop, hlen, -, -⟩ := product_ends ha hb
  have hrounds : reduceLoop 16 acc = some (low ++ List.replicate 8 0) := hloop 5
  have htake : (low ++ List.replicate 8 0).take 8 = low := by
    rw [← hlen, List.take_left]
  rw [Op.exec, p256Mul, hacc, Option.bind_some, hrounds, Option.map_some, Option.map_some, Option.map_some, htake,
    subtractInto_eq 8 (by rw [Function.update_self, List.length_map, hlen]), Function.update_self,
    Function.update_idem]

theorem Holds.update (h : Holds s m f) (r : Nat) (hlen : x.length = 8) (hx : val x < p) (hv : (val x : ZMod p) = v) :
    Holds (insert r s) (Function.update m r x) (Function.update f r v) where
  length i := by
    by_cases hi : i = r
    · rw [hi, Function.update_self, hlen]
    · rw [Function.update_of_ne hi, h.length]
  below i hi := by
    by_cases hr : i = r
    · rw [hr, Function.update_self]
      exact hx
    · rw [Function.update_of_ne hr]
      exact h.below i (hi.resolve_left hr)
  value i hi := by
    by_cases hr : i = r
    · rw [hr, Function.update_self, Function.update_self, hv]
    · rw [Function.update_of_ne hr, Function.update_of_ne hr]
      exact h.value i (hi.resolve_left hr)

/-- One call computes in the field. -/
theorem Op.exec_holds (op : Op) (h : Holds s m f) (hop : op.Defined s) :
    ∃ m', op.exec m = some m' ∧ Holds (insert op.target s) m' (op.eval f) := by
  cases op with
  | add r a b =>
    obtain ⟨hlen, hval⟩ := p256Add_val (h.length a) (h.length b) (h.below a hop.1) (h.below b hop.2)
    refine ⟨_, rfl, h.update r hlen (hval ▸ Nat.mod_lt _ (by decide)) ?_⟩
    rw [hval, ZMod.natCast_mod, Nat.cast_add, h.value a hop.1, h.value b hop.2]
  | sub r a b =>
    obtain ⟨hlen, hval⟩ := p256Sub_val (h.length a) (h.length b) (h.below a hop.1) (h.below b hop.2)
    refine ⟨Function.update m r (p256Sub (m a) (m b)), ?_, h.update r hlen (hval ▸ Nat.mod_lt _ (by decide)) ?_⟩
    · rw [Op.exec, p256Sub]
      by_cases hlt : p256Cmp (m a) (m b) = .lt
      · have hdiff : (p256SubRaw (m b) (m a)).length = 8 :=
          ((@sub_val (m b) (m a) 0 ((h.length b).trans (h.length a).symm) (by decide)).2.1).trans (h.length b)
        rw [if_pos hlt, if_pos hlt,
          subRawInto_eq (.limbs p256P) (.limbs (p256SubRaw (m b) (m a))) (h.length r) rfl hdiff]
        rfl
      · rw [if_neg hlt, if_neg hlt, subRawInto_eq (.buffer a) (.buffer b) (h.length r) (h.length a) (h.length b)]
        rfl
    · rw [hval, ZMod.natCast_mod, Nat.cast_add, Nat.cast_sub (h.below b hop.2).le, ZMod.natCast_self,
        h.value a hop.1, h.value b hop.2]
      ring
  | mul r a b =>
    obtain ⟨w, hw, hlen, hval⟩ := p256Mul_val (h.length a) (h.length b)
    refine ⟨Function.update m r w, ?_, h.update r hlen (hval ▸ Nat.mod_lt _ (by decide)) ?_⟩
    · rw [Op.exec_mul r a b (h.length a) (h.length b), hw, Option.map_some]
    · rw [hval, ZMod.natCast_mod, Nat.cast_mul, h.value a hop.1, h.value b hop.2]
  | copy r a => exact ⟨_, rfl, h.update r (h.length a) (h.below a hop) (h.value a hop)⟩
  | put r w => exact ⟨_, rfl, h.update r hop.1 hop.2 rfl⟩

/-- The addresses that hold an element after the calls. -/
def written : List Op → Set Nat → Set Nat
  | [], s => s
  | op :: ops, s => written ops (insert op.target s)

/-- Any chain of calls computes in the field. -/
theorem execAll_holds (ops : List Op) (h : Holds s m f) (hops : DefinedAll ops s) :
    ∃ m', execAll ops m = some m' ∧ Holds (written ops s) m' (evalAll ops f) := by
  induction ops generalizing s m f with
  | nil => exact ⟨m, rfl, h⟩
  | cons op ops ih =>
    obtain ⟨m₁, hstep, h₁⟩ := op.exec_holds h hops.1
    obtain ⟨m', hrest, h'⟩ := ih h₁ hops.2
    exact ⟨m', by rw [execAll, hstep, Option.bind_some, hrest], h'⟩

/-- The field arithmetic of P-256: no accumulator overflows, the loops end, and chains of calls are exact. -/
theorem p256Field_exact :
    (∀ a b : Field, a.length = 8 → b.length = 8 → val a < p → val b < p →
      (∃ acc, productRows b a (List.replicate 16 0) = some acc ∧
        ∃ low, (∀ j, reduceLoop (j + 11) acc = some (low ++ List.replicate 8 0)) ∧ low.length = 8 ∧
          ∀ y ∈ low, 0 ≤ y ∧ y < 2 ^ 32) ∧
      (∃ r, p256Mul a b = some r ∧ r.length = 8 ∧ val r < p ∧ val r = val a * val b % p)) ∧
    (∀ acc v, Ready acc v → 0 ≤ v → v < 2 ^ 512 → ∃ out, p256CarryFold acc = some out ∧ Carried out v) ∧
    (∀ ops s m f, Holds s m f → DefinedAll ops s →
      ∃ m', execAll ops m = some m' ∧ Holds (written ops s) m' (evalAll ops f)) := by
  refine ⟨?_, ?_, fun ops s m f h hops => execAll_holds ops h hops⟩
  · intro a b ha hb _ _
    obtain ⟨acc, hacc, low, hloop, hlen, hwords, -⟩ := product_ends ha hb
    obtain ⟨r, hr, hsize, hval⟩ := p256Mul_val ha hb
    refine ⟨⟨acc, hacc, low, hloop, hlen, hwords⟩, r, hr, hsize, ?_, hval⟩
    rw [hval]
    exact Nat.mod_lt _ (by decide)
  · intro acc v h hv hlt
    obtain ⟨out, hout, hcar⟩ := carried_of_within h.length h.within (by norm_num) (by norm_num)
      (by rw [h.value]; exact ⟨hv, hlt⟩)
    rw [h.value] at hcar
    exact ⟨out, hout, hcar⟩

end Lebirun.Tls.P256
