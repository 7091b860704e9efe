import Mathlib
import Lebirun.Lib.JacobianPoints
import Lebirun.Tls.P256Prime

namespace Lebirun.Tls.P256
open Limbs JacobianPoints
set_option autoImplicit true

/-! The coordinates of the point `k`; the buffers below are for local variables. -/

abbrev px (k : Nat) : Nat := 3 * k + 40

abbrev py (k : Nat) : Nat := 3 * k + 41

abbrev pz (k : Nat) : Nat := 3 * k + 42

/-- `p256_is_zero` -/
def p256IsZero (a : Field) : Bool := a.all (· = 0)

def zero : Field := List.replicate 8 0

/-- `memset(r, 0, sizeof(*r))` -/
def zeroOps (r : Nat) : List Op := [.put (px r) zero, .put (py r) zero, .put (pz r) zero]

/-- `memcpy(r, p, sizeof(*r))` -/
def copyOps (r p : Nat) : List Op := [.copy (px r) (px p), .copy (py r) (py p), .copy (pz r) (pz p)]

/-- `p256_point_double` of a finite point -/
def doubleOps (r p : Nat) : List Op :=
  let xx := 12
  let yy := 13
  let yyyy := 14
  let zz := 15
  let s := 16
  let m := 17
  let t := 18
  let zzzz := 19
  let three := 20
  [.put three [3, 0, 0, 0, 0, 0, 0, 0], .mul xx (px p) (px p), .mul yy (py p) (py p), .mul yyyy yy yy,
    .mul zz (pz p) (pz p), .mul zzzz zz zz, .add s (px p) yy, .mul s s s, .sub s s xx, .sub s s yyyy, .add s s s,
    .mul m three xx, .mul t three zzzz, .sub m m t, .mul t m m, .sub t t s, .sub t t s, .copy (px r) t,
    .add t (py p) (pz p), .mul t t t, .sub t t yy, .sub t t zz, .copy (pz r) t, .sub t s (px r), .mul t m t,
    .add yyyy yyyy yyyy, .add yyyy yyyy yyyy, .add yyyy yyyy yyyy, .sub (py r) t yyyy]

def p256PointDouble (r p : Nat) (m : Store) : Option Store :=
  if p256IsZero (m (pz p)) then execAll (zeroOps r) m else execAll (doubleOps r p) m

/-- `p256_point_add` up to the comparisons; `u1`, `u2`, `s1` and `s2` are the buffers 2 to 5. -/
def scaleOps (p q : Nat) : List Op :=
  let z1z1 := 0
  let z2z2 := 1
  let u1 := 2
  let u2 := 3
  let s1 := 4
  let s2 := 5
  let t := 11
  [.mul z1z1 (pz p) (pz p), .mul z2z2 (pz q) (pz q), .mul u1 (px p) z2z2, .mul u2 (px q) z1z1, .mul t (pz q) z2z2,
    .mul s1 (py p) t, .mul t (pz p) z1z1, .mul s2 (py q) t]

/-- The rest of it. -/
def chordOps (r p q : Nat) : List Op :=
  let z1z1 := 0
  let z2z2 := 1
  let u1 := 2
  let u2 := 3
  let s1 := 4
  let s2 := 5
  let h := 6
  let i := 7
  let j := 8
  let rr := 9
  let v := 10
  let t := 11
  [.sub h u2 u1, .add i h h, .mul i i i, .mul j h i, .sub rr s2 s1, .add rr rr rr, .mul v u1 i,
    .mul (px r) rr rr, .sub (px r) (px r) j, .sub (px r) (px r) v, .sub (px r) (px r) v, .add t (pz p) (pz q),
    .mul t t t, .sub t t z1z1, .sub t t z2z2, .mul (pz r) t h, .sub t v (px r), .mul t rr t, .mul s1 s1 j,
    .add s1 s1 s1, .sub (py r) t s1]

def p256PointAdd (r p q : Nat) (m : Store) : Option Store :=
  if p256IsZero (m (pz p)) then execAll (copyOps r q) m
  else if p256IsZero (m (pz q)) then execAll (copyOps r p) m
  else
    (execAll (scaleOps p q) m).bind fun m =>
      if p256Cmp (m 2) (m 3) = .eq then
        if p256Cmp (m 4) (m 5) ≠ .eq then execAll (zeroOps r) m else p256PointDouble r p m
      else execAll (chordOps r p q) m

variable {s : Set Nat} {m m' : Store} {f : Nat → ZMod p} {k q r : Nat} {ops : List Op}

/-! The same calls on other buffers. -/

def Op.rename (ρ : Nat → Nat) : Op → Op
  | add r a b => add (ρ r) (ρ a) (ρ b)
  | sub r a b => sub (ρ r) (ρ a) (ρ b)
  | mul r a b => mul (ρ r) (ρ a) (ρ b)
  | copy r a => copy (ρ r) (ρ a)
  | put r f => put (ρ r) f

theorem eval_rename {ρ : Nat → Nat} (hρ : Function.Injective ρ) (op : Op) (f : Nat → ZMod p) :
    (op.rename ρ).eval f ∘ ρ = op.eval (f ∘ ρ) := by
  cases op <;> exact Function.update_comp_eq_of_injective _ hρ _ _

theorem evalAll_rename {ρ : Nat → Nat} (hρ : Function.Injective ρ) (ops : List Op) (f : Nat → ZMod p) :
    evalAll (ops.map (Op.rename ρ)) f ∘ ρ = evalAll ops (f ∘ ρ) := by
  induction ops generalizing f with
  | nil => rfl
  | cons op ops ih => rw [List.map_cons, evalAll, evalAll, ih, eval_rename hρ]

theorem evalAll_other (ops : List Op) (f : Nat → ZMod p) (h : ∀ op ∈ ops, op.target ≠ k) : evalAll ops f k = f k := by
  induction ops generalizing f with
  | nil => rfl
  | cons op ops ih =>
    have hop := h op (List.mem_cons_self ..)
    rw [evalAll, ih _ fun o ho => h o (List.mem_cons_of_mem _ ho)]
    cases op <;> exact Function.update_of_ne (Ne.symm hop) _ _

/-- Three points that are apart, in the place of the first three. -/
def place (a b c : Nat) : Nat → Nat
  | 0 => a
  | 1 => b
  | 2 => c
  | k + 3 => k + a + b + c + 1

def renumber (a b c i : Nat) : Nat := if i < 40 then i else 3 * place a b c ((i - 40) / 3) + (i - 40) % 3 + 40

theorem place_injective (hab : a ≠ b) (hac : a ≠ c) (hbc : b ≠ c) : Function.Injective (place a b c) := by
  intro i j h
  match i, j with
  | 0, 0 | 1, 1 | 2, 2 => rfl
  | 0, 1 => exact absurd h hab
  | 1, 0 => exact absurd h.symm hab
  | 0, 2 => exact absurd h hac
  | 2, 0 => exact absurd h.symm hac
  | 1, 2 => exact absurd h hbc
  | 2, 1 => exact absurd h.symm hbc
  | 0, j + 3 | 1, j + 3 | 2, j + 3 | i + 3, 0 | i + 3, 1 | i + 3, 2 | i + 3, j + 3 =>
    rw [place, place] at h
    omega

theorem renumber_injective (hab : a ≠ b) (hac : a ≠ c) (hbc : b ≠ c) : Function.Injective (renumber a b c) := by
  intro i j h
  rw [renumber, renumber] at h
  split at h <;> split at h
  · exact h
  · omega
  · omega
  · have hplace : place a b c ((i - 40) / 3) = place a b c ((j - 40) / 3) := by omega
    have hdiv := place_injective hab hac hbc hplace
    omega

/-! What the calls compute in the field. -/

/-- The point `k` of the buffers. -/
def triple (f : Nat → ZMod p) (k : Nat) : Triple (ZMod p) := ⟨f (px k), f (py k), f (pz k)⟩

theorem three_val : ((val [3, 0, 0, 0, 0, 0, 0, 0] : Nat) : ZMod p) = 3 := by
  have hval : val [3, 0, 0, 0, 0, 0, 0, 0] = 3 := by decide
  rw [hval]
  exact Nat.cast_ofNat

theorem zero_val : val zero = 0 := by decide

/-- With the output where the input is, and apart from it. -/
theorem doubleOps_first (f : Nat → ZMod p) (hr : r = 0 ∨ r = 1) :
    triple (evalAll (doubleOps r 0) f) r = (triple f 0).tangent := by
  obtain ⟨x, hx⟩ : ∃ x, x = f (px 0) := ⟨_, rfl⟩
  obtain ⟨y, hy⟩ : ∃ y, y = f (py 0) := ⟨_, rfl⟩
  obtain ⟨z, hz⟩ : ∃ z, z = f (pz 0) := ⟨_, rfl⟩
  obtain ⟨c, hc⟩ : ∃ c : ZMod p, c = (val [3, 0, 0, 0, 0, 0, 0, 0] : Nat) := ⟨_, rfl⟩
  obtain ⟨d, hd⟩ : ∃ d, d = (x + y * y) * (x + y * y) - x * x - y * y * (y * y) := ⟨_, rfl⟩
  obtain ⟨m, hm⟩ : ∃ m, m = c * (x * x) - c * (z * z * (z * z)) := ⟨_, rfl⟩
  obtain ⟨w, hw⟩ : ∃ w, w = y * y * (y * y) + y * y * (y * y) := ⟨_, rfl⟩
  have heval : triple (evalAll (doubleOps r 0) f) r =
      ⟨m * m - (d + d) - (d + d), m * (d + d - (m * m - (d + d) - (d + d))) - (w + w + (w + w)),
        (y + z) * (y + z) - y * y - z * z⟩ := by
    subst hw hm hd hc hx hy hz
    obtain rfl | rfl := hr
    · rfl
    · rfl
  have htriple : triple f 0 = ⟨x, y, z⟩ := by
    rw [hx, hy, hz]
    rfl
  rw [three_val] at hc
  rw [heval, htriple, Triple.tangent, Triple.mk.injEq, hw, hm, hd, hc]
  refine ⟨?_, ?_, ?_⟩ <;> ring

theorem scaleOps_first (f : Nat → ZMod p) (hq : q = 0 ∨ q = 1) :
    evalAll (scaleOps 0 q) f 2 = f (px 0) * (f (pz q) * f (pz q)) ∧
      evalAll (scaleOps 0 q) f 3 = f (px q) * (f (pz 0) * f (pz 0)) ∧
      evalAll (scaleOps 0 q) f 4 = f (py 0) * (f (pz q) * (f (pz q) * f (pz q))) ∧
      evalAll (scaleOps 0 q) f 5 = f (py q) * (f (pz 0) * (f (pz 0) * f (pz 0))) := by
  obtain rfl | rfl := hq
  · exact ⟨rfl, rfl, rfl, rfl⟩
  · exact ⟨rfl, rfl, rfl, rfl⟩

/-- With the output apart from the inputs, and in the place of one. -/
theorem chordOps_first (f : Nat → ZMod p) (hr : r = 0 ∨ r = 1 ∨ r = 2) :
    triple (evalAll (chordOps r 0 1) (evalAll (scaleOps 0 1) f)) r = (triple f 0).chord (triple f 1) := by
  obtain ⟨z, hz⟩ : ∃ z, z = f (pz 0) := ⟨_, rfl⟩
  obtain ⟨z', hz'⟩ : ∃ z', z' = f (pz 1) := ⟨_, rfl⟩
  obtain ⟨u, hu⟩ : ∃ u, u = f (px 0) * (z' * z') := ⟨_, rfl⟩
  obtain ⟨s, hs⟩ : ∃ s, s = f (py 0) * (z' * (z' * z')) := ⟨_, rfl⟩
  obtain ⟨h, hh⟩ : ∃ h, h = f (px 1) * (z * z) - u := ⟨_, rfl⟩
  obtain ⟨j, hj⟩ : ∃ j, j = h * ((h + h) * (h + h)) := ⟨_, rfl⟩
  obtain ⟨d, hd⟩ : ∃ d, d = f (py 1) * (z * (z * z)) - s := ⟨_, rfl⟩
  obtain ⟨v, hv⟩ : ∃ v, v = u * ((h + h) * (h + h)) := ⟨_, rfl⟩
  have heval : triple (evalAll (chordOps r 0 1) (evalAll (scaleOps 0 1) f)) r =
      ⟨(d + d) * (d + d) - j - v - v, (d + d) * (v - ((d + d) * (d + d) - j - v - v)) - (s * j + s * j),
        ((z + z') * (z + z') - z * z - z' * z') * h⟩ := by
    subst hv hd hj hh hs hu hz hz'
    obtain rfl | rfl | rfl := hr
    · rfl
    · rfl
    · rfl
  have hfirst : triple f 0 = ⟨f (px 0), f (py 0), z⟩ := by
    rw [hz]
    rfl
  have hsecond : triple f 1 = ⟨f (px 1), f (py 1), z'⟩ := by
    rw [hz']
    rfl
  rw [heval, hfirst, hsecond, Triple.chord, Triple.mk.injEq, hv, hj, hd, hh, hs, hu]
  refine ⟨?_, ?_, ?_⟩ <;> ring

/-! The same for any points that are apart. -/

theorem doubleOps_eval (f : Nat → ZMod p) (r q : Nat) :
    triple (evalAll (doubleOps r q) f) r = (triple f q).tangent := by
  by_cases hr : r = q
  · subst hr
    have hinj := renumber_injective (a := r) (b := r + 1) (c := r + 2) (by omega) (by omega) (by omega)
    have hsame := evalAll_rename hinj (doubleOps 0 0) f
    have hfirst := doubleOps_first (f ∘ renumber r (r + 1) (r + 2)) (Or.inl rfl)
    rw [← hsame] at hfirst
    exact hfirst
  · have hinj := renumber_injective (a := q) (b := r) (c := q + r + 1) (Ne.symm hr) (by omega) (by omega)
    have hsame := evalAll_rename hinj (doubleOps 1 0) f
    have hfirst := doubleOps_first (f ∘ renumber q r (q + r + 1)) (Or.inr rfl)
    rw [← hsame] at hfirst
    exact hfirst

theorem scaleOps_eval (f : Nat → ZMod p) (k q : Nat) :
    evalAll (scaleOps k q) f 2 = f (px k) * (f (pz q) * f (pz q)) ∧
      evalAll (scaleOps k q) f 3 = f (px q) * (f (pz k) * f (pz k)) ∧
      evalAll (scaleOps k q) f 4 = f (py k) * (f (pz q) * (f (pz q) * f (pz q))) ∧
      evalAll (scaleOps k q) f 5 = f (py q) * (f (pz k) * (f (pz k) * f (pz k))) := by
  by_cases hkq : k = q
  · subst hkq
    have hinj := renumber_injective (a := k) (b := k + 1) (c := k + 2) (by omega) (by omega) (by omega)
    have hsame := evalAll_rename hinj (scaleOps 0 0) f
    have hfirst := scaleOps_first (f ∘ renumber k (k + 1) (k + 2)) (Or.inl rfl)
    rw [← hsame] at hfirst
    exact hfirst
  · have hinj := renumber_injective (a := k) (b := q) (c := k + q + 1) hkq (by omega) (by omega)
    have hsame := evalAll_rename hinj (scaleOps 0 1) f
    have hfirst := scaleOps_first (f ∘ renumber k q (k + q + 1)) (Or.inr rfl)
    rw [← hsame] at hfirst
    exact hfirst

/-- The output `r` is the point `t` of the first three, once they are renumbered. -/
theorem chordOps_transport (f : Nat → ZMod p) {c t : Nat} (hkq : k ≠ q) (hkc : k ≠ c) (hqc : q ≠ c)
    (ht : t = 0 ∨ t = 1 ∨ t = 2) (hops : (chordOps t 0 1).map (Op.rename (renumber k q c)) = chordOps r k q)
    (hplace : ∀ g, triple g r = triple (g ∘ renumber k q c) t) :
    triple (evalAll (chordOps r k q) (evalAll (scaleOps k q) f)) r = (triple f k).chord (triple f q) := by
  have hinj := renumber_injective hkq hkc hqc
  have hscaled : evalAll (scaleOps k q) f ∘ renumber k q c = evalAll (scaleOps 0 1) (f ∘ renumber k q c) :=
    evalAll_rename hinj (scaleOps 0 1) f
  rw [hplace, ← hops, evalAll_rename hinj, hscaled]
  exact chordOps_first (f ∘ renumber k q c) ht

theorem chordOps_eval (f : Nat → ZMod p) (hkq : k ≠ q) (r : Nat) :
    triple (evalAll (chordOps r k q) (evalAll (scaleOps k q) f)) r = (triple f k).chord (triple f q) := by
  by_cases hrk : r = k
  · subst hrk
    have hc : r ≠ r + q + 1 ∧ q ≠ r + q + 1 := by omega
    exact chordOps_transport f hkq hc.1 hc.2 (Or.inl rfl) rfl fun _ => rfl
  by_cases hrq : r = q
  · subst hrq
    have hc : k ≠ k + r + 1 ∧ r ≠ k + r + 1 := by omega
    exact chordOps_transport f hkq hc.1 hc.2 (Or.inr (Or.inl rfl)) rfl fun _ => rfl
  · exact chordOps_transport f hkq (Ne.symm hrk) (Ne.symm hrq) (Or.inr (Or.inr rfl)) rfl fun _ => rfl

/-! Points in the buffers. -/

theorem written_old (ops : List Op) (h : k ∈ s) : k ∈ written ops s := by
  induction ops generalizing s with
  | nil => exact h
  | cons op ops ih => exact ih (Set.mem_insert_of_mem _ h)

theorem written_target {op : Op} (h : op ∈ ops) : op.target ∈ written ops s := by
  induction ops generalizing s with
  | nil => exact absurd h List.not_mem_nil
  | cons o ops ih =>
    obtain rfl | h := List.mem_cons.1 h
    · exact written_old ops (Set.mem_insert _ _)
    · exact ih h

/-- The buffers of the points `ks` hold the triples `T`. -/
def Points (ks : Set Nat) (m : Store) (T : Nat → Triple (ZMod p)) : Prop :=
  ∃ s f, Holds s m f ∧ ∀ k ∈ ks, (px k ∈ s ∧ py k ∈ s ∧ pz k ∈ s) ∧ triple f k = T k

/-- Calls that write the point `r` and local variables. -/
structure Writes (r : Nat) (ops : List Op) : Prop where
  targets : ∀ op ∈ ops, op.target < 40 ∨ op.target = px r ∨ op.target = py r ∨ op.target = pz r
  x : px r ∈ ops.map Op.target
  y : py r ∈ ops.map Op.target
  z : pz r ∈ ops.map Op.target

variable {ks : Set Nat} {T : Nat → Triple (ZMod p)} {P : Triple (ZMod p)}

theorem Writes.other (h : Writes r ops) (hk : k ≠ r) (f : Nat → ZMod p) : triple (evalAll ops f) k = triple f k := by
  have hother : ∀ j, j < 3 → evalAll ops f (3 * k + 40 + j) = f (3 * k + 40 + j) := by
    intro j hj
    apply evalAll_other
    intro op hop
    have htarget : op.target < 40 ∨ op.target = 3 * r + 40 ∨ op.target = 3 * r + 41 ∨ op.target = 3 * r + 42 :=
      h.targets op hop
    omega
  rw [triple, triple, Triple.mk.injEq]
  exact ⟨hother 0 (by decide), hother 1 (by decide), hother 2 (by decide)⟩

theorem Writes.written (h : Writes r ops) (s : Set Nat) :
    px r ∈ written ops s ∧ py r ∈ written ops s ∧ pz r ∈ written ops s := by
  have hmem : ∀ a ∈ ops.map Op.target, a ∈ P256.written ops s := by
    intro a ha
    obtain ⟨op, hop, rfl⟩ := List.mem_map.1 ha
    exact written_target hop
  exact ⟨hmem _ h.x, hmem _ h.y, hmem _ h.z⟩

theorem Writes.points (h : Writes r ops) (hm : Holds s m f)
    (hks : ∀ k ∈ ks, (px k ∈ s ∧ py k ∈ s ∧ pz k ∈ s) ∧ triple f k = T k) (hdef : DefinedAll ops s)
    (hval : triple (evalAll ops f) r = P) :
    ∃ m', execAll ops m = some m' ∧ Points (insert r ks) m' (Function.update T r P) := by
  obtain ⟨m', hexec, hholds⟩ := execAll_holds ops hm hdef
  refine ⟨m', hexec, _, _, hholds, fun k hk => ?_⟩
  by_cases hr : k = r
  · rw [hr, Function.update_self]
    exact ⟨h.written s, hval⟩
  · obtain ⟨⟨hx, hy, hz⟩, htriple⟩ := hks k (hk.resolve_left hr)
    rw [Function.update_of_ne hr, h.other hr, htriple]
    exact ⟨⟨written_old ops hx, written_old ops hy, written_old ops hz⟩, rfl⟩

theorem zeroOps_writes (r : Nat) : Writes r (zeroOps r) := by
  constructor <;> simp [zeroOps, Op.target]

theorem copyOps_writes (r q : Nat) : Writes r (copyOps r q) := by
  constructor <;> simp [copyOps, Op.target]

theorem doubleOps_writes (r q : Nat) : Writes r (doubleOps r q) := by
  constructor <;> simp [doubleOps, Op.target]

theorem doubleOps_defined (r : Nat) (hx : px q ∈ s) (hy : py q ∈ s) (hz : pz q ∈ s) : DefinedAll (doubleOps r q) s := by
  have hthree : val [3, 0, 0, 0, 0, 0, 0, 0] < p := by decide
  simp [doubleOps, DefinedAll, Op.Defined, Op.target, hx, hy, hz, hthree]

theorem zeroOps_defined (r : Nat) (s : Set Nat) : DefinedAll (zeroOps r) s := by
  have hzero : val zero < p := by decide
  exact ⟨⟨rfl, hzero⟩, ⟨rfl, hzero⟩, ⟨rfl, hzero⟩, trivial⟩

theorem copyOps_defined (r : Nat) (hx : px q ∈ s) (hy : py q ∈ s) (hz : pz q ∈ s) : DefinedAll (copyOps r q) s := by
  simp [copyOps, DefinedAll, Op.Defined, Op.target, hx, hy, hz]

theorem scaleOps_defined (hk : px k ∈ s ∧ py k ∈ s ∧ pz k ∈ s) (hq : px q ∈ s ∧ py q ∈ s ∧ pz q ∈ s) :
    DefinedAll (scaleOps k q) s := by
  simp [scaleOps, DefinedAll, Op.Defined, Op.target, hk, hq]

theorem chordOps_defined (r : Nat) (hk : pz k ∈ s) (hq : pz q ∈ s) (hs : ∀ i < 6, i ∈ s) :
    DefinedAll (chordOps r k q) s := by
  simp [chordOps, DefinedAll, Op.Defined, Op.target, hk, hq, hs]

theorem chordOps_writes (r k q : Nat) : Writes r (chordOps r k q) := by
  constructor <;> simp [chordOps, Op.target]

theorem zeroOps_eval (r : Nat) (f : Nat → ZMod p) : triple (evalAll (zeroOps r) f) r = Triple.infinity := by
  have hinj := renumber_injective (a := r) (b := r + 1) (c := r + 2) (by omega) (by omega) (by omega)
  have hsame := evalAll_rename hinj (zeroOps 0) f
  have hfirst : triple (evalAll (zeroOps 0) (f ∘ renumber r (r + 1) (r + 2))) 0 = ⟨(val zero : Nat), (val zero : Nat), (val zero : Nat)⟩ :=
    rfl
  rw [← hsame, zero_val, Nat.cast_zero] at hfirst
  exact hfirst

theorem copyOps_eval (f : Nat → ZMod p) (r q : Nat) : triple (evalAll (copyOps r q) f) r = triple f q := by
  by_cases hr : r = q
  · subst hr
    have hsame : evalAll (copyOps r r) f = f := by
      rw [copyOps, evalAll, evalAll, evalAll, evalAll, Op.eval, Function.update_eq_self, Op.eval, Function.update_eq_self,
        Op.eval, Function.update_eq_self]
    rw [hsame]
  have hinj := renumber_injective (a := q) (b := r) (c := q + r + 1) (Ne.symm hr) (by omega) (by omega)
  have hsame := evalAll_rename hinj (copyOps 1 0) f
  have hfirst : triple (evalAll (copyOps 1 0) (f ∘ renumber q r (q + r + 1))) 1 =
    triple (f ∘ renumber q r (q + r + 1)) 0 := rfl
  rw [← hsame] at hfirst
  exact hfirst

/-- Calls on local variables leave the points. -/
theorem locals_other (h : ∀ op ∈ ops, op.target < 40) (f : Nat → ZMod p) (k : Nat) :
    triple (evalAll ops f) k = triple f k := by
  have hother : ∀ j, evalAll ops f (3 * k + 40 + j) = f (3 * k + 40 + j) := by
    intro j
    apply evalAll_other
    intro op hop
    have htarget := h op hop
    omega
  rw [triple, triple, Triple.mk.injEq]
  exact ⟨hother 0, hother 1, hother 2⟩

theorem scaleOps_locals (k q : Nat) : ∀ op ∈ scaleOps k q, op.target < 40 := by
  simp [scaleOps, Op.target]

theorem scaleOps_written (k q : Nat) (s : Set Nat) : ∀ i < 6, i ∈ written (scaleOps k q) s := by
  intro i hi
  have hmem : i ∈ (scaleOps k q).map Op.target := by
    interval_cases i <;> simp [scaleOps, Op.target]
  obtain ⟨op, hop, rfl⟩ := List.mem_map.1 hmem
  exact written_target hop

theorem Holds.isZero_iff (h : Holds s m f) (hk : k ∈ s) : p256IsZero (m k) = true ↔ f k = 0 := by
  rw [p256IsZero, List.all_eq_true, ← h.value k hk, ZMod.natCast_eq_zero_iff]
  simp only [decide_eq_true_eq]
  rw [← val_eq_zero]
  exact ⟨fun hzero => hzero ▸ dvd_zero p, fun hdvd => Nat.eq_zero_of_dvd_of_lt hdvd (h.below k hk)⟩

theorem Holds.cmp_iff (h : Holds s m f) (hk : k ∈ s) (hq : q ∈ s) : p256Cmp (m k) (m q) = .eq ↔ f k = f q := by
  rw [p256Cmp, cmp_eq_eq ((h.length k).trans (h.length q).symm), ← h.value k hk, ← h.value q hq,
    ZMod.natCast_eq_natCast_iff', Nat.mod_eq_of_lt (h.below k hk), Nat.mod_eq_of_lt (h.below q hq)]

/-- The output may be the input. -/
theorem p256PointDouble_points (h : Points ks m T) (hq : q ∈ ks) (r : Nat) :
    ∃ m', p256PointDouble r q m = some m' ∧ Points (insert r ks) m' (Function.update T r (T q).double) := by
  obtain ⟨s, f, hm, hks⟩ := h
  obtain ⟨⟨hx, hy, hz⟩, htriple⟩ := hks q hq
  have hzero : p256IsZero (m (pz q)) = true ↔ (T q).z = 0 := by
    rw [← htriple]
    exact hm.isZero_iff hz
  rw [p256PointDouble, Triple.double]
  by_cases hinf : (T q).z = 0
  · rw [if_pos (hzero.2 hinf), if_pos hinf]
    exact (zeroOps_writes r).points hm hks (zeroOps_defined r s) (zeroOps_eval r f)
  · rw [if_neg (mt hzero.1 hinf), if_neg hinf, ← htriple]
    exact (doubleOps_writes r q).points hm hks (doubleOps_defined r hx hy hz) (doubleOps_eval f r q)

/-- The inputs may be one point, and the output an input. -/
theorem p256PointAdd_points (h : Points ks m T) (hk : k ∈ ks) (hq : q ∈ ks) (r : Nat) :
    ∃ m', p256PointAdd r k q m = some m' ∧ Points (insert r ks) m' (Function.update T r ((T k).add (T q))) := by
  obtain ⟨s, f, hm, hks⟩ := h
  obtain ⟨⟨hkx, hky, hkz⟩, hktriple⟩ := hks k hk
  obtain ⟨⟨hqx, hqy, hqz⟩, hqtriple⟩ := hks q hq
  have hkzero : p256IsZero (m (pz k)) = true ↔ (T k).z = 0 := by
    rw [← hktriple]
    exact hm.isZero_iff hkz
  have hqzero : p256IsZero (m (pz q)) = true ↔ (T q).z = 0 := by
    rw [← hqtriple]
    exact hm.isZero_iff hqz
  rw [p256PointAdd, Triple.add]
  by_cases hkinf : (T k).z = 0
  · rw [if_pos (hkzero.2 hkinf), if_pos hkinf, ← hqtriple]
    exact (copyOps_writes r q).points hm hks (copyOps_defined r hqx hqy hqz) (copyOps_eval f r q)
  rw [if_neg (mt hkzero.1 hkinf), if_neg hkinf]
  by_cases hqinf : (T q).z = 0
  · rw [if_pos (hqzero.2 hqinf), if_pos hqinf, ← hktriple]
    exact (copyOps_writes r k).points hm hks (copyOps_defined r hkx hky hkz) (copyOps_eval f r k)
  rw [if_neg (mt hqzero.1 hqinf), if_neg hqinf]
  obtain ⟨m₁, hexec, hm₁⟩ := execAll_holds (scaleOps k q) hm (scaleOps_defined ⟨hkx, hky, hkz⟩ ⟨hqx, hqy, hqz⟩)
  have hlocals := scaleOps_written k q s
  have hks₁ : ∀ k' ∈ ks, (px k' ∈ written (scaleOps k q) s ∧ py k' ∈ written (scaleOps k q) s ∧
      pz k' ∈ written (scaleOps k q) s) ∧ triple (evalAll (scaleOps k q) f) k' = T k' := by
    intro k' hk'
    obtain ⟨⟨hx, hy, hz⟩, htriple⟩ := hks k' hk'
    rw [locals_other (scaleOps_locals k q), htriple]
    exact ⟨⟨written_old _ hx, written_old _ hy, written_old _ hz⟩, rfl⟩
  obtain ⟨hu, hu', hs, hs'⟩ := scaleOps_eval f k q
  have hxs : p256Cmp (m₁ 2) (m₁ 3) = .eq ↔ (T k).x * (T q).z ^ 2 = (T q).x * (T k).z ^ 2 := by
    rw [hm₁.cmp_iff (hlocals 2 (by decide)) (hlocals 3 (by decide)), hu, hu', ← hktriple, ← hqtriple, pow_two, pow_two]
    rfl
  have hys : p256Cmp (m₁ 4) (m₁ 5) = .eq ↔ (T k).y * (T q).z ^ 3 = (T q).y * (T k).z ^ 3 := by
    rw [hm₁.cmp_iff (hlocals 4 (by decide)) (hlocals 5 (by decide)), hs, hs', ← hktriple, ← hqtriple, pow_three,
      pow_three]
    rfl
  rw [hexec, Option.bind_some]
  by_cases hx : (T k).x * (T q).z ^ 2 = (T q).x * (T k).z ^ 2
  · rw [if_pos (hxs.2 hx), if_pos hx]
    by_cases hy : (T k).y * (T q).z ^ 3 = (T q).y * (T k).z ^ 3
    · rw [if_neg (not_not.2 (hys.2 hy)), if_neg (not_not.2 hy)]
      exact p256PointDouble_points ⟨_, _, hm₁, hks₁⟩ hk r
    · rw [if_pos (mt hys.1 hy), if_pos hy]
      exact (zeroOps_writes r).points hm₁ hks₁ (zeroOps_defined r _) (zeroOps_eval r _)
  · have hkq : k ≠ q := by
      rintro rfl
      exact hx rfl
    rw [if_neg (mt hxs.1 hx), if_neg hx, ← hktriple, ← hqtriple]
    exact (chordOps_writes r k q).points hm₁ hks₁
      (chordOps_defined r (hks₁ k hk).1.2.2 (hks₁ q hq).1.2.2 hlocals) (chordOps_eval f hkq r)

end Lebirun.Tls.P256
