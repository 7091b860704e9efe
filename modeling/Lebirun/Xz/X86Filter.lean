import Mathlib

namespace Lebirun.Xz
set_option autoImplicit true

abbrev Buffer := Nat → BitVec 8

def xzSignByte (value : BitVec 8) : Bool := value = 0 || value = 255

def xzU32 (data : Buffer) (i : Nat) : BitVec 32 := data (i + 3) ++ data (i + 2) ++ data (i + 1) ++ data i

/-- `mask` bits counted by shifting them out. -/
def maskWidth (mask : Nat) : Nat := Nat.size mask

/-- The correction loop of `xz_x86`, for at most the given number of rounds; `move` is what takes a source to
its target. -/
def xzTarget (move : BitVec 32 → BitVec 32) (mask : Nat) : Nat → BitVec 32 → Option (BitVec 32)
  | 0, _ => none
  | rounds + 1, source =>
    let target := move source
    if mask = 0 then some target
    else
      let bits := maskWidth mask * 8
      if !xzSignByte ((target >>> (24 - bits)).setWidth 8) then some target
      else xzTarget move mask rounds (target ^^^ (BitVec.allOnes 32 >>> bits))

def putTarget (data : Buffer) (position : Nat) (target : BitVec 32) : Buffer := fun i =>
  if i = position + 1 then target.setWidth 8
  else if i = position + 2 then (target >>> 8).setWidth 8
  else if i = position + 3 then (target >>> 16).setWidth 8
  else if i = position + 4 then if target.getLsbD 24 then 255 else 0
  else data i

/-- The scan of `xz_x86`. `previous` begins at -1, which the size type wraps; `move source address` is
`source - address` in the source. The first argument bounds the turns. -/
def xzScan (size : Nat) (start : BitVec 32) (move : BitVec 32 → BitVec 32 → BitVec 32) (rounds : Nat) :
    Nat → Nat → Int → Nat → Buffer → Option Buffer
  | 0, _, _, _, data => some data
  | left + 1, position, previous, mask, data =>
    if size - position < 5 then some data
    else if data position &&& 254 ≠ 232 then xzScan size start move rounds left (position + 1) previous mask data
    else
      let gap := (position - previous).toNat
      let mask := if gap > 3 then 0 else (mask <<< (gap - 1)) &&& 7
      if mask ≠ 0 ∧ (mask &&& (mask - 1) ≠ 0 ∨ xzSignByte (data (position + 4 - maskWidth mask))) then
        xzScan size start move rounds left (position + 1) position (((mask <<< 1) &&& 7) ||| 1) data
      else if xzSignByte (data (position + 4)) then
        let source := xzU32 data (position + 1)
        let address := start + BitVec.ofNat 32 position + 5
        match xzTarget (fun source => move source address) mask rounds source with
        | none => none
        | some target =>
          xzScan size start move rounds left (position + 5) position mask (putTarget data position target)
      else xzScan size start move rounds left (position + 1) position (((mask <<< 1) &&& 7) ||| 1) data

def xzX86 (rounds : Nat) (data : Buffer) (size : Nat) (start : BitVec 32) : Option Buffer :=
  xzScan size start (fun source address => source - address) rounds size 0 (-1) 0 data

/-- The same scan with `target = source + address`. -/
def xzX86Reverse (rounds : Nat) (data : Buffer) (size : Nat) (start : BitVec 32) : Option Buffer :=
  xzScan size start (fun source address => source + address) rounds size 0 (-1) 0 data

section Correction

variable {v w : Nat} {k x : BitVec v}

/-- The byte that the correction looks at, `w` bytes below the top one of four. -/
def tested (w : Nat) (x : BitVec v) : BitVec 8 := x.extractLsb' (24 - w * 8) 8

def flipped (w : Nat) (x : BitVec v) : BitVec v := x ^^^ BitVec.ofNat v (2 ^ (32 - w * 8) - 1)

/-- The target of a source, the correction done where it is needed. -/
def corrected (w : Nat) (k x : BitVec v) : BitVec v :=
  if w = 0 then x + k
  else if xzSignByte (tested w (x + k)) then flipped w (x + k) + k
  else x + k

theorem signByte_not (b : BitVec 8) : xzSignByte (~~~b) = xzSignByte b := by
  revert b
  decide

theorem flipped_flipped (w : Nat) (x : BitVec v) : flipped w (flipped w x) = x := by
  rw [flipped, flipped, BitVec.xor_assoc, BitVec.xor_self, BitVec.xor_zero]

/-- Flipping complements the part of a word below the tested byte's end. -/
theorem setWidth_flipped (hn : n = 32 - w * 8) (hv : n ≤ v) (x : BitVec v) :
    (flipped w x).setWidth n = ~~~(x.setWidth n) := by
  have hones : (BitVec.ofNat v (2 ^ n - 1)).setWidth n = BitVec.allOnes n := by
    apply BitVec.eq_of_toNat_eq
    have hlt : 2 ^ n - 1 < 2 ^ n := Nat.sub_lt (Nat.two_pow_pos n) Nat.one_pos
    have hle : 2 ^ n ≤ 2 ^ v := Nat.pow_le_pow_right Nat.two_pos hv
    rw [BitVec.toNat_setWidth, BitVec.toNat_ofNat, BitVec.toNat_allOnes, Nat.mod_eq_of_lt (hlt.trans_le hle),
      Nat.mod_eq_of_lt hlt]
  rw [flipped, BitVec.setWidth_xor, ← hn, hones, BitVec.xor_allOnes]

theorem tested_setWidth (hw : 0 < w) (h3 : w ≤ 3) (hn : n = 32 - w * 8) (x : BitVec v) :
    tested w (x.setWidth n) = tested w x :=
  BitVec.extractLsb'_setWidth_of_le (by omega)

/-- The tested byte lies among the 25 low bits. -/
theorem tested_low (hw : 0 < w) (x : BitVec v) : tested w (x.setWidth 25) = tested w x :=
  BitVec.extractLsb'_setWidth_of_le (by omega)

theorem tested_not (hw : 0 < w) (h3 : w ≤ 3) (hv : 32 - w * 8 ≤ v) (x : BitVec v) :
    tested w (~~~x) = ~~~tested w x := by
  apply BitVec.eq_of_getLsbD_eq
  intro i hi
  have hin : 24 - w * 8 + i < v := by omega
  simp [tested, hi, hin]

/-- A second round turns the tested byte of the source around. -/
theorem tested_again (hw : 0 < w) (h3 : w ≤ 3) (hv : 24 ≤ v) (k x : BitVec v) :
    tested w (flipped w (x + k) + k) = ~~~tested w x := by
  obtain ⟨n, hn⟩ : ∃ n, n = 32 - w * 8 := ⟨_, rfl⟩
  have hle : n ≤ v := by omega
  have hround : (flipped w (x + k) + k).setWidth n = ~~~(x.setWidth n) := by
    rw [BitVec.setWidth_add _ _ hle, setWidth_flipped hn hle, BitVec.setWidth_add _ _ hle,
      BitVec.not_eq_neg_add, BitVec.not_eq_neg_add]
    grind
  rw [← tested_setWidth hw h3 hn, hround, tested_not hw h3 hn.ge, tested_setWidth hw h3 hn]

theorem tested_flipped (hw : 0 < w) (h3 : w ≤ 3) (hv : 24 ≤ v) (x : BitVec v) :
    tested w (flipped w x) = ~~~tested w x := by
  obtain ⟨n, hn⟩ : ∃ n, n = 32 - w * 8 := ⟨_, rfl⟩
  rw [← tested_setWidth hw h3 hn, setWidth_flipped hn (by omega), tested_not hw h3 hn.ge, tested_setWidth hw h3 hn]

/-- The target has no sign byte where the source has none. -/
theorem tested_corrected (hw : 0 < w) (h3 : w ≤ 3) (hv : 24 ≤ v) (hx : xzSignByte (tested w x) = false) :
    xzSignByte (tested w (corrected w k x)) = false := by
  rw [corrected, if_neg hw.ne']
  split
  · rw [tested_again hw h3 hv, signByte_not]
    exact hx
  · rename_i h
    simpa using h

/-- Moving back by the same amount undoes the correction. -/
theorem corrected_back (h3 : w ≤ 3) (hv : 24 ≤ v) (hx : w = 0 ∨ xzSignByte (tested w x) = false) :
    corrected w (-k) (corrected w k x) = x := by
  by_cases hw : w = 0
  · rw [corrected, corrected, if_pos hw, if_pos hw]
    grind
  have hx := hx.resolve_left hw
  have hpos := Nat.pos_of_ne_zero hw
  have hback : x + k + -k = x := by grind
  rw [corrected, corrected, if_neg hw, if_neg hw]
  split
  · rename_i hs
    have hsum : flipped w (x + k) + k + -k = flipped w (x + k) := by grind
    rw [hsum, tested_flipped hpos h3 hv, signByte_not, if_pos hs, flipped_flipped, hback]
  · rw [hback, hx]
    rfl

theorem setWidth_corrected (hv : v ≤ 32) (h24 : 24 ≤ v) (h3 : w ≤ 3) (k x : BitVec 32) :
    (corrected w k x).setWidth v = corrected w (k.setWidth v) (x.setWidth v) := by
  have hsum : (x + k).setWidth v = x.setWidth v + k.setWidth v := BitVec.setWidth_add _ _ hv
  by_cases hw : w = 0
  · rw [corrected, corrected, if_pos hw, if_pos hw, hsum]
  have htest : tested w ((x + k).setWidth v) = tested w (x + k) :=
    BitVec.extractLsb'_setWidth_of_le (by omega)
  have hflip : (flipped w (x + k)).setWidth v = flipped w ((x + k).setWidth v) := by
    rw [flipped, flipped, BitVec.setWidth_xor]
    congr 1
    apply BitVec.eq_of_toNat_eq
    rw [BitVec.toNat_setWidth, BitVec.toNat_ofNat, BitVec.toNat_ofNat]
    exact Nat.mod_mod_of_dvd _ (Nat.pow_dvd_pow 2 hv)
  rw [corrected, corrected, if_neg hw, if_neg hw, ← hsum, htest]
  split
  · rw [BitVec.setWidth_add _ _ hv, hflip]
  · rfl

theorem shift_tested (w : Nat) (x : BitVec 32) : (x >>> (24 - w * 8)).setWidth 8 = tested w x := by
  apply BitVec.eq_of_getLsbD_eq
  intro i hi
  simp [tested, hi]

theorem allOnes_shift (h3 : w ≤ 3) :
    BitVec.allOnes 32 >>> (w * 8) = BitVec.ofNat 32 (2 ^ (32 - w * 8) - 1) := by
  revert h3
  revert w
  decide

theorem xzTarget_succ (move : BitVec 32 → BitVec 32) (h3 : maskWidth mask ≤ 3) (rounds : Nat) (x : BitVec 32) :
    xzTarget move mask (rounds + 1) x =
      if mask = 0 then some (move x)
      else if !xzSignByte (tested (maskWidth mask) (move x)) then some (move x)
      else xzTarget move mask rounds (flipped (maskWidth mask) (move x)) := by
  rw [← shift_tested, flipped, ← allOnes_shift h3]
  rfl

/-- The correction loop ends in at most two rounds. -/
theorem xzTarget_eq {move : BitVec 32 → BitVec 32} {k x : BitVec 32} (hmove : ∀ x, move x = x + k) (hmask : mask < 8)
    (hx : mask = 0 ∨ xzSignByte (tested (maskWidth mask) x) = false) (rounds : Nat) :
    xzTarget move mask (rounds + 2) x = some (corrected (maskWidth mask) k x) := by
  have h3 : maskWidth mask ≤ 3 := Nat.size_le.2 hmask
  rw [xzTarget_succ move h3, xzTarget_succ move h3, hmove, hmove]
  by_cases h0 : mask = 0
  · rw [if_pos h0, h0]
    rfl
  have hw : 0 < maskWidth mask := Nat.size_pos.2 (Nat.pos_of_ne_zero h0)
  have hx := hx.resolve_left h0
  rw [if_neg h0, if_neg h0, corrected, if_neg hw.ne']
  by_cases hs : xzSignByte (tested (maskWidth mask) (x + k)) = true
  · have hagain : xzSignByte (tested (maskWidth mask) (flipped (maskWidth mask) (x + k) + k)) = false := by
      rw [tested_again hw h3 (by decide), signByte_not]
      exact hx
    rw [if_pos hs, hs, hagain]
    rfl
  · rw [if_neg hs, Bool.eq_false_of_not_eq_true hs]
    rfl

end Correction

theorem maskWidth_pos (h0 : mask ≠ 0) : 0 < maskWidth mask := Nat.size_pos.2 (Nat.pos_of_ne_zero h0)

theorem maskWidth_le (hlt : mask < 8) : maskWidth mask ≤ 3 := Nat.size_le.2 hlt

section History

variable {position mask : Nat} {previous : Int}

/-- The opcodes left alone among the three bytes before `position`, as the mask the scan would see there. -/
def seen (position : Nat) (previous : Int) (mask : Nat) : Nat :=
  if ((position : Int) - previous).toNat > 3 then 0
  else (mask <<< (((position : Int) - previous).toNat - 1)) &&& 7

theorem seen_succ (hp : previous < (position : Int)) (hmask : mask < 8) :
    seen (position + 1) previous mask = (seen position previous mask <<< 1) &&& 7 := by
  obtain ⟨gap, hgap⟩ : ∃ gap : Nat, (position : Int) - previous = gap + 1 := ⟨(position - previous - 1).toNat, by omega⟩
  have hnext : ((position + 1 : Nat) : Int) - previous = gap + 1 + 1 := by omega
  have hnow : ((position : Int) - previous).toNat = gap + 1 := by omega
  have hthen : (((position + 1 : Nat) : Int) - previous).toNat = gap + 2 := by omega
  rw [seen, seen, hnow, hthen]
  by_cases h : gap ≤ 2
  · have hall : ∀ g ≤ 2, ∀ k < 8, (if g + 2 > 3 then 0 else (k <<< (g + 2 - 1)) &&& 7) =
        ((if g + 1 > 3 then 0 else (k <<< (g + 1 - 1)) &&& 7) <<< 1) &&& 7 := by decide
    exact hall gap h mask hmask
  · rw [if_pos (by omega), if_pos (by omega)]
    rfl

theorem seen_next (hmask : mask < 8) : seen (position + 1) position mask = mask := by
  have hgap : (((position + 1 : Nat) : Int) - position).toNat = 1 := by omega
  have hall : ∀ k < 8, (k <<< (1 - 1)) &&& 7 = k := by decide
  rw [seen, hgap]
  exact hall mask hmask

theorem seen_far : seen (position + 5) position mask = 0 := by
  have hgap : (((position + 5 : Nat) : Int) - position).toNat = 5 := by omega
  rw [seen, hgap]
  rfl

theorem seen_lt : seen position previous mask < 8 := by
  rw [seen]
  split
  · decide
  · exact Nat.lt_succ_of_le Nat.and_le_right

theorem added_lt : (((mask <<< 1) &&& 7) ||| 1) < 8 :=
  Nat.or_lt_two_pow (n := 3) (Nat.lt_succ_of_le Nat.and_le_right) (by decide)

end History

section Scan

/-- A window that the history keeps the scan from converting. -/
def Skipped (h : Nat) (data : Buffer) (position : Nat) : Prop :=
  h ≠ 0 ∧ (h &&& (h - 1) ≠ 0 ∨ xzSignByte (data (position + 4 - maskWidth h)))

instance : Decidable (Skipped h data position) := inferInstanceAs (Decidable (_ ∧ _))

/-- The scan with its history as one mask and every correction done; `k` is what it adds at each position. -/
def scan (size : Nat) (k : Nat → BitVec 32) : Nat → Nat → Nat → Buffer → Buffer
  | 0, _, _, data => data
  | left + 1, position, h, data =>
    if size - position < 5 then data
    else if data position &&& 254 ≠ 232 then scan size k left (position + 1) ((h <<< 1) &&& 7) data
    else if Skipped h data position then scan size k left (position + 1) (((h <<< 1) &&& 7) ||| 1) data
    else if xzSignByte (data (position + 4)) then
      scan size k left (position + 5) 0
        (putTarget data position (corrected (maskWidth h) (k position) (xzU32 data (position + 1))))
    else scan size k left (position + 1) (((h <<< 1) &&& 7) ||| 1) data

variable {size left position h p i : Nat} {k : Nat → BitVec 32} {d e : Buffer}

theorem getLsbD_xzU32 (d : Buffer) (i j : Nat) :
    (xzU32 d i).getLsbD j =
      if j < 8 then (d i).getLsbD j
      else if j - 8 < 8 then (d (i + 1)).getLsbD (j - 8)
      else if j - 8 - 8 < 8 then (d (i + 2)).getLsbD (j - 8 - 8)
      else (d (i + 3)).getLsbD (j - 8 - 8 - 8) := by
  show (d (i + 3) ++ d (i + 2) ++ d (i + 1) ++ d i).getLsbD j = _
  rw [BitVec.getLsbD_append, BitVec.getLsbD_append, BitVec.getLsbD_append]

theorem tested_xzU32 (hw : 0 < w) (h3 : w ≤ 3) (d : Buffer) (p : Nat) :
    tested w (xzU32 d (p + 1)) = d (p + 4 - w) := by
  apply BitVec.eq_of_getLsbD_eq
  intro i hi
  rw [tested, BitVec.getLsbD_extractLsb', getLsbD_xzU32, decide_eq_true hi, Bool.true_and]
  obtain rfl | rfl | rfl : w = 1 ∨ w = 2 ∨ w = 3 := by omega
  · rw [if_neg (by omega), if_neg (by omega), if_pos (by omega)]
    congr 1
    omega
  · rw [if_neg (by omega), if_pos (by omega)]
    congr 1
    omega
  · rw [if_pos (by omega)]
    congr 1
    omega

theorem getLsbD_byte (t : BitVec 32) (n : Nat) (hj : j < 8) : ((t >>> n).setWidth 8).getLsbD j = t.getLsbD (n + j) := by
  simp [hj]

/-- A word is written as it is read, but for the seven bits above its sign. -/
theorem xzU32_putTarget (d : Buffer) (p : Nat) (t : BitVec 32) :
    (xzU32 (putTarget d p t) (p + 1)).setWidth 25 = t.setWidth 25 := by
  apply BitVec.eq_of_getLsbD_eq
  intro j hj
  rw [BitVec.getLsbD_setWidth, BitVec.getLsbD_setWidth, decide_eq_true hj, Bool.true_and, Bool.true_and, getLsbD_xzU32]
  split
  · rename_i h
    rw [putTarget, if_pos rfl, BitVec.getLsbD_setWidth, decide_eq_true h, Bool.true_and]
  split
  · rename_i h
    rw [putTarget, if_neg (by omega), if_pos rfl, getLsbD_byte t 8 h]
    congr 1
    omega
  split
  · rename_i h
    rw [putTarget, if_neg (by omega), if_neg (by omega), if_pos rfl, getLsbD_byte t 16 h]
    congr 1
    omega
  · have hlast : j = 24 := by omega
    subst hlast
    rw [putTarget, if_neg (by omega), if_neg (by omega), if_neg (by omega), if_pos rfl]
    cases t.getLsbD 24 <;> rfl

theorem putTarget_congr {t t' : BitVec 32} (h : t.setWidth 25 = t'.setWidth 25) (d : Buffer) (p : Nat) :
    putTarget d p t = putTarget d p t' := by
  have hbit : ∀ j < 25, t.getLsbD j = t'.getLsbD j := by
    intro j hj
    have hj' := congrArg (fun x => x.getLsbD j) h
    simpa [hj] using hj'
  have hbyte : ∀ n, n + 8 ≤ 25 → (t >>> n).setWidth 8 = (t' >>> n).setWidth 8 := by
    intro n hn
    apply BitVec.eq_of_getLsbD_eq
    intro j hj
    rw [getLsbD_byte t n hj, getLsbD_byte t' n hj]
    exact hbit _ (by omega)
  have hlow : t.setWidth 8 = t'.setWidth 8 := by
    have h0 := hbyte 0 (by decide)
    rwa [BitVec.ushiftRight_zero, BitVec.ushiftRight_zero] at h0
  funext i
  rw [putTarget, putTarget, hlow, hbyte 8 (by decide), hbyte 16 (by decide), hbit 24 (by decide)]

/-- Writing a window's own word changes nothing, when its last byte is a sign byte. -/
theorem putTarget_self (h : xzSignByte (d (p + 4)) = true) : putTarget d p (xzU32 d (p + 1)) = d := by
  have hbit := fun j => getLsbD_xzU32 d (p + 1) j
  funext i
  rw [putTarget]
  split
  · rename_i hi
    subst hi
    apply BitVec.eq_of_getLsbD_eq
    intro j hj
    rw [BitVec.getLsbD_setWidth, decide_eq_true hj, Bool.true_and, hbit, if_pos hj]
  split
  · rename_i hi
    subst hi
    apply BitVec.eq_of_getLsbD_eq
    intro j hj
    rw [getLsbD_byte _ 8 hj, hbit, if_neg (by omega), if_pos (by omega), Nat.add_sub_cancel_left]
  split
  · rename_i hi
    subst hi
    apply BitVec.eq_of_getLsbD_eq
    intro j hj
    rw [getLsbD_byte _ 16 hj, hbit, if_neg (by omega), if_neg (by omega), if_pos (by omega)]
    congr 1
    omega
  split
  · rename_i hi
    subst hi
    have hlast : (xzU32 d (p + 1)).getLsbD 24 = (d (p + 4)).getLsbD 0 := by
      rw [hbit]
      rfl
    rw [hlast]
    have hbyte : ∀ b : BitVec 8, xzSignByte b = true → (if b.getLsbD 0 = true then 255 else 0) = b := by decide
    exact hbyte _ h
  · rfl

theorem putTarget_other (h : i < p + 1 ∨ p + 4 < i) (t : BitVec 32) : putTarget d p t i = d i := by
  rw [putTarget, if_neg (by omega), if_neg (by omega), if_neg (by omega), if_neg (by omega)]

theorem putTarget_sign (d : Buffer) (p : Nat) (t : BitVec 32) : xzSignByte (putTarget d p t (p + 4)) = true := by
  rw [putTarget, if_neg (by omega), if_neg (by omega), if_neg (by omega), if_pos rfl]
  split <;> rfl

/-- The source's scan is the scan with one mask. -/
theorem xzScan_eq {move : BitVec 32 → BitVec 32 → BitVec 32}
    (hmove : ∀ p x, move x (start + BitVec.ofNat 32 p + 5) = x + k p) (rounds : Nat) (hp : previous < (position : Int))
    (hmask : mask < 8) :
    xzScan size start move (rounds + 2) left position previous mask d =
      some (scan size k left position (seen position previous mask) d) := by
  induction left generalizing position previous mask d with
  | zero => rfl
  | succ left ih =>
    rw [xzScan, scan]
    split
    · rfl
    split
    · rw [ih (by omega) hmask, seen_succ hp hmask]
    have hnow : (if ((position : Int) - previous).toNat > 3 then 0
        else (mask <<< (((position : Int) - previous).toNat - 1)) &&& 7) = seen position previous mask := rfl
    dsimp only
    rw [hnow]
    have hlt : seen position previous mask < 8 := seen_lt
    have hstep : xzScan size start move (rounds + 2) left (position + 1) position
        (((seen position previous mask <<< 1) &&& 7) ||| 1) d =
        some (scan size k left (position + 1) (((seen position previous mask <<< 1) &&& 7) ||| 1) d) := by
      rw [ih (by omega) added_lt, seen_next added_lt]
    by_cases hskip : Skipped (seen position previous mask) d position
    · rw [if_pos hskip]
      exact (if_pos hskip).trans hstep
    rw [if_neg hskip]
    apply (if_neg hskip).trans
    split
    · have htested : seen position previous mask = 0 ∨
          xzSignByte (tested (maskWidth (seen position previous mask)) (xzU32 d (position + 1))) = false := by
        by_cases h0 : seen position previous mask = 0
        · exact .inl h0
        · right
          rw [tested_xzU32 (maskWidth_pos h0) (maskWidth_le hlt)]
          by_contra hsign
          exact hskip ⟨h0, .inr (by simpa using hsign)⟩
      rw [xzTarget_eq (hmove position) hlt htested]
      dsimp only
      rw [ih (by omega) hlt, seen_far]
    · exact hstep

end Scan

section Reversal

variable {size left position h p i : Nat} {k : Nat → BitVec 32} {d e : Buffer}

/-- Bytes up to the scan's position are left alone. -/
theorem scan_before (hi : i ≤ p) : scan size k left p h d i = d i := by
  induction left generalizing p h d with
  | zero => rfl
  | succ left ih =>
    rw [scan]
    split
    · rfl
    split
    · exact ih (by omega)
    split
    · exact ih (by omega)
    split
    · rw [ih (by omega), putTarget_other (.inl (by omega))]
    · exact ih (by omega)

theorem testBit_shift (hj : j < 2) (hb : h.testBit j = true) : ((h <<< 1) &&& 7).testBit (j + 1) = true := by
  have h7 : (7 : Nat).testBit (j + 1) = true := by
    obtain rfl | rfl : j = 0 ∨ j = 1 := by omega
    · rfl
    · rfl
  rw [Nat.testBit_and, Nat.testBit_shiftLeft, h7]
  simpa using hb

theorem testBit_added (hj : j < 2) (hb : h.testBit j = true) : (((h <<< 1) &&& 7) ||| 1).testBit (j + 1) = true := by
  rw [Nat.testBit_or, testBit_shift hj hb, Bool.true_or]

theorem testBit_added_zero (h : Nat) : (((h <<< 1) &&& 7) ||| 1).testBit 0 = true := by
  rw [Nat.testBit_or]
  exact Bool.or_true _

/-- A history of one opcode. -/
theorem single (hlt : h < 8) (hj : h.testBit j = true) (hone : h &&& (h - 1) = 0) :
    maskWidth h = j + 1 ∧ ∀ i, h.testBit i = true → i = j := by
  have h3 : ∀ i, h.testBit i = true → i < 3 := by
    intro i hi
    by_contra hge
    rw [Nat.testBit_lt_two_pow (hlt.trans_le (Nat.pow_le_pow_right Nat.two_pos (Nat.not_lt.1 hge)))] at hi
    cases hi
  have hwidth : ∀ h : Fin 8, ∀ j : Fin 3, h.val.testBit j = true → h.val &&& (h.val - 1) = 0 →
      maskWidth h = j + 1 := by decide +kernel
  have honly : ∀ h : Fin 8, ∀ i j : Fin 3, h.val.testBit i = true → h.val.testBit j = true →
      h.val &&& (h.val - 1) = 0 → i = j := by decide +kernel
  refine ⟨hwidth ⟨h, hlt⟩ ⟨j, h3 j hj⟩ hj hone, ?_⟩
  intro i hi
  exact Fin.mk.inj (honly ⟨h, hlt⟩ ⟨i, h3 i hi⟩ ⟨j, h3 j hj⟩ hi hj hone)

/-- What later conversions do to the last byte of a window the scan left alone: they never make a sign byte of it,
and with an opcode between they never touch it. -/
theorem scan_kept (hlt : h < 8) (hj : h.testBit j = true) (h3 : j < 3) :
    (xzSignByte (d (p + 3 - j)) = false → xzSignByte (scan size k left p h d (p + 3 - j)) = false) ∧
      (∀ i, i < j → h.testBit i = true → scan size k left p h d (p + 3 - j) = d (p + 3 - j)) := by
  induction left generalizing p h d j with
  | zero => exact ⟨id, fun _ _ _ => rfl⟩
  | succ left ih =>
    -- one byte on, the window is one step further back, or out of reach
    have hon : ∀ h', h' < 8 → (∀ i, i < 2 → h.testBit i = true → h'.testBit (i + 1) = true) →
        (xzSignByte (d (p + 3 - j)) = false →
          xzSignByte (scan size k left (p + 1) h' d (p + 3 - j)) = false) ∧
        (∀ i, i < j → h.testBit i = true → scan size k left (p + 1) h' d (p + 3 - j) = d (p + 3 - j)) := by
      intro h' hlt' hbits
      by_cases h2 : j < 2
      · obtain ⟨hkeep, hsame⟩ := @ih h' (p + 1) d (j + 1) hlt' (hbits j h2 hj) (by omega)
        have hidx : p + 1 + 3 - (j + 1) = p + 3 - j := by omega
        rw [hidx] at hkeep hsame
        exact ⟨hkeep, fun i hi hb => hsame (i + 1) (by omega) (hbits i (by omega) hb)⟩
      · have hsame : scan size k left (p + 1) h' d (p + 3 - j) = d (p + 3 - j) := scan_before (by omega)
        rw [hsame]
        exact ⟨id, fun _ _ _ => rfl⟩
    rw [scan]
    split
    · exact ⟨id, fun _ _ _ => rfl⟩
    split
    · exact hon _ (Nat.lt_succ_of_le Nat.and_le_right) fun i hi hb => testBit_shift hi hb
    split
    · exact hon _ added_lt fun i hi hb => testBit_added hi hb
    rename_i hskip
    split
    · have h0 : h ≠ 0 := by
        rintro rfl
        rw [Nat.zero_testBit] at hj
        cases hj
      have hone : h &&& (h - 1) = 0 := by
        by_contra hmany
        exact hskip ⟨h0, .inl hmany⟩
      obtain ⟨hw, honly⟩ := single hlt hj hone
      constructor
      · intro hsign
        rw [scan_before (by omega)]
        have hput := tested_xzU32 (w := j + 1) (by omega) (by omega)
          (putTarget d p (corrected (maskWidth h) (k p) (xzU32 d (p + 1)))) p
        have hidx : p + 4 - (j + 1) = p + 3 - j := by omega
        rw [hidx] at hput
        have hword : tested (j + 1) (xzU32 (putTarget d p (corrected (maskWidth h) (k p) (xzU32 d (p + 1)))) (p + 1)) =
            tested (j + 1) (corrected (maskWidth h) (k p) (xzU32 d (p + 1))) := by
          rw [← tested_low (by omega), xzU32_putTarget, tested_low (by omega)]
        rw [← hput, hword, hw]
        apply tested_corrected (by omega) (by omega) (by decide)
        rw [tested_xzU32 (by omega) (by omega), hidx]
        exact hsign
      · intro i hi hb
        exact absurd (honly i hb) hi.ne
    · exact hon _ added_lt fun i hi hb => testBit_added hi hb

theorem exists_bit (h0 : h ≠ 0) (hlt : h < 8) : ∃ j < 3, h.testBit j = true := by
  have hall : ∀ h : Fin 8, h.val ≠ 0 → ∃ j : Fin 3, h.val.testBit j = true := by decide +kernel
  obtain ⟨j, hj⟩ := hall ⟨h, hlt⟩ h0
  exact ⟨j, j.isLt, hj⟩

/-- Whether a window is skipped depends on the last bytes of the windows in the history. -/
theorem skipped_congr (hlt : h < 8)
    (hsame : ∀ j < 3, h.testBit j = true → h &&& (h - 1) = 0 →
      xzSignByte (e (p + 3 - j)) = xzSignByte (d (p + 3 - j))) :
    Skipped h e p ↔ Skipped h d p := by
  apply and_congr_right
  intro h0
  by_cases hone : h &&& (h - 1) = 0
  · obtain ⟨j, h3, hj⟩ := exists_bit h0 hlt
    have hw := (single hlt hj hone).1
    have hidx : p + 4 - maskWidth h = p + 3 - j := by omega
    rw [hidx, hsame j h3 hj hone]
  · exact ⟨fun _ => .inl hone, fun _ => .inl hone⟩

/-- After a window was left alone, nothing touches the last bytes of the ones before it. -/
theorem scan_next (hj : h.testBit j = true) (h3 : j < 3) :
    scan size k left (p + 1) (((h <<< 1) &&& 7) ||| 1) d (p + 3 - j) = d (p + 3 - j) := by
  by_cases h2 : j < 2
  · have hkept : scan size k left (p + 1) (((h <<< 1) &&& 7) ||| 1) d (p + 1 + 3 - (j + 1)) =
        d (p + 1 + 3 - (j + 1)) :=
      (scan_kept added_lt (testBit_added h2 hj) (by omega)).2 0 (by omega) (testBit_added_zero h)
    have hidx : p + 1 + 3 - (j + 1) = p + 3 - j := by omega
    rwa [hidx] at hkept
  · exact scan_before (by omega)

theorem putTarget_window {t : BitVec 32} (h1 : p + 1 ≤ i) (h4 : i ≤ p + 4) : putTarget e p t i = putTarget d p t i := by
  simp only [putTarget]
  split_ifs <;> first | rfl | omega

theorem xzU32_congr (h : ∀ j < 4, e (p + j) = d (p + j)) : xzU32 e p = xzU32 d p := by
  rw [xzU32, xzU32, h 1 (by decide), h 2 (by decide), h 3 (by decide)]
  have h0 := h 0 (by decide)
  rw [Nat.add_zero] at h0
  rw [h0]

/-- The scan with the opposite displacements, over what the scan has made of `d` from `p` on, gives `d` back. -/
theorem scan_reverse (hlt : h < 8) (he : ∀ i, p ≤ i → e i = scan size k left p h d i) (i : Nat) :
    scan size (fun p => -k p) left p h e i = if i < p then e i else d i := by
  induction left generalizing p h d e with
  | zero =>
    rw [scan]
    split
    · rfl
    · exact he i (by omega)
  | succ left ih =>
    -- a turn that moves on by one byte and leaves the buffer alone
    have hone : ∀ h', h' < 8 → (∀ i, p ≤ i → e i = scan size k left (p + 1) h' d i) →
        scan size (fun p => -k p) left (p + 1) h' e i = if i < p then e i else d i := by
      intro h' hlt' he'
      rw [ih hlt' fun i hi => he' i (by omega)]
      by_cases hip : i < p
      · rw [if_pos (by omega), if_pos hip]
      · rw [if_neg hip]
        split
        · have hi : i = p := by omega
          rw [hi, he' p le_rfl, scan_before (by omega)]
        · rfl
    rw [scan]
    by_cases hend : size - p < 5
    · rw [if_pos hend]
      split
      · rfl
      · rw [he i (by omega), scan, if_pos hend]
    rw [if_neg hend]
    by_cases hop : d p &&& 254 ≠ 232
    · have he' : ∀ i, p ≤ i → e i = scan size k left (p + 1) ((h <<< 1) &&& 7) d i := by
        intro i hi
        rw [he i hi, scan, if_neg hend, if_pos hop]
      have hep : e p = d p := by
        rw [he' p le_rfl, scan_before (by omega)]
      rw [hep, if_pos hop]
      exact hone _ (Nat.lt_succ_of_le Nat.and_le_right) he'
    by_cases hskip : Skipped h d p
    · have he' : ∀ i, p ≤ i → e i = scan size k left (p + 1) (((h <<< 1) &&& 7) ||| 1) d i := by
        intro i hi
        rw [he i hi, scan, if_neg hend, if_neg hop, if_pos hskip]
      have hep : e p = d p := by
        rw [he' p le_rfl, scan_before (by omega)]
      have hskip' : Skipped h e p := by
        apply (skipped_congr hlt _).2 hskip
        intro j h3 hj _
        rw [he' _ (by omega), scan_next hj h3]
      rw [hep, if_neg hop, if_pos hskip']
      exact hone _ added_lt he'
    by_cases hsign : xzSignByte (d (p + 4)) = true
    · -- the window is converted, and converted back
      have he' : ∀ i, p ≤ i → e i = scan size k left (p + 5) 0
          (putTarget d p (corrected (maskWidth h) (k p) (xzU32 d (p + 1)))) i := by
        intro i hi
        rw [he i hi, scan, if_neg hend, if_neg hop, if_neg hskip, if_pos hsign]
      have hwin : ∀ i, p ≤ i → i < p + 5 → e i = putTarget d p (corrected (maskWidth h) (k p) (xzU32 d (p + 1))) i := by
        intro i h1 h2
        rw [he' i h1, scan_before (by omega)]
      have hep : e p = d p := by
        rw [hwin p le_rfl (by omega), putTarget_other (.inl (by omega))]
      have hw3 := maskWidth_le hlt
      have hsource : maskWidth h = 0 ∨ xzSignByte (tested (maskWidth h) (xzU32 d (p + 1))) = false := by
        by_cases h0 : h = 0
        · left
          rw [h0]
          rfl
        · right
          rw [tested_xzU32 (maskWidth_pos h0) hw3]
          by_contra hs
          exact hskip ⟨h0, .inr (by simpa using hs)⟩
      have hword : xzU32 e (p + 1) =
          xzU32 (putTarget d p (corrected (maskWidth h) (k p) (xzU32 d (p + 1)))) (p + 1) :=
        xzU32_congr fun j hj => hwin _ (by omega) (by omega)
      have hskip' : ¬Skipped h e p := by
        intro hs
        obtain ⟨h0, hs⟩ := hs
        have hpos := maskWidth_pos h0
        rcases hs with hmany | hs
        · exact hskip ⟨h0, .inl hmany⟩
        · rw [← tested_xzU32 hpos hw3 e p, hword, ← tested_low hpos, xzU32_putTarget, tested_low hpos,
            tested_corrected hpos hw3 (by decide) (hsource.resolve_left hpos.ne')] at hs
          cases hs
      have hsign' : xzSignByte (e (p + 4)) = true := by
        rw [hwin _ (by omega) (by omega)]
        exact putTarget_sign d p _
      have hback : (corrected (maskWidth h) (-k p) (xzU32 e (p + 1))).setWidth 25 = (xzU32 d (p + 1)).setWidth 25 := by
        have hneg : (-k p).setWidth 25 = -(k p).setWidth 25 := BitVec.setWidth_neg_of_le (by decide)
        rw [setWidth_corrected (by decide) (by decide) hw3, hword, xzU32_putTarget,
          setWidth_corrected (by decide) (by decide) hw3, hneg]
        apply corrected_back hw3 (by decide)
        by_cases h0 : maskWidth h = 0
        · exact .inl h0
        · right
          rw [tested_low (Nat.pos_of_ne_zero h0)]
          exact hsource.resolve_left h0
      have hput : ∀ i, putTarget e p (corrected (maskWidth h) (-k p) (xzU32 e (p + 1))) i =
          if p + 1 ≤ i ∧ i ≤ p + 4 then d i else e i := by
        intro i
        rw [putTarget_congr hback]
        split
        · rename_i hi
          rw [putTarget_window (d := d) hi.1 hi.2, putTarget_self hsign]
        · rename_i hi
          exact putTarget_other (by omega) _
      rw [hep, if_neg hop, if_neg hskip', if_pos hsign',
        ih (d := putTarget d p (corrected (maskWidth h) (k p) (xzU32 d (p + 1)))) (by decide)]
      · by_cases hip : i < p
        · rw [if_pos (by omega), if_pos hip, hput, if_neg (by omega)]
        · rw [if_neg hip]
          split
          · rw [hput]
            split
            · rfl
            · have hi : i = p := by omega
              rw [hi, hep]
          · exact putTarget_other (by omega) _
      · intro i hi
        rw [hput, if_neg (by omega), he' i (by omega)]
    · have he' : ∀ i, p ≤ i → e i = scan size k left (p + 1) (((h <<< 1) &&& 7) ||| 1) d i := by
        intro i hi
        rw [he i hi, scan, if_neg hend, if_neg hop, if_neg hskip, if_neg hsign]
      have hep : e p = d p := by
        rw [he' p le_rfl, scan_before (by omega)]
      have hskip' : ¬Skipped h e p := by
        intro hs
        apply hskip
        apply (skipped_congr hlt _).1 hs
        intro j h3 hj _
        rw [he' _ (by omega), scan_next hj h3]
      have hlast : (((h <<< 1) &&& 7) ||| 1).testBit 0 = true := testBit_added_zero h
      have hsign' : ¬xzSignByte (e (p + 4)) = true := by
        have hkept : xzSignByte (d (p + 1 + 3 - 0)) = false →
            xzSignByte (scan size k left (p + 1) (((h <<< 1) &&& 7) ||| 1) d (p + 1 + 3 - 0)) = false :=
          (scan_kept added_lt hlast (by decide)).1
        have hidx : p + 1 + 3 - 0 = p + 4 := by omega
        rw [hidx] at hkept
        rw [he' _ (by omega), hkept (by simpa using hsign)]
        exact Bool.false_ne_true
      rw [hep, if_neg hop, if_neg hskip', if_neg hsign']
      exact hone _ added_lt he'

/-- The scan reads nothing behind the end of its buffer. -/
theorem scan_congr (h0 : ∀ i < size, e i = d i) (hi : i < size) :
    scan size k left p h e i = scan size k left p h d i := by
  induction left generalizing p h d e with
  | zero => exact h0 i hi
  | succ left ih =>
    rw [scan, scan]
    by_cases hend : size - p < 5
    · rw [if_pos hend, if_pos hend]
      exact h0 i hi
    have hp : e p = d p := h0 p (by omega)
    have hlast : e (p + 4) = d (p + 4) := h0 _ (by omega)
    have hskip : Skipped h e p ↔ Skipped h d p := by
      have htest : e (p + 4 - maskWidth h) = d (p + 4 - maskWidth h) := h0 _ (by omega)
      rw [Skipped, Skipped, htest]
    have hword : xzU32 e (p + 1) = xzU32 d (p + 1) := xzU32_congr fun j hj => h0 _ (by omega)
    rw [if_neg hend, if_neg hend, hp, hlast, hword]
    split
    · exact ih h0
    by_cases hs : Skipped h d p
    · rw [if_pos (hskip.2 hs), if_pos hs]
      exact ih h0
    rw [if_neg fun hs' => hs (hskip.1 hs'), if_neg hs]
    split
    · apply ih
      intro j hj
      by_cases hwin : p + 1 ≤ j ∧ j ≤ p + 4
      · exact putTarget_window hwin.1 hwin.2
      · rw [putTarget_other (by omega), putTarget_other (by omega)]
        exact h0 j hj
    · exact ih h0

/-- The filter returns after at most two rounds of each correction, the opposite scan undoes it, and it tells any
two buffers of one size apart. -/
theorem xzX86_reversible (size : Nat) (start : BitVec 32) :
    (∀ (rounds : Nat) (d : Buffer), 2 ≤ rounds → ∃ out, xzX86 rounds d size start = some out ∧
        xzX86 2 d size start = some out ∧ xzX86Reverse rounds out size start = some d) ∧
      ∀ (d d' out out' : Buffer), xzX86 2 d size start = some out → xzX86 2 d' size start = some out' →
        (∀ i < size, out i = out' i) → ∀ i < size, d i = d' i := by
  have hforth : ∀ (n : Nat) (d : Buffer), xzX86 (n + 2) d size start =
      some (scan size (fun p => -(start + BitVec.ofNat 32 p + 5)) size 0 0 d) := by
    intro n d
    apply xzScan_eq _ n (by decide) (by decide)
    intro p x
    exact BitVec.sub_eq_add_neg _ _
  have hback : ∀ (n : Nat) (d : Buffer), xzX86Reverse (n + 2) d size start =
      some (scan size (fun p => start + BitVec.ofNat 32 p + 5) size 0 0 d) :=
    fun n d => xzScan_eq (fun p x => rfl) n (by decide) (by decide)
  have hundo : ∀ (d e : Buffer),
      (∀ i, e i = scan size (fun p => -(start + BitVec.ofNat 32 p + 5)) size 0 0 d i) →
      scan size (fun p => start + BitVec.ofNat 32 p + 5) size 0 0 e = d := by
    intro d e he
    have hrev := fun i => scan_reverse (h := 0) (by decide) (fun i _ => he i) i
    simp only [neg_neg, Nat.not_lt_zero, if_false] at hrev
    exact funext hrev
  constructor
  · intro rounds d hr
    obtain ⟨n, rfl⟩ := Nat.exists_eq_add_of_le' hr
    refine ⟨_, hforth n d, hforth 0 d, ?_⟩
    rw [hback n, hundo d _ fun _ => rfl]
  · intro d d' out out' hout hout' hsame i hi
    rw [hforth 0 d] at hout
    rw [hforth 0 d'] at hout'
    cases hout
    cases hout'
    calc
      d i = scan size (fun p => start + BitVec.ofNat 32 p + 5) size 0 0
          (scan size (fun p => -(start + BitVec.ofNat 32 p + 5)) size 0 0 d) i := by
        rw [hundo d _ fun _ => rfl]
      _ = scan size (fun p => start + BitVec.ofNat 32 p + 5) size 0 0
          (scan size (fun p => -(start + BitVec.ofNat 32 p + 5)) size 0 0 d') i := scan_congr hsame hi
      _ = d' i := by
        rw [hundo d' _ fun _ => rfl]

end Reversal

end Lebirun.Xz
