import Mathlib
import Lebirun.Fat.Volume

namespace Lebirun.Fat
set_option autoImplicit true

section Entries

/-! An entry among the bytes of a table, beginning at byte `i`. -/

def entryAt (bits c : Nat) (p : Bytes) (i : Nat) : Nat :=
  if bits = 32 then fatGet32 p i % 2 ^ 28
  else if bits = 16 then fatGet16 p i
  else if c % 2 = 1 then fatGet16 p i / 2 ^ 4
  else fatGet16 p i % 2 ^ 12

/-- The bytes `fat_patch_entry` stores, each cut to eight bits. -/
def newEntry (bits c value : Nat) (sec : Bytes) (off : Nat) : List Nat :=
  if bits = 32 then
    let value := value % 2 ^ 28 + 2 ^ 28 * (fatGet32 sec off / 2 ^ 28)
    [value, value / 2 ^ 8, value / 2 ^ 16, value / 2 ^ 24]
  else if bits = 16 then [value, value / 2 ^ 8]
  else if c % 2 = 1 then [(sec off).toNat % 2 ^ 4 + 2 ^ 4 * (value % 2 ^ 4), value / 2 ^ 4]
  else [value, 2 ^ 4 * ((sec (off + 1)).toNat / 2 ^ 4) + value / 2 ^ 8 % 2 ^ 4]

def putBytes (sec : Bytes) (off : Nat) (bytes : List Nat) : Bytes := fun i =>
  if off ≤ i ∧ i < off + bytes.length then UInt8.ofNat (bytes.getD (i - off) 0) else sec i

def patched (bits c value : Nat) (sec : Bytes) (off : Nat) : Bytes :=
  putBytes sec off (newEntry bits c value sec off)

end Entries

/-- The disk by sectors, and the buffer of two sectors with the number of the first, or `~0`. -/
structure FatVol where
  disk : Nat → Bytes
  fbufLba : Nat
  fbuf : Bytes

abbrev noLba : Nat := 2 ^ 64 - 1

/-- The end of the cluster numbers, in 32 bits. -/
def FatFs.bound (fs : FatFs) : Nat := (fs.clusterCount + 2) % 2 ^ 32

section Operations

variable (fs : FatFs)

/-- `fat_inval`, of which the buffer for directories is left out. -/
def fatInval (vol : FatVol) (lba n : Nat) : FatVol :=
  if lba ≤ (vol.fbufLba + 1) % 2 ^ 64 ∧ vol.fbufLba < (lba + n) % 2 ^ 64 then { vol with fbufLba := noLba }
  else vol

def fatWriteLba (vol : FatVol) (lba : Nat) (buf : Bytes) : FatVol :=
  let vol := fatInval vol lba 1
  { vol with disk := Function.update vol.disk lba buf }

/-- What `fat_read_lba_range` reads from `lba` on. -/
def readRange (disk : Nat → Bytes) (lba : Nat) : Bytes := fun i => disk (lba + i / fs.bps) (i % fs.bps)

def fatNextCluster (vol : FatVol) (cluster : Nat) : Nat × FatVol :=
  if cluster < 2 ∨ fs.bound ≤ cluster then (1, vol)
  else
    match fatTableLba fs cluster with
    | (lba, off) =>
      if (vol.fbufLba + 1) % 2 ^ 64 = lba ∧ off + 4 ≤ fs.bps then
        (entryAt fs.fatBits cluster vol.fbuf (fs.bps + off), vol)
      else
        let vol := if vol.fbufLba ≠ lba then { vol with fbuf := readRange fs vol.disk lba, fbufLba := lba } else vol
        (entryAt fs.fatBits cluster vol.fbuf off, vol)

def fatPatchEntry (sec : Bytes) (cluster off value : Nat) : Option Bytes :=
  if cluster < 2 ∨ fs.bound ≤ cluster then none
  else if fs.fatBits = 32 then
    if fs.bps < off + 4 then none else some (patched fs.fatBits cluster value sec off)
  else if fs.fatBits = 16 then
    if fs.bps < off + 2 then none else some (patched fs.fatBits cluster value sec off)
  else if fs.bps * 2 < off + 2 then none
  else some (patched fs.fatBits cluster value sec off)

/-- One turn of the loop of `fat_set_next`; the scratch buffer has the sector and, for an entry that crosses into it,
the next one. -/
def fatSetCopy (vol : FatVol) (cluster value f : Nat) : Option FatVol :=
  match fatTableLba fs cluster with
  | (lba, off) =>
    let crossing : Bool := fs.fatBits = 12 ∧ fs.bps < off + 2
    let flba := lba + f * fs.fatSectors
    let scratch := readRange fs vol.disk flba
    match fatPatchEntry fs scratch cluster off value with
    | none => none
    | some scratch =>
      let vol := fatWriteLba vol flba scratch
      if crossing then some (fatWriteLba vol (flba + 1) fun i => scratch (fs.bps + i)) else some vol

/-- `left` copies from copy `f` on. -/
def fatSetCopies (cluster value : Nat) : Nat → Nat → FatVol → Option FatVol
  | 0, _, vol => some vol
  | left + 1, f, vol => (fatSetCopy fs vol cluster value f).bind (fatSetCopies cluster value left (f + 1))

/-- `fat_set_next`; none is the answer -1. -/
def fatSetNext (vol : FatVol) (cluster value : Nat) : Option FatVol :=
  if cluster < 2 ∨ fs.bound ≤ cluster then none else fatSetCopies fs cluster value fs.fats 0 vol

end Operations

section Bytes

variable {bits c c' value i k e n : Nat} {p q sec : Bytes}

theorem fatGet16_congr (h : ∀ j < 2, p (i + j) = q (k + j)) : fatGet16 p i = fatGet16 q k := by
  have h0 : p i = q k := h 0 (by decide)
  have h1 : p (i + 1) = q (k + 1) := h 1 (by decide)
  rw [fatGet16, fatGet16, h0, h1]

theorem fatGet32_congr (h : ∀ j < 4, p (i + j) = q (k + j)) : fatGet32 p i = fatGet32 q k := by
  have h0 : p i = q k := h 0 (by decide)
  have h1 : p (i + 1) = q (k + 1) := h 1 (by decide)
  have h2 : p (i + 2) = q (k + 2) := h 2 (by decide)
  have h3 : p (i + 3) = q (k + 3) := h 3 (by decide)
  rw [fatGet32, fatGet32, h0, h1, h2, h3]

theorem entryAt_congr (h : ∀ j < fatEntryBytes bits, p (i + j) = q (k + j)) : entryAt bits c p i = entryAt bits c q k := by
  rw [fatEntryBytes] at h
  rw [entryAt, entryAt]
  by_cases h32 : bits = 32
  · rw [if_pos h32] at h
    rw [if_pos h32, if_pos h32, fatGet32_congr h]
  · rw [if_neg h32] at h
    rw [if_neg h32, if_neg h32, fatGet16_congr h]

theorem newEntry_congr (h : ∀ j < fatEntryBytes bits, p (i + j) = q (k + j)) :
    newEntry bits c value p i = newEntry bits c value q k := by
  rw [fatEntryBytes] at h
  rw [newEntry, newEntry]
  by_cases h32 : bits = 32
  · rw [if_pos h32] at h
    rw [if_pos h32, if_pos h32, fatGet32_congr h]
  · rw [if_neg h32] at h
    have h0 : p i = q k := h 0 (by decide)
    have h1 : p (i + 1) = q (k + 1) := h 1 (by decide)
    rw [if_neg h32, if_neg h32, h0, h1]

theorem newEntry_length (bits c value : Nat) (sec : Bytes) (off : Nat) :
    (newEntry bits c value sec off).length = fatEntryBytes bits := by
  rw [newEntry, fatEntryBytes]
  by_cases h32 : bits = 32
  · rw [if_pos h32, if_pos h32]
    rfl
  rw [if_neg h32, if_neg h32]
  split
  · rfl
  split
  · rfl
  · rfl

theorem patched_inside (value : Nat) (hk : k < fatEntryBytes bits) :
    patched bits c value p i (i + k) = UInt8.ofNat ((newEntry bits c value p i).getD k 0) := by
  rw [patched, putBytes, newEntry_length, if_pos (by omega), Nat.add_sub_cancel_left]

/-- Only the bytes of an entry are touched. -/
theorem patched_outside (value : Nat) (hk : k < i ∨ i + fatEntryBytes bits ≤ k) : patched bits c value p i k = p k := by
  rw [patched, putBytes, newEntry_length, if_neg (by omega)]

theorem ofNat_toNat (n : Nat) : (UInt8.ofNat n).toNat = n % 2 ^ 8 := UInt8.toNat_ofNat'

theorem fatGet16_patched (hbits : bits ≠ 32) (value : Nat) :
    fatGet16 (patched bits c value p i) i =
      (newEntry bits c value p i).getD 0 0 % 2 ^ 8 + 2 ^ 8 * ((newEntry bits c value p i).getD 1 0 % 2 ^ 8) := by
  have hbytes : fatEntryBytes bits = 2 := if_neg hbits
  have h0 := @patched_inside bits c i 0 p value (by rw [hbytes]; decide)
  have h1 := @patched_inside bits c i 1 p value (by rw [hbytes]; decide)
  rw [Nat.add_zero] at h0
  rw [fatGet16, h0, h1, ofNat_toNat, ofNat_toNat]

theorem fatGet32_patched (value : Nat) :
    fatGet32 (patched 32 c value p i) i = value % 2 ^ 28 + 2 ^ 28 * (fatGet32 p i / 2 ^ 28) := by
  have h0 := @patched_inside 32 c i 0 p value (by decide)
  have h1 := @patched_inside 32 c i 1 p value (by decide)
  have h2 := @patched_inside 32 c i 2 p value (by decide)
  have h3 := @patched_inside 32 c i 3 p value (by decide)
  have hlt := fatGet32_lt p i
  rw [Nat.add_zero] at h0
  rw [fatGet32, h0, h1, h2, h3, ofNat_toNat, ofNat_toNat, ofNat_toNat, ofNat_toNat, newEntry, if_pos rfl]
  simp only [List.getD_cons_zero, List.getD_cons_succ]
  generalize fatGet32 p i = old at hlt
  omega

theorem newEntry_twelve (value : Nat) : newEntry 12 c value p i =
    if c % 2 = 1 then [(p i).toNat % 2 ^ 4 + 2 ^ 4 * (value % 2 ^ 4), value / 2 ^ 4]
    else [value, 2 ^ 4 * ((p (i + 1)).toNat / 2 ^ 4) + value / 2 ^ 8 % 2 ^ 4] := by
  rw [newEntry, if_neg (by decide), if_neg (by decide)]

theorem entryAt_twelve : entryAt 12 c p i =
    if c % 2 = 1 then fatGet16 p i / 2 ^ 4 else fatGet16 p i % 2 ^ 12 := by
  rw [entryAt, if_neg (by decide), if_neg (by decide)]

/-- The entry written is the one read back, cut to its width. -/
theorem entryAt_patched (hbits : bits = 12 ∨ bits = 16 ∨ bits = 32) (value : Nat) :
    entryAt bits c (patched bits c value p i) i = value % 2 ^ (if bits = 32 then 28 else bits) := by
  have hp := (p i).toNat_lt
  have hp1 := (p (i + 1)).toNat_lt
  obtain rfl | rfl | rfl := hbits
  · change entryAt 12 c _ i = value % 2 ^ 12
    rw [entryAt_twelve, fatGet16_patched (by decide), newEntry_twelve]
    by_cases hodd : c % 2 = 1
    · simp only [if_pos hodd, List.getD_cons_zero, List.getD_cons_succ]
      omega
    · simp only [if_neg hodd, List.getD_cons_zero, List.getD_cons_succ]
      omega
  · change entryAt 16 c _ i = value % 2 ^ 16
    rw [entryAt, if_neg (by decide), if_pos rfl, fatGet16_patched (by decide), newEntry, if_neg (by decide), if_pos rfl]
    simp only [List.getD_cons_zero, List.getD_cons_succ]
    omega
  · change entryAt 32 c _ i = value % 2 ^ 28
    rw [entryAt, if_pos rfl, fatGet32_patched]
    omega

/-- Two entries of twelve bits share a byte when they are the two of a pair. -/
theorem fatEntryByte_pair (hne : c' ≠ c) :
    (∀ j < 2, fatEntryByte 12 c' + j < fatEntryByte 12 c ∨ fatEntryByte 12 c + 2 ≤ fatEntryByte 12 c' + j) ∨
      (c % 2 = 0 ∧ c' % 2 = 1 ∧ fatEntryByte 12 c' = fatEntryByte 12 c + 1) ∨
      (c % 2 = 1 ∧ c' % 2 = 0 ∧ fatEntryByte 12 c = fatEntryByte 12 c' + 1) := by
  have hbyte : ∀ c, fatEntryByte 12 c = c + c / 2 := fun c => rfl
  rw [hbyte, hbyte]
  by_cases hup : c % 2 = 0 ∧ c' = c + 1
  · right
    left
    omega
  by_cases hdown : c % 2 = 1 ∧ c = c' + 1
  · right
    right
    omega
  left
  intro j hj
  omega

/-- The other entries stay, also the one that shares a byte. -/
theorem entryAt_patched_other (hbits : bits = 12 ∨ bits = 16 ∨ bits = 32) (hne : c' ≠ c) (value : Nat) :
    entryAt bits c' (patched bits c value p (fatEntryByte bits c)) (fatEntryByte bits c') =
      entryAt bits c' p (fatEntryByte bits c') := by
  obtain rfl | rfl | rfl := hbits
  · obtain hapart | ⟨heven, hodd, hbyte⟩ | ⟨hodd, heven, hbyte⟩ := fatEntryByte_pair hne
    · apply entryAt_congr
      intro j hj
      exact patched_outside value (hapart j hj)
    · have hlow := @patched_inside 12 c (fatEntryByte 12 c) 1 p value (by decide)
      have hhigh := @patched_outside 12 c (fatEntryByte 12 c) (fatEntryByte 12 c + 1 + 1) p value
        (Or.inr (Nat.le_refl (fatEntryByte 12 c + 2)))
      rw [newEntry_twelve, if_neg (by omega)] at hlow
      rw [entryAt_twelve, entryAt_twelve, if_pos hodd, if_pos hodd, hbyte, fatGet16, fatGet16, hlow, hhigh, ofNat_toNat]
      have hp := (p (fatEntryByte 12 c + 1)).toNat_lt
      simp only [List.getD_cons_zero, List.getD_cons_succ]
      omega
    · have hlow := @patched_outside 12 c (fatEntryByte 12 c) (fatEntryByte 12 c') p value (Or.inl (by omega))
      have hhigh := @patched_inside 12 c (fatEntryByte 12 c) 0 p value (by decide)
      rw [newEntry_twelve, if_pos hodd, Nat.add_zero] at hhigh
      rw [entryAt_twelve, entryAt_twelve, if_neg (by omega), if_neg (by omega), fatGet16, fatGet16, hlow, ← hbyte, hhigh,
        ofNat_toNat]
      have hp := (p (fatEntryByte 12 c)).toNat_lt
      simp only [List.getD_cons_zero]
      omega
  · have hbyte : ∀ c, fatEntryByte 16 c = c * 2 := fun c => rfl
    apply entryAt_congr
    intro j hj
    apply patched_outside
    change j < 2 at hj
    change _ ∨ fatEntryByte 16 c + 2 ≤ _
    rw [hbyte, hbyte]
    omega
  · have hbyte : ∀ c, fatEntryByte 32 c = c * 4 := fun c => rfl
    apply entryAt_congr
    intro j hj
    apply patched_outside
    change j < 4 at hj
    change _ ∨ fatEntryByte 32 c + 4 ≤ _
    rw [hbyte, hbyte]
    omega

end Bytes

section Copies

variable {fs : FatFs} {vol vol' : FatVol} {d d' : Nat → Bytes} {c f f' k s v e w : Nat}

/-- What the table code needs of a volume, as it is after the mount. -/
structure FatFs.Regular (fs : FatFs) : Prop where
  bits : fs.fatBits = 12 ∨ fs.fatBits = 16 ∨ fs.fatBits = 32
  bps_pos : 0 < fs.bps
  bps_dvd : 4 ∣ fs.bps
  fats_pos : 0 < fs.fats
  reserved_pos : 0 < fs.reserved
  room : ∀ c < fs.bound, ∀ j < fatEntryBytes fs.fatBits, fatEntryByte fs.fatBits c + j < fs.fatSectors * fs.bps
  small : fs.reserved + fs.fats * fs.fatSectors + 2 < noLba

/-- Byte `k` of copy `f` of the table. -/
def fatByte (fs : FatFs) (d : Nat → Bytes) (f : Nat) : Bytes :=
  fun k => d (fs.reserved + f * fs.fatSectors + k / fs.bps) (k % fs.bps)

/-- A sector of a copy is in one copy only. -/
theorem copy_sector (hs : s < fs.fatSectors) (hk : k < fs.fatSectors)
    (h : fs.reserved + f' * fs.fatSectors + k = fs.reserved + f * fs.fatSectors + s) : f' = f ∧ k = s := by
  have hsum : k + fs.fatSectors * f' = s + fs.fatSectors * f := by
    rw [Nat.mul_comm, Nat.mul_comm fs.fatSectors f]
    omega
  have hpos : 0 < fs.fatSectors := Nat.zero_lt_of_lt hs
  have hcopy := congrArg (· / fs.fatSectors) hsum
  simp only [Nat.add_mul_div_left _ _ hpos, Nat.div_eq_of_lt hk, Nat.div_eq_of_lt hs, Nat.zero_add] at hcopy
  refine ⟨hcopy, ?_⟩
  rw [hcopy] at hsum
  omega

theorem readRange_eq (hb : 0 < fs.bps) (e f i : Nat) :
    readRange fs d (fs.reserved + e / fs.bps + f * fs.fatSectors) i = fatByte fs d f (fs.bps * (e / fs.bps) + i) := by
  rw [readRange, fatByte, Nat.mul_add_div hb, Nat.mul_add_mod]
  congr 1
  omega

/-- The sectors an entry was patched in are written back into one copy. -/
theorem fatByte_written (h : fs.Regular) {S : Bytes} {value n : Nat} (hn : n = fatEntryBytes fs.fatBits)
    (hroom : e % fs.bps + n ≤ w * fs.bps) (hlast : e / fs.bps + w ≤ fs.fatSectors)
    (hS : ∀ i, S i = patched fs.fatBits c value (fatByte fs d f) e (fs.bps * (e / fs.bps) + i))
    (hd : ∀ s i, d' s i = if fs.reserved + e / fs.bps + f * fs.fatSectors ≤ s ∧
        s < fs.reserved + e / fs.bps + f * fs.fatSectors + w
      then S (fs.bps * (s - (fs.reserved + e / fs.bps + f * fs.fatSectors)) + i) else d s i)
    (hk : k < fs.fatSectors * fs.bps) :
    fatByte fs d' f' k = if f' = f then patched fs.fatBits c value (fatByte fs d f) e k else fatByte fs d f' k := by
  have hb := h.bps_pos
  have hsector : k / fs.bps < fs.fatSectors := (Nat.div_lt_iff_lt_mul hb).mpr hk
  have hsplit : fs.bps * (k / fs.bps) + k % fs.bps = k := Nat.div_add_mod k fs.bps
  rw [fatByte, hd]
  split
  · rename_i hin
    obtain ⟨a, ha⟩ : ∃ a, k / fs.bps + f' * fs.fatSectors = e / fs.bps + a + f * fs.fatSectors ∧ a < w := by
      refine ⟨k / fs.bps + f' * fs.fatSectors - (e / fs.bps + f * fs.fatSectors), ?_, ?_⟩
      · omega
      · omega
    obtain ⟨rfl, hka⟩ := @copy_sector fs f f' (k / fs.bps) (e / fs.bps + a) (by omega) hsector (by omega)
    rw [if_pos rfl, hS]
    congr 1
    have hoff : fs.reserved + f' * fs.fatSectors + k / fs.bps - (fs.reserved + e / fs.bps + f' * fs.fatSectors) = a := by
      omega
    rw [hoff, ← Nat.add_assoc, ← Nat.mul_add, ← hka, hsplit]
  · rename_i hout
    split
    · rename_i hf
      subst hf
      rw [patched_outside]
      · rfl
      -- the bytes of the entry are all in the sectors that were written
      by_contra hin
      rw [not_or, not_lt, not_le, ← hn] at hin
      apply hout
      have hesplit : fs.bps * (e / fs.bps) + e % fs.bps = e := Nat.div_add_mod e fs.bps
      have hlow : e / fs.bps ≤ k / fs.bps := Nat.div_le_div_right hin.1
      have hhigh : k / fs.bps < e / fs.bps + w := by
        rw [Nat.div_lt_iff_lt_mul hb, Nat.add_mul, Nat.mul_comm (e / fs.bps)]
        omega
      omega
    · rfl

/-- The buffer holds what the disk has in the two sectors it says. -/
structure FatVol.Coherent (fs : FatFs) (vol : FatVol) : Prop where
  small : vol.fbufLba ≤ noLba
  buffered : vol.fbufLba ≠ noLba →
    vol.fbufLba + 2 < 2 ^ 64 ∧ ∀ i < 2 * fs.bps, vol.fbuf i = readRange fs vol.disk vol.fbufLba i

theorem fatWriteLba_disk (vol : FatVol) (lba : Nat) (buf : Bytes) :
    (fatWriteLba vol lba buf).disk = Function.update vol.disk lba buf := by
  rw [fatWriteLba, fatInval]
  split
  · rfl
  · rfl

/-- A write to either of the buffered sectors empties the buffer. -/
theorem FatVol.Coherent.write (h : vol.Coherent fs) (hb : 0 < fs.bps) (lba : Nat) (buf : Bytes) :
    (fatWriteLba vol lba buf).Coherent fs := by
  rw [fatWriteLba, fatInval]
  split
  · exact ⟨le_rfl, fun hne => absurd rfl hne⟩
  · rename_i hkeep
    refine ⟨h.small, fun hne => ?_⟩
    obtain ⟨hsmall, hbuf⟩ := h.buffered hne
    refine ⟨hsmall, fun i hi => ?_⟩
    have hne0 : vol.fbufLba ≠ lba := by
      intro heq
      apply hkeep
      rw [Nat.mod_eq_of_lt (by omega), Nat.mod_eq_of_lt (by omega)]
      omega
    have hne1 : vol.fbufLba + 1 ≠ lba := by
      intro heq
      apply hkeep
      rw [Nat.mod_eq_of_lt (by omega), Nat.mod_eq_of_lt (by omega)]
      omega
    have hsector : i / fs.bps < 2 := (Nat.div_lt_iff_lt_mul hb).mpr hi
    have hother : vol.fbufLba + i / fs.bps ≠ lba := by
      obtain hz | ho := Nat.le_one_iff_eq_zero_or_eq_one.mp (Nat.le_of_lt_succ hsector)
      · rw [hz]
        exact hne0
      · rw [ho]
        exact hne1
    rw [hbuf i hi, readRange, readRange]
    dsimp only
    rw [Function.update_of_ne hother]

theorem fatTableLba_eq (fs : FatFs) (c : Nat) : fatTableLba fs c =
    (fs.reserved + fatEntryByte fs.fatBits c / fs.bps, fatEntryByte fs.fatBits c % fs.bps) := rfl

/-- An entry of two or four bytes does not cross a sector. -/
theorem entry_aligned (h : fs.Regular) (hbits : fs.fatBits ≠ 12) :
    fatEntryByte fs.fatBits c % fs.bps + fatEntryBytes fs.fatBits ≤ fs.bps := by
  obtain ⟨m, hm⟩ := h.bps_dvd
  have hb := h.bps_pos
  have hlt := Nat.mod_lt (fatEntryByte fs.fatBits c) hb
  obtain h12 | h16 | h32 := h.bits
  · exact absurd h12 hbits
  · have hmod : fatEntryByte fs.fatBits c % fs.bps % 2 = 0 := by
      rw [Nat.mod_mod_of_dvd _ ⟨2 * m, by omega⟩, h16]
      exact Nat.mul_mod_left c 2
    have hbytes : fatEntryBytes fs.fatBits = 2 := by
      rw [h16]
      rfl
    omega
  · have hmod : fatEntryByte fs.fatBits c % fs.bps % 4 = 0 := by
      rw [Nat.mod_mod_of_dvd _ h.bps_dvd, h32]
      exact Nat.mul_mod_left c 4
    have hbytes : fatEntryBytes fs.fatBits = 4 := by
      rw [h32]
      rfl
    omega

theorem fatPatchEntry_eq (h : fs.Regular) (hc : 2 ≤ c) (hbound : c < fs.bound) (sec : Bytes) (value : Nat) :
    fatPatchEntry fs sec c (fatEntryByte fs.fatBits c % fs.bps) value =
      some (patched fs.fatBits c value sec (fatEntryByte fs.fatBits c % fs.bps)) := by
  have hb := h.bps_pos
  have hlt := Nat.mod_lt (fatEntryByte fs.fatBits c) hb
  rw [fatPatchEntry, if_neg (by omega)]
  by_cases h32 : fs.fatBits = 32
  · have hfit := @entry_aligned fs c h (by omega)
    rw [fatEntryBytes, if_pos h32] at hfit
    rw [if_pos h32, if_neg (by omega)]
  rw [if_neg h32]
  by_cases h16 : fs.fatBits = 16
  · have hfit := @entry_aligned fs c h (by omega)
    rw [fatEntryBytes, if_neg h32] at hfit
    rw [if_pos h16, if_neg (by omega)]
  · rw [if_neg h16, if_neg]
    obtain ⟨m, hm⟩ := h.bps_dvd
    omega

/-- One turn patches the entry in its copy and nothing else. -/
theorem fatSetCopy_spec (h : fs.Regular) (hc : 2 ≤ c) (hbound : c < fs.bound) (hf : f < fs.fats) (value : Nat) :
    ∃ vol', fatSetCopy fs vol c value f = some vol' ∧
      (∀ f' k, k < fs.fatSectors * fs.bps → fatByte fs vol'.disk f' k =
        if f' = f then patched fs.fatBits c value (fatByte fs vol.disk f) (fatEntryByte fs.fatBits c) k
        else fatByte fs vol.disk f' k) ∧
      (∀ s, s < fs.reserved ∨ fs.reserved + fs.fats * fs.fatSectors ≤ s → vol'.disk s = vol.disk s) ∧
      (vol.Coherent fs → vol'.Coherent fs) := by
  have hb := h.bps_pos
  generalize he : fatEntryByte fs.fatBits c = e
  have hesplit : fs.bps * (e / fs.bps) + e % fs.bps = e := Nat.div_add_mod e fs.bps
  have hlt : e % fs.bps < fs.bps := Nat.mod_lt e hb
  have hcopy : f * fs.fatSectors + fs.fatSectors ≤ fs.fats * fs.fatSectors := by
    rw [← Nat.succ_mul]
    exact Nat.mul_le_mul_right _ hf
  have hlastbyte := h.room c hbound
  rw [he] at hlastbyte
  have hsector : fs.reserved ≤ fs.reserved + e / fs.bps := Nat.le_add_right _ _
  have hbytes : 2 ≤ fatEntryBytes fs.fatBits := by
    rw [fatEntryBytes]
    split
    · decide
    · decide
  -- what is written is the patched copy, seen from the first sector of the entry on
  have hS : ∀ i, patched fs.fatBits c value
      (readRange fs vol.disk (fs.reserved + e / fs.bps + f * fs.fatSectors)) (e % fs.bps) i =
        patched fs.fatBits c value (fatByte fs vol.disk f) e (fs.bps * (e / fs.bps) + i) := by
    intro i
    have hsame : ∀ j < fatEntryBytes fs.fatBits,
        readRange fs vol.disk (fs.reserved + e / fs.bps + f * fs.fatSectors) (e % fs.bps + j) =
          fatByte fs vol.disk f (e + j) := by
      intro j _
      rw [readRange_eq hb, ← Nat.add_assoc, hesplit]
    rw [patched, patched, putBytes, putBytes, newEntry_congr hsame, newEntry_length]
    by_cases hin : e % fs.bps ≤ i ∧ i < e % fs.bps + fatEntryBytes fs.fatBits
    · rw [if_pos hin, if_pos (by omega)]
      congr 2
      omega
    · rw [if_neg hin, if_neg (by omega), readRange_eq hb]
  have hpatch := fatPatchEntry_eq h hc hbound (readRange fs vol.disk (fs.reserved + e / fs.bps + f * fs.fatSectors)) value
  rw [he] at hpatch
  rw [fatSetCopy, fatTableLba_eq, he]
  dsimp only
  rw [hpatch]
  dsimp only
  generalize patched fs.fatBits c value (readRange fs vol.disk (fs.reserved + e / fs.bps + f * fs.fatSectors))
    (e % fs.bps) = S at hS
  by_cases hcross : fs.fatBits = 12 ∧ fs.bps < e % fs.bps + 2
  · rw [if_pos (decide_eq_true hcross)]
    have htwo : fatEntryBytes fs.fatBits = 2 := by
      rw [hcross.1]
      rfl
    have hlast : e / fs.bps + 2 ≤ fs.fatSectors := by
      have hroom := hlastbyte 1 (by omega)
      have hnext : e + 1 = fs.bps * (e / fs.bps + 1) := by
        rw [Nat.mul_succ]
        omega
      rw [hnext, Nat.mul_comm fs.fatSectors] at hroom
      exact Nat.lt_of_mul_lt_mul_left hroom
    refine ⟨_, rfl, ?_, ?_, ?_⟩
    · intro f' k hk
      refine @fatByte_written fs vol.disk _ c f f' k e 2 h _ value 2 htwo.symm (by omega) hlast hS ?_ hk
      intro s i
      rw [fatWriteLba_disk, fatWriteLba_disk]
      by_cases hsecond : s = fs.reserved + e / fs.bps + f * fs.fatSectors + 1
      · rw [hsecond, Function.update_self, if_pos (by omega), Nat.add_sub_cancel_left, Nat.mul_one]
      rw [Function.update_of_ne hsecond]
      by_cases hfirst : s = fs.reserved + e / fs.bps + f * fs.fatSectors
      · rw [hfirst, Function.update_self, if_pos (by omega), Nat.sub_self, Nat.mul_zero, Nat.zero_add]
      · rw [Function.update_of_ne hfirst, if_neg (by omega)]
    · intro s hs
      rw [fatWriteLba_disk, fatWriteLba_disk, Function.update_of_ne (by omega), Function.update_of_ne (by omega)]
    · intro hcoherent
      exact (hcoherent.write hb _ _).write hb _ _
  · rw [if_neg (by simpa using hcross)]
    have hroom : e % fs.bps + fatEntryBytes fs.fatBits ≤ fs.bps := by
      by_cases h12 : fs.fatBits = 12
      · have htwo : fatEntryBytes fs.fatBits = 2 := by
          rw [h12]
          rfl
        omega
      · rw [← he]
        exact entry_aligned h h12
    have hlast : e / fs.bps + 1 ≤ fs.fatSectors := by
      have hfirst := hlastbyte 0 (by omega)
      exact (Nat.div_lt_iff_lt_mul hb).mpr hfirst
    refine ⟨_, rfl, ?_, ?_, ?_⟩
    · intro f' k hk
      refine @fatByte_written fs vol.disk _ c f f' k e 1 h _ value _ rfl (by omega) hlast hS ?_ hk
      intro s i
      rw [fatWriteLba_disk]
      by_cases hfirst : s = fs.reserved + e / fs.bps + f * fs.fatSectors
      · rw [hfirst, Function.update_self, if_pos (by omega), Nat.sub_self, Nat.mul_zero, Nat.zero_add]
      · rw [Function.update_of_ne hfirst, if_neg (by omega)]
    · intro s hs
      rw [fatWriteLba_disk, Function.update_of_ne (by omega)]
    · intro hcoherent
      exact hcoherent.write hb _ _

theorem fatSetCopies_spec (h : fs.Regular) (hc : 2 ≤ c) (hbound : c < fs.bound) (value left : Nat)
    (hf : f + left ≤ fs.fats) :
    ∃ vol', fatSetCopies fs c value left f vol = some vol' ∧
      (∀ f' k, k < fs.fatSectors * fs.bps → fatByte fs vol'.disk f' k =
        if f ≤ f' ∧ f' < f + left then
          patched fs.fatBits c value (fatByte fs vol.disk f') (fatEntryByte fs.fatBits c) k
        else fatByte fs vol.disk f' k) ∧
      (∀ s, s < fs.reserved ∨ fs.reserved + fs.fats * fs.fatSectors ≤ s → vol'.disk s = vol.disk s) ∧
      (vol.Coherent fs → vol'.Coherent fs) := by
  induction left generalizing f vol with
  | zero =>
    refine ⟨vol, rfl, ?_, fun _ _ => rfl, fun h => h⟩
    intro f' k _
    rw [if_neg (by omega)]
  | succ left ih =>
    obtain ⟨vol₁, hone, hbytes, hother, hcoherent⟩ :=
      @fatSetCopy_spec fs vol c f h hc hbound (by omega) value
    obtain ⟨vol₂, hrest, hbytes', hother', hcoherent'⟩ := @ih vol₁ (f + 1) (by omega)
    refine ⟨vol₂, ?_, ?_, ?_, fun h => hcoherent' (hcoherent h)⟩
    · rw [fatSetCopies, hone]
      exact hrest
    · intro f' k hk
      rw [hbytes' f' k hk]
      by_cases hlater : f + 1 ≤ f' ∧ f' < f + 1 + left
      · -- the copies to come are read as they were before this turn
        have hsame : ∀ k < fs.fatSectors * fs.bps, fatByte fs vol₁.disk f' k = fatByte fs vol.disk f' k := by
          intro k hk
          rw [hbytes f' k hk, if_neg (by omega)]
        have hentry : ∀ j < fatEntryBytes fs.fatBits,
            fatByte fs vol₁.disk f' (fatEntryByte fs.fatBits c + j) =
              fatByte fs vol.disk f' (fatEntryByte fs.fatBits c + j) := by
          intro j hj
          exact hsame _ (h.room c hbound j hj)
        rw [if_pos hlater, if_pos (by omega), patched, patched, putBytes, putBytes, newEntry_congr hentry, hsame k hk]
      · rw [if_neg hlater, hbytes f' k hk]
        by_cases hnow : f' = f
        · rw [if_pos hnow, if_pos (by omega), hnow]
        · rw [if_neg hnow, if_neg (by omega)]
    · intro s hs
      rw [hother' s hs, hother s hs]

/-- `fat_set_next` patches the entry in every copy and touches nothing else. -/
theorem fatSetNext_spec (h : fs.Regular) (hc : 2 ≤ c) (hbound : c < fs.bound) (vol : FatVol) (value : Nat) :
    ∃ vol', fatSetNext fs vol c value = some vol' ∧
      (∀ f < fs.fats, ∀ k < fs.fatSectors * fs.bps, fatByte fs vol'.disk f k =
        patched fs.fatBits c value (fatByte fs vol.disk f) (fatEntryByte fs.fatBits c) k) ∧
      (∀ s, s < fs.reserved ∨ fs.reserved + fs.fats * fs.fatSectors ≤ s → vol'.disk s = vol.disk s) ∧
      (vol.Coherent fs → vol'.Coherent fs) := by
  obtain ⟨vol', hset, hbytes, hother, hcoherent⟩ :=
    @fatSetCopies_spec fs vol c 0 h hc hbound value fs.fats (Nat.le_of_eq (Nat.zero_add _))
  refine ⟨vol', ?_, ?_, hother, hcoherent⟩
  · rw [fatSetNext, if_neg (by omega)]
    exact hset
  · intro f hf k hk
    rw [hbytes f k hk, if_pos (by omega)]

/-- `fat_next_cluster` gives the entry of the first copy on the disk, whatever it has buffered. -/
theorem fatNextCluster_spec (h : fs.Regular) (hcoherent : vol.Coherent fs) (hc : 2 ≤ c) (hbound : c < fs.bound) :
    (fatNextCluster fs vol c).1 = entryAt fs.fatBits c (fatByte fs vol.disk 0) (fatEntryByte fs.fatBits c) ∧
      (fatNextCluster fs vol c).2.disk = vol.disk ∧ (fatNextCluster fs vol c).2.Coherent fs := by
  have hb := h.bps_pos
  have hsmall := h.small
  generalize he : fatEntryByte fs.fatBits c = e
  have hesplit : fs.bps * (e / fs.bps) + e % fs.bps = e := Nat.div_add_mod e fs.bps
  have hlt : e % fs.bps < fs.bps := Nat.mod_lt e hb
  have hfour : fatEntryBytes fs.fatBits ≤ 4 := by
    rw [fatEntryBytes]
    split
    · decide
    · decide
  have hbps : 4 ≤ fs.bps := Nat.le_of_dvd hb h.bps_dvd
  have hlast : e / fs.bps < fs.fatSectors := by
    have hfirst := h.room c hbound 0 (by rw [fatEntryBytes]; split <;> decide)
    rw [he] at hfirst
    exact (Nat.div_lt_iff_lt_mul hb).mpr hfirst
  have hcopies : fs.fatSectors ≤ fs.fats * fs.fatSectors := Nat.le_mul_of_pos_left _ h.fats_pos
  have hread : ∀ i, readRange fs vol.disk (fs.reserved + e / fs.bps) i = fatByte fs vol.disk 0 (fs.bps * (e / fs.bps) + i) := by
    intro i
    have heq := @readRange_eq fs vol.disk hb e 0 i
    rw [Nat.zero_mul, Nat.add_zero] at heq
    exact heq
  rw [fatNextCluster, if_neg (by omega), fatTableLba_eq, he]
  dsimp only
  split
  · rename_i hsecond
    have hbuffer : vol.fbufLba ≠ noLba := by
      intro hnone
      have hwrap := hsecond.1
      rw [hnone] at hwrap
      have hreserved := h.reserved_pos
      change 0 = fs.reserved + e / fs.bps at hwrap
      exact absurd (Nat.eq_zero_of_add_eq_zero_right hwrap.symm) hreserved.ne'
    obtain ⟨hroom, hbuf⟩ := hcoherent.buffered hbuffer
    have hlba : vol.fbufLba + 1 = fs.reserved + e / fs.bps := by
      rw [← hsecond.1, Nat.mod_eq_of_lt (by omega)]
    refine ⟨?_, rfl, hcoherent⟩
    apply entryAt_congr
    intro j hj
    have hentry : fatByte fs vol.disk 0 (e + j) = readRange fs vol.disk (fs.reserved + e / fs.bps) (e % fs.bps + j) := by
      rw [hread, ← Nat.add_assoc, hesplit]
    rw [hbuf _ (by omega), hentry, ← hlba, readRange, readRange, Nat.add_assoc fs.bps, Nat.add_div_left _ hb,
      Nat.add_mod_left]
    congr 1
    omega
  · have hfound : ∀ buf : Bytes, (∀ i < 2 * fs.bps, buf i = readRange fs vol.disk (fs.reserved + e / fs.bps) i) →
        entryAt fs.fatBits c buf (e % fs.bps) = entryAt fs.fatBits c (fatByte fs vol.disk 0) e := by
      intro buf hbuf
      apply entryAt_congr
      intro j hj
      rw [hbuf _ (by omega), hread, ← Nat.add_assoc, hesplit]
    by_cases hmiss : vol.fbufLba ≠ fs.reserved + e / fs.bps
    · rw [if_pos hmiss]
      refine ⟨hfound _ fun _ _ => rfl, rfl, ?_, fun _ => ⟨?_, fun _ _ => rfl⟩⟩
      · change fs.reserved + e / fs.bps ≤ noLba
        omega
      · change fs.reserved + e / fs.bps + 2 < 2 ^ 64
        change fs.reserved + fs.fats * fs.fatSectors + 2 < 2 ^ 64 - 1 at hsmall
        omega
    · rw [if_neg hmiss]
      have hhit : vol.fbufLba = fs.reserved + e / fs.bps := not_not.mp hmiss
      refine ⟨?_, rfl, hcoherent⟩
      apply hfound
      intro i hi
      have hbuffer : vol.fbufLba ≠ noLba := by omega
      rw [← hhit]
      exact (hcoherent.buffered hbuffer).2 i hi

end Copies

section Runs

variable {fs : FatFs} {boot : Bytes}

theorem fatMountFs_regular (h : fatMountFs boot = some fs) : fs.Regular := by
  have hm := fatMountFs_some h
  have hbits := bootFatBits_cases boot
  rw [← hm.fatBits] at hbits
  have hbps := hm.bps_range
  refine {
    bits := hbits
    bps_pos := by omega
    bps_dvd := ?_
    fats_pos := hm.fats_pos
    reserved_pos := hm.reserved_pos
    room := fun c hc j hj => entryByte_lt hbits hm.room hc hj
    small := ?_ }
  · rw [fatMountFs] at h
    obtain ⟨-, h⟩ := passed h
    obtain ⟨hpow, h⟩ := passed h
    rw [not_or, not_or, not_not] at hpow
    have hpos : bootBps boot ≠ 0 := by
      have hlow := hpow.1
      omega
    obtain ⟨k, hk⟩ := (Nat.and_sub_one_eq_zero_iff_isPowerOfTwo hpos).mp hpow.2.2
    rw [hm.bps] at hbps ⊢
    rw [hk] at hbps ⊢
    have hk2 : 2 ≤ k := by
      by_contra hsmall
      have hle : 2 ^ k ≤ 2 ^ 1 := Nat.pow_le_pow_right (by decide) (by omega)
      omega
    exact Nat.pow_dvd_pow 2 hk2
  · have hreserved : fs.reserved < 2 ^ 16 := by
      rw [hm.reserved]
      exact fatGet16_lt _ _
    have hfats : fs.fats < 2 ^ 8 := by
      rw [hm.fats]
      exact (boot 16).toNat_lt
    have hsectors : fs.fatSectors < 2 ^ 32 := by
      rw [hm.fatSectors, bootFatSz]
      split
      · exact fatGet32_lt _ _
      · exact (fatGet16_lt _ _).trans (by decide)
    have hmul : fs.fats * fs.fatSectors ≤ 2 ^ 8 * 2 ^ 32 := Nat.mul_le_mul hfats.le hsectors.le
    change fs.reserved + fs.fats * fs.fatSectors + 2 < 2 ^ 64 - 1
    omega

/-- A call of the table code, or a write of a sector by the code around it. -/
inductive FatOp where
  | next (cluster : Nat)
  | set (cluster value : Nat)
  | write (lba : Nat) (buf : Bytes)

def fatStep (fs : FatFs) (vol : FatVol) : FatOp → FatVol
  | .next cluster => (fatNextCluster fs vol cluster).2
  | .set cluster value => (fatSetNext fs vol cluster value).getD vol
  | .write lba buf => fatWriteLba vol lba buf

def fatRun (fs : FatFs) (vol : FatVol) (ops : List FatOp) : FatVol := ops.foldl (fatStep fs) vol

/-- The write of a sector that is in no copy of the table. -/
def FatOp.Outside (fs : FatFs) : FatOp → Prop
  | .write lba _ => lba < fs.reserved ∨ fs.reserved + fs.fats * fs.fatSectors ≤ lba
  | _ => True

/-- The value an operation sets a cluster to. -/
def FatOp.sets (c : Nat) : FatOp → Option Nat
  | .set cluster value => if cluster = c then some value else none
  | _ => none

def lastSet (c : Nat) : List FatOp → Option Nat
  | [] => none
  | op :: ops => (lastSet c ops).or (op.sets c)

/-- The width of an entry without the bits that are reserved. -/
def FatFs.width (fs : FatFs) : Nat := if fs.fatBits = 32 then 28 else fs.fatBits

/-- The entry of a cluster in a copy of the table. -/
def FatFs.entry (fs : FatFs) (d : Nat → Bytes) (f c : Nat) : Nat :=
  entryAt fs.fatBits c (fatByte fs d f) (fatEntryByte fs.fatBits c)

def CopiesEqual (fs : FatFs) (d : Nat → Bytes) : Prop :=
  ∀ f < fs.fats, ∀ k < fs.fatSectors * fs.bps, fatByte fs d f k = fatByte fs d 0 k

variable {vol vol' : FatVol} {c c' f : Nat} {d d' : Nat → Bytes} {ops : List FatOp}

theorem entry_congr (h : fs.Regular) (hc : c < fs.bound)
    (hd : ∀ k < fs.fatSectors * fs.bps, fatByte fs d' f k = fatByte fs d f k) : fs.entry d' f c = fs.entry d f c := by
  apply entryAt_congr
  intro j hj
  exact hd _ (h.room c hc j hj)

/-- What a change of one entry in every copy means for the entries. -/
theorem fatSetNext_entries (h : fs.Regular) (hc : 2 ≤ c) (hbound : c < fs.bound) (vol : FatVol) (value : Nat) :
    ∃ vol', fatSetNext fs vol c value = some vol' ∧
      (∀ f < fs.fats, fs.entry vol'.disk f c = value % 2 ^ fs.width) ∧
      (∀ f < fs.fats, ∀ c', c' ≠ c → c' < fs.bound → fs.entry vol'.disk f c' = fs.entry vol.disk f c') ∧
      (∀ f < fs.fats, ∀ k < fs.fatSectors * fs.bps,
        k < fatEntryByte fs.fatBits c ∨ fatEntryByte fs.fatBits c + fatEntryBytes fs.fatBits ≤ k →
          fatByte fs vol'.disk f k = fatByte fs vol.disk f k) ∧
      (fs.fatBits = 32 → ∀ f < fs.fats, fatGet32 (fatByte fs vol'.disk f) (fatEntryByte fs.fatBits c) / 2 ^ 28 =
        fatGet32 (fatByte fs vol.disk f) (fatEntryByte fs.fatBits c) / 2 ^ 28) ∧
      (∀ s, s < fs.reserved ∨ fs.reserved + fs.fats * fs.fatSectors ≤ s → vol'.disk s = vol.disk s) ∧
      (CopiesEqual fs vol.disk → CopiesEqual fs vol'.disk) ∧ (vol.Coherent fs → vol'.Coherent fs) := by
  obtain ⟨vol', hset, hbytes, hother, hcoherent⟩ := fatSetNext_spec h hc hbound vol value
  refine ⟨vol', hset, ?_, ?_, ?_, ?_, hother, ?_, hcoherent⟩
  · intro f hf
    rw [FatFs.entry, FatFs.width, ← @entryAt_patched fs.fatBits c (fatEntryByte fs.fatBits c) (fatByte fs vol.disk f) h.bits]
    apply entryAt_congr
    intro j hj
    exact hbytes f hf _ (h.room c hbound j hj)
  · intro f hf c' hne hbound'
    have hpatched : fs.entry vol'.disk f c' = entryAt fs.fatBits c'
        (patched fs.fatBits c value (fatByte fs vol.disk f) (fatEntryByte fs.fatBits c)) (fatEntryByte fs.fatBits c') := by
      apply entryAt_congr
      intro j hj
      exact hbytes f hf _ (h.room c' hbound' j hj)
    rw [hpatched]
    exact entryAt_patched_other h.bits hne value
  · intro f hf k hk hout
    rw [hbytes f hf k hk, patched_outside value hout]
  · intro h32 f hf
    have hget : fatGet32 (fatByte fs vol'.disk f) (fatEntryByte fs.fatBits c) =
        fatGet32 (patched 32 c value (fatByte fs vol.disk f) (fatEntryByte fs.fatBits c)) (fatEntryByte fs.fatBits c) := by
      apply fatGet32_congr
      intro j hj
      rw [← h32]
      apply hbytes f hf _ (h.room c hbound j _)
      rw [fatEntryBytes, if_pos h32]
      exact hj
    have hlt := fatGet32_lt (fatByte fs vol.disk f) (fatEntryByte fs.fatBits c)
    rw [hget, fatGet32_patched]
    omega
  · intro hequal f hf k hk
    have hentry : ∀ j < fatEntryBytes fs.fatBits, fatByte fs vol.disk f (fatEntryByte fs.fatBits c + j) =
        fatByte fs vol.disk 0 (fatEntryByte fs.fatBits c + j) := by
      intro j hj
      exact hequal f hf _ (h.room c hbound j hj)
    rw [hbytes f hf k hk, hbytes 0 h.fats_pos k hk, patched, patched, putBytes, putBytes, newEntry_congr hentry,
      hequal f hf k hk]

/-- A write outside the table leaves its bytes. -/
theorem fatByte_write (h : fs.Regular) {lba : Nat} (buf : Bytes) (hf : f < fs.fats)
    (hout : lba < fs.reserved ∨ fs.reserved + fs.fats * fs.fatSectors ≤ lba) {k : Nat}
    (hk : k < fs.fatSectors * fs.bps) : fatByte fs (fatWriteLba vol lba buf).disk f k = fatByte fs vol.disk f k := by
  have hsector : k / fs.bps < fs.fatSectors := (Nat.div_lt_iff_lt_mul h.bps_pos).mpr hk
  have hlow : fs.reserved ≤ fs.reserved + f * fs.fatSectors + k / fs.bps := by
    rw [Nat.add_assoc]
    exact Nat.le_add_right _ _
  have hcopy : f * fs.fatSectors + fs.fatSectors ≤ fs.fats * fs.fatSectors := by
    rw [← Nat.succ_mul]
    exact Nat.mul_le_mul_right _ hf
  rw [fatByte, fatByte, fatWriteLba_disk, Function.update_of_ne (by omega)]

/-- The buffer agrees with the disk after every operation. -/
theorem fatStep_coherent (h : fs.Regular) (hcoherent : vol.Coherent fs) (op : FatOp) :
    (fatStep fs vol op).Coherent fs := by
  cases op with
  | next c =>
    rw [fatStep]
    by_cases hc : c < 2 ∨ fs.bound ≤ c
    · rw [fatNextCluster, if_pos hc]
      exact hcoherent
    · exact (fatNextCluster_spec h hcoherent (by omega) (by omega)).2.2
  | set c value =>
    rw [fatStep]
    by_cases hc : c < 2 ∨ fs.bound ≤ c
    · rw [fatSetNext, if_pos hc]
      exact hcoherent
    · obtain ⟨vol', hset, _, _, hkeep⟩ := @fatSetNext_spec fs c h (by omega) (by omega) vol value
      rw [hset]
      exact hkeep hcoherent
  | write lba buf => exact hcoherent.write h.bps_pos lba buf

/-- One operation of a run that stays outside the table with its writes. -/
theorem fatStep_entry (h : fs.Regular) (hcoherent : vol.Coherent fs) (op : FatOp) (hop : op.Outside fs) (hc : 2 ≤ c)
    (hbound : c < fs.bound) :
    fs.entry (fatStep fs vol op).disk 0 c = ((op.sets c).map (· % 2 ^ fs.width)).getD (fs.entry vol.disk 0 c) := by
  cases op with
  | next c' =>
    rw [fatStep]
    by_cases hc' : c' < 2 ∨ fs.bound ≤ c'
    · rw [fatNextCluster, if_pos hc']
      rfl
    · rw [(@fatNextCluster_spec fs vol c' h hcoherent (by omega) (by omega)).2.1]
      rfl
  | set c' value =>
    rw [fatStep, FatOp.sets]
    by_cases hc' : c' < 2 ∨ fs.bound ≤ c'
    · rw [fatSetNext, if_pos hc', if_neg (by omega)]
      rfl
    · obtain ⟨vol', hset, hthis, hthose, _⟩ := @fatSetNext_entries fs c' h (by omega) (by omega) vol value
      rw [hset]
      by_cases heq : c' = c
      · rw [if_pos heq, ← heq]
        exact hthis 0 h.fats_pos
      · rw [if_neg heq]
        exact hthose 0 h.fats_pos c (Ne.symm heq) hbound
  | write lba buf =>
    apply entry_congr h hbound
    intro k hk
    exact fatByte_write h buf h.fats_pos hop hk

theorem fatRun_coherent (h : fs.Regular) (hcoherent : vol.Coherent fs) (ops : List FatOp) :
    (fatRun fs vol ops).Coherent fs := by
  induction ops generalizing vol with
  | nil => exact hcoherent
  | cons op ops ih => exact ih (fatStep_coherent h hcoherent op)

theorem fatRun_entry (h : fs.Regular) (hcoherent : vol.Coherent fs) (hops : ∀ op ∈ ops, op.Outside fs) (hc : 2 ≤ c)
    (hbound : c < fs.bound) :
    fs.entry (fatRun fs vol ops).disk 0 c =
      ((lastSet c ops).map (· % 2 ^ fs.width)).getD (fs.entry vol.disk 0 c) := by
  induction ops generalizing vol with
  | nil => rfl
  | cons op ops ih =>
    have hrest := ih (fatStep_coherent h hcoherent op) fun o ho => hops o (List.mem_cons_of_mem op ho)
    have hfirst := fatStep_entry h hcoherent op (hops op List.mem_cons_self) hc hbound
    change fs.entry (fatRun fs (fatStep fs vol op) ops).disk 0 c = _
    rw [hrest, lastSet]
    cases lastSet c ops with
    | some v => rfl
    | none => exact hfirst

/-- After any operations `fat_next_cluster` gives what the disk has for the entry, and that is what it was last set to if
the sectors written meanwhile are outside the table; `fat_set_next` sets the entry in every copy, cut to its width, and
leaves the other entries, the reserved bits, every other byte, and copies that are equal so. -/
theorem fat_array (h : fatMountFs boot = some fs) (d : Nat → Bytes) (buf : Bytes) (ops : List FatOp) :
    (∀ c, 2 ≤ c → c < fs.bound →
      (fatNextCluster fs (fatRun fs ⟨d, noLba, buf⟩ ops) c).1 = fs.entry (fatRun fs ⟨d, noLba, buf⟩ ops).disk 0 c ∧
      ((∀ op ∈ ops, op.Outside fs) → (fatNextCluster fs (fatRun fs ⟨d, noLba, buf⟩ ops) c).1 =
        ((lastSet c ops).map (· % 2 ^ fs.width)).getD (fs.entry d 0 c))) ∧
    ∀ c value, 2 ≤ c → c < fs.bound → ∃ vol', fatSetNext fs (fatRun fs ⟨d, noLba, buf⟩ ops) c value = some vol' ∧
      (fatNextCluster fs vol' c).1 = value % 2 ^ fs.width ∧
      (∀ f < fs.fats, fs.entry vol'.disk f c = value % 2 ^ fs.width) ∧
      (∀ f < fs.fats, ∀ c', c' ≠ c → c' < fs.bound →
        fs.entry vol'.disk f c' = fs.entry (fatRun fs ⟨d, noLba, buf⟩ ops).disk f c') ∧
      (∀ f < fs.fats, ∀ k < fs.fatSectors * fs.bps,
        k < fatEntryByte fs.fatBits c ∨ fatEntryByte fs.fatBits c + fatEntryBytes fs.fatBits ≤ k →
          fatByte fs vol'.disk f k = fatByte fs (fatRun fs ⟨d, noLba, buf⟩ ops).disk f k) ∧
      (fs.fatBits = 32 → ∀ f < fs.fats, fatGet32 (fatByte fs vol'.disk f) (fatEntryByte fs.fatBits c) / 2 ^ 28 =
        fatGet32 (fatByte fs (fatRun fs ⟨d, noLba, buf⟩ ops).disk f) (fatEntryByte fs.fatBits c) / 2 ^ 28) ∧
      (∀ s, s < fs.reserved ∨ fs.reserved + fs.fats * fs.fatSectors ≤ s →
        vol'.disk s = (fatRun fs ⟨d, noLba, buf⟩ ops).disk s) ∧
      (CopiesEqual fs (fatRun fs ⟨d, noLba, buf⟩ ops).disk → CopiesEqual fs vol'.disk) := by
  have hregular := fatMountFs_regular h
  have hstart : FatVol.Coherent fs ⟨d, noLba, buf⟩ := ⟨le_rfl, fun hne => absurd rfl hne⟩
  have hcoherent := fatRun_coherent hregular hstart ops
  constructor
  · intro c hc hbound
    have hnext := (fatNextCluster_spec hregular hcoherent hc hbound).1
    refine ⟨hnext, fun hops => ?_⟩
    rw [hnext]
    exact fatRun_entry hregular hstart hops hc hbound
  · intro c value hc hbound
    obtain ⟨vol', hset, hthis, hthose, hbytes, hbits, hother, hcopies, hkeep⟩ :=
      fatSetNext_entries hregular hc hbound (fatRun fs ⟨d, noLba, buf⟩ ops) value
    refine ⟨vol', hset, ?_, hthis, hthose, hbytes, hbits, hother, hcopies⟩
    rw [(fatNextCluster_spec hregular (hkeep hcoherent) hc hbound).1]
    exact hthis 0 hregular.fats_pos

/-- Two entries of a FAT12 volume that share a byte. -/
theorem smallVolume_array : ∃ fs, fatMountFs smallVolume = some fs ∧
    (fatNextCluster fs (fatRun fs ⟨fun _ _ => 0, noLba, fun _ => 0⟩ [.set 4 0xFFF, .set 5 0x123, .next 4]) 4).1 = 0xFFF := by
  obtain ⟨fs, hfs⟩ : ∃ fs, fatMountFs smallVolume = some fs := by
    rw [← Option.isSome_iff_exists]
    decide +kernel
  have hm := fatMountFs_some hfs
  have hbound : 4 < fs.bound := by
    rw [FatFs.bound, hm.clusterCount]
    decide +kernel
  have hwidth : fs.width = 12 := by
    rw [FatFs.width, hm.fatBits]
    decide +kernel
  refine ⟨fs, hfs, ?_⟩
  rw [((fat_array hfs (fun _ _ => 0) (fun _ => 0) [.set 4 0xFFF, .set 5 0x123, .next 4]).1 4 (by decide) hbound).2]
  · rw [hwidth]
    rfl
  · simp [FatOp.Outside]

end Runs

end Lebirun.Fat
