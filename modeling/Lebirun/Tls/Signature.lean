import Mathlib
import Lebirun.Tls.BigEndian

namespace Lebirun.Tls
set_option autoImplicit true

/-- The value of the contents of an INTEGER, in two's complement. -/
def intValue (v : Bytes) : Int :=
  if (v.headD 0).toNat < 128 then beNat v else beNat v - 256 ^ v.length

/-- Length octets of the definite form. -/
inductive LengthOctets : Bytes → Nat → Prop
  | short (b : UInt8) : b.toNat < 128 → LengthOctets [b] b.toNat
  | long (l : Bytes) : 1 ≤ l.length → l.length ≤ 4 → LengthOctets (UInt8.ofNat (128 + l.length) :: l) (beNat l)

/-- The string begins with an element of this tag and contents. -/
def Starts (tag : UInt8) (bytes val rest : Bytes) : Prop :=
  ∃ l, LengthOctets l val.length ∧ bytes = tag :: (l ++ (val ++ rest))

theorem low_bits (b : UInt8) : (b &&& 0x7F).toNat = b.toNat % 128 := by
  rw [UInt8.toNat_and]
  exact Nat.and_two_pow_sub_one_eq_mod b.toNat 7

theorem high_bit (b : UInt8) : b &&& 0x80 ≠ 0 ↔ 128 ≤ b.toNat := by
  have hall : ∀ x : Fin 256, UInt8.ofFin x &&& 0x80 ≠ 0 ↔ 128 ≤ (UInt8.ofFin x).toNat := by decide +kernel
  exact hall b.toFin

variable {v w l rest seq bytes : Bytes} {tag b : UInt8} {coord n : Nat}

/-- What `der_tlv` reads is what the string begins with. -/
theorem starts_of_derTlv (h : derTlv bytes = some t) :
    Starts t.tag bytes t.val (bytes.drop t.total) := by
  obtain _ | ⟨tag, _ | ⟨l0, rest⟩⟩ := bytes
  · cases h
  · cases h
  rw [derTlv] at h
  by_cases hform : l0 &&& 0x80 ≠ 0
  · rw [if_pos hform] at h
    generalize hk : (l0 &&& 0x7F).toNat = k at h
    have hl0 : l0 = UInt8.ofNat (128 + k) := by
      rw [high_bit] at hform
      rw [low_bits] at hk
      have hbyte := l0.toNat_lt
      have heq : l0.toNat = 128 + k := by omega
      rw [← heq, UInt8.ofNat_toNat]
    by_cases hcount : k = 0 ∨ 4 < k
    · rw [if_pos hcount] at h
      cases h
    by_cases hshort : rest.length < k
    · rw [if_neg hcount, if_pos hshort] at h
      cases h
    by_cases hval : rest.length - k < beNat (rest.take k)
    · rw [if_neg hcount, if_neg hshort, if_pos hval] at h
      cases h
    rw [if_neg hcount, if_neg hshort, if_neg hval] at h
    cases h
    have htake : (rest.take k).length = k := by
      rw [List.length_take]
      omega
    have hvlen : ((rest.drop k).take (beNat (rest.take k))).length = beNat (rest.take k) := by
      rw [List.length_take, List.length_drop]
      omega
    refine ⟨UInt8.ofNat (128 + k) :: rest.take k, ?_, ?_⟩
    · have hlong := LengthOctets.long (rest.take k) (by omega) (by omega)
      rw [htake] at hlong
      dsimp only
      rw [hvlen]
      exact hlong
    · dsimp only [Tlv.total]
      rw [hvlen, hl0, Nat.add_assoc, Nat.add_comm 2, List.drop_succ_cons, List.drop_succ_cons, ← List.drop_drop,
        List.take_append_drop, List.cons_append, List.take_append_drop]
  · rw [if_neg hform] at h
    by_cases hval : rest.length < l0.toNat
    · rw [if_pos hval] at h
      cases h
    rw [if_neg hval] at h
    cases h
    have hvlen : (rest.take l0.toNat).length = l0.toNat := by
      rw [List.length_take]
      omega
    refine ⟨[l0], ?_, ?_⟩
    · dsimp only
      rw [hvlen]
      rw [high_bit] at hform
      exact LengthOctets.short l0 (Nat.lt_of_not_le hform)
    · dsimp only [Tlv.total]
      rw [hvlen, Nat.add_comm 2, List.drop_succ_cons, List.drop_succ_cons, List.singleton_append,
        List.take_append_drop]

theorem derTlv_of_starts (h : Starts tag bytes v rest) :
    ∃ hdr, derTlv bytes = some ⟨tag, v, hdr⟩ ∧ bytes.drop (Tlv.total ⟨tag, v, hdr⟩) = rest := by
  obtain ⟨l, hlen, rfl⟩ := h
  generalize hn : v.length = n at hlen
  cases hlen with
  | short b hb =>
    refine ⟨2, ?_, ?_⟩
    · rw [List.singleton_append, derTlv, if_neg (by rw [high_bit]; omega), if_neg]
      · rw [← hn, List.take_left]
      · rw [List.length_append]
        omega
    · rw [Tlv.total, Nat.add_comm]
      dsimp only
      rw [List.singleton_append, List.drop_succ_cons, List.drop_succ_cons]
      exact List.drop_left
  | long l hlow hhigh =>
    have hbyte : (UInt8.ofNat (128 + l.length)).toNat = 128 + l.length := by
      rw [UInt8.toNat_ofNat']
      exact Nat.mod_eq_of_lt (by omega)
    have hcount : (UInt8.ofNat (128 + l.length) &&& 0x7F).toNat = l.length := by
      rw [low_bits, hbyte]
      omega
    refine ⟨2 + l.length, ?_, ?_⟩
    · rw [List.cons_append, derTlv, if_pos (by rw [high_bit]; omega), hcount, if_neg (by omega), if_neg,
        List.take_left, List.drop_left, if_neg]
      · rw [← hn, List.take_left]
      · rw [List.length_append, List.length_append]
        omega
      · rw [List.length_append]
        omega
    · rw [Tlv.total, Nat.add_assoc, Nat.add_comm 2, List.cons_append, List.drop_succ_cons, List.drop_succ_cons,
        ← List.drop_drop, List.drop_left, List.drop_left]

/-- The string begins with a SEQUENCE that begins with two INTEGERs of these contents. -/
def HoldsPair (sig rv sv : Bytes) : Prop :=
  ∃ seq after rest more, Starts 0x30 sig seq rest ∧ Starts 0x02 seq rv after ∧ Starts 0x02 after sv more

theorem derChild_zero (h : Starts tag seq v rest) : derChild seq 0 tag = some v := by
  obtain ⟨hdr, htlv, -⟩ := derTlv_of_starts h
  rw [derChild, derChildAt, htlv, Option.bind_some, if_pos rfl]

theorem derChild_one (h : Starts t seq v after) (h' : Starts tag after w rest) :
    derChild seq 1 tag = some w := by
  obtain ⟨hdr, htlv, hdrop⟩ := derTlv_of_starts h
  obtain ⟨hdr', htlv', -⟩ := derTlv_of_starts h'
  rw [derChild, derChildAt, htlv, Option.bind_some, derChildAt, hdrop, htlv', Option.bind_some, if_pos rfl]

theorem starts_of_derChild_zero (h : derChild seq 0 tag = some v) :
    ∃ t, derTlv seq = some t ∧ Starts tag seq v (seq.drop t.total) := by
  rw [derChild, derChildAt, Option.bind_eq_some_iff] at h
  obtain ⟨t, htlv, hval⟩ := h
  have hstarts := starts_of_derTlv htlv
  by_cases htag : t.tag = tag
  · rw [if_pos htag] at hval
    cases hval
    exact ⟨t, htlv, htag ▸ hstarts⟩
  · rw [if_neg htag] at hval
    cases hval

theorem starts_of_derChild_one (h : derTlv seq = some t) (h' : derChild seq 1 tag = some w) :
    ∃ more, Starts tag (seq.drop t.total) w more := by
  have hnext : derChild (seq.drop t.total) 0 tag = some w := by
    rw [derChild, derChildAt, h, Option.bind_some] at h'
    exact h'
  obtain ⟨t', -, hstarts⟩ := starts_of_derChild_zero hnext
  exact ⟨_, hstarts⟩

/-- The contents that `lebtls_ecdsa_sig_parse` does not refuse for their length. -/
def CoordLength (coord : Nat) (v : Bytes) : Prop := 1 ≤ v.length ∧ v.length ≤ coord + 1

theorem parse_of_holdsPair (h : HoldsPair sig rv sv) (hr : CoordLength coord rv) (hs : CoordLength coord sv) :
    lebtlsEcdsaSigParse sig coord = some (padCoord coord rv, padCoord coord sv) := by
  obtain ⟨seq, after, rest, more, hseq, hrv, hsv⟩ := h
  obtain ⟨hdr, htlv, -⟩ := derTlv_of_starts hseq
  obtain ⟨hr1, hr2⟩ := hr
  obtain ⟨hs1, hs2⟩ := hs
  rw [lebtlsEcdsaSigParse, htlv]
  simp only [Option.bind_eq_bind, Option.bind_some]
  rw [if_neg (by simp), derChild_zero hrv, derChild_one hrv hsv]
  simp only [Option.bind_some]
  rw [if_neg (by omega)]

theorem holdsPair_of_parse (h : lebtlsEcdsaSigParse sig coord = some (r, s)) :
    ∃ rv sv, HoldsPair sig rv sv ∧ CoordLength coord rv ∧ CoordLength coord sv ∧
      r = padCoord coord rv ∧ s = padCoord coord sv := by
  rw [lebtlsEcdsaSigParse] at h
  obtain ⟨seq, hseq, h⟩ := Option.bind_eq_some_iff.1 h
  by_cases htag : seq.tag ≠ 0x30
  · rw [if_pos htag] at h
    cases h
  rw [if_neg htag] at h
  obtain ⟨rv, hrv, h⟩ := Option.bind_eq_some_iff.1 h
  obtain ⟨sv, hsv, h⟩ := Option.bind_eq_some_iff.1 h
  by_cases hlen : rv.length = 0 ∨ coord + 1 < rv.length ∨ sv.length = 0 ∨ coord + 1 < sv.length
  · rw [if_pos hlen] at h
    cases h
  rw [if_neg hlen] at h
  cases h
  have houter := starts_of_derTlv hseq
  rw [not_not.1 htag] at houter
  obtain ⟨t, htlv, hfirst⟩ := starts_of_derChild_zero hrv
  obtain ⟨more, hsecond⟩ := starts_of_derChild_one htlv hsv
  exact ⟨rv, sv, ⟨_, _, _, _, houter, hfirst, hsecond⟩, ⟨by omega, by omega⟩, ⟨by omega, by omega⟩, rfl, rfl⟩

/-- The output is the value of the contents, on `coord` bytes. -/
def Reads (coord : Nat) (v out : Bytes) : Prop :=
  0 ≤ intValue v ∧ out.length = coord ∧ (beNat out : Int) = intValue v

/-- The sign bit is clear, and a byte more than the coordinate has is zero. -/
def Plain (coord : Nat) (v : Bytes) : Prop :=
  (v.headD 0).toNat < 128 ∧ (coord < v.length → v.headD 0 = 0)

theorem intValue_neg (h : 128 ≤ (v.headD 0).toNat) : intValue v < 0 := by
  have hlt := beNat_lt v
  rw [intValue, if_neg (by omega)]
  have hcast : (beNat v : Int) < 256 ^ v.length := by exact_mod_cast hlt
  omega

theorem padCoord_length (hv : CoordLength coord v) : (padCoord coord v).length = coord := by
  obtain ⟨hlow, hhigh⟩ := hv
  rw [padCoord]
  split
  · rw [List.length_drop]
    omega
  · rw [List.length_append, List.length_replicate]
    omega

/-- What is written when the contents have one byte too many. -/
theorem padCoord_long (h : v.length = coord) : padCoord coord (b :: v) = v := by
  have hlong : coord < (b :: v).length := by
    rw [List.length_cons]
    omega
  have hone : (b :: v).length - coord = 1 := by
    rw [List.length_cons]
    omega
  rw [padCoord, if_pos hlong, hone]
  rfl

theorem beNat_padCoord_short (h : v.length ≤ coord) : beNat (padCoord coord v) = beNat v := by
  rw [padCoord, if_neg (by omega), beNat_zeros]

/-- The coordinate written is the value of the contents exactly when they are plain. -/
theorem reads_padCoord_iff (hv : CoordLength coord v) : Reads coord v (padCoord coord v) ↔ Plain coord v := by
  have hlen := padCoord_length hv
  obtain ⟨hlow, hhigh⟩ := hv
  by_cases hsign : (v.headD 0).toNat < 128
  · have hvalue : intValue v = beNat v := by
      rw [intValue, if_pos hsign]
    obtain _ | ⟨b, w⟩ := v
    · exact absurd hlow (by decide)
    rw [List.length_cons] at hhigh
    by_cases hw : w.length = coord
    · constructor
      · intro hreads
        obtain ⟨-, -, heq⟩ := hreads
        rw [hvalue, padCoord_long hw, beNat_cons, Int.ofNat_inj] at heq
        refine ⟨hsign, fun _ => ?_⟩
        have hpos : 0 < 256 ^ w.length := Nat.pow_pos (by decide)
        have hzero : b.toNat * 256 ^ w.length = 0 := by omega
        obtain hb | hp := Nat.mul_eq_zero.1 hzero
        · exact UInt8.toNat_inj.1 hb
        · omega
      · intro hplain
        have hb : b = 0 := hplain.2 (by rw [List.length_cons]; omega)
        refine ⟨by rw [hvalue]; exact Int.natCast_nonneg _, hlen, ?_⟩
        rw [hvalue, padCoord_long hw, beNat_cons, hb]
        congr 1
        exact ((congrArg (· + beNat w) (Nat.zero_mul _)).trans (Nat.zero_add _)).symm
    · have hshort : (b :: w).length ≤ coord := by
        rw [List.length_cons]
        omega
      constructor
      · exact fun _ => ⟨hsign, fun hlong => absurd hlong (Nat.not_lt.2 hshort)⟩
      · intro _
        refine ⟨by rw [hvalue]; exact Int.natCast_nonneg _, hlen, ?_⟩
        rw [hvalue, beNat_padCoord_short hshort]
  · constructor
    · intro hreads
      exact absurd (intValue_neg (Nat.le_of_not_lt hsign)) (Int.not_lt.2 hreads.1)
    · exact fun hplain => absurd hplain.1 hsign

/-- No byte of the contents can be left out. -/
def ShortestInteger (v : Bytes) : Prop :=
  ∀ b c w, v = b :: c :: w → ¬(b = 0 ∧ c.toNat < 128) ∧ ¬(b = 0xFF ∧ 128 ≤ c.toNat)

/-- The shortest contents for a positive value that fits. -/
theorem shortest_plain (h : ShortestInteger v) (hpos : 0 < intValue v) (hlt : intValue v < 256 ^ coord) :
    CoordLength coord v ∧ Plain coord v := by
  have hsign : (v.headD 0).toNat < 128 := by
    by_contra hneg
    have := intValue_neg (Nat.le_of_not_lt hneg)
    omega
  rw [intValue, if_pos hsign] at hpos hlt
  have hlt' : beNat v < 256 ^ coord := by exact_mod_cast hlt
  -- a byte other than zero in front of `coord` bytes is too large
  have hfront : ∀ (b : UInt8) (w : Bytes), b ≠ 0 → beNat (b :: w) < 256 ^ coord → w.length < coord := by
    intro b w hb hsmall
    by_contra hlong
    have hbyte : 1 ≤ b.toNat := Nat.one_le_iff_ne_zero.2 fun hz => hb (UInt8.toNat_inj.1 hz)
    have hmul := Nat.mul_le_mul hbyte (Nat.pow_le_pow_right (by decide : 0 < 256) (Nat.le_of_not_lt hlong))
    rw [beNat_cons] at hsmall
    omega
  obtain _ | ⟨b, w⟩ := v
  · exact absurd hpos (by decide)
  by_cases hb : b = 0
  · subst hb
    refine ⟨⟨Nat.succ_le_succ (Nat.zero_le _), ?_⟩, hsign, fun _ => rfl⟩
    obtain _ | ⟨c, w⟩ := w
    · exact Nat.succ_le_succ (Nat.zero_le _)
    have hc : c ≠ 0 := by
      intro hc
      exact (h 0 c w rfl).1 ⟨rfl, by rw [hc]; decide⟩
    have hw := hfront c w hc (by rw [beNat_cons] at hlt'; omega)
    rw [List.length_cons, List.length_cons]
    omega
  · have hw := hfront b w hb hlt'
    refine ⟨⟨Nat.succ_le_succ (Nat.zero_le _), ?_⟩, hsign, fun hlong => ?_⟩
    · rw [List.length_cons]
      omega
    · rw [List.length_cons] at hlong
      omega

/-- When the string is accepted, it holds two INTEGERs and the outputs are their values. -/
def Faithful (coord : Nat) (sig : Bytes) : Prop :=
  ∀ r s, lebtlsEcdsaSigParse sig coord = some (r, s) →
    ∃ rv sv, HoldsPair sig rv sv ∧ Reads coord rv r ∧ Reads coord sv s

theorem Starts.det (h : Starts tag bytes v rest) (h' : Starts tag bytes w rest') : v = w ∧ rest = rest' := by
  obtain ⟨hdr, htlv, hdrop⟩ := derTlv_of_starts h
  obtain ⟨hdr', htlv', hdrop'⟩ := derTlv_of_starts h'
  rw [htlv] at htlv'
  cases htlv'
  exact ⟨rfl, hdrop.symm.trans hdrop'⟩

theorem HoldsPair.det (h : HoldsPair sig rv sv) (h' : HoldsPair sig rv' sv') : rv = rv' ∧ sv = sv' := by
  obtain ⟨seq, after, rest, more, hseq, hrv, hsv⟩ := h
  obtain ⟨seq', after', rest', more', hseq', hrv', hsv'⟩ := h'
  obtain ⟨rfl, -⟩ := hseq.det hseq'
  obtain ⟨rfl, rfl⟩ := hrv.det hrv'
  obtain ⟨rfl, -⟩ := hsv.det hsv'
  exact ⟨rfl, rfl⟩

theorem faithful_iff (coord : Nat) (sig : Bytes) :
    Faithful coord sig ↔
      ∀ rv sv, HoldsPair sig rv sv → CoordLength coord rv → CoordLength coord sv →
        Plain coord rv ∧ Plain coord sv := by
  constructor
  · intro hfaith rv sv hpair hr hs
    obtain ⟨rv', sv', hpair', hreads, hreads'⟩ := hfaith _ _ (parse_of_holdsPair hpair hr hs)
    obtain ⟨rfl, rfl⟩ := hpair.det hpair'
    exact ⟨(reads_padCoord_iff hr).1 hreads, (reads_padCoord_iff hs).1 hreads'⟩
  · intro hcond r s hparse
    obtain ⟨rv, sv, hpair, hr, hs, rfl, rfl⟩ := holdsPair_of_parse hparse
    obtain ⟨hplain, hplain'⟩ := hcond rv sv hpair hr hs
    exact ⟨rv, sv, hpair, (reads_padCoord_iff hr).2 hplain, (reads_padCoord_iff hs).2 hplain'⟩

theorem reads_inj (h : Reads coord v out) (h' : Reads coord w out) : intValue v = intValue w :=
  h.2.2.symm.trans h'.2.2

theorem starts_short (b : UInt8) (hb : b.toNat < 128) (hv : v.length = b.toNat)
    (hbytes : bytes = tag :: b :: (v ++ rest)) : Starts tag bytes v rest :=
  ⟨[b], hv ▸ LengthOctets.short b hb, hbytes⟩

def negativePair : Bytes := [0x30, 6, 0x02, 1, 0xFF, 0x02, 1, 0xFF]

def longPair : Bytes := 0x30 :: 38 :: 0x02 :: 33 :: 0x01 :: (List.replicate 32 0 ++ [0x02, 1, 0x01])

end Lebirun.Tls
