import Mathlib
import Lebirun.Net.Dns

namespace Lebirun.Net
set_option autoImplicit true

abbrev DOT : UInt8 := 46

/-- The end of a label in `dns_encode_name`: its length byte and its bytes go to the buffer. -/
def flushLabel (size : Nat) (label buffer : List UInt8) : Option (List UInt8) :=
  if label.length = 0 ∨ label.length > 63 then none
  else if buffer.length + 1 + label.length ≥ size ∨ buffer.length + 1 + label.length ≥ 255 then none
  else some (buffer ++ UInt8.ofNat label.length :: label)

/-- The loop of `dns_encode_name` from index `i` on: what is left of the name, and the label read
so far. -/
def encodeLoop (size : Nat) : List UInt8 → Nat → List UInt8 → List UInt8 → Option (List UInt8)
  | [], _, label, buffer => flushLabel size label buffer
  | b :: rest, i, label, buffer =>
    if b = DOT then
      match flushLabel size label buffer with
      | none => none
      | some buffer =>
        if rest = [] then some buffer
        else if 253 ≤ i then none
        else encodeLoop size rest (i + 1) [] buffer
    else if 253 ≤ i then none
    else encodeLoop size rest (i + 1) (label ++ [b]) buffer

def dnsEncodeName (size : Nat) (name : CName) : Option (List UInt8) :=
  if size < 1 then none
  else if name.bytes = [] ∨ name.bytes = [DOT] then some [0]
  else (encodeLoop size name.bytes 0 [] []).map (· ++ [0])

/-- The cast of an offset to the `int` that `dns_decode_name` returns. -/
def cInt (offset : Nat) : Int := (BitVec.ofNat 32 offset).toInt

/-- What `dns_decode_name` returns, and the bytes it has put into `name`: the offset after a name,
-1, or an access outside the packet or outside `name[max_len]`. -/
inductive Decoded where
  | name (next : Int) (text : List UInt8)
  | error (text : List UInt8)
  | stray
  deriving DecidableEq

/-- The dot before every label but the first. -/
def putDot (maxLen : Nat) (text : List UInt8) : Decoded ⊕ List UInt8 :=
  if text.length > 0 then
    if text.length ≥ maxLen - 1 then .inl (.error text)
    else if text.length < maxLen then .inr (text ++ [DOT])
    else .inl .stray
  else .inr text

/-- The copy of a label whose bytes start at `offset`. -/
def putLabel (packet : List UInt8) (maxLen offset len : Nat) (text : List UInt8) :
    Decoded ⊕ List UInt8 :=
  if len ≥ maxLen - text.length ∨ text.length + len > 253 then .inl (.error text)
  else if offset + len ≤ packet.length ∧ text.length + len ≤ maxLen then
    .inr (text ++ (packet.drop offset).take len)
  else .inl .stray

def decodeLoop (packet : List UInt8) (maxLen offset nextOffset jumpCount : Nat)
    (text : List UInt8) : Decoded :=
  if _h : offset < packet.length ∧ jumpCount < packet.length then
    match packet[offset]? with
    | none => .stray
    | some len =>
      if len = 0 then
        if text.length < maxLen then
          .name (cInt (if nextOffset ≠ 0 then nextOffset else offset + 1)) text
        else .stray
      else if len &&& 0xC0 = 0xC0 then
        if offset + 1 ≥ packet.length then .error text
        else
          match packet[offset + 1]? with
          | none => .stray
          | some low =>
            decodeLoop packet maxLen ((len &&& 0x3F).toNat * 256 + low.toNat)
              (if nextOffset = 0 then offset + 2 else nextOffset) (jumpCount + 1) text
      else if len &&& 0xC0 ≠ 0 then .error text
      else if len.toNat > packet.length - (offset + 1) then .error text
      else
        match putDot maxLen text with
        | .inl r => r
        | .inr text =>
          match putLabel packet maxLen (offset + 1) len.toNat text with
          | .inl r => r
          | .inr text =>
            decodeLoop packet maxLen (offset + 1 + len.toNat) nextOffset jumpCount text
  else .error text
termination_by (packet.length - jumpCount, packet.length - offset)
decreasing_by
  · apply Prod.Lex.left
    omega
  · apply Prod.Lex.right
    omega

def dnsDecodeName (packet : List UInt8) (offset maxLen : Nat) : Decoded :=
  if maxLen < 1 then .error [] else decodeLoop packet maxLen offset 0 0 []

abbrev DNS_FLAG_QR : Nat := 0x8000
abbrev DNS_FLAG_RCODE : Nat := 0x000F
abbrev DNS_TYPE_A : Nat := 1
abbrev DNS_TYPE_AAAA : Nat := 28
abbrev DNS_TYPE_CNAME : Nat := 5
abbrev DNS_CLASS_IN : Nat := 1

/-- The `pending_` variables of `dns.c`; `cname` is the text in the buffer of `pending_cname`, or
`none` for a null pointer. -/
structure DnsPending where
  id : Nat
  qtype : Nat
  ttl : Nat
  resolved : Bool
  result : List UInt8
  result6 : List UInt8
  cname : Option (List UInt8)
  cnameSet : Bool
  deriving DecidableEq

/-- `len` bytes of the packet, or nothing if one of them is outside. -/
def readBytes (packet : List UInt8) (offset len : Nat) : Option (List UInt8) :=
  if offset + len ≤ packet.length then some ((packet.drop offset).take len) else none

def be16 (packet : List UInt8) (offset : Nat) : Option Nat := do
  let high ← packet[offset]?
  let low ← packet[offset + 1]?
  some (high.toNat * 256 + low.toNat)

def be32 (packet : List UInt8) (offset : Nat) : Option Nat := do
  let high ← be16 packet offset
  let low ← be16 packet (offset + 2)
  some (high * 65536 + low)

/-- The loop over the questions of `dns_handle_packet`; the outer `none` is an access outside. -/
def skipQuestions (packet : List UInt8) : Nat → Nat → Option (Option Nat)
  | 0, offset => some (some offset)
  | qdcount + 1, offset =>
    match dnsDecodeName packet offset 256 with
    | .stray => none
    | .error _ => some none
    | .name newOffset _ =>
      if newOffset < 0 ∨ newOffset.toNat + 4 > packet.length then some none
      else skipQuestions packet qdcount (newOffset.toNat + 4)

/-- The branch for a CNAME record, and whether it returns. -/
def takeCname (packet : List UInt8) (offset rdlength : Nat) (s : DnsPending) :
    Option (DnsPending × Bool) :=
  match s.cname with
  | none => some (s, false)
  | some _ =>
    match dnsDecodeName packet offset 256 with
    | .stray => none
    | .error text => some ({ s with cname := some text }, true)
    | .name newOffset text =>
      if newOffset < 0 ∨ newOffset.toNat ≠ offset + rdlength then
        some ({ s with cname := some text }, true)
      else if text.headD 0 ≠ 0 then
        some ({ s with cname := some text, cnameSet := true, resolved := true }, true)
      else some ({ s with cname := some text }, false)

/-- The data of one record of class IN, and whether it ends the loop. -/
def takeRecord (packet : List UInt8) (offset rtype rdlength : Nat) (s : DnsPending) :
    Option (DnsPending × Bool) :=
  if s.qtype = DNS_TYPE_A ∧ rtype = DNS_TYPE_A ∧ rdlength = 4 ∧ offset + 4 ≤ packet.length then do
    let octets ← readBytes packet offset 4
    some ({ s with result := octets, resolved := true }, true)
  else if s.qtype = DNS_TYPE_A ∧ rtype = DNS_TYPE_CNAME ∧ offset + rdlength ≤ packet.length then
    takeCname packet offset rdlength s
  else if s.qtype = DNS_TYPE_AAAA ∧ rtype = DNS_TYPE_AAAA ∧ rdlength = 16 ∧
      offset + 16 ≤ packet.length then do
    let octets ← readBytes packet offset 16
    some ({ s with result6 := octets, resolved := true }, true)
  else some (s, false)

/-- The loop over the answers of `dns_handle_packet`. -/
def answers (packet : List UInt8) : Nat → Nat → DnsPending → Option DnsPending
  | 0, _, s => some s
  | ancount + 1, offset, s =>
    if offset ≥ packet.length then some s
    else
      match dnsDecodeName packet offset 256 with
      | .stray => none
      | .error _ => some s
      | .name newOffset _ =>
        if newOffset < 0 then some s
        else if newOffset.toNat + 10 > packet.length then some s
        else do
          let offset := newOffset.toNat
          let rtype ← be16 packet offset
          let rclass ← be16 packet (offset + 2)
          let ttl ← be32 packet (offset + 4)
          let rdlength ← be16 packet (offset + 8)
          let s := { s with ttl := ttl }
          let offset := offset + 10
          if rdlength > packet.length - offset then some s
          else if rclass ≠ DNS_CLASS_IN then answers packet ancount (offset + rdlength) s
          else
            let (s, done) ← takeRecord packet offset rtype rdlength s
            if done then some s else answers packet ancount (offset + rdlength) s

/-- `dns_handle_packet`; `none` is an access outside the packet or outside a buffer. -/
def dnsHandlePacket (s : DnsPending) (packet : List UInt8) : Option DnsPending :=
  if packet.length < 12 then some s
  else do
    let id ← be16 packet 0
    let flags ← be16 packet 2
    if flags &&& DNS_FLAG_QR = 0 then some s
    else if id ≠ s.id then some s
    else if flags &&& DNS_FLAG_RCODE ≠ 0 then some s
    else
      let qdcount ← be16 packet 4
      let ancount ← be16 packet 6
      if ancount = 0 then some s
      else
        match ← skipQuestions packet qdcount 12 with
        | none => some s
        | some offset => answers packet ancount offset s

/-! What the two sides agree on: a name as its labels. -/

/-- The labels a name can have. -/
def Labels (ls : List (List UInt8)) : Prop :=
  ∀ l ∈ ls, 0 < l.length ∧ l.length ≤ 63 ∧ DOT ∉ l

def joinDots : List (List UInt8) → List UInt8
  | [] => []
  | [l] => l
  | l :: m :: ls => l ++ DOT :: joinDots (m :: ls)

/-- The labels on the wire, before the root. -/
def wireLabels (ls : List (List UInt8)) : List UInt8 :=
  ls.flatMap (fun l => UInt8.ofNat l.length :: l)

def wireName (ls : List (List UInt8)) : List UInt8 := wireLabels ls ++ [0]

/-- A name without its trailing dot. -/
def trimDot (bytes : List UInt8) : List UInt8 :=
  if bytes.getLast? = some DOT then bytes.dropLast else bytes

/-- The text after more labels. -/
def extend (text : List UInt8) : List (List UInt8) → List UInt8
  | [] => text
  | l :: ls => extend (if text = [] then l else text ++ DOT :: l) ls

/-- The labels a name spells from an offset on, through any pointers, with the offsets it passes and
the offset after its own bytes. -/
inductive Spells (packet : List UInt8) : Nat → List (List UInt8) → List Nat → Nat → Prop
  | root : packet[o]? = some 0 → Spells packet o [] [o] (o + 1)
  | label : packet[o]? = some len → 0 < len.toNat → len.toNat ≤ 63 →
      o + 1 + len.toNat ≤ packet.length → l = (packet.drop (o + 1)).take len.toNat →
      Spells packet (o + 1 + len.toNat) ls ps e → Spells packet o (l :: ls) (o :: ps) e
  | pointer : packet[o]? = some high → high &&& 0xC0 = 0xC0 → packet[o + 1]? = some low →
      Spells packet ((high &&& 0x3F).toNat * 256 + low.toNat) ls ps e →
      Spells packet o ls (o :: ps) (o + 2)

/-- A pointer at `o`, and from there a chain of pointers that ends at `target`. -/
inductive Points (packet : List UInt8) : Nat → Nat → Prop
  | last : packet[o]? = some high → high &&& 0xC0 = 0xC0 → packet[o + 1]? = some low →
      Points packet o ((high &&& 0x3F).toNat * 256 + low.toNat)
  | next : packet[o]? = some high → high &&& 0xC0 = 0xC0 → packet[o + 1]? = some low →
      Points packet ((high &&& 0x3F).toNat * 256 + low.toNat) target → Points packet o target

/-! Encoding. -/

@[simp] theorem trimDot_nil : trimDot [] = [] := rfl

theorem trimDot_plain (h : DOT ∉ label) : trimDot label = label := by
  rw [trimDot, if_neg]
  intro hlast
  exact h (List.mem_of_getLast? hlast)

theorem trimDot_dotted (label : List UInt8) : trimDot (label ++ [DOT]) = label := by
  simp [trimDot]

theorem trimDot_append (label : List UInt8) (h : rest ≠ []) :
    trimDot (label ++ DOT :: rest) = label ++ DOT :: trimDot rest := by
  obtain ⟨m, b, rfl⟩ := rest.eq_nil_or_concat.resolve_left h
  rw [List.concat_eq_append, ← List.cons_append, ← List.append_assoc, trimDot, trimDot]
  simp only [List.getLast?_concat, List.dropLast_concat]
  split
  · rfl
  · simp

theorem joinDots_cons (l : List UInt8) (h : ls ≠ []) :
    joinDots (l :: ls) = l ++ DOT :: joinDots ls := by
  cases ls with
  | nil => exact absurd rfl h
  | cons m ls => rfl

theorem joinDots_eq_nil (h : Labels ls) : joinDots ls = [] ↔ ls = [] := by
  cases ls with
  | nil => simp [joinDots]
  | cons l ls =>
    have hl := (h l List.mem_cons_self).1
    cases ls with
    | nil => simpa [joinDots] using List.ne_nil_of_length_pos hl
    | cons m ls => simp [joinDots]

theorem wireLabels_cons (l : List UInt8) (ls : List (List UInt8)) :
    wireLabels (l :: ls) = UInt8.ofNat l.length :: l ++ wireLabels ls := rfl

/-- A length byte stands for a dot, and the first one for none. -/
theorem wireLabels_length (l : List UInt8) (ls : List (List UInt8)) :
    (wireLabels (l :: ls)).length = (joinDots (l :: ls)).length + 1 := by
  induction ls generalizing l with
  | nil => simp [wireLabels, joinDots]
  | cons m ls ih =>
    have := ih m
    rw [wireLabels_cons, joinDots_cons l (List.cons_ne_nil m ls)]
    simp only [List.length_append, List.length_cons] at this ⊢
    omega

theorem wireName_length (h : ls ≠ []) : (wireName ls).length = (joinDots ls).length + 2 := by
  cases ls with
  | nil => exact absurd rfl h
  | cons l ls => simp [wireName, wireLabels_length]

theorem flushLabel_some (h : flushLabel size label buffer = some buffer') :
    0 < label.length ∧ label.length ≤ 63 ∧ buffer' = buffer ++ wireLabels [label] ∧
      buffer'.length < size ∧ buffer'.length < 255 := by
  rw [flushLabel] at h
  split at h
  · cases h
  · rename_i hlen
    split at h
    · cases h
    · rename_i hroom
      cases h
      simp only [wireLabels, List.flatMap_cons, List.flatMap_nil, List.append_nil,
        List.length_append, List.length_cons]
      refine ⟨by omega, by omega, trivial, by omega, by omega⟩

theorem flushLabel_room (h₀ : 0 < label.length) (h₁ : label.length ≤ 63)
    (hs : (buffer ++ wireLabels [label]).length < size)
    (hb : (buffer ++ wireLabels [label]).length < 255) :
    flushLabel size label buffer = some (buffer ++ wireLabels [label]) := by
  simp only [wireLabels, List.flatMap_cons, List.flatMap_nil, List.append_nil,
    List.length_append, List.length_cons] at hs hb
  rw [flushLabel, if_neg (by omega), if_neg (by omega)]
  simp [wireLabels]

/-- What the loop writes are the labels of what it was given. -/
theorem encodeLoop_some (h : encodeLoop size rest i label buffer = some wire) (hd : DOT ∉ label) :
    ∃ ls, ls ≠ [] ∧ Labels ls ∧ trimDot (label ++ rest) = joinDots ls ∧
      wire = buffer ++ wireLabels ls ∧ wire.length < size ∧ wire.length < 255 := by
  induction rest generalizing i label buffer with
  | nil =>
    obtain ⟨h₀, h₁, rfl, hs, hb⟩ := flushLabel_some h
    apply Exists.intro [label]
    rw [List.append_nil, trimDot_plain hd]
    exact ⟨by simp, by simp [Labels, h₀, h₁, hd], rfl, rfl, hs, hb⟩
  | cons b rest ih =>
    rw [encodeLoop] at h
    split at h
    · rename_i hb
      subst hb
      cases hf : flushLabel size label buffer with
      | none => simp [hf] at h
      | some buffer' =>
        rw [hf] at h
        obtain ⟨h₀, h₁, rfl, hs, hb⟩ := flushLabel_some hf
        dsimp only at h
        split at h
        · rename_i hrest
          cases h
          subst hrest
          apply Exists.intro [label]
          rw [trimDot_dotted]
          exact ⟨by simp, by simp [Labels, h₀, h₁, hd], rfl, rfl, hs, hb⟩
        · rename_i hrest
          split at h
          · cases h
          · obtain ⟨ls, hne, hls, htrim, rfl, hs, hb⟩ := ih h (by simp)
            apply Exists.intro (label :: ls)
            rw [trimDot_append label hrest, ← List.nil_append rest, htrim, joinDots_cons label hne]
            refine ⟨by simp, ?_, rfl, ?_, hs, hb⟩
            · exact List.forall_mem_cons.mpr ⟨⟨h₀, h₁, hd⟩, hls⟩
            · simp [wireLabels]
    · rename_i hb
      split at h
      · cases h
      · obtain ⟨ls, hne, hls, htrim, hrest⟩ := ih h (by simp [hd, Ne.symm hb])
        apply Exists.intro ls
        rw [List.append_assoc] at htrim
        exact ⟨hne, hls, htrim, hrest⟩

/-- The loop copies the bytes of a label as they come. -/
theorem encodeLoop_copy (hd : DOT ∉ l) (hi : i + l.length ≤ 253) :
    encodeLoop size (l ++ rest) i label buffer =
      encodeLoop size rest (i + l.length) (label ++ l) buffer := by
  induction l generalizing i label with
  | nil => simp
  | cons b l ih =>
    obtain ⟨hb, hl⟩ := not_or.mp (List.mem_cons.not.mp hd)
    simp only [List.length_cons] at hi
    rw [List.cons_append, encodeLoop, if_neg (Ne.symm hb), if_neg (by omega),
      ih hl (by omega), List.append_assoc, List.singleton_append, List.length_cons]
    congr 1
    omega

/-- Every list of labels that fits is written, with or without a trailing dot. The index runs with
the buffer. -/
theorem encodeLoop_labels (hls : Labels (l :: ls)) (ht : tail = [] ∨ tail = [DOT])
    (hs : (buffer ++ wireLabels (l :: ls)).length < size)
    (hb : (buffer ++ wireLabels (l :: ls)).length < 255) :
    encodeLoop size (joinDots (l :: ls) ++ tail) buffer.length [] buffer =
      some (buffer ++ wireLabels (l :: ls)) := by
  induction ls generalizing l buffer with
  | nil =>
    obtain ⟨h₀, h₁, hd⟩ := hls l List.mem_cons_self
    have hlen : buffer.length + l.length ≤ 253 := by
      simp only [wireLabels_cons, List.length_append, List.length_cons] at hb
      omega
    rw [joinDots, encodeLoop_copy hd hlen, List.nil_append]
    rcases ht with rfl | rfl
    · exact flushLabel_room h₀ h₁ hs hb
    · rw [encodeLoop, if_pos rfl, flushLabel_room h₀ h₁ hs hb]
      rfl
  | cons m ls ih =>
    obtain ⟨⟨h₀, h₁, hd⟩, hms⟩ := List.forall_mem_cons.mp hls
    obtain ⟨hm, -⟩ := hms m List.mem_cons_self
    have hsplit : buffer ++ wireLabels (l :: m :: ls) =
        (buffer ++ wireLabels [l]) ++ wireLabels (m :: ls) := by simp [wireLabels]
    have hone : (buffer ++ wireLabels [l]).length = buffer.length + l.length + 1 := by
      simp [wireLabels]
      omega
    rw [hsplit] at hs hb ⊢
    have hmore := ih hms hs hb
    simp only [List.length_append, hone, wireLabels_cons m ls, List.length_cons] at hs hb
    have hrest : joinDots (m :: ls) ++ tail ≠ [] := by
      intro hnil
      exact absurd ((joinDots_eq_nil hms).mp (List.append_eq_nil_iff.mp hnil).1) (by simp)
    rw [joinDots, List.append_assoc, List.cons_append, encodeLoop_copy hd (by omega),
      encodeLoop, if_pos rfl, List.nil_append, flushLabel_room h₀ h₁ (by omega) (by omega)]
    dsimp only
    rw [if_neg hrest, if_neg (by omega), ← hone]
    exact hmore

theorem trimDot_cases (bytes : List UInt8) :
    bytes = trimDot bytes ∨ bytes = trimDot bytes ++ [DOT] := by
  rw [trimDot]
  split
  · rename_i h
    obtain ⟨m, hm⟩ := List.getLast?_eq_some_iff.mp h
    exact Or.inr (by simp [hm])
  · exact Or.inl rfl

/-- `dns_encode_name` writes the labels of a name exactly when the name has labels that fit the
buffer and the 255 bytes of a wire name. -/
theorem dnsEncodeName_some :
    dnsEncodeName size name = some wire ↔
      ∃ ls, Labels ls ∧ trimDot name.bytes = joinDots ls ∧ wire = wireName ls ∧
        wire.length ≤ size ∧ wire.length ≤ 255 := by
  constructor
  · intro h
    rw [dnsEncodeName] at h
    split at h
    · cases h
    · rename_i hsize
      split at h
      · rename_i hroot
        cases h
        refine ⟨[], by simp [Labels], ?_, rfl, by simp; omega, by simp⟩
        rcases hroot with hroot | hroot <;> rw [hroot] <;> rfl
      · obtain ⟨w, hw, rfl⟩ := Option.map_eq_some_iff.mp h
        obtain ⟨ls, -, hls, htrim, rfl, hs, hb⟩ := encodeLoop_some hw (by simp)
        refine ⟨ls, hls, htrim, rfl, ?_, ?_⟩
        · rw [List.length_append, List.length_singleton]
          exact hs
        · rw [List.length_append, List.length_singleton]
          exact hb
  · rintro ⟨ls, hls, htrim, rfl, hs, hb⟩
    have hsize : ¬ size < 1 := by
      simp only [wireName, List.length_append, List.length_singleton] at hs
      omega
    have hcases := trimDot_cases name.bytes
    rw [htrim] at hcases
    rw [dnsEncodeName, if_neg hsize]
    cases ls with
    | nil =>
      rw [if_pos (show name.bytes = [] ∨ name.bytes = [DOT] from hcases)]
      rfl
    | cons l ls =>
      have hne := (joinDots_eq_nil hls).not.mpr (List.cons_ne_nil l ls)
      have hroot : ¬ (name.bytes = [] ∨ name.bytes = [DOT]) := by
        rintro (h | h)
        · rw [h] at htrim
          exact hne htrim.symm
        · rw [h] at htrim
          exact hne htrim.symm
      obtain ⟨tail, ht, hbytes⟩ : ∃ tail, (tail = [] ∨ tail = [DOT]) ∧
          name.bytes = joinDots (l :: ls) ++ tail := by
        rcases hcases with h | h
        · exact ⟨[], Or.inl rfl, by simpa using h⟩
        · exact ⟨[DOT], Or.inr rfl, h⟩
      simp only [wireName, List.length_append, List.length_singleton] at hs hb
      rw [if_neg hroot, hbytes, ← List.length_nil (α := UInt8),
        encodeLoop_labels hls ht (by simpa using hs) (by simpa using hb)]
      rfl

/-! A name is spelt one way only from an offset on, and passes no offset twice. -/

theorem and_top_of_lt (b : UInt8) (h : b.toNat ≤ 63) : b &&& 0xC0 = 0 := by
  have hall : ∀ c : BitVec 8, c.toNat ≤ 63 → c &&& 0xC0 = 0 := by decide
  exact UInt8.toBitVec_inj.mp (hall b.toBitVec h)

theorem pointer_ne_label {b : UInt8} (h : b &&& 0xC0 = 0xC0) (hlen : b.toNat ≤ 63) : False := by
  rw [and_top_of_lt b hlen] at h
  exact absurd h (by decide)

theorem pointer_ne_zero {b : UInt8} (h : b &&& 0xC0 = 0xC0) : b ≠ 0 := by
  intro hb
  exact pointer_ne_label h (by simp [hb])

theorem Spells.lt (h : Spells packet o ls ps e) : o < packet.length := by
  cases h with
  | root hb => exact (List.getElem?_eq_some_iff.mp hb).1
  | label hb => exact (List.getElem?_eq_some_iff.mp hb).1
  | pointer hb => exact (List.getElem?_eq_some_iff.mp hb).1

theorem Spells.det (h : Spells packet o ls ps e) (h' : Spells packet o ls' ps' e') : ps = ps' := by
  induction h generalizing ls' ps' e' with
  | root hb =>
    cases h' with
    | root _ => rfl
    | label hb' h₀ _ _ _ _ =>
      cases hb.symm.trans hb'
      exact absurd h₀ (by decide)
    | pointer hb' hp _ _ =>
      cases hb.symm.trans hb'
      exact absurd rfl (pointer_ne_zero hp)
  | label hb h₀ h₁ _ _ _ ih =>
    cases h' with
    | root hb' =>
      cases hb.symm.trans hb'
      exact absurd h₀ (by decide)
    | label hb' _ _ _ _ hs' =>
      cases hb.symm.trans hb'
      rw [ih hs']
    | pointer hb' hp _ _ =>
      cases hb.symm.trans hb'
      exact (pointer_ne_label hp h₁).elim
  | pointer hb hp hlow _ ih =>
    cases h' with
    | root hb' =>
      cases hb.symm.trans hb'
      exact absurd rfl (pointer_ne_zero hp)
    | label hb' _ h₁ _ _ _ =>
      cases hb.symm.trans hb'
      exact (pointer_ne_label hp h₁).elim
    | pointer hb' _ hlow' hs' =>
      cases hb.symm.trans hb'
      cases hlow.symm.trans hlow'
      rw [ih hs']

theorem Spells.suffix (h : Spells packet o ls ps e) (hq : q ∈ ps) :
    ∃ ls' ps' e', Spells packet q ls' ps' e' ∧ ps'.length ≤ ps.length := by
  induction h with
  | root hb =>
    cases List.mem_singleton.mp hq
    exact ⟨_, _, _, .root hb, Nat.le_refl _⟩
  | label hb h₀ h₁ hin hl hs ih =>
    rcases List.mem_cons.mp hq with rfl | hq
    · exact ⟨_, _, _, .label hb h₀ h₁ hin hl hs, Nat.le_refl _⟩
    · obtain ⟨ls', ps', e', h', hlen⟩ := ih hq
      exact ⟨ls', ps', e', h', Nat.le_succ_of_le hlen⟩
  | pointer hb hp hlow hs ih =>
    rcases List.mem_cons.mp hq with rfl | hq
    · exact ⟨_, _, _, .pointer hb hp hlow hs, Nat.le_refl _⟩
    · obtain ⟨ls', ps', e', h', hlen⟩ := ih hq
      exact ⟨ls', ps', e', h', Nat.le_succ_of_le hlen⟩

/-- An offset passed again would spell the same name with fewer offsets. -/
theorem Spells.not_mem_tail (h : Spells packet o ls (o :: ps) e) (hs : Spells packet o' ls' ps e') :
    o ∉ ps := by
  intro hin
  obtain ⟨ls'', ps', e'', h', hlen⟩ := hs.suffix hin
  rw [← h.det h'] at hlen
  exact Nat.not_succ_le_self _ hlen

theorem Spells.nodup (h : Spells packet o ls ps e) : ps.Nodup := by
  induction h with
  | root _ => exact List.nodup_singleton _
  | label hb h₀ h₁ hin hl hs ih =>
    exact List.nodup_cons.mpr ⟨(Spells.label hb h₀ h₁ hin hl hs).not_mem_tail hs, ih⟩
  | pointer hb hp hlow hs ih =>
    exact List.nodup_cons.mpr ⟨(Spells.pointer hb hp hlow hs).not_mem_tail hs, ih⟩

theorem Spells.inside (h : Spells packet o ls ps e) : ∀ q ∈ ps, q < packet.length := by
  intro q hq
  obtain ⟨ls', ps', e', h', -⟩ := h.suffix hq
  exact h'.lt

theorem Spells.length_le (h : Spells packet o ls ps e) : ps.length ≤ packet.length := by
  have hsub : ps.toFinset ⊆ Finset.range packet.length := by
    intro q hq
    exact Finset.mem_range.mpr (h.inside q (List.mem_toFinset.mp hq))
  have := Finset.card_le_card hsub
  rwa [List.toFinset_card_of_nodup h.nodup, Finset.card_range] at this

theorem Spells.positive (h : Spells packet o ls ps e) : 0 < ps.length := by
  cases h with
  | root _ => exact Nat.zero_lt_succ _
  | label _ _ _ _ _ _ => exact Nat.zero_lt_succ _
  | pointer _ _ _ _ => exact Nat.zero_lt_succ _

/-! Decoding follows the spelling. -/

theorem extend_length (text : List UInt8) (ls : List (List UInt8)) :
    text.length ≤ (extend text ls).length := by
  induction ls generalizing text with
  | nil => exact Nat.le_refl _
  | cons l ls ih =>
    refine Nat.le_trans ?_ (ih _)
    split
    · simp [*]
    · simp

theorem extend_joinDots (ht : text ≠ []) (hne : ls ≠ []) :
    extend text ls = text ++ DOT :: joinDots ls := by
  induction ls generalizing text with
  | nil => exact absurd rfl hne
  | cons l ls ih =>
    rw [extend, if_neg ht]
    cases ls with
    | nil => rfl
    | cons m ls =>
      rw [ih (by simp) (by simp), joinDots, List.append_assoc, List.cons_append]

theorem Spells.joinDots_eq (h : Spells packet o ls ps e) : extend [] ls = joinDots ls := by
  induction h with
  | root _ => rfl
  | @label o len l ls ps e _ h₀ _ hroom hl _ _ =>
    have hne : l ≠ [] := by
      apply List.ne_nil_of_length_pos
      rw [hl, List.length_take, List.length_drop]
      omega
    rw [extend, if_pos rfl]
    cases ls with
    | nil => rfl
    | cons m ls => rw [extend_joinDots hne (by simp), joinDots]
  | pointer _ _ _ _ ih => exact ih

/-- The dot and the label that the loop puts after a text with room for both. -/
theorem put_room (hin : offset + len ≤ packet.length)
    (hl : l = (packet.drop offset).take len) (h₀ : 0 < len)
    (h₁ : (extend text [l]).length ≤ 253) (h₂ : (extend text [l]).length < maxLen) :
    ∃ dotted, putDot maxLen text = .inr dotted ∧
      putLabel packet maxLen offset len dotted = .inr (extend text [l]) := by
  have hlen : l.length = len := by
    rw [hl, List.length_take, List.length_drop]
    omega
  by_cases ht : text = []
  · subst ht
    simp only [extend, if_true] at h₁ h₂ ⊢
    refine ⟨[], by simp [putDot], ?_⟩
    simp only [putLabel, List.length_nil, ← hl, List.nil_append]
    rw [if_neg (by omega), if_pos (by omega)]
  · have hpos := List.length_pos_of_ne_nil ht
    simp only [extend, if_neg ht, List.length_append, List.length_cons] at h₁ h₂ ⊢
    refine ⟨text ++ [DOT], ?_, ?_⟩
    · rw [putDot, if_pos hpos, if_neg (by omega), if_pos (by omega)]
    · simp only [putLabel, List.length_append, List.length_singleton, ← hl]
      rw [if_neg (by omega), if_pos (by omega), List.append_assoc, List.singleton_append]

theorem decodeLoop_spells (h : Spells packet o ls ps e) (hj : jumpCount + ps.length ≤ packet.length)
    (h₁ : (extend text ls).length ≤ 253) (h₂ : (extend text ls).length < maxLen) :
    decodeLoop packet maxLen o nextOffset jumpCount text =
      .name (cInt (if nextOffset ≠ 0 then nextOffset else e)) (extend text ls) := by
  have hin := h.lt
  have hpos := h.positive
  induction h generalizing nextOffset jumpCount text with
  | root hb =>
    rw [decodeLoop, dif_pos ⟨hin, by omega⟩, hb]
    dsimp only
    rw [if_pos rfl, if_pos (by simpa [extend] using h₂)]
    rfl
  | @label o len l ls ps e hb hl₀ hl₁ hroom hl hs ih =>
    have hne : len ≠ 0 := by
      intro hzero
      rw [hzero] at hl₀
      exact absurd hl₀ (by decide)
    have htop := and_top_of_lt len hl₁
    have hmore := extend_length (extend text [l]) ls
    change (extend text [l]).length ≤ (extend text (l :: ls)).length at hmore
    obtain ⟨dotted, hdot, hlabel⟩ := put_room hroom hl hl₀
      (Nat.le_trans hmore h₁) (Nat.lt_of_le_of_lt hmore h₂)
    simp only [List.length_cons] at hj
    rw [decodeLoop, dif_pos ⟨hin, by omega⟩, hb]
    dsimp only
    rw [if_neg hne, htop, if_neg (by decide), if_neg (by simp), if_neg (by omega), hdot]
    dsimp only
    rw [hlabel]
    exact ih (by omega) h₁ h₂ hs.lt hs.positive
  | @pointer o high low ls ps e hb hp hlow hs ih =>
    have hlt := (List.getElem?_eq_some_iff.mp hlow).1
    simp only [List.length_cons] at hj
    rw [decodeLoop, dif_pos ⟨hin, by omega⟩, hb]
    dsimp only
    rw [if_neg (pointer_ne_zero hp), if_pos hp, if_neg (by omega), hlow]
    dsimp only
    rw [ih (by omega) h₁ h₂ hs.lt hs.positive]
    by_cases hn : nextOffset = 0
    · simp [hn]
    · simp [hn]

/-- `dns_decode_name` reads what the packet spells, if `name` has room for it. -/
theorem dnsDecodeName_spells (h : Spells packet o ls ps e) (h₁ : (joinDots ls).length ≤ 253)
    (h₂ : (joinDots ls).length < maxLen) :
    dnsDecodeName packet o maxLen = .name (cInt e) (joinDots ls) := by
  rw [← h.joinDots_eq] at h₁ h₂ ⊢
  rw [dnsDecodeName, if_neg (by omega), decodeLoop_spells h (by simpa using h.length_le) h₁ h₂]
  rfl

/-! Encoded bytes in a packet, and pointers to them, spell the name. -/

variable {packet w : List UInt8}

theorem prefix_drop (h : w <+: packet.drop o) : o + w.length ≤ packet.length ∨ w = [] := by
  have hlen := h.length_le
  rw [List.length_drop] at hlen
  cases w with
  | nil => exact Or.inr rfl
  | cons b w =>
    rw [List.length_cons] at hlen ⊢
    exact Or.inl (by omega)

theorem getElem?_drop_head (h : b :: w <+: packet.drop o) : packet[o]? = some b := by
  obtain ⟨rest, hrest⟩ := h
  have := congrArg (·[0]?) hrest
  simpa [List.getElem?_drop] using this.symm

theorem prefix_of_append (h : v ++ w <+: packet.drop o) : w <+: packet.drop (o + v.length) := by
  obtain ⟨rest, hrest⟩ := h
  apply Exists.intro rest
  rw [← List.drop_drop, ← hrest, List.append_assoc, List.drop_left]

theorem spells_wireName (hls : Labels ls) (h : wireName ls <+: packet.drop o) :
    ∃ ps, Spells packet o ls ps (o + (wireName ls).length) := by
  induction ls generalizing o with
  | nil => exact ⟨_, .root (getElem?_drop_head h)⟩
  | cons l ls ih =>
    obtain ⟨⟨h₀, h₁, -⟩, hrest⟩ := List.forall_mem_cons.mp hls
    have hsplit : wireName (l :: ls) = (UInt8.ofNat l.length :: l) ++ wireName ls := by
      simp [wireName, wireLabels]
    rw [hsplit] at h
    have hlen : (UInt8.ofNat l.length).toNat = l.length := by
      rw [UInt8.toNat_ofNat']
      exact Nat.mod_eq_of_lt (by omega)
    have hroom := (prefix_drop h).resolve_right (by simp)
    simp only [List.length_append, List.length_cons] at hroom
    have hnext := prefix_of_append h
    obtain ⟨ps, hps⟩ := ih hrest hnext
    have hbytes : l = (packet.drop (o + 1)).take l.length := by
      have hone : l ++ wireName ls <+: packet.drop (o + 1) :=
        prefix_of_append (v := [UInt8.ofNat l.length]) h
      obtain ⟨rest, hl⟩ := hone
      rw [← hl, List.append_assoc, List.take_left]
    rw [List.length_cons, ← Nat.add_assoc, Nat.add_right_comm] at hps
    refine ⟨o :: ps, ?_⟩
    rw [hsplit, List.length_append, List.length_cons,
      show o + (l.length + 1 + (wireName ls).length) = o + 1 + l.length + (wireName ls).length by
        omega]
    apply Spells.label (getElem?_drop_head h) <;> rw [hlen] <;> first | assumption | omega

theorem Points.spells (h : Points packet o target) (hs : Spells packet target ls ps e) :
    ∃ ps', Spells packet o ls ps' (o + 2) := by
  induction h with
  | last hb hp hlow => exact ⟨_, .pointer hb hp hlow hs⟩
  | next hb hp hlow _ ih =>
    obtain ⟨ps', h'⟩ := ih hs
    exact ⟨_, .pointer hb hp hlow h'⟩

/-! No access is outside. -/

/-- `dns_decode_name` has stayed inside the packet and inside `name[max_len]`, the terminating zero
included. -/
def Decoded.Within (maxLen : Nat) : Decoded → Prop
  | .name _ text => text.length + 1 ≤ maxLen
  | .error text => text.length ≤ maxLen
  | .stray => False

/-- The same of a step that goes on with a text. -/
def PutWithin (maxLen : Nat) : Decoded ⊕ List UInt8 → Prop
  | .inl r => r.Within maxLen
  | .inr text => text.length < maxLen

theorem putDot_within (h : text.length < maxLen) : PutWithin maxLen (putDot maxLen text) := by
  rw [putDot]
  split
  · split
    · exact Nat.le_of_lt h
    · rename_i hroom
      change (text ++ [DOT]).length < maxLen
      rw [List.length_append, List.length_singleton]
      omega
  · exact h

theorem putLabel_within (hin : offset + len ≤ packet.length) (h : text.length < maxLen) :
    PutWithin maxLen (putLabel packet maxLen offset len text) := by
  rw [putLabel]
  split
  · exact Nat.le_of_lt h
  · rename_i hroom
    rw [if_pos ⟨hin, by omega⟩]
    change (text ++ (packet.drop offset).take len).length < maxLen
    rw [List.length_append, List.length_take, List.length_drop]
    omega

/-- A byte of the packet is there to be read. -/
theorem no_stray (h : offset < packet.length) : packet[offset]? ≠ none := by
  intro hnone
  exact absurd (List.getElem?_eq_none_iff.mp hnone) (by omega)

theorem decodeLoop_within (h : text.length < maxLen) :
    (decodeLoop packet maxLen offset nextOffset jumpCount text).Within maxLen := by
  fun_induction decodeLoop packet maxLen offset nextOffset jumpCount text with
  | case1 offset _ _ _ hin hnone => exact absurd hnone (no_stray hin.1)
  | case2 => exact h
  | case3 _ _ _ _ _ hroom => exact absurd h hroom
  | case4 => exact Nat.le_of_lt h
  | case5 offset _ _ _ _ _ _ _ _ hin hnone => exact absurd hnone (no_stray (Nat.not_le.mp hin))
  | case6 _ _ _ _ _ _ _ _ _ _ _ _ ih => exact ih h
  | case7 => exact Nat.le_of_lt h
  | case8 => exact Nat.le_of_lt h
  | case9 _ _ _ _ _ _ _ _ _ _ _ r hdot =>
    have hput := putDot_within h
    rw [hdot] at hput
    exact hput
  | case10 offset _ _ _ hin len _ _ _ _ hlen dotted hdot r hlabel =>
    have hput := putDot_within h
    rw [hdot] at hput
    have hroom : offset + 1 + len.toNat ≤ packet.length := by omega
    have hmore := putLabel_within hroom hput
    rw [hlabel] at hmore
    exact hmore
  | case11 offset _ _ _ hin len _ _ _ _ hlen dotted hdot text hlabel ih =>
    have hput := putDot_within h
    rw [hdot] at hput
    have hroom : offset + 1 + len.toNat ≤ packet.length := by omega
    have hmore := putLabel_within hroom hput
    rw [hlabel] at hmore
    exact ih hmore
  | case12 => exact Nat.le_of_lt h

theorem dnsDecodeName_within (packet : List UInt8) (offset maxLen : Nat) :
    (dnsDecodeName packet offset maxLen).Within maxLen := by
  rw [dnsDecodeName]
  split
  · exact Nat.zero_le _
  · exact decodeLoop_within (by rw [List.length_nil]; omega)

theorem be16_isSome (h : offset + 2 ≤ packet.length) : ∃ n, be16 packet offset = some n := by
  have hlt : offset < packet.length := by omega
  obtain ⟨high, hhigh⟩ := Option.ne_none_iff_exists'.mp (no_stray hlt)
  obtain ⟨low, hlow⟩ := Option.ne_none_iff_exists'.mp (no_stray h)
  apply Exists.intro (high.toNat * 256 + low.toNat)
  simp [be16, hhigh, hlow]

theorem be32_isSome (h : offset + 4 ≤ packet.length) : ∃ n, be32 packet offset = some n := by
  have hlt : offset + 2 ≤ packet.length := by omega
  obtain ⟨high, hhigh⟩ := be16_isSome hlt
  obtain ⟨low, hlow⟩ := be16_isSome h
  apply Exists.intro (high * 65536 + low)
  simp [be32, hhigh, hlow]

theorem skipQuestions_isSome (packet : List UInt8) (qdcount offset : Nat) :
    ∃ r, skipQuestions packet qdcount offset = some r := by
  induction qdcount generalizing offset with
  | zero => exact ⟨_, rfl⟩
  | succ qdcount ih =>
    have hin := dnsDecodeName_within packet offset 256
    rw [skipQuestions]
    cases hd : dnsDecodeName packet offset 256 with
    | stray => exact (hd ▸ hin : Decoded.stray.Within 256).elim
    | error text => exact ⟨_, rfl⟩
    | name newOffset text =>
      dsimp only
      split
      · exact ⟨_, rfl⟩
      · exact ih _

theorem takeCname_isSome (packet : List UInt8) (offset rdlength : Nat) (s : DnsPending) :
    ∃ r, takeCname packet offset rdlength s = some r := by
  have hin := dnsDecodeName_within packet offset 256
  rw [takeCname]
  cases s.cname with
  | none => exact ⟨_, rfl⟩
  | some old =>
    cases hd : dnsDecodeName packet offset 256 with
    | stray => exact (hd ▸ hin : Decoded.stray.Within 256).elim
    | error text => exact ⟨_, rfl⟩
    | name newOffset text =>
      dsimp only
      split
      · exact ⟨_, rfl⟩
      · split
        · exact ⟨_, rfl⟩
        · exact ⟨_, rfl⟩

theorem takeRecord_isSome (packet : List UInt8) (offset rtype rdlength : Nat) (s : DnsPending) :
    ∃ r, takeRecord packet offset rtype rdlength s = some r := by
  rw [takeRecord]
  split
  · rename_i h
    simp only [readBytes, if_pos h.2.2.2]
    exact ⟨_, rfl⟩
  · split
    · exact takeCname_isSome packet offset rdlength s
    · split
      · rename_i h
        simp only [readBytes, if_pos h.2.2.2]
        exact ⟨_, rfl⟩
      · exact ⟨_, rfl⟩

theorem answers_isSome (packet : List UInt8) (ancount offset : Nat) (s : DnsPending) :
    ∃ r, answers packet ancount offset s = some r := by
  induction ancount generalizing offset s with
  | zero => exact ⟨_, rfl⟩
  | succ ancount ih =>
    have hin := dnsDecodeName_within packet offset 256
    rw [answers]
    split
    · exact ⟨_, rfl⟩
    · cases hd : dnsDecodeName packet offset 256 with
      | stray => exact (hd ▸ hin : Decoded.stray.Within 256).elim
      | error text => exact ⟨_, rfl⟩
      | name newOffset text =>
        dsimp only
        split
        · exact ⟨_, rfl⟩
        · split
          · exact ⟨_, rfl⟩
          · rename_i hroom
            have h₀ : newOffset.toNat + 2 ≤ packet.length := by omega
            have h₂ : newOffset.toNat + 2 + 2 ≤ packet.length := by omega
            have h₄ : newOffset.toNat + 4 + 4 ≤ packet.length := by omega
            have h₈ : newOffset.toNat + 8 + 2 ≤ packet.length := by omega
            obtain ⟨rtype, hrtype⟩ := be16_isSome h₀
            obtain ⟨rclass, hrclass⟩ := be16_isSome h₂
            obtain ⟨ttl, httl⟩ := be32_isSome h₄
            obtain ⟨rdlength, hrdlength⟩ := be16_isSome h₈
            simp only [hrtype, hrclass, httl, hrdlength, Option.bind_eq_bind, Option.bind_some]
            split
            · exact ⟨_, rfl⟩
            · split
              · exact ih _ _
              · obtain ⟨⟨s', done⟩, hrecord⟩ := takeRecord_isSome packet (newOffset.toNat + 10)
                  rtype rdlength { s with ttl := ttl }
                simp only [hrecord, Option.bind_some]
                split
                · exact ⟨_, rfl⟩
                · exact ih _ _

theorem dnsHandlePacket_isSome (s : DnsPending) (packet : List UInt8) :
    ∃ s', dnsHandlePacket s packet = some s' := by
  rw [dnsHandlePacket]
  split
  · exact ⟨_, rfl⟩
  · rename_i hheader
    have h₀ : 0 + 2 ≤ packet.length := by omega
    have h₂ : 2 + 2 ≤ packet.length := by omega
    have h₄ : 4 + 2 ≤ packet.length := by omega
    have h₆ : 6 + 2 ≤ packet.length := by omega
    obtain ⟨id, hid⟩ := be16_isSome h₀
    obtain ⟨flags, hflags⟩ := be16_isSome h₂
    obtain ⟨qdcount, hqdcount⟩ := be16_isSome h₄
    obtain ⟨ancount, hancount⟩ := be16_isSome h₆
    simp only [hid, hflags, hqdcount, hancount, Option.bind_eq_bind, Option.bind_some]
    split
    · exact ⟨_, rfl⟩
    · split
      · exact ⟨_, rfl⟩
      · split
        · exact ⟨_, rfl⟩
        · split
          · exact ⟨_, rfl⟩
          · obtain ⟨r, hr⟩ := skipQuestions_isSome packet qdcount 12
            rw [hr]
            cases r with
            | none => exact ⟨_, rfl⟩
            | some offset => exact answers_isSome packet ancount offset s

theorem cInt_small (h : offset < 2 ^ 31) : cInt offset = offset := by
  rw [cInt, BitVec.toInt_eq_toNat_of_lt]
  · rw [BitVec.toNat_ofNat, Nat.mod_eq_of_lt (by omega)]
  · rw [BitVec.toNat_ofNat, Nat.mod_eq_of_lt (by omega)]
    omega

theorem wireName_text (hb : (wireName ls).length ≤ 255) :
    (joinDots ls).length ≤ 253 := by
  by_cases hne : ls = []
  · rw [hne]
    exact Nat.zero_le _
  · rw [wireName_length hne] at hb
    omega

/-- Names come back from the bytes `dns_encode_name` wrote, directly and through pointers, and no
packet makes the decoder or the packet handler leave its buffers. -/
theorem dns_names :
    (∀ size name wire, dnsEncodeName size name = some wire ↔
      ∃ ls, Labels ls ∧ trimDot name.bytes = joinDots ls ∧ wire = wireName ls ∧
        wire.length ≤ size ∧ wire.length ≤ 255) ∧
    (∀ size name wire packet o maxLen, dnsEncodeName size name = some wire →
      wire <+: packet.drop o → (trimDot name.bytes).length < maxLen →
      dnsDecodeName packet o maxLen = .name (cInt (o + wire.length)) (trimDot name.bytes) ∧
      ∀ q, Points packet q o →
        dnsDecodeName packet q maxLen = .name (cInt (q + 2)) (trimDot name.bytes)) ∧
    (∀ offset : Nat, offset < 2 ^ 31 → cInt offset = offset) ∧
    (∀ packet o ls ps e maxLen, Spells packet o ls ps e → (joinDots ls).length ≤ 253 →
      (joinDots ls).length < maxLen →
      dnsDecodeName packet o maxLen = .name (cInt e) (joinDots ls)) ∧
    (∀ packet o maxLen, (dnsDecodeName packet o maxLen).Within maxLen) ∧
    ∀ s packet, ∃ s', dnsHandlePacket s packet = some s' := by
  refine ⟨fun _ _ _ => dnsEncodeName_some, ?_, fun _ => cInt_small,
    fun _ _ _ _ _ _ => dnsDecodeName_spells, dnsDecodeName_within, dnsHandlePacket_isSome⟩
  intro size name wire packet o maxLen henc hin hroom
  obtain ⟨ls, hls, htrim, rfl, -, hb⟩ := dnsEncodeName_some.mp henc
  obtain ⟨ps, hps⟩ := spells_wireName hls hin
  have htext := wireName_text hb
  rw [htrim] at hroom ⊢
  refine ⟨dnsDecodeName_spells hps htext hroom, ?_⟩
  intro q hq
  obtain ⟨ps', hps'⟩ := hq.spells hps
  exact dnsDecodeName_spells hps' htext hroom

end Lebirun.Net