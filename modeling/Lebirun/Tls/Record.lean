import Mathlib
import Lebirun.Lib.Run

namespace Lebirun.Tls
open Machine
set_option autoImplicit true

abbrev recHeaderLen : Nat := 5
abbrev recMaxPlaintext : Nat := 16384

/-- What one turn of the loop of `lebtls_recv_fill` meets: a signal, an error of `tcp_recv`, a second
without a byte on a connection that is closing or on one that is not, or `n + 1` bytes, of which it
takes no more than it asks for. -/
inductive Recv where
  | signal
  | error
  | closed
  | idle
  | data (n : Nat)
  deriving DecidableEq

/-- The memory that is filled, how much of it is, and how many bytes of the peer's stream are taken. -/
structure Filling where
  bytes : Nat → UInt8
  got : Nat
  taken : Nat

section Receive

variable (peer : Nat → UInt8)

def Filling.receive (f : Filling) (n : Nat) : Filling where
  bytes i := if f.got ≤ i ∧ i < f.got + n then peer (f.taken + (i - f.got)) else f.bytes i
  got := f.got + n
  taken := f.taken + n

/-- `lebtls_recv_fill`; after the last outcome of the list nothing arrives any more. -/
def recvFill (len maxRounds : Nat) : Nat → List Recv → Filling → Int × Filling
  | rounds, recvs, f =>
    if f.got < len then
      match recvs with
      | [] => (0, f)
      | .signal :: _ => (-1, f)
      | .error :: _ => (-1, f)
      | .closed :: _ => (-1, f)
      | .idle :: recvs =>
        if maxRounds ≤ rounds + 1 then (0, f) else recvFill len maxRounds (rounds + 1) recvs f
      | .data n :: recvs => recvFill len maxRounds 0 recvs (f.receive peer (min (n + 1) (len - f.got)))
    else (1, f)

structure RecBuf where
  size : Nat
  bytes : Nat → UInt8

/-- The connection as far as `lebtls_rec_recv` uses it, with the bytes taken from the stream. -/
structure Conn where
  recHdr : Nat → UInt8
  recBuf : Option RecBuf
  recGot : Nat
  taken : Nat

/-- A record as it is handed to the caller. -/
structure Rec where
  type : UInt8
  data : Option RecBuf
  len : Nat

/-- A call: its timeout, what `tcp_recv` gives for the header and for the body, and the `kmalloc`. -/
structure RecCall where
  timeoutMs : Nat
  header : List Recv
  body : List Recv
  mem : Bool
  fresh : Nat → UInt8

def RecCall.maxRounds (call : RecCall) : Nat := call.timeoutMs / 1000 + 2

/-- The length in the header. -/
def headerLen (hdr : Nat → UInt8) : Nat := 2 ^ 8 * (hdr 3).toNat + (hdr 4).toNat

/-- `lebtls_rec_recv` up to the body. -/
def recHeader (c : Conn) (call : RecCall) : Int × Conn :=
  if c.recGot < recHeaderLen then
    let r := recvFill peer recHeaderLen call.maxRounds 0 call.header ⟨c.recHdr, c.recGot, c.taken⟩
    let c := { c with recHdr := r.2.bytes, recGot := r.2.got, taken := r.2.taken }
    if r.1 ≤ 0 then (r.1, c)
    else if recMaxPlaintext + 256 < headerLen c.recHdr then (-1, c)
    else if 0 < headerLen c.recHdr then
      if call.mem then (1, { c with recBuf := some ⟨headerLen c.recHdr, call.fresh⟩ })
      else (-1, { c with recBuf := none })
    else (1, c)
  else (1, c)

/-- The loop over the body, which writes through `rec_buf` whatever it is. -/
def recBody (c : Conn) (call : RecCall) : Int × Filling :=
  recvFill peer (headerLen c.recHdr) call.maxRounds 0 call.body
    ⟨(c.recBuf.map RecBuf.bytes).getD fun _ => 0, c.recGot - recHeaderLen, c.taken⟩

/-- `lebtls_rec_recv` -/
def lebtlsRecRecv (c : Conn) (call : RecCall) : Int × Option Rec × Conn :=
  let h := recHeader peer c call
  if h.1 ≤ 0 then (h.1, none, h.2)
  else
    let c := h.2
    let r := recBody peer c call
    let c' := { c with
      recBuf := c.recBuf.map fun b => { b with bytes := r.2.bytes }
      recGot := recHeaderLen + r.2.got
      taken := r.2.taken }
    if r.1 ≤ 0 then (r.1, none, c')
    else (r.1, some ⟨c.recHdr 0, c'.recBuf, headerLen c.recHdr⟩, { c' with recBuf := none, recGot := 0 })

/-- The connection and the records handed out so far. -/
structure RecSys where
  conn : Conn
  records : List Rec

def recStart (hdr : Nat → UInt8) : RecSys := ⟨⟨hdr, none, 0, 0⟩, []⟩

def recStep (s : RecSys) (call : RecCall) : RecSys :=
  let r := lebtlsRecRecv peer s.conn call
  ⟨r.2.2, s.records ++ r.2.1.toList⟩

/-! The records of the stream. -/

/-- The record that begins at byte `i` of the stream is handed out as `r`. -/
structure Rec.IsAt (r : Rec) (i : Nat) : Prop where
  type : r.type = peer i
  len : r.len = headerLen fun j => peer (i + j)
  data : 0 < r.len → ∃ b, r.data = some b ∧ b.size = r.len ∧
    ∀ j < r.len, b.bytes j = peer (i + recHeaderLen + j)

/-- Records that follow one another in the stream from byte `i` on, up to byte `j`. -/
def Delimited : Nat → List Rec → Nat → Prop
  | i, [], j => i = j
  | i, r :: rs, j => r.IsAt peer i ∧ Delimited (i + recHeaderLen + r.len) rs j

/-- What the call may do: header bytes stay within the header; when body bytes come in, the buffer is
live and as long as the header says and holds them; and the records handed out are those of the stream. -/
structure RecSafe (s : RecSys) (call : RecCall) : Prop where
  header : (recHeader peer s.conn call).2.recGot ≤ recHeaderLen ∨
    (recHeader peer s.conn call).2 = s.conn
  body : 0 < (recHeader peer s.conn call).1 →
    (recHeader peer s.conn call).2.recGot - recHeaderLen <
      (recBody peer (recHeader peer s.conn call).2 call).2.got →
    ∃ b, (recHeader peer s.conn call).2.recBuf = some b ∧
      b.size = headerLen (recHeader peer s.conn call).2.recHdr ∧
      (recBody peer (recHeader peer s.conn call).2 call).2.got ≤ b.size
  records : ∃ j, Delimited peer 0 (recStep peer s call).records j

end Receive

/-- A complete header whose body has no buffer: it was too long or the allocation failed. -/
def Conn.refused (c : Conn) : Prop := recHeaderLen ≤ c.recGot ∧ c.recBuf = none ∧ 0 < headerLen c.recHdr

/-- Some byte comes in before the loop gives up. -/
def receives (maxRounds : Nat) : Nat → List Recv → Bool
  | rounds, .idle :: recvs => if maxRounds ≤ rounds + 1 then false else receives maxRounds (rounds + 1) recvs
  | _, .data _ :: _ => true
  | _, _ => false

/-- No byte comes in after a header was refused. -/
def RecCalm (s : RecSys) (call : RecCall) : Prop :=
  s.conn.refused → receives call.maxRounds 0 call.body = false

section Fill

variable {peer : Nat → UInt8} {f : Filling} {recvs : List Recv} {len maxRounds rounds : Nat}

/-- What is filled is the stream from byte `i` on. -/
structure Filling.Holds (peer : Nat → UInt8) (i : Nat) (f : Filling) : Prop where
  taken : f.taken = i + f.got
  bytes : ∀ j < f.got, f.bytes j = peer (i + j)

theorem Filling.Holds.receive (h : f.Holds peer i) (n : Nat) : (f.receive peer n).Holds peer i := by
  refine ⟨?_, fun j hj => ?_⟩
  · have htaken := h.taken
    change f.taken + n = i + (f.got + n)
    omega
  · change (if _ then _ else _) = _
    split
    · rename_i hin
      rw [h.taken]
      congr 1
      omega
    · change j < f.got + n at hj
      exact h.bytes j (by omega)

/-- The loop fills on from where it was, no further than asked, and to the end when it succeeds. -/
structure Filled (peer : Nat → UInt8) (len : Nat) (f : Filling) (r : Int × Filling) : Prop where
  answer : r.1 = -1 ∨ r.1 = 0 ∨ r.1 = 1
  full : r.1 = 1 → r.2.got = len
  grown : f.got ≤ r.2.got
  inside : r.2.got ≤ len
  holds : ∀ i, f.Holds peer i → r.2.Holds peer i

theorem recvFill_done (h : len ≤ f.got) : recvFill peer len maxRounds rounds recvs f = (1, f) := by
  rw [recvFill.eq_def]
  exact if_neg (Nat.not_lt.mpr h)

theorem recvFill_more (h : f.got < len) : recvFill peer len maxRounds rounds recvs f =
    match recvs with
    | [] => (0, f)
    | .signal :: _ => (-1, f)
    | .error :: _ => (-1, f)
    | .closed :: _ => (-1, f)
    | .idle :: recvs =>
      if maxRounds ≤ rounds + 1 then (0, f) else recvFill peer len maxRounds (rounds + 1) recvs f
    | .data n :: recvs =>
      recvFill peer len maxRounds 0 recvs (f.receive peer (min (n + 1) (len - f.got))) := by
  rw [recvFill.eq_def]
  exact if_pos h

theorem Filled.stop (h : f.got ≤ len) (ha : a = -1 ∨ a = 0) : Filled peer len f (a, f) := by
  refine ⟨by tauto, fun hone => ?_, le_rfl, h, fun _ => id⟩
  change a = 1 at hone
  omega

theorem Filled.done (h : f.got = len) : Filled peer len f (1, f) :=
  ⟨Or.inr (Or.inr rfl), fun _ => h, le_rfl, h.le, fun _ => id⟩

theorem recvFill_filled (h : f.got ≤ len) : Filled peer len f (recvFill peer len maxRounds rounds recvs f) := by
  induction recvs generalizing rounds f with
  | nil =>
    by_cases hlt : f.got < len
    · rw [recvFill_more hlt]
      exact Filled.stop h (Or.inr rfl)
    · rw [recvFill_done (Nat.not_lt.mp hlt)]
      exact Filled.done (by omega)
  | cons recv recvs ih =>
    by_cases hlt : f.got < len
    · rw [recvFill_more hlt]
      cases recv with
      | signal => exact Filled.stop h (Or.inl rfl)
      | error => exact Filled.stop h (Or.inl rfl)
      | closed => exact Filled.stop h (Or.inl rfl)
      | idle =>
        dsimp only
        split
        · exact Filled.stop h (Or.inr rfl)
        · exact ih h
      | data n =>
        dsimp only
        have hle : (f.receive peer (min (n + 1) (len - f.got))).got ≤ len := by
          change f.got + _ ≤ len
          omega
        have hrest := @ih _ 0 hle
        exact ⟨hrest.answer, hrest.full, (Nat.le_add_right _ _).trans hrest.grown, hrest.inside,
          fun i hi => hrest.holds i (hi.receive _)⟩
    · rw [recvFill_done (Nat.not_lt.mp hlt)]
      exact Filled.done (by omega)

/-- Where no byte comes in the loop gives up with nothing changed. -/
theorem recvFill_quiet (hlt : f.got < len) (hq : receives maxRounds rounds recvs = false) :
    (recvFill peer len maxRounds rounds recvs f).1 ≤ 0 ∧
      (recvFill peer len maxRounds rounds recvs f).2 = f := by
  induction recvs generalizing rounds with
  | nil =>
    rw [recvFill_more hlt]
    exact ⟨le_rfl, rfl⟩
  | cons recv recvs ih =>
    rw [recvFill_more hlt]
    cases recv with
    | signal => exact ⟨(by decide : (-1 : Int) ≤ 0), rfl⟩
    | error => exact ⟨(by decide : (-1 : Int) ≤ 0), rfl⟩
    | closed => exact ⟨(by decide : (-1 : Int) ≤ 0), rfl⟩
    | idle =>
      rw [receives] at hq
      dsimp only
      split
      · exact ⟨le_rfl, rfl⟩
      · rename_i hrounds
        rw [if_neg hrounds] at hq
        exact ih hq
    | data n => cases hq

/-- Where one does, something is filled. -/
theorem recvFill_receives (hlt : f.got < len) (hr : receives maxRounds rounds recvs = true) :
    f.got < (recvFill peer len maxRounds rounds recvs f).2.got := by
  induction recvs generalizing rounds with
  | nil => cases hr
  | cons recv recvs ih =>
    rw [recvFill_more hlt]
    cases recv with
    | signal => cases hr
    | error => cases hr
    | closed => cases hr
    | idle =>
      rw [receives] at hr
      dsimp only
      split
      · rename_i hrounds
        rw [if_pos hrounds] at hr
        cases hr
      · rename_i hrounds
        rw [if_neg hrounds] at hr
        exact ih hr
    | data n =>
      dsimp only
      have hle : (f.receive peer (min (n + 1) (len - f.got))).got ≤ len := by
        change f.got + _ ≤ len
        omega
      have hmore : f.got < (f.receive peer (min (n + 1) (len - f.got))).got := by
        change f.got < f.got + _
        omega
      exact hmore.trans_le (recvFill_filled hle).grown

end Fill

section Calls

variable {peer : Nat → UInt8} {s : RecSys} {c : Conn} {call : RecCall} {i j : Nat}

/-- The connection in the middle of the record that begins at byte `i`. -/
structure Conn.Reading (peer : Nat → UInt8) (i : Nat) (c : Conn) : Prop where
  taken : c.taken = i + c.recGot
  header : ∀ j < recHeaderLen, j < c.recGot → c.recHdr j = peer (i + j)
  unbuffered : c.recBuf = none → c.recGot ≤ recHeaderLen
  buffered : ∀ b, c.recBuf = some b → recHeaderLen ≤ c.recGot ∧ b.size = headerLen c.recHdr ∧
    c.recGot ≤ recHeaderLen + b.size ∧
    ∀ j, recHeaderLen + j < c.recGot → b.bytes j = peer (i + recHeaderLen + j)

theorem Conn.Reading.early (h : c.Reading peer i) (hlt : c.recGot < recHeaderLen) : c.recBuf = none := by
  cases hbuf : c.recBuf with
  | none => rfl
  | some b =>
    have hlow := (h.buffered b hbuf).1
    omega

/-- The part up to the body reads on in the header, and refuses it or prepares the buffer. -/
theorem recHeader_reading (h : c.Reading peer i) (call : RecCall) :
    (recHeader peer c call).2.Reading peer i ∧
      (0 < (recHeader peer c call).1 → recHeaderLen ≤ (recHeader peer c call).2.recGot) ∧
      (0 < (recHeader peer c call).1 → (recHeader peer c call).2.refused → c.refused) ∧
      ((recHeader peer c call).2.recGot ≤ recHeaderLen ∨ (recHeader peer c call).2 = c) := by
  rw [recHeader]
  split
  · rename_i hlt
    have hnone := h.early hlt
    have hfill := @recvFill_filled peer ⟨c.recHdr, c.recGot, c.taken⟩ call.header recHeaderLen
      call.maxRounds 0 hlt.le
    have hholds := hfill.holds i ⟨h.taken, fun j hj => h.header j (hj.trans hlt) hj⟩
    generalize recvFill peer recHeaderLen call.maxRounds 0 call.header ⟨c.recHdr, c.recGot, c.taken⟩ = r
      at hfill hholds ⊢
    have hinside := hfill.inside
    have hread : ({ c with recHdr := r.2.bytes, recGot := r.2.got, taken := r.2.taken } : Conn).Reading peer i :=
      ⟨hholds.taken, fun j _ hj => hholds.bytes j hj, fun _ => hinside,
        fun b hb => by rw [hnone] at hb; cases hb⟩
    dsimp only
    split
    · rename_i hfail
      have hstop : ¬0 < r.1 := not_lt.mpr hfail
      exact ⟨hread, fun hpos => absurd hpos hstop, fun hpos => absurd hpos hstop, Or.inl hinside⟩
    rename_i hpos
    have hall : r.2.got = recHeaderLen := by
      obtain ha | ha | ha := hfill.answer
      · rw [ha] at hpos
        exact absurd (by decide) hpos
      · rw [ha] at hpos
        exact absurd le_rfl hpos
      · exact hfill.full ha
    have hminus : ¬(0 : Int) < -1 := by decide
    split
    · exact ⟨hread, fun hpos => absurd hpos hminus, fun hpos => absurd hpos hminus, Or.inl hinside⟩
    split
    · split
      · refine ⟨⟨hread.taken, hread.header, fun hb => ?_, fun b hb => ?_⟩, fun _ => hall.ge, fun _ hbad => ?_,
          Or.inl hinside⟩
        · cases hb
        · cases hb
          refine ⟨hall.ge, rfl, ?_, fun j hj => ?_⟩
          · exact hall.le.trans (Nat.le_add_right _ _)
          · change _ < r.2.got at hj
            omega
        · cases hbad.2.1
      · refine ⟨⟨hread.taken, hread.header, fun _ => hinside, fun b hb => ?_⟩, fun hpos => absurd hpos hminus,
          fun hpos => absurd hpos hminus, Or.inl hinside⟩
        cases hb
    · rename_i hempty
      exact ⟨hread, fun _ => hall.ge, fun _ hbad => absurd hbad.2.2 hempty, Or.inl hinside⟩
  · rename_i hge
    rw [not_lt] at hge
    exact ⟨h, fun _ => hge, fun _ => id, Or.inr rfl⟩

theorem recHeader_refused (h : c.refused) (call : RecCall) : recHeader peer c call = (1, c) := by
  rw [recHeader, if_neg (Nat.not_lt.mpr h.1)]

/-- The part for the body fills the buffer, if a body is to come. -/
theorem recBody_filled (h : c.Reading peer i) (hgot : recHeaderLen ≤ c.recGot) (hbuf : ¬c.refused)
    (call : RecCall) :
    Filled peer (headerLen c.recHdr) ⟨(c.recBuf.map RecBuf.bytes).getD fun _ => 0, c.recGot - recHeaderLen, c.taken⟩
      (recBody peer c call) ∧ (recBody peer c call).2.Holds peer (i + recHeaderLen) ∧
      ((recBody peer c call).2.got ≠ 0 → ∃ b, c.recBuf = some b ∧ b.size = headerLen c.recHdr) := by
  have hstart : c.recGot - recHeaderLen ≤ headerLen c.recHdr ∧ Filling.Holds peer (i + recHeaderLen)
      ⟨(c.recBuf.map RecBuf.bytes).getD fun _ => 0, c.recGot - recHeaderLen, c.taken⟩ := by
    have htaken : c.taken = i + recHeaderLen + (c.recGot - recHeaderLen) := by
      rw [h.taken]
      omega
    cases hb : c.recBuf with
    | none =>
      have hfive := h.unbuffered hb
      refine ⟨by omega, htaken, fun j hj => ?_⟩
      change j < c.recGot - recHeaderLen at hj
      omega
    | some b =>
      obtain ⟨-, hsize, hroom, hbytes⟩ := h.buffered b hb
      refine ⟨by omega, htaken, fun j hj => hbytes j ?_⟩
      change j < c.recGot - recHeaderLen at hj
      omega
  have hfill := @recvFill_filled peer
    ⟨(c.recBuf.map RecBuf.bytes).getD fun _ => 0, c.recGot - recHeaderLen, c.taken⟩ call.body
    (headerLen c.recHdr) call.maxRounds 0 hstart.1
  refine ⟨hfill, hfill.holds _ hstart.2, fun hne => ?_⟩
  have hinside : (recBody peer c call).2.got ≤ headerLen c.recHdr := hfill.inside
  cases hb : c.recBuf with
  | none => exact absurd ⟨hgot, hb, by omega⟩ hbuf
  | some b => exact ⟨b, rfl, (h.buffered b hb).2.1⟩

theorem delimited_append {rs : List Rec} {r : Rec} (h : Delimited peer i rs j) (hr : r.IsAt peer j) :
    Delimited peer i (rs ++ [r]) (j + recHeaderLen + r.len) := by
  induction rs generalizing i with
  | nil =>
    obtain rfl := h
    exact ⟨hr, rfl⟩
  | cons r' rs ih => exact ⟨h.1, ih h.2⟩

/-- The records handed out are those of the stream up to the one the connection is in. -/
def RecInv (peer : Nat → UInt8) (s : RecSys) : Prop :=
  ∃ i, Delimited peer 0 s.records i ∧ s.conn.Reading peer i

/-- A refused connection that no byte comes to stays as it is. -/
theorem recBody_quiet (hrefused : c.refused) (hread : c.Reading peer i)
    (hq : receives call.maxRounds 0 call.body = false) :
    (recBody peer c call).1 ≤ 0 ∧ (recBody peer c call).2 =
      ⟨(c.recBuf.map RecBuf.bytes).getD fun _ => 0, c.recGot - recHeaderLen, c.taken⟩ := by
  obtain ⟨hgot, hbuf, hlen⟩ := hrefused
  have hfive := hread.unbuffered hbuf
  have hlt : c.recGot - recHeaderLen < headerLen c.recHdr := by omega
  exact @recvFill_quiet peer ⟨_, c.recGot - recHeaderLen, c.taken⟩ call.body _ call.maxRounds 0 hlt hq

/-- What a call leaves that goes on to the body. -/
theorem lebtlsRecRecv_body (h : 0 < (recHeader peer c call).1) :
    lebtlsRecRecv peer c call =
      if (recBody peer (recHeader peer c call).2 call).1 ≤ 0 then
        ((recBody peer (recHeader peer c call).2 call).1, none,
          { (recHeader peer c call).2 with
            recBuf := (recHeader peer c call).2.recBuf.map fun b =>
              { b with bytes := (recBody peer (recHeader peer c call).2 call).2.bytes }
            recGot := recHeaderLen + (recBody peer (recHeader peer c call).2 call).2.got
            taken := (recBody peer (recHeader peer c call).2 call).2.taken })
      else
        ((recBody peer (recHeader peer c call).2 call).1,
          some ⟨(recHeader peer c call).2.recHdr 0,
            (recHeader peer c call).2.recBuf.map fun b =>
              { b with bytes := (recBody peer (recHeader peer c call).2 call).2.bytes },
            headerLen (recHeader peer c call).2.recHdr⟩,
          { (recHeader peer c call).2 with
            recBuf := none
            recGot := 0
            taken := (recBody peer (recHeader peer c call).2 call).2.taken }) := by
  rw [lebtlsRecRecv, if_neg (not_le.mpr h)]

section Body

variable {f : Filling}

/-- The connection when the loop over the body gives up. -/
theorem Conn.Reading.fill (h : c.Reading peer i) (hgot : recHeaderLen ≤ c.recGot)
    (hinside : f.got ≤ headerLen c.recHdr) (hholds : f.Holds peer (i + recHeaderLen))
    (hbuf : f.got ≠ 0 → ∃ b, c.recBuf = some b ∧ b.size = headerLen c.recHdr) :
    ({ c with
      recBuf := c.recBuf.map fun b => { b with bytes := f.bytes }
      recGot := recHeaderLen + f.got
      taken := f.taken } : Conn).Reading peer i := by
  refine ⟨?_, fun j hj _ => h.header j hj (hj.trans_le hgot), fun hb => ?_, fun b hb => ?_⟩
  · have htaken := hholds.taken
    change f.taken = i + (recHeaderLen + f.got)
    omega
  · change recHeaderLen + f.got ≤ recHeaderLen
    by_contra hne
    obtain ⟨b, hsome, -⟩ := hbuf (by omega)
    change c.recBuf.map _ = none at hb
    rw [hsome] at hb
    cases hb
  · obtain ⟨b₀, hb₀, rfl⟩ := Option.map_eq_some_iff.mp hb
    have hsize := (h.buffered b₀ hb₀).2.1
    refine ⟨Nat.le_add_right _ _, hsize, ?_, fun j hj => hholds.bytes j ?_⟩
    · change recHeaderLen + f.got ≤ recHeaderLen + b₀.size
      omega
    · change recHeaderLen + j < recHeaderLen + f.got at hj
      omega

/-- The record and the connection when the loop over the body succeeds. -/
theorem Conn.Reading.finish (h : c.Reading peer i) (hgot : recHeaderLen ≤ c.recGot)
    (hlen : f.got = headerLen c.recHdr) (hholds : f.Holds peer (i + recHeaderLen))
    (hbuf : f.got ≠ 0 → ∃ b, c.recBuf = some b ∧ b.size = headerLen c.recHdr) :
    (⟨c.recHdr 0, c.recBuf.map fun b => { b with bytes := f.bytes }, headerLen c.recHdr⟩ : Rec).IsAt peer i ∧
      ({ c with recBuf := none, recGot := 0, taken := f.taken } : Conn).Reading peer
        (i + recHeaderLen + headerLen c.recHdr) := by
  have hhdr : ∀ j < recHeaderLen, c.recHdr j = peer (i + j) := fun j hj => h.header j hj (hj.trans_le hgot)
  constructor
  · refine ⟨hhdr 0 (by decide), ?_, fun hpos => ?_⟩
    · rw [headerLen, headerLen, hhdr 3 (by decide), hhdr 4 (by decide)]
    · change 0 < headerLen c.recHdr at hpos
      obtain ⟨b, hb, hsize⟩ := hbuf (by omega)
      refine ⟨{ b with bytes := f.bytes }, ?_, hsize, fun j hj => hholds.bytes j ?_⟩
      · change c.recBuf.map _ = _
        rw [hb]
        rfl
      · exact hlen ▸ hj
  · refine ⟨?_, fun j _ hj => absurd hj (Nat.not_lt_zero _), fun _ => Nat.zero_le _, fun b hb => ?_⟩
    · have htaken := hholds.taken
      change f.taken = _ + 0
      omega
    · cases hb

end Body

/-- A call that finds no refused header, or meets no byte then, is safe and reads on. -/
theorem recStep_calm (h : RecInv peer s) (hcalm : RecCalm s call) :
    RecInv peer (recStep peer s call) ∧ RecSafe peer s call := by
  obtain ⟨i, hrecords, hreading⟩ := h
  obtain ⟨hread, hgot, hrefused, hheader⟩ := recHeader_reading hreading call
  by_cases hpos : 0 < (recHeader peer s.conn call).1
  · by_cases href : s.conn.refused
    · obtain ⟨hzero, hkeep⟩ := recBody_quiet href hreading (hcalm href)
      have hsame : recHeader peer s.conn call = (1, s.conn) := recHeader_refused href call
      have hconn : ({ s.conn with
          recBuf := s.conn.recBuf.map fun b => { b with bytes := (recBody peer s.conn call).2.bytes }
          recGot := recHeaderLen + (recBody peer s.conn call).2.got
          taken := (recBody peer s.conn call).2.taken } : Conn) = s.conn := by
        have hback : recHeaderLen + (s.conn.recGot - recHeaderLen) = s.conn.recGot := Nat.add_sub_cancel' href.1
        rw [hkeep, href.2.1]
        dsimp only
        rw [hback, Option.map_none, ← href.2.1]
      have hstep : recStep peer s call = s := by
        rw [recStep, lebtlsRecRecv_body hpos, hsame]
        dsimp only
        rw [if_pos hzero, hconn]
        exact congrArg _ (List.append_nil _)
      rw [hstep]
      refine ⟨⟨i, hrecords, hreading⟩, hheader, ?_, ⟨i, ?_⟩⟩
      · intro _ hmore
        rw [hsame] at hmore
        change s.conn.recGot - recHeaderLen < (recBody peer s.conn call).2.got at hmore
        rw [hkeep] at hmore
        exact absurd hmore (lt_irrefl _)
      · rw [hstep]
        exact hrecords
    · have hnew : ¬(recHeader peer s.conn call).2.refused := fun hbad => href (hrefused hpos hbad)
      obtain ⟨hfill, hholds, hbuf⟩ := recBody_filled hread (hgot hpos) hnew call
      have hsafe : (recHeader peer s.conn call).2.recGot - recHeaderLen <
          (recBody peer (recHeader peer s.conn call).2 call).2.got →
          ∃ b, (recHeader peer s.conn call).2.recBuf = some b ∧
            b.size = headerLen (recHeader peer s.conn call).2.recHdr ∧
            (recBody peer (recHeader peer s.conn call).2 call).2.got ≤ b.size := by
        intro hmore
        obtain ⟨b, hb, hsize⟩ := hbuf (Nat.ne_zero_of_lt hmore)
        exact ⟨b, hb, hsize, hsize ▸ hfill.inside⟩
      obtain ⟨j, hdone⟩ : ∃ j, Delimited peer 0 (recStep peer s call).records j ∧
          (recStep peer s call).conn.Reading peer j := by
        rw [recStep, lebtlsRecRecv_body hpos]
        split
        · rw [Option.toList_none, List.append_nil]
          exact ⟨i, hrecords, hread.fill (hgot hpos) hfill.inside hholds hbuf⟩
        · rename_i hyes
          have hlen := hfill.full (by
            obtain ha | ha | ha := hfill.answer
            · rw [ha] at hyes
              exact absurd (by decide) hyes
            · rw [ha] at hyes
              exact absurd le_rfl hyes
            · exact ha)
          rw [Option.toList_some]
          obtain ⟨hrec, hnext⟩ := hread.finish (hgot hpos) hlen hholds hbuf
          exact ⟨_, delimited_append hrecords hrec, hnext⟩
      exact ⟨⟨j, hdone⟩, hheader, fun _ hmore => hsafe hmore, ⟨j, hdone.1⟩⟩
  · have hstop : (recHeader peer s.conn call).1 ≤ 0 := not_lt.mp hpos
    have hstep : recStep peer s call = ⟨(recHeader peer s.conn call).2, s.records⟩ := by
      rw [recStep, lebtlsRecRecv, if_pos hstop]
      exact congrArg _ (List.append_nil _)
    refine ⟨⟨i, ?_⟩, hheader, fun hyes => absurd hyes hpos, ⟨i, ?_⟩⟩
    · rw [hstep]
      exact ⟨hrecords, hread⟩
    · rw [hstep]
      exact hrecords

/-- A byte that comes in after a header was refused is written through no buffer. -/
theorem RecSafe.calm (h : RecInv peer s) (hsafe : RecSafe peer s call) : RecCalm s call := by
  intro href
  obtain ⟨i, -, hreading⟩ := h
  have hsame : recHeader peer s.conn call = (1, s.conn) := recHeader_refused href call
  have hfive := hreading.unbuffered href.2.1
  have hlen := href.2.2
  have hlt : s.conn.recGot - recHeaderLen < headerLen s.conn.recHdr := by omega
  by_contra hmore
  rw [Bool.not_eq_false] at hmore
  have hgrow := @recvFill_receives peer
    ⟨(s.conn.recBuf.map RecBuf.bytes).getD fun _ => 0, s.conn.recGot - recHeaderLen, s.conn.taken⟩ call.body
    _ call.maxRounds 0 hlt hmore
  have hbody := hsafe.body
  rw [hsame] at hbody
  obtain ⟨b, hb, -⟩ := hbody (show (0 : Int) < 1 by decide) hgrow
  change s.conn.recBuf = some b at hb
  rw [href.2.1] at hb
  cases hb

theorem recStart_inv (peer hdr : Nat → UInt8) : RecInv peer (recStart hdr) :=
  ⟨0, rfl, rfl, fun _ _ hj => absurd hj (Nat.not_lt_zero _), fun _ => Nat.zero_le _, fun _ hb => by cases hb⟩

/-- A run of calls is safe exactly when no byte comes in after a header was refused. -/
theorem lebtlsRecRecv_safe_iff (peer hdr : Nat → UInt8) (calls : List RecCall) :
    Along (recStep peer) (RecSafe peer) (recStart hdr) calls ↔
      Along (recStep peer) RecCalm (recStart hdr) calls := by
  apply along_iff (I := RecInv peer)
  · intro s call hinv hsafe
    exact (recStep_calm hinv (hsafe.calm hinv)).1
  · intro s call hinv
    exact ⟨fun hsafe => hsafe.calm hinv, fun hcalm => (recStep_calm hinv hcalm).2⟩
  · exact recStart_inv peer hdr

/-- A stream that begins with the header of a record of 3 bytes. -/
def shortStream : Nat → UInt8 := fun i => if i = 0 then 23 else if i = 4 then 3 else 0

/-- A call whose allocation fails, and one after it that receives a byte. -/
def failedThenRead : List RecCall :=
  [⟨0, [.data 4], [], false, fun _ => 0⟩, ⟨0, [], [.data 0], true, fun _ => 0⟩]

/-- The second call writes the byte through a null pointer. -/
theorem failedThenRead_unsafe :
    ¬Along (recStep shortStream) (RecSafe shortStream) (recStart fun _ => 0) failedThenRead := by
  intro hsafe
  obtain ⟨hfirst, hsecond, -⟩ := hsafe
  have hinv := (recStep_calm (recStart_inv shortStream _) (hfirst.calm (recStart_inv shortStream _))).1
  have hquiet := hsecond.calm hinv ⟨by decide, rfl, by decide⟩
  cases hquiet

end Calls

end Lebirun.Tls
