import Mathlib
import Lebirun.Lib.Run
import Lebirun.Tcp.Buffer

namespace Lebirun.Tcp
set_option autoImplicit true

open Machine

/-- The sequence number of byte `n` of a stream that began with SYN number `irs`. -/
def seqAt (irs : Seq) (n : Nat) : Seq := irs + 1 + BitVec.ofNat 32 n

theorem seqAt_add (irs : Seq) (n m : Nat) : seqAt irs (n + m) = seqAt irs n + BitVec.ofNat 32 m := by
  rw [seqAt, seqAt, BitVec.ofNat_add, BitVec.add_assoc, BitVec.add_assoc, BitVec.add_assoc]

/-- Modular comparison is right for positions less than half the space apart. -/
theorem seqAt_sub_toInt (irs : Seq) {k n : Nat} (h1 : n ≤ k + 2 ^ 31) (h2 : k < n + 2 ^ 31) :
    (seqAt irs k - seqAt irs n).toInt = (k : Int) - n := by
  have hi := irs.isLt
  simp only [seqAt, BitVec.toInt_eq_toNat_cond, BitVec.toNat_sub, BitVec.toNat_add,
    BitVec.toNat_ofNat]
  omega

theorem seqAt_sub_toNat (irs : Seq) {k n : Nat} (h1 : k ≤ n) (h2 : n < k + 2 ^ 32) :
    (seqAt irs n - seqAt irs k).toNat = n - k := by
  have hi := irs.isLt
  simp only [seqAt, BitVec.toNat_sub, BitVec.toNat_add, BitVec.toNat_ofNat]
  omega

/-- Bytes `k` and following of the stream. -/
structure At (stream : List UInt8) (irs : Seq) (seq : Seq) (data : List UInt8) (k : Nat) : Prop where
  number : seq = seqAt irs k
  bytes : data = (stream.drop k).take data.length
  inside : k + data.length ≤ stream.length

/-- A receiver and what its reader has been given. -/
structure Rx where
  sock : Socket
  delivered : List UInt8 := []

def Rx.placed (x : Rx) : Nat := x.delivered.length + x.sock.recvBuffer.toList.length

inductive RxOp where
  | segment (l : Luck) (g : Segment)
  | read (o : Outcome) (len : Nat) (peek : Bool)

def rxStep (x : Rx) : RxOp → Rx
  | .segment l g => { x with sock := (receiveSocket l x.sock g).2.1 }
  | .read o len peek =>
    let r := tcpRecv o x.sock len peek
    ⟨r.2.1, if peek then x.delivered else x.delivered ++ r.1⟩

/-- A connection just established: nothing received, nothing waiting. -/
def rxInit (s : Socket) (irs : Seq) : Rx :=
  { sock := { s with
      state := .established, recvNext := irs + 1, recvBuffer := ⟨fun _ => 0, 0, 0, 0⟩, ooo := [] } }

/-- A segment that carries part of the stream, and its end if it has a FIN, within half the
sequence space of `n`. -/
def Carries (stream : List UInt8) (irs : Seq) (n : Nat) (g : Segment) : Prop :=
  g.flags.rst = false ∧ ∃ k, At stream irs g.seq g.payload k ∧
    (g.flags.fin = true → k + g.payload.length = stream.length) ∧
    n < k + 2 ^ 31 ∧ k + g.payload.length < n + 2 ^ 31

def RxOp.Legal (stream : List UInt8) (irs : Seq) (x : Rx) : RxOp → Prop
  | .segment _ g => Carries stream irs x.placed g
  | .read _ _ _ => True

def RetxSeg.next (e : RetxSeg) : Seq := e.seq + BitVec.ofNat 32 e.data.length

/-- Nothing waits in the out-of-order queue that begins `2 ^ 31` bytes or more before the end of
the segment or of something else that waits. -/
def Timely (s : Socket) (g : Segment) : Prop :=
  ∀ e ∈ s.ooo, ∀ last ∈ (g.seq + BitVec.ofNat 32 g.payload.length) :: s.ooo.map RetxSeg.next,
    (s.recvNext - e.seq).toInt + (last - s.recvNext).toInt < 2 ^ 31

/-- A FIN that comes with data which is due brings some that is new, and the numbers of that stay
below `2 ^ 32`. -/
def PlainFin (s : Socket) (g : Segment) : Prop :=
  g.flags.fin = true → g.payload ≠ [] → (g.seq - s.recvNext).toInt ≤ 0 →
    (-(g.seq - s.recvNext).toInt).toNat < g.payload.length ∧
    s.recvNext.toNat + (g.payload.length - (-(g.seq - s.recvNext).toInt).toNat) < 2 ^ 32

def RxOp.Sound (x : Rx) : RxOp → Prop
  | .segment _ g => x.sock.state = .established → Timely x.sock g ∧ PlainFin x.sock g
  | .read _ _ _ => True

/-- The receive buffer continues what was delivered up to byte `n`. -/
structure Placed (stream : List UInt8) (irs : Seq) (d : List UInt8) (s : Socket) (n : Nat) : Prop where
  ok : s.recvBuffer.Ok
  bytes : d ++ s.recvBuffer.toList = stream.take n
  le : n ≤ stream.length
  next : s.recvNext = seqAt irs n

section
variable {stream : List UInt8} {irs : Seq} {s : Socket} {d : List UInt8} {n : Nat}

theorem take_add_slice (stream : List UInt8) (n m : Nat) :
    stream.take n ++ (stream.drop n).take m = stream.take (n + m) := List.take_add.symm

/-- The next bytes of the stream are appended. -/
theorem Placed.append (h : Placed stream irs d s n) (a : Bool) {data : List UInt8}
    (hdata : data = (stream.drop n).take data.length) (hle : n + data.length ≤ stream.length) :
    Placed stream irs d (tcpRxAppend a s data).2 (n + (tcpRxAppend a s data).1) ∧
      (tcpRxAppend a s data).1 ≤ data.length := by
  obtain ⟨h1, h2, h3, h4⟩ := tcpRxAppend_spec h.ok a data
  refine ⟨⟨h2, ?_, by omega, ?_⟩, h1⟩
  · rw [h3, ← List.append_assoc, h.bytes, hdata, List.take_take, ← hdata, Nat.min_eq_left h1]
    exact take_add_slice ..
  · rw [h4, h.next, seqAt_add]

/-- What is left of a segment after its first `m` bytes. -/
theorem At.drop {seq : Seq} {data : List UInt8} (h : At stream irs seq data k) (m : Nat) :
    data.drop m = (stream.drop (k + m)).take (data.drop m).length := by
  rw [List.length_drop]
  conv_lhs => rw [h.bytes]
  rw [List.drop_take, List.drop_drop]

/-- Draining the queue appends what follows in the stream and nothing else. -/
theorem Placed.drain (grow : Nat → Bool) (l : List RetxSeg) (j : Nat) (K : RetxSeg → Nat)
    (h : Placed stream irs d s n) (hat : ∀ e ∈ l, At stream irs e.seq e.data (K e))
    (hpast : ∀ e ∈ l, n < K e + 2 ^ 31) (hahead : ∀ e ∈ l, K e + e.data.length < n + 2 ^ 31)
    (hpair : ∀ e ∈ l, ∀ e' ∈ l, K e' + e'.data.length < K e + 2 ^ 31) :
    ∃ m, n ≤ m ∧ Placed stream irs d (oooDrainFrom grow j l s) m ∧
      ∀ e ∈ (oooDrainFrom grow j l s).ooo, e ∈ l ∧ m < K e + 2 ^ 31 := by
  induction l generalizing j s n with
  | nil => exact ⟨n, le_rfl, ⟨h.ok, h.bytes, h.le, h.next⟩, nofun⟩
  | cons e l ih =>
    have he := hat e List.mem_cons_self
    have hp := hpast e List.mem_cons_self
    have ha := hahead e List.mem_cons_self
    have hat' : ∀ x ∈ l, At stream irs x.seq x.data (K x) :=
      fun x hx => hat x (List.mem_cons_of_mem _ hx)
    have hpair' : ∀ x ∈ l, ∀ x' ∈ l, K x' + x'.data.length < K x + 2 ^ 31 :=
      fun x hx x' hx' => hpair x (List.mem_cons_of_mem _ hx) x' (List.mem_cons_of_mem _ hx')
    have hint : (e.seq - s.recvNext).toInt = (K e : Int) - n := by
      rw [he.number, h.next]
      exact seqAt_sub_toInt irs (by omega) (by omega)
    rw [oooDrainFrom]
    split
    · rename_i hdue
      rw [hint] at hdue
      have hoff : (s.recvNext - e.seq).toNat = n - K e := by
        rw [he.number, h.next]
        exact seqAt_sub_toNat irs (by omega) (by omega)
      rw [hoff]
      dsimp only
      split
      · rename_i hnew
        have hdata := he.drop (n - K e)
        rw [Nat.add_sub_cancel' (by omega)] at hdata
        have hlen : (e.data.drop (n - K e)).length = e.data.length - (n - K e) := List.length_drop
        have hin := he.inside
        obtain ⟨hr, hle⟩ := h.append (grow j) hdata (by omega)
        have hbound : ∀ x ∈ e :: l,
            n + (tcpRxAppend (grow j) s (e.data.drop (n - K e))).1 < K x + 2 ^ 31 := by
          intro x hx
          have hx' := hpair x hx e List.mem_cons_self
          omega
        split
        · refine ⟨_, Nat.le_add_right _ _, ⟨hr.ok, hr.bytes, hr.le, hr.next⟩, ?_⟩
          exact fun x hx => ⟨hx, hbound x hx⟩
        · obtain ⟨m, h1, h2, h3⟩ := ih (j + 1) hr hat'
            (fun x hx => hbound x (List.mem_cons_of_mem _ hx))
            (fun x hx => by have := hahead x (List.mem_cons_of_mem _ hx); omega) hpair'
          refine ⟨m, by omega, h2, ?_⟩
          exact fun x hx => ⟨List.mem_cons_of_mem _ (h3 x hx).1, (h3 x hx).2⟩
      · obtain ⟨m, h1, h2, h3⟩ := ih (j + 1) h hat'
          (fun x hx => hpast x (List.mem_cons_of_mem _ hx))
          (fun x hx => hahead x (List.mem_cons_of_mem _ hx)) hpair'
        refine ⟨m, h1, h2, ?_⟩
        exact fun x hx => ⟨List.mem_cons_of_mem _ (h3 x hx).1, (h3 x hx).2⟩
    · refine ⟨n, le_rfl, ⟨h.ok, h.bytes, h.le, h.next⟩, ?_⟩
      exact fun x hx => ⟨hx, hpast x hx⟩

/-- What waits in the out-of-order queue is part of the stream, not yet out of reach. -/
def Queued (stream : List UInt8) (irs : Seq) (s : Socket) (n : Nat) : Prop :=
  ∃ K : RetxSeg → Nat, ∀ e ∈ s.ooo, At stream irs e.seq e.data (K e) ∧ n < K e + 2 ^ 31 ∧
    K e + e.data.length < n + 2 ^ 31

theorem mem_oooInsert {seg e : RetxSeg} {a : Bool} {l : List RetxSeg} (h : e ∈ oooInsert seg a l) :
    e = seg ∨ e ∈ l := by
  induction l with
  | nil =>
    rw [oooInsert] at h
    split at h
    · exact .inl (List.mem_singleton.1 h)
    · cases h
  | cons x l ih =>
    rw [oooInsert] at h
    split at h
    · rcases List.mem_cons.1 h with rfl | h
      · exact .inr List.mem_cons_self
      · exact (ih h).imp_right (List.mem_cons_of_mem _)
    · split at h
      · exact .inr h
      · split at h
        · exact (List.mem_cons.1 h).imp_right fun h => h
        · exact .inr h

theorem Queued.add (h : Queued stream irs s n) (a : Bool) {seq : Seq} {data : List UInt8} {k : Nat}
    (hat : At stream irs seq data k) (h1 : n < k + 2 ^ 31) (h2 : k + data.length < n + 2 ^ 31) :
    Queued stream irs (tcpOooAdd a s seq data) n := by
  rw [tcpOooAdd]
  split
  · exact h
  · obtain ⟨K, hK⟩ := h
    refine ⟨Function.update K { data, seq } k, ?_⟩
    intro e he
    by_cases hseg : e = { data, seq }
    · rw [hseg, Function.update_self]
      exact ⟨hat, h1, h2⟩
    · rw [Function.update_of_ne hseg]
      exact hK e ((mem_oooInsert he).resolve_left hseg)

theorem sendAck_received (o : Outcome) (s : Socket) : (sendAck o s).1.recvBuffer = s.recvBuffer ∧
    (sendAck o s).1.recvNext = s.recvNext ∧ (sendAck o s).1.ooo = s.ooo ∧
    (sendAck o s).1.state = s.state := by
  obtain ⟨n, w, h⟩ := sendAck_frame o s
  rw [h]
  exact ⟨rfl, rfl, rfl, rfl⟩

theorem Placed.congr (h : Placed stream irs d s n) (hb : s'.recvBuffer = s.recvBuffer)
    (hn : s'.recvNext = s.recvNext) : Placed stream irs d s' n :=
  ⟨hb ▸ h.ok, hb ▸ h.bytes, h.le, hn.trans h.next⟩

/-- The receiver's state before the FIN. -/
structure Open (stream : List UInt8) (irs : Seq) (d : List UInt8) (s : Socket) (n : Nat) : Prop where
  state : s.state = .established
  placed : Placed stream irs d s n
  queued : Queued stream irs s n

theorem Open.ack (h : Open stream irs d s n) (o : Outcome) :
    Open stream irs d (sendAck o s).1 n := by
  obtain ⟨h1, h2, h3, h4⟩ := sendAck_received o s
  refine ⟨h4.trans h.state, h.placed.congr h1 h2, ?_⟩
  rw [Queued, h3]
  exact h.queued

/-- The receiver's state after the FIN: the whole stream has been placed. -/
structure Ended (stream : List UInt8) (d : List UInt8) (s : Socket) : Prop where
  state : s.state = .closeWait
  ok : s.recvBuffer.Ok
  bytes : d ++ s.recvBuffer.toList = stream

/-- The end of a segment: with a FIN whose data has come in whole, the stream is over. -/
theorem Open.fin (h : Open stream irs d s n) (l : Luck) (fin : Bool) {seq : Seq} {k len : Nat}
    (hseq : seq = seqAt irs k) (hend : fin = true → k + len = stream.length)
    (hle : fin = true → n ≤ k + len ∧ k + len < n + 2 ^ 32)
    (hplain : fin = true → k + len = n → seq.toNat + len < 2 ^ 32) :
    (Open stream irs d (receiveFin l s fin seq len).1 n ∧ (fin = true → n ≠ stream.length)) ∨
      (fin = true ∧ n = stream.length ∧ Ended stream d (receiveFin l s fin seq len).1) := by
  rw [receiveFin]
  cases fin with
  | false =>
    left
    simp only [Bool.false_eq_true, if_false, false_implies, and_true]
    split
    · exact h.ack _
    · exact h
  | true =>
    obtain ⟨hle1, hle2⟩ := hle rfl
    have hend' := hend rfl
    simp only [if_true, true_implies, true_and]
    have hiff : seq.toNat + len ≠ s.recvNext.toNat ↔ n ≠ stream.length := by
      have hp := hplain rfl
      have hi := irs.isLt
      rw [h.placed.next]
      rw [hseq] at hp ⊢
      simp only [seqAt, BitVec.toNat_add, BitVec.toNat_ofNat] at hp ⊢
      omega
    split
    · rename_i hne
      exact .inl ⟨h.ack _, hiff.1 hne⟩
    · rename_i heq
      right
      have hn : n = stream.length := not_not.1 fun hne => heq (hiff.2 hne)
      obtain ⟨h1, h2, h3, h4⟩ := sendAck_received l.send
        { s with recvNext := s.recvNext + 1, state := .closeWait }
      refine ⟨hn, ⟨h4, ?_, ?_⟩⟩
      · rw [h1]
        exact h.placed.ok
      · rw [h1]
        have hbytes := h.placed.bytes
        rw [hn, List.take_length] at hbytes
        exact hbytes

theorem Open.of_append (h : Open stream irs d s n) (a : Bool) {data : List UInt8} {m : Nat}
    (hp : Placed stream irs d (tcpRxAppend a s data).2 m) (hnm : n ≤ m) {K : RetxSeg → Nat}
    (hK : ∀ e ∈ s.ooo, At stream irs e.seq e.data (K e) ∧ n < K e + 2 ^ 31 ∧
      K e + e.data.length < n + 2 ^ 31) (hpast : ∀ e ∈ s.ooo, m < K e + 2 ^ 31) :
    Open stream irs d (tcpRxAppend a s data).2 m := by
  obtain ⟨b, r, hframe⟩ := tcpRxAppend_frame a s data
  rw [hframe] at hp ⊢
  refine ⟨h.state, hp, K, ?_⟩
  intro e he
  obtain ⟨h1, h2, h3⟩ := hK e he
  exact ⟨h1, hpast e he, by omega⟩

theorem Open.drain (h : Open stream irs d s n) (grow : Nat → Bool) {K : RetxSeg → Nat}
    (hK : ∀ e ∈ s.ooo, At stream irs e.seq e.data (K e) ∧ n < K e + 2 ^ 31 ∧
      K e + e.data.length < n + 2 ^ 31)
    (hpair : ∀ e ∈ s.ooo, ∀ e' ∈ s.ooo, K e' + e'.data.length < K e + 2 ^ 31) :
    ∃ m, n ≤ m ∧ Open stream irs d (tcpOooDrain grow s) m := by
  obtain ⟨m, h1, h2, h3⟩ := h.placed.drain grow s.ooo 0 K (fun e he => (hK e he).1)
    (fun e he => (hK e he).2.1) (fun e he => (hK e he).2.2) hpair
  obtain ⟨b, r, q, hframe⟩ := oooDrainFrom_frame grow 0 s.ooo s
  refine ⟨m, h1, ?_, h2, K, ?_⟩
  · rw [tcpOooDrain, hframe]
    exact h.state
  · intro e he
    obtain ⟨hmem, hm⟩ := h3 e he
    obtain ⟨k1, k2, k3⟩ := hK e hmem
    exact ⟨k1, hm, by omega⟩

/-- What a segment does to the receiver: it moves on along the stream, and it ends the stream
exactly when it has a FIN and everything before that has been placed. -/
def Advances (stream : List UInt8) (irs : Seq) (d : List UInt8) (n : Nat) (fin : Bool)
    (s : Socket) : Prop :=
  ∃ m, n ≤ m ∧ ((Open stream irs d s m ∧ (fin = true → m ≠ stream.length)) ∨
    (fin = true ∧ m = stream.length ∧ Ended stream d s))

theorem Open.receiveData {g : Segment} (h : Open stream irs d s n)
    (hc : Carries stream irs n g) (ht : Timely s g) (hf : PlainFin s g) (l : Luck) :
    Advances stream irs d n g.flags.fin (receiveData l s g).1 := by
  obtain ⟨-, k, hat, hfin, hp, ha⟩ := hc
  have hdiff : (g.seq - s.recvNext).toInt = (k : Int) - n := by
    rw [hat.number, h.placed.next]
    exact seqAt_sub_toInt irs hp.le (by omega)
  have hin := hat.inside
  have hle := h.placed.le
  rw [Tcp.receiveData]
  split
  · rename_i hdata
    rw [PlainFin, hdiff] at hf
    rw [hdiff]
    dsimp only
    split
    · -- ahead of what is due
      rename_i hpos
      obtain ⟨q, hq⟩ := tcpOooAdd_frame l.keep s g.seq g.payload
      have hadd : Open stream irs d (tcpOooAdd l.keep s g.seq g.payload) n := by
        refine ⟨?_, ?_, h.queued.add l.keep hat hp ha⟩
        · rw [hq]
          exact h.state
        · rw [hq]
          exact h.placed.congr rfl rfl
      exact ⟨n, le_rfl, .inl ⟨hadd.ack _, fun _ => by omega⟩⟩
    · rename_i hdue
      split
      · -- wholly old
        rename_i hold
        refine ⟨n, le_rfl, .inl ⟨h.ack _, fun hfin' => ?_⟩⟩
        have := (hf hfin' hdata (by omega)).1
        omega
      · rename_i hnew
        have hoff : (-((k : Int) - n)).toNat = n - k := by omega
        rw [hoff] at hf hnew ⊢
        have hslice := hat.drop (n - k)
        rw [Nat.add_sub_cancel' (by omega)] at hslice
        have hlen : (g.payload.drop (n - k)).length = g.payload.length - (n - k) :=
          List.length_drop
        obtain ⟨hr, hrle⟩ := h.placed.append (l.grow 0) hslice (by omega)
        obtain ⟨K, hK⟩ := h.queued
        have hlast : ∀ e ∈ s.ooo, k + g.payload.length < K e + 2 ^ 31 := by
          intro e he
          obtain ⟨k1, k2, k3⟩ := hK e he
          have htime := ht e he _ List.mem_cons_self
          rw [hat.number, ← seqAt_add, k1.number, h.placed.next,
            seqAt_sub_toInt irs (by omega) k2, seqAt_sub_toInt irs (by omega) ha] at htime
          omega
        have hpair : ∀ e ∈ s.ooo, ∀ e' ∈ s.ooo, K e' + e'.data.length < K e + 2 ^ 31 := by
          intro e he e' he'
          obtain ⟨k1, k2, k3⟩ := hK e he
          obtain ⟨j1, j2, j3⟩ := hK e' he'
          have htime := ht e he e'.next (List.mem_cons_of_mem _ (List.mem_map_of_mem he'))
          rw [RetxSeg.next, j1.number, ← seqAt_add, k1.number, h.placed.next,
            seqAt_sub_toInt irs (by omega) k2, seqAt_sub_toInt irs (by omega) j3] at htime
          omega
        have happ := h.of_append (l.grow 0) hr (Nat.le_add_right _ _) hK (by
          intro e he
          have := hlast e he
          omega)
        obtain ⟨b, r, hframe⟩ := tcpRxAppend_frame (l.grow 0) s (g.payload.drop (n - k))
        have hooo : (tcpRxAppend (l.grow 0) s (g.payload.drop (n - k))).2.ooo = s.ooo := by
          rw [hframe]
        have hnext : ∃ m, n ≤ m ∧ Open stream irs d
            (if (tcpRxAppend (l.grow 0) s (g.payload.drop (n - k))).1 =
                (g.payload.drop (n - k)).length then
              tcpOooDrain (fun k => l.grow (k + 1))
                (tcpRxAppend (l.grow 0) s (g.payload.drop (n - k))).2
              else (tcpRxAppend (l.grow 0) s (g.payload.drop (n - k))).2) m := by
          split
          · obtain ⟨m, h1, h2⟩ := happ.drain (fun k => l.grow (k + 1)) (K := K) (by
              rw [hooo]
              intro e he
              obtain ⟨k1, k2, k3⟩ := hK e he
              have := hlast e he
              exact ⟨k1, by omega, by omega⟩) (by rw [hooo]; exact hpair)
            exact ⟨m, by omega, h2⟩
          · exact ⟨_, Nat.le_add_right _ _, happ⟩
        obtain ⟨m, hm, hopen⟩ := hnext
        have hmle := hopen.placed.le
        refine ⟨m, hm, hopen.fin l g.flags.fin h.placed.next ?_ ?_ ?_⟩
        · intro hfin'
          have := hfin hfin'
          omega
        · intro hfin'
          have := hfin hfin'
          omega
        · intro hfin' _
          have := (hf hfin' hdata (by omega)).2
          omega
  · rename_i hdata
    have hempty : g.payload.length = 0 := by
      rw [List.length_eq_zero_iff]
      exact not_not.1 hdata
    split
    · rename_i hne
      refine ⟨n, le_rfl, .inl ⟨h.ack _, fun hfin' => ?_⟩⟩
      simp [hfin'] at hne
    · refine ⟨n, le_rfl, h.fin l g.flags.fin hat.number ?_ ?_ ?_⟩
      · intro hfin'
        have := hfin hfin'
        omega
      · intro hfin'
        have := hfin hfin'
        omega
      · intro _ _
        exact g.seq.isLt

theorem Open.congr (h : Open stream irs d s n) (hst : s'.state = s.state)
    (hb : s'.recvBuffer = s.recvBuffer) (hn : s'.recvNext = s.recvNext) (ho : s'.ooo = s.ooo) :
    Open stream irs d s' n := by
  refine ⟨hst.trans h.state, h.placed.congr hb hn, ?_⟩
  rw [Queued, ho]
  exact h.queued

theorem Open.receive {g : Segment} (h : Open stream irs d s n) (hc : Carries stream irs n g)
    (ht : Timely s g) (hf : PlainFin s g) (l : Luck) :
    Advances stream irs d n g.flags.fin (receiveSocket l s g).2.1 := by
  have hrst := hc.1
  simp only [receiveSocket, h.state, receiveEstablished, hrst, Bool.false_eq_true, if_false]
  apply Open.receiveData _ hc
  · split
    · exact ht
    · exact ht
  · split
    · exact hf
    · exact hf
  · split
    · exact h.congr h.state.symm rfl rfl rfl
    · exact h.congr h.state.symm rfl rfl rfl

/-- What `tcp_recv` gives its caller and leaves in the buffer. -/
theorem tcpRecv_spec (hs : s.recvBuffer.Ok) (o : Outcome) (len : Nat) (peek : Bool) :
    (tcpRecv o s len peek).1 ++ (if peek then s.recvBuffer.toList.drop (tcpRecv o s len peek).1.length
      else (tcpRecv o s len peek).2.1.recvBuffer.toList) = s.recvBuffer.toList ∧
      (tcpRecv o s len peek).2.1.recvBuffer.Ok ∧
      (tcpRecv o s len peek).2.1.recvNext = s.recvNext ∧
      (tcpRecv o s len peek).2.1.ooo = s.ooo ∧ (tcpRecv o s len peek).2.1.state = s.state ∧
      (peek = true → (tcpRecv o s len peek).2.1 = s) := by
  have havail : (if s.recvBuffer.head ≤ s.recvBuffer.tail then
      s.recvBuffer.tail - s.recvBuffer.head
      else s.recvBuffer.size - s.recvBuffer.head + s.recvBuffer.tail) = s.recvBuffer.used := by
    by_cases hsize : s.recvBuffer.size = 0
    · rw [Circular.used_zero hsize, hs.empty hsize]
      simp
    · have h1 := hs.head_lt hsize
      rw [Circular.used_eq hs hsize]
      split
      · rfl
      · omega
  rw [tcpRecv, havail]
  dsimp only
  split
  · rename_i hzero
    refine ⟨?_, hs, rfl, rfl, rfl, fun _ => rfl⟩
    rw [toList_nil hzero]
    split <;> rfl
  · rename_i hused
    have hle : min s.recvBuffer.used len ≤ s.recvBuffer.used := Nat.min_le_left ..
    rw [Circular.peek_eq hs hle]
    cases peek with
    | true =>
      simp only [if_true]
      refine ⟨?_, hs, trivial, trivial, trivial, fun _ => trivial⟩
      rw [List.length_take, Circular.length_toList, Nat.min_eq_left hle, List.take_append_drop]
    | false =>
      have hsize : s.recvBuffer.size ≠ 0 := fun h0 => hused (Circular.used_zero h0)
      obtain ⟨hok, hrest⟩ := consume_spec hs hsize hle
      simp only [Bool.false_eq_true, if_false, false_implies, and_true]
      split
      · obtain ⟨h1, h2, h3, h4⟩ := sendAck_received o
          { s with recvBuffer := consume s.recvBuffer (min s.recvBuffer.used len) }
        rw [h1, h2, h3, h4, hrest, List.take_append_drop]
        exact ⟨rfl, hok, rfl, rfl, rfl⟩
      · rw [hrest, List.take_append_drop]
        exact ⟨rfl, hok, rfl, rfl, rfl⟩

/-- The receiver at any moment. -/
def Receiving (stream : List UInt8) (irs : Seq) (x : Rx) : Prop :=
  Open stream irs x.delivered x.sock x.placed ∨ Ended stream x.delivered x.sock

theorem Placed.placed (h : Placed stream irs d s n) : (Rx.mk s d).placed = n := by
  have hlen := congrArg List.length h.bytes
  rw [List.length_append, List.length_take, Nat.min_eq_left h.le] at hlen
  exact hlen

theorem Advances.receiving (h : Advances stream irs d n fin s) : Receiving stream irs ⟨s, d⟩ := by
  obtain ⟨m, -, ⟨ho, -⟩ | ⟨-, -, he⟩⟩ := h
  · left
    rw [ho.placed.placed]
    exact ho
  · exact .inr he

theorem Receiving.step {x : Rx} (h : Receiving stream irs x) (op : RxOp)
    (hl : op.Legal stream irs x) (hs : op.Sound x) : Receiving stream irs (rxStep x op) := by
  cases op with
  | segment l g =>
    rcases h with h | h
    · obtain ⟨ht, hf⟩ := hs h.state
      exact (h.receive hl ht hf l).receiving
    · right
      simp only [rxStep, receiveSocket, h.state]
      split
      · exact ⟨rfl, h.ok, h.bytes⟩
      · exact ⟨rfl, h.ok, h.bytes⟩
  | read o len peek =>
    cases peek with
    | true =>
      have hok : x.sock.recvBuffer.Ok := h.elim (fun h => h.placed.ok) fun h => h.ok
      have hsame := (tcpRecv_spec hok o len true).2.2.2.2.2 rfl
      simp only [rxStep, hsame, if_true]
      exact h
    | false =>
      rcases h with h | h
      · obtain ⟨h1, h2, h3, h4, h5, -⟩ := tcpRecv_spec h.placed.ok o len false
        simp only [Bool.false_eq_true, if_false] at h1
        have hp : Placed stream irs (x.delivered ++ (tcpRecv o x.sock len false).1)
            (tcpRecv o x.sock len false).2.1 x.placed := by
          refine ⟨h2, ?_, h.placed.le, h3.trans h.placed.next⟩
          rw [List.append_assoc, h1]
          exact h.placed.bytes
        left
        simp only [rxStep, Bool.false_eq_true, if_false]
        rw [hp.placed]
        refine ⟨h5.trans h.state, hp, ?_⟩
        rw [Queued, h4]
        exact h.queued
      · obtain ⟨h1, h2, h3, h4, h5, -⟩ := tcpRecv_spec h.ok o len false
        simp only [Bool.false_eq_true, if_false] at h1
        right
        simp only [rxStep, Bool.false_eq_true, if_false]
        refine ⟨h5.trans h.state, h2, ?_⟩
        rw [List.append_assoc, h1]
        exact h.bytes

theorem rxInit_receiving (stream : List UInt8) (s : Socket) (irs : Seq) :
    Receiving stream irs (rxInit s irs) := by
  left
  refine ⟨rfl, ⟨⟨nofun, nofun, fun _ => rfl⟩, rfl, Nat.zero_le _, ?_⟩, ⟨fun _ => 0, nofun⟩⟩
  exact (BitVec.add_zero _).symm

end

def rxRun (s : Socket) (irs : Seq) (ops : List RxOp) : Rx := ops.foldl rxStep (rxInit s irs)

/-- What is placed is the stream as far as it goes, what is read is a prefix of it, and a FIN
ends the stream exactly when everything before it has been placed. -/
theorem rx_run_stream (stream : List UInt8) (s : Socket) (irs : Seq) (ops : List RxOp)
    (hl : Along rxStep (fun x op => op.Legal stream irs x ∧ op.Sound x) (rxInit s irs) ops) :
    (rxRun s irs ops).delivered ++ (rxRun s irs ops).sock.recvBuffer.toList =
        stream.take (rxRun s irs ops).placed ∧
      ((rxRun s irs ops).sock.state = .established →
        (rxRun s irs ops).sock.recvNext = seqAt irs (rxRun s irs ops).placed) ∧
      (rxRun s irs ops).delivered <+: stream ∧
      ∀ l g, (rxRun s irs ops).sock.state = .established →
        Carries stream irs (rxRun s irs ops).placed g → g.flags.fin = true →
        Timely (rxRun s irs ops).sock g → PlainFin (rxRun s irs ops).sock g →
        ((rxStep (rxRun s irs ops) (.segment l g)).sock.state = .closeWait ↔
          (rxStep (rxRun s irs ops) (.segment l g)).placed = stream.length) := by
  have hinv : Receiving stream irs (rxRun s irs ops) :=
    hl.invariant (fun x op hx hop => hx.step op hop.1 hop.2) (rxInit_receiving stream s irs)
  generalize rxRun s irs ops = x at *
  have hbytes : x.delivered ++ x.sock.recvBuffer.toList = stream.take x.placed := by
    rcases hinv with h | h
    · exact h.placed.bytes
    · have hlen := congrArg List.length h.bytes
      rw [List.length_append] at hlen
      rw [Rx.placed, hlen, List.take_length]
      exact h.bytes
  refine ⟨hbytes, ?_, ?_, ?_⟩
  · intro hst
    rcases hinv with h | h
    · exact h.placed.next
    · rw [h.state] at hst
      cases hst
  · exact (List.prefix_append _ _).trans (hbytes ▸ List.take_prefix _ _)
  · intro l g hst hc hfin ht hf
    rcases hinv with h | h
    · obtain ⟨m, -, ⟨ho, hne⟩ | ⟨-, hm, he⟩⟩ := h.receive hc ht hf l
      · have hp : (rxStep x (.segment l g)).placed = m := ho.placed.placed
        have hs : (rxStep x (.segment l g)).sock.state = .established := ho.state
        rw [hp, hs]
        exact ⟨nofun, fun heq => absurd heq (hne hfin)⟩
      · have hlen := congrArg List.length he.bytes
        rw [List.length_append] at hlen
        exact ⟨fun _ => hlen, fun _ => he.state⟩
    · rw [h.state] at hst
      cases hst

theorem timely_of_one {s : Socket} {g : Segment} {e : RetxSeg} {n : Seq} (ho : s.ooo = [e])
    (hn : s.recvNext = n)
    (h : (n - e.seq).toInt + (g.seq + BitVec.ofNat 32 g.payload.length - n).toInt < 2 ^ 31 ∧
      (n - e.seq).toInt + (e.next - n).toInt < 2 ^ 31) : Timely s g := by
  intro a ha last hlast
  rw [ho, List.mem_singleton] at ha
  rw [ho, List.map_cons, List.map_nil, List.mem_cons, List.mem_singleton] at hlast
  subst ha
  rw [hn]
  rcases hlast with rfl | rfl
  · exact h.1
  · exact h.2

/-- Three bytes in two segments, the second first. -/
def twoSegments : List RxOp :=
  [.segment {} { srcIp := 0, destIp := 0, srcPort := 0, destPort := 0, seq := 2, ack := 0
                 flags := {}, payload := [66, 67] },
    .segment {} { srcIp := 0, destIp := 0, srcPort := 0, destPort := 0, seq := 1, ack := 0
                  flags := {}, payload := [65] },
    .read .sent 2 false]

theorem twoSegments_stream : (rxRun {} 0 twoSegments).delivered = [65, 66] ∧
    (rxRun {} 0 twoSegments).delivered <+: [65, 66, 67] := by
  have hl : Along rxStep (fun x op => op.Legal [65, 66, 67] 0 x ∧ op.Sound x) (rxInit {} 0)
      twoSegments := by
    refine ⟨⟨⟨rfl, 1, ⟨rfl, rfl, by decide⟩, nofun, by decide, by decide⟩, fun _ => ⟨?_, ?_⟩⟩,
      ⟨⟨rfl, 0, ⟨rfl, rfl, by decide⟩, nofun, by decide, by decide⟩, fun _ => ⟨?_, ?_⟩⟩,
      ⟨trivial, trivial⟩, trivial⟩
    · nofun
    · nofun
    · have hooo : (rxRun {} 0 (twoSegments.take 1)).sock.ooo =
          [{ data := [66, 67], seq := 2 }] := by decide
      have hnext : (rxRun {} 0 (twoSegments.take 1)).sock.recvNext = 1 := by decide
      exact timely_of_one hooo hnext (by decide)
    · nofun
  exact ⟨by decide, (rx_run_stream [65, 66, 67] {} 0 twoSegments hl).2.2.1⟩

/-- The last byte has number `2 ^ 32 - 1` and brings the FIN. -/
def finAtWrap : Segment :=
  { srcIp := 0, destIp := 0, srcPort := 0, destPort := 0, seq := 0xFFFFFFFF, ack := 0
    flags := { fin := true }, payload := [65] }

theorem finAtWrap_ignored :
    Carries [65] 0xFFFFFFFE (rxInit {} 0xFFFFFFFE).placed finAtWrap ∧
      (rxRun {} 0xFFFFFFFE [.segment {} finAtWrap]).placed = 1 ∧
      (rxRun {} 0xFFFFFFFE [.segment {} finAtWrap]).sock.state = .established :=
  ⟨⟨rfl, 0, ⟨rfl, rfl, by decide⟩, fun _ => rfl, by decide, by decide⟩, by decide, by decide⟩

end Lebirun.Tcp
