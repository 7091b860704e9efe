import Mathlib
import Lebirun.Lib.Circular

namespace Lebirun.Tcp
set_option autoImplicit true

inductive TcpState where
  | closed | listen | synSent | synRcvd | established | finWait1 | finWait2 | closeWait | closing
  | lastAck | timeWait
  deriving DecidableEq

structure Flags where
  fin : Bool := false
  syn : Bool := false
  rst : Bool := false
  psh : Bool := false
  ack : Bool := false
  deriving DecidableEq

abbrev Seq := BitVec 32

/-- A SYN carries the four bytes of its option. -/
def Flags.headerLen (f : Flags) : Nat := if f.syn then 24 else 20

/-- SYN and FIN take up a sequence number. -/
def Flags.control (f : Flags) : Seq := if f.syn || f.fin then 1 else 0

def tcpWindowSize : Nat := 65535

def tcpMss : Nat := 1460

/-- A `tcp_retx_seg_t`; its `len` is the length of the data. -/
structure RetxSeg where
  data : List UInt8
  seq : Seq
  sendTime : Nat := 0
  retries : Nat := 0
  deriving DecidableEq

/-- A `tcp_socket_t` less the fields no code of `tcp.c` reads. -/
structure Socket where
  state : TcpState := .closed
  localIp : Nat := 0
  remoteIp : Nat := 0
  localPort : Nat := 0
  remotePort : Nat := 0
  sendNext : Seq := 0
  sendUna : Seq := 0
  recvNext : Seq := 0
  sendWindow : Nat := tcpWindowSize
  recvWindow : Nat := tcpWindowSize
  cork : Bool := false
  mss : Nat := tcpMss
  cwnd : Nat := 2 * tcpMss
  userTimeout : Nat := 0
  recvBuffer : Circular UInt8 := ⟨fun _ => 0, 0, 0, 0⟩
  retransmitTimeout : Nat := 0
  lastAckTime : Nat := 0
  keepalive : Bool := false
  kaProbes : Nat := 0
  kaLast : Nat := 0
  twEnter : Nat := 0
  retx : List RetxSeg := []
  ooo : List RetxSeg := []
  finSendTime : Nat := 0
  finRetries : Nat := 0

/-- A segment that came in, its header decoded. -/
structure Segment where
  srcIp : Nat
  destIp : Nat
  srcPort : Nat
  destPort : Nat
  seq : Seq
  ack : Seq
  flags : Flags
  window : Nat := 0
  options : List UInt8 := []
  payload : List UInt8 := []

/-- A segment handed to `ipv4_send`, and whether that succeeded. -/
structure Packet where
  seq : Seq
  ack : Seq
  flags : Flags
  window : Nat
  data : List UInt8
  sent : Bool
  deriving DecidableEq

/-- How one call of `tcp_send_segment` fares. -/
inductive Outcome where
  | noMemory | failed | sent
  deriving DecidableEq

def tcpRcvWnd (s : Socket) : Nat :=
  if s.recvBuffer.used ≥ tcpWindowSize then 0 else tcpWindowSize - s.recvBuffer.used

def tcpOptMssFrom : Nat → List UInt8 → Nat
  | 0, _ => 536
  | _ + 1, [] => 536
  | fuel + 1, k :: rest =>
    if k = 0 then 536
    else if k = 1 then tcpOptMssFrom fuel rest
    else match rest with
      | [] => 536
      | n :: body =>
        if n.toNat < 2 ∨ n.toNat > rest.length + 1 then 536
        else if k = 2 ∧ n = 4 then (body.getD 0 0).toNat * 256 + (body.getD 1 0).toNat
        else tcpOptMssFrom fuel ((k :: rest).drop n.toNat)

def tcpOptMss (options : List UInt8) : Nat := tcpOptMssFrom options.length options

/-- Whether the call succeeded, the socket after it and the packet on its way, if any. -/
def tcpSendSegment (o : Outcome) (s : Socket) (flags : Flags) (data : List UInt8) :
    Bool × Socket × List Packet :=
  if data.length > 65535 - flags.headerLen then (false, s, [])
  else if o = .noMemory then (false, s, [])
  else
    let s := { s with recvWindow := tcpRcvWnd s }
    let advanced := s.sendNext + flags.control + BitVec.ofNat 32 data.length
    let packet : Packet :=
      ⟨s.sendNext, s.recvNext, flags, s.recvWindow, data, decide (o = .sent)⟩
    if o = .sent then (true, { s with sendNext := advanced }, [packet])
    else (false, { s with sendNext := advanced - BitVec.ofNat 32 data.length - flags.control }, [packet])

def sendAck (o : Outcome) (s : Socket) : Socket × List Packet :=
  (tcpSendSegment o s { ack := true } []).2

def tcpRetxQueueAdd (allocated : Bool) (now : Nat) (s : Socket) (data : List UInt8) (seq : Seq) :
    Socket :=
  if data = [] ∨ !allocated then s
  else { s with retx := s.retx ++ [{ data, seq, sendTime := now }] }

def tcpRetxQueueAck (s : Socket) (ackNum : Seq) : Socket :=
  { s with retx := s.retx.dropWhile fun seg =>
      0 ≤ (ackNum - (seg.seq + BitVec.ofNat 32 seg.data.length)).toInt }

def tcpRetxQueueFree (s : Socket) : Socket := { s with retx := [], ooo := [] }

/-- The loop of `tcp_grow_recv_buffer`; `required` turns are enough. -/
def doubleUntil (required : Nat) : Nat → Nat → Nat
  | 0, size => size
  | fuel + 1, size =>
    if required ≤ size then size
    else if size > (2 ^ 64 - 1) / 2 then required
    else doubleUntil required fuel (size * 2)

/-- `tcp_grow_recv_buffer`. -/
def tcpGrowRecvBuffer (allocated : Bool) (b : Circular UInt8) (required : Nat) : Circular UInt8 :=
  if b.size = 0 then
    if allocated then ⟨fun _ => 0, max required 2, 0, 0⟩ else b
  else
    let newSize := doubleUntil required required b.size
    if newSize ≤ b.size ∨ !allocated then b else b.relocate (fun _ => 0) newSize

/-- The buffer after an attempt to make room for `len` bytes more. -/
def makeRoom (allocated : Bool) (b : Circular UInt8) (len : Nat) : Circular UInt8 :=
  if b.size < b.used + len + 1 then tcpGrowRecvBuffer allocated b (b.used + len + 1) else b

def roomFor (size used len : Nat) : Nat := min (if size > used + 1 then size - 1 - used else 0) len

/-- How many bytes went in, and the socket. -/
def tcpRxAppend (allocated : Bool) (s : Socket) (data : List UInt8) : Nat × Socket :=
  let b := makeRoom allocated s.recvBuffer data.length
  let n := roomFor b.size s.recvBuffer.used data.length
  if n = 0 then (0, { s with recvBuffer := b })
  else
    (n, { s with
      recvBuffer := b.put (data.take n)
      recvNext := s.recvNext + BitVec.ofNat 32 n })

def oooInsert (seg : RetxSeg) (allocated : Bool) : List RetxSeg → List RetxSeg
  | [] => if allocated then [seg] else []
  | e :: l =>
    if (e.seq - seg.seq).toInt < 0 then e :: oooInsert seg allocated l
    else if e.seq = seg.seq ∧ e.data.length ≥ seg.data.length then e :: l
    else if allocated then seg :: e :: l else e :: l

def tcpOooAdd (allocated : Bool) (s : Socket) (seq : Seq) (data : List UInt8) : Socket :=
  if (seq - s.recvNext).toNat ≥ tcpWindowSize then s
  else { s with ooo := oooInsert { data, seq } allocated s.ooo }

/-- `l` is what is left of the queue; `grow k` is the outcome of the `k`th allocation. -/
def oooDrainFrom (grow : Nat → Bool) : Nat → List RetxSeg → Socket → Socket
  | _, [], s => { s with ooo := [] }
  | k, seg :: l, s =>
    if (seg.seq - s.recvNext).toInt ≤ 0 then
      let off := (s.recvNext - seg.seq).toNat
      if off < seg.data.length then
        let r := tcpRxAppend (grow k) s (seg.data.drop off)
        if r.1 < seg.data.length - off then { r.2 with ooo := seg :: l }
        else oooDrainFrom grow (k + 1) l r.2
      else oooDrainFrom grow (k + 1) l s
    else { s with ooo := seg :: l }

def tcpOooDrain (grow : Nat → Bool) (s : Socket) : Socket := oooDrainFrom grow 0 s.ooo s

/-- What happens outside the module during one `tcp_receive`. -/
structure Luck where
  now : Nat := 0
  grow : Nat → Bool := fun _ => true
  keep : Bool := true
  send : Outcome := .sent

/-- What becomes of a socket that `tcp_receive` or `tcp_tick` has looked at. -/
inductive Fate where
  | keep | drop | complete
  deriving DecidableEq

/-- The end of the `ESTABLISHED` case. `seq + payload_len` is a 64-bit sum in the source. -/
def receiveFin (l : Luck) (s : Socket) (fin : Bool) (seq : Seq) (len : Nat) :
    Socket × List Packet :=
  if fin then
    if seq.toNat + len ≠ s.recvNext.toNat then sendAck l.send s
    else sendAck l.send { s with recvNext := s.recvNext + 1, state := .closeWait }
  else if len > 0 then sendAck l.send s
  else (s, [])

def receiveData (l : Luck) (s : Socket) (g : Segment) : Socket × List Packet :=
  if g.payload ≠ [] then
    let diff := (g.seq - s.recvNext).toInt
    if diff > 0 then sendAck l.send (tcpOooAdd l.keep s g.seq g.payload)
    else if (-diff).toNat ≥ g.payload.length then sendAck l.send s
    else
      let payload := g.payload.drop (-diff).toNat
      let r := tcpRxAppend (l.grow 0) s payload
      let s' := if r.1 = payload.length then tcpOooDrain (fun k => l.grow (k + 1)) r.2 else r.2
      receiveFin l s' g.flags.fin s.recvNext payload.length
  else if g.seq ≠ s.recvNext ∧ !g.flags.fin then sendAck l.send s
  else receiveFin l s g.flags.fin g.seq 0

def receiveEstablished (l : Luck) (s : Socket) (g : Segment) : Socket × List Packet :=
  if g.flags.rst then ({ tcpRetxQueueFree s with state := .closed }, [])
  else
    let s := if g.flags.ack then
      tcpRetxQueueAck { s with
        sendUna := g.ack, lastAckTime := l.now, kaLast := l.now, kaProbes := 0 } g.ack
      else s
    receiveData l s g

/-- The smaller segment size the other side asks for. -/
def withMss (s : Socket) (g : Segment) : Socket :=
  let mss := tcpOptMss g.options
  if mss ≥ 64 ∧ mss < s.mss then { s with mss } else s

/-- The state switch of `tcp_receive`. -/
def receiveSocket (l : Luck) (s : Socket) (g : Segment) : Fate × Socket × List Packet :=
  let s := { s with sendWindow := g.window }
  match s.state with
  | .synSent =>
    if g.flags.rst then (.keep, { tcpRetxQueueFree s with state := .closed }, [])
    else if g.flags.syn && g.flags.ack then
      let s := withMss { s with recvNext := g.seq + 1, sendUna := g.ack } g
      (.keep, sendAck l.send { s with state := .established, kaLast := l.now, kaProbes := 0 })
    else (.keep, s, [])
  | .synRcvd =>
    if g.flags.rst then (.drop, s, [])
    else if g.flags.syn then
      let s := { s with recvNext := g.seq + 1, kaLast := l.now }
      let r := (tcpSendSegment l.send s { syn := true, ack := true } []).2
      (.keep, { r.1 with sendNext := s.sendNext }, r.2)
    else if g.flags.ack ∧ g.ack = s.sendNext then
      (.complete, { s with
        state := .established, sendUna := g.ack, kaLast := l.now, kaProbes := 0 }, [])
    else (.keep, s, [])
  | .established => (.keep, receiveEstablished l s g)
  | .finWait1 =>
    if g.flags.rst then (.keep, { tcpRetxQueueFree s with state := .closed }, [])
    else if g.flags.ack then
      let s := { s with sendUna := g.ack }
      if g.flags.fin then
        (.keep, sendAck l.send { s with
          recvNext := g.seq + 1, state := .timeWait, twEnter := l.now })
      else (.keep, { s with state := .finWait2 }, [])
    else (.keep, s, [])
  | .finWait2 =>
    if g.flags.rst then (.keep, { tcpRetxQueueFree s with state := .closed }, [])
    else if g.flags.fin then
      (.keep, sendAck l.send { s with
        recvNext := g.seq + 1, state := .timeWait, twEnter := l.now })
    else (.keep, s, [])
  | .closeWait => (.keep, if g.flags.ack then { s with sendUna := g.ack } else s, [])
  | .lastAck => (.keep, if g.flags.ack then { s with state := .closed } else s, [])
  | _ => (.keep, s, [])

/-- The socket made for a SYN; `isn` is `tcp_isn`, `rto` the timeout of a new socket. -/
def serverSocket (l : Luck) (rto : Nat) (isn : Seq) (g : Segment) : Socket :=
  withMss
    { state := .synRcvd, localPort := g.destPort, localIp := g.destIp, remoteIp := g.srcIp
      remotePort := g.srcPort, recvNext := g.seq + 1, sendNext := isn, sendWindow := g.window
      kaLast := l.now, lastAckTime := l.now, retransmitTimeout := rto } g

/-- The 64-bit difference of two tick counts. -/
def elapsed (now since : Nat) : Nat := (now + 2 ^ 64 - since) % 2 ^ 64

/-- What happens outside the module while `tcp_tick` looks at one socket. -/
structure TickLuck where
  now : Nat := 0
  syn : Outcome := .sent
  probe : Outcome := .sent
  resend : Outcome := .sent
  fin : Outcome := .sent

def Socket.synTimeout (s : Socket) : Nat := if s.userTimeout ≠ 0 then s.userTimeout else 60000

def Socket.keepaliveWait (s : Socket) : Nat := if s.kaProbes ≠ 0 then 10000 else 60000

section
variable (pitMsToTicks : Nat → Nat) (l : TickLuck)

def tickTimeWait (s : Socket) : Socket :=
  if s.state = .timeWait ∧ elapsed l.now s.twEnter > pitMsToTicks 60000 then
    { s with state := .closed } else s

def tickSynSent (s : Socket) : Socket × List Packet :=
  if s.state = .synSent then
    if elapsed l.now s.kaLast > pitMsToTicks s.synTimeout then
      ({ tcpRetxQueueFree s with state := .closed }, [])
    else if elapsed l.now s.kaLast > pitMsToTicks 1000 then
      let r := (tcpSendSegment l.syn s { syn := true } []).2
      ({ r.1 with
        sendNext := s.sendNext, kaLast := l.now, kaProbes := (r.1.kaProbes + 1) % 256 }, r.2)
    else (s, [])
  else (s, [])

/-- `user_timeout` has passed since `since`. -/
def timedOut (s : Socket) (since : Nat) : Prop :=
  s.userTimeout ≠ 0 ∧ elapsed l.now since > pitMsToTicks s.userTimeout

instance (s : Socket) (since : Nat) : Decidable (timedOut pitMsToTicks l s since) :=
  inferInstanceAs (Decidable (_ ∧ _))

def tickKeepalive (s : Socket) : Socket × List Packet :=
  if s.state = .established ∧ s.keepalive ∧
      elapsed l.now s.kaLast > pitMsToTicks s.keepaliveWait then
    if timedOut pitMsToTicks l s s.lastAckTime then
      ({ tcpRetxQueueFree s with state := .closed }, [])
    else if s.sendNext ≠ 0 then
      let r := (tcpSendSegment l.probe { s with sendNext := s.sendNext - 1 }
        { ack := true, psh := true } [0]).2
      ({ r.1 with kaLast := l.now, kaProbes := (r.1.kaProbes + 1) % 256 }, r.2)
    else ({ s with kaLast := l.now }, [])
  else (s, [])

def tickRetransmit (s : Socket) : Socket × List Packet :=
  match s.retx with
  | [] => (s, [])
  | seg :: rest =>
    if s.state = .established ∧
        elapsed l.now seg.sendTime > s.retransmitTimeout * 2 ^ min seg.retries 6 % 2 ^ 64 then
      if timedOut pitMsToTicks l s s.lastAckTime then
        ({ tcpRetxQueueFree s with state := .closed }, [])
      else
        let r := (tcpSendSegment l.resend { s with sendNext := seg.seq }
          { ack := true, psh := true } seg.data).2
        let retries := if seg.retries < 6 then seg.retries + 1 else seg.retries
        ({ r.1 with
          sendNext := s.sendNext, retx := { seg with sendTime := l.now, retries } :: rest }, r.2)
    else (s, [])

def tickFinWait1 (s : Socket) : Socket × List Packet :=
  if s.state = .finWait1 ∧
      elapsed l.now s.finSendTime > s.retransmitTimeout * 2 ^ min s.finRetries 6 % 2 ^ 64 then
    if timedOut pitMsToTicks l s s.finSendTime then ({ s with state := .closed }, [])
    else
      let r := (tcpSendSegment l.fin s { fin := true, ack := true } []).2
      ({ r.1 with
        finSendTime := l.now
        finRetries := if r.1.finRetries < 6 then r.1.finRetries + 1 else r.1.finRetries }, r.2)
  else (s, [])

/-- What `tcp_tick` does with one socket. -/
def tickSocket (s : Socket) : Fate × Socket × List Packet :=
  let s := tickTimeWait pitMsToTicks l s
  if s.state = .synRcvd ∧ elapsed l.now s.kaLast > pitMsToTicks 30000 then (.drop, s, [])
  else
    let a := tickSynSent pitMsToTicks l s
    let b := tickKeepalive pitMsToTicks l a.1
    let c := tickRetransmit pitMsToTicks l b.1
    let d := tickFinWait1 pitMsToTicks l c.1
    (.keep, d.1, a.2 ++ b.2 ++ c.2 ++ d.2)

end

/-- `tcp_connect_start` on a socket that has an interface; `isn` is `tcp_isn`. -/
def tcpConnectStart (o : Outcome) (now : Nat) (isn : Seq) (localIp dest port : Nat) (s : Socket) :
    Bool × Socket × List Packet :=
  if s.state ≠ .closed then (false, s, [])
  else
    let r := tcpSendSegment o { s with
      remoteIp := dest, remotePort := port, localIp, sendNext := isn, sendUna := isn, recvNext := 0
      state := .synSent } { syn := true } []
    if r.1 then (true, { r.2.1 with kaLast := now, kaProbes := 0 }, r.2.2)
    else (false, { r.2.1 with state := .closed }, r.2.2)

/-- The repeated SYN of `tcp_connect`. -/
def tcpConnectRetry (o : Outcome) (synSaved : Seq) (s : Socket) : Socket × List Packet :=
  (tcpSendSegment o { s with sendNext := synSaved } { syn := true } []).2

def tcpSendBegin (now : Nat) (s : Socket) : Option Socket :=
  if s.state ≠ .established then none else some { s with kaLast := now, kaProbes := 0 }

/-- One turn of the loop of `tcp_send`: what is left to send, or `none` if the segment failed. -/
def tcpSendChunk (o : Outcome) (allocated : Bool) (now : Nat) (s : Socket) (rest : List UInt8) :
    Option (List UInt8) × Socket × List Packet :=
  let chunk := min (min rest.length s.mss) s.cwnd
  let r := tcpSendSegment o s { ack := true, psh := !s.cork } (rest.take chunk)
  if r.1 then
    (some (rest.drop chunk), tcpRetxQueueAdd allocated now r.2.1 (rest.take chunk) s.sendNext, r.2.2)
  else (none, r.2)

/-- The buffer after its first `n` bytes have been read; an empty one is freed. -/
def consume (b : Circular UInt8) (n : Nat) : Circular UInt8 :=
  if (b.skip n).head = (b.skip n).tail then { b.skip n with size := 0 } else b.skip n

/-- The part of `tcp_recv` behind its waiting loop: the bytes, and the socket. -/
def tcpRecv (o : Outcome) (s : Socket) (len : Nat) (peek : Bool) :
    List UInt8 × Socket × List Packet :=
  let available := if s.recvBuffer.head ≤ s.recvBuffer.tail then
    s.recvBuffer.tail - s.recvBuffer.head
    else s.recvBuffer.size - s.recvBuffer.head + s.recvBuffer.tail
  if available = 0 then ([], s, [])
  else
    let copied := min available len
    let bytes := s.recvBuffer.peek copied
    if peek then (bytes, s, [])
    else
      let oldWindow := s.recvWindow
      let s := { s with recvBuffer := consume s.recvBuffer copied }
      let newWindow := tcpRcvWnd s
      if oldWindow < tcpWindowSize / 2 ∧ newWindow ≥ oldWindow + tcpMss ∧ s.state = .established
      then (bytes, sendAck o s)
      else (bytes, s, [])

/-- `tcp_disconnect` up to its waiting loop. -/
def tcpDisconnect (o : Outcome) (now : Nat) (s : Socket) : Socket × List Packet :=
  if s.state = .established then
    (tcpSendSegment o { s with state := .finWait1, finSendTime := now, finRetries := 0 }
      { fin := true, ack := true } []).2
  else ({ s with state := .closed }, [])

/-- The packet that `tcp_send_segment` makes of its arguments. -/
def Socket.packet (s : Socket) (flags : Flags) (data : List UInt8) (sent : Bool) : Packet :=
  ⟨s.sendNext, s.recvNext, flags, tcpRcvWnd s, data, sent⟩

theorem tcpSendSegment_cases (o : Outcome) (s : Socket) (flags : Flags) (data : List UInt8) :
    tcpSendSegment o s flags data = (false, s, []) ∨
      (o = .sent ∧ tcpSendSegment o s flags data =
        (true, { s with
          recvWindow := tcpRcvWnd s
          sendNext := s.sendNext + flags.control + BitVec.ofNat 32 data.length },
          [s.packet flags data true])) ∨
      (o = .failed ∧ tcpSendSegment o s flags data =
        (false, { s with recvWindow := tcpRcvWnd s }, [s.packet flags data false])) := by
  rw [tcpSendSegment]
  split
  · exact .inl rfl
  · cases o with
    | noMemory => exact .inl rfl
    | sent => exact .inr (.inl ⟨rfl, rfl⟩)
    | failed =>
      right
      right
      simp only [reduceCtorEq, if_false, BitVec.add_sub_cancel, decide_false, true_and]
      rfl

/-- Sending changes the sequence number and the window last announced, nothing else. -/
theorem tcpSendSegment_frame (o : Outcome) (s : Socket) (flags : Flags) (data : List UInt8) :
    ∃ n w, (tcpSendSegment o s flags data).2.1 = { s with sendNext := n, recvWindow := w } := by
  rcases tcpSendSegment_cases o s flags data with h | ⟨-, h⟩ | ⟨-, h⟩
  · rw [h]
    exact ⟨_, _, rfl⟩
  · rw [h]
    exact ⟨_, _, rfl⟩
  · rw [h]
    exact ⟨_, _, rfl⟩

theorem sendAck_frame (o : Outcome) (s : Socket) :
    ∃ n w, (sendAck o s).1 = { s with sendNext := n, recvWindow := w } :=
  tcpSendSegment_frame ..

theorem tcpRxAppend_frame (a : Bool) (s : Socket) (data : List UInt8) :
    ∃ b n, (tcpRxAppend a s data).2 = { s with recvBuffer := b, recvNext := n } := by
  rw [tcpRxAppend]
  split
  · exact ⟨_, _, rfl⟩
  · exact ⟨_, _, rfl⟩

theorem tcpOooAdd_frame (a : Bool) (s : Socket) (seq : Seq) (data : List UInt8) :
    ∃ q, tcpOooAdd a s seq data = { s with ooo := q } := by
  rw [tcpOooAdd]
  split
  · exact ⟨_, rfl⟩
  · exact ⟨_, rfl⟩

theorem oooDrainFrom_frame (grow : Nat → Bool) (k : Nat) (l : List RetxSeg) (s : Socket) :
    ∃ b n q, oooDrainFrom grow k l s = { s with recvBuffer := b, recvNext := n, ooo := q } := by
  induction l generalizing k s with
  | nil => exact ⟨_, _, _, rfl⟩
  | cons seg l ih =>
    rw [oooDrainFrom]
    split
    · dsimp only
      split
      · obtain ⟨b, n, hr⟩ := tcpRxAppend_frame (grow k) s
          (seg.data.drop (s.recvNext - seg.seq).toNat)
        rw [hr]
        split
        · exact ⟨_, _, _, rfl⟩
        · obtain ⟨b', n', q', h⟩ := ih (k + 1) { s with recvBuffer := b, recvNext := n }
          exact ⟨b', n', q', h⟩
      · exact ih (k + 1) s
    · exact ⟨_, _, _, rfl⟩

theorem receiveFin_frame (l : Luck) (s : Socket) (fin : Bool) (seq : Seq) (len : Nat) :
    ∃ n w r t, (receiveFin l s fin seq len).1 =
      { s with sendNext := n, recvWindow := w, recvNext := r, state := t } ∧
      (t = s.state ∨ t = .closeWait) := by
  rw [receiveFin]
  split
  · split
    · obtain ⟨n, w, h⟩ := sendAck_frame l.send s
      exact ⟨n, w, _, _, h, .inl rfl⟩
    · obtain ⟨n, w, h⟩ := sendAck_frame l.send
        { s with recvNext := s.recvNext + 1, state := .closeWait }
      exact ⟨n, w, _, _, h, .inr rfl⟩
  · split
    · obtain ⟨n, w, h⟩ := sendAck_frame l.send s
      exact ⟨n, w, _, _, h, .inl rfl⟩
    · exact ⟨_, _, _, _, rfl, .inl rfl⟩

/-- The receiving half of `ESTABLISHED` leaves alone what the sending half keeps. -/
theorem receiveData_frame (l : Luck) (s : Socket) (g : Segment) :
    ∃ n w b r q t, (receiveData l s g).1 =
      { s with
        sendNext := n, recvWindow := w, recvBuffer := b, recvNext := r, ooo := q, state := t } ∧
      (t = s.state ∨ t = .closeWait) := by
  rw [receiveData]
  split
  · dsimp only
    split
    · obtain ⟨q, hq⟩ := tcpOooAdd_frame l.keep s g.seq g.payload
      rw [hq]
      obtain ⟨n, w, h⟩ := sendAck_frame l.send { s with ooo := q }
      exact ⟨n, w, _, _, q, _, h, .inl rfl⟩
    · split
      · obtain ⟨n, w, h⟩ := sendAck_frame l.send s
        exact ⟨n, w, _, _, _, _, h, .inl rfl⟩
      · obtain ⟨b, r, hr⟩ := tcpRxAppend_frame (l.grow 0) s
          (g.payload.drop (-(g.seq - s.recvNext).toInt).toNat)
        rw [hr]
        split
        · obtain ⟨b', r', q', hd⟩ := oooDrainFrom_frame (fun k => l.grow (k + 1)) 0 s.ooo
            { s with recvBuffer := b, recvNext := r }
          rw [tcpOooDrain, hd]
          obtain ⟨n, w, r'', t, h, ht⟩ := receiveFin_frame l
            { s with recvBuffer := b', recvNext := r', ooo := q' } g.flags.fin s.recvNext
            (g.payload.drop (-(g.seq - s.recvNext).toInt).toNat).length
          exact ⟨n, w, b', r'', q', t, h, ht⟩
        · obtain ⟨n, w, r'', t, h, ht⟩ := receiveFin_frame l
            { s with recvBuffer := b, recvNext := r } g.flags.fin s.recvNext
            (g.payload.drop (-(g.seq - s.recvNext).toInt).toNat).length
          exact ⟨n, w, b, r'', _, t, h, ht⟩
  · split
    · obtain ⟨n, w, h⟩ := sendAck_frame l.send s
      exact ⟨n, w, _, _, _, _, h, .inl rfl⟩
    · obtain ⟨n, w, r, t, h, ht⟩ := receiveFin_frame l s g.flags.fin g.seq 0
      exact ⟨n, w, _, r, _, t, h, ht⟩

end Lebirun.Tcp
