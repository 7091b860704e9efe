import Mathlib
import Lebirun.Lib.Buckets
import Lebirun.Lib.Run
import Lebirun.Tcp.Socket

namespace Lebirun.Tcp
set_option autoImplicit true

open Machine

/-- A `tcp_listener_t`; its queue is the list of the sockets on it. `done` and `accepted` are
there for the statements only: the sockets whose handshake was completed while the listener
existed, and those `tcp_accept` has returned, in order. -/
structure Listener where
  port : Nat
  backlog : Int
  pendingCount : Int := 0
  completed : List Nat := []
  done : List Nat := []
  accepted : List Nat := []
  deriving DecidableEq

/-- The module's state. Sockets are named by the order of their creation. -/
structure Net where
  sockets : List Nat := []
  sock : Nat → Socket := fun _ => {}
  fresh : Nat := 0
  listeners : List Listener := []
  tcpIsn : Seq := 0

def tcpFindListener (n : Net) (port : Nat) : Option Listener :=
  n.listeners.find? fun l => l.port = port

def Net.modifyListener (n : Net) (port : Nat) (f : Listener → Listener) : Net :=
  { n with listeners := Buckets.modifyFirst (fun l => l.port = port) f n.listeners }

def Net.setSock (n : Net) (id : Nat) (s : Socket) : Net :=
  { n with sock := Function.update n.sock id s }

/-- `tcp_socket_create`, with the fields its caller sets next. -/
def tcpSocketCreate (n : Net) (s : Socket) : Net :=
  { n with
    sockets := n.fresh :: n.sockets
    sock := Function.update n.sock n.fresh s
    fresh := n.fresh + 1 }

def tcpSocketClose (n : Net) (id : Nat) : Net := { n with sockets := n.sockets.erase id }

def tcpListen (n : Net) (port : Nat) (backlog : Int) (allocated : Bool) : Net :=
  if (tcpFindListener n port).isSome ∨ !allocated then n
  else { n with listeners := ⟨port, if backlog < 1 then 1 else backlog, 0, [], [], []⟩ :: n.listeners }

/-- The sockets that wait for the end of their handshake on a port. -/
def Net.waiting (n : Net) (port : Nat) : List Nat :=
  n.sockets.filter fun id => (n.sock id).state = .synRcvd ∧ (n.sock id).localPort = port

def tcpUnlisten (n : Net) (port : Nat) : Net :=
  let n := match tcpFindListener n port with
    | none => n
    | some l =>
      l.completed.foldl tcpSocketClose
        { n with listeners := n.listeners.eraseP fun l => l.port = port }
  (n.waiting port).foldl tcpSocketClose n

def tcpAccept (n : Net) (port : Nat) : Option Nat × Net :=
  match tcpFindListener n port with
  | none => (none, n)
  | some l =>
    match l.completed with
    | [] => (none, n)
    | id :: rest =>
      (some id, n.modifyListener port fun l =>
        { l with
          completed := rest, pendingCount := l.pendingCount - 1, accepted := l.accepted ++ [id] })

def tcpListenerComplete (n : Net) (port id : Nat) : Net :=
  match tcpFindListener n port with
  | none => tcpSocketClose n id
  | some l =>
    if l.pendingCount > l.backlog then tcpSocketClose n id
    else n.modifyListener port fun l => { l with completed := l.completed ++ [id] }

def tcpDropServerSocket (n : Net) (id : Nat) : Net :=
  tcpSocketClose
    (n.modifyListener (n.sock id).localPort fun l =>
      { l with pendingCount := l.pendingCount - 1 }) id

/-- What is done with a socket that `tcp_receive` or `tcp_tick` has looked at. -/
def settle (n : Net) (id : Nat) (r : Fate × Socket × List Packet) : Net :=
  let n := n.setSock id r.2.1
  match r.1 with
  | .keep => n
  | .drop => tcpDropServerSocket n id
  | .complete =>
    tcpListenerComplete
      (n.modifyListener r.2.1.localPort fun l => { l with done := l.done ++ [id] })
      r.2.1.localPort id

/-- A SYN for a listening port. -/
def receiveSyn (n : Net) (l : Luck) (allocated : Bool) (rto : Nat) (g : Segment) : Net :=
  match tcpFindListener n g.destPort with
  | none => n
  | some listener =>
    if listener.pendingCount ≥ listener.backlog ∨ !allocated then n
    else
      let r := tcpSendSegment l.send (serverSocket l rto n.tcpIsn g) { syn := true, ack := true } []
      let id := n.fresh
      let n := { tcpSocketCreate n r.2.1 with tcpIsn := n.tcpIsn + 1 }
      if r.1 then n.modifyListener g.destPort fun l => { l with pendingCount := l.pendingCount + 1 }
      else tcpSocketClose n id

def tcpReceive (n : Net) (l : Luck) (allocated : Bool) (rto : Nat) (g : Segment) : Net :=
  match n.sockets.find? fun id => (n.sock id).localPort = g.destPort ∧
      (n.sock id).remotePort = g.srcPort ∧ (n.sock id).remoteIp = g.srcIp with
  | none => if g.flags.syn && !g.flags.ack then receiveSyn n l allocated rto g else n
  | some id => settle n id (receiveSocket l (n.sock id) g)

def tcpTick (n : Net) (pitMsToTicks : Nat → Nat) (luck : Nat → TickLuck) : Net :=
  n.sockets.foldl (fun n id => settle n id (tickSocket pitMsToTicks (luck id) (n.sock id))) n

/-- A call into the module. `create`, `connect`, `disconnect` and `close` are what the owner of a
socket does with it; the other calls of the owner do not change its state or its port. -/
inductive NetOp where
  | listen (port : Nat) (backlog : Int) (allocated : Bool)
  | unlisten (port : Nat)
  | accept (port : Nat)
  | receive (l : Luck) (allocated : Bool) (rto : Nat) (g : Segment)
  | tick (pitMsToTicks : Nat → Nat) (luck : Nat → TickLuck)
  | create (localPort rto now : Nat)
  | connect (id : Nat) (o : Outcome) (now localIp dest port : Nat)
  | disconnect (id : Nat) (o : Outcome) (now : Nat)
  | close (id : Nat)

def netStep (n : Net) : NetOp → Net
  | .listen port backlog allocated => tcpListen n port backlog allocated
  | .unlisten port => tcpUnlisten n port
  | .accept port => (tcpAccept n port).2
  | .receive l allocated rto g => tcpReceive n l allocated rto g
  | .tick pitMsToTicks luck => tcpTick n pitMsToTicks luck
  | .create localPort rto now =>
    tcpSocketCreate n { localPort, retransmitTimeout := rto, lastAckTime := now }
  | .connect id o now localIp dest port =>
    { n.setSock id (tcpConnectStart o now n.tcpIsn localIp dest port (n.sock id)).2.1 with
      tcpIsn := if (n.sock id).state = .closed then n.tcpIsn + BitVec.ofNat 32 (now + 64000)
        else n.tcpIsn }
  | .disconnect id o now => n.setSock id (tcpDisconnect o now (n.sock id)).1
  | .close id => tcpSocketClose n id

/-- A socket is its caller's: it was created by the caller or `tcp_accept` has returned it. -/
def Owned (n : Net) (id : Nat) : Prop :=
  id ∈ n.sockets ∧ (n.sock id).state ≠ .synRcvd ∧ ∀ l ∈ n.listeners, id ∉ l.completed

def NetOp.Legal (n : Net) : NetOp → Prop
  | .connect id _ _ _ _ _ => Owned n id
  | .disconnect id _ _ => Owned n id
  | .close id => Owned n id
  | _ => True

/-- What the socket's fate says of its state: only a handshake is dropped or completed, and a
socket that is kept neither begins nor ends one. -/
def Fate.Fits (s s' : Socket) : Fate → Prop
  | .keep => s'.state = .synRcvd ↔ s.state = .synRcvd
  | .drop => s.state = .synRcvd ∧ s'.state = .synRcvd
  | .complete => s.state = .synRcvd ∧ s'.state ≠ .synRcvd

theorem withMss_frame (s : Socket) (g : Segment) :
    (withMss s g).state = s.state ∧ (withMss s g).localPort = s.localPort := by
  rw [withMss]
  split
  · exact ⟨rfl, rfl⟩
  · exact ⟨rfl, rfl⟩

theorem sendAck_fits (o : Outcome) {s s' : Socket} (hport : s'.localPort = s.localPort)
    (hstate : s'.state = .synRcvd ↔ s.state = .synRcvd) :
    (sendAck o s').1.localPort = s.localPort ∧ Fate.Fits s (sendAck o s').1 .keep := by
  obtain ⟨n, w, h⟩ := sendAck_frame o s'
  rw [h]
  exact ⟨hport, hstate⟩

theorem receiveEstablished_fits (l : Luck) {s : Socket} (g : Segment) (hs : s.state = .established) :
    (receiveEstablished l s g).1.localPort = s.localPort ∧
      Fate.Fits s (receiveEstablished l s g).1 .keep := by
  have hno : s.state ≠ .synRcvd := by
    rw [hs]
    nofun
  rw [receiveEstablished]
  split
  · exact ⟨rfl, by simp [Fate.Fits, hno]⟩
  · obtain ⟨n, w, b, r, q, t, h, ht⟩ := receiveData_frame l
      (if g.flags.ack then tcpRetxQueueAck { s with
        sendUna := g.ack, lastAckTime := l.now, kaLast := l.now, kaProbes := 0 } g.ack else s) g
    have hsame : ∀ x : Socket, x = (if g.flags.ack then tcpRetxQueueAck { s with
        sendUna := g.ack, lastAckTime := l.now, kaLast := l.now, kaProbes := 0 } g.ack else s) →
        x.localPort = s.localPort ∧ x.state = s.state := by
      rintro x rfl
      split
      · exact ⟨rfl, rfl⟩
      · exact ⟨rfl, rfl⟩
    obtain ⟨hp, hst⟩ := hsame _ rfl
    rw [hst] at ht
    dsimp only
    rw [h]
    refine ⟨hp, ?_⟩
    rcases ht with rfl | rfl
    · simp [Fate.Fits]
    · simp [Fate.Fits, hno]

theorem receiveSocket_fits (l : Luck) (s : Socket) (g : Segment) :
    (receiveSocket l s g).2.1.localPort = s.localPort ∧
      (receiveSocket l s g).1.Fits s (receiveSocket l s g).2.1 := by
  cases hs : s.state with
  | synSent =>
    simp only [receiveSocket, hs]
    split
    · exact ⟨rfl, by simp [Fate.Fits, hs]⟩
    · split
      · apply sendAck_fits
        · exact (withMss_frame _ g).2
        · simp [hs]
      · exact ⟨rfl, by simp [Fate.Fits, hs]⟩
  | synRcvd =>
    simp only [receiveSocket, hs]
    split
    · exact ⟨rfl, by simp [Fate.Fits, hs]⟩
    · split
      · obtain ⟨n, w, h⟩ := tcpSendSegment_frame l.send
          { s with sendWindow := g.window, state := .synRcvd, recvNext := g.seq + 1, kaLast := l.now }
          { syn := true, ack := true } []
        rw [h]
        exact ⟨rfl, by simp [Fate.Fits, hs]⟩
      · split
        · exact ⟨rfl, by simp [Fate.Fits, hs]⟩
        · exact ⟨rfl, by simp [Fate.Fits, hs]⟩
  | established =>
    simp only [receiveSocket, hs]
    obtain ⟨hp, hf⟩ := receiveEstablished_fits l
      (s := { s with sendWindow := g.window, state := .established }) g rfl
    exact ⟨hp, by simpa [Fate.Fits, hs] using hf⟩
  | finWait1 =>
    simp only [receiveSocket, hs]
    split
    · exact ⟨rfl, by simp [Fate.Fits, hs]⟩
    · split
      · split
        · apply sendAck_fits
          · rfl
          · simp [hs]
        · exact ⟨rfl, by simp [Fate.Fits, hs]⟩
      · exact ⟨rfl, by simp [Fate.Fits, hs]⟩
  | finWait2 =>
    simp only [receiveSocket, hs]
    split
    · exact ⟨rfl, by simp [Fate.Fits, hs]⟩
    · split
      · apply sendAck_fits
        · rfl
        · simp [hs]
      · exact ⟨rfl, by simp [Fate.Fits, hs]⟩
  | closeWait =>
    simp only [receiveSocket, hs]
    split
    · exact ⟨rfl, by simp [Fate.Fits, hs]⟩
    · exact ⟨rfl, by simp [Fate.Fits, hs]⟩
  | lastAck =>
    simp only [receiveSocket, hs]
    split
    · exact ⟨rfl, by simp [Fate.Fits, hs]⟩
    · exact ⟨rfl, by simp [Fate.Fits, hs]⟩
  | closed => exact ⟨by simp [receiveSocket, hs], by simp [receiveSocket, hs, Fate.Fits]⟩
  | listen => exact ⟨by simp [receiveSocket, hs], by simp [receiveSocket, hs, Fate.Fits]⟩
  | closing => exact ⟨by simp [receiveSocket, hs], by simp [receiveSocket, hs, Fate.Fits]⟩
  | timeWait => exact ⟨by simp [receiveSocket, hs], by simp [receiveSocket, hs, Fate.Fits]⟩

theorem tickSynSent_keeps (ms : Nat → Nat) (l : TickLuck) (s : Socket) :
    (tickSynSent ms l s).1.localPort = s.localPort ∧
      ((tickSynSent ms l s).1.state = .synRcvd ↔ s.state = .synRcvd) := by
  rw [tickSynSent]
  split
  · rename_i hs
    split
    · exact ⟨rfl, by simp [hs]⟩
    · split
      · obtain ⟨n, w, h⟩ := tcpSendSegment_frame l.syn s { syn := true } []
        dsimp only
        rw [h]
        exact ⟨rfl, Iff.rfl⟩
      · exact ⟨rfl, Iff.rfl⟩
  · exact ⟨rfl, Iff.rfl⟩

theorem tickKeepalive_keeps (ms : Nat → Nat) (l : TickLuck) (s : Socket) :
    (tickKeepalive ms l s).1.localPort = s.localPort ∧
      ((tickKeepalive ms l s).1.state = .synRcvd ↔ s.state = .synRcvd) := by
  rw [tickKeepalive]
  split
  · rename_i hs
    split
    · exact ⟨rfl, by simp [hs.1]⟩
    · split
      · obtain ⟨n, w, h⟩ := tcpSendSegment_frame l.probe { s with sendNext := s.sendNext - 1 }
          { ack := true, psh := true } [0]
        dsimp only
        rw [h]
        exact ⟨rfl, Iff.rfl⟩
      · exact ⟨rfl, Iff.rfl⟩
  · exact ⟨rfl, Iff.rfl⟩

theorem tickRetransmit_keeps (ms : Nat → Nat) (l : TickLuck) (s : Socket) :
    (tickRetransmit ms l s).1.localPort = s.localPort ∧
      ((tickRetransmit ms l s).1.state = .synRcvd ↔ s.state = .synRcvd) := by
  rw [tickRetransmit]
  split
  · exact ⟨rfl, Iff.rfl⟩
  · rename_i seg rest _
    split
    · rename_i hs
      split
      · exact ⟨rfl, by simp [hs.1]⟩
      · obtain ⟨n, w, h⟩ := tcpSendSegment_frame l.resend { s with sendNext := seg.seq }
          { ack := true, psh := true } seg.data
        dsimp only
        rw [h]
        exact ⟨rfl, Iff.rfl⟩
    · exact ⟨rfl, Iff.rfl⟩

theorem tickFinWait1_keeps (ms : Nat → Nat) (l : TickLuck) (s : Socket) :
    (tickFinWait1 ms l s).1.localPort = s.localPort ∧
      ((tickFinWait1 ms l s).1.state = .synRcvd ↔ s.state = .synRcvd) := by
  rw [tickFinWait1]
  split
  · rename_i hs
    split
    · exact ⟨rfl, by simp [hs.1]⟩
    · obtain ⟨n, w, h⟩ := tcpSendSegment_frame l.fin s { fin := true, ack := true } []
      dsimp only
      rw [h]
      exact ⟨rfl, Iff.rfl⟩
  · exact ⟨rfl, Iff.rfl⟩

theorem tickTimeWait_keeps (ms : Nat → Nat) (l : TickLuck) (s : Socket) :
    (tickTimeWait ms l s).localPort = s.localPort ∧
      ((tickTimeWait ms l s).state = .synRcvd ↔ s.state = .synRcvd) := by
  rw [tickTimeWait]
  split
  · rename_i hs
    exact ⟨rfl, by simp [hs.1]⟩
  · exact ⟨rfl, Iff.rfl⟩

theorem tickSocket_fits (ms : Nat → Nat) (l : TickLuck) (s : Socket) :
    (tickSocket ms l s).2.1.localPort = s.localPort ∧
      (tickSocket ms l s).1.Fits s (tickSocket ms l s).2.1 := by
  obtain ⟨p1, s1⟩ := tickTimeWait_keeps ms l s
  rw [tickSocket]
  dsimp only
  split
  · rename_i hs
    exact ⟨p1, s1.1 hs.1, hs.1⟩
  · obtain ⟨p2, s2⟩ := tickSynSent_keeps ms l (tickTimeWait ms l s)
    obtain ⟨p3, s3⟩ := tickKeepalive_keeps ms l (tickSynSent ms l (tickTimeWait ms l s)).1
    obtain ⟨p4, s4⟩ := tickRetransmit_keeps ms l
      (tickKeepalive ms l (tickSynSent ms l (tickTimeWait ms l s)).1).1
    obtain ⟨p5, s5⟩ := tickFinWait1_keeps ms l
      (tickRetransmit ms l (tickKeepalive ms l (tickSynSent ms l (tickTimeWait ms l s)).1).1).1
    exact ⟨p5.trans (p4.trans (p3.trans (p2.trans p1))),
      s5.trans (s4.trans (s3.trans (s2.trans s1)))⟩

/-- A listener's books. -/
structure ListenerOk (n : Net) (l : Listener) : Prop where
  count : l.pendingCount = ((n.waiting l.port).length + l.completed.length : Nat)
  bound : l.pendingCount ≤ l.backlog
  queued : ∀ id ∈ l.completed, id ∈ n.sockets ∧ (n.sock id).localPort = l.port
  order : l.done = l.accepted ++ l.completed
  once : l.done.Nodup
  past : ∀ id ∈ l.done, id < n.fresh ∧ (id ∈ n.sockets → (n.sock id).state ≠ .synRcvd)

structure NetOk (n : Net) : Prop where
  nodup : n.sockets.Nodup
  fresh : ∀ id ∈ n.sockets, id < n.fresh
  ports : (n.listeners.map Listener.port).Nodup
  books : ∀ l ∈ n.listeners, ListenerOk n l
  heard : ∀ id ∈ n.sockets, (n.sock id).state = .synRcvd →
    ∃ l ∈ n.listeners, l.port = (n.sock id).localPort

theorem mem_waiting {n : Net} {id : Nat} : id ∈ n.waiting port ↔
    id ∈ n.sockets ∧ (n.sock id).state = .synRcvd ∧ (n.sock id).localPort = port := by
  rw [Net.waiting, List.mem_filter, decide_eq_true_eq]

section
variable {n n' : Net} {l : Listener} {id : Nat} {s : Socket} {f : Listener → Listener}

theorem waiting_nodup (h : n.sockets.Nodup) (port : Nat) : (n.waiting port).Nodup := h.filter _

theorem waiting_length_eq (h : n.sockets.Nodup) (h' : n'.sockets.Nodup)
    (hw : ∀ id, id ∈ n'.waiting port ↔ id ∈ n.waiting port) :
    (n'.waiting port).length = (n.waiting port).length := by
  apply List.Perm.length_eq
  rw [List.perm_ext_iff_of_nodup (waiting_nodup h' port) (waiting_nodup h port)]
  exact hw

theorem waiting_length_succ (id : Nat) (h : n.sockets.Nodup) (h' : n'.sockets.Nodup)
    (hid : id ∉ n.waiting port) (hw : ∀ x, x ∈ n'.waiting port ↔ x = id ∨ x ∈ n.waiting port) :
    (n'.waiting port).length = (n.waiting port).length + 1 := by
  have hperm : (n'.waiting port).Perm (id :: n.waiting port) := by
    rw [List.perm_ext_iff_of_nodup (waiting_nodup h' port)
      (List.nodup_cons.2 ⟨hid, waiting_nodup h port⟩)]
    intro x
    rw [hw, List.mem_cons]
  rw [hperm.length_eq, List.length_cons]

/-- A listener keeps its books when nothing of its port changes. -/
theorem ListenerOk.keep (hl : ListenerOk n l) (h : n.sockets.Nodup) (h' : n'.sockets.Nodup)
    (hfresh : n.fresh ≤ n'.fresh)
    (hw : ∀ id, id ∈ n'.waiting l.port ↔ id ∈ n.waiting l.port)
    (hq : ∀ id ∈ l.completed, id ∈ n.sockets → (n.sock id).localPort = l.port →
      id ∈ n'.sockets ∧ (n'.sock id).localPort = l.port)
    (hp : ∀ id < n.fresh, id ∈ n'.sockets → (n'.sock id).state = .synRcvd →
      id ∈ n.sockets ∧ (n.sock id).state = .synRcvd) : ListenerOk n' l where
  count := by
    rw [waiting_length_eq h h' hw]
    exact hl.count
  bound := hl.bound
  queued := fun id hid => hq id hid (hl.queued id hid).1 (hl.queued id hid).2
  order := hl.order
  once := hl.once
  past := by
    intro id hid
    obtain ⟨h1, h2⟩ := hl.past id hid
    refine ⟨h1.trans_le hfresh, ?_⟩
    intro hmem hs
    obtain ⟨h3, h4⟩ := hp id h1 hmem hs
    exact h2 h3 h4

theorem findListener_some (h : tcpFindListener n port = some l) :
    l ∈ n.listeners ∧ l.port = port :=
  ⟨List.mem_of_find?_eq_some h, by simpa using List.find?_some h⟩

theorem findListener_none (h : tcpFindListener n port = none) :
    ∀ l ∈ n.listeners, l.port ≠ port := by
  simpa [tcpFindListener] using h

theorem port_inj (h : NetOk n) (h1 : l ∈ n.listeners) (h2 : l' ∈ n.listeners)
    (hp : l.port = l'.port) : l = l' :=
  List.inj_on_of_nodup_map h.ports h1 h2 hp

theorem modifyFirst_eq_map {ls : List Listener} (h : (ls.map Listener.port).Nodup)
    (f : Listener → Listener) :
    Buckets.modifyFirst (fun l => l.port = port) f ls =
      ls.map fun l => if l.port = port then f l else l := by
  induction ls with
  | nil => rfl
  | cons l ls ih =>
    rw [List.map_cons, List.nodup_cons] at h
    rw [Buckets.modifyFirst, List.map_cons]
    by_cases hp : l.port = port
    · rw [if_pos (decide_eq_true hp), if_pos hp]
      have hrest : ls.map (fun l => if l.port = port then f l else l) = ls.map fun x => x := by
        apply List.map_congr_left
        intro x hx
        rw [if_neg]
        intro hxp
        apply h.1
        rw [hp, ← hxp]
        exact List.mem_map_of_mem hx
      rw [hrest, List.map_id']
    · rw [if_neg (by simpa using hp), if_neg hp, ih h.2]

theorem modifyListener_ports (h : (n.listeners.map Listener.port).Nodup)
    (hf : ∀ l, (f l).port = l.port) :
    (n.modifyListener port f).listeners.map Listener.port = n.listeners.map Listener.port := by
  rw [Net.modifyListener, modifyFirst_eq_map h, List.map_map]
  apply List.map_congr_left
  intro l _
  dsimp only [Function.comp]
  split
  · exact hf l
  · rfl

/-- A step that begins and ends no handshake and leaves the queues alone. -/
theorem NetOk.quiet (h : NetOk n) (hlis : n'.listeners = n.listeners) (h' : n'.sockets.Nodup)
    (hfresh : n.fresh ≤ n'.fresh) (hlt : ∀ id ∈ n'.sockets, id < n'.fresh)
    (hw : ∀ id, id ∈ n'.sockets ∧ (n'.sock id).state = .synRcvd ↔
      id ∈ n.sockets ∧ (n.sock id).state = .synRcvd)
    (hp : ∀ id ∈ n.sockets, (n'.sock id).localPort = (n.sock id).localPort)
    (hq : ∀ l ∈ n.listeners, ∀ id ∈ l.completed, id ∈ n'.sockets) : NetOk n' where
  nodup := h'
  fresh := hlt
  ports := by
    rw [hlis]
    exact h.ports
  books := by
    intro l hl
    rw [hlis] at hl
    apply (h.books l hl).keep h.nodup h' hfresh
    · intro id
      rw [mem_waiting, mem_waiting, ← and_assoc, ← and_assoc, hw]
      constructor
      · intro hid
        exact ⟨hid.1, (hp id hid.1.1).symm.trans hid.2⟩
      · intro hid
        exact ⟨hid.1, (hp id hid.1.1).trans hid.2⟩
    · intro id hid hmem hport
      exact ⟨hq l hl id hid, (hp id hmem).trans hport⟩
    · intro id _ hmem hs
      exact (hw id).1 ⟨hmem, hs⟩
  heard := by
    intro id hid hs
    obtain ⟨h1, h2⟩ := (hw id).1 ⟨hid, hs⟩
    rw [hlis, hp id h1]
    exact h.heard id h1 h2

theorem setSock_sock (n : Net) (id x : Nat) (s : Socket) :
    (n.setSock id s).sock x = if x = id then s else n.sock x :=
  Function.update_apply ..

/-- A socket changes but neither begins nor ends a handshake. -/
theorem NetOk.setSock (h : NetOk n) (id : Nat) (hport : s.localPort = (n.sock id).localPort)
    (hs : s.state = .synRcvd ↔ (n.sock id).state = .synRcvd) : NetOk (n.setSock id s) := by
  apply h.quiet
  · rfl
  · exact h.nodup
  · exact le_rfl
  · exact h.fresh
  · intro x
    rw [setSock_sock]
    split
    · rename_i hx
      rw [hx, hs]
      exact Iff.rfl
    · exact Iff.rfl
  · intro x _
    rw [setSock_sock]
    split
    · rename_i hx
      rw [hx, hport]
    · rfl
  · intro l hl x hx
    exact ((h.books l hl).queued x hx).1

theorem NetOk.create (h : NetOk n) (hs : s.state ≠ .synRcvd) : NetOk (tcpSocketCreate n s) := by
  have hnew : n.fresh ∉ n.sockets := fun hm => Nat.lt_irrefl _ (h.fresh _ hm)
  have hsock : ∀ x, (tcpSocketCreate n s).sock x = if x = n.fresh then s else n.sock x :=
    fun x => Function.update_apply ..
  apply h.quiet
  · rfl
  · exact List.nodup_cons.2 ⟨hnew, h.nodup⟩
  · exact Nat.le_succ _
  · intro x hx
    rcases List.mem_cons.1 hx with rfl | hx
    · exact Nat.lt_succ_self _
    · exact Nat.lt_succ_of_lt (h.fresh x hx)
  · intro x
    rw [hsock]
    split
    · rename_i hx
      subst hx
      simp [hs, hnew]
    · rename_i hx
      simp [tcpSocketCreate, hx]
  · intro x hx
    rw [hsock, if_neg (h.fresh x hx).ne]
  · intro l hl x hx
    exact List.mem_cons_of_mem _ ((h.books l hl).queued x hx).1

theorem mem_close (h : NetOk n) : x ∈ (tcpSocketClose n id).sockets ↔ x ≠ id ∧ x ∈ n.sockets :=
  h.nodup.mem_erase_iff

/-- The owner of a socket closes it. -/
theorem NetOk.close (h : NetOk n) (ho : Owned n id) : NetOk (tcpSocketClose n id) := by
  apply h.quiet
  · rfl
  · exact h.nodup.erase id
  · exact le_rfl
  · exact fun x hx => h.fresh x ((mem_close h).1 hx).2
  · intro x
    rw [mem_close h]
    constructor
    · exact fun hx => ⟨hx.1.2, hx.2⟩
    · intro hx
      refine ⟨⟨?_, hx.1⟩, hx.2⟩
      rintro rfl
      exact ho.2.1 hx.2
  · exact fun x _ => rfl
  · intro l hl x hx
    rw [mem_close h]
    refine ⟨?_, ((h.books l hl).queued x hx).1⟩
    rintro rfl
    exact ho.2.2 l hl hx

/-- Other ports do not see a socket of `port` come, go or change. -/
theorem ListenerOk.other (hl : ListenerOk n l) (h : n.sockets.Nodup) (h' : n'.sockets.Nodup)
    (hfresh : n.fresh ≤ n'.fresh) (hnew : id ∈ n'.sockets → (n'.sock id).localPort ≠ l.port)
    (hold : id ∈ n.sockets → (n.sock id).localPort ≠ l.port) (hid : id ∉ l.done)
    (hmem : ∀ x ≠ id, x ∈ n'.sockets ↔ x ∈ n.sockets)
    (hsock : ∀ x ≠ id, n'.sock x = n.sock x) : ListenerOk n' l := by
  have hsub : ∀ x, x ∈ n'.waiting l.port ↔ x ∈ n.waiting l.port := by
    intro x
    rw [mem_waiting, mem_waiting]
    by_cases hx : x = id
    · subst hx
      constructor
      · exact fun hw => absurd hw.2.2 (hnew hw.1)
      · exact fun hw => absurd hw.2.2 (hold hw.1)
    · rw [hmem x hx, hsock x hx]
  constructor
  · rw [waiting_length_eq h h' hsub]
    exact hl.count
  · exact hl.bound
  · intro x hx
    obtain ⟨h1, h2⟩ := hl.queued x hx
    have hne : x ≠ id := by
      rintro rfl
      exact hold h1 h2
    rw [hmem x hne, hsock x hne]
    exact ⟨h1, h2⟩
  · exact hl.order
  · exact hl.once
  · intro x hx
    obtain ⟨h1, h2⟩ := hl.past x hx
    have hne : x ≠ id := by
      rintro rfl
      exact hid hx
    rw [hmem x hne, hsock x hne]
    exact ⟨h1.trans_le hfresh, h2⟩

/-- A handshake on `port` begins or ends: one socket and one listener's books change. -/
theorem NetOk.handshake (h : NetOk n) (hl : l ∈ n.listeners) (id : Nat)
    (hlis : n'.listeners = n.listeners.map fun k => if k.port = l.port then f k else k)
    (hf : ∀ k, (f k).port = k.port) (h' : n'.sockets.Nodup) (hfresh : n.fresh ≤ n'.fresh)
    (hlt : ∀ x ∈ n'.sockets, x < n'.fresh) (hmem : ∀ x ≠ id, x ∈ n'.sockets ↔ x ∈ n.sockets)
    (hsock : ∀ x ≠ id, n'.sock x = n.sock x)
    (hnew : id ∈ n'.sockets → (n'.sock id).localPort = l.port)
    (hold : id ∈ n.sockets → (n.sock id).localPort = l.port)
    (hid : ∀ k ∈ n.listeners, id ∉ k.done) (hbook : ListenerOk n' (f l)) : NetOk n' := by
  have hports : n'.listeners.map Listener.port = n.listeners.map Listener.port := by
    rw [hlis, List.map_map]
    apply List.map_congr_left
    intro k _
    dsimp only [Function.comp]
    split
    · exact hf k
    · rfl
  constructor
  · exact h'
  · exact hlt
  · rw [hports]
    exact h.ports
  · intro k hk
    rw [hlis, List.mem_map] at hk
    obtain ⟨j, hj, rfl⟩ := hk
    split
    · rename_i hp
      rw [port_inj h hj hl hp]
      exact hbook
    · rename_i hp
      apply (h.books j hj).other h.nodup h' hfresh
      · exact fun hm heq => hp (heq.symm.trans (hnew hm))
      · exact fun hm heq => hp (heq.symm.trans (hold hm))
      · exact hid j hj
      · exact hmem
      · exact hsock
  · intro x hx hs
    have hheard : (n'.sock x).localPort ∈ n.listeners.map Listener.port := by
      by_cases hxid : x = id
      · subst hxid
        rw [hnew hx]
        exact List.mem_map_of_mem hl
      · rw [hsock x hxid] at hs ⊢
        obtain ⟨k, hk, hkp⟩ := h.heard x ((hmem x hxid).1 hx) hs
        rw [← hkp]
        exact List.mem_map_of_mem hk
    rw [← hports] at hheard
    obtain ⟨k, hk, hkp⟩ := List.mem_map.1 hheard
    exact ⟨k, hk, hkp⟩

theorem modifyListener_eq (h : (n.listeners.map Listener.port).Nodup) (port : Nat)
    (f : Listener → Listener) : (n.modifyListener port f).listeners =
      n.listeners.map fun k => if k.port = port then f k else k :=
  modifyFirst_eq_map h f

/-- A SYN makes a new socket wait on a port with room for it. -/
theorem NetOk.serve (h : NetOk n) (hl : tcpFindListener n port = some l)
    (hroom : l.pendingCount < l.backlog) (hport : s.localPort = port) (hs : s.state = .synRcvd)
    (hsockets : n'.sockets = n.fresh :: n.sockets) (hfresh : n'.fresh = n.fresh + 1)
    (hsock : n'.sock = Function.update n.sock n.fresh s)
    (hlis : n'.listeners = Buckets.modifyFirst (fun l => l.port = port)
      (fun l => { l with pendingCount := l.pendingCount + 1 }) n.listeners) : NetOk n' := by
  obtain ⟨hmem, rfl⟩ := findListener_some hl
  have hb := h.books l hmem
  have hnew : n.fresh ∉ n.sockets := fun hm => Nat.lt_irrefl _ (h.fresh _ hm)
  have hnodup : n'.sockets.Nodup := by
    rw [hsockets]
    exact List.nodup_cons.2 ⟨hnew, h.nodup⟩
  have hin : ∀ x ≠ n.fresh, x ∈ n'.sockets ↔ x ∈ n.sockets := by
    intro x hx
    rw [hsockets, List.mem_cons, or_iff_right hx]
  have hself : n'.sock n.fresh = s := by rw [hsock, Function.update_self]
  have hother : ∀ x ≠ n.fresh, n'.sock x = n.sock x := by
    intro x hx
    rw [hsock, Function.update_of_ne hx]
  apply h.handshake hmem n.fresh (hlis.trans (modifyFirst_eq_map h.ports _)) (fun _ => rfl)
    hnodup
  · omega
  · intro x hx
    rw [hsockets] at hx
    rw [hfresh]
    rcases List.mem_cons.1 hx with rfl | hx
    · exact Nat.lt_succ_self _
    · exact Nat.lt_succ_of_lt (h.fresh x hx)
  · exact hin
  · exact hother
  · intro _
    rw [hself]
    exact hport
  · exact fun hm => absurd hm hnew
  · intro k hk hm
    exact Nat.lt_irrefl _ ((h.books k hk).past _ hm).1
  · constructor
    · have hlen : (n'.waiting l.port).length = (n.waiting l.port).length + 1 := by
        apply waiting_length_succ n.fresh h.nodup hnodup
        · exact fun hw => hnew (mem_waiting.1 hw).1
        · intro x
          rw [mem_waiting, mem_waiting]
          by_cases hx : x = n.fresh
          · subst hx
            rw [hself, hsockets]
            simp [hs, hport]
          · rw [hin x hx, hother x hx, or_iff_right hx]
      have hcount := hb.count
      dsimp only
      rw [hlen]
      omega
    · dsimp only
      omega
    · intro x hx
      obtain ⟨h1, h2⟩ := hb.queued x hx
      have hne := (h.fresh x h1).ne
      rw [hin x hne, hother x hne]
      exact ⟨h1, h2⟩
    · exact hb.order
    · exact hb.once
    · intro x hx
      obtain ⟨h1, h2⟩ := hb.past x hx
      rw [hin x h1.ne, hother x h1.ne, hfresh]
      exact ⟨Nat.lt_succ_of_lt h1, h2⟩

/-- A handshake is given up. -/
theorem NetOk.drop (h : NetOk n) (hid : id ∈ n.sockets) (hs : (n.sock id).state = .synRcvd) :
    NetOk (tcpDropServerSocket n id) := by
  obtain ⟨l, hl, hlp⟩ := h.heard id hid hs
  have hb := h.books l hl
  have hnodup : (tcpDropServerSocket n id).sockets.Nodup := h.nodup.erase id
  have hin : ∀ x, x ∈ (tcpDropServerSocket n id).sockets ↔ x ≠ id ∧ x ∈ n.sockets :=
    fun x => h.nodup.mem_erase_iff
  have hlis : (tcpDropServerSocket n id).listeners = n.listeners.map fun k =>
      if k.port = l.port then { k with pendingCount := k.pendingCount - 1 } else k := by
    rw [hlp]
    exact modifyListener_eq h.ports _ _
  have hdone : ∀ k ∈ n.listeners, id ∉ k.done :=
    fun k hk hm => ((h.books k hk).past id hm).2 hid hs
  have hqueue : id ∉ l.completed := by
    intro hm
    apply hdone l hl
    rw [hb.order]
    exact List.mem_append_right _ hm
  have hout : id ∉ (tcpDropServerSocket n id).sockets := fun hm => ((hin id).1 hm).1 rfl
  apply h.handshake hl id hlis (fun _ => rfl) hnodup le_rfl
  · exact fun x hx => h.fresh x ((hin x).1 hx).2
  · intro x hx
    rw [hin, and_iff_right hx]
  · exact fun x _ => rfl
  · exact fun hm => absurd hm hout
  · exact fun _ => hlp.symm
  · exact hdone
  · constructor
    · have hlen : (n.waiting l.port).length =
          ((tcpDropServerSocket n id).waiting l.port).length + 1 := by
        apply waiting_length_succ id hnodup h.nodup
        · exact fun hw => hout (mem_waiting.1 hw).1
        · intro x
          rw [mem_waiting, mem_waiting, hin]
          have hsame : (tcpDropServerSocket n id).sock x = n.sock x := rfl
          rw [hsame]
          by_cases hx : x = id
          · subst hx
            simp [hid, hs, hlp]
          · simp [hx]
      have hcount := hb.count
      dsimp only
      omega
    · have hbound := hb.bound
      dsimp only
      omega
    · intro x hx
      obtain ⟨h1, h2⟩ := hb.queued x hx
      rw [hin]
      refine ⟨⟨?_, h1⟩, h2⟩
      rintro rfl
      exact hqueue hx
    · exact hb.order
    · exact hb.once
    · intro x hx
      obtain ⟨h1, h2⟩ := hb.past x hx
      exact ⟨h1, fun hm => h2 ((hin x).1 hm).2⟩

theorem modifyListener_twice (h : (n.listeners.map Listener.port).Nodup) (port : Nat)
    {f g : Listener → Listener} (hf : ∀ k, (f k).port = k.port) :
    ((n.modifyListener port f).modifyListener port g).listeners =
      n.listeners.map fun k => if k.port = port then g (f k) else k := by
  have h' : ((n.modifyListener port f).listeners.map Listener.port).Nodup := by
    rw [modifyListener_ports h hf]
    exact h
  rw [modifyListener_eq h', modifyListener_eq h, List.map_map]
  apply List.map_congr_left
  intro k _
  dsimp only [Function.comp]
  by_cases hp : k.port = port
  · simp [hp, hf]
  · simp [hp]

/-- A completed socket finds its listener and room in its queue. -/
theorem complete_eq (h : (n.listeners.map Listener.port).Nodup) (hl : l ∈ n.listeners)
    (hf : ∀ k, (f k).port = k.port) (hroom : (f l).pendingCount ≤ (f l).backlog) :
    tcpListenerComplete (n.modifyListener l.port f) l.port id =
      (n.modifyListener l.port f).modifyListener l.port
        fun k => { k with completed := k.completed ++ [id] } := by
  have hnodup : ((n.modifyListener l.port f).listeners.map Listener.port).Nodup := by
    rw [modifyListener_ports h hf]
    exact h
  have hmem : f l ∈ (n.modifyListener l.port f).listeners := by
    rw [modifyListener_eq h, List.mem_map]
    exact ⟨l, hl, if_pos rfl⟩
  rw [tcpListenerComplete]
  split
  · rename_i hnone
    exact absurd (hf l) (findListener_none hnone _ hmem)
  · rename_i k hk
    obtain ⟨hk1, hk2⟩ := findListener_some hk
    have heq : k = f l := List.inj_on_of_nodup_map hnodup hk1 hmem (hk2.trans (hf l).symm)
    rw [if_neg]
    rw [heq]
    exact hroom.not_gt

/-- A handshake is completed. -/
theorem NetOk.complete (h : NetOk n) (hid : id ∈ n.sockets) (hs : (n.sock id).state = .synRcvd)
    (hport : s.localPort = (n.sock id).localPort) (hs' : s.state ≠ .synRcvd) (ps : List Packet) :
    NetOk (settle n id (.complete, s, ps)) := by
  obtain ⟨l, hl, hlp⟩ := h.heard id hid hs
  have hb := h.books l hl
  have hsettle : settle n id (.complete, s, ps) = ((n.setSock id s).modifyListener l.port
      fun k => { k with done := k.done ++ [id] }).modifyListener l.port
        fun k => { k with completed := k.completed ++ [id] } := by
    rw [settle]
    dsimp only
    rw [hport, ← hlp]
    exact complete_eq (n := n.setSock id s) h.ports hl (fun _ => rfl) hb.bound
  have hlis := modifyListener_twice (n := n.setSock id s) h.ports l.port
    (f := fun k => { k with done := k.done ++ [id] })
    (g := fun k => { k with completed := k.completed ++ [id] }) (fun _ => rfl)
  have hdone : ∀ k ∈ n.listeners, id ∉ k.done :=
    fun k hk hm => ((h.books k hk).past id hm).2 hid hs
  have hself : (n.setSock id s).sock id = s := by rw [setSock_sock, if_pos rfl]
  have hother : ∀ x ≠ id, (n.setSock id s).sock x = n.sock x := by
    intro x hx
    rw [setSock_sock, if_neg hx]
  have hbook : ∀ m : Net, m.sockets = n.sockets → m.sock = (n.setSock id s).sock →
      m.fresh = n.fresh → ListenerOk m { l with
        completed := l.completed ++ [id], done := l.done ++ [id] } := by
    intro m h1 h2 h3
    constructor
    · have hlen : (n.waiting l.port).length = (m.waiting l.port).length + 1 := by
        apply waiting_length_succ id (by rw [h1]; exact h.nodup) h.nodup
        · intro hw
          apply hs'
          rw [← hself, ← h2]
          exact (mem_waiting.1 hw).2.1
        · intro x
          rw [mem_waiting, mem_waiting, h1, h2]
          by_cases hx : x = id
          · subst hx
            simp [hid, hs, hlp]
          · rw [hother x hx, or_iff_right hx]
      have hcount := hb.count
      dsimp only
      rw [List.length_append, List.length_singleton]
      omega
    · exact hb.bound
    · intro x hx
      rw [h1, h2]
      rcases List.mem_append.1 hx with hq | hq
      · obtain ⟨q1, q2⟩ := hb.queued x hq
        have hne : x ≠ id := by
          rintro rfl
          apply hdone l hl
          rw [hb.order]
          exact List.mem_append_right _ hq
        rw [hother x hne]
        exact ⟨q1, q2⟩
      · rw [List.mem_singleton.1 hq, hself]
        exact ⟨hid, hport.trans hlp.symm⟩
    · dsimp only
      rw [hb.order, List.append_assoc]
    · apply List.nodup_append.2 ⟨hb.once, List.nodup_singleton _, ?_⟩
      intro x hx y hy hxy
      apply hdone l hl
      rw [← List.mem_singleton.1 hy, ← hxy]
      exact hx
    · intro x hx
      rw [h1, h2, h3]
      rcases List.mem_append.1 hx with hq | hq
      · obtain ⟨q1, q2⟩ := hb.past x hq
        have hne : x ≠ id := by
          rintro rfl
          exact hdone l hl hq
        rw [hother x hne]
        exact ⟨q1, q2⟩
      · rw [List.mem_singleton.1 hq, hself]
        exact ⟨h.fresh id hid, fun _ => hs'⟩
  rw [hsettle]
  apply h.handshake hl id hlis (fun _ => rfl) h.nodup le_rfl h.fresh
  · exact fun x _ => Iff.rfl
  · exact hother
  · intro _
    exact (congrArg Socket.localPort hself).trans (hport.trans hlp.symm)
  · exact fun _ => hlp.symm
  · exact hdone
  · exact hbook _ rfl rfl rfl

/-- A socket the module has looked at. -/
theorem NetOk.settle (h : NetOk n) (hid : id ∈ n.sockets) (r : Fate × Socket × List Packet)
    (hport : r.2.1.localPort = (n.sock id).localPort) (hfits : r.1.Fits (n.sock id) r.2.1) :
    NetOk (settle n id r) := by
  obtain ⟨fate, s, ps⟩ := r
  cases fate with
  | keep => exact h.setSock id hport hfits
  | drop =>
    have hself : (n.setSock id s).sock id = s := by rw [setSock_sock, if_pos rfl]
    have hkeep : NetOk (n.setSock id s) :=
      h.setSock id hport ⟨fun _ => hfits.1, fun _ => hfits.2⟩
    exact hkeep.drop hid ((congrArg Socket.state hself).trans hfits.2)
  | complete => exact h.complete hid hfits.1 hport hfits.2 ps

theorem NetOk.accept (h : NetOk n) (port : Nat) : NetOk (tcpAccept n port).2 := by
  rw [tcpAccept]
  split
  · exact h
  · rename_i l hfind
    obtain ⟨hl, rfl⟩ := findListener_some hfind
    have hb := h.books l hl
    split
    · exact h
    · rename_i x rest hq
      have hnew : n.fresh ∉ n.sockets := fun hm => Nat.lt_irrefl _ (h.fresh _ hm)
      have hbook : ∀ m : Net, m.sockets = n.sockets → m.sock = n.sock → m.fresh = n.fresh →
          ListenerOk m { l with
            completed := rest, pendingCount := l.pendingCount - 1
            accepted := l.accepted ++ [x] } := by
        intro m h1 h2 h3
        have hwait : m.waiting l.port = n.waiting l.port := by rw [Net.waiting, h1, h2, Net.waiting]
        constructor
        · have hcount := hb.count
          rw [hq, List.length_cons] at hcount
          rw [hwait]
          dsimp only
          omega
        · have hbound := hb.bound
          dsimp only
          omega
        · intro y hy
          rw [h1, h2]
          apply hb.queued y
          rw [hq]
          exact List.mem_cons_of_mem _ hy
        · dsimp only
          rw [hb.order, hq, List.append_assoc]
          rfl
        · exact hb.once
        · intro y hy
          rw [h1, h2, h3]
          exact hb.past y hy
      apply h.handshake hl n.fresh (f := fun l => { l with
          completed := rest, pendingCount := l.pendingCount - 1, accepted := l.accepted ++ [x] })
        (modifyListener_eq h.ports _ _) (fun _ => rfl) h.nodup le_rfl h.fresh
      · exact fun _ _ => Iff.rfl
      · exact fun _ _ => rfl
      · exact fun hm => absurd hm hnew
      · exact fun hm => absurd hm hnew
      · intro k hk hm
        exact Nat.lt_irrefl _ ((h.books k hk).past _ hm).1
      · exact hbook _ rfl rfl rfl

theorem NetOk.listen (h : NetOk n) (port : Nat) (backlog : Int) (allocated : Bool) :
    NetOk (tcpListen n port backlog allocated) := by
  rw [tcpListen]
  split
  · exact h
  · rename_i hc
    have hnone : tcpFindListener n port = none := by
      simpa using fun hsome => hc (.inl hsome)
    have hport := findListener_none hnone
    have hempty : n.waiting port = [] := by
      rw [List.eq_nil_iff_forall_not_mem]
      intro x hx
      obtain ⟨h1, h2, h3⟩ := mem_waiting.1 hx
      obtain ⟨k, hk, hkp⟩ := h.heard x h1 h2
      exact hport k hk (hkp.trans h3)
    constructor
    · exact h.nodup
    · exact h.fresh
    · apply List.nodup_cons.2 ⟨?_, h.ports⟩
      intro hm
      obtain ⟨k, hk, hkp⟩ := List.mem_map.1 hm
      exact hport k hk hkp
    · intro k hk
      rcases List.mem_cons.1 hk with rfl | hk
      · constructor
        · show (0 : Int) = _
          have hlen : (Net.waiting { n with listeners := ⟨port, if backlog < 1 then 1 else backlog,
              0, [], [], []⟩ :: n.listeners } port).length = 0 := by
            show (n.waiting port).length = 0
            rw [hempty]
            rfl
          rw [hlen]
          rfl
        · dsimp only
          split <;> omega
        · nofun
        · rfl
        · exact List.nodup_nil
        · nofun
      · have hb := h.books k hk
        exact ⟨hb.count, hb.bound, hb.queued, hb.order, hb.once, hb.past⟩
    · intro x hx hs
      obtain ⟨k, hk, hkp⟩ := h.heard x hx hs
      exact ⟨k, List.mem_cons_of_mem _ hk, hkp⟩

/-- Sockets closed one after another. -/
theorem closeAll_spec (ids : List Nat) (n : Net) (h : n.sockets.Nodup) :
    (ids.foldl tcpSocketClose n).sockets.Nodup ∧
      (∀ x, x ∈ (ids.foldl tcpSocketClose n).sockets ↔ x ∉ ids ∧ x ∈ n.sockets) ∧
      (ids.foldl tcpSocketClose n).sock = n.sock ∧ (ids.foldl tcpSocketClose n).fresh = n.fresh ∧
      (ids.foldl tcpSocketClose n).listeners = n.listeners := by
  induction ids generalizing n with
  | nil => exact ⟨h, fun x => by simp, rfl, rfl, rfl⟩
  | cons id ids ih =>
    obtain ⟨h1, h2, h3, h4, h5⟩ := ih (tcpSocketClose n id) (h.erase id)
    refine ⟨h1, ?_, h3, h4, h5⟩
    intro x
    have hx : x ∈ (tcpSocketClose n id).sockets ↔ x ≠ id ∧ x ∈ n.sockets := h.mem_erase_iff
    rw [List.foldl_cons, h2, hx, List.mem_cons, not_or, and_comm (a := x ≠ id), ← and_assoc,
      and_assoc, and_comm (a := x ≠ id), and_assoc]
    tauto

/-- A port is given up with everything that waits on it. -/
theorem NetOk.forget (h : NetOk n) (port : Nat)
    (hlis : n'.listeners = n.listeners.filter fun l => l.port ≠ port)
    (h' : n'.sockets.Nodup) (hsock : n'.sock = n.sock) (hfresh : n'.fresh = n.fresh)
    (hsub : ∀ x ∈ n'.sockets, x ∈ n.sockets)
    (hkeep : ∀ x ∈ n.sockets, (n.sock x).localPort ≠ port → x ∈ n'.sockets)
    (hgone : ∀ x ∈ n'.sockets, (n.sock x).state = .synRcvd → (n.sock x).localPort ≠ port) :
    NetOk n' := by
  constructor
  · exact h'
  · intro x hx
    rw [hfresh]
    exact h.fresh x (hsub x hx)
  · rw [hlis]
    exact h.ports.sublist (List.filter_sublist.map _)
  · intro l hl
    rw [hlis, List.mem_filter, decide_eq_true_eq] at hl
    apply (h.books l hl.1).keep h.nodup h' hfresh.ge
    · intro x
      rw [mem_waiting, mem_waiting, hsock]
      constructor
      · exact fun hw => ⟨hsub x hw.1, hw.2⟩
      · exact fun hw => ⟨hkeep x hw.1 (by rw [hw.2.2]; exact hl.2), hw.2⟩
    · intro x _ hm hp
      rw [hsock]
      exact ⟨hkeep x hm (by rw [hp]; exact hl.2), hp⟩
    · intro x _ hm hs
      rw [hsock] at hs
      exact ⟨hsub x hm, hs⟩
  · intro x hx hs
    rw [hsock] at hs ⊢
    obtain ⟨k, hk, hkp⟩ := h.heard x (hsub x hx) hs
    refine ⟨k, ?_, hkp⟩
    rw [hlis, List.mem_filter, decide_eq_true_eq]
    exact ⟨hk, by rw [hkp]; exact hgone x hx hs⟩

theorem eraseP_eq_filter {ls : List Listener} (h : (ls.map Listener.port).Nodup) (port : Nat) :
    ls.eraseP (fun l => l.port = port) = ls.filter fun l => l.port ≠ port := by
  induction ls with
  | nil => rfl
  | cons l ls ih =>
    rw [List.map_cons, List.nodup_cons] at h
    by_cases hp : l.port = port
    · rw [List.eraseP_cons_of_pos (by simpa using hp), List.filter_cons_of_neg (by simpa using hp)]
      symm
      apply List.filter_eq_self.2
      intro x hx
      simp only [ne_eq, decide_not, Bool.not_eq_true', decide_eq_false_iff_not]
      intro hxp
      apply h.1
      rw [hp, ← hxp]
      exact List.mem_map_of_mem hx
    · rw [List.eraseP_cons_of_neg (by simpa using hp), List.filter_cons_of_pos (by simpa using hp),
        ih h.2]

theorem NetOk.unlisten (h : NetOk n) (port : Nat) : NetOk (tcpUnlisten n port) := by
  rw [tcpUnlisten]
  cases hfind : tcpFindListener n port with
  | none =>
    dsimp only
    obtain ⟨h1, h2, h3, h4, h5⟩ := closeAll_spec (n.waiting port) n h.nodup
    apply h.forget port _ h1 h3 h4
    · exact fun x hx => ((h2 x).1 hx).2
    · intro x hx hp
      exact (h2 x).2 ⟨fun hw => hp (mem_waiting.1 hw).2.2, hx⟩
    · intro x hx hs hp
      exact ((h2 x).1 hx).1 (mem_waiting.2 ⟨((h2 x).1 hx).2, hs, hp⟩)
    · rw [h5]
      symm
      apply List.filter_eq_self.2
      intro l hl
      simpa using findListener_none hfind l hl
  | some l =>
    dsimp only
    obtain ⟨hl, hlp⟩ := findListener_some hfind
    have hb := h.books l hl
    obtain ⟨h1, h2, h3, h4, h5⟩ := closeAll_spec l.completed
      { n with listeners := n.listeners.eraseP fun l => l.port = port } h.nodup
    generalize hm : List.foldl tcpSocketClose
      { n with listeners := n.listeners.eraseP fun l => l.port = port } l.completed = m at *
    obtain ⟨k1, k2, k3, k4, k5⟩ := closeAll_spec (m.waiting port) m h1
    apply h.forget port _ k1 (k3.trans h3) (k4.trans h4)
    · exact fun x hx => ((h2 x).1 ((k2 x).1 hx).2).2
    · intro x hx hp
      rw [k2, h2, mem_waiting]
      refine ⟨?_, ?_, hx⟩
      · rintro ⟨-, -, hw⟩
        rw [h3] at hw
        exact hp hw
      · intro hq
        exact hp ((hb.queued x hq).2.trans hlp)
    · intro x hx hs hp
      obtain ⟨hnot, hin⟩ := (k2 x).1 hx
      apply hnot
      rw [mem_waiting, h3]
      exact ⟨hin, hs, hp⟩
    · rw [k5, h5]
      exact eraseP_eq_filter h.ports port

theorem NetOk.receiveSyn (h : NetOk n) (l : Luck) (allocated : Bool) (rto : Nat) (g : Segment) :
    NetOk (receiveSyn n l allocated rto g) := by
  rw [Tcp.receiveSyn]
  split
  · exact h
  · rename_i k hk
    split
    · exact h
    · rename_i hc
      generalize hserver : serverSocket l rto n.tcpIsn g = server
      have hstate : server.state = .synRcvd ∧ server.localPort = g.destPort := by
        rw [← hserver]
        exact withMss_frame _ g
      obtain ⟨sn, w, hr⟩ := tcpSendSegment_frame l.send server { syn := true, ack := true } []
      dsimp only
      rw [hr]
      split
      · apply h.serve hk (s := { server with sendNext := sn, recvWindow := w })
        · exact Int.not_le.1 fun hle => hc (.inl hle)
        · exact hstate.2
        · exact hstate.1
        · rfl
        · rfl
        · rfl
        · rfl
      · -- the server socket is closed again
        have hnew : n.fresh ∉ n.sockets := fun hm => Nat.lt_irrefl _ (h.fresh _ hm)
        have hsockets : ∀ s, (tcpSocketClose { tcpSocketCreate n s with
            tcpIsn := n.tcpIsn + 1 } n.fresh).sockets = n.sockets :=
          fun s => List.erase_cons_head ..
        apply h.quiet
        · rfl
        · rw [hsockets]
          exact h.nodup
        · exact Nat.le_succ _
        · intro x hx
          rw [hsockets] at hx
          exact Nat.lt_succ_of_lt (h.fresh x hx)
        · intro x
          rw [hsockets]
          apply and_congr_right
          intro hx
          dsimp only [tcpSocketClose, tcpSocketCreate]
          rw [Function.update_of_ne (h.fresh x hx).ne]
        · intro x hx
          dsimp only [tcpSocketClose, tcpSocketCreate]
          rw [Function.update_of_ne (h.fresh x hx).ne]
        · intro j hj x hx
          rw [hsockets]
          exact ((h.books j hj).queued x hx).1

/-- Only the socket in question can leave the list. -/
theorem settle_mem (hx : x ∈ n.sockets) (hne : x ≠ id) (r : Fate × Socket × List Packet) :
    x ∈ (settle n id r).sockets := by
  obtain ⟨fate, s, ps⟩ := r
  have herase : x ∈ n.sockets.erase id := (List.mem_erase_of_ne hne).2 hx
  cases fate with
  | keep => exact hx
  | drop => exact herase
  | complete =>
    rw [settle]
    dsimp only
    rw [tcpListenerComplete]
    split
    · exact herase
    · split
      · exact herase
      · exact hx

theorem NetOk.receive (h : NetOk n) (l : Luck) (allocated : Bool) (rto : Nat) (g : Segment) :
    NetOk (tcpReceive n l allocated rto g) := by
  rw [tcpReceive]
  split
  · split
    · exact h.receiveSyn l allocated rto g
    · exact h
  · rename_i x hx
    obtain ⟨hport, hfits⟩ := receiveSocket_fits l (n.sock x) g
    exact h.settle (List.mem_of_find?_eq_some hx) _ hport hfits

/-- Every socket on the list is looked at once. -/
theorem NetOk.tick (h : NetOk n) (ms : Nat → Nat) (luck : Nat → TickLuck) :
    NetOk (tcpTick n ms luck) := by
  have hloop : ∀ (ids : List Nat) (m : Net), ids.Nodup → (∀ x ∈ ids, x ∈ m.sockets) → NetOk m →
      NetOk (ids.foldl (fun n id => Tcp.settle n id (tickSocket ms (luck id) (n.sock id))) m) := by
    intro ids
    induction ids with
    | nil => exact fun m _ _ hm => hm
    | cons x ids ih =>
      intro m hnd hin hm
      rw [List.nodup_cons] at hnd
      obtain ⟨hport, hfits⟩ := tickSocket_fits ms (luck x) (m.sock x)
      apply ih _ hnd.2
      · intro y hy
        apply settle_mem
        · exact hin y (List.mem_cons_of_mem _ hy)
        · rintro rfl
          exact hnd.1 hy
      · exact hm.settle (hin x List.mem_cons_self) _ hport hfits
  exact hloop n.sockets n h.nodup (fun _ hx => hx) h

theorem NetOk.step (h : NetOk n) (op : NetOp) (hop : op.Legal n) : NetOk (netStep n op) := by
  cases op with
  | listen port backlog allocated => exact h.listen port backlog allocated
  | unlisten port => exact h.unlisten port
  | accept port => exact h.accept port
  | receive l allocated rto g => exact h.receive l allocated rto g
  | tick ms luck => exact h.tick ms luck
  | create port rto now => exact h.create nofun
  | close id => exact h.close hop
  | connect id o now localIp dest port =>
    have hkeeps : (tcpConnectStart o now n.tcpIsn localIp dest port (n.sock id)).2.1.localPort =
        (n.sock id).localPort ∧
        (tcpConnectStart o now n.tcpIsn localIp dest port (n.sock id)).2.1.state ≠ .synRcvd := by
      rw [tcpConnectStart]
      split
      · exact ⟨rfl, hop.2.1⟩
      · obtain ⟨sn, w, hr⟩ := tcpSendSegment_frame o { n.sock id with
          remoteIp := dest, remotePort := port, localIp, sendNext := n.tcpIsn, sendUna := n.tcpIsn
          recvNext := 0, state := .synSent } { syn := true } []
        dsimp only
        split
        · rw [hr]
          exact ⟨rfl, nofun⟩
        · rw [hr]
          exact ⟨rfl, nofun⟩
    have hset := h.setSock id hkeeps.1
      ⟨fun hs => absurd hs hkeeps.2, fun hs => absurd hs hop.2.1⟩
    exact hset.quiet rfl hset.nodup le_rfl hset.fresh (fun _ => Iff.rfl) (fun _ _ => rfl)
      fun l hl x hx => ((hset.books l hl).queued x hx).1
  | disconnect id o now =>
    have hkeeps : (tcpDisconnect o now (n.sock id)).1.localPort = (n.sock id).localPort ∧
        (tcpDisconnect o now (n.sock id)).1.state ≠ .synRcvd := by
      rw [tcpDisconnect]
      split
      · obtain ⟨sn, w, hr⟩ := tcpSendSegment_frame o { n.sock id with
          state := .finWait1, finSendTime := now, finRetries := 0 } { fin := true, ack := true } []
        rw [hr]
        exact ⟨rfl, nofun⟩
      · exact ⟨rfl, nofun⟩
    exact h.setSock id hkeeps.1 ⟨fun hs => absurd hs hkeeps.2, fun hs => absurd hs hop.2.1⟩

theorem netInit_ok : NetOk {} where
  nodup := List.nodup_nil
  fresh := nofun
  ports := List.nodup_nil
  books := nofun
  heard := nofun

theorem accept_next (h : NetOk n) (hl : l ∈ n.listeners) :
    (tcpAccept n l.port).1 = l.done[l.accepted.length]? := by
  have hb := h.books l hl
  have hhead : l.done[l.accepted.length]? = l.completed.head? := by
    rw [hb.order, List.getElem?_append_right le_rfl, Nat.sub_self, List.head?_eq_getElem?]
  rw [hhead, tcpAccept]
  split
  · rename_i hnone
    exact absurd rfl (findListener_none hnone l hl)
  · rename_i k hk
    obtain ⟨hk1, hk2⟩ := findListener_some hk
    rw [port_inj h hk1 hl hk2]
    split
    · rename_i hq
      rw [hq]
      rfl
    · rename_i hq
      rw [hq]
      rfl

end

def netRun (ops : List NetOp) : Net := ops.foldl netStep {}

/-- A listener counts its connections, keeps within its backlog, and hands the completed ones out
once each in the order they were completed. -/
theorem listener_accounting (ops : List NetOp)
    (hl : Along netStep (fun n op => op.Legal n) {} ops) (l : Listener)
    (hmem : l ∈ (netRun ops).listeners) :
    l.pendingCount = ((netRun ops).waiting l.port).length + l.completed.length ∧
      0 ≤ l.pendingCount ∧ l.pendingCount ≤ l.backlog ∧
      l.completed.Nodup ∧
      (∀ id ∈ l.completed, id ∈ (netRun ops).sockets ∧
        ∀ l' ∈ (netRun ops).listeners, id ∈ l'.completed → l' = l) ∧
      l.done.Nodup ∧ l.done = l.accepted ++ l.completed ∧
      (tcpAccept (netRun ops) l.port).1 = l.done[l.accepted.length]? := by
  have h : NetOk (netRun ops) := hl.invariant (fun n op hn hop => hn.step op hop) netInit_ok
  have hb := h.books l hmem
  have hcount := hb.count
  have honce := hb.once
  rw [hb.order] at honce
  refine ⟨by rw [hcount]; push_cast; rfl, by omega, hb.bound, ?_, ?_, hb.once, hb.order, ?_⟩
  · exact (List.nodup_append.1 honce).2.1
  · intro id hid
    obtain ⟨h1, h2⟩ := hb.queued id hid
    refine ⟨h1, ?_⟩
    intro l' hl' hid'
    exact port_inj h hl' hmem (((h.books l' hl').queued id hid').2.symm.trans h2)
  · exact accept_next h hmem

/-- A peer connects to port 80. -/
def oneConnection : List NetOp :=
  [.listen 80 2 true,
    .receive {} true 0 { srcIp := 7, destIp := 1, srcPort := 5000, destPort := 80, seq := 100
                         ack := 0, flags := { syn := true } },
    .receive {} true 0 { srcIp := 7, destIp := 1, srcPort := 5000, destPort := 80, seq := 101
                         ack := 1, flags := { ack := true } }]

theorem oneConnection_accounted :
    (netRun oneConnection).listeners = [⟨80, 2, 1, [0], [0], []⟩] ∧
      (tcpAccept (netRun oneConnection) 80).1 = some 0 := by
  have hlis : (netRun oneConnection).listeners = [⟨80, 2, 1, [0], [0], []⟩] := by decide
  have hl : Along netStep (fun n op => op.Legal n) {} oneConnection :=
    ⟨trivial, trivial, trivial, trivial⟩
  have h := listener_accounting oneConnection hl ⟨80, 2, 1, [0], [0], []⟩
    (by rw [hlis]; exact List.mem_singleton_self _)
  exact ⟨hlis, h.2.2.2.2.2.2.2⟩

end Lebirun.Tcp
