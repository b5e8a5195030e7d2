import Sirius.Net.Tcp
import Sirius.Support.LittleEndian
import Mathlib.Data.Finset.Basic

/-! Stream sockets of the family `AF_LOCAL`: each has a ring for what it receives, and a
connected one writes straight into the ring of its peer. Calls are atomic; a call that
sleeps has no answer yet. -/
namespace Sirius.Net.Local
open Support

abbrev SockId := Nat

def afLocal : Nat := 1
def unixPathMax : Nat := 108
def sizeofSockaddrUn : Nat := 2 + unixPathMax
def sizeofLocalAddr : Nat := 256

inductive SocketState
  | created
  | connected
  | listening
  | connecting
  | closing
deriving DecidableEq, Repr

/-- `listenQueue` is the list that starts at `listen_queue` and goes on through `next`;
`localAddr` is empty as long as the socket has no address. -/
structure LocalSocket where
  state : SocketState
  rx : Ring UInt8 socketBufferSize
  peer : Option SockId
  listenQueue : List SockId
  localAddr : List UInt8

inductive Event
  | connected (client session : SockId)
  | sent (source dest : SockId) (bytes : List UInt8)
  | received (sock : SockId) (bytes : List UInt8)
deriving DecidableEq, Repr

/-- `live` are the sockets made so far, `bound` the list of those with an address. The log
has the latest event first. -/
structure Sockets where
  socks : SockId → LocalSocket
  live : Finset SockId
  bound : List SockId
  log : List Event

namespace Sockets

def modify (s : Sockets) (sock : SockId) (change : LocalSocket → LocalSocket) : Sockets :=
  { s with socks := Function.update s.socks sock (change (s.socks sock)) }

def record (s : Sockets) (event : Event) : Sockets := { s with log := event :: s.log }

end Sockets

def newSocket : LocalSocket where
  state := .created
  rx := emptyRing
  peer := none
  listenQueue := []
  localAddr := []

def noSockets : Sockets where
  socks _ := newSocket
  live := ∅
  bound := []
  log := []

section
variable (s : Sockets) (sock : SockId)

def socketCreate : Sockets :=
  { s with socks := Function.update s.socks sock newSocket, live := insert sock s.live }

variable (buf addr : List UInt8)

def socketFindByAddress : Option SockId :=
  if addr = [] ∨ 256 < addr.length then none
  else s.bound.find? fun sock => (s.socks sock).localAddr = addr

def socketBindAddress : Int × Sockets :=
  if addr = [] ∨ sizeofLocalAddr < addr.length then (-22, s)
  else if (s.socks sock).localAddr ≠ [] then (-22, s)
  else if s.bound.any fun other => (s.socks other).localAddr = addr then (-2, s)
  else
    let s := s.modify sock fun socket => { socket with localAddr := addr }
    (0, { s with bound := sock :: s.bound })

/-- The path is not empty and has its terminator. -/
def validPath (path : List UInt8) : Bool :=
  let pathLen := (path.takeWhile (· ≠ 0)).length
  pathLen ≠ 0 && pathLen ≠ unixPathMax

def afLocalBind : Int × Sockets :=
  if addr.length < sizeofSockaddrUn ∨ sizeofLocalAddr < addr.length then (-1, s)
  else if leNat (addr.take 2) ≠ afLocal then (-1, s)
  else if ¬validPath ((addr.drop 2).take unixPathMax) then (-1, s)
  else if (s.socks sock).state ≠ .created then (-1, s)
  else socketBindAddress s sock (addr.take sizeofSockaddrUn)

def afLocalListen : Int × Sockets :=
  match (s.socks sock).state with
  | .closing | .connected | .connecting => (-1, s)
  | .created | .listening => (0, s.modify sock fun socket => { socket with state := .listening })

/-- A request that has been queued sleeps as long as its socket is `CONNECTING`. -/
def afLocalConnect : Option Int × Sockets :=
  match socketFindByAddress s addr with
  | none => (some (-1), s)
  | some server =>
    if server = sock then (some (-1), s)
    else
      match (s.socks sock).state with
      | .closing | .connecting | .connected => (some (-1), s)
      | .created | .listening =>
        if (s.socks server).state ≠ .listening then (some (-1), s)
        else
          let s := s.modify sock fun socket => { socket with state := .connecting }
          (none, s.modify server fun socket => { socket with listenQueue := sock :: socket.listenQueue })

def pair (client session : SockId) : Sockets :=
  let s := socketCreate s session
  let s := s.modify session fun socket => { socket with peer := some client, state := .connected }
  let s := s.modify client fun socket => { socket with peer := some session, state := .connected }
  s.record (.connected client session)

/-- With what `socket_create` answers. No answer while there is nobody to accept. -/
def afLocalAccept (grant : Option SockId) : Option (Option SockId) × Sockets :=
  if (s.socks sock).state ≠ .listening then (some none, s)
  else
    match (s.socks sock).listenQueue with
    | [] => (none, s)
    | client :: rest =>
      let s := s.modify sock fun socket => { socket with listenQueue := rest }
      match grant with
      | none =>
        (some none, if (s.socks client).state = .connecting then
          s.modify client fun socket => { socket with state := .created } else s)
      | some session =>
        -- A client that has gone away: the new socket is closed again.
        if (s.socks client).state ≠ .connecting then (some none, s)
        else (some (some session), pair s client session)

def afLocalIsActive (socket : LocalSocket) : Bool :=
  socket.state ≠ .created && socket.state ≠ .closing

def connectedPeer : Option SockId :=
  if (s.socks sock).state = .connected then (s.socks sock).peer else none

def afLocalSendto (destAddr : Option (List UInt8)) : Int × Sockets :=
  if buf = [] then (-1, s)
  else
    match (connectedPeer s sock).or (destAddr.bind (socketFindByAddress s)) with
    | none => (-1, s)
    | some dest =>
      if dest = sock then (-1, s)
      else if ¬afLocalIsActive (s.socks dest) then (-1, s)
      else
        let delivered := (s.socks dest).rx.fill buf
        let s := s.modify dest fun socket => { socket with rx := delivered.2 }
        (delivered.1, s.record (.sent sock dest (buf.take delivered.1)))

/-- The address of the peer, with its length, is given if there is room for one. -/
structure Received where
  ret : Int
  bytes : List UInt8
  source : Option (List UInt8 × Nat)
deriving DecidableEq, Repr

def peerAddress (room : Option Nat) : Option (List UInt8 × Nat) :=
  match room, (s.socks sock).peer with
  | some room, some peer =>
    if room = 0 then none else some ((s.socks peer).localAddr.take room, (s.socks peer).localAddr.length)
  | _, _ => none

/-- No answer while a connected socket has nothing to read. -/
def afLocalRecvfrom (len : Nat) (room : Option Nat) : Option Received × Sockets :=
  let rx := (s.socks sock).rx
  if len = 0 then (some ⟨-1, [], none⟩, s)
  else if rx.head = rx.tail then
    if (s.socks sock).state = .connected then (none, s) else (some ⟨0, [], none⟩, s)
  else
    let (bytes, rx) := rx.drain len
    let s := s.modify sock fun socket => { socket with rx := rx }
    (some ⟨bytes.length, bytes, peerAddress s sock room⟩, s.record (.received sock bytes))

def releasePending (pending : SockId) : Sockets :=
  if (s.socks pending).state = .connecting then s.modify pending fun socket => { socket with state := .created } else s

/-- The other end of a connection whose one end is released. -/
def releasePeer (peer : SockId) : Sockets :=
  if (s.socks peer).peer = some sock then
    s.modify peer fun socket =>
      { socket with
        peer := none
        state := if socket.state = .connected ∨ socket.state = .connecting then .created else socket.state }
  else s

def afLocalRelease : Int × Sockets :=
  if (s.socks sock).state = .closing then (0, s)
  else
    let pending := (s.socks sock).listenQueue
    let peer := (s.socks sock).peer
    let s := s.modify sock fun socket => { socket with state := .closing, listenQueue := [], peer := none }
    let s := pending.foldl releasePending s
    match peer with
    | none => (0, s)
    | some peer => (0, releasePeer s sock peer)

end

inductive Call
  | create (sock : SockId)
  | bind (sock : SockId) (addr : List UInt8)
  | listen (sock : SockId)
  | connect (sock : SockId) (addr : List UInt8)
  | accept (sock : SockId) (grant : Option SockId)
  | sendto (sock : SockId) (buf : List UInt8) (destAddr : Option (List UInt8))
  | recvfrom (sock : SockId) (len : Nat) (room : Option Nat)
  | release (sock : SockId)
deriving DecidableEq, Repr

def Call.apply : Call → Sockets → Sockets
  | create sock, s => socketCreate s sock
  | bind sock addr, s => (afLocalBind s sock addr).2
  | listen sock, s => (afLocalListen s sock).2
  | connect sock addr, s => (afLocalConnect s sock addr).2
  | accept sock grant, s => (afLocalAccept s sock grant).2
  | sendto sock buf destAddr, s => (afLocalSendto s sock buf destAddr).2
  | recvfrom sock len room, s => (afLocalRecvfrom s sock len room).2
  | release sock, s => (afLocalRelease s sock).2

/-- Calls are made on sockets there are, new sockets are new, and no socket sends by address. -/
def Call.Possible : Call → Sockets → Prop
  | create sock, s => sock ∉ s.live
  | bind sock _, s => sock ∈ s.live
  | listen sock, s => sock ∈ s.live
  | connect sock _, s => sock ∈ s.live
  | accept sock grant, s => sock ∈ s.live ∧ ∀ session ∈ grant, session ∉ s.live
  | sendto sock _ destAddr, s => sock ∈ s.live ∧ (connectedPeer s sock = none → destAddr = none)
  | recvfrom sock _ _, s => sock ∈ s.live
  | release sock, s => sock ∈ s.live

instance (call : Call) (s : Sockets) : Decidable (call.Possible s) := by
  cases call <;> unfold Call.Possible <;> infer_instance

end Sirius.Net.Local
