import Sirius.Net.AfLocal
import Sirius.Support.Runs

/-! What a local socket reads belongs to its connection: the ring holds exactly what the peer
has sent on it and what has not been read yet, provided the ring is empty when the connection
is made. -/
namespace Sirius.Net.Local
open Support List Call Option Finset

variable {s s' : Sockets} {sock : SockId}

/-- The other end of the latest connection of the socket. -/
def connectionOf (sock : SockId) : List Event → Option SockId
  | [] => none
  | .connected client session :: log =>
    if sock = client then some session else if sock = session then some client else connectionOf sock log
  | .sent _ _ _ :: log => connectionOf sock log
  | .received _ _ :: log => connectionOf sock log

/-- The bytes the socket has received since its latest connection was made. -/
def receivedBy (sock : SockId) : List Event → List UInt8
  | [] => []
  | .connected client session :: log => if sock = client ∨ sock = session then [] else receivedBy sock log
  | .sent _ _ _ :: log => receivedBy sock log
  | .received reader bytes :: log => if reader = sock then receivedBy sock log ++ bytes else receivedBy sock log

/-- The bytes accepted from `source` for the socket since its latest connection was made. -/
def acceptedFrom (source sock : SockId) : List Event → List UInt8
  | [] => []
  | .connected client session :: log => if sock = client ∨ sock = session then [] else acceptedFrom source sock log
  | .sent sender dest bytes :: log =>
    if sender = source ∧ dest = sock then acceptedFrom source sock log ++ bytes else acceptedFrom source sock log
  | .received _ _ :: log => acceptedFrom source sock log

/-- A request is accepted only once the client has read what is left in its ring. -/
def Call.Clean : Call → Sockets → Prop
  | accept sock _, s =>
    ∀ client ∈ (s.socks sock).listenQueue.head?, (s.socks client).state = .connecting →
      (s.socks client).rx.head = (s.socks client).rx.tail
  | _, _ => True

instance (call : Call) (s : Sockets) : Decidable (call.Clean s) :=
  match call with
  | .create .. | .bind .. | .listen .. | .connect .. | .accept .. | .sendto .. | .recvfrom .. | .release .. => by
    unfold Call.Clean
    infer_instance

structure Inv (s : Sockets) : Prop where
  peers : ∀ a ∈ s.live, ∀ b, (s.socks a).peer = some b →
    b ∈ s.live ∧ (s.socks b).peer = some a ∧ (s.socks a).state = .connected ∧ connectionOf a s.log = some b
  apart : ∀ a ∈ s.live, (s.socks a).peer ≠ some a
  streams : ∀ a ∈ s.live, ∀ p, connectionOf a s.log = some p →
    acceptedFrom p a s.log = receivedBy a s.log ++ (s.socks a).rx.contents
  fresh : ∀ a, a ∉ s.live → connectionOf a s.log = none
  queued : ∀ a ∈ s.live, ∀ c ∈ (s.socks a).listenQueue, c ∈ s.live

theorem noSockets_inv : Inv noSockets where
  peers _ mem := absurd mem (notMem_empty _)
  apart _ mem := absurd mem (notMem_empty _)
  streams _ mem := absurd mem (notMem_empty _)
  fresh _ _ := rfl
  queued _ mem := absurd mem (notMem_empty _)

/-- Connections may come undone, but no ring has changed. -/
structure Quiet (s s' : Sockets) : Prop where
  live : s'.live = s.live
  log : s'.log = s.log
  rx : ∀ a, (s'.socks a).rx = (s.socks a).rx
  queue : ∀ a ∈ s.live, ∀ c ∈ (s'.socks a).listenQueue, c ∈ (s.socks a).listenQueue ∨ c ∈ s.live
  peers : ∀ a ∈ s.live, ∀ b, (s'.socks a).peer = some b →
    (s.socks a).peer = some b ∧ (s'.socks b).peer = some a ∧ (s'.socks a).state = .connected

theorem Inv.quiet (inv : Inv s) (quiet : Quiet s s') : Inv s' where
  peers a mem b peer := by
    rw [quiet.live] at mem ⊢
    rw [quiet.log]
    obtain ⟨old, back, connected⟩ := quiet.peers a mem b peer
    obtain ⟨there, -, -, connection⟩ := inv.peers a mem b old
    exact ⟨there, back, connected, connection⟩
  apart a mem self := by
    rw [quiet.live] at mem
    exact inv.apart a mem (quiet.peers a mem a self).1
  streams a mem := by
    rw [quiet.live] at mem
    rw [quiet.log, quiet.rx]
    exact inv.streams a mem
  fresh a := by
    rw [quiet.live, quiet.log]
    exact inv.fresh a
  queued a mem c waits := by
    rw [quiet.live] at mem ⊢
    exact (quiet.queue a mem c waits).elim (inv.queued a mem c) id

theorem socks_modify (s : Sockets) (sock : SockId) (change : LocalSocket → LocalSocket) (a : SockId) :
    (s.modify sock change).socks a = if a = sock then change (s.socks sock) else s.socks a := by
  simp only [Sockets.modify, Function.update_apply]

/-- What the change keeps at its socket it keeps everywhere. -/
theorem field_modify (field : LocalSocket → β)
    (same : field (change (s.socks sock)) = field (s.socks sock)) (a : SockId) :
    field ((s.modify sock change).socks a) = field (s.socks a) := by
  rw [socks_modify]
  split
  case isTrue here => rw [same, here]
  case isFalse => rfl

section
variable (inv : Inv s)
include inv

/-- A change at one socket that keeps its ring and its peer. -/
theorem Inv.modify (rx : (change (s.socks sock)).rx = (s.socks sock).rx)
    (peer : (change (s.socks sock)).peer = (s.socks sock).peer)
    (connected : (s.socks sock).peer ≠ none → (s.socks sock).state = .connected →
      (change (s.socks sock)).state = .connected)
    (queue : sock ∈ s.live → ∀ c ∈ (change (s.socks sock)).listenQueue, c ∈ (s.socks sock).listenQueue ∨ c ∈ s.live) :
    Inv (s.modify sock change) := by
  have samePeer := field_modify LocalSocket.peer peer
  refine inv.quiet ⟨rfl, rfl, field_modify LocalSocket.rx rx, fun a mem c waits => ?_, fun a mem b link => ?_⟩
  · rw [socks_modify] at waits
    split_ifs at waits with same
    · subst same
      exact queue mem c waits
    · exact .inl waits
  · rw [samePeer] at link
    obtain ⟨-, back, state, -⟩ := inv.peers a mem b link
    refine ⟨link, (samePeer b).trans back, ?_⟩
    rw [socks_modify]
    split_ifs with same
    · subst same
      exact connected (by rw [link]; exact some_ne_none b) state
    · exact state

theorem socketCreate_inv (new : sock ∉ s.live) : Inv (socketCreate s sock) := by
  have socks : ∀ a, (socketCreate s sock).socks a = if a = sock then newSocket else s.socks a :=
    fun a => by simp only [socketCreate, Function.update_apply]
  have old : ∀ {a}, a ∈ (socketCreate s sock).live → a ≠ sock → a ∈ s.live :=
    fun mem ne => (mem_insert.mp mem).resolve_left ne
  refine ⟨fun a mem b peer => ?_, fun a mem self => ?_, fun a mem p connection => ?_, fun a absent => ?_,
    fun a mem c waits => ?_⟩
  · rw [socks] at peer
    split_ifs at peer with isNew
    · cases peer
    obtain ⟨there, back, state, connection⟩ := inv.peers a (old mem isNew) b peer
    have other : b ≠ sock := fun same => new (same ▸ there)
    rw [socks, socks, if_neg isNew, if_neg other]
    exact ⟨mem_insert_of_mem there, back, state, connection⟩
  · rw [socks] at self
    split_ifs at self with isNew
    · cases self
    · exact inv.apart a (old mem isNew) self
  · have ne : a ≠ sock := by
      rintro rfl
      exact some_ne_none p (connection.symm.trans (inv.fresh a new))
    rw [socks, if_neg ne]
    exact inv.streams a (old mem ne) p connection
  · exact inv.fresh a fun mem => absent (mem_insert_of_mem mem)
  · rw [socks] at waits
    split_ifs at waits with isNew
    · cases waits
    · exact mem_insert_of_mem (inv.queued a (old mem isNew) c waits)

theorem afLocalBind_inv : Inv (afLocalBind s sock addr).2 := by
  unfold afLocalBind socketBindAddress
  split_ifs
  all_goals try exact inv
  have named : Inv (s.modify sock fun socket => { socket with localAddr := addr.take sizeofSockaddrUn }) :=
    inv.modify rfl rfl (fun _ => id) fun _ _ => .inl
  exact { named with }

theorem afLocalListen_inv : Inv (afLocalListen s sock).2 := by
  have listening : (s.socks sock).state ≠ .connected →
      Inv (s.modify sock fun socket => { socket with state := .listening }) := fun idle =>
    inv.modify rfl rfl (fun _ connected => absurd connected idle) fun _ _ => .inl
  unfold afLocalListen
  split
  case h_4 state | h_5 state => exact listening (by rw [state]; decide)
  all_goals exact inv

theorem afLocalConnect_inv (live : sock ∈ s.live) : Inv (afLocalConnect s sock addr).2 := by
  unfold afLocalConnect
  split
  · exact inv
  case h_2 server found =>
  split
  · exact inv
  have queue : (s.socks sock).state ≠ .connected →
      Inv ((s.modify sock fun socket => { socket with state := .connecting }).modify server
        fun socket => { socket with listenQueue := sock :: socket.listenQueue }) := by
    intro idle
    have first : Inv (s.modify sock fun socket => { socket with state := .connecting }) :=
      inv.modify rfl rfl (fun _ connected => absurd connected idle) fun _ _ => .inl
    refine first.modify rfl rfl (fun _ => id) fun _ c waits => ?_
    rcases mem_cons.mp waits with rfl | waits
    · exact .inr live
    · exact .inl waits
  split
  case h_4 state | h_5 state =>
    split_ifs
    · exact inv
    · exact queue (by rw [state]; decide)
  all_goals exact inv

theorem pair_inv (new : session ∉ s.live) (live : client ∈ s.live) (waiting : (s.socks client).state = .connecting)
    (drained : (s.socks client).rx.head = (s.socks client).rx.tail) : Inv (pair s client session) := by
  have apart : client ≠ session := fun same => new (same ▸ live)
  have single : ∀ b, (s.socks client).peer ≠ some b := by
    intro b peer
    cases waiting.symm.trans (inv.peers client live b peer).2.2.1
  have empty := eq_nil_of_length_eq_zero ((Ring.contents_length _).trans ((Ring.used_eq_zero _).mpr drained))
  have socks : ∀ a, (pair s client session).socks a =
      if a = client then { s.socks client with peer := some session, state := .connected }
      else if a = session then { newSocket with peer := some client, state := .connected }
      else s.socks a := by
    intro a
    simp only [pair, socketCreate, Sockets.record, Sockets.modify, Function.update_apply, if_neg apart, if_true]
    split
    · rfl
    · split <;> rfl
  have log : (pair s client session).log = .connected client session :: s.log := rfl
  have mem_pair : ∀ {a}, a ∈ (pair s client session).live ↔ a = session ∨ a ∈ s.live := mem_insert
  refine ⟨fun a mem b peer => ?_, fun a mem self => ?_, fun a mem p connection => ?_, fun a absent => ?_,
    fun a mem c waits => ?_⟩
  · rw [socks] at peer
    split_ifs at peer with isClient isSession
    · obtain rfl := some.inj peer
      simp [socks, log, connectionOf, mem_pair, isClient, apart.symm]
    · obtain rfl := some.inj peer
      simp [socks, log, connectionOf, mem_pair, isSession, apart.symm, live]
    · obtain ⟨there, back, state, connection⟩ := inv.peers a ((mem_pair.mp mem).resolve_left isSession) b peer
      have notSession : b ≠ session := fun same => new (same ▸ there)
      have notClient : b ≠ client := by
        rintro rfl
        exact single a back
      simp [socks, log, connectionOf, mem_pair, isClient, isSession, notClient, notSession, there, back, state, connection]
  · rw [socks] at self
    split_ifs at self with isClient isSession
    · exact apart (isClient.symm.trans (some.inj self).symm)
    · exact apart ((some.inj self).trans isSession)
    · exact inv.apart a ((mem_pair.mp mem).resolve_left isSession) self
  · rw [log, connectionOf] at connection
    rw [log, acceptedFrom, receivedBy, socks]
    by_cases isClient : a = client
    · simp only [isClient, true_or, if_true, empty, append_nil]
    by_cases isSession : a = session
    · rw [if_pos (.inr isSession), if_pos (.inr isSession), if_neg isClient, if_pos isSession]
      rfl
    · simp only [isClient, isSession, false_or, if_false] at connection ⊢
      exact inv.streams a ((mem_pair.mp mem).resolve_left isSession) p connection
  · have notSession : a ≠ session := fun same => absent (mem_pair.mpr (.inl same))
    have notLive : a ∉ s.live := fun mem => absent (mem_pair.mpr (.inr mem))
    have notClient : a ≠ client := fun same => notLive (same ▸ live)
    rw [log, connectionOf, if_neg notClient, if_neg notSession]
    exact inv.fresh a notLive
  · rw [socks] at waits
    split_ifs at waits with isClient isSession
    · exact mem_pair.mpr (.inr (inv.queued client live c waits))
    · cases waits
    · exact mem_pair.mpr (.inr (inv.queued a ((mem_pair.mp mem).resolve_left isSession) c waits))

theorem releasePending_inv : Inv (releasePending s pending) := by
  unfold releasePending
  split_ifs with waiting
  · refine inv.modify rfl rfl (fun _ connected => ?_) fun _ _ => .inl
    cases waiting.symm.trans connected
  · exact inv

theorem afLocalAccept_inv (live : sock ∈ s.live) (new : ∀ session ∈ grant, session ∉ s.live)
    (clean : (accept sock grant).Clean s) : Inv (afLocalAccept s sock grant).2 := by
  unfold afLocalAccept
  split
  · exact inv
  split
  · exact inv
  case h_2 client rest queue =>
  have clientLive := inv.queued sock live client (queue ▸ mem_cons_self)
  have taken : Inv (s.modify sock fun socket => { socket with listenQueue := rest }) :=
    inv.modify rfl rfl (fun _ => id) fun _ c waits => .inl (queue ▸ mem_cons_of_mem _ waits)
  dsimp only
  split
  · exact releasePending_inv taken
  case h_2 session =>
  split_ifs with waiting
  · exact taken
  rw [not_not] at waiting
  have before := (field_modify LocalSocket.state rfl client).symm.trans waiting
  refine pair_inv taken (new session rfl) clientLive waiting ?_
  rw [field_modify LocalSocket.rx rfl client]
  exact clean client (by rw [queue]; rfl) before

/-- Bytes go into the ring of a socket or out of it, and this is recorded. -/
theorem Inv.transfer (kept : ∀ a, connectionOf a (event :: s.log) = connectionOf a s.log)
    (others : ∀ a, a ≠ sock → ∀ p, acceptedFrom p a (event :: s.log) = acceptedFrom p a s.log ∧
      receivedBy a (event :: s.log) = receivedBy a s.log)
    (here : ∀ p, connectionOf sock s.log = some p → sock ∈ s.live →
      acceptedFrom p sock (event :: s.log) = receivedBy sock (event :: s.log) ++ rx.contents) :
    Inv ((s.modify sock fun socket => { socket with rx := rx }).record event) := by
  let moved := s.modify sock fun socket => { socket with rx := rx }
  have samePeer : ∀ x, (moved.socks x).peer = (s.socks x).peer := field_modify LocalSocket.peer rfl
  have sameState : ∀ x, (moved.socks x).state = (s.socks x).state := field_modify LocalSocket.state rfl
  have sameQueue : ∀ x, (moved.socks x).listenQueue = (s.socks x).listenQueue :=
    field_modify LocalSocket.listenQueue rfl
  refine ⟨fun a mem b peer => ?_, fun a mem self => ?_, fun a mem p connection => ?_, fun a absent => ?_,
    fun a mem c waits => ?_⟩
  · obtain ⟨there, back, state, connection⟩ := inv.peers a mem b ((samePeer a).symm.trans peer)
    exact ⟨there, (samePeer b).trans back, (sameState a).trans state, (kept a).trans connection⟩
  · exact inv.apart a mem ((samePeer a).symm.trans self)
  · replace connection : connectionOf a s.log = some p := (kept a).symm.trans connection
    change acceptedFrom p a (event :: s.log) = receivedBy a (event :: s.log) ++ (moved.socks a).rx.contents
    rw [socks_modify]
    split_ifs with same
    · subst same
      exact here p connection mem
    · rw [(others a same p).1, (others a same p).2]
      exact inv.streams a mem p connection
  · exact (kept a).trans (inv.fresh a absent)
  · exact inv.queued a mem c (sameQueue a ▸ waits)

theorem afLocalSendto_inv (live : sock ∈ s.live) (byPeer : connectedPeer s sock = none → destAddr = none) :
    Inv (afLocalSendto s sock buf destAddr).2 := by
  unfold afLocalSendto
  split
  · exact inv
  split
  · exact inv
  case h_2 dest found =>
  have peer : (s.socks sock).peer = some dest := by
    cases isPeer : connectedPeer s sock with
    | none =>
      rw [isPeer, byPeer isPeer] at found
      cases found
    | some other =>
      rw [isPeer] at found
      obtain rfl := some.inj found
      unfold connectedPeer at isPeer
      split at isPeer
      · exact isPeer
      · cases isPeer
  obtain ⟨destLive, back, -, -⟩ := inv.peers sock live dest peer
  have connection := (inv.peers dest destLive sock back).2.2.2
  split
  · exact inv
  split
  · exact inv
  refine inv.transfer (fun _ => rfl) (fun a ne p => ⟨?_, rfl⟩) fun p isConnected there => ?_
  · rw [acceptedFrom, if_neg fun sent => ne sent.2.symm]
  · obtain rfl : sock = p := some.inj (connection.symm.trans isConnected)
    rw [acceptedFrom, if_pos ⟨rfl, rfl⟩, inv.streams dest destLive sock connection, receivedBy,
      Ring.fill_contents, append_assoc]

theorem afLocalRecvfrom_inv : Inv (afLocalRecvfrom s sock len room).2 := by
  unfold afLocalRecvfrom
  dsimp only
  split_ifs
  · exact inv
  · exact inv
  · exact inv
  obtain ⟨front, back⟩ := Ring.drain_spec len (s.socks sock).rx
  refine inv.transfer (fun _ => rfl) (fun a ne p => ⟨rfl, ?_⟩) fun p connection live => ?_
  · rw [receivedBy, if_neg ne.symm]
  · rw [receivedBy, if_pos rfl, acceptedFrom, inv.streams sock live p connection, front, back, append_assoc,
      take_append_drop]

end

/-- Requests may be given up. -/
structure Waived (s s' : Sockets) : Prop where
  live : s'.live = s.live
  log : s'.log = s.log
  rx : ∀ a, (s'.socks a).rx = (s.socks a).rx
  queue : ∀ a, (s'.socks a).listenQueue = (s.socks a).listenQueue
  peer : ∀ a, (s'.socks a).peer = (s.socks a).peer
  connected : ∀ a, (s.socks a).state = .connected → (s'.socks a).state = .connected

theorem releasePending_waived : Waived s (releasePending s pending) := by
  unfold releasePending
  split
  case isTrue waiting =>
    refine ⟨rfl, rfl, field_modify _ rfl, field_modify _ rfl, field_modify _ rfl, fun a connected => ?_⟩
    rw [socks_modify]
    split_ifs with same
    · cases waiting.symm.trans (same ▸ connected)
    · exact connected
  case isFalse => exact ⟨rfl, rfl, fun _ => rfl, fun _ => rfl, fun _ => rfl, fun _ => id⟩

theorem foldl_releasePending_waived (pending : List SockId) : Waived s (pending.foldl releasePending s) := by
  induction pending generalizing s with
  | nil => exact ⟨rfl, rfl, fun _ => rfl, fun _ => rfl, fun _ => rfl, fun _ => id⟩
  | cons first rest ih =>
    have one : Waived s (releasePending s first) := releasePending_waived
    have more : Waived (releasePending s first) (rest.foldl releasePending (releasePending s first)) := ih
    exact ⟨more.live.trans one.live, more.log.trans one.log, fun a => (more.rx a).trans (one.rx a),
      fun a => (more.queue a).trans (one.queue a), fun a => (more.peer a).trans (one.peer a),
      fun a connected => more.connected a (one.connected a connected)⟩

/-- The connection of one socket comes undone at both ends. -/
theorem Inv.disconnect (inv : Inv s) (mem : sock ∈ s.live) (live : s'.live = s.live) (log : s'.log = s.log)
    (rx : ∀ a, (s'.socks a).rx = (s.socks a).rx)
    (queue : ∀ a, ∀ c ∈ (s'.socks a).listenQueue, c ∈ (s.socks a).listenQueue)
    (ends : ∀ a, a = sock ∨ (s.socks sock).peer = some a → (s'.socks a).peer = none)
    (others : ∀ a, a ≠ sock → (s.socks sock).peer ≠ some a →
      (s'.socks a).peer = (s.socks a).peer ∧ ((s.socks a).state = .connected → (s'.socks a).state = .connected)) :
    Inv s' := by
  refine inv.quiet ⟨live, log, rx, fun a _ c waits => .inl (queue a c waits), fun a aLive b link => ?_⟩
  have notSock : a ≠ sock := fun same => by cases (ends a (.inl same)).symm.trans link
  have notPeer : (s.socks sock).peer ≠ some a := fun same => by cases (ends a (.inr same)).symm.trans link
  have same := others a notSock notPeer
  have link := same.1.symm.trans link
  obtain ⟨bLive, back, state, -⟩ := inv.peers a aLive b link
  refine ⟨link, ?_, same.2 state⟩
  have bNotSock : b ≠ sock := by
    rintro rfl
    exact notPeer back
  have bNotPeer : (s.socks sock).peer ≠ some b := by
    intro peer
    have atSock := (inv.peers sock mem b peer).2.1
    exact notSock (some.inj (back.symm.trans atSock))
  exact (others b bNotSock bNotPeer).1.trans back

theorem afLocalRelease_inv (inv : Inv s) (mem : sock ∈ s.live) : Inv (afLocalRelease s sock).2 := by
  unfold afLocalRelease
  split
  · exact inv
  dsimp only
  let closed := s.modify sock fun socket => { socket with state := .closing, listenQueue := [], peer := none }
  have waived : Waived closed ((s.socks sock).listenQueue.foldl releasePending closed) :=
    foldl_releasePending_waived _
  have rings : ∀ a, (closed.socks a).rx = (s.socks a).rx := field_modify LocalSocket.rx rfl
  have released : (closed.socks sock).peer = none := by
    rw [socks_modify, if_pos rfl]
  have same : ∀ a, a ≠ sock → closed.socks a = s.socks a := fun a ne => by
    rw [socks_modify, if_neg ne]
  have queue : ∀ a, ∀ c ∈ (closed.socks a).listenQueue, c ∈ (s.socks a).listenQueue := by
    intro a c waits
    rw [socks_modify] at waits
    split at waits
    · cases waits
    · exact waits
  split
  case h_1 alone =>
    refine inv.disconnect mem waived.live waived.log (fun a => (waived.rx a).trans (rings a))
      (fun a c waits => queue a c (waived.queue a ▸ waits)) (fun a isEnd => ?_) fun a notSock _ => ?_
    · rw [alone] at isEnd
      rw [isEnd.resolve_right nofun, waived.peer, released]
    · rw [waived.peer, ← same a notSock]
      exact ⟨rfl, waived.connected a⟩
  case h_2 peer linked =>
    have apart : peer ≠ sock := by
      rintro rfl
      exact inv.apart peer mem linked
    have back : (((s.socks sock).listenQueue.foldl releasePending closed).socks peer).peer = some sock := by
      rw [waived.peer, same peer apart]
      exact (inv.peers sock mem peer linked).2.1
    rw [releasePeer, if_pos back]
    refine inv.disconnect mem waived.live waived.log (fun a => ?_) (fun a c waits => ?_) (fun a isEnd => ?_)
      fun a notSock notPeer => ?_
    · rw [field_modify LocalSocket.rx rfl, waived.rx]
      exact rings a
    · rw [field_modify LocalSocket.listenQueue rfl, waived.queue] at waits
      exact queue a c waits
    · rw [socks_modify]
      split
      · rfl
      next isPeer =>
        rw [linked] at isEnd
        have isSock := isEnd.resolve_right fun here => isPeer (some.inj here).symm
        rw [isSock, waived.peer, released]
    · have other : a ≠ peer := by
        rintro rfl
        exact notPeer linked
      rw [socks_modify, if_neg other, waived.peer, ← same a notSock]
      exact ⟨rfl, waived.connected a⟩

theorem Call.apply_inv (call : Call) (inv : Inv s) (possible : call.Possible s) (clean : call.Clean s) :
    Inv (call.apply s) := by
  cases call with
  | create => exact socketCreate_inv inv possible
  | bind => exact afLocalBind_inv inv
  | listen => exact afLocalListen_inv inv
  | connect => exact afLocalConnect_inv inv possible
  | accept => exact afLocalAccept_inv inv possible.1 possible.2 clean
  | sendto => exact afLocalSendto_inv inv possible.1 possible.2
  | recvfrom => exact afLocalRecvfrom_inv inv
  | release => exact afLocalRelease_inv inv possible

/-- What a socket has received on its latest connection is what its peer there has sent first,
in every run in which requests are accepted from clients with an empty ring. -/
theorem local_sockets_are_streams (calls : List Call)
    (meet : AllMeet apply (fun call s => call.Possible s ∧ call.Clean s) calls noSockets) (sock peer : SockId)
    (connection : connectionOf sock (runAll apply calls noSockets).log = some peer) :
    receivedBy sock (runAll apply calls noSockets).log <+:
      acceptedFrom peer sock (runAll apply calls noSockets).log := by
  have inv := meet.preserves noSockets_inv fun call s condition inv => call.apply_inv inv condition.1 condition.2
  have live : sock ∈ (runAll apply calls noSockets).live := by
    by_contra absent
    cases (inv.fresh sock absent).symm.trans connection
  exact ⟨_, (inv.streams sock live peer connection).symm⟩

def serverAddress : List UInt8 := [1, 0, 97] ++ List.replicate 107 0

def meeting : List Call :=
  [.create 1, .bind 1 serverAddress, .listen 1, .create 2, .connect 2 serverAddress, .accept 1 (some 3)]

theorem local_sockets_are_streams_first :
    receivedBy 2 (runAll apply (meeting ++ [.sendto 3 [65, 66] none, .recvfrom 2 1 none]) noSockets).log <+:
      acceptedFrom 3 2 (runAll apply (meeting ++ [.sendto 3 [65, 66] none, .recvfrom 2 1 none]) noSockets).log :=
  local_sockets_are_streams _ (by decide +kernel) 2 3 (by decide +kernel)

/-- The server's end is released before the client has read all; the client connects again. -/
def reconnected : List Call :=
  meeting ++ [.sendto 3 [65] none, .release 3, .connect 2 serverAddress, .accept 1 (some 4), .sendto 4 [66] none,
    .recvfrom 2 10 none]

theorem old_bytes_on_new_connection : AllMeet apply (fun call s => call.Possible s) reconnected noSockets ∧
      connectionOf 2 (runAll apply reconnected noSockets).log = some 4 ∧
      receivedBy 2 (runAll apply reconnected noSockets).log = [65, 66] ∧
      acceptedFrom 4 2 (runAll apply reconnected noSockets).log = [66] ∧
      ¬receivedBy 2 (runAll apply reconnected noSockets).log <+:
        acceptedFrom 4 2 (runAll apply reconnected noSockets).log := by
  decide +kernel

end Sirius.Net.Local
