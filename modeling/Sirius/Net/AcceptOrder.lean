import Sirius.Net.Handshake
import Sirius.Net.LocalStream
import Mathlib.Data.List.Find

/-! The order in which connections are accepted. A request goes to the front of `listen_queue` in both families, and the
first of the queue that is ready is taken: of the connections that are ready, the one that was requested last. -/
namespace Sirius.Net
open Support List

section
variable {Label σ α : Type} [DecidableEq α]

/-- A system with its history: the requests that are queued and the connections that are ready, the oldest first. -/
structure Backlog (σ α : Type) where
  state : σ
  requests : List α
  ready : List α

/-- What is still there, in the order it had, and then what is new. -/
def arrivals (before now : List α) : List α := before.filter (· ∈ now) ++ now.filter (· ∉ before)

theorem mem_arrivals {before now : List α} {x : α} : x ∈ arrivals before now ↔ x ∈ now := by
  simp only [arrivals, mem_append, mem_filter, decide_eq_true_eq]
  tauto

/-- Entries leave a queue that has the newest first. -/
theorem arrivals_of_sublist {queue now : List α} (once : queue.Nodup) (fewer : now <+ queue) :
    arrivals queue.reverse now = now.reverse := by
  have part : now <+ queue.filter (· ∈ now) := by
    have := fewer.filter (· ∈ now)
    rwa [filter_eq_self.mpr fun x there => decide_eq_true there] at this
  have same : now ~ queue.filter (· ∈ now) := by
    refine (perm_ext_iff_of_nodup (fewer.nodup once) (once.filter _)).mpr fun x => ?_
    simpa using fun there => fewer.subset there
  have kept : queue.filter (· ∈ now) = now := (part.eq_of_length same.length_eq).symm
  have new : now.filter (· ∉ queue.reverse) = [] := by
    refine filter_eq_nil_iff.mpr fun x there => ?_
    simpa using fewer.subset there
  rw [arrivals, filter_reverse, kept, new, append_nil]

theorem arrivals_of_cons {queue : List α} {x : α} (absent : x ∉ queue) :
    arrivals queue.reverse (x :: queue) = (x :: queue).reverse := by
  have kept : queue.reverse.filter (· ∈ x :: queue) = queue.reverse :=
    filter_eq_self.mpr fun y there => decide_eq_true (mem_cons_of_mem _ (mem_reverse.mp there))
  have new : (x :: queue).filter (· ∉ queue.reverse) = [x] := by
    rw [filter_cons_of_pos (by simpa using absent), filter_eq_nil_iff.mpr]
    simp
  rw [arrivals, kept, new, reverse_cons]

variable (step : Label → σ → σ) (queue waiting : σ → List α) (taken : Label → σ → Option α) (accepts : Label → σ → Bool)

def Backlog.apply (label : Label) (b : Backlog σ α) : Backlog σ α :=
  let s := step label b.state
  ⟨s, arrivals b.requests (queue s), arrivals b.ready (waiting s)⟩

/-- The connection that has been ready longest is accepted. -/
def OldestFirst (label : Label) (b : Backlog σ α) : Prop := ∀ first ∈ taken label b.state, b.ready.head? = some first

instance (label : Label) (b : Backlog σ α) : Decidable (OldestFirst taken label b) :=
  inferInstanceAs (Decidable (∀ first ∈ taken label b.state, _))

/-- Of the connections that are ready when one is to be accepted, the one requested last has been ready longest. -/
def LastFirst (label : Label) (b : Backlog σ α) : Prop :=
  accepts label b.state = true → ∀ first ∈ b.requests.reverse.find? (· ∈ b.ready), b.ready.head? = some first
deriving Decidable

/-- A queue that has the newest request first, and each client once. -/
structure Backlog.Stacked (b : Backlog σ α) : Prop where
  requests : b.requests = (queue b.state).reverse
  once : (queue b.state).Nodup
  ready : ∀ x, x ∈ b.ready ↔ x ∈ waiting b.state

variable {queue waiting} {b : Backlog σ α} (stacked : b.Stacked queue waiting)
include stacked

theorem Backlog.Stacked.apply (label : Label) (moves : queue (step label b.state) <+ queue b.state ∨
      ∃ x ∉ queue b.state, queue (step label b.state) = x :: queue b.state) :
    (b.apply step queue waiting label).Stacked queue waiting := by
  refine ⟨?_, ?_, fun x => mem_arrivals⟩
  · rw [Backlog.apply, stacked.requests]
    rcases moves with fewer | ⟨x, absent, more⟩
    · exact arrivals_of_sublist stacked.once fewer
    · dsimp only
      rw [more]
      exact arrivals_of_cons absent
  · rcases moves with fewer | ⟨x, absent, more⟩
    · exact fewer.nodup stacked.once
    · exact more ▸ nodup_cons.mpr ⟨absent, stacked.once⟩

theorem Backlog.Stacked.oldestFirst_iff (takes : (queue b.state).Nodup → taken label b.state =
      if accepts label b.state then (queue b.state).find? (· ∈ waiting b.state) else none) :
    OldestFirst taken label b ↔ LastFirst accepts label b := by
  rw [OldestFirst, LastFirst, takes stacked.once]
  split
  case isTrue accepted =>
    simp only [stacked.requests, reverse_reverse, stacked.ready, accepted, true_implies]
  case isFalse idle => exact iff_of_true nofun fun accepted => absurd accepted idle

omit stacked

/-- What holds of every step in which no client is queued twice holds of the runs of such steps. -/
theorem oldestFirst_runs_iff {Once : Label → σ → Prop}
    (moves : ∀ label s, Once label s → queue (step label s) <+ queue s ∨ ∃ x ∉ queue s, queue (step label s) = x :: queue s)
    (takes : ∀ label s, (queue s).Nodup →
      taken label s = if accepts label s then (queue s).find? (· ∈ waiting s) else none)
    (empty : queue s = []) (idle : waiting s = [])
    (once : AllMeet (Backlog.apply step queue waiting) (fun label b => Once label b.state) labels ⟨s, [], []⟩) :
    AllMeet (Backlog.apply step queue waiting) (OldestFirst taken) labels ⟨s, [], []⟩ ↔
      AllMeet (Backlog.apply step queue waiting) (LastFirst accepts) labels ⟨s, [], []⟩ := by
  have start : Backlog.Stacked queue waiting ⟨s, [], []⟩ := by
    refine ⟨by rw [empty]; rfl, by rw [empty]; exact nodup_nil, fun x => ?_⟩
    rw [idle]
  have same : ∀ label (b : Backlog σ α), b.Stacked queue waiting → (OldestFirst taken label b ↔ LastFirst accepts label b) :=
    fun label b stacked => stacked.oldestFirst_iff _ _ (takes label _)
  constructor
  · exact fun oldest => (once.and oldest).imp _ start fun label b stacked both =>
      ⟨(same label b stacked).mp both.2, stacked.apply _ label (moves label _ both.1)⟩
  · exact fun last => (once.and last).imp _ start fun label b stacked both =>
      ⟨(same label b stacked).mpr both.2, stacked.apply _ label (moves label _ both.1)⟩

end

/-! TCP: a connection is ready when its handshake is complete. -/

structure Remote where
  ip : BitVec 32
  port : BitVec 16
deriving DecidableEq

def Connection.remote (entry : Connection) : Remote := ⟨entry.remoteIp, entry.remotePort⟩

def Opening.queue (o : Opening) : List Remote := o.sock.listenQueue.map Connection.remote

def Opening.waiting (o : Opening) : List Remote :=
  (o.sock.listenQueue.filter (·.state = .established)).map Connection.remote

def HandshakeEvent.taken (event : HandshakeEvent) (o : Opening) : Option Remote :=
  match event with
  | .accept => (afInetAccept o.sock).1.map Connection.remote
  | _ => none

def HandshakeEvent.accepts (event : HandshakeEvent) (o : Opening) : Bool :=
  match event with
  | .accept => o.sock.state = .listen
  | _ => false

/-- No SYN comes from a remote that is queued already. -/
def HandshakeEvent.Once (event : HandshakeEvent) (o : Opening) : Prop :=
  match event with
  | .segment seg srcIp _ =>
    o.sock.state = .listen → seg.has tcpFlagSyn = true → ⟨srcIp, seg.header.srcPort⟩ ∉ o.queue
  | _ => True

instance (event : HandshakeEvent) (o : Opening) : Decidable (event.Once o) :=
  match event with
  | .segment .. | .connect .. | .connectFailed | .listen | .accept => by
    unfold HandshakeEvent.Once
    infer_instance

/-- A request is queued in front, a handshake is completed where it stands, and `af_inet_accept` takes one out. -/
theorem HandshakeEvent.queue_moves (event : HandshakeEvent) (o : Opening) (once : event.Once o) :
    (o.apply event).queue <+ o.queue ∨ ∃ x ∉ o.queue, (o.apply event).queue = x :: o.queue := by
  cases event with
  | segment seg srcIp alloc =>
    have result : (o.apply (.segment seg srcIp alloc)).queue =
        (tcpInput o.sock seg srcIp alloc).sock.listenQueue.map Connection.remote := by
      rw [Opening.queue, Opening.apply, Opening.noteSegment_sock]
    rw [result]
    by_cases state : o.sock.state = .listen
    · rw [tcpInput, state]
      dsimp only
      unfold tcpInputListen
      split
      case isTrue syn =>
        split
        · split
          · exact .inr ⟨_, once state syn, rfl⟩
          · exact .inl (Sublist.refl _)
        · exact .inl (Sublist.refl _)
      case isFalse =>
        split
        · rcases completeHandshake_cases seg srcIp o.sock.listenQueue with
            ⟨failed, -⟩ | ⟨before, entry, after, session, split, -, -, ip, port, completed⟩
          · rw [failed]
            exact .inl (Sublist.refl _)
          · rw [completed]
            dsimp only
            split
            · have same : session.remote = entry.remote := by rw [Connection.remote, ip, port, Connection.remote]
              simp only [Opening.queue, split, map_append, map_cons, same, Sublist.refl, true_or]
            · exact .inl (Sublist.refl _)
        · exact .inl (Sublist.refl _)
    · rw [tcpInput_listenQueue state]
      exact .inl (Sublist.refl _)
  | accept =>
    refine .inl (Sublist.map _ ?_)
    rw [Opening.apply, afInetAccept]
    split
    · exact eraseP_sublist
    · exact Sublist.refl _
  | _ => exact .inl (Sublist.refl _)

theorem HandshakeEvent.taken_eq (event : HandshakeEvent) (o : Opening) (once : o.queue.Nodup) :
    event.taken o = if event.accepts o then o.queue.find? (· ∈ o.waiting) else none := by
  have ready : ∀ entry ∈ o.sock.listenQueue, entry.remote ∈ o.waiting ↔ entry.state = .established := by
    refine fun entry there => ⟨fun waits => ?_, fun established => ?_⟩
    · obtain ⟨other, inside, same⟩ := mem_map.mp waits
      obtain ⟨queued, established⟩ := mem_filter.mp inside
      rw [inj_on_of_nodup_map once there queued same.symm]
      exact of_decide_eq_true established
    · exact mem_map_of_mem (mem_filter.mpr ⟨there, decide_eq_true established⟩)
  cases event with
  | accept =>
    simp only [taken, accepts, afInetAccept, decide_eq_true_eq]
    split
    · rw [Opening.queue, find?_map]
      refine congrArg (Option.map Connection.remote) (find?_congr fun entry there => ?_)
      exact decide_eq_decide.mpr (ready entry there).symm
    · rfl
  | _ => rfl

/-! `AF_LOCAL`: a client is ready as soon as it has asked, as long as it has not gone away. -/

namespace Local
variable (server : SockId)

def Sockets.queue (s : Sockets) : List SockId := (s.socks server).listenQueue

def Sockets.waiting (s : Sockets) : List SockId := (s.queue server).filter fun client => (s.socks client).state = .connecting

/-- The client at the other end of the session that `af_local_accept` returns. -/
def Call.taken (call : Call) (s : Sockets) : Option SockId :=
  match call with
  | .accept sock grant =>
    if sock = server then
      let result := afLocalAccept s sock grant
      result.1.join.bind fun session => (result.2.socks session).peer
    else none
  | _ => none

/-- There is a socket for the session, and the client at the head of the queue has not gone away. -/
def Call.accepts (call : Call) (s : Sockets) : Bool :=
  match call with
  | .accept sock grant => sock = server && (s.socks sock).state = .listening && grant.isSome &&
      (s.socks sock).listenQueue.head?.all fun client => (s.socks client).state = .connecting
  | _ => false

/-- A socket that is queued is not in a state in which it could ask again. -/
def Call.Once (call : Call) (s : Sockets) : Prop :=
  match call with
  | .connect sock _ => sock ∈ s.queue server → (s.socks sock).state ≠ .created ∧ (s.socks sock).state ≠ .listening
  | _ => True

instance (call : Call) (s : Sockets) : Decidable (call.Once server s) :=
  match call with
  | .create .. | .bind .. | .listen .. | .connect .. | .accept .. | .sendto .. | .recvfrom .. | .release .. => by
    unfold Call.Once
    infer_instance

variable {server} {s : Sockets} {sock : SockId}

@[simp] theorem Sockets.queue_modify (same : (change (s.socks sock)).listenQueue = (s.socks sock).listenQueue) :
    (s.modify sock change).queue server = s.queue server := field_modify LocalSocket.listenQueue same server

@[simp] theorem Sockets.queue_record (event : Event) : (s.record event).queue server = s.queue server := rfl

theorem afLocalBind_queue : (afLocalBind s sock addr).2.queue server = s.queue server := by
  unfold afLocalBind socketBindAddress
  split_ifs
  all_goals try rfl
  dsimp only [Sockets.queue]
  exact field_modify LocalSocket.listenQueue rfl server

theorem afLocalListen_queue : (afLocalListen s sock).2.queue server = s.queue server := by
  unfold afLocalListen
  split <;> simp

theorem afLocalSendto_queue : (afLocalSendto s sock buf destAddr).2.queue server = s.queue server := by
  unfold afLocalSendto
  repeat' split
  all_goals simp

theorem afLocalRecvfrom_queue : (afLocalRecvfrom s sock len room).2.queue server = s.queue server := by
  unfold afLocalRecvfrom
  dsimp only
  split_ifs
  all_goals simp

theorem socketCreate_queue : (socketCreate s sock).queue server <+ s.queue server := by
  simp only [Sockets.queue, socketCreate, Function.update_apply]
  split
  · exact nil_sublist _
  · exact Sublist.refl _

theorem pair_queue : (pair s client session).queue server <+ s.queue server := by
  simp only [pair, Sockets.queue_record]
  rw [Sockets.queue_modify rfl, Sockets.queue_modify rfl]
  exact socketCreate_queue

theorem afLocalAccept_queue : (afLocalAccept s sock grant).2.queue server <+ s.queue server := by
  unfold afLocalAccept
  split
  · exact Sublist.refl _
  split
  · exact Sublist.refl _
  case h_2 client rest queue =>
  have less : (s.modify sock fun socket => { socket with listenQueue := rest }).queue server <+ s.queue server := by
    rw [Sockets.queue, socks_modify, Sockets.queue]
    split
    case isTrue same =>
      rw [same, queue]
      exact sublist_cons_self client rest
    case isFalse => exact Sublist.refl _
  dsimp only
  split
  · split
    · rwa [Sockets.queue_modify rfl]
    · exact less
  case h_2 session =>
  split
  · exact less
  · exact pair_queue.trans less

theorem afLocalRelease_queue : (afLocalRelease s sock).2.queue server <+ s.queue server := by
  have less : (s.modify sock fun socket =>
      { socket with state := .closing, listenQueue := [], peer := none }).queue server <+ s.queue server := by
    rw [Sockets.queue, socks_modify]
    split
    · exact nil_sublist _
    · exact Sublist.refl _
  rw [Sockets.queue, ← (foldl_releasePending_waived (s.socks sock).listenQueue).queue] at less
  unfold afLocalRelease releasePeer
  split
  · exact Sublist.refl _
  dsimp only
  split
  · exact less
  split
  · rwa [Sockets.queue_modify rfl]
  · exact less

theorem afLocalConnect_moves (once : (Call.connect sock addr).Once server s) :
    (afLocalConnect s sock addr).2.queue server = s.queue server ∨
      sock ∉ s.queue server ∧ (afLocalConnect s sock addr).2.queue server = sock :: s.queue server := by
  have asks : (s.socks sock).state = .created ∨ (s.socks sock).state = .listening → ∀ found,
      let s' := (s.modify sock fun socket => { socket with state := .connecting }).modify found
        fun socket => { socket with listenQueue := sock :: socket.listenQueue }
      s'.queue server = s.queue server ∨ sock ∉ s.queue server ∧ s'.queue server = sock :: s.queue server := by
    intro free found
    by_cases here : server = found
    · refine .inr ⟨fun queued => free.elim (once queued).1 (once queued).2, ?_⟩
      rw [Sockets.queue, socks_modify, if_pos here, ← here]
      exact congrArg (sock :: ·) (Sockets.queue_modify rfl)
    · refine .inl ?_
      rw [Sockets.queue, socks_modify, if_neg here]
      exact Sockets.queue_modify rfl
  unfold afLocalConnect
  split
  · exact .inl rfl
  split
  · exact .inl rfl
  split
  case h_4 state | h_5 state =>
    split
    · exact .inl rfl
    · exact asks (by rw [state]; decide) _
  all_goals exact .inl rfl

theorem Call.queue_moves (call : Call) (s : Sockets) (once : call.Once server s) :
    (call.apply s).queue server <+ s.queue server ∨ ∃ x ∉ s.queue server, (call.apply s).queue server = x :: s.queue server := by
  cases call with
  | create => exact .inl socketCreate_queue
  | bind => exact .inl (by rw [apply, afLocalBind_queue])
  | listen => exact .inl (by rw [apply, afLocalListen_queue])
  | connect sock addr => exact (afLocalConnect_moves once).imp (fun same => by rw [apply, same]) fun asks => ⟨sock, asks⟩
  | accept => exact .inl afLocalAccept_queue
  | sendto => exact .inl (by rw [apply, afLocalSendto_queue])
  | recvfrom => exact .inl (by rw [apply, afLocalRecvfrom_queue])
  | release => exact .inl afLocalRelease_queue

theorem pair_peer (s : Sockets) (client session : SockId) : ((pair s client session).socks session).peer = some client := by
  simp only [pair, Sockets.record, socks_modify]
  split
  case isTrue same => rw [same]
  case isFalse => rfl

theorem Call.taken_eq (call : Call) (s : Sockets) : call.taken server s =
    if call.accepts server s then (s.queue server).find? (· ∈ s.waiting server) else none := by
  cases call with
  | accept sock grant =>
    by_cases here : sock = server
    case neg => simp [taken, accepts, here]
    subst here
    rw [taken, if_pos rfl, afLocalAccept]
    by_cases listens : (s.socks sock).state = .listening
    case neg => simp [accepts, listens]
    cases queue : (s.socks sock).listenQueue with
    | nil => simp [listens, queue, Sockets.queue]
    | cons client rest =>
      cases grant with
      | none => simp [accepts, listens]
      | some session =>
        let left := s.modify sock fun socket => { socket with listenQueue := rest }
        have still : (left.socks client).state = (s.socks client).state := field_modify LocalSocket.state rfl client
        by_cases asks : (s.socks client).state = .connecting
        · have waits : client ∈ s.waiting sock := by simp [Sockets.waiting, Sockets.queue, queue, asks]
          simp [accepts, listens, queue, still, asks, left, pair_peer, Sockets.queue, waits]
        · simp [accepts, listens, queue, still, asks, left]
  | _ => rfl

end Local

/-- The condition is met by all events of a run of a TCP socket. -/
abbrev AllTcp (condition : HandshakeEvent → Backlog Opening Remote → Prop) (events : List HandshakeEvent) (o : Opening) : Prop :=
  AllMeet (Backlog.apply Opening.apply Opening.queue Opening.waiting) condition events ⟨o, [], []⟩

abbrev AllLocal (server : Local.SockId) (condition : Local.Call → Backlog Local.Sockets Local.SockId → Prop)
    (calls : List Local.Call) : Prop :=
  AllMeet (Backlog.apply Local.Call.apply (Local.Sockets.queue server) (Local.Sockets.waiting server)) condition calls
    ⟨Local.noSockets, [], []⟩

/-- In runs in which no client is queued twice, connections are accepted in the order in which they became ready exactly as
long as the one that was requested last has been ready longest: of local sockets, where a request is ready at once, as
long as there is only one. -/
theorem accepted_in_order_iff_last_first (o : Opening) (fresh : o.Fresh) (events : List HandshakeEvent) (server : Local.SockId)
    (calls : List Local.Call) :
    (AllTcp (fun event b => event.Once b.state) events o →
        (AllTcp (OldestFirst HandshakeEvent.taken) events o ↔ AllTcp (LastFirst HandshakeEvent.accepts) events o)) ∧
      (AllLocal server (fun call b => call.Once server b.state) calls →
        (AllLocal server (OldestFirst (Local.Call.taken server)) calls ↔
          AllLocal server (LastFirst (Local.Call.accepts server)) calls)) := by
  constructor
  · refine oldestFirst_runs_iff _ _ _ (fun event o => event.queue_moves o) (fun event o => event.taken_eq o) ?_ ?_
    · rw [Opening.queue, fresh.queue]
      rfl
    · rw [Opening.waiting, fresh.queue]
      rfl
  · exact oldestFirst_runs_iff _ _ _ (fun call s => call.queue_moves s) (fun call s _ => call.taken_eq s) rfl rfl

def fromOther (seq ack : BitVec 32) (flags : BitVec 12) : HandshakeEvent :=
  .segment (bareSegment seq ack flags) 8 fun _ => true

/-- Of two clients the second completes its handshake first; local clients come one by one. -/
theorem accepted_in_order_last_first :
    AllTcp (OldestFirst HandshakeEvent.taken) [.listen, fromClient 500 0 tcpFlagSyn, fromOther 700 0 tcpFlagSyn,
        fromOther 701 1 tcpFlagAck, fromClient 501 1 tcpFlagAck, .accept, .accept] freshOpening ∧
      AllLocal 1 (OldestFirst (Local.Call.taken 1))
        (Local.meeting ++ [.create 4, .connect 4 Local.serverAddress, .accept 1 (some 5)]) := by
  refine (accepted_in_order_iff_last_first _ ⟨rfl, rfl⟩ _ _ _).imp (fun same => (same ?_).mpr ?_) fun same => (same ?_).mpr ?_
  all_goals decide +kernel

/-- Two connections are ready, and the later one is accepted. -/
theorem accepted_out_of_order :
    ¬AllTcp (OldestFirst HandshakeEvent.taken) [.listen, fromClient 500 0 tcpFlagSyn, fromClient 501 1 tcpFlagAck,
        fromOther 700 0 tcpFlagSyn, fromOther 701 1 tcpFlagAck, .accept] freshOpening ∧
      ¬AllLocal 1 (OldestFirst (Local.Call.taken 1))
        (Local.meeting.take 5 ++ [.create 3, .connect 3 Local.serverAddress, .accept 1 (some 4)]) := by
  decide +kernel

end Sirius.Net
