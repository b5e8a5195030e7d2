import Sirius.Net.Handshake

/-! `af_inet_connect` on a stream socket. It compares the state with numbers written out, and they are
not those of `tcp_state_t`: it sleeps while the connection is ESTABLISHED, and takes SYN_SENT for
success. Segments arrive while the SYN is being sent, before the state is looked at, and during
each sleep. -/
namespace Sirius.Net
open List

/-- The numbers of `tcp_state_t`. -/
def TcpState.code : TcpState → Nat
  | .closed => 0
  | .synSent => 1
  | .listen => 2
  | .synRecv => 3
  | .established => 4
  | .finWait1 => 5
  | .finWait2 => 6
  | .closeWait => 7
  | .closing => 8
  | .lastAck => 9
  | .timeWait => 10

structure Arrival where
  seg : TcpSegment
  srcIp : BitVec 32
  alloc : Nat → Bool

def Arrival.answers (arrival : Arrival) : Bool := arrival.seg.has tcpFlagSyn && arrival.seg.has tcpFlagAck

def arrive (sock : Socket) (arrivals : List Arrival) : Socket :=
  arrivals.foldl (fun sock arrival => (tcpInput sock arrival.seg arrival.srcIp arrival.alloc).sock) sock

/-- One call: `bound` says that the socket has a local address, `output` is what `ip_output` returns,
and `naps` holds what arrives before each time the caller is woken. -/
structure ConnectCall where
  addrlen : Nat
  sinFamily : BitVec 16
  remoteIp : BitVec 32
  remotePort : BitVec 16
  alloc : Bool
  bound : Bool
  early : List Arrival
  output : Int
  late : List Arrival
  naps : List (List Arrival)

/-- What the call returns with the socket in this state, behind its loop. -/
def connectVerdict (sock : Socket) : Int := if sock.state.code ≠ 1 then -3 else 0

/-- The loop; `none` is a caller that is still asleep. -/
def connectWait (sock : Socket) : List (List Arrival) → Option (Int × Socket)
  | [] => if sock.state.code = 4 then none else some (connectVerdict sock, sock)
  | nap :: rest => if sock.state.code = 4 then connectWait (arrive sock nap) rest else some (connectVerdict sock, sock)

def afInetConnect (sock : Socket) (call : ConnectCall) : Option (Int × Socket) :=
  if call.addrlen < sizeofSockaddrIn then some (-1, sock)
  else if call.sinFamily ≠ afInet then some (-2, sock)
  else
    let sock := { sock with remoteIp := call.remoteIp, remotePort := call.remotePort }
    if call.alloc = false then some (-2, sock)
    else if call.bound = false then some (-4, sock)
    else
      let sock := arrive (tcpConnectHandshake sock call.remoteIp call.remotePort) call.early
      if call.output < 0 ∧ call.output ≠ -11 then some (-3, { sock with state := .closed })
      else connectWait (arrive sock call.late) call.naps

theorem tcpInput_established (state : sock.state = .established) (seg : TcpSegment) (srcIp : BitVec 32)
    (alloc : Nat → Bool) : (tcpInput sock seg srcIp alloc).sock.state = .established := by
  rw [tcpInput, state, tcpInputEstablished]
  dsimp only
  repeat' split
  all_goals exact state

theorem arrive_established (state : sock.state = .established) (arrivals : List Arrival) :
    (arrive sock arrivals).state = .established := by
  induction arrivals generalizing sock with
  | nil => exact state
  | cons arrival rest ih => exact ih (tcpInput_established state _ _ _)

theorem tcpInputSynSent_state (sock : Socket) (arrival : Arrival) :
    (tcpInputSynSent sock arrival.seg arrival.alloc).sock.state = if arrival.answers then .established else sock.state := by
  rw [tcpInputSynSent, Arrival.answers]
  split <;> rfl

/-- A socket that has sent its SYN is opened by the first SYN-ACK and by nothing else. -/
theorem arrive_synSent (state : sock.state = .synSent) (arrivals : List Arrival) :
    (arrive sock arrivals).state = if arrivals.any Arrival.answers then .established else .synSent := by
  induction arrivals generalizing sock with
  | nil => exact state
  | cons arrival rest ih =>
    have result : tcpInput sock arrival.seg arrival.srcIp arrival.alloc = tcpInputSynSent sock arrival.seg arrival.alloc := by
      rw [tcpInput, state]
    rw [arrive, foldl_cons, result, any_cons]
    by_cases answer : arrival.answers = true
    · rw [answer, Bool.true_or, if_pos rfl]
      refine arrive_established ?_ rest
      rw [tcpInputSynSent_state, if_pos answer]
    · rw [Bool.eq_false_iff.mpr answer, Bool.false_or]
      refine ih ?_
      rw [tcpInputSynSent_state, if_neg answer, state]

/-- Once the connection is there, the caller sleeps for good. -/
theorem connectWait_established (state : sock.state = .established) (naps : List (List Arrival)) :
    connectWait sock naps = none := by
  induction naps generalizing sock with
  | nil => exact if_pos (by rw [state]; rfl)
  | cons nap rest ih =>
    rw [connectWait, if_pos (by rw [state]; rfl)]
    exact ih (arrive_established state nap)

theorem connectWait_synSent (state : sock.state = .synSent) (naps : List (List Arrival)) :
    connectWait sock naps = some (0, sock) := by
  cases naps <;> simp [connectWait, connectVerdict, state, TcpState.code]

/-- Success is only reported of an established connection, and nothing while the handshake is going on. -/
def Truthful (result : Int × Socket) : Prop := (result.1 = 0 → result.2.state = .established) ∧ result.2.state ≠ .synSent

/-- The call gets as far as sending a SYN. -/
def ConnectCall.Starts (call : ConnectCall) : Prop :=
  sizeofSockaddrIn ≤ call.addrlen ∧ call.sinFamily = afInet ∧ call.alloc = true ∧ call.bound = true

instance (call : ConnectCall) : Decidable call.Starts := inferInstanceAs (Decidable (_ ∧ _))

variable (sock : Socket) (call : ConnectCall)

/-- The SYN cannot be sent, or its answer is there before the state is looked at; without a SYN, no
handshake is going on. -/
def ConnectCall.Settled (sock : Socket) : Prop :=
  if call.Starts then (call.output < 0 ∧ call.output ≠ -11) ∨ ∃ arrival ∈ call.early ++ call.late, arrival.answers = true
  else sock.state ≠ .synSent

/-- A call that sends no SYN leaves the state alone and returns an error. -/
theorem afInetConnect_refused (refused : ¬ call.Starts) :
    ∃ result, afInetConnect sock call = some result ∧ result.1 ≠ 0 ∧ result.2.state = sock.state := by
  rw [afInetConnect]
  by_cases short : call.addrlen < sizeofSockaddrIn
  · exact ⟨(-1, sock), if_pos short, by simp, rfl⟩
  rw [if_neg short]
  by_cases family : call.sinFamily = afInet
  · rw [if_neg (not_not.mpr family)]
    cases alloc : call.alloc with
    | false => exact ⟨(-2, { sock with remoteIp := call.remoteIp, remotePort := call.remotePort }), rfl, by simp, rfl⟩
    | true =>
      cases bound : call.bound with
      | false => exact ⟨(-4, { sock with remoteIp := call.remoteIp, remotePort := call.remotePort }), rfl, by simp, rfl⟩
      | true => exact absurd ⟨Nat.not_lt.mp short, family, alloc, bound⟩ refused
  · exact ⟨(-2, sock), if_pos family, by simp, rfl⟩

/-- A call that sends its SYN fails if the SYN does, and otherwise goes on with all that has arrived until then. -/
theorem afInetConnect_started (starts : call.Starts) : ∃ waiting : Socket, waiting.state = .synSent ∧
    afInetConnect sock call = if call.output < 0 ∧ call.output ≠ -11 then
        some (-3, { arrive waiting call.early with state := .closed })
      else connectWait (arrive waiting (call.early ++ call.late)) call.naps := by
  obtain ⟨long, family, alloc, bound⟩ := starts
  refine ⟨tcpConnectHandshake { sock with remoteIp := call.remoteIp, remotePort := call.remotePort }
    call.remoteIp call.remotePort, rfl, ?_⟩
  rw [afInetConnect, if_neg (Nat.not_lt.mpr long), if_neg (not_not.mpr family), if_neg (by simp [alloc]),
    if_neg (by simp [bound])]
  simp only [arrive, foldl_append]

/-- `connect` is truthful exactly when it does not come to look at a handshake that is going on. -/
theorem connect_truthful_iff :
    (∀ result, afInetConnect sock call = some result → Truthful result) ↔ call.Settled sock := by
  rw [ConnectCall.Settled]
  by_cases starts : call.Starts
  · rw [if_pos starts]
    obtain ⟨waiting, sent, call_eq⟩ := afInetConnect_started sock call starts
    have state := arrive_synSent sent (call.early ++ call.late)
    rw [call_eq]
    by_cases failed : call.output < 0 ∧ call.output ≠ -11
    · refine iff_of_true (fun result same => ?_) (.inl failed)
      rw [if_pos failed] at same
      cases same
      exact ⟨nofun, nofun⟩
    rw [if_neg failed, or_iff_right failed, ← any_eq_true]
    split at state
    next answered =>
      rw [connectWait_established state]
      exact iff_of_true nofun answered
    next silent =>
      rw [connectWait_synSent state]
      exact iff_of_false (fun truthful => (truthful _ rfl).2 state) silent
  · rw [if_neg starts]
    obtain ⟨result, returned, error, state⟩ := afInetConnect_refused sock call starts
    constructor
    · intro truthful
      exact state ▸ (truthful result returned).2
    · intro settled other same
      cases returned.symm.trans same
      exact ⟨fun zero => absurd zero error, state ▸ settled⟩

/-- The SYN is sent and nothing has come back: 0 at once. -/
theorem connect_succeeds_before_the_answer :
    ∃ after, afInetConnect closedSocket ⟨16, 2, 7, 80, true, true, [], 0, [], []⟩ = some (0, after) ∧ after.state = .synSent :=
  ⟨_, rfl, rfl⟩

end Sirius.Net
