import Sirius.Ssh.Server

/-! When a session of `sshd` reaches the shell. The request for it is honoured in any
state, so that encryption and a valid password come first only if the peer lets them. -/
namespace Sirius.Ssh
open Support List

def passwordRequest (username password : List UInt8) : List UInt8 :=
  lengthPrefixed username ++ (lengthPrefixed sshConnection ++ (lengthPrefixed passwordMethod ++
    0 :: lengthPrefixed password))

theorem passwordVerdict_granted (granted : passwordVerdict known rest = .ok true) :
    known = true ∧ rest = 0 :: lengthPrefixed validPassword := by
  unfold passwordVerdict at granted
  split_ifs at granted with present flag room size
  · cases granted
  rw [not_not] at flag size
  simp only [Except.ok.injEq, Bool.and_eq_true, decide_eq_true_eq] at granted
  obtain ⟨password, valid⟩ := granted
  cases rest with
  | nil => simp at present
  | cons first later =>
    rw [getD_cons_zero] at flag
    simp only [length_cons, drop_succ_cons, drop_zero] at size room password
    have length : later.length = 8 := by
      have := congrArg length password
      simp only [length_drop, validPassword, ascii_length, length_cons, length_nil] at this
      omega
    have encoded := @lengthPrefixed_of_be32 validPassword later (by omega)
      (by rw [size, length]; rfl) (by rw [password]; rfl)
    refine ⟨valid, ?_⟩
    rw [flag, encoded, drop_of_length_le (by rw [length]; decide), append_nil]

theorem methodVerdict_granted (granted : methodVerdict known rest = .ok true) :
    known = true ∧ rest = lengthPrefixed passwordMethod ++ 0 :: lengthPrefixed validPassword := by
  unfold methodVerdict at granted
  split_ifs at granted with room fits publickey method
  · cases granted
  simp only [not_or, not_not] at method
  obtain ⟨valid, tail⟩ := passwordVerdict_granted granted
  have encoded := @lengthPrefixed_of_be32 passwordMethod rest (by omega) method.1 method.2
  refine ⟨valid, ?_⟩
  rw [← tail]
  exact encoded

theorem serviceVerdict_granted (granted : serviceVerdict known rest = .ok true) :
    known = true ∧ rest = lengthPrefixed sshConnection ++ (lengthPrefixed passwordMethod ++
      0 :: lengthPrefixed validPassword) := by
  unfold serviceVerdict at granted
  split_ifs at granted with room fits service
  simp only [not_or, not_not] at service
  obtain ⟨valid, tail⟩ := methodVerdict_granted granted
  have encoded := @lengthPrefixed_of_be32 sshConnection rest (by omega) service.1 service.2
  refine ⟨valid, ?_⟩
  rw [← tail]
  exact encoded

/-- Exactly one payload is granted. -/
theorem userauthVerdict_granted :
    userauthVerdict payload = .ok true ↔ payload = passwordRequest validUsername validPassword := by
  constructor
  · intro granted
    unfold userauthVerdict at granted
    split_ifs at granted with room fits
    obtain ⟨known, tail⟩ := serviceVerdict_granted granted
    rw [decide_eq_true_eq] at known
    have encoded := @lengthPrefixed_of_be32 validUsername payload (by omega) known.1 known.2
    rw [known.1] at tail
    rw [passwordRequest, ← tail]
    exact encoded
  · rintro rfl
    decide

section
variable (crypto : Crypto) (session : Session) (io : Io)
include crypto session io

/-- A request for a shell is honoured as it is, in whatever state it arrives. -/
theorem sshDispatch_shell (request : shellRequest msgType payload = true) : msgType = sshMsgChannelRequest ∧
    (sshDispatch crypto session io msgType payload).session.state = .connectedShell ∧
    (sshDispatch crypto session io msgType payload).session.encrypted = session.encrypted := by
  rw [shellRequest, Bool.and_eq_true, decide_eq_true_eq] at request
  obtain ⟨rfl, shell⟩ := request
  have reached : sshDispatch crypto session io sshMsgChannelRequest payload =
      sshProcessChannelRefresh crypto session io payload := rfl
  rw [reached, sshProcessChannelRefresh]
  cases parsed : parseChannelRequest payload with
  | error code => simp [parsed] at shell
  | ok request =>
    simp only [parsed, decide_eq_true_eq] at shell
    simp only [shell, if_true]
    refine ⟨trivial, ?_⟩
    split
    · obtain ⟨x, sending, -⟩ := sendReply_sending crypto { session with state := .connectedShell } io
        sshMsgChannelSuccess (-5) (show (be32Bytes request.recipientChannel).length ≤ 1024 by simp)
        (by decide)
      exact ⟨sending.state, sending.encrypted⟩
    · exact ⟨rfl, rfl⟩

/-- A granted request that does not end the session has been answered with success. -/
theorem sshDispatch_granted (granted : userauthVerdict payload = .ok true)
    (completed : (sshDispatch crypto session io sshMsgUserauthRequest payload).ret = 0) :
    ∃ x ∈ (sshDispatch crypto session io sshMsgUserauthRequest payload).sent,
      x.msgType = sshMsgUserauthSuccess ∧ x.complete = true := by
  have reached : sshDispatch crypto session io sshMsgUserauthRequest payload =
      sendReply crypto { session with state := .authStage } io sshMsgUserauthSuccess [] (-13) := by
    have handler : sshDispatch crypto session io sshMsgUserauthRequest payload =
        sshProcessUserauthRequest crypto session io payload := rfl
    rw [handler, sshProcessUserauthRequest, granted]
  rw [reached] at completed ⊢
  obtain ⟨x, sending, complete⟩ := sendReply_sending crypto { session with state := .authStage } io
    sshMsgUserauthSuccess (-13) (show ([] : List UInt8).length ≤ 1024 by decide) (by decide)
  refine ⟨x, ?_, sending.kind, complete.mp completed⟩
  rw [sending.sent]
  exact mem_singleton_self x

end

section
variable (crypto : Crypto)

/-- A valid password request, answered with USERAUTH_SUCCESS. -/
def Authenticated (history : List Exchange) : Prop :=
  ∃ exchange ∈ history, exchange.msgType = sshMsgUserauthRequest ∧
    exchange.payload = passwordRequest validUsername validPassword ∧
    ∃ x ∈ exchange.sent, x.msgType = sshMsgUserauthSuccess ∧ x.complete = true

def Server.ShellAuthenticated (server : Server) : Prop :=
  server.session.state = .connectedShell → server.session.encrypted = true ∧ Authenticated server.history

/-- Some request received so far is one that `ssh_process_userauth_request` grants. -/
def Granted (history : List Exchange) : Prop :=
  ∃ exchange ∈ history, exchange.msgType = sshMsgUserauthRequest ∧ userauthVerdict exchange.payload = .ok true

def GuardedStep (server : Server) : Prop :=
  ∀ msgType payload, (sshReceivePacket crypto server.session server.io).result = .ok (msgType, payload) →
    shellRequest msgType payload = true →
    server.session.encrypted = true ∧ Granted server.history

/-- In every round of the loop a shell is asked for only under encryption and behind a
granted request. -/
def GuardedLoop : Nat → Server → Prop
  | 0, _ => True
  | calls + 1, server =>
    server.session.state ≠ .disconnected → GuardedStep crypto server ∧
      ((server.step crypto).ret = 0 → (server.step crypto).session.state ≠ .connectedShell →
        GuardedLoop calls (server.step crypto))

end

instance (history : List Exchange) : Decidable (Granted history) :=
  inferInstanceAs (Decidable (∃ exchange ∈ history, _))

instance (crypto : Crypto) (server : Server) : Decidable (GuardedStep crypto server) :=
  match received : (sshReceivePacket crypto server.session server.io).result with
  | .error _ => .isTrue (by simp [GuardedStep, received])
  | .ok (msgType, payload) =>
    decidable_of_iff (shellRequest msgType payload = true →
        server.session.encrypted = true ∧ Granted server.history) (by
      simp only [GuardedStep, received, Except.ok.injEq, Prod.mk.injEq, and_imp]
      constructor
      · rintro guarded _ _ rfl rfl
        exact guarded
      · exact fun guarded => guarded msgType payload rfl rfl)

def GuardedLoop.decide (crypto : Crypto) :
    (calls : Nat) → (server : Server) → Decidable (GuardedLoop crypto calls server)
  | 0, _ => .isTrue trivial
  | calls + 1, server =>
    have := GuardedLoop.decide crypto calls (server.step crypto)
    inferInstanceAs (Decidable (_ → _ ∧ (_ → _ → _)))

instance : Decidable (GuardedLoop crypto calls server) := GuardedLoop.decide crypto calls server

/-- The loop's invariant at the beginning of a round. -/
structure Server.Waiting (server : Server) : Prop where
  state : server.session.state ≠ .connectedShell
  answered : Granted server.history → Authenticated server.history

theorem Authenticated.granted (authenticated : Authenticated history) : Granted history := by
  obtain ⟨exchange, member, kind, valid, -⟩ := authenticated
  exact ⟨exchange, member, kind, userauthVerdict_granted.mpr valid⟩

theorem authenticated_append (authenticated : Authenticated history) (exchange : Exchange) :
    Authenticated (history ++ [exchange]) := by
  obtain ⟨earlier, member, facts⟩ := authenticated
  exact ⟨earlier, mem_append_left _ member, facts⟩

theorem Granted.of_append (granted : Granted (history ++ [exchange])) :
    Granted history ∨ (exchange.msgType = sshMsgUserauthRequest ∧
      userauthVerdict exchange.payload = .ok true) := by
  obtain ⟨e, member, facts⟩ := granted
  rw [mem_append, mem_singleton] at member
  cases member with
  | inl earlier => exact .inl ⟨e, earlier, facts⟩
  | inr now => exact .inr (now ▸ facts)

variable {crypto : Crypto} {server : Server}

/-- A round that asks for a shell ends the loop, properly exactly if it is guarded. -/
theorem step_shell (waiting : server.Waiting)
    (received : (sshReceivePacket crypto server.session server.io).result = .ok (msgType, payload))
    (request : shellRequest msgType payload = true) :
    (server.step crypto).session.state = .connectedShell ∧
      ((server.step crypto).ShellAuthenticated ↔ GuardedStep crypto server) := by
  obtain ⟨session, -, history⟩ := step_received received
  obtain ⟨-, encrypted⟩ := sshReceivePacket_keeps crypto server.session server.io
  obtain ⟨kind, shell, same⟩ := sshDispatch_shell crypto
    (sshReceivePacket crypto server.session server.io).session
    (sshReceivePacket crypto server.session server.io).io request
  rw [← session] at shell same
  refine ⟨shell, ?_⟩
  rw [Server.ShellAuthenticated, same, encrypted, history]
  constructor
  · intro proper kind' payload' again _
    obtain ⟨mode, authenticated⟩ := proper shell
    refine ⟨mode, ?_⟩
    cases authenticated.granted.of_append with
    | inl granted => exact granted
    | inr now => exact absurd (kind.symm.trans now.1) (by decide)
  · intro guarded _
    obtain ⟨mode, granted⟩ := guarded msgType payload received request
    exact ⟨mode, authenticated_append (waiting.answered granted) _⟩

/-- A round of any other kind that does not end the loop keeps the invariant. -/
theorem step_waiting (waiting : server.Waiting) (other : ¬ ∃ msgType payload,
      (sshReceivePacket crypto server.session server.io).result = .ok (msgType, payload) ∧ shellRequest msgType payload = true) :
    (server.step crypto).session.state ≠ .connectedShell ∧
      ((server.step crypto).ret = 0 → (server.step crypto).Waiting) := by
  obtain ⟨state, -⟩ := sshReceivePacket_keeps crypto server.session server.io
  cases received : (sshReceivePacket crypto server.session server.io).result with
  | error code =>
    obtain ⟨same, -, -, history⟩ := step_failed received
    have kept := same ▸ waiting.state
    exact ⟨kept, fun _ => ⟨kept, history ▸ waiting.answered⟩⟩
  | ok packet =>
    obtain ⟨msgType, payload⟩ := packet
    obtain ⟨session, ret, history⟩ := step_received received
    have kept : (server.step crypto).session.state ≠ .connectedShell := by
      rw [session]
      exact (sshDispatch_handled crypto _ _ msgType payload).leads.2 (fun request => other ⟨msgType, payload, received, request⟩)
        (state ▸ waiting.state)
    refine ⟨kept, fun completed => ⟨kept, ?_⟩⟩
    rw [history]
    intro granted
    cases granted.of_append with
    | inl earlier => exact authenticated_append (waiting.answered earlier) _
    | inr now =>
      obtain ⟨rfl, verdict⟩ := now
      rw [ret] at completed
      exact ⟨_, mem_append_right _ (mem_singleton_self _), rfl,
        userauthVerdict_granted.mp verdict, sshDispatch_granted crypto _ _ verdict completed⟩

theorem sshdLoop_guarded (calls : Nat) (waiting : server.Waiting) :
    (sshdLoop crypto calls server).ShellAuthenticated ↔ GuardedLoop crypto calls server := by
  induction calls generalizing server with
  | zero =>
    simp only [sshdLoop, GuardedLoop, iff_true]
    exact fun shell => absurd shell waiting.state
  | succ calls ih =>
    simp only [sshdLoop, GuardedLoop]
    by_cases stopped : server.session.state = .disconnected
    · simp only [stopped, if_true, ne_eq, not_true_eq_false, IsEmpty.forall_iff, iff_true]
      exact fun shell => absurd shell waiting.state
    rw [if_neg stopped]
    simp only [ne_eq, stopped, not_false_eq_true, forall_const]
    by_cases asked : ∃ msgType payload,
        (sshReceivePacket crypto server.session server.io).result = .ok (msgType, payload) ∧
        shellRequest msgType payload = true
    · obtain ⟨msgType, payload, received, request⟩ := asked
      obtain ⟨shell, guarded⟩ := step_shell waiting received request
      rw [if_pos shell, ite_self, guarded]
      simp only [shell, not_true_eq_false, IsEmpty.forall_iff, imp_true_iff, and_true]
    · obtain ⟨kept, later⟩ := step_waiting waiting asked
      have guarded : GuardedStep crypto server := fun msgType payload received request =>
        absurd ⟨msgType, payload, received, request⟩ asked
      by_cases completed : (server.step crypto).ret = 0
      · simp only [completed, kept, not_true_eq_false, if_false, ih (later completed), guarded,
          true_and, forall_const, not_false_eq_true]
      · simp only [completed, not_false_eq_true, if_true, guarded, IsEmpty.forall_iff, and_true, iff_true]
        exact fun shell => absurd shell kept

/-- A session of `sshd` is in the shell only under encryption and after a valid password
exactly in the runs in which the peer does not ask for the shell before. -/
theorem shell_only_after_authentication (crypto : Crypto) (io : Io) (calls : Nat)
    (accepted : (Server.accept crypto io).ret = 0) :
    (sshdLoop crypto calls (Server.accept crypto io)).ShellAuthenticated ↔
      GuardedLoop crypto calls (Server.accept crypto io) := by
  apply sshdLoop_guarded
  constructor
  · have ready : (Server.accept crypto io).session.state = .kexInit := (sshDoBannerExchange_ready _ _ accepted).1
    rw [ready]
    decide
  · rintro ⟨exchange, member, -⟩
    cases member

/-- A packet under the keys of `toyCrypto`: the text itself, and a MAC of zeros. -/
def toySealedPacket (msgType : UInt8) (payload : List UInt8) : List (List UInt8) :=
  let padding := paddingLen 16 payload.length
  [be32Bytes (payload.length + padding + 2),
    [UInt8.ofNat padding, msgType] ++ payload ++ replicate padding 0, replicate 32 0]

def login : Io where
  reads := clientBannerReads ++ clearPacket sshMsgKexinit [] ++
    clearPacket sshMsgKexdhInit (lengthPrefixed (replicate 32 0)) ++ clearPacket sshMsgNewkeys [] ++
    toySealedPacket sshMsgUserauthRequest (passwordRequest validUsername validPassword) ++
    toySealedPacket sshMsgChannelRequest (be32Bytes 0 ++ lengthPrefixed shellType ++ [0])
  writes := [23, 160, 192, 16, 48]
  random _ := 0

theorem shell_only_after_authentication_login :
    (sshdLoop toyCrypto 5 (Server.accept toyCrypto login)).session.state = .connectedShell ∧
      (sshdLoop toyCrypto 5 (Server.accept toyCrypto login)).ShellAuthenticated :=
  ⟨by decide +kernel,
    (shell_only_after_authentication toyCrypto login 5 (by decide +kernel)).mpr (by decide +kernel)⟩

def intrusion : Io where
  reads := clientBannerReads ++
    clearPacket sshMsgChannelRequest (be32Bytes 0 ++ lengthPrefixed shellType ++ [0])
  writes := [23]
  random _ := 0

/-- The first packet behind the banner opens the shell. -/
theorem shell_without_authentication :
    ¬ ∀ (crypto : Crypto) (io : Io) (calls : Nat), (Server.accept crypto io).ret = 0 →
      (sshdLoop crypto calls (Server.accept crypto io)).ShellAuthenticated := by
  intro always
  have proper := always toyCrypto intrusion 1 (by decide +kernel)
  have reached := (proper (by decide +kernel)).1
  cases reached

end Sirius.Ssh
