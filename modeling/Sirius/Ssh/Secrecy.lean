import Sirius.Ssh.Server

/-! Which packets leave the server in the clear once its NEWKEYS is out. The switch to
encryption waits for the client's NEWKEYS, and the handlers for authentication and
channels answer in between as at any other time. -/
namespace Sirius.Ssh
open Support Server List

section
variable (crypto : Crypto)

/-- Any number of calls of `ssh_process_packet`, whatever they return. -/
def serve : Nat → Server → Server
  | 0, server => server
  | calls + 1, server => serve calls (server.step crypto)

/-- What is sent after the server's own NEWKEYS is sealed. -/
def SealedAfterNewkeys (log : List Transmission) : Prop :=
  log.Pairwise fun earlier later => earlier.IsNewkeys → later.Sealed crypto

/-- The server's NEWKEYS is out and the client's has not arrived. -/
def Server.InWindow (server : Server) : Prop :=
  (∃ x ∈ server.log, x.IsNewkeys) ∧ server.session.encrypted = false

def QuietStep (server : Server) : Prop :=
  ∀ msgType payload, (sshReceivePacket crypto server.session server.io).result = .ok (msgType, payload) →
    server.InWindow → elicitsReply server.session.state msgType payload = false

/-- The peer sends nothing that wants an answer before its own NEWKEYS. -/
def QuietWindow : Nat → Server → Prop
  | 0, _ => True
  | calls + 1, server => QuietStep crypto server ∧ QuietWindow calls (server.step crypto)

end

variable {crypto : Crypto} {server : Server}

def Server.Settled (server : Server) : Prop := (∃ x ∈ server.log, x.IsNewkeys) → server.session.Past

theorem sealedAfterNewkeys_append (log sent : List Transmission)
    (last : sent.Pairwise fun x _ => ¬ x.IsNewkeys) :
    SealedAfterNewkeys crypto (log ++ sent) ↔ SealedAfterNewkeys crypto log ∧
      ((∃ x ∈ log, x.IsNewkeys) → ∀ y ∈ sent, y.Sealed crypto) := by
  have own : SealedAfterNewkeys crypto sent := last.imp fun other newkeys => absurd newkeys other
  simp only [SealedAfterNewkeys, pairwise_append] at own ⊢
  constructor
  · rintro ⟨before, -, across⟩
    refine ⟨before, ?_⟩
    rintro ⟨x, member, newkeys⟩ y sending
    exact across x member y sending newkeys
  · rintro ⟨before, across⟩
    exact ⟨before, own, fun x member y sending newkeys => across ⟨x, member, newkeys⟩ y sending⟩

/-- One packet keeps the log sealed exactly when it is quiet. -/
theorem step_sealed (crypto : Crypto) (settled : server.Settled) : (server.step crypto).Settled ∧
      (SealedAfterNewkeys crypto (server.step crypto).log ↔
        SealedAfterNewkeys crypto server.log ∧ QuietStep crypto server) := by
  cases received : (sshReceivePacket crypto server.session server.io).result with
  | error code =>
    obtain ⟨state, -, -, history⟩ := step_failed received
    have log : (server.step crypto).log = server.log := by rw [log, history, log]
    constructor
    · simpa only [Settled, log, Session.Past, state] using settled
    · rw [log, QuietStep, received]
      simp
  | ok packet =>
    obtain ⟨msgType, payload⟩ := packet
    obtain ⟨session, -, history⟩ := step_received received
    obtain ⟨state, encrypted⟩ := sshReceivePacket_keeps crypto server.session server.io
    generalize sshReceivePacket crypto server.session server.io = incoming at session history state encrypted
    have effect := sshDispatch_handled crypto incoming.session incoming.io msgType payload
    have log : (server.step crypto).log =
        server.log ++ (sshDispatch crypto incoming.session incoming.io msgType payload).sent := by
      rw [log, history, flatMap_append, log]
      simp
    generalize sshDispatch crypto incoming.session incoming.io msgType payload = outcome at *
    have same : incoming.session.Past ↔ server.session.Past := by
      simp only [Session.Past, state]
    constructor
    · rw [Settled, log, session]
      rintro ⟨x, member, newkeys⟩
      rw [mem_append] at member
      cases member with
      | inl earlier => exact effect.past (same.mpr (settled ⟨x, earlier, newkeys⟩))
      | inr now => exact effect.newkeys x now newkeys
    · rw [log, sealedAfterNewkeys_append _ _ effect.last]
      apply and_congr_right
      intro _
      have sealing : (∀ y ∈ outcome.sent, y.Sealed crypto) ↔
          (server.session.encrypted = false → outcome.sent = []) := by
        cases mode : server.session.encrypted
        · have clear : ∀ y ∈ outcome.sent, ¬ y.Sealed crypto := by
            intro y member
            rw [effect.sealing y member, encrypted, mode]
            decide
          simp only [forall_const]
          constructor
          · intro all
            apply eq_nil_iff_forall_not_mem.mpr
            exact fun y member => clear y member (all y member)
          · intro none_sent y member
            rw [none_sent] at member
            cases member
        · simp only [Bool.true_eq_false, IsEmpty.forall_iff, iff_true]
          intro y member
          rw [effect.sealing y member, encrypted, mode]
      rw [sealing]
      constructor
      · intro silent kind bytes same_packet window
        rw [received] at same_packet
        cases same_packet
        have quiet := mt (effect.answered (same.mpr (settled window.1))).mpr (not_not.mpr (silent window.1 window.2))
        rw [state] at quiet
        exact Bool.not_eq_true _ ▸ quiet
      · intro quiet written clear
        by_contra sent
        have elicits := (effect.answered (same.mpr (settled written))).mp sent
        rw [state, quiet msgType payload received ⟨written, clear⟩] at elicits
        cases elicits

theorem serve_sealed (calls : Nat) (settled : server.Settled) :
    SealedAfterNewkeys crypto (serve crypto calls server).log ↔
      SealedAfterNewkeys crypto server.log ∧ QuietWindow crypto calls server := by
  induction calls generalizing server with
  | zero => simp only [serve, QuietWindow, and_true]
  | succ calls ih =>
    obtain ⟨later, kept⟩ := step_sealed crypto settled
    rw [serve, ih later, kept, QuietWindow, and_assoc]

theorem accept_settled (crypto : Crypto) (io : Io) : (Server.accept crypto io).Settled := by
  rintro ⟨x, member, -⟩
  cases member

/-- After the server's NEWKEYS everything is sealed exactly in the runs in which the
peer asks for no answer between the two NEWKEYS. -/
theorem sealed_after_newkeys (crypto : Crypto) (io : Io) (calls : Nat) :
    SealedAfterNewkeys crypto (serve crypto calls (accept crypto io)).log ↔
      QuietWindow crypto calls (accept crypto io) := by
  rw [serve_sealed calls (accept_settled crypto io)]
  constructor
  · exact fun both => both.2
  · exact fun quiet => ⟨List.Pairwise.nil, quiet⟩

def earlyRequest : Io where
  reads := clientBannerReads ++ clearPacket sshMsgKexinit [] ++
    clearPacket sshMsgKexdhInit (lengthPrefixed (replicate 32 0)) ++
    clearPacket sshMsgChannelRequest (be32Bytes 0 ++ lengthPrefixed [] ++ [1])
  writes := [23, 160, 192, 16, 16]
  random _ := 0

/-- A channel request that arrives between the two NEWKEYS is answered in the clear. -/
theorem early_request_answered_in_clear :
    ¬ ∀ (crypto : Crypto) (io : Io) (calls : Nat), (accept crypto io).ret = 0 →
      SealedAfterNewkeys crypto (serve crypto calls (accept crypto io)).log := by
  intro always
  have log := always toyCrypto earlyRequest 3 (by decide +kernel)
  rw [serve_sealed 3 (accept_settled _ _)] at log
  obtain ⟨-, -, -, quiet, -⟩ := log
  have written : ((serve toyCrypto 2 (accept toyCrypto earlyRequest)).log.any
      (fun x => x.msgType == sshMsgNewkeys && x.complete)) = true := by decide +kernel
  rw [any_eq_true] at written
  obtain ⟨x, member, newkeys⟩ := written
  rw [Bool.and_eq_true, beq_iff_eq] at newkeys
  have silent := quiet sshMsgChannelRequest (be32Bytes 0 ++ lengthPrefixed [] ++ [1]) (by decide +kernel)
    ⟨⟨x, member, newkeys⟩, by decide +kernel⟩
  revert silent
  decide +kernel

end Sirius.Ssh
