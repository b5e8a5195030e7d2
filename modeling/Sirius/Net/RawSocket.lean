import Sirius.Net.UdpLaw
import Sirius.Support.LinkedList

/-! `packet_input` of `pf_packet.c`, which gives a frame to the raw sockets. The list of bound sockets is linked by
`global_next`; the loop follows `next`, which links the queue of a listening socket. -/
namespace Sirius.Net.Raw
open Support Function List Ring

inductive SocketFamily
  | unix | inet | packet
deriving DecidableEq

structure Socket where
  family : SocketFamily
  /-- Without a buffer there is no ring. -/
  rx : Option (Ring UInt8 socketBufferSize)
  next : Option Nat
  globalNext : Option Nat

abbrev Sockets := Nat → Socket

/-- What lies in the ring: the length and the frame. -/
def stored (frame : List UInt8) : List UInt8 := leBytes 4 frame.length ++ frame

def Socket.receive (frame : List UInt8) (sock : Socket) : Socket :=
  match sock.family, sock.rx with
  | .packet, some rx => if 4 + frame.length ≤ rxFree rx then { sock with rx := rx.putAll (stored frame) } else sock
  | _, _ => sock

/-- The loop; without a result it has not come to the end in so many rounds. -/
def inputLoop (frame : List UInt8) : Nat → Option Nat → Sockets → Option Sockets
  | _, none, socks => some socks
  | 0, some _, _ => none
  | rounds + 1, some curr, socks =>
    inputLoop frame rounds (socks curr).next (update socks curr ((socks curr).receive frame))

def packetInput (head : Option Nat) (frame : List UInt8) (rounds : Nat) (socks : Sockets) : Option Sockets :=
  if frame.length = 0 ∨ frame.length > 1514 then some socks else inputLoop frame rounds head socks

section
variable {frame : List UInt8} {socks after : Sockets} {head : Option Nat} {visited : List Nat}

/-- A raw socket with room for the frame and its length. -/
def Socket.Takes (sock : Socket) (frame : List UInt8) : Prop :=
  sock.family = .packet ∧ ∃ rx ∈ sock.rx, 4 + frame.length ≤ rx.free

/-- The frame has gone in behind what was there. -/
def Socket.Got (before after : Socket) (frame : List UInt8) : Prop :=
  ∃ old ∈ before.rx, ∃ new, after = { before with rx := some new } ∧ new.contents = old.contents ++ stored frame

/-- The raw sockets in the list get the frame, and nobody else does. -/
def SeesFrame (head : Option Nat) (frame : List UInt8) (socks : Sockets) : Prop :=
  ∃ bound, Chain (fun a => (socks a).globalNext) head bound ∧ ∃ rounds after,
    packetInput head frame rounds socks = some after ∧ ∀ a,
    (a ∈ bound ∧ (socks a).Takes frame → (socks a).Got (after a) frame) ∧
      (¬(a ∈ bound ∧ (socks a).Takes frame) → after a = socks a)

/-- The way along `next` comes to an end and passes the same takers. -/
def NextLinks (bound : List Nat) (head : Option Nat) (frame : List UInt8) (socks : Sockets) : Prop :=
  ∃ visited, Chain (fun a => (socks a).next) head visited ∧ ∀ a, (socks a).Takes frame → (a ∈ visited ↔ a ∈ bound)

theorem Socket.receive_of_takes {sock : Socket} (takes : sock.Takes frame) : sock.Got (sock.receive frame) frame := by
  obtain ⟨family, next, globalNext⟩ := sock
  obtain ⟨rfl, rx, rfl, room⟩ := takes
  refine ⟨rx, rfl, rx.putAll (stored frame), ?_, putAll_contents ?_⟩
  · simp only [receive, rxFree_eq, if_pos room]
  · have := rx.used_lt
    simp only [free, stored, length_append, leBytes_length] at room ⊢
    omega

theorem Socket.receive_of_not {sock : Socket} (no : ¬sock.Takes frame) : sock.receive frame = sock := by
  unfold receive
  split
  next rx packet given =>
    rw [if_neg]
    rw [rxFree_eq]
    exact fun room => no ⟨packet, rx, given, room⟩
  next => rfl

theorem Socket.Got.ne {sock : Socket} (got : sock.Got sock' frame) : sock' ≠ sock := by
  rintro rfl
  obtain ⟨old, given, new, same, contents⟩ := got
  rw [Option.mem_def, same] at given
  cases given
  have longer := congrArg length contents
  simp only [stored, length_append, leBytes_length] at longer
  omega

theorem next_received (socks : Sockets) (curr : Nat) :
    (fun a => (update socks curr ((socks curr).receive frame) a).next) = fun a => (socks a).next := by
  have same : ((socks curr).receive frame).next = (socks curr).next := by
    unfold Socket.receive
    split
    · split <;> rfl
    · rfl
  funext a
  rw [update_apply]
  split
  next here => rw [same, here]
  next => rfl

/-- A loop that has ended has given the frame to the sockets on its way. -/
theorem inputLoop_spec (done : inputLoop frame rounds head socks = some after) :
    ∃ visited, Chain (fun a => (socks a).next) head visited ∧
      ∀ a, after a = if a ∈ visited then (socks a).receive frame else socks a := by
  fun_induction inputLoop frame rounds head socks with
  | case1 =>
    cases done
    exact ⟨[], rfl, fun _ => rfl⟩
  | case2 => cases done
  | case3 rounds curr socks ih =>
    obtain ⟨visited, chain, result⟩ := ih done
    rw [next_received] at chain
    have whole : Chain (fun a => (socks a).next) (some curr) (curr :: visited) := ⟨rfl, chain⟩
    refine ⟨_, whole, fun a => ?_⟩
    rw [result]
    by_cases here : a = curr
    · rw [here, if_neg (nodup_cons.mp whole.nodup).1, update_self, if_pos mem_cons_self]
    · simp only [update_of_ne here, mem_cons, here, false_or]

theorem inputLoop_ends (frame : List UInt8) (chain : Chain (fun a => (socks a).next) head visited) :
    ∃ after, inputLoop frame visited.length head socks = some after := by
  induction visited generalizing head socks with
  | nil =>
    obtain rfl : head = none := chain
    exact ⟨socks, rfl⟩
  | cons curr rest ih =>
    obtain ⟨rfl, chain⟩ := chain
    exact ih (by rwa [next_received])

/-- Every raw socket with room gets the frame exactly when `next` leads to the same ones as `global_next`. -/
theorem raw_sockets_see_frame_iff (bound : List Nat) (head : Option Nat) (frame : List UInt8) (socks : Sockets)
    (list : Chain (fun a => (socks a).globalNext) head bound) (nonempty : frame ≠ []) (short : frame.length ≤ 1514) :
    SeesFrame head frame socks ↔ NextLinks bound head frame socks := by
  have checks : ¬(frame.length = 0 ∨ frame.length > 1514) := by
    rw [length_eq_zero_iff]
    exact not_or.mpr ⟨nonempty, not_lt.mpr short⟩
  simp only [SeesFrame, packetInput, if_neg checks]
  constructor
  · rintro ⟨_, again, rounds, after, done, sees⟩
    obtain rfl := list.unique again
    obtain ⟨visited, chain, result⟩ := inputLoop_spec done
    refine ⟨visited, chain, fun a takes => ?_⟩
    obtain ⟨gets, keeps⟩ := sees a
    rw [result] at gets keeps
    constructor
    · intro passed
      rw [if_pos passed] at keeps
      by_contra other
      exact (Socket.receive_of_takes takes).ne (keeps fun both => other both.1)
    · intro member
      by_contra missed
      rw [if_neg missed] at gets
      exact (gets ⟨member, takes⟩).ne rfl
  · rintro ⟨visited, chain, same⟩
    obtain ⟨after, done⟩ := inputLoop_ends frame chain
    refine ⟨bound, list, _, after, done, fun a => ?_⟩
    obtain ⟨others, again, result⟩ := inputLoop_spec done
    obtain rfl := chain.unique again
    rw [result]
    refine ⟨fun ⟨member, takes⟩ => ?_, fun no => ?_⟩
    · rw [if_pos ((same a takes).mpr member)]
      exact Socket.receive_of_takes takes
    · split
      next passed => exact Socket.receive_of_not fun takes => no ⟨(same a takes).mp passed, takes⟩
      next => rfl

end

/-- Two raw sockets, the second of which `next` leads to as well. -/
def linkedRaw (a : Nat) : Socket := ⟨.packet, some emptyRing, if a = 1 then some 2 else none, if a = 1 then some 2 else none⟩

theorem raw_sockets_see_frame_linked : SeesFrame (some 1) [7] linkedRaw :=
  (raw_sockets_see_frame_iff [1, 2] (some 1) [7] linkedRaw ⟨rfl, rfl, rfl⟩ nofun (by decide)).mpr
    ⟨[1, 2], ⟨rfl, rfl, rfl⟩, fun _ _ => Iff.rfl⟩

def twoRaw (a : Nat) : Socket := { linkedRaw a with next := none }

/-- The second of two bound raw sockets gets no frame. -/
theorem second_raw_socket_misses_frame :
    Chain (fun a => (twoRaw a).globalNext) (some 1) [1, 2] ∧ ¬SeesFrame (some 1) [7] twoRaw := by
  refine ⟨⟨rfl, rfl, rfl⟩, fun ⟨bound, list, rounds, after, done, sees⟩ => ?_⟩
  obtain rfl : bound = [1, 2] := list.unique ⟨rfl, rfl, rfl⟩
  obtain ⟨visited, chain, result⟩ := inputLoop_spec done
  obtain rfl : visited = [1] := chain.unique ⟨rfl, rfl⟩
  have got := (sees 2).1 ⟨by decide, rfl, emptyRing, rfl, by decide⟩
  rw [result, if_neg (by decide)] at got
  exact got.ne rfl

end Sirius.Net.Raw
