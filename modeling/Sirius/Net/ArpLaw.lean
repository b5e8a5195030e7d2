import Sirius.Net.Arp
import Sirius.Support.Runs
import Mathlib.Data.List.Palindrome

/-! Frames that wait for a hardware address, over any sequence of calls of `ip_output` and ARP packets.
None is sent twice or to a wrong address; but the list they wait in is a stack, and a frame that
finds no memory for its node is reported as waiting. -/
namespace Sirius.Net
open Support List

inductive LinkEvent
  | output (call : IpCall)
  | arp (packet : ArpPacket) (alloc : Bool) (driver : Driver)

/-- A link with its history: how often `ip_output` was called, the frames it accepted, what went to the
driver, and the hardware address last learned of each address. -/
structure Traffic where
  link : Link
  calls : Nat
  accepted : List Frame
  sent : List (Frame × Mac)
  learned : BitVec 32 → Option Mac

namespace Traffic

def apply (event : LinkEvent) (t : Traffic) : Traffic :=
  match event with
  | .output call =>
    let result := ipOutput t.link call t.calls
    { t with
      link := result.link
      calls := t.calls + 1
      accepted := if result.ret = 0 ∨ result.ret = -11 then t.accepted ++ [call.frame t.link t.calls] else t.accepted
      sent := t.sent ++ result.sent }
  | .arp packet alloc driver =>
    let result := arpInput t.link packet alloc driver
    { t with
      link := result.link
      sent := t.sent ++ result.sent
      learned := if packet.WellFormed then Function.update t.learned packet.srcIp (some packet.srcMac) else t.learned }

def sentTags (t : Traffic) : List Nat := t.sent.map (·.1.tag)

/-- The frames accepted and not yet sent. -/
def waiting (t : Traffic) : List Frame := t.accepted.filter (·.tag ∉ t.sentTags)

/-- What a frame for this address should be sent to. -/
def hardware (t : Traffic) (ip : BitVec 32) : Option Mac :=
  if ip = broadcastIp ∨ ip = 0 then some broadcastMac else t.learned ip

end Traffic

/-- An ARP reply that is looked at. -/
def ArpPacket.Resolves (packet : ArpPacket) : Prop := packet.WellFormed ∧ packet.opcode = arpOpReply

/-- What a step may do. -/
structure OrderlyStep (event : LinkEvent) (t : Traffic) : Prop where
  once : (t.apply event).sentTags.Nodup
  addressed : ∃ new, (t.apply event).sent = t.sent ++ new ∧ ∀ item ∈ new, (t.apply event).hardware item.1.destIp = some item.2
  flushed : ∀ packet alloc driver, event = .arp packet alloc driver → packet.Resolves →
    (t.apply event).sent = t.sent ++ (t.waiting.filter (·.destIp = packet.srcIp)).map fun frame => (frame, packet.srcMac)
  queued : ∀ call, event = .output call → (ipOutput t.link call t.calls).ret = -11 →
    call.frame t.link t.calls ∈ (t.apply event).link.pending

/-- There is data at a null pointer, or too much of it, or no memory for the packet. -/
def IpCall.Refused (call : IpCall) : Prop :=
  call.null = true ∧ 0 < call.data.length ∨ 1500 < call.ipPacketSize ∨ call.alloc = false

/-- A frame that has to wait finds memory for its node, and a reply finds one frame waiting for its
address at most. -/
def LinkEvent.Ample (event : LinkEvent) (t : Traffic) : Prop :=
  match event with
  | .output call => ¬call.Refused → resolve t.link.cache call.destIp = none → call.node = true
  | .arp packet _ _ => packet.Resolves → (t.link.pending.filter (·.destIp = packet.srcIp)).length ≤ 1

structure Traffic.Inv (t : Traffic) : Prop where
  ordered : t.accepted.Pairwise (·.tag < ·.tag)
  old : ∀ frame ∈ t.accepted, frame.tag < t.calls
  past : ∀ item ∈ t.sent, item.1.tag < t.calls
  once : t.sentTags.Nodup
  stacked : t.waiting = t.link.pending.reverse
  unicast : ∀ frame ∈ t.link.pending, ¬ (frame.destIp = broadcastIp ∨ frame.destIp = 0)
  cache : CacheInv t.learned t.link.cache

/-- The three ways out of `ip_output`: an error, a frame for the driver, and a frame that waits. -/
theorem ipOutput_cases (link : Link) (call : IpCall) (tag : Nat) : let result := ipOutput link call tag
    (result.link = link ∧ result.sent = [] ∧ result.ret ≠ 0 ∧ result.ret ≠ -11 ∧ call.Refused) ∨
      (∃ mac, resolve link.cache call.destIp = some mac ∧ result.sent = [(call.frame link tag, mac)] ∧
        result.link.pending = link.pending ∧ result.link.cache = link.cache ∧ result.ret ≠ -11) ∨
      (resolve link.cache call.destIp = none ∧ result.sent = [] ∧ result.link.cache = link.cache ∧ result.ret = -11 ∧
        (result.link.pending = if call.node then call.frame link tag :: link.pending else link.pending) ∧ ¬call.Refused) := by
  rw [ipOutput]
  split
  case isTrue refused => exact .inl ⟨rfl, rfl, by simp, by simp, .inl refused⟩
  split
  case isTrue refused => exact .inl ⟨rfl, rfl, by simp, by simp, .inr (.inl refused)⟩
  split
  case isTrue refused => exact .inl ⟨rfl, rfl, by simp, by simp, .inr (.inr refused)⟩
  case isFalse pointer size memory =>
  have taken : ¬call.Refused := not_or.mpr ⟨pointer, not_or.mpr ⟨size, memory⟩⟩
  refine .inr ?_
  cases found : resolve link.cache call.destIp with
  | some mac =>
    refine .inl ⟨mac, rfl, ?_⟩
    simp only [found, true_and]
    cases call.driver <;> decide
  | none =>
    refine .inr ⟨rfl, ?_⟩
    simp only [found, arpRetainPacket]
    cases call.node <;> simp [taken]

/-- An ARP packet is ignored, or learned from, and a reply sends what waits for its address. -/
theorem arpInput_cases (link : Link) (packet : ArpPacket) (alloc : Bool) (driver : Driver) :
    let result := arpInput link packet alloc driver
    (¬ packet.WellFormed ∧ result.link = link ∧ result.sent = []) ∨
      (packet.WellFormed ∧ ¬ packet.Resolves ∧ result.link.pending = link.pending ∧
        result.link.cache = arpCacheInsert link.cache packet.srcIp packet.srcMac ∧ result.sent = []) ∨
      (packet.Resolves ∧ result.link.pending = link.pending.filter (·.destIp ≠ packet.srcIp) ∧
        result.link.cache = arpCacheInsert link.cache packet.srcIp packet.srcMac ∧
        result.sent = (link.pending.filter (·.destIp = packet.srcIp)).map fun frame => (frame, packet.srcMac)) := by
  by_cases wellFormed : packet.WellFormed
  · rw [arpInput, if_pos wellFormed]
    dsimp only
    by_cases request : packet.opcode = arpOpRequest
    · have other : ¬ packet.Resolves := fun resolves => absurd (request.symm.trans resolves.2) (by decide)
      refine .inr (.inl ⟨wellFormed, other, ?_⟩)
      repeat' split
      all_goals exact ⟨rfl, rfl, rfl⟩
    · rw [if_neg request]
      by_cases reply : packet.opcode = arpOpReply
      · rw [if_pos reply]
        exact .inr (.inr ⟨⟨wellFormed, reply⟩, rfl, rfl, rfl⟩)
      · rw [if_neg reply]
        exact .inr (.inl ⟨wellFormed, fun resolves => reply resolves.2, rfl, rfl, rfl⟩)
  · rw [arpInput, if_neg wellFormed]
    exact .inl ⟨wellFormed, rfl, rfl⟩

theorem reverse_eq_self_iff {l : List α} (nodup : l.Nodup) : l.reverse = l ↔ l.length ≤ 1 := by
  constructor
  · intro same
    cases List.Palindrome.of_reverse_eq same with
    | nil => exact Nat.zero_le 1
    | singleton x => exact Nat.le_refl 1
    | cons_concat x _ => exact absurd (mem_append_right _ mem_cons_self) (nodup_cons.mp nodup).1
  · match l with
    | [] => exact fun _ => rfl
    | [x] => exact fun _ => rfl
    | _ :: _ :: _ => exact fun short => absurd short (by simp)

namespace Traffic.Inv
variable {t : Traffic}

section
variable (inv : t.Inv)
include inv

theorem accepted_tags : (t.accepted.map Frame.tag).Nodup :=
  (pairwise_map.mpr inv.ordered).imp fun less => Nat.ne_of_lt less

theorem mem_pending (member : f ∈ t.link.pending) : f ∈ t.accepted ∧ f.tag ∉ t.sentTags := by
  rw [← mem_reverse, ← inv.stacked, waiting, mem_filter] at member
  exact ⟨member.1, of_decide_eq_true member.2⟩

theorem pending_nodup : t.link.pending.Nodup := by
  rw [← nodup_reverse, ← inv.stacked]
  exact (List.Nodup.of_map _ inv.accepted_tags).filter _

theorem unsent : t.calls ∉ t.sentTags := by
  intro member
  obtain ⟨item, listed, same⟩ := mem_map.mp member
  exact absurd (inv.past item listed) (by omega)

theorem resolved (found : resolve t.link.cache ip = some mac) : t.hardware ip = some mac := by
  rw [resolve] at found
  rw [hardware]
  split at found
  next known => rw [if_pos known, found]
  next unknown =>
    rw [if_neg unknown]
    exact inv.cache.lookup found

/-- A new frame joins those accepted. -/
theorem accept (fresh : f.tag = t.calls) :
    (t.accepted ++ [f]).Pairwise (·.tag < ·.tag) ∧ ∀ frame ∈ t.accepted ++ [f], frame.tag < t.calls + 1 := by
  constructor
  · exact pairwise_append.mpr ⟨inv.ordered, pairwise_singleton _ _, by simpa [fresh] using inv.old⟩
  · rw [forall_mem_append, forall_mem_singleton]
    exact ⟨fun frame before => Nat.lt_succ_of_lt (inv.old frame before), by omega⟩

theorem output_error (is : ipOutput t.link call t.calls = r) (link : r.link = t.link) (sent : r.sent = []) (zero : r.ret ≠ 0)
    (unqueued : r.ret ≠ -11) : OrderlyStep (.output call) t ∧ (t.apply (.output call)).Inv := by
  subst is
  have result : t.apply (.output call) = { t with calls := t.calls + 1 } := by
    rw [Traffic.apply, link, sent, if_neg (not_or.mpr ⟨zero, unqueued⟩), append_nil]
  refine ⟨⟨?_, ⟨[], ?_, nofun⟩, nofun, fun other same => ?_⟩, ?_⟩
  · rw [result]
    exact inv.once
  · rw [result, append_nil]
  · cases same
    exact fun queued => absurd queued unqueued
  · rw [result]
    exact ⟨inv.ordered, fun f member => Nat.lt_succ_of_lt (inv.old f member),
      fun item member => Nat.lt_succ_of_lt (inv.past item member), inv.once, inv.stacked, inv.unicast, inv.cache⟩

theorem output_sent (is : ipOutput t.link call t.calls = r) (known : resolve t.link.cache call.destIp = some mac)
    (sent : r.sent = [(call.frame t.link t.calls, mac)]) (pending : r.link.pending = t.link.pending)
    (cache : r.link.cache = t.link.cache) (unqueued : r.ret ≠ -11) :
    OrderlyStep (.output call) t ∧ (t.apply (.output call)).Inv := by
  subst is
  let next := t.apply (.output call)
  have sent' : next.sent = t.sent ++ [(call.frame t.link t.calls, mac)] := by rw [← sent]; rfl
  have tags : next.sentTags = t.sentTags ++ [t.calls] := by
    rw [sentTags, sent', map_append]
    rfl
  have once : next.sentTags.Nodup := by
    rw [tags]
    exact inv.once.append (nodup_singleton _) (disjoint_singleton.mpr inv.unsent)
  have waits : t.accepted.filter (·.tag ∉ next.sentTags) = t.waiting := by
    refine filter_congr fun frame member => ?_
    rw [decide_eq_decide, tags, mem_append, mem_singleton, or_iff_left (Nat.ne_of_lt (inv.old frame member))]
  refine ⟨⟨once, ⟨_, sent', fun item single => ?_⟩, nofun, fun other same => ?_⟩, ?_⟩
  · rw [mem_singleton.mp single]
    exact inv.resolved known
  · cases same
    exact fun queued => absurd queued unqueued
  have past : ∀ item ∈ next.sent, item.1.tag < t.calls + 1 := by
    rw [sent', forall_mem_append, forall_mem_singleton]
    exact ⟨fun item before => Nat.lt_succ_of_lt (inv.past item before), Nat.lt_succ_self _⟩
  have gone : (call.frame t.link t.calls).tag ∈ next.sentTags := by
    rw [tags]
    exact mem_append_right _ mem_cons_self
  have stacked : next.waiting = t.link.pending.reverse := by
    by_cases zero : (ipOutput t.link call t.calls).ret = 0
    · have accepted : next.accepted = t.accepted ++ [call.frame t.link t.calls] := if_pos (.inl zero)
      rw [waiting, accepted, filter_append, filter_singleton, decide_eq_false (not_not.mpr gone), cond_false,
        append_nil, waits, inv.stacked]
    · have accepted : next.accepted = t.accepted := if_neg (not_or.mpr ⟨zero, unqueued⟩)
      rw [waiting, accepted, waits, inv.stacked]
  have accepted : next.accepted.Pairwise (·.tag < ·.tag) ∧ ∀ frame ∈ next.accepted, frame.tag < t.calls + 1 := by
    simp only [next, Traffic.apply]
    split
    · exact inv.accept rfl
    · exact ⟨inv.ordered, fun frame member => Nat.lt_succ_of_lt (inv.old frame member)⟩
  have pending' : next.link.pending = t.link.pending := pending
  have cache' : next.link.cache = t.link.cache := cache
  exact ⟨accepted.1, accepted.2, past, once, pending' ▸ stacked, pending' ▸ inv.unicast, cache' ▸ inv.cache⟩

theorem output_waits (is : ipOutput t.link call t.calls = r) (unknown : resolve t.link.cache call.destIp = none)
    (sent : r.sent = [])
    (cache : r.link.cache = t.link.cache) (queued : r.ret = -11)
    (pending : r.link.pending = if call.node then call.frame t.link t.calls :: t.link.pending else t.link.pending) :
    (OrderlyStep (.output call) t ↔ call.node = true) ∧ (call.node = true → (t.apply (.output call)).Inv) := by
  subst is
  let next := t.apply (.output call)
  have sent' : next.sent = t.sent := (congrArg (t.sent ++ ·) sent).trans (append_nil _)
  have tags : next.sentTags = t.sentTags := by rw [sentTags, sent', sentTags]
  have pending' : next.link.pending = if call.node then call.frame t.link t.calls :: t.link.pending else t.link.pending := pending
  have accepted : next.accepted = t.accepted ++ [call.frame t.link t.calls] := if_pos (.inr queued)
  have new : call.frame t.link t.calls ∉ t.link.pending := fun member => Nat.lt_irrefl _ (inv.old _ (inv.mem_pending member).1)
  refine ⟨⟨fun orderly => ?_, fun node => ⟨tags ▸ inv.once, ⟨[], by rw [sent', append_nil], nofun⟩, nofun, ?_⟩⟩, fun node => ?_⟩
  · by_contra lost
    have member := orderly.queued call rfl queued
    rw [pending', if_neg lost] at member
    exact new member
  · intro other same _
    cases same
    rw [pending', if_pos node]
    exact mem_cons_self
  rw [if_pos node] at pending'
  obtain ⟨ordered, old⟩ := inv.accept (f := call.frame t.link t.calls) rfl
  refine ⟨accepted ▸ ordered, accepted ▸ old, fun item member => ?_, tags ▸ inv.once, ?_, ?_, ?_⟩
  · exact Nat.lt_succ_of_lt (inv.past item (sent' ▸ member))
  · have unsent : decide ((call.frame t.link t.calls).tag ∉ t.sentTags) = true := decide_eq_true inv.unsent
    rw [waiting, tags, accepted, filter_append, filter_singleton, unsent, cond_true, pending',
      reverse_cons, ← inv.stacked, waiting]
  · rw [pending', forall_mem_cons]
    refine ⟨fun broadcast => ?_, inv.unicast⟩
    rw [resolve, if_pos (show call.destIp = broadcastIp ∨ call.destIp = 0 from broadcast)] at unknown
    cases unknown
  · rw [show next.link.cache = t.link.cache from cache]
    exact inv.cache

theorem output (call : IpCall) : (OrderlyStep (.output call) t ↔ (LinkEvent.output call).Ample t) ∧
      ((LinkEvent.output call).Ample t → (t.apply (.output call)).Inv) := by
  rcases ipOutput_cases t.link call t.calls with
    ⟨link, sent, zero, unqueued, refused⟩ | ⟨mac, known, sent, pending, cache, unqueued⟩ |
    ⟨unknown, sent, cache, queued, pending, taken⟩
  · obtain ⟨orderly, next⟩ := inv.output_error rfl link sent zero unqueued
    exact ⟨iff_of_true orderly fun taken => absurd refused taken, fun _ => next⟩
  · obtain ⟨orderly, next⟩ := inv.output_sent rfl known sent pending cache unqueued
    exact ⟨iff_of_true orderly fun _ unknown => (nomatch known.symm.trans unknown), fun _ => next⟩
  · obtain ⟨orderly, next⟩ := inv.output_waits rfl unknown sent cache queued pending
    exact ⟨orderly.trans ⟨fun node _ _ => node, fun ample => ample taken unknown⟩, fun ample => next (ample taken unknown)⟩

/-- A packet that sends nothing. -/
theorem arp_quiet (is : arpInput t.link packet alloc driver = r) (other : ¬ packet.Resolves) (sent : r.sent = [])
    (pending : r.link.pending = t.link.pending) (cache : CacheInv (t.apply (.arp packet alloc driver)).learned r.link.cache) :
    OrderlyStep (.arp packet alloc driver) t ∧ (t.apply (.arp packet alloc driver)).Inv := by
  subst is
  let next := t.apply (.arp packet alloc driver)
  have sent' : next.sent = t.sent := (congrArg (t.sent ++ ·) sent).trans (append_nil _)
  have tags : next.sentTags = t.sentTags := by rw [sentTags, sent', sentTags]
  have pending' : next.link.pending = t.link.pending := pending
  refine ⟨⟨tags ▸ inv.once, ⟨[], by rw [sent', append_nil], nofun⟩, fun _ _ _ same resolves => ?_, nofun⟩, ?_⟩
  · cases same
    exact absurd resolves other
  · refine ⟨inv.ordered, inv.old, sent' ▸ inv.past, tags ▸ inv.once, ?_, pending' ▸ inv.unicast, cache⟩
    rw [pending', ← inv.stacked, waiting, tags, waiting]
    rfl

theorem pending_tags : (t.link.pending.map Frame.tag).Nodup := by
  rw [← nodup_reverse, ← map_reverse, ← inv.stacked]
  exact (filter_sublist.map Frame.tag).nodup inv.accepted_tags

/-- Of the frames that wait, those with the tag of one for the address are those for the address. -/
theorem mem_flushed (member : f ∈ t.link.pending) :
    f.tag ∈ (t.link.pending.filter (·.destIp = ip)).map Frame.tag ↔ f.destIp = ip := by
  rw [mem_map]
  constructor
  · rintro ⟨g, listed, same⟩
    obtain ⟨waits, there⟩ := mem_filter.mp listed
    rw [← inj_on_of_nodup_map inv.accepted_tags (inv.mem_pending waits).1 (inv.mem_pending member).1 same]
    exact of_decide_eq_true there
  · intro there
    exact ⟨f, mem_filter.mpr ⟨member, decide_eq_true there⟩, rfl⟩

theorem arp_flush (is : arpInput t.link packet alloc driver = r) (resolves : packet.Resolves)
    (pending : r.link.pending = t.link.pending.filter (·.destIp ≠ packet.srcIp))
    (cache : r.link.cache = arpCacheInsert t.link.cache packet.srcIp packet.srcMac)
    (sent : r.sent = (t.link.pending.filter (·.destIp = packet.srcIp)).map fun frame => (frame, packet.srcMac)) :
    (OrderlyStep (.arp packet alloc driver) t ↔ (t.link.pending.filter (·.destIp = packet.srcIp)).length ≤ 1) ∧
      (t.apply (.arp packet alloc driver)).Inv := by
  subst is
  let held := t.link.pending.filter (·.destIp = packet.srcIp)
  let next := t.apply (.arp packet alloc driver)
  have members : ∀ frame ∈ held, frame ∈ t.link.pending := fun frame member => (mem_filter.mp member).1
  have nodup : held.Nodup := inv.pending_nodup.filter _
  have mapped : (held.map Frame.tag).Nodup := (filter_sublist.map Frame.tag).nodup inv.pending_tags
  have sent' : next.sent = t.sent ++ held.map fun frame => (frame, packet.srcMac) := congrArg (t.sent ++ ·) sent
  have tags : next.sentTags = t.sentTags ++ held.map Frame.tag := by
    rw [sentTags, sent', map_append, map_map]
    rfl
  have learned : next.learned = Function.update t.learned packet.srcIp (some packet.srcMac) := if_pos resolves.1
  have once : next.sentTags.Nodup := by
    rw [tags]
    refine inv.once.append mapped fun tag before listed => ?_
    obtain ⟨frame, member, rfl⟩ := mem_map.mp listed
    exact (inv.mem_pending (members frame member)).2 before
  have addressed : ∀ item ∈ held.map fun frame => (frame, packet.srcMac), next.hardware item.1.destIp = some item.2 := by
    rw [forall_mem_map]
    intro frame member
    rw [hardware, if_neg (inv.unicast frame (members frame member)), learned,
      of_decide_eq_true (mem_filter.mp member).2, Function.update_self]
  have stack : t.waiting.filter (·.destIp = packet.srcIp) = held.reverse := by rw [inv.stacked, filter_reverse]
  refine ⟨?_, inv.ordered, inv.old, ?_, once, ?_, fun frame member => ?_, ?_⟩
  · rw [← reverse_eq_self_iff nodup, ← stack]
    constructor
    · intro orderly
      have same := orderly.flushed packet alloc driver rfl resolves
      rw [sent', append_cancel_left_eq] at same
      exact (map_injective_iff.mpr (fun _ _ same => congrArg Prod.fst same) same).symm
    · intro same
      refine ⟨once, ⟨_, sent', addressed⟩, fun _ _ _ equal _ => ?_, nofun⟩
      cases equal
      rw [same]
      exact sent'
  · rw [sent', forall_mem_append, forall_mem_map]
    exact ⟨inv.past, fun frame member => inv.old frame (inv.mem_pending (members frame member)).1⟩
  · have rest : t.link.pending.filter (·.tag ∉ held.map Frame.tag) = t.link.pending.filter (·.destIp ≠ packet.srcIp) :=
      filter_congr fun frame member => by rw [decide_eq_decide, inv.mem_flushed member]
    have both : next.waiting = t.waiting.filter (·.tag ∉ held.map Frame.tag) := by
      rw [waiting, tags, waiting, filter_filter]
      refine filter_congr fun frame _ => ?_
      rw [← Bool.decide_and, decide_eq_decide, mem_append, not_or, and_comm]
    rw [both, inv.stacked, filter_reverse, rest]
    exact congrArg List.reverse pending.symm
  · rw [show next.link.pending = t.link.pending.filter (·.destIp ≠ packet.srcIp) from pending] at member
    exact inv.unicast frame (mem_filter.mp member).1
  · rw [learned, show next.link.cache = _ from cache]
    exact inv.cache.insert packet.srcIp packet.srcMac

theorem arp (packet : ArpPacket) (alloc : Bool) (driver : Driver) :
    (OrderlyStep (.arp packet alloc driver) t ↔ (LinkEvent.arp packet alloc driver).Ample t) ∧
      (t.apply (.arp packet alloc driver)).Inv := by
  rcases arpInput_cases t.link packet alloc driver with
    ⟨malformed, link, sent⟩ | ⟨wellFormed, other, pending, cache, sent⟩ | ⟨resolves, pending, cache, sent⟩
  · have other : ¬ packet.Resolves := fun resolves => malformed resolves.1
    have kept : CacheInv (t.apply (.arp packet alloc driver)).learned t.link.cache := by
      rw [Traffic.apply, if_neg malformed]
      exact inv.cache
    obtain ⟨orderly, next⟩ := inv.arp_quiet rfl other sent (by rw [link]) (by rwa [link])
    exact ⟨iff_of_true orderly fun resolves => absurd resolves other, next⟩
  · have kept : CacheInv (t.apply (.arp packet alloc driver)).learned (arpInput t.link packet alloc driver).link.cache := by
      rw [Traffic.apply, if_pos wellFormed, cache]
      exact inv.cache.insert packet.srcIp packet.srcMac
    obtain ⟨orderly, next⟩ := inv.arp_quiet rfl other sent pending kept
    exact ⟨iff_of_true orderly fun resolves => absurd resolves other, next⟩
  · obtain ⟨orderly, next⟩ := inv.arp_flush rfl resolves pending cache sent
    exact ⟨orderly.trans ⟨fun few _ => few, fun few => few resolves⟩, next⟩

theorem apply (event : LinkEvent) : (OrderlyStep event t ↔ event.Ample t) ∧ (event.Ample t → (t.apply event).Inv) := by
  cases event with
  | output call => exact inv.output call
  | arp packet alloc driver => exact ⟨(inv.arp packet alloc driver).1, fun _ => (inv.arp packet alloc driver).2⟩

end

end Traffic.Inv

structure Traffic.Fresh (t : Traffic) : Prop where
  accepted : t.accepted = []
  sent : t.sent = []
  pending : t.link.pending = []
  cache : ∀ i, (t.link.cache.entries i).isValid = false

theorem Traffic.Fresh.inv {t : Traffic} (fresh : t.Fresh) : t.Inv where
  ordered := fresh.accepted ▸ List.Pairwise.nil
  old := by rw [fresh.accepted]; exact nofun
  past := by rw [fresh.sent]; exact nofun
  once := by rw [sentTags, fresh.sent]; exact nodup_nil
  stacked := by rw [waiting, fresh.accepted, fresh.pending]; rfl
  unicast := by rw [fresh.pending]; exact nofun
  cache := by
    refine ⟨fun i valid => ?_, fun ip i j first _ => ?_⟩
    · rw [fresh.cache i] at valid
      cases valid
    · cases (fresh.cache i).symm.trans first.1

/-- Frames are sent once, in order and to the right address, and reported as waiting only if they are,
exactly as long as there is memory for their nodes and no two wait for one address when its reply
comes. -/
theorem frames_orderly_iff_ample (t : Traffic) (fresh : t.Fresh) (events : List LinkEvent) :
    AllMeet Traffic.apply OrderlyStep events t ↔ AllMeet Traffic.apply LinkEvent.Ample events t :=
  allMeet_congr Traffic.Inv fresh.inv (fun event _ inv => (inv.apply event).1) fun event _ inv => (inv.apply event).2

def silentTraffic : Traffic where
  link := ⟨⟨fun _ => ⟨0, 0, false⟩, 0⟩, [], 0, 1⟩
  calls := 0
  accepted := []
  sent := []
  learned := fun _ => none

def byteOut (node : Bool) : LinkEvent := .output ⟨5, 17, [42], false, true, node, .done⟩

def replyIn : LinkEvent := .arp ⟨28, 1, 0x0800, 6, 4, arpOpReply, 9, 5, 1⟩ true .done

/-- One frame waits for the reply, the next is sent at once. -/
theorem frames_orderly_resolved : AllMeet Traffic.apply OrderlyStep [byteOut true, replyIn, byteOut true] silentTraffic := by
  refine (frames_orderly_iff_ample silentTraffic ⟨rfl, rfl, rfl, fun _ => rfl⟩ _).mpr
    ⟨fun _ _ => rfl, fun _ => ?_, fun _ _ => rfl, trivial⟩
  decide

/-- Two frames that wait for one address are sent the wrong way round, and a frame without memory for
its node is reported as waiting, but is not. -/
theorem frames_reversed_or_lost :
    (runAll Traffic.apply [byteOut true, byteOut true, replyIn] silentTraffic).sent.map (·.1.tag) = [1, 0] ∧
      ¬ AllMeet Traffic.apply OrderlyStep [byteOut true, byteOut true, replyIn] silentTraffic ∧
      ¬ AllMeet Traffic.apply OrderlyStep [byteOut false] silentTraffic := by
  refine ⟨by decide, fun ⟨_, _, orderly, _⟩ => ?_, fun ⟨orderly, _⟩ => ?_⟩
  · exact absurd (orderly.flushed _ _ _ rfl ⟨by decide, rfl⟩) (by decide)
  · exact absurd (orderly.queued _ rfl (by decide)) (by decide)

end Sirius.Net
