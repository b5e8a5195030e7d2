import Mathlib.Data.List.FinRange
import Mathlib.Algebra.GroupWithZero.Nat

/-! `arp.c` and `ip_output`: the cache of hardware addresses, the frames that wait for one, and where
frames are handed to the driver. Header fields are in host order. The fields of a frame that nothing
here depends on (checksum, time to live) are left out, as are the ARP packets the kernel itself
sends; a frame is told from others by the number of the call that made it. -/
namespace Sirius.Net
open Function List

abbrev Mac := BitVec 48

structure ArpEntry where
  ipAddr : BitVec 32
  macAddr : Mac
  isValid : Bool
deriving DecidableEq

abbrev arpCacheMax : Nat := 32

instance arpCacheSome : NeZero arpCacheMax := ⟨by decide⟩

structure ArpCache where
  entries : Fin arpCacheMax → ArpEntry
  victim : Fin arpCacheMax

namespace ArpCache

def Matches (cache : ArpCache) (ip : BitVec 32) (i : Fin arpCacheMax) : Prop :=
  (cache.entries i).isValid = true ∧ (cache.entries i).ipAddr = ip
deriving Decidable

def find (cache : ArpCache) (ip : BitVec 32) : Option (Fin arpCacheMax) :=
  (finRange arpCacheMax).find? fun i => cache.Matches ip i

def free (cache : ArpCache) : Option (Fin arpCacheMax) :=
  (finRange arpCacheMax).find? fun i => !(cache.entries i).isValid

def set (cache : ArpCache) (i : Fin arpCacheMax) (entry : ArpEntry) : ArpCache :=
  { cache with entries := update cache.entries i entry }

end ArpCache

def arpCacheLookup (cache : ArpCache) (ip : BitVec 32) : Option Mac :=
  (cache.find ip).map fun i => (cache.entries i).macAddr

/-- An entry of the address is updated, or a free one taken, or the next victim replaced. -/
def arpCacheInsert (cache : ArpCache) (ip : BitVec 32) (mac : Mac) : ArpCache :=
  match cache.find ip with
  | some i => cache.set i { cache.entries i with macAddr := mac }
  | none =>
    match cache.free with
    | some i => cache.set i ⟨ip, mac, true⟩
    | none => { cache.set cache.victim ⟨ip, mac, true⟩ with victim := cache.victim + 1 }

structure Frame where
  tag : Nat
  destIp : BitVec 32
  srcIp : BitVec 32
  protocol : BitVec 8
  id : BitVec 16
  payload : List UInt8
deriving DecidableEq

/-- `pending` is the list from `g_arp_pending_queue_head` on. -/
structure Link where
  cache : ArpCache
  pending : List Frame
  packetId : BitVec 16
  interfaceIp : BitVec 32

/-- The node that holds the frame is put in front; without memory for it the frame is lost. -/
def arpRetainPacket (link : Link) (frame : Frame) (alloc : Bool) : Link × Int :=
  if alloc then ({ link with pending := frame :: link.pending }, 0) else (link, -1)

/-- The frames for the address leave the list, in its order, with the address in their header. -/
def arpFlushPendingPackets (link : Link) (resolvedIp : BitVec 32) (hardwareMac : Mac) : Link × List (Frame × Mac) :=
  ({ link with pending := link.pending.filter (·.destIp ≠ resolvedIp) },
    (link.pending.filter (·.destIp = resolvedIp)).map fun frame => (frame, hardwareMac))

inductive Driver
  | done | tooLong | missing
deriving DecidableEq

def Driver.code : Driver → Int
  | .done => 0
  | .tooLong => 2
  | .missing => -2

/-- One call of `ip_output`: `null` says that there is no data pointer, `alloc` and `node` are the
outcomes of the two allocations. -/
structure IpCall where
  destIp : BitVec 32
  protocol : BitVec 8
  data : List UInt8
  null : Bool
  alloc : Bool
  node : Bool
  driver : Driver

/-- Sizes are computed in 32 bits. -/
def IpCall.ipPacketSize (call : IpCall) : Nat := (20 + call.data.length) % 2 ^ 32

def IpCall.frame (call : IpCall) (link : Link) (tag : Nat) : Frame where
  tag := tag
  destIp := call.destIp
  srcIp := link.interfaceIp
  protocol := call.protocol
  id := link.packetId
  payload := call.data.take (call.ipPacketSize - 20)

def broadcastIp : BitVec 32 := 0xFFFFFFFF

def broadcastMac : Mac := 0xFFFFFFFFFFFF

structure IpOutput where
  link : Link
  sent : List (Frame × Mac) := []
  ret : Int

/-- The hardware address is known, or is not needed. -/
def resolve (cache : ArpCache) (destIp : BitVec 32) : Option Mac :=
  if destIp = broadcastIp ∨ destIp = 0 then some broadcastMac else arpCacheLookup cache destIp

def ipOutput (link : Link) (call : IpCall) (tag : Nat) : IpOutput :=
  if call.null = true ∧ 0 < call.data.length then { link := link, ret := -1 }
  else if 1500 < call.ipPacketSize then { link := link, ret := -2 }
  else if call.alloc = false then { link := link, ret := -3 }
  else
    let frame := call.frame link tag
    let link := { link with packetId := link.packetId + 1 }
    match resolve link.cache call.destIp with
    | some mac => { link := link, sent := [(frame, mac)], ret := call.driver.code }
    | none => { link := (arpRetainPacket link frame call.node).1, ret := -11 }

structure ArpPacket where
  len : Nat
  hwType : BitVec 16
  protoType : BitVec 16
  hwLen : BitVec 8
  protoLen : BitVec 8
  opcode : BitVec 16
  srcMac : Mac
  srcIp : BitVec 32
  destIp : BitVec 32
deriving DecidableEq

def sizeofArpHeader : Nat := 28
def arpOpRequest : BitVec 16 := 1
def arpOpReply : BitVec 16 := 2

/-- The packet is long enough and about Ethernet and IPv4. -/
def ArpPacket.WellFormed (packet : ArpPacket) : Prop :=
  sizeofArpHeader ≤ packet.len ∧ packet.hwType = 1 ∧ packet.protoType = 0x0800 ∧ packet.hwLen = 6 ∧ packet.protoLen = 4

instance (packet : ArpPacket) : Decidable packet.WellFormed := inferInstanceAs (Decidable (_ ∧ _))

structure ArpInput where
  link : Link
  sent : List (Frame × Mac) := []
  /-- Whom a request for our own address was answered. -/
  replied : Option Mac := none
  ret : Int

def arpInput (link : Link) (packet : ArpPacket) (alloc : Bool) (driver : Driver) : ArpInput :=
  if packet.WellFormed then
    let link := { link with cache := arpCacheInsert link.cache packet.srcIp packet.srcMac }
    if packet.opcode = arpOpRequest then
      if packet.destIp = link.interfaceIp then
        if alloc then { link := link, replied := some packet.srcMac, ret := driver.code } else { link := link, ret := -3 }
      else { link := link, ret := -1 }
    else if packet.opcode = arpOpReply then
      let (link, sent) := arpFlushPendingPackets link packet.srcIp packet.srcMac
      { link := link, sent := sent, ret := -1 }
    else { link := link, ret := -1 }
  else { link := link, ret := if packet.len < sizeofArpHeader then -1 else -2 }

/-! ### The cache -/

/-- Every entry holds what was last learned of its address, and no address has two. -/
structure CacheInv (learned : BitVec 32 → Option Mac) (cache : ArpCache) : Prop where
  fresh : ∀ i, (cache.entries i).isValid = true → learned (cache.entries i).ipAddr = some (cache.entries i).macAddr
  unique : ∀ ip i j, cache.Matches ip i → cache.Matches ip j → i = j

theorem ArpCache.find_some (found : ArpCache.find cache ip = some i) : cache.Matches ip i :=
  of_decide_eq_true (find?_some found :)

theorem ArpCache.find_none (absent : ArpCache.find cache ip = none) (i : Fin arpCacheMax) : ¬ cache.Matches ip i :=
  fun isMatch => find?_eq_none.mp absent i (mem_finRange i) (decide_eq_true isMatch)

theorem CacheInv.lookup (inv : CacheInv learned cache) (found : arpCacheLookup cache ip = some mac) : learned ip = some mac := by
  obtain ⟨i, first, rfl⟩ := Option.map_eq_some_iff.mp found
  obtain ⟨valid, rfl⟩ := ArpCache.find_some first
  exact inv.fresh i valid

/-- An entry is overwritten by what has just been learned; no other entry has the address. -/
theorem CacheInv.set (inv : CacheInv learned cache) (entry : ArpEntry) (alone : ∀ j, cache.Matches entry.ipAddr j → j = i) :
    CacheInv (update learned entry.ipAddr (some entry.macAddr)) (cache.set i entry) := by
  have self : (cache.set i entry).entries i = entry := update_self _ _ _
  have other : ∀ j, j ≠ i → (cache.set i entry).entries j = cache.entries j := fun j different => update_of_ne different _ _
  refine ⟨fun j valid => ?_, fun ip j k first second => ?_⟩
  · by_cases here : j = i
    · rw [here, self, update_self]
    · rw [other j here] at valid ⊢
      have different : (cache.entries j).ipAddr ≠ entry.ipAddr := fun same => here (alone j ⟨valid, same⟩)
      rw [update_of_ne different]
      exact inv.fresh j valid
  · -- two entries of one address: neither is new, or the old one was the one overwritten
    simp only [ArpCache.Matches] at first second
    by_cases here : j = i
    · by_cases there : k = i
      · exact here.trans there.symm
      · rw [here, self] at first
        rw [other k there] at second
        exact absurd (alone k ⟨second.1, second.2.trans first.2.symm⟩) there
    · rw [other j here] at first
      by_cases there : k = i
      · rw [there, self] at second
        exact absurd (alone j ⟨first.1, first.2.trans second.2.symm⟩) here
      · rw [other k there] at second
        exact inv.unique ip j k first second

theorem CacheInv.insert (inv : CacheInv learned cache) (ip : BitVec 32) (mac : Mac) :
    CacheInv (update learned ip (some mac)) (arpCacheInsert cache ip mac) := by
  rw [arpCacheInsert]
  cases found : cache.find ip with
  | some i =>
    have isMatch := ArpCache.find_some found
    have set := inv.set { cache.entries i with macAddr := mac } (i := i) fun j second => inv.unique _ j i second ⟨isMatch.1, rfl⟩
    rw [isMatch.2] at set
    exact set
  | none =>
    have absent := ArpCache.find_none found
    cases free : cache.free with
    | some i => exact inv.set ⟨ip, mac, true⟩ fun j isMatch => absurd isMatch (absent j)
    | none =>
      obtain ⟨fresh, unique⟩ := inv.set (i := cache.victim) ⟨ip, mac, true⟩ fun j isMatch => absurd isMatch (absent j)
      exact ⟨fresh, unique⟩

end Sirius.Net
