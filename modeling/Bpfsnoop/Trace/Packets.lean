/-
Bpfsnoop.Trace.Packets — the tuple of a packet, and VXLAN tunnels
(`bpfsnoop_pkt_output.h`, `bpfsnoop_pkt.h`).

`outputTuple` takes addresses, ports and TCP flags of an IPv4 packet.
`skipTunnelAt` steps over the outer headers of a VXLAN packet, from the
Ethernet or from the IP header. The length of an IP header (`ihl`, in
words of four bytes) is decoded in three places, and only `isIpVxlanPkt`
decodes all of it:

  - `outputTuple` masks three of the four bits, so the ports of a packet
    with 8 words or more are taken 32 bytes too early (`tupleTransport`);
  - `skipTunnelAt` counts on 5 words (`skips_iff`).

A packet lies in memory that can be read, so the probes do not fail; a
`Probed` value carries the address and the size of every probe.
-/
import Bpfsnoop.Ebpf.Memory

namespace Bpfsnoop.Trace

open Ebpf

/-! ## Probes -/

/-- A value, and the probes it took. -/
structure Probed (α : Type) where
  probes : List (Word × Nat) := []
  value : α

instance : Monad Probed where
  pure a := { value := a }
  bind x f := { probes := x.probes ++ (f x.value).probes, value := (f x.value).value }

/-- `bpf_probe_read_kernel` of at most 8 bytes. -/
def probeRead (mem : Word → Byte) (src : Word) (size : Nat) : Probed Word :=
  { probes := [(src, size)], value := loadLE mem src size }

namespace Probed

variable {α β : Type}

@[simp] theorem value_pure (a : α) : (pure a : Probed α).value = a := rfl

@[simp] theorem probes_pure (a : α) : (pure a : Probed α).probes = [] := rfl

@[simp] theorem value_bind (x : Probed α) (f : α → Probed β) :
    (x >>= f).value = (f x.value).value := rfl

@[simp] theorem probes_bind (x : Probed α) (f : α → Probed β) :
    (x >>= f).probes = x.probes ++ (f x.value).probes := rfl

@[simp] theorem value_probeRead (mem : Word → Byte) (src : Word) (size : Nat) :
    (probeRead mem src size).value = loadLE mem src size := (rfl)

@[simp] theorem probes_probeRead (mem : Word → Byte) (src : Word) (size : Nat) :
    (probeRead mem src size).probes = [(src, size)] := rfl

@[simp] theorem value_ite (c : Prop) [Decidable c] (x y : Probed α) :
    (if c then x else y).value = if c then x.value else y.value := apply_ite _ _ _ _

@[simp] theorem probes_ite (c : Prop) [Decidable c] (x y : Probed α) :
    (if c then x else y).probes = if c then x.probes else y.probes := apply_ite _ _ _ _

end Probed

/-! ## Constants and layouts -/

def IPPROTO_ICMP : Word := 1
def IPPROTO_TCP : Word := 6
def IPPROTO_UDP : Word := 17

/-- `bpf_htons`, on a little-endian host. -/
def bpfHtons (v : BitVec 16) : Word := ((v >>> 8) ||| (v <<< 8)).setWidth 64

def ETH_P_IP : BitVec 16 := 0x0800
def ETH_P_8021Q : BitVec 16 := 0x8100
def VXLAN_PORT : BitVec 16 := 4789

/-- ETH(14) + IP(20) + UDP(8) + VXLAN(8). -/
def VXLAN_HDR_LEN : Word := 50

/-- `eth + 1` of a `struct ethhdr`, `vh + 1` of a `struct vlan_hdr`. -/
def sizeofEthhdr : Word := 14
def sizeofVlanHdr : Word := 4

/-- `struct bpfsnoop_pkt_data`, less its padding. -/
structure PktData where
  addrs : Word
  ports : BitVec 32
  protocol : Byte
  tcpFlags : Byte
  deriving DecidableEq, Repr

section Packets

variable (mem : Word → Byte)

/-! ## The tuple -/

/-- `output_tuple`. -/
def outputTuple (pkt : PktData) (iph : Word) : Probed PktData := do
  let b ← probeRead mem iph 1
  if (b >>> 4) &&& 0x7 ≠ 4 then return pkt
  let protocol ← probeRead mem (iph + 9) 1
  if protocol = IPPROTO_TCP then
    let addrs ← probeRead mem (iph + 12) 8
    let tcp := iph + ((b &&& 0x7) <<< 2)
    let ports ← probeRead mem tcp 4
    let tcpFlags ← probeRead mem (tcp + 14 - 1) 1
    return { addrs, ports := ports.setWidth 32, protocol := IPPROTO_TCP.setWidth 8,
             tcpFlags := tcpFlags.setWidth 8 }
  else if protocol = IPPROTO_UDP then
    let addrs ← probeRead mem (iph + 12) 8
    let udp := iph + ((b &&& 0x7) <<< 2)
    let ports ← probeRead mem udp 4
    return { pkt with addrs, ports := ports.setWidth 32, protocol := IPPROTO_UDP.setWidth 8 }
  else if protocol = IPPROTO_ICMP then
    let addrs ← probeRead mem (iph + 12) 8
    return { pkt with addrs, protocol := IPPROTO_ICMP.setWidth 8 }
  else return pkt

/-! ## Tunnels -/

/-- `is_ip_vxlan_pkt`. -/
def isIpVxlanPkt (ip : Word) : Probed Bool := do
  let protocol ← probeRead mem (ip + 9) 1
  if protocol ≠ IPPROTO_UDP then return false
  let b ← probeRead mem ip 1
  let udp := ip + ((b &&& 0xF) <<< 2)
  let dest ← probeRead mem (udp + 2) 2
  return dest == bpfHtons VXLAN_PORT

/-- `is_vxlan_pkt`. -/
def isVxlanPkt (eth : Word) : Probed Bool := do
  let proto ← probeRead mem (eth + 12) 2
  if proto ≠ bpfHtons ETH_P_IP then return false
  isIpVxlanPkt mem (eth + sizeofEthhdr)

/-- `__skip_tunnel`; `skip` is the `SKIP_TUNNEL` of the configuration. -/
def skipTunnelAt (skip : BitVec 32) (data : Word) (iphdr : Bool) : Probed Word := do
  if skip = 0 then return data
  if iphdr then
    if ← isIpVxlanPkt mem data then return data + VXLAN_HDR_LEN
  if !iphdr then
    if ← isVxlanPkt mem data then return data + VXLAN_HDR_LEN
  return data

/-- `skip_tunnel`. -/
def skipTunnel (skip : BitVec 32) (data : Word) : Probed Word := skipTunnelAt mem skip data false

/-- `skip_tunnel_iph`. -/
def skipTunnelIph (skip : BitVec 32) (iph : Word) : Probed Word := skipTunnelAt mem skip iph true

/-- `struct sk_buff`, the fields of the headers. -/
structure SkBuff where
  head : Word
  networkHeader : BitVec 16

/-- `output_skb`. -/
def outputSkb (skip : BitVec 32) (skb : SkBuff) (pkt : PktData) : Probed PktData := do
  let iph := skb.head + skb.networkHeader.setWidth 64
  let iph ← skipTunnelIph mem skip iph
  outputTuple mem pkt iph

/-- `output_xdp_data`. -/
def outputXdpData (data : Word) (pkt : PktData) : Probed PktData := do
  let proto ← probeRead mem (data + 12) 2
  if proto = bpfHtons ETH_P_IP then
    outputTuple mem pkt (data + sizeofEthhdr)
  else if proto = bpfHtons ETH_P_8021Q then
    let vh := data + sizeofEthhdr
    let encapsulated ← probeRead mem (vh + 2) 2
    if encapsulated ≠ bpfHtons ETH_P_IP then return pkt
    outputTuple mem pkt (vh + sizeofVlanHdr)
  else return pkt

/-- `output_xdp_buff` and `output_xdp_frame`, from the packet's data on. -/
def outputXdp (skip : BitVec 32) (data : Word) (pkt : PktData) : Probed PktData := do
  let data ← skipTunnel mem skip data
  outputXdpData mem data pkt

/-! ## What a packet says of itself -/

/-- The IP header length field, in words of four bytes. -/
def ihl (ip : Word) : Nat := (mem ip).toNat % 16

/-- Version 4, and at least the 20 bytes of the fixed header. -/
def IsIpv4 (ip : Word) : Prop := (mem ip).toNat / 16 = 4 ∧ 5 ≤ ihl mem ip

def protocolOf (ip : Word) : Word := (mem (ip + 9)).setWidth 64

/-- The packets `output_tuple` is for. -/
def HasTuple (ip : Word) : Prop :=
  protocolOf mem ip = IPPROTO_TCP ∨ protocolOf mem ip = IPPROTO_UDP ∨
    protocolOf mem ip = IPPROTO_ICMP

/-- The header behind the IP header. -/
def transport (ip : Word) : Word := ip + BitVec.ofNat 64 (4 * ihl mem ip)

/-- What is read of a packet for its tuple. -/
def tupleProbes (ip : Word) : List (Word × Nat) :=
  [(ip, 1), (ip + 9, 1), (ip + 12, 8)] ++
    if protocolOf mem ip = IPPROTO_TCP then [(transport mem ip, 4), (transport mem ip + 13, 1)]
    else if protocolOf mem ip = IPPROTO_UDP then [(transport mem ip, 4)]
    else []

/-- The tuple of a packet; an ICMP packet has no ports, and only a TCP
packet has flags. -/
def tupleOf (pkt : PktData) (ip : Word) : PktData :=
  let ports := (loadLE mem (transport mem ip) 4).setWidth 32
  { addrs := loadLE mem (ip + 12) 8
    ports := if protocolOf mem ip = IPPROTO_ICMP then pkt.ports else ports
    protocol := mem (ip + 9)
    tcpFlags :=
      if protocolOf mem ip = IPPROTO_TCP then mem (transport mem ip + 13) else pkt.tcpFlags }

/-- `output_tuple` gives the tuple of the packet, read where it lies. -/
structure TakesTuple (pkt : PktData) (ip : Word) : Prop where
  probes : (outputTuple mem pkt ip).probes = tupleProbes mem ip
  value : (outputTuple mem pkt ip).value = tupleOf mem pkt ip

/-- The outer IP header, from the entry layer. -/
def outerIp (data : Word) (iphdr : Bool) : Word := if iphdr then data else data + sizeofEthhdr

/-- Whether `is_ip_vxlan_pkt` or `is_vxlan_pkt`, by the entry layer,
accepts the packet. -/
def accepted (data : Word) (iphdr : Bool) : Bool :=
  if iphdr then (isIpVxlanPkt mem data).value else (isVxlanPkt mem data).value

/-- The inner Ethernet frame behind the UDP and VXLAN headers. -/
def innerFrame (ip : Word) : Word := transport mem ip + 8 + 8

/-- Where a tunnel leads: to the inner Ethernet frame or, from an IP
header, to the inner IP header. -/
def innerOf (data : Word) (iphdr : Bool) : Word :=
  if iphdr then innerFrame mem data + sizeofEthhdr else innerFrame mem (data + sizeofEthhdr)

/-- Where a packet begins without its tunnel: behind the outer headers of
accepted packets, when told to skip them, and else where it is. -/
def untunneled (skip : BitVec 32) (data : Word) (iphdr : Bool) : Word :=
  if skip ≠ 0 ∧ accepted mem data iphdr = true then innerOf mem data iphdr else data

/-- `__skip_tunnel` finds it. -/
def Skips (skip : BitVec 32) (data : Word) (iphdr : Bool) : Prop :=
  (skipTunnelAt mem skip data iphdr).value = untunneled mem skip data iphdr

/-! ## Decoding the header length -/

@[simp] theorem loadLE_one (a : Word) : loadLE mem a 1 = (mem a).setWidth 64 := by
  simp [loadLE]

theorem protocolOf_eq (ip : Word) : (mem (ip + 9)).setWidth 64 = protocolOf mem ip := rfl

/-- A mask of `k` bits takes the length field modulo `2 ^ k`. -/
theorem shift_mask (b : Byte) {k : Nat} (hk : k ≤ 8) :
    (b.setWidth 64 &&& BitVec.ofNat 64 (2 ^ k - 1)) <<< 2
      = BitVec.ofNat 64 (4 * (b.toNat % 2 ^ k)) := by
  have hpow : 2 ^ k ≤ 2 ^ 8 := Nat.pow_le_pow_right (by omega) hk
  have hb : b.toNat < 2 ^ 8 := b.isLt
  have hmask : (2 ^ k - 1) % 2 ^ 64 = 2 ^ k - 1 := Nat.mod_eq_of_lt (by omega)
  have hlow : b.toNat % 2 ^ k ≤ b.toNat := Nat.mod_le _ _
  apply BitVec.eq_of_toNat_eq
  simp only [BitVec.toNat_shiftLeft, BitVec.toNat_and, BitVec.toNat_setWidth, BitVec.toNat_ofNat]
  rw [Nat.mod_eq_of_lt (show b.toNat < 2 ^ 64 by omega), hmask, Nat.and_two_pow_sub_one_eq_mod,
    Nat.shiftLeft_eq]
  omega

theorem version_four {ip : Word} (h : IsIpv4 mem ip) :
    ((mem ip).setWidth 64 >>> 4) &&& 0x7 = 4 := by
  have hb : (mem ip).toNat < 2 ^ 8 := (mem ip).isLt
  obtain ⟨hversion, -⟩ := h
  apply BitVec.eq_of_toNat_eq
  simp only [BitVec.toNat_and, BitVec.toNat_ushiftRight, BitVec.toNat_setWidth]
  rw [Nat.mod_eq_of_lt (show (mem ip).toNat < 2 ^ 64 by omega), Nat.shiftRight_eq_div_pow, hversion]
  rfl

/-- Where `output_tuple` looks for the transport header. -/
def tupleTransport (ip : Word) : Word := ip + BitVec.ofNat 64 (4 * (ihl mem ip % 8))

theorem masked_transport (ip : Word) :
    ip + (((mem ip).setWidth 64 &&& 0x7) <<< 2) = tupleTransport mem ip := by
  rw [tupleTransport, ihl, Nat.mod_mod_of_dvd _ (by decide)]
  exact congrArg (ip + ·) (shift_mask (mem ip) (k := 3) (by omega))

/-- It is the transport header as long as the length fits three bits. -/
theorem tupleTransport_eq_iff (ip : Word) :
    tupleTransport mem ip = transport mem ip ↔ ihl mem ip < 8 := by
  have hlt : ihl mem ip < 16 := Nat.mod_lt _ (by omega)
  unfold tupleTransport transport
  constructor
  · intro h
    bv_omega
  · intro h
    rw [Nat.mod_eq_of_lt h]

/-- The transport header as `is_ip_vxlan_pkt` finds it. -/
theorem vxlan_transport (ip : Word) :
    ip + (((mem ip).setWidth 64 &&& 0xF) <<< 2) = transport mem ip := by
  rw [transport, ihl]
  exact congrArg (ip + ·) (shift_mask (mem ip) (k := 4) (by omega))

/-- What `is_ip_vxlan_pkt` accepts: UDP to the VXLAN port, found behind an
IP header of any length. -/
theorem isIpVxlanPkt_iff (ip : Word) :
    (isIpVxlanPkt mem ip).value = true ↔
      protocolOf mem ip = IPPROTO_UDP ∧
        loadLE mem (transport mem ip + 2) 2 = bpfHtons VXLAN_PORT := by
  simp only [isIpVxlanPkt, Probed.value_bind, Probed.value_ite, Probed.value_pure,
    Probed.value_probeRead, loadLE_one, vxlan_transport, protocolOf_eq]
  by_cases hproto : protocolOf mem ip = IPPROTO_UDP <;> simp [hproto]

theorem isVxlanPkt_iff (eth : Word) :
    (isVxlanPkt mem eth).value = true ↔
      loadLE mem (eth + 12) 2 = bpfHtons ETH_P_IP ∧
        (isIpVxlanPkt mem (eth + sizeofEthhdr)).value = true := by
  simp only [isVxlanPkt, Probed.value_bind, Probed.value_ite, Probed.value_pure,
    Probed.value_probeRead]
  simp

/-- What `__skip_tunnel` steps over is always `VXLAN_HDR_LEN` long. -/
theorem skipTunnelAt_value (skip : BitVec 32) (data : Word) (iphdr : Bool) :
    (skipTunnelAt mem skip data iphdr).value
      = if skip ≠ 0 ∧ accepted mem data iphdr = true then data + VXLAN_HDR_LEN else data := by
  cases iphdr <;> by_cases hskip : skip = 0#32 <;> simp [skipTunnelAt, accepted, hskip]

/-- The fixed length is that of the headers with an IP header of 5 words. -/
theorem fixed_eq_innerOf_iff (data : Word) (iphdr : Bool) :
    data + VXLAN_HDR_LEN = innerOf mem data iphdr ↔ ihl mem (outerIp data iphdr) = 5 := by
  have hlt : ihl mem (outerIp data iphdr) < 16 := Nat.mod_lt _ (by omega)
  cases iphdr
  all_goals
    simp only [innerOf, innerFrame, transport, outerIp, VXLAN_HDR_LEN, sizeofEthhdr, if_true,
      Bool.false_eq_true, if_false] at hlt ⊢
    constructor
    · intro h
      bv_omega
    · intro h
      rw [h]
      bv_omega

theorem skips_iff (skip : BitVec 32) (data : Word) (iphdr : Bool) :
    Skips mem skip data iphdr ↔
      (skip ≠ 0 → accepted mem data iphdr = true → ihl mem (outerIp data iphdr) = 5) := by
  rw [Skips, skipTunnelAt_value, untunneled]
  by_cases h : skip ≠ 0 ∧ accepted mem data iphdr = true
  · rw [if_pos h, if_pos h, fixed_eq_innerOf_iff]
    exact ⟨fun hihl _ _ => hihl, fun hihl => hihl h.1 h.2⟩
  · rw [if_neg h, if_neg h]
    exact ⟨fun _ hskip hacc => absurd ⟨hskip, hacc⟩ h, fun _ => rfl⟩

/-! ## The tuple -/

/-- What `output_tuple` gives for an IPv4 packet. -/
theorem outputTuple_value (pkt : PktData) {ip : Word} (h : IsIpv4 mem ip) :
    (outputTuple mem pkt ip).value =
      if protocolOf mem ip = IPPROTO_TCP then
        { addrs := loadLE mem (ip + 12) 8
          ports := (loadLE mem (tupleTransport mem ip) 4).setWidth 32
          protocol := IPPROTO_TCP.setWidth 8
          tcpFlags := mem (tupleTransport mem ip + 14 - 1) }
      else if protocolOf mem ip = IPPROTO_UDP then
        { pkt with
          addrs := loadLE mem (ip + 12) 8
          ports := (loadLE mem (tupleTransport mem ip) 4).setWidth 32
          protocol := IPPROTO_UDP.setWidth 8 }
      else if protocolOf mem ip = IPPROTO_ICMP then
        { pkt with addrs := loadLE mem (ip + 12) 8, protocol := IPPROTO_ICMP.setWidth 8 }
      else pkt := by
  simp only [outputTuple, Probed.value_bind, Probed.value_ite, Probed.value_pure,
    Probed.value_probeRead, loadLE_one, masked_transport, version_four mem h, protocolOf_eq]
  simp

/-- What `output_tuple` reads of an IPv4 packet. -/
theorem outputTuple_probes (pkt : PktData) {ip : Word} (h : IsIpv4 mem ip) :
    (outputTuple mem pkt ip).probes = [(ip, 1), (ip + 9, 1)] ++
      if protocolOf mem ip = IPPROTO_TCP then
        [(ip + 12, 8), (tupleTransport mem ip, 4), (tupleTransport mem ip + 14 - 1, 1)]
      else if protocolOf mem ip = IPPROTO_UDP then [(ip + 12, 8), (tupleTransport mem ip, 4)]
      else if protocolOf mem ip = IPPROTO_ICMP then [(ip + 12, 8)]
      else [] := by
  simp only [outputTuple, Probed.probes_bind, Probed.probes_ite, Probed.probes_pure,
    Probed.value_probeRead, Probed.probes_probeRead, loadLE_one, masked_transport,
    version_four mem h, protocolOf_eq]
  simp

theorem protocol_byte {ip : Word} {protocol : Word} (h : protocolOf mem ip = protocol) :
    mem (ip + 9) = protocol.setWidth 8 := by
  rw [← h, protocolOf]
  simp

/-- `&tcp->window - 1`. -/
theorem tcpFlags_address (tcp : Word) : tcp + 14 - 1 = tcp + 13 := by bv_omega

theorem udp_ne_tcp : IPPROTO_UDP ≠ IPPROTO_TCP := by decide

theorem icmp_ne_tcp : IPPROTO_ICMP ≠ IPPROTO_TCP := by decide

theorem icmp_ne_udp : IPPROTO_ICMP ≠ IPPROTO_UDP := by decide

/-- The right transport header gives the tuple; for ICMP any will do. -/
theorem takesTuple_of_transport (pkt : PktData) {ip : Word} (h : IsIpv4 mem ip)
    (hproto : HasTuple mem ip)
    (hok : tupleTransport mem ip = transport mem ip ∨ protocolOf mem ip = IPPROTO_ICMP) :
    TakesTuple mem pkt ip := by
  rcases hproto with hp | hp | hp
  · have htransport := hok.resolve_right (by rw [hp]; exact icmp_ne_tcp.symm)
    constructor
    · rw [outputTuple_probes mem pkt h, tupleProbes, htransport, tcpFlags_address]
      simp [hp]
    · rw [outputTuple_value mem pkt h, tupleOf, htransport, tcpFlags_address, protocol_byte mem hp]
      simp [hp, icmp_ne_tcp.symm]
  · have htransport := hok.resolve_right (by rw [hp]; exact icmp_ne_udp.symm)
    constructor
    · rw [outputTuple_probes mem pkt h, tupleProbes, htransport]
      simp [hp, udp_ne_tcp]
    · rw [outputTuple_value mem pkt h, tupleOf, htransport, protocol_byte mem hp]
      simp [hp, udp_ne_tcp, icmp_ne_udp.symm]
  · constructor
    · rw [outputTuple_probes mem pkt h, tupleProbes]
      simp [hp, icmp_ne_tcp, icmp_ne_udp]
    · rw [outputTuple_value mem pkt h, tupleOf, protocol_byte mem hp]
      simp [hp, icmp_ne_tcp, icmp_ne_udp]

/-- The probes of a TCP or UDP packet tell where its ports were taken. -/
theorem transport_of_takesTuple (pkt : PktData) {ip : Word} (h : IsIpv4 mem ip)
    (hproto : HasTuple mem ip) (htakes : TakesTuple mem pkt ip) :
    tupleTransport mem ip = transport mem ip ∨ protocolOf mem ip = IPPROTO_ICMP := by
  have hprobes := htakes.probes
  rw [outputTuple_probes mem pkt h, tupleProbes, tcpFlags_address] at hprobes
  rcases hproto with hp | hp | hp
  · simp only [hp, if_true, List.cons_append, List.nil_append, List.cons.injEq, Prod.mk.injEq,
      true_and, and_true] at hprobes
    exact .inl hprobes.1
  · left
    simpa [hp, udp_ne_tcp] using hprobes
  · exact .inr hp

/-! ## Main result -/

/-- **Where the header length is decoded.** The tuple of an IPv4 packet is
read at the place its own length gives exactly when that is below 8 words
or the packet is ICMP; and a tunnel is stepped over to its inner header,
from either layer, exactly when the outer IP header has 5 words. -/
theorem headerLength_iff (skip : BitVec 32) (pkt : PktData) {ip : Word} (h : IsIpv4 mem ip)
    (hproto : HasTuple mem ip) :
    (TakesTuple mem pkt ip ↔ ihl mem ip < 8 ∨ protocolOf mem ip = IPPROTO_ICMP) ∧
      ∀ data iphdr, Skips mem skip data iphdr ↔
        (skip ≠ 0 → accepted mem data iphdr = true → ihl mem (outerIp data iphdr) = 5) := by
  constructor
  · rw [← tupleTransport_eq_iff]
    exact ⟨transport_of_takesTuple mem pkt h hproto, takesTuple_of_transport mem pkt h hproto⟩
  · exact skips_iff mem skip

/-! ## Both together -/

/-- The tuple of an `sk_buff` is that of the packet in its tunnel. -/
theorem outputSkb_value (skip : BitVec 32) (skb : SkBuff) (pkt : PktData) {iph : Word}
    (hiph : iph = skb.head + skb.networkHeader.setWidth 64) (hskips : Skips mem skip iph true)
    (htuple : TakesTuple mem pkt (untunneled mem skip iph true)) :
    (outputSkb mem skip skb pkt).value = tupleOf mem pkt (untunneled mem skip iph true) := by
  simp only [outputSkb, Probed.value_bind, skipTunnelIph]
  rw [← hiph, hskips, htuple.value]

/-- The tuple of an XDP buffer or frame is that of the IPv4 packet in the
Ethernet frame in its tunnel. -/
theorem outputXdp_value (skip : BitVec 32) (data : Word) (pkt : PktData)
    (hskips : Skips mem skip data false)
    (hproto : loadLE mem (untunneled mem skip data false + 12) 2 = bpfHtons ETH_P_IP)
    (htuple : TakesTuple mem pkt (untunneled mem skip data false + sizeofEthhdr)) :
    (outputXdp mem skip data pkt).value
      = tupleOf mem pkt (untunneled mem skip data false + sizeofEthhdr) := by
  simp only [outputXdp, Probed.value_bind, skipTunnel]
  rw [hskips]
  simp only [outputXdpData, Probed.value_bind, Probed.value_probeRead, hproto, if_true]
  exact htuple.value

end Packets

/-! ## Runs on fixed inputs -/

/-- A memory of zeroes but for some bytes. -/
def packet (bytes : List (Word × Byte)) (a : Word) : Byte := (bytes.lookup a).getD 0

def noTuple : PktData := { addrs := 0, ports := 0, protocol := 0, tcpFlags := 0 }

/-- A VXLAN packet without IP options, from its Ethernet header on. -/
def plainVxlan : Word → Byte :=
  packet [(12, 0x08), (14, 0x45), (23, 17), (36, 0x12), (37, 0xB5)]

/-- Without options the tuple and the inner frame are found. -/
theorem plainVxlan_found :
    TakesTuple plainVxlan noTuple 14 ∧
      accepted plainVxlan 0 false = true ∧ Skips plainVxlan 1 0 false := by
  have hipv4 : IsIpv4 plainVxlan 14 := ⟨by decide, by decide⟩
  have h := headerLength_iff plainVxlan 1 noTuple hipv4 (.inr (.inl (by decide)))
  exact ⟨h.1.mpr (by decide), by decide, (h.2 0 false).mpr (by decide)⟩

/-- One word of IP options in a VXLAN packet, three in a TCP packet. -/
def optionVxlan : Word → Byte :=
  packet [(12, 0x08), (14, 0x46), (23, 17), (40, 0x12), (41, 0xB5)]

def optionTcp : Word → Byte := packet [(0, 0x48), (9, 6), (32, 0x1F), (33, 0x90)]

/-- With options, the inner frame at byte 54 is looked for at byte 50, and
the ports at byte 32 are taken from byte 0. -/
theorem options_missed :
    (accepted optionVxlan 0 false = true ∧ (skipTunnelAt optionVxlan 1 0 false).value = 50 ∧
      innerOf optionVxlan 0 false = 54 ∧ ¬ Skips optionVxlan 1 0 false) ∧
    IsIpv4 optionTcp 0 ∧ (outputTuple optionTcp noTuple 0).value.ports = 0x48 ∧
      (tupleOf optionTcp noTuple 0).ports = 0x901F ∧ ¬ TakesTuple optionTcp noTuple 0 := by
  have hframe : ¬ Skips optionVxlan 1 0 false := by
    unfold Skips
    decide
  have hports : ¬ TakesTuple optionTcp noTuple 0 := by
    intro h
    exact absurd (congrArg PktData.ports h.value) (by decide)
  exact ⟨⟨by decide, by decide, by decide, hframe⟩, ⟨by decide, by decide⟩, by decide, by decide,
    hports⟩

end Bpfsnoop.Trace
