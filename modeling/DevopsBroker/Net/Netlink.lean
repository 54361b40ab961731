import DevopsBroker.Lib.Framing
import DevopsBroker.Lib.Text
import DevopsBroker.Net.IPv4Address
import DevopsBroker.Net.NetworkDevice

/-!
# `net/networkdevice.c` over `socket/socket.c`: what is read of a datagram

The four functions that ask the kernel for the addresses and the gateways of a device, down to the
bytes: `recvmsg` puts a datagram to the beginning of `ioBuffer`, what was there before stays behind
it, and `NLMSG_OK`, `NLMSG_NEXT`, `RTA_OK` and `RTA_NEXT` walk over what the bytes say is there.

Mirroring notes vs the C source:
- The macros of `linux/netlink.h` and `linux/rtnetlink.h` are written out; lengths are `int` or
  `ssize_t` there and may get negative here as well.
- `recvmsg` waits for the next datagram; here `none` is waiting for one that does not come. It takes
  what fits into `ioBuffer`, the rest of the datagram is lost. That it fails is left out, as are the
  requests, which are sent before.
- All reads go to memory: nothing stops `NLMSG_DATA` from reading behind a short message.
- The functions come in pairs that differ in what they store. Each pair is one loop with the store
  as a parameter.
-/

namespace DevopsBroker.Net

open DevopsBroker.Lib

/-- `struct NetworkDevice`, with its addresses. -/
structure NetworkDeviceAddresses extends NetworkDevice where
  ipv4Address : IPv4Address
  ipv6Global : IPv6Address
  ipv6Local : IPv6Address
deriving DecidableEq

namespace Netlink

/-- `NETLINK_BUF_SIZE`. -/
def NETLINK_BUF_SIZE : Nat := 32768

/-- `IFA_ADDRESS`. -/
def IFA_ADDRESS : UInt16 := 1

/-- `RTA_OIF`. -/
def RTA_OIF : UInt16 := 4

/-- `RTA_GATEWAY`. -/
def RTA_GATEWAY : UInt16 := 5

/-- `RT_SCOPE_UNIVERSE`. -/
def RT_SCOPE_UNIVERSE : UInt8 := 0

/-- `RT_SCOPE_LINK`. -/
def RT_SCOPE_LINK : UInt8 := 253

def uint16At (mem : Mem) (p : Nat) : UInt16 := UInt16.ofNat (littleEndian (bytesAt mem p 2))

def uint32At (mem : Mem) (p : Nat) : UInt32 := UInt32.ofNat (littleEndian (bytesAt mem p 4))

/-! ## `struct nlmsghdr` and `struct rtattr` -/

/-- `NLMSG_OK` and `NLMSG_NEXT`. -/
def NLMSG : Framing where
  header := 16
  header_pos := by decide
  lengthAt := fun mem msgHeader => (uint32At mem msgHeader).toNat

def nlmsg_type (mem : Mem) (msgHeader : Nat) : UInt16 := uint16At mem (msgHeader + 4)

def NLMSG_DATA (msgHeader : Nat) : Nat := msgHeader + 16

/-- `RTA_OK` and `RTA_NEXT`. -/
def RTA : Framing where
  header := 4
  header_pos := by decide
  lengthAt := fun mem nlAttribute => (uint16At mem nlAttribute).toNat

def rta_type (mem : Mem) (nlAttribute : Nat) : UInt16 := uint16At mem (nlAttribute + 2)

def RTA_DATA (nlAttribute : Nat) : Nat := nlAttribute + 4

def RTA_PAYLOAD (rta_len : Nat) : Nat := rta_len - 4

/-! ## `struct ifaddrmsg` and `struct rtmsg` -/

def ifa_prefixlen (mem : Mem) (addrMessage : Nat) : UInt8 := mem (addrMessage + 1)

def ifa_scope (mem : Mem) (addrMessage : Nat) : UInt8 := mem (addrMessage + 3)

def ifa_index (mem : Mem) (addrMessage : Nat) : UInt32 := uint32At mem (addrMessage + 4)

def IFA_RTA (addrMessage : Nat) : Nat := addrMessage + 8

def IFA_PAYLOAD (nlmsg_len : Nat) : Int := nlmsg_len - 24

def rtm_table (mem : Mem) (nlRouteMessage : Nat) : UInt8 := mem (nlRouteMessage + 4)

def rtm_type (mem : Mem) (nlRouteMessage : Nat) : UInt8 := mem (nlRouteMessage + 7)

def RTM_RTA (nlRouteMessage : Nat) : Nat := nlRouteMessage + 12

def RTM_PAYLOAD (nlmsg_len : Nat) : Int := nlmsg_len - 28

/-! ## `a36b5966_receiveMessage` -/

/-- `IOBuffer`, which is a `struct iovec`. -/
structure IOBuffer where
  iov_base : Nat
  iov_len : Nat

/-- `a36b5966_receiveMessage`: `msgLen`, and the buffer afterwards. -/
def receiveMessage (ioBuffer : IOBuffer) (mem : Mem) (datagram : List UInt8) : Int × Mem :=
  let received := datagram.take ioBuffer.iov_len
  (received.length, storeBytes mem ioBuffer.iov_base received)

section

variable {σ : Type} (ioBuffer : IOBuffer)

/-- `while (msgHeader->nlmsg_type != NLMSG_DONE)`, with the message in front of it, and what is left
in the socket. -/
def receiveLoop (body : Mem → Nat → Nat → σ → ForInStep σ) :
    List (List UInt8) → Mem → σ → Option (σ × Mem × List (List UInt8))
  | [], _, _ => none
  | datagram :: datagrams, mem, s =>
    let (msgLen, mem) := receiveMessage ioBuffer mem datagram
    if nlmsg_type mem ioBuffer.iov_base = NLMSG_DONE then some (s, mem, datagrams)
    else receiveLoop body datagrams mem (NLMSG.forEach mem (body mem) ioBuffer.iov_base msgLen s)

/-! ## Addresses -/

variable (index : UInt32)

/-- One attribute: an address is stored if its scope is one that is asked for, and ends the
message. -/
def addressAttribute (store : Mem → UInt8 → UInt8 → Nat → Nat → σ → Option σ) (mem : Mem)
    (addrMessage nlAttribute rta_len : Nat) (s : σ) : ForInStep σ :=
  if rta_type mem nlAttribute = IFA_ADDRESS then
    match store mem (ifa_scope mem addrMessage) (ifa_prefixlen mem addrMessage) (RTA_DATA nlAttribute)
        (RTA_PAYLOAD rta_len) s with
    | some s => .done s
    | none => .yield s
  else .yield s

/-- One message. -/
def addressMessage (store : Mem → UInt8 → UInt8 → Nat → Nat → σ → Option σ) (mem : Mem)
    (msgHeader nlmsg_len : Nat) (s : σ) : ForInStep σ :=
  let addrMessage := NLMSG_DATA msgHeader
  if ifa_index mem addrMessage = index then
    .yield (RTA.forEach mem (addressAttribute store mem addrMessage) (IFA_RTA addrMessage)
      (IFA_PAYLOAD nlmsg_len) s)
  else .yield s

/-- What `getIPv4Address` stores. -/
def storeIPv4Address (mem : Mem) (scope prefixlen : UInt8) (data _size : Nat)
    (networkDevice : NetworkDeviceAddresses) : Option NetworkDeviceAddresses :=
  if scope = RT_SCOPE_UNIVERSE then
    some { networkDevice with
      ipv4Address := { networkDevice.ipv4Address with
        address := uint32At mem data, cidrSuffix := prefixlen.toUInt32 } }
  else none

/-- `f0185083_getIPv4Address`. -/
def getIPv4Address (networkDevice : NetworkDeviceAddresses) (mem : Mem)
    (datagrams : List (List UInt8)) :
    Option (NetworkDeviceAddresses × Mem × List (List UInt8)) :=
  receiveLoop ioBuffer (addressMessage networkDevice.index storeIPv4Address) datagrams mem networkDevice

/-- `f668c4bd_memcopy` into `address`. A payload of more than sixteen bytes would run over what is
behind it; that is left out. -/
def copyAddress (mem : Mem) (data size : Nat) (ipv6Address : IPv6Address) : IPv6Address :=
  let bytes := (bytesAt mem data size ++ ipv6Address.address.drop size).take 16
  { ipv6Address with
    first := UInt64.ofNat (littleEndian (bytes.take 8))
    second := UInt64.ofNat (littleEndian (bytes.drop 8)) }

/-- What `getIPv6Addresses` stores. -/
def storeIPv6Address (mem : Mem) (scope prefixlen : UInt8) (data size : Nat)
    (networkDevice : NetworkDeviceAddresses) : Option NetworkDeviceAddresses :=
  if scope = RT_SCOPE_UNIVERSE then
    some { networkDevice with
      ipv6Global := { copyAddress mem data size networkDevice.ipv6Global with
        cidrSuffix := prefixlen.toUInt32 } }
  else if scope = RT_SCOPE_LINK then
    some { networkDevice with
      ipv6Local := { copyAddress mem data size networkDevice.ipv6Local with
        cidrSuffix := prefixlen.toUInt32 } }
  else none

/-- `f0185083_getIPv6Addresses`. -/
def getIPv6Addresses (networkDevice : NetworkDeviceAddresses) (mem : Mem)
    (datagrams : List (List UInt8)) :
    Option (NetworkDeviceAddresses × Mem × List (List UInt8)) :=
  receiveLoop ioBuffer (addressMessage networkDevice.index storeIPv6Address) datagrams mem networkDevice

/-! ## Gateways -/

variable {β : Type} (store : Mem → Nat → Nat → β → β)

/-- One attribute: the output device of another device ends the route. -/
def routeAttribute (mem : Mem) (nlAttribute rta_len : Nat) (st : GatewayState β) :
    ForInStep (GatewayState β) :=
  if rta_type mem nlAttribute = RTA_GATEWAY then
    .yield { st with
      gateway := store mem (RTA_DATA nlAttribute) (RTA_PAYLOAD rta_len) st.gateway
      foundGateway := true }
  else if rta_type mem nlAttribute = RTA_OIF then
    let outputDeviceIndex := uint32At mem (RTA_DATA nlAttribute)
    if outputDeviceIndex ≠ index then .done { st with outputDeviceIndex := outputDeviceIndex }
    else .yield { st with outputDeviceIndex := outputDeviceIndex }
  else .yield st

/-- One message: a route that is complete ends the datagram. -/
def routeMessage (mem : Mem) (nlMsgHeader nlmsg_len : Nat) (gateway : β) : ForInStep β :=
  let nlRouteMessage := NLMSG_DATA nlMsgHeader
  if rtm_table mem nlRouteMessage = RT_TABLE_MAIN ∧ rtm_type mem nlRouteMessage = RTN_UNICAST then
    let st := RTA.forEach mem (routeAttribute index store mem) (RTM_RTA nlRouteMessage)
      (RTM_PAYLOAD nlmsg_len)
      { gateway := gateway, foundGateway := false, outputDeviceIndex := 0xffffffff }
    if st.foundGateway ∧ st.outputDeviceIndex = index then .done st.gateway else .yield st.gateway
  else .yield gateway

/-- What `getIPv4Gateway` stores. -/
def storeIPv4Gateway (mem : Mem) (data _size : Nat) (_ipv4Gateway : UInt32) : UInt32 := uint32At mem data

/-- `f0185083_getIPv4Gateway`. -/
def getIPv4Gateway (networkDevice : NetworkDeviceAddresses) (mem : Mem)
    (datagrams : List (List UInt8)) :
    Option (NetworkDeviceAddresses × Mem × List (List UInt8)) := do
  let (gateway, mem, datagrams) ← receiveLoop ioBuffer
    (routeMessage networkDevice.index storeIPv4Gateway) datagrams mem networkDevice.ipv4Gateway
  some ({ networkDevice with ipv4Gateway := gateway }, mem, datagrams)

/-- What `getIPv6Gateway` stores. -/
def storeIPv6Gateway (mem : Mem) (data size : Nat) (ipv6Gateway : IPv6Address) : IPv6Address :=
  { copyAddress mem data size ipv6Gateway with cidrSuffix := 0 }

/-- `f0185083_getIPv6Gateway`. -/
def getIPv6Gateway (networkDevice : NetworkDeviceAddresses) (mem : Mem)
    (datagrams : List (List UInt8)) :
    Option (NetworkDeviceAddresses × Mem × List (List UInt8)) := do
  let (gateway, mem, datagrams) ← receiveLoop ioBuffer
    (routeMessage networkDevice.index storeIPv6Gateway) datagrams mem networkDevice.ipv6Gateway
  some ({ networkDevice with ipv6Gateway := gateway }, mem, datagrams)

end

end Netlink

end DevopsBroker.Net
