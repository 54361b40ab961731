import DevopsBroker.Net.IPv6Address

/-!
# `net/networkdevice.c`: the gateways of a network device

`getIPv4Gateway` and `getIPv6Gateway` ask for all routes and read the answer, datagram by
datagram, until one starts with `NLMSG_DONE`. An attribute with a gateway is stored as soon as
it is found; an attribute with the index of an output device ends the route when the index is
the one of another device. A route that is complete ends the datagram.

Mirroring notes vs the C source:
- `NLMSG_NEXT` and `RTA_NEXT` walk over the messages of a datagram and the attributes of a
  message; here these are lists. A datagram has one message or more.
- `NLMSG_DONE` has four bytes behind its header, so that `RTM_PAYLOAD` of it is negative: it has
  no attributes. What is read as its `rtm_table` and `rtm_type` may be anything.
- `recvmsg` waits for the next datagram; here `none` is waiting for one that does not come.
- The two functions differ in how a gateway is stored: `IPv4` assigns a number, `IPv6` copies
  sixteen bytes and clears the suffix. They are one loop with the store as a parameter.
- `int outputDeviceIndex` is compared with a `uint32_t`, so that `-1` is `0xffffffff`.
- The request is sent and the socket is read; nothing of them is used here.
-/

namespace DevopsBroker.Net

/-- `NLMSG_DONE`. -/
def NLMSG_DONE : UInt16 := 3

/-- `RT_TABLE_MAIN`. -/
def RT_TABLE_MAIN : UInt8 := 254

/-- `RTN_UNICAST`. -/
def RTN_UNICAST : UInt8 := 1

/-- `NetlinkAttribute`, with the data of `RTA_GATEWAY` and `RTA_OIF`. -/
inductive NetlinkAttribute (α : Type) where
  | gateway (data : α)
  | oif (data : UInt32)
  | other (rta_type : UInt16)
deriving DecidableEq

/-- `NetlinkMessageHeader`, `NetlinkRouteMessage`, and the attributes behind them. -/
structure NetlinkMessage (α : Type) where
  nlmsg_type : UInt16
  rtm_table : UInt8
  rtm_type : UInt8
  attributes : List (NetlinkAttribute α)
deriving DecidableEq

/-- What `recvmsg` puts into `ioBuffer`. -/
structure Datagram (α : Type) where
  first : NetlinkMessage α
  more : List (NetlinkMessage α)

/-- All of it. -/
def Datagram.messages {α : Type} (datagram : Datagram α) : List (NetlinkMessage α) :=
  datagram.first :: datagram.more

/-- `struct NetworkDevice`. -/
structure NetworkDevice where
  ipv4Gateway : UInt32
  ipv6Gateway : IPv6Address
  index : UInt32
deriving DecidableEq

section

variable {α β : Type} (store : α → β) (index : UInt32)

/-- The gateway of the device, `foundGateway` and `outputDeviceIndex`. -/
structure GatewayState (β : Type) where
  gateway : β
  foundGateway : Bool
  outputDeviceIndex : UInt32

/-- `RTA_OK` and `RTA_NEXT`. -/
def attributeLoop : List (NetlinkAttribute α) → GatewayState β → GatewayState β
  | [], st => st
  | .gateway data :: nlAttributes, st =>
    attributeLoop nlAttributes { st with gateway := store data, foundGateway := true }
  | .oif data :: nlAttributes, st =>
    if data ≠ index then { st with outputDeviceIndex := data }
    else attributeLoop nlAttributes { st with outputDeviceIndex := data }
  | .other _ :: nlAttributes, st => attributeLoop nlAttributes st

/-- `NLMSG_OK` and `NLMSG_NEXT`. -/
def messageLoop : List (NetlinkMessage α) → β → β
  | [], gateway => gateway
  | message :: messages, gateway =>
    if message.rtm_table = RT_TABLE_MAIN ∧ message.rtm_type = RTN_UNICAST then
      let st := attributeLoop store index message.attributes
        { gateway := gateway, foundGateway := false, outputDeviceIndex := 0xffffffff }
      if st.foundGateway ∧ st.outputDeviceIndex = index then st.gateway
      else messageLoop messages st.gateway
    else messageLoop messages gateway

/-- `while (nlMsgHeader->nlmsg_type != NLMSG_DONE)`. -/
def datagramLoop : List (Datagram α) → β → Option β
  | [], _ => none
  | datagram :: datagrams, gateway =>
    if datagram.first.nlmsg_type = NLMSG_DONE then some gateway
    else datagramLoop datagrams (messageLoop store index datagram.messages gateway)

end

/-- `f0185083_getIPv4Gateway`. -/
def getIPv4Gateway (networkDevice : NetworkDevice) (datagrams : List (Datagram UInt32)) :
    Option NetworkDevice := do
  let gateway ← datagramLoop id networkDevice.index datagrams networkDevice.ipv4Gateway
  some { networkDevice with ipv4Gateway := gateway }

/-- `f668c4bd_memcopy` of sixteen bytes, and `cidrSuffix = 0`. -/
def storeIPv6 (data : UInt64 × UInt64) : IPv6Address :=
  { first := data.1, second := data.2, cidrSuffix := 0 }

/-- `f0185083_getIPv6Gateway`. -/
def getIPv6Gateway (networkDevice : NetworkDevice) (datagrams : List (Datagram (UInt64 × UInt64))) :
    Option NetworkDevice := do
  let gateway ← datagramLoop storeIPv6 networkDevice.index datagrams networkDevice.ipv6Gateway
  some { networkDevice with ipv6Gateway := gateway }

end DevopsBroker.Net
