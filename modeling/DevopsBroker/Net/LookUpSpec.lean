import DevopsBroker.Net.NetlinkSpec

/-!
# What the lookups leave in the device

`lastAddress` is the address of a device with some scope that is sent last; the addresses of the
device become the last ones that are sent, and the gateways what the loop over routes makes of them.
**`lookUps_eq`**: any lookups over one socket, in any order, read each its own answer, whatever the
ones before have left in the buffer.
-/

namespace DevopsBroker.Net

open DevopsBroker.Lib

/-- An `IPv6Address` whose bytes are these. -/
def addressOf (data : List UInt8) (cidrSuffix : UInt32) : IPv6Address where
  first := UInt64.ofNat (littleEndian (data.take 8))
  second := UInt64.ofNat (littleEndian (data.drop 8))
  cidrSuffix := cidrSuffix

namespace Netlink

/-- An attribute of this type has data of this length. -/
def Carries (rta_type : UInt16) (size : Nat) (nlAttribute : Attribute) : Prop :=
  nlAttribute.rta_type = rta_type → nlAttribute.data.length = size

instance (rta_type : UInt16) (size : Nat) (nlAttribute : Attribute) :
    Decidable (Carries rta_type size nlAttribute) :=
  inferInstanceAs (Decidable (_ → _))

/-! ## Addresses -/

/-- What a message says of an address. -/
structure InterfaceAddress where
  index : UInt32
  scope : UInt8
  prefixlen : UInt8
  data : List UInt8

/-- The address with the data of an attribute. -/
def AddressBody.address (body : AddressBody) (nlAttribute : Attribute) : InterfaceAddress where
  index := body.ifa_index
  scope := body.ifa_scope
  prefixlen := body.ifa_prefixlen
  data := nlAttribute.data

/-- The first attribute with an address counts. -/
def Message.address? (message : Message AddressBody) : Option InterfaceAddress :=
  match message.payload with
  | .body body attributes => (attributes.find? (·.rta_type = IFA_ADDRESS)).map body.address
  | .short _ _ => none

section

variable {σ : Type} {store : Mem → UInt8 → UInt8 → Nat → Nat → σ → Option σ}
  {put : InterfaceAddress → σ → Option σ} {size : Nat}

/-- What is stored is a matter of the address, and whether it is of its scope. -/
structure Stores (store : Mem → UInt8 → UInt8 → Nat → Nat → σ → Option σ)
    (put : InterfaceAddress → σ → Option σ) (size : Nat) : Prop where
  stored : ∀ mem data address s, address.data.length = size → bytesAt mem data size = address.data →
    store mem address.scope address.prefixlen data size s = put address s
  refused : ∀ address address' s s', address.scope = address'.scope →
    put address s = none → put address' s' = none

/-- One attribute, as it was sent. -/
def putAttribute (put : InterfaceAddress → σ → Option σ) (body : AddressBody)
    (nlAttribute : Attribute) (s : σ) : ForInStep σ :=
  if nlAttribute.rta_type = IFA_ADDRESS then
    match put (body.address nlAttribute) s with
    | some s => .done s
    | none => .yield s
  else .yield s

/-- What a message does. -/
def putMessage (put : InterfaceAddress → σ → Option σ) (index : UInt32) (s : σ)
    (message : Message AddressBody) : σ :=
  match message.address? with
  | some address => if address.index = index then (put address s).getD s else s
  | none => s

/-- The first address is the only one that may be stored. -/
theorem untilDone_putAttribute (hstores : Stores store put size) (body : AddressBody)
    (attributes : List Attribute) : ∀ s : σ,
    untilDone (putAttribute put body) attributes s =
      match attributes.find? (·.rta_type = IFA_ADDRESS) with
      | some nlAttribute => (put (body.address nlAttribute) s).getD s
      | none => s := by
  -- behind an address that is refused nothing is stored
  have hrefused (attributes : List Attribute) (address : InterfaceAddress) (s' : σ)
      (hscope : address.scope = body.ifa_scope) (h : put address s' = none) (s : σ) :
      untilDone (putAttribute put body) attributes s = s := by
    induction attributes with
    | nil => rfl
    | cons nlAttribute attributes ih =>
      have hstep : putAttribute put body nlAttribute s = .yield s := by
        rw [putAttribute, hstores.refused _ (body.address nlAttribute) s' s hscope h]
        exact ite_self _
      rw [untilDone_cons, hstep]
      exact ih
  induction attributes with
  | nil => exact fun _ => rfl
  | cons nlAttribute attributes ih =>
    intro s
    rw [untilDone_cons, putAttribute, List.find?_cons]
    by_cases htype : nlAttribute.rta_type = IFA_ADDRESS
    · rw [if_pos htype, decide_eq_true htype]
      dsimp only
      cases hput : put (body.address nlAttribute) s with
      | some s' => rfl
      | none => exact hrefused attributes (body.address nlAttribute) s rfl hput s
    · rw [if_neg htype, decide_eq_false htype]
      exact ih s

/-- The fields of the `struct` in memory. -/
theorem readAddressBody (body : AddressBody) (attributes : List Attribute) {mem : Mem} {address : Nat}
    (h : bytesAt mem address (Payload.body body attributes).bytes.length =
      (Payload.body body attributes).bytes) :
    ifa_prefixlen mem address = body.ifa_prefixlen ∧ ifa_scope mem address = body.ifa_scope ∧
      ifa_index mem address = body.ifa_index := by
  refine ⟨@byteAt_eq mem address _ [body.ifa_family] _ _ h,
    @byteAt_eq mem address _ [body.ifa_family, body.ifa_prefixlen, body.ifa_flags] _ _ h, ?_⟩
  have hindex := uint32At_eq h body.ifa_index.toNat_lt
  exact hindex.trans UInt32.ofNat_toNat

/-- **What is read of a message** is what was sent. -/
theorem addressMessage_eq (hstores : Stores store put size) (index : UInt32)
    (message : Message AddressBody) (hsound : IsSoundMessage (Carries IFA_ADDRESS size) message)
    (mem : Mem) (address : Nat) (s : σ)
    (h : bytesAt mem address message.bytes.length = message.bytes) :
    addressMessage index store mem address message.bytes.length s =
      .yield (putMessage put index s message) := by
  have hpayload := message.payload_eq h
  rw [addressMessage, Message.length_bytes, putMessage, Message.address?]
  cases hcase : message.payload with
  | short bytes hshort =>
    -- no room for an attribute, whatever is read as the index
    have hsize : bytes.length < 8 := hshort
    have hlen : IFA_PAYLOAD ((Payload.short bytes hshort).bytes.length + 16) < 0 := by
      change ((bytes.length + 16 : Nat) : Int) - 24 < 0
      omega
    dsimp only
    rw [RTA.forEach_none (by omega : _ < ((RTA.header : Nat) : Int))]
    exact ite_self _
  | body body attributes =>
    rw [hcase] at hpayload
    obtain ⟨hprefixlen, hscope, hindex⟩ := readAddressBody body attributes hpayload
    have hlen : IFA_PAYLOAD ((Payload.body body attributes).bytes.length + 16) =
        framedLength (attributes.map Attribute.bytes) := by
      change (((Payload.body body attributes).bytes.length + 16 : Nat) : Int) - 24 = _
      rw [length_body, show MessageBody.size AddressBody = 8 from rfl]
      omega
    have hattribute (nlAttribute : Attribute) (hmem : nlAttribute ∈ attributes) (p : Nat) (s : σ)
        (hp : bytesAt mem p nlAttribute.bytes.length = nlAttribute.bytes) :
        addressAttribute store mem (NLMSG_DATA address) p nlAttribute.bytes.length s =
          putAttribute put body nlAttribute s := by
      rw [addressAttribute, nlAttribute.rta_type_eq hp, putAttribute, hscope, hprefixlen,
        nlAttribute.rta_payload]
      split
      next htype =>
        have hdatalen : nlAttribute.data.length = size :=
          hsound nlAttribute (by rw [hcase]; exact hmem) htype
        have hread := nlAttribute.data_eq hp
        rw [hdatalen] at hread ⊢
        rw [← hstores.stored mem (RTA_DATA p) (body.address nlAttribute) s hdatalen hread]
        rfl
      next _ => rfl
    have hwalk : RTA.forEach mem (addressAttribute store mem (NLMSG_DATA address))
        (IFA_RTA (NLMSG_DATA address)) (framedLength (attributes.map Attribute.bytes)) s =
        untilDone (putAttribute put body) attributes s :=
      RTA.forEach_eq Attribute.bytes attributes (fun nlAttribute _ => nlAttribute.frames) hattribute
        (holdsAttributes hpayload) s
    dsimp only
    rw [hindex, hlen, hwalk, untilDone_putAttribute hstores]
    cases attributes.find? (·.rta_type = IFA_ADDRESS) with
    | none => exact ite_self _
    | some nlAttribute =>
      rw [Option.map_some]
      change _ = ForInStep.yield (if body.ifa_index = index then _ else s)
      split <;> rfl

end

/-- The address of a device with this scope. -/
def ownAddress (index : UInt32) (scope : UInt8) (message : Message AddressBody) :
    Option InterfaceAddress :=
  message.address?.filter fun address => address.index = index ∧ address.scope = scope

/-- The last of them. -/
def lastAddress (index : UInt32) (scope : UInt8) (messages : List (Message AddressBody)) :
    Option InterfaceAddress :=
  (messages.filterMap (ownAddress index scope)).getLast?

section

variable {σ γ : Type} {put : InterfaceAddress → σ → Option σ} {field : σ → γ}

/-- A field that an address with some scope overwrites. -/
theorem field_putMessage {overwrite : InterfaceAddress → γ → γ} {scope : UInt8} (index : UInt32)
    (hput : ∀ address s, field ((put address s).getD s) =
      if address.scope = scope then overwrite address (field s) else field s)
    (s : σ) (message : Message AddressBody) :
    field (putMessage put index s message) =
      (ownAddress index scope message).elim (field s) (overwrite · (field s)) := by
  rw [putMessage, ownAddress]
  cases message.address? with
  | none => rfl
  | some address =>
    rw [Option.filter_some]
    dsimp only
    by_cases hindex : address.index = index
    · rw [if_pos hindex, hput]
      by_cases hscope : address.scope = scope
      · rw [if_pos hscope, decide_eq_true ⟨hindex, hscope⟩]
        rfl
      · rw [if_neg hscope, decide_eq_false fun h => hscope h.2]
        rfl
    · rw [if_neg hindex, decide_eq_false fun h => hindex h.1]
      rfl

/-- In the end it has what the last of them puts there. -/
theorem field_foldl_putMessage {overwrite : InterfaceAddress → γ → γ} {scope : UInt8} (index : UInt32)
    (hput : ∀ address s, field ((put address s).getD s) =
      if address.scope = scope then overwrite address (field s) else field s)
    (hoverwrite : ∀ address address' value,
      overwrite address (overwrite address' value) = overwrite address value)
    (messages : List (Message AddressBody)) : ∀ s : σ,
    field (messages.foldl (putMessage put index) s) =
      (lastAddress index scope messages).elim (field s) (overwrite · (field s)) := by
  induction messages with
  | nil => exact fun _ => rfl
  | cons message messages ih =>
    intro s
    rw [List.foldl_cons, ih, field_putMessage index hput, lastAddress, lastAddress, List.filterMap_cons]
    cases ownAddress index scope message with
    | none => rfl
    | some address =>
      dsimp only
      rw [List.getLast?_cons]
      cases (messages.filterMap (ownAddress index scope)).getLast? with
      | none => rfl
      | some last => exact hoverwrite last address (field s)

/-- A field that no address changes. -/
theorem field_foldl_same (index : UInt32) (hput : ∀ address s, field ((put address s).getD s) = field s)
    (messages : List (Message AddressBody)) (s : σ) :
    field (messages.foldl (putMessage put index) s) = field s := by
  induction messages generalizing s with
  | nil => rfl
  | cons message messages ih =>
    have hstep : field (putMessage put index s message) = field s := by
      rw [putMessage]
      cases message.address? with
      | none => rfl
      | some address =>
        dsimp only
        split
        next _ => exact hput address s
        next _ => rfl
    rw [List.foldl_cons, ih, hstep]

end

theorem eq_of_fields {s s' : NetworkDeviceAddresses} (hdevice : s.toNetworkDevice = s'.toNetworkDevice)
    (haddress : s.ipv4Address = s'.ipv4Address) (hglobal : s.ipv6Global = s'.ipv6Global)
    (hlocal : s.ipv6Local = s'.ipv6Local) : s = s' := by
  obtain ⟨device, address, globalAddress, localAddress⟩ := s
  cases hdevice
  cases haddress
  cases hglobal
  cases hlocal
  rfl

/-! ### IPv4 -/

/-- `ipv4Address` with an address that was sent. -/
def InterfaceAddress.overIPv4 (address : InterfaceAddress) (ipv4Address : IPv4Address) : IPv4Address :=
  { ipv4Address with
    address := UInt32.ofNat (littleEndian address.data)
    cidrSuffix := address.prefixlen.toUInt32 }

def putIPv4 (address : InterfaceAddress) (networkDevice : NetworkDeviceAddresses) :
    Option NetworkDeviceAddresses :=
  if address.scope = RT_SCOPE_UNIVERSE then
    some { networkDevice with ipv4Address := address.overIPv4 networkDevice.ipv4Address }
  else none

theorem stores_storeIPv4Address : Stores storeIPv4Address putIPv4 4 where
  stored := by
    intro mem data address s _ hread
    rw [storeIPv4Address, putIPv4, InterfaceAddress.overIPv4, ← hread]
    rfl
  refused := by
    intro address address' s s' hscope h
    rw [putIPv4] at h ⊢
    rw [if_neg fun heq => by rw [if_pos (hscope.trans heq)] at h; cases h]

/-- **The address that `getIPv4Address` leaves.** -/
def ipv4AddressAfter (messages : List (Message AddressBody)) (networkDevice : NetworkDeviceAddresses) :
    NetworkDeviceAddresses :=
  { networkDevice with
    ipv4Address := (lastAddress networkDevice.index RT_SCOPE_UNIVERSE messages).elim
      networkDevice.ipv4Address (·.overIPv4 networkDevice.ipv4Address) }

theorem foldl_putIPv4 (messages : List (Message AddressBody)) (networkDevice : NetworkDeviceAddresses) :
    messages.foldl (putMessage putIPv4 networkDevice.index) networkDevice =
      ipv4AddressAfter messages networkDevice := by
  have hput (address : InterfaceAddress) (s : NetworkDeviceAddresses) :
      (putIPv4 address s).getD s = { s with
        ipv4Address := if address.scope = RT_SCOPE_UNIVERSE then address.overIPv4 s.ipv4Address
          else s.ipv4Address } := by
    rw [putIPv4]
    split <;> rfl
  have haddress := @field_foldl_putMessage _ _ putIPv4 NetworkDeviceAddresses.ipv4Address
    InterfaceAddress.overIPv4 RT_SCOPE_UNIVERSE networkDevice.index
    (fun address s => by rw [hput]) (fun _ _ _ => rfl) messages networkDevice
  have hrest := @field_foldl_same _ _ putIPv4 (fun s => (s.toNetworkDevice, s.ipv6Global, s.ipv6Local))
    networkDevice.index (fun address s => by rw [hput]) messages networkDevice
  exact eq_of_fields (congrArg Prod.fst hrest) haddress
    (congrArg (fun rest => rest.2.1) hrest) (congrArg (fun rest => rest.2.2) hrest)

/-! ### IPv6 -/

/-- The address that was sent. -/
def InterfaceAddress.toIPv6 (address : InterfaceAddress) : IPv6Address :=
  addressOf address.data address.prefixlen.toUInt32

def putIPv6 (address : InterfaceAddress) (networkDevice : NetworkDeviceAddresses) :
    Option NetworkDeviceAddresses :=
  if address.scope = RT_SCOPE_UNIVERSE then
    some { networkDevice with ipv6Global := address.toIPv6 }
  else if address.scope = RT_SCOPE_LINK then
    some { networkDevice with ipv6Local := address.toIPv6 }
  else none

/-- A payload of sixteen bytes leaves nothing of what was there. -/
theorem copyAddress_eq {mem : Mem} {data : Nat} {bytes : List UInt8} (hlength : bytes.length = 16)
    (h : bytesAt mem data 16 = bytes) (ipv6Address : IPv6Address) (cidrSuffix : UInt32) :
    { copyAddress mem data 16 ipv6Address with cidrSuffix := cidrSuffix } =
      addressOf bytes cidrSuffix := by
  have htake (rest : List UInt8) : (bytes ++ rest).take 16 = bytes := by
    rw [← hlength, List.take_left]
  rw [copyAddress, addressOf, h]
  simp only [htake]

theorem stores_storeIPv6Address : Stores storeIPv6Address putIPv6 16 where
  stored := by
    intro mem data address s hlength hread
    rw [storeIPv6Address, putIPv6, InterfaceAddress.toIPv6, copyAddress_eq hlength hread,
      copyAddress_eq hlength hread]
  refused := by
    intro address address' s s' hscope h
    rw [putIPv6, ← hscope]
    rw [putIPv6] at h
    split at h
    next _ => cases h
    next hglobal =>
      split at h
      next _ => cases h
      next hlocal => rw [if_neg hglobal, if_neg hlocal]

/-- **The addresses that `getIPv6Addresses` leaves.** -/
def ipv6AddressesAfter (messages : List (Message AddressBody)) (networkDevice : NetworkDeviceAddresses) :
    NetworkDeviceAddresses :=
  { networkDevice with
    ipv6Global := (lastAddress networkDevice.index RT_SCOPE_UNIVERSE messages).elim
      networkDevice.ipv6Global InterfaceAddress.toIPv6
    ipv6Local := (lastAddress networkDevice.index RT_SCOPE_LINK messages).elim
      networkDevice.ipv6Local InterfaceAddress.toIPv6 }

theorem foldl_putIPv6 (messages : List (Message AddressBody)) (networkDevice : NetworkDeviceAddresses) :
    messages.foldl (putMessage putIPv6 networkDevice.index) networkDevice =
      ipv6AddressesAfter messages networkDevice := by
  have hput (address : InterfaceAddress) (s : NetworkDeviceAddresses) :
      (putIPv6 address s).getD s = { s with
        ipv6Global := if address.scope = RT_SCOPE_UNIVERSE then address.toIPv6 else s.ipv6Global
        ipv6Local := if address.scope = RT_SCOPE_LINK then address.toIPv6 else s.ipv6Local } := by
    rw [putIPv6]
    by_cases hscope : address.scope = RT_SCOPE_UNIVERSE
    · rw [if_pos hscope, if_pos hscope, if_neg (by rw [hscope]; decide)]
      rfl
    · rw [if_neg hscope, if_neg hscope]
      split <;> rfl
  have hglobal := @field_foldl_putMessage _ _ putIPv6 NetworkDeviceAddresses.ipv6Global
    (fun address _ => address.toIPv6) RT_SCOPE_UNIVERSE networkDevice.index
    (fun address s => by rw [hput]) (fun _ _ _ => rfl) messages networkDevice
  have hlocal := @field_foldl_putMessage _ _ putIPv6 NetworkDeviceAddresses.ipv6Local
    (fun address _ => address.toIPv6) RT_SCOPE_LINK networkDevice.index
    (fun address s => by rw [hput]) (fun _ _ _ => rfl) messages networkDevice
  have hrest := @field_foldl_same _ _ putIPv6 (fun s => (s.toNetworkDevice, s.ipv4Address))
    networkDevice.index (fun address s => by rw [hput]) messages networkDevice
  exact eq_of_fields (congrArg Prod.fst hrest) (congrArg Prod.snd hrest)
    hglobal hlocal

/-! ## Gateways -/

section

variable {α β : Type} (value : List UInt8 → α)

/-- An attribute, as the loop over routes has it. -/
def Attribute.ofRoute (nlAttribute : Attribute) : NetlinkAttribute α :=
  if nlAttribute.rta_type = RTA_GATEWAY then .gateway (value nlAttribute.data)
  else if nlAttribute.rta_type = RTA_OIF then .oif (UInt32.ofNat (littleEndian nlAttribute.data))
  else .other nlAttribute.rta_type

/-- A message. One that is too short has no attributes, and nothing more is asked of it. -/
def Message.ofRoute (message : Message RouteBody) : NetlinkMessage α :=
  match message.payload with
  | .body body attributes =>
    { nlmsg_type := message.nlmsg_type
      rtm_table := body.rtm_table
      rtm_type := body.rtm_type
      attributes := attributes.map (Attribute.ofRoute value) }
  | .short _ _ =>
    { nlmsg_type := message.nlmsg_type, rtm_table := 0, rtm_type := 0, attributes := [] }

/-- A datagram. -/
def Sent.ofRoutes (sent : Sent RouteBody) : Datagram α where
  first := sent.first.ofRoute value
  more := sent.more.map (Message.ofRoute value)

/-- What the attributes of a route have to carry. -/
def CarriesRoute (size : Nat) (nlAttribute : Attribute) : Prop :=
  Carries RTA_GATEWAY size nlAttribute ∧ Carries RTA_OIF 4 nlAttribute

/-- One attribute of the loop over routes. -/
def putRouteAttribute (store : α → β) (index : UInt32) (nlAttribute : Attribute)
    (st : GatewayState β) : ForInStep (GatewayState β) :=
  match nlAttribute.ofRoute value with
  | .gateway data => .yield { st with gateway := store data, foundGateway := true }
  | .oif data =>
    if data ≠ index then .done { st with outputDeviceIndex := data }
    else .yield { st with outputDeviceIndex := data }
  | .other _ => .yield st

theorem untilDone_putRouteAttribute (store : α → β) (index : UInt32) (attributes : List Attribute) :
    ∀ st : GatewayState β,
      untilDone (putRouteAttribute value store index) attributes st =
        attributeLoop store index (attributes.map (Attribute.ofRoute value)) st := by
  induction attributes with
  | nil => exact fun _ => rfl
  | cons nlAttribute attributes ih =>
    intro st
    rw [untilDone_cons, putRouteAttribute, List.map_cons]
    cases nlAttribute.ofRoute value with
    | gateway data => exact ih _
    | oif data =>
      dsimp only
      rw [attributeLoop]
      by_cases hindex : data ≠ index
      · rw [if_pos hindex, if_pos hindex]
      · rw [if_neg hindex, if_neg hindex]
        exact ih _
    | other rta_type => exact ih _

/-- One message of it. -/
def putRoute (store : α → β) (index : UInt32) (message : Message RouteBody) (gateway : β) :
    ForInStep β :=
  let route := message.ofRoute value
  if route.rtm_table = RT_TABLE_MAIN ∧ route.rtm_type = RTN_UNICAST then
    let st := attributeLoop store index route.attributes
      { gateway := gateway, foundGateway := false, outputDeviceIndex := 0xffffffff }
    if st.foundGateway ∧ st.outputDeviceIndex = index then .done st.gateway else .yield st.gateway
  else .yield gateway

theorem untilDone_putRoute (store : α → β) (index : UInt32) (messages : List (Message RouteBody)) :
    ∀ gateway : β, untilDone (putRoute value store index) messages gateway =
      messageLoop store index (messages.map (Message.ofRoute value)) gateway := by
  induction messages with
  | nil => exact fun _ => rfl
  | cons message messages ih =>
    intro gateway
    rw [untilDone_cons, putRoute, List.map_cons, messageLoop]
    dsimp only
    by_cases hmain : (message.ofRoute value).rtm_table = RT_TABLE_MAIN ∧
        (message.ofRoute value).rtm_type = RTN_UNICAST
    · rw [if_pos hmain, if_pos hmain]
      generalize attributeLoop store index _ _ = st
      by_cases hends : st.foundGateway ∧ st.outputDeviceIndex = index
      · rw [if_pos hends, if_pos hends]
      · rw [if_neg hends, if_neg hends]
        exact ih _
    · rw [if_neg hmain, if_neg hmain]
      exact ih _

/-- The datagrams of an answer are those of the loop over routes. -/
theorem datagramLoop_ofRoutes (store : α → β) (index : UInt32) {iov_len : Nat}
    {IsSound : Attribute → Prop} (answer : Answer RouteBody iov_len IsSound) (gateway : β) :
    datagramLoop store index ((answer.datagrams ++ [answer.done]).map (Sent.ofRoutes value)) gateway =
      some (answer.datagrams.foldl
        (fun gateway sent => untilDone (putRoute value store index) sent.messages gateway)
        gateway) := by
  have htype (message : Message RouteBody) :
      (message.ofRoute value).nlmsg_type = message.nlmsg_type := by
    rw [Message.ofRoute]
    cases message.payload <;> rfl
  obtain ⟨datagrams, done, goesOn, ends, fits, sound⟩ := answer
  dsimp only
  clear fits sound
  induction datagrams generalizing gateway with
  | nil => exact if_pos ((htype done.first).trans ends)
  | cons sent datagrams ih =>
    obtain ⟨hgoesOn, goesOn⟩ := List.forall_mem_cons.mp goesOn
    have hfirst : (sent.ofRoutes value).first.nlmsg_type ≠ NLMSG_DONE :=
      (htype sent.first).symm ▸ hgoesOn
    have hmessages : (sent.ofRoutes value).messages = sent.messages.map (Message.ofRoute value) := rfl
    rw [List.cons_append, List.map_cons, datagramLoop, if_neg hfirst, hmessages, ← untilDone_putRoute]
    exact ih _ goesOn

variable {value} {storeAt : Mem → Nat → Nat → β → β} {store : α → β} {size : Nat}

/-- What is stored is the value of the gateway, whatever was there. -/
def StoresGateway (storeAt : Mem → Nat → Nat → β → β) (store : α → β) (value : List UInt8 → α)
    (size : Nat) : Prop :=
  ∀ mem data bytes gateway, bytes.length = size → bytesAt mem data size = bytes →
    storeAt mem data size gateway = store (value bytes)

/-- The fields of the `struct` in memory. -/
theorem readRouteBody (body : RouteBody) (attributes : List Attribute) {mem : Mem} {address : Nat}
    (h : bytesAt mem address (Payload.body body attributes).bytes.length =
      (Payload.body body attributes).bytes) :
    rtm_table mem address = body.rtm_table ∧ rtm_type mem address = body.rtm_type :=
  ⟨@byteAt_eq mem address _
      [body.rtm_family, body.rtm_dst_len, body.rtm_src_len, body.rtm_tos] _ _ h,
    @byteAt_eq mem address _ [body.rtm_family, body.rtm_dst_len, body.rtm_src_len, body.rtm_tos,
      body.rtm_table, body.rtm_protocol, body.rtm_scope] _ _ h⟩

/-- **What is read of an attribute** of a route is what was sent. -/
theorem routeAttribute_eq
    (hstores : StoresGateway storeAt store value size) (index : UInt32) {nlAttribute : Attribute} (hsound : CarriesRoute size nlAttribute) {mem : Mem}
    {p : Nat} (st : GatewayState β)
    (hp : bytesAt mem p nlAttribute.bytes.length = nlAttribute.bytes) :
    routeAttribute index storeAt mem p nlAttribute.bytes.length st =
      putRouteAttribute value store index nlAttribute st := by
  have hread := nlAttribute.data_eq hp
  rw [routeAttribute, nlAttribute.rta_type_eq hp, nlAttribute.rta_payload, putRouteAttribute,
    Attribute.ofRoute]
  by_cases hgateway : nlAttribute.rta_type = RTA_GATEWAY
  · have hlength := hsound.1 hgateway
    rw [hlength] at hread ⊢
    rw [if_pos hgateway, if_pos hgateway, hstores mem _ _ st.gateway hlength hread]
  · rw [if_neg hgateway, if_neg hgateway]
    by_cases hoif : nlAttribute.rta_type = RTA_OIF
    · rw [hsound.2 hoif] at hread
      rw [if_pos hoif, if_pos hoif, uint32At, hread]
    · rw [if_neg hoif, if_neg hoif]

/-- **What is read of a message** with a route is what was sent. -/
theorem routeMessage_eq
    (hstores : StoresGateway storeAt store value size) (index : UInt32) (message : Message RouteBody)
    (hsound : IsSoundMessage (CarriesRoute size) message) (mem : Mem) (address : Nat) (gateway : β)
    (h : bytesAt mem address message.bytes.length = message.bytes) :
    routeMessage index storeAt mem address message.bytes.length gateway =
      putRoute value store index message gateway := by
  have hpayload := message.payload_eq h
  rw [routeMessage, Message.length_bytes, putRoute, Message.ofRoute]
  cases hcase : message.payload with
  | short bytes hshort =>
    -- no room for an attribute, and without one there is no gateway
    have hsize : bytes.length < 12 := hshort
    have hlen : RTM_PAYLOAD ((Payload.short bytes hshort).bytes.length + 16) < 0 := by
      change ((bytes.length + 16 : Nat) : Int) - 28 < 0
      omega
    dsimp only
    rw [RTA.forEach_none (by omega : _ < ((RTA.header : Nat) : Int)), attributeLoop]
    simp only [Bool.false_eq_true, false_and, if_false, ite_self]
  | body body attributes =>
    rw [hcase] at hpayload
    obtain ⟨htable, htype⟩ := readRouteBody body attributes hpayload
    have hlen : RTM_PAYLOAD ((Payload.body body attributes).bytes.length + 16) =
        framedLength (attributes.map Attribute.bytes) := by
      change (((Payload.body body attributes).bytes.length + 16 : Nat) : Int) - 28 = _
      rw [length_body, show MessageBody.size RouteBody = 12 from rfl]
      omega
    have hattribute (nlAttribute : Attribute) (hmem : nlAttribute ∈ attributes) (p : Nat)
        (st : GatewayState β) (hp : bytesAt mem p nlAttribute.bytes.length = nlAttribute.bytes) :
        routeAttribute index storeAt mem p nlAttribute.bytes.length st =
          putRouteAttribute value store index nlAttribute st :=
      routeAttribute_eq hstores index (hsound nlAttribute (by rw [hcase]; exact hmem)) st hp
    have hwalk (st : GatewayState β) : RTA.forEach mem (routeAttribute index storeAt mem)
        (RTM_RTA (NLMSG_DATA address)) (framedLength (attributes.map Attribute.bytes)) st =
        attributeLoop store index (attributes.map (Attribute.ofRoute value)) st := by
      rw [← untilDone_putRouteAttribute]
      exact RTA.forEach_eq Attribute.bytes attributes (fun nlAttribute _ => nlAttribute.frames)
        hattribute (holdsAttributes hpayload) st
    dsimp only
    rw [htable, htype, hlen, hwalk]

end

/-! ## All lookups -/

/-- The value of an IPv4 gateway. -/
def ipv4Value (data : List UInt8) : UInt32 := UInt32.ofNat (littleEndian data)

/-- The value of an IPv6 gateway. -/
def ipv6Value (data : List UInt8) : UInt64 × UInt64 :=
  (UInt64.ofNat (littleEndian (data.take 8)), UInt64.ofNat (littleEndian (data.drop 8)))

theorem storesGateway_ipv4 : StoresGateway storeIPv4Gateway id ipv4Value 4 := by
  intro mem data bytes gateway _ hread
  rw [storeIPv4Gateway, uint32At, hread]
  rfl

theorem storesGateway_ipv6 : StoresGateway storeIPv6Gateway storeIPv6 ipv6Value 16 :=
  fun _ _ _ gateway hlength hread => copyAddress_eq hlength hread gateway 0

/-- A lookup, and what the kernel answers. -/
inductive LookUp (iov_len : Nat) where
  | ipv4Address (answer : Answer AddressBody iov_len (Carries IFA_ADDRESS 4))
  | ipv6Addresses (answer : Answer AddressBody iov_len (Carries IFA_ADDRESS 16))
  | ipv4Gateway (answer : Answer RouteBody iov_len (CarriesRoute 4))
  | ipv6Gateway (answer : Answer RouteBody iov_len (CarriesRoute 16))

/-- The messages in front of `NLMSG_DONE`. -/
def Answer.messages {B : Type} [MessageBody B] {iov_len : Nat} {IsSound : Attribute → Prop}
    (answer : Answer B iov_len IsSound) : List (Message B) :=
  answer.datagrams.flatMap Sent.messages

/-- The answer as the loop over routes has it. -/
def Answer.ofRoutes {iov_len : Nat} {IsSound : Attribute → Prop} {α : Type}
    (value : List UInt8 → α) (answer : Answer RouteBody iov_len IsSound) : List (Datagram α) :=
  (answer.datagrams ++ [answer.done]).map (Sent.ofRoutes value)

/-- The datagrams of the answer. -/
def LookUp.datagrams {iov_len : Nat} : LookUp iov_len → List (List UInt8)
  | .ipv4Address answer => answer.bytes
  | .ipv6Addresses answer => answer.bytes
  | .ipv4Gateway answer => answer.bytes
  | .ipv6Gateway answer => answer.bytes

/-- The function that is called. -/
def LookUp.call {iov_len : Nat} (ioBuffer : IOBuffer) (lookUp : LookUp iov_len) :
    NetworkDeviceAddresses → Mem → List (List UInt8) →
      Option (NetworkDeviceAddresses × Mem × List (List UInt8)) :=
  match lookUp with
  | .ipv4Address _ => getIPv4Address ioBuffer
  | .ipv6Addresses _ => getIPv6Addresses ioBuffer
  | .ipv4Gateway _ => getIPv4Gateway ioBuffer
  | .ipv6Gateway _ => getIPv6Gateway ioBuffer

/-- What the answer means for the device. -/
def LookUp.meaning {iov_len : Nat} (networkDevice : NetworkDeviceAddresses) :
    LookUp iov_len → Option NetworkDeviceAddresses
  | .ipv4Address answer => some (ipv4AddressAfter answer.messages networkDevice)
  | .ipv6Addresses answer => some (ipv6AddressesAfter answer.messages networkDevice)
  | .ipv4Gateway answer => do
    let found ← Net.getIPv4Gateway networkDevice.toNetworkDevice (answer.ofRoutes ipv4Value)
    some { networkDevice with toNetworkDevice := found }
  | .ipv6Gateway answer => do
    let found ← Net.getIPv6Gateway networkDevice.toNetworkDevice (answer.ofRoutes ipv6Value)
    some { networkDevice with toNetworkDevice := found }

/-- One lookup after the other, over one socket and one buffer. -/
def lookUpAll {iov_len : Nat} (ioBuffer : IOBuffer) :
    List (LookUp iov_len) → NetworkDeviceAddresses → Mem → List (List UInt8) →
      Option (NetworkDeviceAddresses × Mem × List (List UInt8))
  | [], networkDevice, mem, datagrams => some (networkDevice, mem, datagrams)
  | lookUp :: lookUps, networkDevice, mem, datagrams => do
    let (networkDevice, mem, datagrams) ← lookUp.call ioBuffer networkDevice mem datagrams
    lookUpAll ioBuffer lookUps networkDevice mem datagrams

section

variable {ioBuffer : IOBuffer} (hlt : ioBuffer.iov_len < 2 ^ 32)
include hlt

/-- One lookup of addresses. -/
theorem addresses_eq {store : Mem → UInt8 → UInt8 → Nat → Nat → NetworkDeviceAddresses →
      Option NetworkDeviceAddresses}
    {put : InterfaceAddress → NetworkDeviceAddresses → Option NetworkDeviceAddresses} {size : Nat}
    (hstores : Stores store put size) (index : UInt32)
    (answer : Answer AddressBody ioBuffer.iov_len (Carries IFA_ADDRESS size))
    (later : List (List UInt8)) (mem : Mem) (networkDevice : NetworkDeviceAddresses) :
    ∃ mem', receiveLoop ioBuffer (addressMessage index store) (answer.bytes ++ later) mem
        networkDevice =
      some (answer.messages.foldl (putMessage put index) networkDevice, mem', later) := by
  obtain ⟨mem', hrun⟩ := receiveLoop_eq ioBuffer hlt
    (fun message hsound => addressMessage_eq hstores index message hsound) answer later mem
    networkDevice
  refine ⟨mem', hrun.trans ?_⟩
  simp only [untilDone_yield, Answer.messages, List.foldl_flatMap]

/-- One lookup of a gateway. -/
theorem gateway_eq {α β : Type} {storeAt : Mem → Nat → Nat → β → β} {store : α → β}
    {value : List UInt8 → α} {size : Nat}
    (hstores : StoresGateway storeAt store value size) (index : UInt32) (answer : Answer RouteBody ioBuffer.iov_len (CarriesRoute size))
    (later : List (List UInt8)) (mem : Mem) (gateway : β) :
    ∃ gateway' mem', datagramLoop store index (answer.ofRoutes value) gateway = some gateway' ∧
      receiveLoop ioBuffer (routeMessage index storeAt) (answer.bytes ++ later) mem gateway =
        some (gateway', mem', later) := by
  obtain ⟨mem', hrun⟩ := receiveLoop_eq ioBuffer hlt
    (fun message hsound => routeMessage_eq hstores index message hsound) answer later mem gateway
  exact ⟨_, mem', datagramLoop_ofRoutes value store index answer gateway, hrun⟩

/-- **A lookup** reads its answer, and the answer does what it means. -/
theorem LookUp.call_eq (lookUp : LookUp ioBuffer.iov_len) (networkDevice : NetworkDeviceAddresses)
    (mem : Mem) (later : List (List UInt8)) :
    ∃ networkDevice' mem', lookUp.meaning networkDevice = some networkDevice' ∧
      lookUp.call ioBuffer networkDevice mem (lookUp.datagrams ++ later) =
        some (networkDevice', mem', later) := by
  cases lookUp with
  | ipv4Address answer =>
    obtain ⟨mem', hrun⟩ := addresses_eq hlt stores_storeIPv4Address networkDevice.index answer later mem
      networkDevice
    rw [foldl_putIPv4] at hrun
    exact ⟨_, mem', rfl, hrun⟩
  | ipv6Addresses answer =>
    obtain ⟨mem', hrun⟩ := addresses_eq hlt stores_storeIPv6Address networkDevice.index answer later mem
      networkDevice
    rw [foldl_putIPv6] at hrun
    exact ⟨_, mem', rfl, hrun⟩
  | ipv4Gateway answer =>
    obtain ⟨gateway', mem', hmeaning, hrun⟩ := gateway_eq hlt storesGateway_ipv4 networkDevice.index
      answer later mem networkDevice.ipv4Gateway
    refine ⟨{ networkDevice with ipv4Gateway := gateway' }, mem', ?_, ?_⟩
    · rw [meaning, Net.getIPv4Gateway, hmeaning]
      rfl
    · exact congrArg (Option.bind · _) hrun
  | ipv6Gateway answer =>
    obtain ⟨gateway', mem', hmeaning, hrun⟩ := gateway_eq hlt storesGateway_ipv6 networkDevice.index
      answer later mem networkDevice.ipv6Gateway
    refine ⟨{ networkDevice with ipv6Gateway := gateway' }, mem', ?_, ?_⟩
    · rw [meaning, Net.getIPv6Gateway, hmeaning]
      rfl
    · exact congrArg (Option.bind · _) hrun

/-- **Lookups over one socket.** Each reads its own answer, whatever the ones before have left in the
buffer, and what follows the last answer stays in the socket. -/
theorem lookUps_eq (lookUps : List (LookUp ioBuffer.iov_len)) (networkDevice : NetworkDeviceAddresses)
    (mem : Mem) (later : List (List UInt8)) :
    ∃ networkDevice' mem', lookUps.foldlM LookUp.meaning networkDevice = some networkDevice' ∧
      lookUpAll ioBuffer lookUps networkDevice mem (lookUps.flatMap LookUp.datagrams ++ later) =
        some (networkDevice', mem', later) := by
  induction lookUps generalizing networkDevice mem with
  | nil => exact ⟨networkDevice, mem, rfl, rfl⟩
  | cons lookUp lookUps ih =>
    obtain ⟨first, mem₁, hmeaning, hcall⟩ := lookUp.call_eq hlt networkDevice mem
      (lookUps.flatMap LookUp.datagrams ++ later)
    obtain ⟨last, mem₂, hmeanings, hrun⟩ := ih first mem₁
    refine ⟨last, mem₂, ?_, ?_⟩
    · rw [List.foldlM_cons, hmeaning]
      exact hmeanings
    · rw [List.flatMap_cons, List.append_assoc, lookUpAll, hcall]
      exact hrun

end

/-- `192.168.1.7/24` on the device `2`, behind the address of another device. -/
def twoDevices : Answer AddressBody NETLINK_BUF_SIZE (Carries IFA_ADDRESS 4) where
  datagrams := [
    { first :=
        { nlmsg_type := 20, nlmsg_flags := 2, nlmsg_seq := 0, nlmsg_pid := 0
          payload := .body
            { ifa_family := 2, ifa_prefixlen := 8, ifa_flags := 128, ifa_scope := 254, ifa_index := 1 }
            [{ rta_type := IFA_ADDRESS, data := [127, 0, 0, 1], fits := by decide }] }
      more := [
        { nlmsg_type := 20, nlmsg_flags := 2, nlmsg_seq := 0, nlmsg_pid := 0
          payload := .body
            { ifa_family := 2, ifa_prefixlen := 24, ifa_flags := 128, ifa_scope := RT_SCOPE_UNIVERSE
              ifa_index := 2 }
            [{ rta_type := IFA_ADDRESS, data := [192, 168, 1, 7], fits := by decide },
              { rta_type := 3, data := [101, 116, 104, 48, 0], fits := by decide }] }] }]
  done :=
    { first :=
        { nlmsg_type := NLMSG_DONE, nlmsg_flags := 2, nlmsg_seq := 0, nlmsg_pid := 0
          payload := .short [0, 0, 0, 0] (by decide) }
      more := [] }
  goesOn := by decide
  ends := rfl
  fits := by decide +kernel
  sound := by decide

/-- A device that nothing is known of but its index. -/
def secondDevice : NetworkDeviceAddresses where
  ipv4Gateway := 0
  ipv6Gateway := { first := 0, second := 0, cidrSuffix := 0 }
  index := 2
  ipv4Address := { address := 0, cidrSuffix := 0, subnetMask := 0, routingPrefix := 0 }
  ipv6Global := { first := 0, second := 0, cidrSuffix := 0 }
  ipv6Local := { first := 0, second := 0, cidrSuffix := 0 }

theorem lookUps_eq_twoDevices : ∃ mem',
    lookUpAll { iov_base := 4096, iov_len := NETLINK_BUF_SIZE } [.ipv4Address twoDevices] secondDevice
      (fun _ => 0xFF) (twoDevices.bytes ++ [[1]]) =
    some ({ secondDevice with
      ipv4Address := { address := 0x0701A8C0, cidrSuffix := 24, subnetMask := 0, routingPrefix := 0 } },
      mem', [[1]]) := by
  obtain ⟨networkDevice', mem', hmeaning, hrun⟩ :=
    @lookUps_eq { iov_base := 4096, iov_len := NETLINK_BUF_SIZE } (by decide)
      [.ipv4Address twoDevices] secondDevice (fun _ => 0xFF) [[1]]
  cases hmeaning
  exact ⟨mem', hrun⟩

end Netlink

end DevopsBroker.Net
