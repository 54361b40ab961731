import DevopsBroker.Net.NetworkDevice

/-!
# Whose gateway it is

A gateway is stored before the route is known to be one of the device. `storedBy` is what a
route leaves behind, `readOf` are the messages of a datagram that are read, and the last of
what these leave behind is the gateway in the end. **`getGateway_iff`**: it is one of the device
when the last route that leaves something behind is, or when it happens to be the same. The
call returns when `NLMSG_DONE` is alone in its datagram.
-/

namespace DevopsBroker.Net

section

variable {α β : Type} (store : α → β) (index : UInt32)

/-! ## One route -/

/-- The data of `RTA_GATEWAY`. -/
def NetlinkAttribute.gateway? : NetlinkAttribute α → Option α
  | .gateway data => some data
  | .oif _ => none
  | .other _ => none

/-- The data of `RTA_OIF`. -/
def NetlinkAttribute.oif? : NetlinkAttribute α → Option UInt32
  | .gateway _ => none
  | .oif data => some data
  | .other _ => none

/-- The output devices. -/
def outputDevices (nlAttributes : List (NetlinkAttribute α)) : List UInt32 :=
  nlAttributes.filterMap NetlinkAttribute.oif?

/-- The gateways in front of an output device that is another one. -/
def gatewaysIn (nlAttributes : List (NetlinkAttribute α)) : List α :=
  (nlAttributes.takeWhile fun nlAttribute => nlAttribute.oif?.all (· = index)).filterMap
    NetlinkAttribute.gateway?

theorem gatewaysIn_gateway (data : α) (nlAttributes : List (NetlinkAttribute α)) :
    gatewaysIn index (.gateway data :: nlAttributes) = data :: gatewaysIn index nlAttributes := rfl

theorem gatewaysIn_other (rta_type : UInt16) (nlAttributes : List (NetlinkAttribute α)) :
    gatewaysIn index (.other rta_type :: nlAttributes) = gatewaysIn index nlAttributes := rfl

theorem gatewaysIn_oif (data : UInt32) (nlAttributes : List (NetlinkAttribute α)) :
    gatewaysIn index (.oif data :: nlAttributes) =
      if data = index then gatewaysIn index nlAttributes else [] := by
  have hall : (NetlinkAttribute.oif data : NetlinkAttribute α).oif?.all (· = index) =
    decide (data = index) := rfl
  rw [gatewaysIn, List.takeWhile_cons, hall]
  by_cases h : data = index
  · rw [decide_eq_true h, if_pos h]
    rfl
  · rw [decide_eq_false h, if_neg h]
    rfl

/-- **What the attributes of a route do.** -/
theorem attributeLoop_eq (nlAttributes : List (NetlinkAttribute α)) : ∀ st : GatewayState β,
    (attributeLoop store index nlAttributes st).gateway =
        ((gatewaysIn index nlAttributes).getLast?.map store).getD st.gateway ∧
      ((attributeLoop store index nlAttributes st).foundGateway ↔
        st.foundGateway ∨ gatewaysIn index nlAttributes ≠ []) ∧
      ((attributeLoop store index nlAttributes st).outputDeviceIndex = index ↔
        (∀ device ∈ outputDevices nlAttributes, device = index) ∧
          (st.outputDeviceIndex = index ∨ index ∈ outputDevices nlAttributes)) := by
  induction nlAttributes with
  | nil =>
    intro st
    simp [attributeLoop, gatewaysIn, outputDevices]
  | cons nlAttribute nlAttributes ih =>
    intro st
    cases nlAttribute with
    | gateway data =>
      obtain ⟨hgateway, hfound, hdevice⟩ :=
        ih { st with gateway := store data, foundGateway := true }
      rw [attributeLoop, gatewaysIn_gateway]
      refine ⟨?_, ?_, hdevice⟩
      · rw [hgateway, List.getLast?_cons]
        cases (gatewaysIn index nlAttributes).getLast? <;> rfl
      · rw [hfound]
        simp
    | oif data =>
      have hdevices : outputDevices (.oif data :: nlAttributes) =
        data :: outputDevices nlAttributes := rfl
      rw [attributeLoop, gatewaysIn_oif, hdevices, List.forall_mem_cons, List.mem_cons]
      by_cases hindex : data = index
      · obtain ⟨hgateway, hfound, hdevice⟩ := ih { st with outputDeviceIndex := data }
        rw [if_neg (not_not.mpr hindex), if_pos hindex]
        refine ⟨hgateway, hfound, ?_⟩
        rw [hdevice]
        simp [hindex]
      · rw [if_pos hindex, if_neg hindex]
        simp [hindex]
    | other rta_type =>
      rw [attributeLoop, gatewaysIn_other]
      exact ih st

/-- A unicast route of the main table. -/
def IsMainUnicast (message : NetlinkMessage α) : Prop :=
  message.rtm_table = RT_TABLE_MAIN ∧ message.rtm_type = RTN_UNICAST

instance (message : NetlinkMessage α) : Decidable (IsMainUnicast message) :=
  inferInstanceAs (Decidable (_ ∧ _))

/-- What a message leaves behind as the gateway. -/
def storedBy (message : NetlinkMessage α) : Option α :=
  if IsMainUnicast message then (gatewaysIn index message.attributes).getLast? else none

/-- A route with a gateway and no output device but this one ends the datagram. It needs no output
device when the index of the device is `-1`. -/
def EndsDatagram (message : NetlinkMessage α) : Prop :=
  IsMainUnicast message ∧ gatewaysIn index message.attributes ≠ [] ∧
    (∀ device ∈ outputDevices message.attributes, device = index) ∧
    (0xffffffff = index ∨ index ∈ outputDevices message.attributes)

instance (message : NetlinkMessage α) : Decidable (EndsDatagram index message) :=
  inferInstanceAs (Decidable (_ ∧ _ ∧ _ ∧ _))

/-- The messages of a datagram that are read. -/
def readOf : List (NetlinkMessage α) → List (NetlinkMessage α)
  | [] => []
  | message :: messages =>
    if EndsDatagram index message then [message] else message :: readOf messages

/-! ## All routes -/

/-- The last gateway that messages leave behind. -/
def lastStored (messages : List (NetlinkMessage α)) : Option α :=
  (messages.filterMap (storedBy index)).getLast?

theorem lastStored_cons (message : NetlinkMessage α) (messages : List (NetlinkMessage α)) :
    lastStored index (message :: messages) =
      (lastStored index messages).or (storedBy index message) := by
  unfold lastStored
  rw [← List.singleton_append, List.filterMap_append, List.getLast?_append]
  congr 1
  rw [List.filterMap_cons]
  cases storedBy index message <;> rfl

theorem lastStored_append (messages messages' : List (NetlinkMessage α)) :
    lastStored index (messages ++ messages') =
      (lastStored index messages').or (lastStored index messages) := by
  rw [lastStored, List.filterMap_append, List.getLast?_append]
  rfl

/-- It is the one of the last message that leaves one behind. -/
theorem lastStored_eq_some {messages : List (NetlinkMessage α)} {data : α} :
    lastStored index messages = some data ↔
      ∃ before message after, messages = before ++ message :: after ∧
        storedBy index message = some data ∧ ∀ later ∈ after, storedBy index later = none := by
  have hnone {messages : List (NetlinkMessage α)} :
      lastStored index messages = none ↔ ∀ later ∈ messages, storedBy index later = none := by
    rw [lastStored, List.getLast?_eq_none_iff, List.filterMap_eq_nil_iff]
  constructor
  · intro h
    induction messages with
    | nil => cases h
    | cons message messages ih =>
      rw [lastStored_cons] at h
      cases hlast : lastStored index messages with
      | some data' =>
        rw [hlast] at h
        cases h
        obtain ⟨before, last, after, rfl, hstored, hafter⟩ := ih hlast
        exact ⟨message :: before, last, after, rfl, hstored, hafter⟩
      | none =>
        rw [hlast] at h
        exact ⟨[], message, messages, rfl, h, hnone.mp hlast⟩
  · rintro ⟨before, message, after, rfl, hstored, hafter⟩
    rw [lastStored_append, lastStored_cons, hnone.mpr hafter, hstored]
    rfl

/-- The gateway behind what is stored. -/
def gatewayAfter (stored : Option α) (gateway : β) : β := (stored.map store).getD gateway

theorem gatewayAfter_or (stored stored' : Option α) (gateway : β) :
    gatewayAfter store (stored'.or stored) gateway =
      gatewayAfter store stored' (gatewayAfter store stored gateway) := by
  cases stored' <;> rfl

/-- **What a datagram leaves behind.** -/
theorem messageLoop_eq (messages : List (NetlinkMessage α)) : ∀ gateway : β,
    messageLoop store index messages gateway =
      gatewayAfter store (lastStored index (readOf index messages)) gateway := by
  induction messages with
  | nil => exact fun _ => rfl
  | cons message messages ih =>
    intro gateway
    rw [messageLoop, readOf]
    have hspec := attributeLoop_eq store index message.attributes
      { gateway := gateway, foundGateway := false, outputDeviceIndex := 0xffffffff }
    generalize attributeLoop store index message.attributes _ = st at hspec ⊢
    obtain ⟨hgateway, hfound, hdevice⟩ := hspec
    by_cases hmain : message.rtm_table = RT_TABLE_MAIN ∧ message.rtm_type = RTN_UNICAST
    · have hends : st.foundGateway ∧ st.outputDeviceIndex = index ↔ EndsDatagram index message := by
        rw [hfound, hdevice]
        simp [EndsDatagram, IsMainUnicast, hmain]
      have hstored : gatewayAfter store (storedBy index message) gateway = st.gateway := by
        rw [hgateway, storedBy, if_pos (show IsMainUnicast message from hmain)]
        rfl
      rw [if_pos hmain]
      simp only [hends, ← hstored]
      split
      next _ => rw [lastStored_cons]; rfl
      next _ => rw [lastStored_cons, gatewayAfter_or, ih]
    · have hends : ¬ EndsDatagram index message := fun h => hmain h.1
      have hstored : storedBy index message = none := if_neg hmain
      rw [if_neg hmain, if_neg hends, lastStored_cons, hstored, Option.or_none, ih]

/-- **What all datagrams leave behind**, up to the one that ends the answer. -/
theorem datagramLoop_eq (datagrams : List (Datagram α)) (done : Datagram α)
    (hdone : done.first.nlmsg_type = NLMSG_DONE)
    (h : ∀ datagram ∈ datagrams, datagram.first.nlmsg_type ≠ NLMSG_DONE) : ∀ gateway : β,
    datagramLoop store index (datagrams ++ [done]) gateway =
      some (gatewayAfter store
        (lastStored index (datagrams.flatMap fun datagram => readOf index datagram.messages)) gateway) := by
  induction datagrams with
  | nil =>
    intro gateway
    exact if_pos hdone
  | cons datagram datagrams ih =>
    intro gateway
    obtain ⟨hfirst, hrest⟩ := List.forall_mem_cons.mp h
    rw [List.cons_append, datagramLoop, if_neg hfirst, messageLoop_eq, ih hrest, List.flatMap_cons,
      lastStored_append, gatewayAfter_or]

/-- Without such a datagram the call waits for it. -/
theorem datagramLoop_eq_none (datagrams : List (Datagram α))
    (h : ∀ datagram ∈ datagrams, datagram.first.nlmsg_type ≠ NLMSG_DONE) : ∀ gateway : β,
    datagramLoop store index datagrams gateway = none := by
  induction datagrams with
  | nil => exact fun _ => rfl
  | cons datagram datagrams ih =>
    intro gateway
    obtain ⟨hfirst, hrest⟩ := List.forall_mem_cons.mp h
    rw [datagramLoop, if_neg hfirst]
    exact ih hrest _

/-! ## The gateway of the device -/

/-- The messages of an answer. -/
def messagesOf (datagrams : List (Datagram α)) : List (NetlinkMessage α) :=
  datagrams.flatMap Datagram.messages

/-- An answer: routes, and `NLMSG_DONE`. -/
def IsAnswer (datagrams : List (Datagram α)) : Prop :=
  ∃ routes done, messagesOf datagrams = routes ++ [done] ∧
    (∀ route ∈ routes, route.nlmsg_type ≠ NLMSG_DONE) ∧
    done.nlmsg_type = NLMSG_DONE ∧ done.attributes = []

/-- The gateway of a unicast route of the main table with this output device. -/
def IsGateway (messages : List (NetlinkMessage α)) (data : α) : Prop :=
  ∃ message ∈ messages, IsMainUnicast message ∧ .gateway data ∈ message.attributes ∧
    .oif index ∈ message.attributes

/-- The gateway that was there, or one of the device. -/
def IsRightGateway (datagrams : List (Datagram α)) (gateway gateway' : β) : Prop :=
  gateway' = gateway ∨ ∃ data, IsGateway index (messagesOf datagrams) data ∧ gateway' = store data

/-- `NLMSG_DONE` is alone in its datagram, and the last of the routes that are read and leave a
gateway behind has this output device, or its gateway happens to be right. -/
def LastIsOwn (datagrams : List (Datagram α)) (gateway : β) : Prop :=
  (∃ datagram ∈ datagrams, datagram.first.nlmsg_type = NLMSG_DONE) ∧
    ∀ before message after data,
      (datagrams.flatMap fun datagram => readOf index datagram.messages) =
        before ++ message :: after →
      storedBy index message = some data → (∀ later ∈ after, storedBy index later = none) →
      .oif index ∈ message.attributes ∨ IsRightGateway store index datagrams gateway (store data)

/-- What is read of a datagram is in it. -/
theorem mem_of_mem_readOf {messages : List (NetlinkMessage α)} {message : NetlinkMessage α} :
    message ∈ readOf index messages → message ∈ messages := by
  induction messages with
  | nil => exact id
  | cons first messages ih =>
    intro h
    rw [readOf] at h
    split at h
    next _ => exact List.mem_cons.mpr (Or.inl (List.mem_singleton.mp h))
    next _ => exact List.mem_cons.mpr ((List.mem_cons.mp h).imp_right ih)

/-- What a route leaves behind is one of its gateways. -/
theorem mem_of_storedBy {message : NetlinkMessage α} {data : α}
    (h : storedBy index message = some data) :
    IsMainUnicast message ∧ .gateway data ∈ message.attributes := by
  unfold storedBy at h
  split at h
  next hmain =>
    obtain ⟨nlAttribute, hmem, hgateway⟩ := List.mem_filterMap.mp (List.mem_of_getLast? h)
    have hmem := (List.takeWhile_sublist _).mem hmem
    cases nlAttribute with
    | gateway data' => cases hgateway; exact ⟨hmain, hmem⟩
    | oif _ => cases hgateway
    | other _ => cases hgateway
  next _ => cases h

/-- Where `NLMSG_DONE` is first in a datagram, it is alone there, and nothing follows. -/
theorem IsAnswer.alone {datagrams : List (Datagram α)} (h : IsAnswer datagrams)
    {datagram : Datagram α} (hmem : datagram ∈ datagrams)
    (hdone : datagram.first.nlmsg_type = NLMSG_DONE) :
    ∃ before, datagrams = before ++ [datagram] ∧ datagram.more = [] ∧
      datagram.first.attributes = [] ∧
      ∀ earlier ∈ before, earlier.first.nlmsg_type ≠ NLMSG_DONE := by
  obtain ⟨routes, done, hmessages, hroutes, _, hattributes⟩ := h
  obtain ⟨before, after, rfl⟩ := List.append_of_mem hmem
  have hsplit : messagesOf (before ++ datagram :: after) =
      messagesOf before ++ datagram.first :: (datagram.more ++ messagesOf after) := by
    simp [messagesOf, Datagram.messages]
  -- a message of this type is the last one
  have hlast : routes = messagesOf before ∧ done = datagram.first ∧
      datagram.more ++ messagesOf after = [] := by
    rw [hsplit] at hmessages
    rcases List.append_eq_append_iff.mp hmessages with ⟨rest, hbefore, hrest⟩ | ⟨rest, hbefore, hrest⟩
    · cases rest with
      | nil =>
        obtain ⟨hfirst, hmore⟩ := List.cons.inj hrest
        exact ⟨hbefore.trans (List.append_nil _), hfirst.symm, hmore⟩
      | cons route rest =>
        obtain ⟨hfirst, _⟩ := List.cons.inj hrest
        refine absurd hdone (hroutes _ ?_)
        rw [hbefore, hfirst]
        exact List.mem_append_right _ List.mem_cons_self
    · cases rest with
      | nil =>
        obtain ⟨hfirst, hmore⟩ := List.cons.inj hrest
        exact ⟨(hbefore.trans (List.append_nil _)).symm, hfirst, hmore.symm⟩
      | cons message rest =>
        have hlength := congrArg List.length hrest
        simp at hlength
  obtain ⟨rfl, rfl, hnil⟩ := hlast
  obtain ⟨hmore, hafter⟩ := List.append_eq_nil_iff.mp hnil
  have hafter : after = [] := by
    cases after with
    | nil => rfl
    | cons later after => cases hafter
  rw [hafter]
  refine ⟨before, rfl, hmore, hattributes, fun earlier hearlier => hroutes _ ?_⟩
  exact List.mem_flatMap.mpr ⟨earlier, hearlier, List.mem_cons_self⟩

/-- **When the gateway is right.** -/
theorem datagramLoop_iff {datagrams : List (Datagram α)} (h : IsAnswer datagrams) (gateway : β) :
    (∃ gateway', datagramLoop store index datagrams gateway = some gateway' ∧
        IsRightGateway store index datagrams gateway gateway') ↔
      LastIsOwn store index datagrams gateway := by
  by_cases hreturns : ∃ datagram ∈ datagrams, datagram.first.nlmsg_type = NLMSG_DONE
  · obtain ⟨done, hmem, hdone⟩ := hreturns
    obtain ⟨before, hbefore, hmore, hattributes, hearlier⟩ := h.alone hmem hdone
    have hread : readOf index done.messages = [done.first] := by
      rw [Datagram.messages, hmore, readOf]
      split <;> rfl
    have hstored : storedBy index done.first = none := by
      rw [storedBy, hattributes]
      split <;> rfl
    have hlast : lastStored index (datagrams.flatMap fun datagram => readOf index datagram.messages) =
        lastStored index (before.flatMap fun datagram => readOf index datagram.messages) := by
      rw [hbefore, List.flatMap_append, List.flatMap_singleton, hread, lastStored_append,
        lastStored_cons, hstored]
      rfl
    have hrun : datagramLoop store index datagrams gateway = some (gatewayAfter store
        (lastStored index (datagrams.flatMap fun datagram => readOf index datagram.messages))
        gateway) := by
      rw [hlast, hbefore]
      exact datagramLoop_eq store index before done hdone hearlier gateway
    rw [hrun]
    constructor
    · rintro ⟨gateway', hgateway', hright⟩
      refine ⟨⟨done, hmem, hdone⟩, fun early message late data hsplit hdata hlate => Or.inr ?_⟩
      rw [(lastStored_eq_some index).mpr ⟨early, message, late, hsplit, hdata, hlate⟩] at hgateway'
      cases hgateway'
      exact hright
    · rintro ⟨_, hown⟩
      refine ⟨_, rfl, ?_⟩
      cases hdata : lastStored index (datagrams.flatMap fun datagram =>
          readOf index datagram.messages) with
      | none => exact Or.inl rfl
      | some data =>
        obtain ⟨early, message, late, hsplit, hmessage, hlate⟩ := (lastStored_eq_some index).mp hdata
        rcases hown early message late data hsplit hmessage hlate with hdevice | hright
        · obtain ⟨hmain, hgateway⟩ := mem_of_storedBy index hmessage
          have hmember : message ∈ datagrams.flatMap fun datagram => readOf index datagram.messages := by
            rw [hsplit]
            exact List.mem_append_right _ List.mem_cons_self
          obtain ⟨datagram, hdatagram, hmessage⟩ := List.mem_flatMap.mp hmember
          exact Or.inr ⟨data, ⟨message, List.mem_flatMap.mpr
            ⟨datagram, hdatagram, mem_of_mem_readOf index hmessage⟩, hmain, hgateway, hdevice⟩, rfl⟩
        · exact hright
  · have hnone := datagramLoop_eq_none store index datagrams
      (fun datagram hmem hdone => hreturns ⟨datagram, hmem, hdone⟩) gateway
    rw [hnone]
    constructor
    · rintro ⟨_, hrun, _⟩
      cases hrun
    · exact fun hown => absurd hown.1 hreturns

end

/-- What is said of a gateway that is stored in a device. -/
theorem exists_stored_iff {β : Type} {gateway : Option β} {store : β → NetworkDevice}
    {stored : NetworkDevice → β} (hstored : ∀ g, stored (store g) = g) {P : β → Prop} :
    (∃ networkDevice', (gateway.bind fun g => some (store g)) = some networkDevice' ∧
        P (stored networkDevice')) ↔ ∃ g, gateway = some g ∧ P g := by
  constructor
  · rintro ⟨networkDevice', hrun, hholds⟩
    obtain ⟨g, hgateway, hdevice⟩ := Option.bind_eq_some_iff.mp hrun
    cases hdevice
    rw [hstored] at hholds
    exact ⟨g, hgateway, hholds⟩
  · rintro ⟨g, hgateway, hholds⟩
    refine ⟨store g, Option.bind_eq_some_iff.mpr ⟨g, hgateway, rfl⟩, ?_⟩
    rw [hstored]
    exact hholds

/-- **Whose gateway the device has in the end**, for either family. -/
theorem getGateway_iff (networkDevice : NetworkDevice) {ipv4 : List (Datagram UInt32)}
    {ipv6 : List (Datagram (UInt64 × UInt64))} (hipv4 : IsAnswer ipv4) (hipv6 : IsAnswer ipv6) :
    ((∃ networkDevice', getIPv4Gateway networkDevice ipv4 = some networkDevice' ∧
        IsRightGateway id networkDevice.index ipv4 networkDevice.ipv4Gateway
          networkDevice'.ipv4Gateway) ↔
      LastIsOwn id networkDevice.index ipv4 networkDevice.ipv4Gateway) ∧
    ((∃ networkDevice', getIPv6Gateway networkDevice ipv6 = some networkDevice' ∧
        IsRightGateway storeIPv6 networkDevice.index ipv6 networkDevice.ipv6Gateway
          networkDevice'.ipv6Gateway) ↔
      LastIsOwn storeIPv6 networkDevice.index ipv6 networkDevice.ipv6Gateway) := by
  rw [← datagramLoop_iff id networkDevice.index hipv4 networkDevice.ipv4Gateway,
    ← datagramLoop_iff storeIPv6 networkDevice.index hipv6 networkDevice.ipv6Gateway]
  exact ⟨@exists_stored_iff _ _ _ NetworkDevice.ipv4Gateway (fun _ => rfl) _,
    @exists_stored_iff _ _ _ NetworkDevice.ipv6Gateway (fun _ => rfl) _⟩

/-- An answer with one route, and `NLMSG_DONE` by itself. -/
def oneRoute {α : Type} (attributes : List (NetlinkAttribute α)) : List (Datagram α) :=
  [⟨⟨24, RT_TABLE_MAIN, RTN_UNICAST, attributes⟩, []⟩, ⟨⟨NLMSG_DONE, 0, 0, []⟩, []⟩]

theorem isAnswer_oneRoute {α : Type} (attributes : List (NetlinkAttribute α)) :
    IsAnswer (oneRoute attributes) :=
  ⟨[⟨24, RT_TABLE_MAIN, RTN_UNICAST, attributes⟩], ⟨NLMSG_DONE, 0, 0, []⟩, rfl,
    List.forall_mem_singleton.mpr (by decide : (24 : UInt16) ≠ NLMSG_DONE), rfl, rfl⟩

/-- `192.168.1.1` and `fe80::1` on device 2. -/
theorem getGateway_iff_ownRoute :
    let ipv4 : List (Datagram UInt32) := oneRoute [.gateway 0x0101A8C0, .oif 2]
    let ipv6 : List (Datagram (UInt64 × UInt64)) :=
      oneRoute [.oif 2, .gateway (0x80fe, 0x0100000000000000)]
    let networkDevice : NetworkDevice := ⟨0, ⟨0, 0, 0⟩, 2⟩
    ((∃ networkDevice', getIPv4Gateway networkDevice ipv4 = some networkDevice' ∧
        IsRightGateway id networkDevice.index ipv4 networkDevice.ipv4Gateway
          networkDevice'.ipv4Gateway) ↔
      LastIsOwn id networkDevice.index ipv4 networkDevice.ipv4Gateway) ∧
    ((∃ networkDevice', getIPv6Gateway networkDevice ipv6 = some networkDevice' ∧
        IsRightGateway storeIPv6 networkDevice.index ipv6 networkDevice.ipv6Gateway
          networkDevice'.ipv6Gateway) ↔
      LastIsOwn storeIPv6 networkDevice.index ipv6 networkDevice.ipv6Gateway) :=
  getGateway_iff ⟨0, ⟨0, 0, 0⟩, 2⟩ (isAnswer_oneRoute _) (isAnswer_oneRoute _)

/-- **The route of another device**: `192.168.2.1` on device 3 becomes the gateway of device 2. -/
theorem getIPv4Gateway_otherDevice :
    ¬ ∀ (networkDevice networkDevice' : NetworkDevice) (datagrams : List (Datagram UInt32)),
      IsAnswer datagrams → getIPv4Gateway networkDevice datagrams = some networkDevice' →
      IsRightGateway id networkDevice.index datagrams networkDevice.ipv4Gateway
        networkDevice'.ipv4Gateway := by
  intro h
  rcases h ⟨0, ⟨0, 0, 0⟩, 2⟩ ⟨0x0102A8C0, ⟨0, 0, 0⟩, 2⟩ (oneRoute [.gateway 0x0102A8C0, .oif 3])
    (isAnswer_oneRoute _) (by decide) with hsame | ⟨data, ⟨message, hmessage, _, _, hdevice⟩, _⟩
  · exact absurd hsame (by decide)
  · have hforeign : ∀ message ∈ messagesOf (oneRoute [.gateway (0x0102A8C0 : UInt32), .oif 3]),
        .oif 2 ∉ message.attributes := by
      decide
    exact hforeign message hmessage hdevice

end DevopsBroker.Net
