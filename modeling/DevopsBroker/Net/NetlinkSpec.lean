import Mathlib.Algebra.Order.BigOperators.Group.List
import DevopsBroker.Lib.Trace
import DevopsBroker.Net.Netlink
import DevopsBroker.Net.NetworkDeviceSpec

/-!
# Lookups over one socket

A `Message` is one of netlink, with attributes behind the `struct` of its kind; an `Answer` is what
the kernel sends: datagrams of messages, and one that starts with `NLMSG_DONE`. The walk over the
bytes of a datagram visits the messages and the attributes that are in it (`receiveLoop_eq`), so
that what is stored is a matter of these. An `Answer` ends with a datagram of its own for
`NLMSG_DONE`: where this stands behind other messages of a datagram, the loops receive once more.
-/

namespace DevopsBroker.Net.Netlink

open DevopsBroker.Lib

/-! ## What a message has in it -/

/-- The `struct` between the header of a message and its attributes. -/
class MessageBody (B : Type) where
  size : Nat
  bytes : B → List UInt8
  length_bytes : ∀ body, (bytes body).length = size

/-- `NetlinkAddressMessage`. -/
structure AddressBody where
  ifa_family : UInt8
  ifa_prefixlen : UInt8
  ifa_flags : UInt8
  ifa_scope : UInt8
  ifa_index : UInt32

instance : MessageBody AddressBody where
  size := 8
  bytes body := [body.ifa_family, body.ifa_prefixlen, body.ifa_flags, body.ifa_scope] ++
    charsOf 4 body.ifa_index.toNat
  length_bytes _ := by rw [List.length_append, charsOf_length]; rfl

/-- `NetlinkRouteMessage`. -/
structure RouteBody where
  rtm_family : UInt8
  rtm_dst_len : UInt8
  rtm_src_len : UInt8
  rtm_tos : UInt8
  rtm_table : UInt8
  rtm_protocol : UInt8
  rtm_scope : UInt8
  rtm_type : UInt8
  rtm_flags : UInt32

instance : MessageBody RouteBody where
  size := 12
  bytes body := [body.rtm_family, body.rtm_dst_len, body.rtm_src_len, body.rtm_tos, body.rtm_table,
    body.rtm_protocol, body.rtm_scope, body.rtm_type] ++ charsOf 4 body.rtm_flags.toNat
  length_bytes _ := by rw [List.length_append, charsOf_length]; rfl

/-- `struct rtattr` and its data. -/
structure Attribute where
  rta_type : UInt16
  data : List UInt8
  fits : data.length + 4 < 2 ^ 16

def Attribute.bytes (nlAttribute : Attribute) : List UInt8 :=
  charsOf 2 (nlAttribute.data.length + 4) ++ charsOf 2 nlAttribute.rta_type.toNat ++ nlAttribute.data

theorem Attribute.length_bytes (nlAttribute : Attribute) :
    nlAttribute.bytes.length = nlAttribute.data.length + 4 := by
  rw [bytes, List.length_append, List.length_append, charsOf_length, charsOf_length]
  omega

section

variable {B : Type} [MessageBody B]

/-- What is behind the header. A message of another kind, such as `NLMSG_DONE`, may be too short for
the `struct`. -/
inductive Payload (B : Type) [MessageBody B] where
  | body (body : B) (attributes : List Attribute)
  | short (bytes : List UInt8) (h : bytes.length < MessageBody.size B)

/-- The attributes as they are sent. -/
def attributeBytes (attributes : List Attribute) : List UInt8 :=
  (attributes.map Attribute.bytes).flatMap padded

theorem length_attributeBytes (attributes : List Attribute) :
    (attributeBytes attributes).length = framedLength (attributes.map Attribute.bytes) :=
  length_flatMap_padded _

def Payload.bytes : Payload B → List UInt8
  | .body b attributes => MessageBody.bytes b ++ attributeBytes attributes
  | .short bytes _ => bytes

def Payload.attributes : Payload B → List Attribute
  | .body _ attributes => attributes
  | .short _ _ => []

/-- `struct nlmsghdr` and what is behind it. -/
structure Message (B : Type) [MessageBody B] where
  nlmsg_type : UInt16
  nlmsg_flags : UInt16
  nlmsg_seq : UInt32
  nlmsg_pid : UInt32
  payload : Payload B

def Message.bytes (message : Message B) : List UInt8 :=
  charsOf 4 (message.payload.bytes.length + 16) ++ charsOf 2 message.nlmsg_type.toNat ++
    (charsOf 2 message.nlmsg_flags.toNat ++ charsOf 4 message.nlmsg_seq.toNat ++
      charsOf 4 message.nlmsg_pid.toNat ++ message.payload.bytes)

theorem Message.length_bytes (message : Message B) :
    message.bytes.length = message.payload.bytes.length + 16 := by
  simp only [bytes, List.length_append, charsOf_length]
  omega

/-- What `recvmsg` puts into `ioBuffer`, as messages. -/
structure Sent (B : Type) [MessageBody B] where
  first : Message B
  more : List (Message B)

def Sent.messages (sent : Sent B) : List (Message B) := sent.first :: sent.more

def Sent.bytes (sent : Sent B) : List UInt8 := (sent.messages.map Message.bytes).flatMap padded

/-- What the kernel answers. Each datagram fits into the buffer, and what an attribute carries has
the length that its type asks for. -/
structure Answer (B : Type) [MessageBody B] (iov_len : Nat) (IsSound : Attribute → Prop) where
  datagrams : List (Sent B)
  done : Sent B
  goesOn : ∀ sent ∈ datagrams, sent.first.nlmsg_type ≠ NLMSG_DONE
  ends : done.first.nlmsg_type = NLMSG_DONE
  fits : ∀ sent ∈ datagrams ++ [done], sent.bytes.length ≤ iov_len
  sound : ∀ sent ∈ datagrams, ∀ message ∈ sent.messages,
    ∀ nlAttribute ∈ message.payload.attributes, IsSound nlAttribute

def Answer.bytes {iov_len : Nat} {IsSound : Attribute → Prop} (answer : Answer B iov_len IsSound) :
    List (List UInt8) :=
  (answer.datagrams ++ [answer.done]).map Sent.bytes

/-! ## Reading it -/

theorem byteAt_eq {mem : Mem} {p n : Nat} {before after : List UInt8} {b : UInt8}
    (h : bytesAt mem p n = before ++ [b] ++ after) : mem (p + before.length) = b := by
  have hpart := bytesAt_of_append h
  exact (List.cons.inj hpart).1

theorem uint16At_eq {mem : Mem} {p n x : Nat} {before after : List UInt8}
    (h : bytesAt mem p n = before ++ charsOf 2 x ++ after) (hx : x < 256 ^ 2) :
    uint16At mem (p + before.length) = UInt16.ofNat x := by
  have hpart := bytesAt_of_append h
  rw [charsOf_length] at hpart
  rw [uint16At, hpart, littleEndian_charsOf 2 hx]

theorem uint32At_eq {mem : Mem} {p n x : Nat} {before after : List UInt8}
    (h : bytesAt mem p n = before ++ charsOf 4 x ++ after) (hx : x < 256 ^ 4) :
    uint32At mem (p + before.length) = UInt32.ofNat x := by
  have hpart := bytesAt_of_append h
  rw [charsOf_length] at hpart
  rw [uint32At, hpart, littleEndian_charsOf 4 hx]

/-- An attribute says how long it is. -/
theorem Attribute.frames (nlAttribute : Attribute) : RTA.Frames nlAttribute.bytes := by
  refine ⟨by rw [length_bytes]; exact Nat.le_add_left 4 _, fun mem address h => ?_⟩
  have hlt := nlAttribute.fits
  have hread := @uint16At_eq mem address _ _ [] _
    (by rw [List.nil_append, ← List.append_assoc]; exact h) hlt
  rw [List.length_nil, Nat.add_zero] at hread
  change (uint16At mem address).toNat = _
  rw [hread, UInt16.toNat_ofNat', Nat.mod_eq_of_lt hlt, length_bytes]

theorem Attribute.rta_type_eq (nlAttribute : Attribute) {mem : Mem} {address : Nat}
    (h : bytesAt mem address nlAttribute.bytes.length = nlAttribute.bytes) :
    Netlink.rta_type mem address = nlAttribute.rta_type := by
  have hread := uint16At_eq h nlAttribute.rta_type.toNat_lt
  rw [charsOf_length] at hread
  exact hread.trans UInt16.ofNat_toNat

theorem Attribute.data_eq (nlAttribute : Attribute) {mem : Mem} {address : Nat}
    (h : bytesAt mem address nlAttribute.bytes.length = nlAttribute.bytes) :
    bytesAt mem (RTA_DATA address) nlAttribute.data.length = nlAttribute.data := by
  have hpart := @bytesAt_of_append mem address _ _ nlAttribute.data []
    (h.trans (List.append_nil _).symm)
  rwa [List.length_append, charsOf_length, charsOf_length] at hpart

theorem Attribute.rta_payload (nlAttribute : Attribute) :
    RTA_PAYLOAD nlAttribute.bytes.length = nlAttribute.data.length := by
  rw [length_bytes, RTA_PAYLOAD, Nat.add_sub_cancel]

/-- A message says how long it is. -/
theorem Message.frames {message : Message B} (hlt : message.bytes.length < 2 ^ 32) :
    NLMSG.Frames message.bytes := by
  refine ⟨by rw [length_bytes]; exact Nat.le_add_left 16 _, fun mem address h => ?_⟩
  rw [length_bytes] at hlt
  have hread := @uint32At_eq mem address _ _ [] _
    (by rw [List.nil_append, ← List.append_assoc]; exact h) hlt
  rw [List.length_nil, Nat.add_zero] at hread
  change (uint32At mem address).toNat = _
  rw [hread, UInt32.toNat_ofNat', Nat.mod_eq_of_lt hlt, length_bytes]

theorem Message.nlmsg_type_eq (message : Message B) {mem : Mem} {address : Nat}
    (h : bytesAt mem address message.bytes.length = message.bytes) :
    Netlink.nlmsg_type mem address = message.nlmsg_type := by
  have hread := uint16At_eq h message.nlmsg_type.toNat_lt
  rw [charsOf_length] at hread
  exact hread.trans UInt16.ofNat_toNat

theorem Message.payload_eq (message : Message B) {mem : Mem} {address : Nat}
    (h : bytesAt mem address message.bytes.length = message.bytes) :
    bytesAt mem (NLMSG_DATA address) message.payload.bytes.length = message.payload.bytes := by
  rw [bytes, ← List.append_assoc] at h
  have hpart := @bytesAt_of_append mem address _ _ message.payload.bytes []
    (h.trans (List.append_nil _).symm)
  simp only [List.length_append, charsOf_length] at hpart
  exact hpart

/-- The attributes of a message are records behind its `struct`. -/
theorem holdsAttributes {mem : Mem} {address : Nat} {body : B} {attributes : List Attribute}
    (h : bytesAt mem address (Payload.body body attributes).bytes.length =
      (Payload.body body attributes).bytes) :
    HoldsRecords mem (address + MessageBody.size B) (attributes.map Attribute.bytes) := by
  refine holdsRecords_of_padded _ ?_
  have hpart := @bytesAt_of_append mem address _ _ (attributeBytes attributes) []
    (h.trans (List.append_nil _).symm)
  rwa [MessageBody.length_bytes, length_attributeBytes] at hpart

theorem length_body (body : B) (attributes : List Attribute) :
    (Payload.body body attributes).bytes.length =
      MessageBody.size B + framedLength (attributes.map Attribute.bytes) := by
  rw [Payload.bytes, List.length_append, MessageBody.length_bytes, length_attributeBytes]

/-! ## The datagrams of an answer -/

/-- A message of a datagram is not longer than it. -/
theorem Sent.length_le {sent : Sent B} {message : Message B} (h : message ∈ sent.messages) :
    message.bytes.length ≤ sent.bytes.length := by
  have hmem : alignUp message.bytes.length ∈
      (sent.messages.map Message.bytes).map fun record => alignUp record.length :=
    List.mem_map.mpr ⟨_, List.mem_map_of_mem h, rfl⟩
  calc message.bytes.length ≤ alignUp message.bytes.length := le_alignUp _
    _ ≤ framedLength (sent.messages.map Message.bytes) := List.le_sum_of_mem hmem
    _ = sent.bytes.length := (length_flatMap_padded _).symm

variable (ioBuffer : IOBuffer)

/-- A datagram that fits is in the buffer. -/
theorem receiveMessage_eq {sent : Sent B} (hfits : sent.bytes.length ≤ ioBuffer.iov_len) (mem : Mem) :
    receiveMessage ioBuffer mem sent.bytes =
      ((sent.bytes.length : Int), storeBytes mem ioBuffer.iov_base sent.bytes) := by
  rw [receiveMessage, List.take_of_length_le hfits]

theorem holdsMessages (sent : Sent B) (mem : Mem) :
    HoldsRecords (storeBytes mem ioBuffer.iov_base sent.bytes) ioBuffer.iov_base
      (sent.messages.map Message.bytes) := by
  refine holdsRecords_of_padded _ ?_
  rw [← length_flatMap_padded]
  exact bytesAt_storeBytes_self mem ioBuffer.iov_base sent.bytes

theorem nlmsg_type_first (sent : Sent B) (mem : Mem) :
    Netlink.nlmsg_type (storeBytes mem ioBuffer.iov_base sent.bytes) ioBuffer.iov_base =
      sent.first.nlmsg_type :=
  sent.first.nlmsg_type_eq (holdsMessages ioBuffer sent mem).1

variable {σ : Type} {iov_len : Nat} {IsSound : Attribute → Prop}

/-- What is asked of the messages of an answer. -/
def IsSoundMessage (IsSound : Attribute → Prop) (message : Message B) : Prop :=
  ∀ nlAttribute ∈ message.payload.attributes, IsSound nlAttribute

/-- **What is read of an answer**, and that no more than that is taken from the socket. -/
theorem receiveLoop_eq (hlt : ioBuffer.iov_len < 2 ^ 32)
    {body : Mem → Nat → Nat → σ → ForInStep σ} {abstract : Message B → σ → ForInStep σ}
    (hbody : ∀ message, IsSoundMessage IsSound message → ∀ mem address s,
      bytesAt mem address message.bytes.length = message.bytes →
        body mem address message.bytes.length s = abstract message s)
    (answer : Answer B ioBuffer.iov_len IsSound) (later : List (List UInt8)) (mem : Mem) (s : σ) :
    ∃ mem', receiveLoop ioBuffer body (answer.bytes ++ later) mem s =
      some (answer.datagrams.foldl (fun s sent => untilDone abstract sent.messages s) s, mem',
        later) := by
  obtain ⟨datagrams, done, goesOn, ends, fits, sound⟩ := answer
  change ∃ mem', receiveLoop ioBuffer body ((datagrams ++ [done]).map Sent.bytes ++ later) mem s = _
  dsimp only
  induction datagrams generalizing mem s with
  | nil =>
    have hfits := fits done List.mem_cons_self
    refine ⟨storeBytes mem ioBuffer.iov_base done.bytes, ?_⟩
    rw [List.nil_append, List.map_singleton, List.singleton_append, receiveLoop,
      receiveMessage_eq ioBuffer hfits]
    exact if_pos ((nlmsg_type_first ioBuffer done mem).trans ends)
  | cons sent datagrams ih =>
    obtain ⟨hgoesOn, goesOn⟩ := List.forall_mem_cons.mp goesOn
    obtain ⟨hsound, sound⟩ := List.forall_mem_cons.mp sound
    rw [List.cons_append] at fits
    obtain ⟨hfits, fits⟩ := List.forall_mem_cons.mp fits
    have hwalk := NLMSG.forEach_eq Message.bytes sent.messages
      (fun message hmem => Message.frames (by have := Sent.length_le hmem; omega))
      (fun message hmem => hbody message (hsound message hmem) _)
      (holdsMessages ioBuffer sent mem) s
    rw [← length_flatMap_padded] at hwalk
    rw [List.cons_append, List.map_cons, List.cons_append, receiveLoop,
      receiveMessage_eq ioBuffer hfits, List.foldl_cons, ← hwalk]
    dsimp only
    rw [if_neg ((nlmsg_type_first ioBuffer sent mem).symm ▸ hgoesOn)]
    exact ih _ _ goesOn fits sound

end

end DevopsBroker.Net.Netlink
