import Handoff.C

/- Packets as the queue callback sees them: the kernel's packet id, and the bytes
   `nfq_get_payload` hands out. A read outside the payload is a fault. The second
   half gives the header fields of a byte string as plain functions, and the payload
   reads as those functions where the payload is long enough. -/
namespace Handoff

/-- What the library passes to the callback for one packet. `none` is a message without
    a payload attribute, for which `nfq_get_payload` returns -1 and a null pointer. -/
structure NfqData where
  packetId : UInt32
  payload : Option (List UInt8)
  deriving DecidableEq, Repr

def nfqGetPayload (nfa : NfqData) : Int :=
  match nfa.payload with
  | none => -1
  | some bs => bs.length

/-- `nf_packet[i]`. -/
def byteAt (nfa : NfqData) (i : Nat) : C UInt8 :=
  match nfa.payload with
  | none => .error .nullDeref
  | some bs =>
    match bs[i]? with
    | none => .error .outOfBounds
    | some b => .ok b

/-- A 16-bit field in network order, as `ntohs` returns it. -/
def u16At (nfa : NfqData) (i : Nat) : C UInt16 := do
  let a ← byteAt nfa i
  let b ← byteAt nfa (i + 1)
  return UInt16.ofNat (256 * a.toNat + b.toNat)

/-- A 32-bit field in network order, as `ntohl` returns it. -/
def u32At (nfa : NfqData) (i : Nat) : C UInt32 := do
  let a ← u16At nfa i
  let b ← u16At nfa (i + 2)
  return UInt32.ofNat (65536 * a.toNat + b.toNat)

/-- `sizeof(struct iphdr)` and `sizeof(struct tcphdr)`. -/
def iphdrSize : Nat := 20
def tcphdrSize : Nat := 20

/-- `iph->ihl << 2`. -/
def ipIhl (nfa : NfqData) : C Nat := do
  let b ← byteAt nfa 0
  return 4 * (b.toNat % 16)

/-- `ntohl(tcph->ack_seq)`, the TCP header starting at `off`. -/
def tcpAckSeq (nfa : NfqData) (off : Nat) : C UInt32 := u32At nfa (off + 8)

/-- `tcph->doff << 2`. -/
def tcpDoff (nfa : NfqData) (off : Nat) : C Nat := do
  let b ← byteAt nfa (off + 12)
  return 4 * (b.toNat / 16)

/-- `ntohs(tcph->window)`. -/
def tcpWindow (nfa : NfqData) (off : Nat) : C UInt16 := u16At nfa (off + 14)

/-! The same fields as functions of the bytes. -/

namespace Bytes

def byte (bs : List UInt8) (i : Nat) : UInt8 := bs.getD i 0
def u16 (bs : List UInt8) (i : Nat) : UInt16 :=
  UInt16.ofNat (256 * (byte bs i).toNat + (byte bs (i + 1)).toNat)
def u32 (bs : List UInt8) (i : Nat) : UInt32 :=
  UInt32.ofNat (65536 * (u16 bs i).toNat + (u16 bs (i + 2)).toNat)
/-- Length of the IPv4 header. -/
def ihl (bs : List UInt8) : Nat := 4 * ((byte bs 0).toNat % 16)
/-- Acknowledgement number. -/
def ack (bs : List UInt8) : UInt32 := u32 bs (ihl bs + 8)
/-- Length of the TCP header. -/
def doff (bs : List UInt8) : Nat := 4 * ((byte bs (ihl bs + 12)).toNat / 16)
/-- Advertised window. -/
def window (bs : List UInt8) : UInt16 := u16 bs (ihl bs + 14)

end Bytes

/-- A packet whose payload was delivered. -/
structure Packet where
  id : UInt32
  bytes : List UInt8
  deriving DecidableEq, Repr

@[simp] def Packet.nfa (p : Packet) : NfqData := ⟨p.id, some p.bytes⟩

/-- What the code needs of a well-formed IPv4/TCP packet: both headers have at least their
    fixed part and lie inside the bytes. -/
structure WellFormed (bs : List UInt8) : Prop where
  ihl : 20 ≤ Bytes.ihl bs
  doff : 20 ≤ Bytes.doff bs
  fits : Bytes.ihl bs + Bytes.doff bs ≤ bs.length

instance (bs : List UInt8) : Decidable (WellFormed bs) :=
  decidable_of_iff (20 ≤ Bytes.ihl bs ∧ 20 ≤ Bytes.doff bs ∧ Bytes.ihl bs + Bytes.doff bs ≤ bs.length)
    ⟨fun h => ⟨h.1, h.2.1, h.2.2⟩, fun h => ⟨h.1, h.2, h.3⟩⟩

/-- A packet without TCP payload. -/
def NoPayload (bs : List UInt8) : Prop := bs.length = Bytes.ihl bs + Bytes.doff bs

instance (bs : List UInt8) : Decidable (NoPayload bs) := Nat.decEq _ _

section Reads
variable {nfa : NfqData} {bs : List UInt8} {i off : Nat}

theorem byteAt_some (hp : nfa.payload = some bs) (h : i < bs.length) :
    byteAt nfa i = .ok (Bytes.byte bs i) := by
  simp [byteAt, hp, Bytes.byte, List.getElem?_eq_getElem h]

theorem u16At_some (hp : nfa.payload = some bs) (h : i + 1 < bs.length) :
    u16At nfa i = .ok (Bytes.u16 bs i) := by
  simp [u16At, byteAt_some hp (show i < bs.length by omega), byteAt_some hp h, Bytes.u16]

theorem u32At_some (hp : nfa.payload = some bs) (h : i + 3 < bs.length) :
    u32At nfa i = .ok (Bytes.u32 bs i) := by
  simp [u32At, u16At_some hp (show i + 1 < bs.length by omega),
    u16At_some hp (show i + 2 + 1 < bs.length by omega), Bytes.u32]

theorem ipIhl_some (hp : nfa.payload = some bs) (h : 20 ≤ bs.length) :
    ipIhl nfa = .ok (Bytes.ihl bs) := by
  simp [ipIhl, byteAt_some hp (show 0 < bs.length by omega), Bytes.ihl]

theorem tcpAckSeq_some (hp : nfa.payload = some bs) (h : Bytes.ihl bs + 20 ≤ bs.length) :
    tcpAckSeq nfa (Bytes.ihl bs) = .ok (Bytes.ack bs) :=
  u32At_some hp (by omega)

theorem tcpDoff_some (hp : nfa.payload = some bs) (h : Bytes.ihl bs + 20 ≤ bs.length) :
    tcpDoff nfa (Bytes.ihl bs) = .ok (Bytes.doff bs) := by
  simp [tcpDoff, byteAt_some hp (show Bytes.ihl bs + 12 < bs.length by omega), Bytes.doff]

theorem tcpWindow_some (hp : nfa.payload = some bs) (h : Bytes.ihl bs + 20 ≤ bs.length) :
    tcpWindow nfa (Bytes.ihl bs) = .ok (Bytes.window bs) :=
  u16At_some hp (by omega)

theorem nfqGetPayload_some (hp : nfa.payload = some bs) : nfqGetPayload nfa = bs.length := by
  simp [nfqGetPayload, hp]

theorem byteAt_none (hp : nfa.payload = none) : byteAt nfa i = .error .nullDeref := by
  simp [byteAt, hp]

/-- Without a payload the length test does not stop the first read, which is a fault. -/
theorem ipIhl_none (hp : nfa.payload = none) : ipIhl nfa = .error .nullDeref := by
  simp [ipIhl, byteAt_none hp]

end Reads

/-- What `packet_logging` prints of a packet, the time stamp apart. -/
structure PacketLog where
  source : UInt16
  seq : UInt32
  ack : UInt32
  deriving DecidableEq, Repr

/-- `packet_logging`: packets from 10.0.0.1 with both headers in place are logged. -/
def packetLogging (nfa : NfqData) : C (Option PacketLog) := do
  let len := nfqGetPayload nfa
  if ltSize len iphdrSize then return none
  let ihl ← ipIhl nfa
  if ltSize len (ihl + tcphdrSize) then return none
  let saddr ← u32At nfa 12
  if saddr = 0x0a000001 then
    let seq ← u32At nfa (ihl + 4)
    let ack ← tcpAckSeq nfa ihl
    let source ← u16At nfa ihl
    return some { source, seq, ack }
  else return none

/-- With a payload every read of `packet_logging` is inside it. -/
theorem packetLogging_some {nfa : NfqData} {bs : List UInt8} (hp : nfa.payload = some bs) :
    ∃ l, packetLogging nfa = .ok l := by
  unfold packetLogging
  simp only [nfqGetPayload_some hp, ltSize_ofNat, iphdrSize, tcphdrSize, decide_eq_true_eq]
  split
  · exact ⟨none, rfl⟩
  · next h20 =>
    rw [ipIhl_some hp (by omega), C.ok_bind]
    split
    · exact ⟨none, rfl⟩
    · next hlen =>
      rw [u32At_some hp (by omega), C.ok_bind]
      split
      · rw [u32At_some hp (by omega), C.ok_bind, tcpAckSeq_some hp (by omega), C.ok_bind,
          u16At_some hp (by omega), C.ok_bind]
        exact ⟨_, rfl⟩
      · exact ⟨none, rfl⟩

/-- Without one, its first read is a fault. -/
theorem packetLogging_none {nfa : NfqData} (hp : nfa.payload = none) :
    packetLogging nfa = .error .nullDeref := by
  simp [packetLogging, nfqGetPayload, hp, ltSize, ipIhl_none hp]

end Handoff
