import Handoff.Environment

/- The three copies of the header parsing: what each reads, and what it does with a packet that is too short.

   With a payload no copy reads outside it (`parses_some`), whatever the header says. The copies differ in their
   guards: the window stage refuses a header length below 20, the dedup stage does not, and may take a packet with no
   room for two headers for an acknowledgement (`dedups_short`). Without a payload the length is -1, which no test
   in `size_t` stops. -/
namespace Handoff

/-- The payload has no room for an IPv4 header, of its own length or the least one, and a TCP header after it. -/
def TooShort (nfa : NfqData) : Prop :=
  match nfa.payload with
  | none => True
  | some bs => bs.length < max iphdrSize (Bytes.ihl bs) + tcphdrSize

/-- The stage leaves a packet alone: no verdict, no rewrite, the state as it was. -/
def Passes (ctx : WorkerCtx) (x : C Stage) : Prop := x = .ok (.pass ctx)

section Parsing
variable (csum : List UInt8 → UInt16) (ctx : WorkerCtx) (id : UInt32) (nfa : NfqData)

/-- The three parsers stay inside the payload, and the two stages leave a packet that is too short alone. -/
structure ParsesInside : Prop where
  logging : Defined (packetLogging nfa)
  dedup : Defined (workerHandleDedup ctx id nfa)
  rwnd : Defined (workerHandleRwnd csum ctx id nfa)
  short : TooShort nfa → Passes ctx (workerHandleDedup ctx id nfa) ∧ Passes ctx (workerHandleRwnd csum ctx id nfa)

/-- A header that declares less than 20 bytes for itself, in a packet too short for two, which the dedup stage reads as
    an acknowledgement it has seen. -/
structure StubAck (bs : List UInt8) : Prop where
  armed : ctx.doDedup ≠ 0
  stub : Bytes.ihl bs < iphdrSize
  long : max iphdrSize (Bytes.ihl bs + tcphdrSize) ≤ bs.length
  short : bs.length < iphdrSize + tcphdrSize
  seen : Bytes.ack bs = ctx.lastAck
  empty : bs.length ≤ Bytes.ihl bs + Bytes.doff bs

variable {csum ctx id nfa} {bs : List UInt8}

theorem parses_some (csum : List UInt8 → UInt16) (ctx : WorkerCtx) (id : UInt32) (hp : nfa.payload = some bs) :
    Defined (packetLogging nfa) ∧ Defined (workerHandleDedup ctx id nfa) ∧ Defined (workerHandleRwnd csum ctx id nfa) :=
  ⟨packetLogging_some hp, ⟨_, workerHandleDedup_some id hp⟩, ⟨_, workerHandleRwnd_some csum id hp⟩⟩

theorem Readable.not_short (hp : nfa.payload = some bs) (h : Readable bs) : ¬ TooShort nfa := by
  obtain ⟨hihl, hlen⟩ := h
  simp only [TooShort, hp, iphdrSize, tcphdrSize]
  omega

theorem passes_rwnd (hp : nfa.payload = some bs) (hshort : TooShort nfa) :
    Passes ctx (workerHandleRwnd csum ctx id nfa) := by
  have hn : ¬ Readable bs := fun h => h.not_short hp hshort
  rw [Passes, workerHandleRwnd_some csum id hp]
  simp [rwndData, afterRwnd, hn]

theorem passes_dedup (hp : nfa.payload = some bs) :
    Passes ctx (workerHandleDedup ctx id nfa) ↔ ¬ Dedups ctx bs := by
  rw [Passes, workerHandleDedup_some id hp]
  by_cases h : Dedups ctx bs <;> simp [h]

/-- Among the packets that are too short, the dedup stage drops the stubs. -/
theorem dedups_short (hp : nfa.payload = some bs) : Dedups ctx bs ∧ TooShort nfa ↔ StubAck ctx bs := by
  simp only [TooShort, hp, iphdrSize, tcphdrSize]
  constructor
  · intro h
    obtain ⟨⟨harmed, h20, hlen, hseen, hempty⟩, hshort⟩ := h
    exact ⟨harmed, by rw [iphdrSize]; omega, by rw [iphdrSize, tcphdrSize]; omega,
      by rw [iphdrSize, tcphdrSize]; omega, hseen, hempty⟩
  · intro h
    obtain ⟨harmed, hstub, hlong, hshort, hseen, hempty⟩ := h
    rw [iphdrSize] at hstub
    rw [iphdrSize, tcphdrSize] at hlong hshort
    exact ⟨⟨harmed, by omega, by omega, hseen, hempty⟩, by omega⟩

end Parsing

/-- **The parsers stay inside the payload and leave short packets alone** iff there is a payload and it is not a stub
    that the dedup stage takes for an acknowledgement. -/
theorem parses_inside_iff (csum : List UInt8 → UInt16) (ctx : WorkerCtx) (id : UInt32) (nfa : NfqData) :
    ParsesInside csum ctx id nfa ↔ ∃ bs, nfa.payload = some bs ∧ ¬ StubAck ctx bs := by
  constructor
  · intro h
    rcases hp : nfa.payload with _ | bs
    · obtain ⟨l, hl⟩ := h.logging
      rw [packetLogging_none hp] at hl
      cases hl
    · refine ⟨bs, rfl, fun hstub => ?_⟩
      obtain ⟨hdedups, hshort⟩ := (dedups_short hp).mpr hstub
      exact (passes_dedup hp).mp (h.short hshort).1 hdedups
  · intro hgiven
    obtain ⟨bs, hp, hstub⟩ := hgiven
    obtain ⟨hlog, hdedup, hrwnd⟩ := parses_some csum ctx id hp
    refine ⟨hlog, hdedup, hrwnd, fun hshort => ⟨(passes_dedup hp).mpr fun hdedups => ?_, passes_rwnd hp hshort⟩⟩
    exact hstub ((dedups_short hp).mp ⟨hdedups, hshort⟩)

/-- 20 bytes that declare an IPv4 header of none: the TCP header is read in its place. -/
def stubPacket : List UInt8 := [0x40, 0, 0, 20, 0, 0, 0, 0, 0, 0, 0, 0, 0x50, 0, 0, 0, 0, 0, 0, 0]

/-- No payload: the first read is a fault. A stub: the dedup stage drops it. -/
theorem parses_outside :
    packetLogging ⟨1, none⟩ = .error .nullDeref ∧ workerHandleRwnd zeroCsum zeroWorker 1 ⟨1, none⟩ = .error .nullDeref ∧
      TooShort ⟨1, some stubPacket⟩ ∧
      (workerHandleDedup { zeroWorker with doDedup := 1 } 1 ⟨1, some stubPacket⟩).map (·.verdicts) = .ok [.drop 1] ∧
      ¬ ParsesInside zeroCsum zeroWorker 1 ⟨1, none⟩ ∧
      ¬ ParsesInside zeroCsum { zeroWorker with doDedup := 1 } 1 ⟨1, some stubPacket⟩ := by
  have hshort : stubPacket.length < max iphdrSize (Bytes.ihl stubPacket) + tcphdrSize := by decide
  refine ⟨rfl, rfl, hshort, rfl, fun h => ?_, fun h => ?_⟩
  · obtain ⟨l, hl⟩ := h.logging
    cases hl
  · have hpass := (h.short hshort).1
    cases hpass

end Handoff
