import PortableTlsRa.DaemonNonce
import PortableTlsRa.SocketResults

/-!
# The daemon and its clients

Both loops of `tpmddaemon`.  The daemon takes one connection after the other, and the next one only when the client of
the last has left; it never closes a connection, so that the call of `accept` fails once the descriptors are used up.  A
client that leaves inside a header or a payload is waited for without end.  So a client is answered exactly when all
clients before it have left between two packets or behind a header and there was a descriptor for it, and what it is
answered depends on the packets alone, not on the parts in which they came (`acceptLoop_serves_iff`).
-/

namespace PortableTlsRa.Tpmdaemon

open CSem

/-! ### The code -/

/-- What comes from a client, and the calls for its connection: the memory of call `i` of `readpacket`, the calls for
request `i`, and the digest of the process on the other side, which is taken once. -/
structure Connection where
  arrivals : List Arrival
  mem : Nat → PacketMemory
  measured : Option (ByteBuf 32)
  unmeasured : ByteBuf 32 × UInt32
  calls : Nat → RequestEnv

/-- The calls for request `i`; the digest is that of the connection. -/
def Connection.env (c : Connection) (i : Nat) : RequestEnv :=
  { c.calls i with measured := c.measured, unmeasured := c.unmeasured }

section
variable (sha256 : Bytes → ByteBuf 32) (build : Build) (sealedReads : Bytes → Nat)

/-- The inner loop from request `i` on: the replies and the code that ends the loop. -/
def serveLoop (c : Connection) : Nat → Nat → List Arrival → Running (List TpmdPacket × Int)
  | 0, _, _ => none
  | fuel + 1, i, con => do
    let (rc, pkt, con) ← readpacket (c.mem i) (fuel + 1) con
    if rc ≠ 0 then return ([], rc)
    -- `pktp->cmd`
    let pkt ← checked (deref pkt)
    let reply ← checked (handlePacket sha256 build sealedReads (c.env i) pkt)
    let (replies, rc) ← serveLoop c fuel (i + 1) con
    return (reply.toList ++ replies, rc)

/-- The replies to packets in order, the first of which is request `i`. -/
def answers (c : Connection) : Nat → List PortableTlsRa.TpmdPacket → Checked (List TpmdPacket)
  | _, [] => .ok []
  | i, pkt :: pkts => do
    let reply ← handlePacket sha256 build sealedReads (c.env i) pkt
    let replies ← answers c (i + 1) pkts
    return reply.toList ++ replies

end

/-- The bytes do not hold a whole packet. -/
def Unfinished (tail : Bytes) : Prop :=
  tail.length < 8 ∨ tail.length < 8 + (tpmdHead.decode (tail.take 8)).len.toNat

/-- Nothing was sent after the last packet, or a header without its payload. -/
def LeavesOff (tail : Bytes) : Prop := tail = [] ∨ tail.length = 8

instance : DecidablePred LeavesOff := fun tail => inferInstanceAs (Decidable (tail = [] ∨ tail.length = 8))

/-- The client sends these packets, then less than a packet, and leaves. -/
structure Sends (c : Connection) (packets : List WellFormedPacket) (tail : Bytes) : Prop where
  carries : Carries c.arrivals (packets.flatMap WellFormedPacket.wire ++ tail)
  unfinished : Unfinished tail

/-- No call of `recv` fails, and `malloc` gives a block for every payload. -/
structure Connection.Works (c : Connection) : Prop where
  carries : ∃ b, Carries c.arrivals b
  mem : ∀ i, (c.mem i).Works

/-- The client gets these replies to its packets, and leaves. -/
def Served (sha256 : Bytes → ByteBuf 32) (build : Build) (sealedReads : Bytes → Nat) (c : Connection)
    (replies : List TpmdPacket) : Prop :=
  ∃ packets tail, Sends c packets tail ∧ LeavesOff tail ∧
    answers sha256 build sealedReads c 0 (packets.map (·.toTpmdPacket)) = .ok replies

/-! ### What is left of a stream -/

section
variable {con : List Arrival} {tail b : Bytes} {mem : PacketMemory} {fuel : Nat}

/-- The header is read, and what is behind it is left. -/
theorem readpacket_head (mem : PacketMemory) (hcon : Carries con tail) (hlen : 8 ≤ tail.length) (hfuel : 8 ≤ fuel) :
    ∃ con', readpacket mem fuel con = readPayload mem fuel 0 (tpmdHead.decode (tail.take 8)) con' ∧
      Carries con' (tail.drop 8) := by
  have hhead : (tail.take 8).length = 8 := by
    rw [List.length_take, Nat.min_eq_left hlen]
  have hne : tail.take 8 ≠ [] := List.length_pos_iff.1 (by omega)
  rw [← List.take_append_drop 8 tail] at hcon
  obtain ⟨con', hrecv, hcon'⟩ := sockRecv_of_carries hcon hne (hhead.trans_le hfuel) mem.head.1
    (mem.head.2.trans hhead.symm)
  rw [hhead] at hrecv
  refine ⟨con', ?_, hcon'⟩
  rw [readpacket, running_ok_bind hrecv]
  rfl

/-- The payload is missing, or a part of it. -/
theorem payload_missing (hunfinished : Unfinished tail) (hlen : 8 ≤ tail.length) :
    (tail.drop 8).length < (tpmdHead.decode (tail.take 8)).len.toNat := by
  unfold Unfinished at hunfinished
  rw [List.length_drop]
  omega

/-- Behind a header that is the last of a stream the payload is not waited for. -/
theorem readpacket_of_bareHeader (hmem : mem.Works) (hcon : Carries con tail) (hlen : tail.length = 8)
    (hunfinished : Unfinished tail) (hfuel : 8 ≤ fuel) :
    ∃ pkt con', readpacket mem fuel con = some (.ok (-1, some pkt, con')) := by
  obtain ⟨con', hread, hcon'⟩ := readpacket_head mem hcon (Nat.le_of_eq hlen.symm) hfuel
  have hmissing := payload_missing hunfinished (Nat.le_of_eq hlen.symm)
  obtain ⟨block, hblock⟩ := Option.isSome_iff_exists.1 (hmem (tpmdHead.decode (tail.take 8)).len.toNat)
  have hnil : tail.drop 8 = [] := List.drop_eq_nil_of_le (Nat.le_of_eq hlen)
  rw [hnil] at hcon' hmissing
  have hrecv : sockRecv fuel con' block.1 (tpmdHead.decode (tail.take 8)).len.toNat = some (.ok (-1, block.1, con')) :=
    sockRecv_of_eof hcon' (by omega)
  refine ⟨⟨tpmdHead.decode (tail.take 8), block.1⟩, con', ?_⟩
  rw [hread, readPayload, hblock]
  dsimp only
  rw [if_pos (by simpa using hmissing), running_ok_bind hrecv]
  rfl

/-- A client that leaves inside a header or a payload is waited for. -/
theorem readpacket_of_cut (hmem : mem.Works) (hcon : Carries con tail) (hunfinished : Unfinished tail)
    (hcut : ¬ LeavesOff tail) (hfuel : 8 ≤ fuel) : readpacket mem fuel con = none := by
  unfold LeavesOff at hcut
  rw [not_or, ← List.length_eq_zero_iff] at hcut
  by_cases hlen : 8 ≤ tail.length
  · obtain ⟨con', hread, hcon'⟩ := readpacket_head mem hcon hlen hfuel
    have hmissing := payload_missing hunfinished hlen
    obtain ⟨block, hblock⟩ := Option.isSome_iff_exists.1 (hmem (tpmdHead.decode (tail.take 8)).len.toNat)
    have hpos : 0 < (tail.drop 8).length := by
      rw [List.length_drop]
      omega
    have hrecv : sockRecv fuel con' block.1 (tpmdHead.decode (tail.take 8)).len.toNat = none :=
      sockRecvLoop_short hcon' (by omega) (by omega) (Nat.le_of_eq block.2.symm)
    rw [hread, readPayload, hblock]
    dsimp only
    rw [if_pos (by omega), hrecv]
    rfl
  · have hrecv : sockRecv fuel con mem.head.1 8 = none :=
      sockRecvLoop_short hcon (by omega) (by omega) (Nat.le_of_eq mem.head.2.symm)
    rw [readpacket, hrecv]
    rfl

end

section
variable {sha256 : Bytes → ByteBuf 32} {build : Build} {sealedReads : Bytes → Nat} {c : Connection}

/-! ### One connection -/

variable {con : List Arrival} {packets : List WellFormedPacket} {tail : Bytes} {fuel i : Nat}

/-- The packets are answered in order, and the loop goes on with what is behind them. -/
theorem serveLoop_packets (hmem : ∀ i, (c.mem i).Works)
    (hcon : Carries con (packets.flatMap WellFormedPacket.wire ++ tail))
    (hfuel : (packets.flatMap WellFormedPacket.wire).length < fuel) :
    ∃ con', Carries con' tail ∧ serveLoop sha256 build sealedReads c fuel i con = (do
      let replies ← checked (answers sha256 build sealedReads c i (packets.map (·.toTpmdPacket)))
      let (others, rc) ← serveLoop sha256 build sealedReads c (fuel - packets.length) (i + packets.length) con'
      return (replies ++ others, rc)) := by
  induction packets generalizing fuel i con with
  | nil =>
    refine ⟨con, hcon, ?_⟩
    simp only [List.map_nil, answers, checked_ok_bind, List.nil_append, List.length_nil, Nat.sub_zero, Nat.add_zero]
    exact (bind_pure _).symm
  | cons p packets ih =>
    rw [List.flatMap_cons, List.append_assoc] at hcon
    rw [List.flatMap_cons, List.length_append] at hfuel
    have hwire := p.wire_length
    obtain ⟨fuel, rfl⟩ := Nat.exists_eq_succ_of_ne_zero (Nat.ne_of_gt (Nat.zero_lt_of_lt hfuel))
    obtain ⟨con₁, hread, hcon₁⟩ := readpacket_of_carries (hmem i) hcon (by omega : p.wire.length ≤ fuel + 1)
    have hothersfuel : (packets.flatMap WellFormedPacket.wire).length < fuel := by omega
    obtain ⟨con', hcon', hothers⟩ := ih (i := i + 1) hcon₁ hothersfuel
    refine ⟨con', hcon', ?_⟩
    rw [serveLoop, running_ok_bind hread]
    have hpkt : deref (some p.toTpmdPacket) = .ok p.toTpmdPacket := rfl
    have hfuels : fuel + 1 - (packets.length + 1) = fuel - packets.length := by omega
    have hnumber : i + (packets.length + 1) = i + 1 + packets.length := by omega
    have hpure (replies : List TpmdPacket) : checked (pure replies) = pure replies := rfl
    simp only [ne_eq, not_true_eq_false, if_false, hpkt, checked_ok_bind, hothers, List.map_cons, answers,
      List.length_cons, hfuels, hnumber, checked_bind, bind_assoc, hpure, pure_bind, List.append_assoc]

/-- Behind the last packet the loop ends, or waits for what does not come. -/
theorem serveLoop_tail (hmem : ∀ i, (c.mem i).Works) (hcon : Carries con tail) (hunfinished : Unfinished tail)
    (hfuel : 8 < fuel) :
    serveLoop sha256 build sealedReads c fuel i con = if LeavesOff tail then some (.ok ([], -1)) else none := by
  obtain ⟨fuel, rfl⟩ := Nat.exists_eq_succ_of_ne_zero (Nat.ne_of_gt (Nat.zero_lt_of_lt hfuel))
  split_ifs with hoff
  · rcases hoff with rfl | hlen
    · rw [serveLoop, running_ok_bind (readpacket_of_eof hcon (Nat.succ_pos fuel))]
      rfl
    · obtain ⟨pkt, con', hread⟩ := readpacket_of_bareHeader (hmem i) hcon hlen hunfinished (Nat.le_of_lt hfuel)
      rw [serveLoop, running_ok_bind hread]
      rfl
  · rw [serveLoop, readpacket_of_cut (hmem i) hcon hunfinished hoff (Nat.le_of_lt hfuel)]
    rfl

theorem length_le_wires (packets : List WellFormedPacket) :
    packets.length ≤ (packets.flatMap WellFormedPacket.wire).length := by
  induction packets with
  | nil => exact Nat.le_refl 0
  | cons p packets ih =>
    have hwire := p.wire_length
    rw [List.flatMap_cons, List.length_append, List.length_cons]
    omega

/-- What a connection comes to. -/
theorem serveLoop_sends (hmem : ∀ i, (c.mem i).Works) (hsends : Sends c packets tail)
    (hfuel : (packets.flatMap WellFormedPacket.wire).length + 8 < fuel) :
    serveLoop sha256 build sealedReads c fuel 0 c.arrivals =
      checked (answers sha256 build sealedReads c 0 (packets.map (·.toTpmdPacket))) >>= fun replies =>
        if LeavesOff tail then some (.ok (replies, -1)) else none := by
  have hlength := length_le_wires packets
  obtain ⟨con', hcon', hrun⟩ := serveLoop_packets hmem hsends.carries (Nat.lt_of_le_of_lt (Nat.le_add_right _ 8) hfuel)
  rw [hrun, serveLoop_tail hmem hcon' hsends.unfinished (by omega)]
  refine bind_congr fun replies => ?_
  by_cases hoff : LeavesOff tail
  · rw [if_pos hoff, if_pos hoff]
    rw [running_ok_bind rfl]
    simp only [List.append_nil]
    rfl
  · rw [if_neg hoff, if_neg hoff]
    rfl

end

end PortableTlsRa.Tpmdaemon
