import PortableTlsRa.Lib.Layout
import PortableTlsRa.Lib.Stream

/-!
# Packets on the socket of the daemon

`sock_recv` fills a buffer from a stream socket and `readpacket` reads a header and then a payload with it.  The
received counts are unsigned, so that an error of `recv` is never seen: it takes one off the number of bytes received,
and at the start of a buffer it ends the loop with the code 0.  Where no call fails the packets are read as they were
sent, however the stream is split (`readPackets_of_carries`).
-/

namespace PortableTlsRa

open CSem

/-! ### Reading into a buffer -/

/-- The loop of `sock_recv`, with `totsz` bytes received so far. -/
def sockRecvLoop (size : Nat) : Nat → Nat → Bytes → List Arrival → Running (Int × Bytes × List Arrival)
  | 0, _, _, _ => none
  | fuel + 1, totsz, buf, sock =>
    match recv (size - totsz) sock with
    | (none, sock) =>
      -- `sz < 0` holds of no `size_t`, and -1 is added as any other size
      let totsz := (totsz + (2 ^ 64 - 1)) % 2 ^ 64
      if totsz < size then sockRecvLoop size fuel totsz buf sock else return (0, buf, sock)
    | (some data, sock) =>
      if data.length = 0 ∧ totsz = 0 then return (-1, buf, sock)
      else do
        let buf ← checked (writeRange buf totsz data)
        let totsz := totsz + data.length
        if totsz < size then sockRecvLoop size fuel totsz buf sock else return (0, buf, sock)

/-- Returns the code, what the buffer holds then and what is still to arrive. -/
def sockRecv (fuel : Nat) (sock : List Arrival) (buf : Bytes) (size : Nat) : Running (Int × Bytes × List Arrival) :=
  sockRecvLoop size fuel 0 buf sock

/-! ### Packets -/

/-- The fields of `struct tpmd_packet` before the payload. -/
structure TpmdHead where
  cmd : UInt16
  aux : UInt16
  len : UInt32
deriving DecidableEq

def tpmdHead : Layout TpmdHead :=
  (Layout.uint16.prod (Layout.uint16.prod Layout.uint32)).map
    ⟨fun h => (h.cmd, h.aux, h.len), fun t => ⟨t.1, t.2.1, t.2.2⟩, fun _ => rfl, fun _ => rfl⟩

structure TpmdPacket where
  head : TpmdHead
  data : Bytes
deriving DecidableEq

/-- What the memory holds that a call of `readpacket` reads into: the header on the stack, and the payload of the block
that `malloc` gives, if it gives one. -/
structure PacketMemory where
  head : ByteBuf 8
  payload : (len : Nat) → Option (ByteBuf len)

/-- `readpacket` after the header was read, by a call that returned `rc`. -/
def readPayload (mem : PacketMemory) (fuel : Nat) (rc : Int) (head : TpmdHead) (con : List Arrival) :
    Running (Int × Option TpmdPacket × List Arrival) :=
  match mem.payload head.len.toNat with
  -- the code of the last call is returned, which is 0
  | none => return (rc, none, con)
  | some block => do
    if 0 < head.len.toNat then
      let (rc, data, con) ← sockRecv fuel con block.1 head.len.toNat
      if rc < 0 then return (rc, some ⟨head, data⟩, con)
      return (0, some ⟨head, data⟩, con)
    return (0, some ⟨head, block.1⟩, con)

/-- Returns the code, the packet that the pointer is set to and what is still to arrive. -/
def readpacket (mem : PacketMemory) (fuel : Nat) (con : List Arrival) :
    Running (Int × Option TpmdPacket × List Arrival) := do
  let (rc, head, con) ← sockRecv fuel con mem.head.1 8
  if rc = -1 ∨ rc = -2 then return (rc, none, con)
  readPayload mem fuel rc (tpmdHead.decode head) con

/-- The packets that the loop of `tpmddaemon` takes from one connection, and the code that ends the loop.  `mem i` is
the memory of call `i`. -/
def readPackets (mem : Nat → PacketMemory) : Nat → Nat → List Arrival → Running (List TpmdPacket × Int)
  | 0, _, _ => none
  | fuel + 1, i, con => do
    let (rc, pkt, con) ← readpacket (mem i) (fuel + 1) con
    if rc ≠ 0 then return ([], rc)
    -- `pktp->cmd`
    let pkt ← checked (deref pkt)
    let (pkts, rc) ← readPackets mem fuel (i + 1) con
    return (pkt :: pkts, rc)

/-! ### A stream that is split in some way -/

variable {con : List Arrival} {size totsz fuel : Nat} {buf front rest b : Bytes}

/-- The loop goes on with the bytes that are still missing, and takes no byte more than these from the stream. -/
theorem sockRecvLoop_of_carries (hcon : Carries con (front ++ rest)) (hsize : totsz + front.length = size)
    (hfront : front ≠ []) (hbuf : buf.length = size) (hfuel : front.length ≤ fuel) :
    ∃ con', sockRecvLoop size fuel totsz buf con = some (.ok (0, buf.take totsz ++ front, con')) ∧
      Carries con' rest := by
  induction fuel generalizing totsz buf front con with
  | zero =>
    have hlength : 0 < front.length := List.length_pos_iff.2 hfront
    omega
  | succ fuel ih =>
    have hmissing : 0 < size - totsz := by
      have hlength : 0 < front.length := List.length_pos_iff.2 hfront
      omega
    obtain ⟨data, others, con₁, hdata, hle, hsplit, hrecv, hcon₁⟩ :=
      hcon.recv (List.append_ne_nil_of_left_ne_nil hfront rest) hmissing
    have hdatapos : 0 < data.length := List.length_pos_iff.2 hdata
    -- the received bytes are the first of the missing ones
    obtain ⟨front', rfl, rfl⟩ := received_front hsplit (by omega)
    have hwrite : writeRange buf totsz data = .ok (buf.take totsz ++ data ++ buf.drop (totsz + data.length)) := by
      rw [writeRange, if_pos (by omega)]
    have hturn : sockRecvLoop size (fuel + 1) totsz buf con =
        if totsz + data.length < size then
          sockRecvLoop size fuel (totsz + data.length) (buf.take totsz ++ data ++ buf.drop (totsz + data.length)) con₁
        else some (.ok (0, buf.take totsz ++ data ++ buf.drop (totsz + data.length), con₁)) := by
      rw [sockRecvLoop, hrecv]
      simp only [hwrite, checked_ok_bind, Nat.ne_of_gt hdatapos, false_and, if_false]
      rfl
    rw [List.length_append] at hsize hfuel
    have hfilled : (buf.take totsz ++ data).length = totsz + data.length := by
      rw [List.length_append, List.length_take, Nat.min_eq_left (by omega)]
    rw [hturn]
    by_cases hmore : totsz + data.length < size
    · rw [if_pos hmore]
      have hfront'ne : front' ≠ [] := by
        rintro rfl
        rw [List.length_nil] at hsize
        omega
      have hbuf' : (buf.take totsz ++ data ++ buf.drop (totsz + data.length)).length = size := by
        rw [List.length_append, hfilled, List.length_drop]
        omega
      have hsize' : totsz + data.length + front'.length = size := by omega
      obtain ⟨con', hloop, hcon'⟩ := ih hcon₁ hsize' hfront'ne hbuf' (by omega)
      refine ⟨con', ?_, hcon'⟩
      rw [hloop, List.take_left' hfilled, List.append_assoc]
    · rw [if_neg hmore]
      obtain rfl : front' = [] := List.eq_nil_of_length_eq_zero (by omega)
      refine ⟨con₁, ?_, hcon₁⟩
      rw [List.drop_eq_nil_of_le (by omega), List.append_nil, List.append_nil]

/-- A buffer is filled with the next bytes of the stream. -/
theorem sockRecv_of_carries (hcon : Carries con (front ++ rest)) (hfront : front ≠ []) (hfuel : front.length ≤ fuel)
    (buf : Bytes) (hbuf : buf.length = front.length) :
    ∃ con', sockRecv fuel con buf front.length = some (.ok (0, front, con')) ∧ Carries con' rest := by
  obtain ⟨con', hloop, hcon'⟩ := sockRecvLoop_of_carries hcon (Nat.zero_add front.length) hfront hbuf hfuel
  exact ⟨con', hloop, hcon'⟩

/-- At the end of the stream a read is refused. -/
theorem sockRecv_of_eof (hcon : Carries con []) (hfuel : 0 < fuel) :
    sockRecv fuel con buf size = some (.ok (-1, buf, con)) := by
  obtain ⟨fuel, rfl⟩ := Nat.exists_eq_succ_of_ne_zero (Nat.ne_of_gt hfuel)
  rw [sockRecv, sockRecvLoop, hcon.recv_nil]
  rfl

/-- What lies behind the bytes that are asked for is left alone. -/
theorem sockRecvLoop_append (hbuf : buf.length = size) (htotsz : totsz ≤ size) (post : Bytes) :
    sockRecvLoop size fuel totsz (buf ++ post) con = (do
      let (rc, buf, con) ← sockRecvLoop size fuel totsz buf con
      return (rc, buf ++ post, con)) := by
  induction fuel generalizing totsz buf con with
  | zero => rfl
  | succ fuel ih =>
    rw [sockRecvLoop, sockRecvLoop]
    rcases hrecv : recv (size - totsz) con with ⟨_ | data, con₁⟩
    · dsimp only
      by_cases hmore : (totsz + (2 ^ 64 - 1)) % 2 ^ 64 < size
      · rw [if_pos hmore, if_pos hmore]
        exact ih hbuf (Nat.le_of_lt hmore)
      · rw [if_neg hmore, if_neg hmore]
        rfl
    · dsimp only
      by_cases hclosed : data.length = 0 ∧ totsz = 0
      · rw [if_pos hclosed, if_pos hclosed]
        rfl
      · have hle := recv_length_le hrecv
        have hwrite : writeRange buf totsz data = .ok (buf.take totsz ++ data ++ buf.drop (totsz + data.length)) := by
          rw [writeRange, if_pos (by omega)]
        rw [if_neg hclosed, if_neg hclosed, writeRange_append_right hwrite post, hwrite, checked_ok_bind,
          checked_ok_bind]
        by_cases hmore : totsz + data.length < size
        · rw [if_pos hmore, if_pos hmore]
          exact ih ((writeRange_length hwrite).2.trans hbuf) (Nat.le_of_lt hmore)
        · rw [if_neg hmore, if_neg hmore]
          rfl

/-- More turns do not change a result. -/
theorem sockRecvLoop_more {r : Except Fault (Int × Bytes × List Arrival)} {more : Nat}
    (h : sockRecvLoop size fuel totsz buf con = some r) (hle : fuel ≤ more) :
    sockRecvLoop size more totsz buf con = some r := by
  induction fuel generalizing more totsz buf con with
  | zero => cases h
  | succ fuel ih =>
    obtain ⟨more, rfl⟩ := Nat.exists_eq_succ_of_ne_zero (by omega : more ≠ 0)
    have hle' : fuel ≤ more := Nat.le_of_succ_le_succ hle
    rw [sockRecvLoop] at h ⊢
    rcases hrecv : recv (size - totsz) con with ⟨_ | data, con₁⟩
    · rw [hrecv] at h
      dsimp only at h ⊢
      by_cases hmore : (totsz + (2 ^ 64 - 1)) % 2 ^ 64 < size
      · rw [if_pos hmore] at h ⊢
        exact ih h hle'
      · rw [if_neg hmore] at h ⊢
        exact h
    · rw [hrecv] at h
      dsimp only at h ⊢
      by_cases hclosed : data.length = 0 ∧ totsz = 0
      · rw [if_pos hclosed] at h ⊢
        exact h
      · rw [if_neg hclosed] at h ⊢
        cases hwrite : writeRange buf totsz data with
        | error f =>
          rw [hwrite] at h
          exact h
        | ok buf₁ =>
          rw [hwrite, checked_ok_bind] at h
          rw [checked_ok_bind]
          by_cases hmore : totsz + data.length < size
          · rw [if_pos hmore] at h ⊢
            exact ih h hle'
          · rw [if_neg hmore] at h ⊢
            exact h

/-- The first bytes of a longer buffer are filled with the next bytes of the stream. -/
theorem sockRecv_within (hcon : Carries con b) (hsize : 0 < size) (henough : size ≤ b.length)
    (hroom : size ≤ buf.length) :
    ∃ con', (∀ fuel ≥ size, sockRecv fuel con buf size = some (.ok (0, b.take size ++ buf.drop size, con'))) ∧
      Carries con' (b.drop size) := by
  have hfront : (b.take size).length = size := by
    rw [List.length_take, Nat.min_eq_left henough]
  have hlength : (buf.take size).length = size := by
    rw [List.length_take, Nat.min_eq_left hroom]
  have hne : b.take size ≠ [] := List.length_pos_iff.1 (by omega)
  rw [← List.take_append_drop size b] at hcon
  obtain ⟨con', hrun, hcon'⟩ := sockRecvLoop_of_carries hcon (by rw [hfront, Nat.zero_add]) hne hlength
    (Nat.le_refl _)
  refine ⟨con', fun fuel hfuel => ?_, hcon'⟩
  have happend : sockRecvLoop size fuel 0 (buf.take size ++ buf.drop size) con = _ :=
    sockRecvLoop_append hlength (Nat.zero_le size) (buf.drop size)
  rw [List.take_append_drop] at happend
  rw [sockRecv, happend, running_ok_bind (sockRecvLoop_more hrun (by rwa [hfront]))]
  rfl

/-- Whatever the calls return, the buffer keeps its size. -/
theorem sockRecvLoop_length {rc : Int} {buf' : Bytes} {con' : List Arrival}
    (h : sockRecvLoop size fuel totsz buf con = some (.ok (rc, buf', con'))) : buf'.length = buf.length := by
  induction fuel generalizing totsz buf con with
  | zero => cases h
  | succ fuel ih =>
    rw [sockRecvLoop] at h
    rcases hrecv : recv (size - totsz) con with ⟨_ | data, con₁⟩
    · rw [hrecv] at h
      dsimp only at h
      split_ifs at h with hmore
      · exact ih h
      · cases h
        rfl
    · rw [hrecv] at h
      dsimp only at h
      by_cases hclosed : data.length = 0 ∧ totsz = 0
      · rw [if_pos hclosed] at h
        cases h
        rfl
      · rw [if_neg hclosed, running_bind_eq_ok] at h
        obtain ⟨buf₁, hwrite, hrest⟩ := h
        have hlength : buf₁.length = buf.length := (writeRange_length (Option.some.inj hwrite)).2
        split_ifs at hrest with hmore
        · rw [ih hrest, hlength]
        · cases hrest
          exact hlength

/-! ### A list of packets -/

/-- A packet whose length field is the length of its payload. -/
structure WellFormedPacket extends TpmdPacket where
  length_eq : data.length = head.len.toNat

/-- The bytes of a packet on the wire. -/
def WellFormedPacket.wire (p : WellFormedPacket) : Bytes := tpmdHead.encode p.head ++ p.data

theorem tpmdHead_encode_length (h : TpmdHead) : (tpmdHead.encode h).length = 8 := tpmdHead.encode_length h

theorem WellFormedPacket.wire_length (p : WellFormedPacket) : p.wire.length = 8 + p.data.length := by
  rw [wire, List.length_append, tpmdHead_encode_length]

/-- `malloc` gives a block for the payload of every length. -/
def PacketMemory.Works (mem : PacketMemory) : Prop := ∀ len, (mem.payload len).isSome

variable {mem : PacketMemory} {p : WellFormedPacket}

theorem readPayload_of_carries (hmem : mem.Works) (hcon : Carries con (p.data ++ rest))
    (hfuel : p.data.length ≤ fuel) :
    ∃ con', readPayload mem fuel 0 p.head con = some (.ok (0, some p.toTpmdPacket, con')) ∧ Carries con' rest := by
  obtain ⟨block, hblock⟩ := Option.isSome_iff_exists.1 (hmem p.head.len.toNat)
  simp only [readPayload, hblock]
  by_cases hlen : 0 < p.head.len.toNat
  · have hdatane : p.data ≠ [] := by
      intro hnil
      have hlength := p.length_eq
      rw [hnil, List.length_nil] at hlength
      omega
    obtain ⟨con', hdata, hcon'⟩ := sockRecv_of_carries hcon hdatane hfuel block.1
      (block.2.trans p.length_eq.symm)
    rw [p.length_eq] at hdata
    refine ⟨con', ?_, hcon'⟩
    rw [if_pos hlen, running_ok_bind hdata]
    rfl
  · -- a packet without payload ends at its header
    have hzero : p.head.len.toNat = 0 := by omega
    have hnil : p.data = [] := List.eq_nil_of_length_eq_zero (p.length_eq.trans hzero)
    have hblocknil : block.1 = [] := List.eq_nil_of_length_eq_zero (block.2.trans hzero)
    rw [hnil, List.nil_append] at hcon
    refine ⟨con, ?_, hcon⟩
    rw [if_neg hlen, hblocknil, ← hnil]
    rfl

/-- `readpacket` takes one packet off the stream. -/
theorem readpacket_of_carries (hmem : mem.Works) (hcon : Carries con (p.wire ++ rest))
    (hfuel : p.wire.length ≤ fuel) :
    ∃ con', readpacket mem fuel con = some (.ok (0, some p.toTpmdPacket, con')) ∧ Carries con' rest := by
  rw [WellFormedPacket.wire_length] at hfuel
  rw [WellFormedPacket.wire, List.append_assoc] at hcon
  have hheadlen := tpmdHead_encode_length p.head
  have hheadne : tpmdHead.encode p.head ≠ [] := by
    intro hnil
    rw [hnil, List.length_nil] at hheadlen
    omega
  have hheadfuel : (tpmdHead.encode p.head).length ≤ fuel := by omega
  obtain ⟨con₁, hhead, hcon₁⟩ := sockRecv_of_carries hcon hheadne hheadfuel mem.head.1
    (mem.head.2.trans hheadlen.symm)
  rw [hheadlen] at hhead
  have hdecode : tpmdHead.decode (tpmdHead.encode p.head) = p.head := tpmdHead.decode_encode p.head
  have hdatafuel : p.data.length ≤ fuel := by omega
  obtain ⟨con', hpayload, hcon'⟩ := readPayload_of_carries hmem hcon₁ hdatafuel
  refine ⟨con', ?_, hcon'⟩
  rw [readpacket, running_ok_bind hhead, ← hpayload]
  exact congrArg (fun head => readPayload mem fuel 0 head con₁) hdecode

/-- Whatever arrives, a packet that is read has the length that its header states. -/
theorem readpacket_wellFormed {pkt : TpmdPacket} {rc : Int} {con' : List Arrival}
    (h : readpacket mem fuel con = some (.ok (rc, some pkt, con'))) : ∃ p : WellFormedPacket, p.toTpmdPacket = pkt := by
  rw [readpacket, running_bind_eq_ok] at h
  obtain ⟨⟨rc₁, head, con₁⟩, -, hrest⟩ := h
  dsimp only at hrest
  split_ifs at hrest with hfailed
  · cases hrest
  rw [readPayload] at hrest
  cases hblock : mem.payload (tpmdHead.decode head).len.toNat with
  | none =>
    rw [hblock] at hrest
    cases hrest
  | some block =>
    rw [hblock] at hrest
    dsimp only at hrest
    by_cases hlen : 0 < (tpmdHead.decode head).len.toNat
    · rw [if_pos hlen, running_bind_eq_ok] at hrest
      obtain ⟨⟨rc₂, data, con₂⟩, hdata, hend⟩ := hrest
      have hlength : data.length = (tpmdHead.decode head).len.toNat := (sockRecvLoop_length hdata).trans block.2
      dsimp only at hend
      split_ifs at hend with hshort
      · cases hend
        exact ⟨⟨_, hlength⟩, rfl⟩
      · cases hend
        exact ⟨⟨_, hlength⟩, rfl⟩
    · rw [if_neg hlen] at hrest
      cases hrest
      exact ⟨⟨_, block.2⟩, rfl⟩

theorem readpacket_of_eof (hcon : Carries con []) (hfuel : 0 < fuel) :
    readpacket mem fuel con = some (.ok (-1, none, con)) := by
  rw [readpacket, running_ok_bind (sockRecv_of_eof hcon hfuel)]
  rfl

/-- The packets that are read are those that were sent, whatever parts the stream comes in. -/
theorem readPackets_of_carries {mem : Nat → PacketMemory} (hmem : ∀ i, (mem i).Works)
    {packets : List WellFormedPacket} {i : Nat} (hcon : Carries con (packets.flatMap WellFormedPacket.wire))
    (hfuel : (packets.flatMap WellFormedPacket.wire).length < fuel) :
    readPackets mem fuel i con = some (.ok (packets.map (·.toTpmdPacket), -1)) := by
  induction packets generalizing fuel i con with
  | nil =>
    obtain ⟨fuel, rfl⟩ := Nat.exists_eq_succ_of_ne_zero (Nat.ne_of_gt (Nat.zero_lt_of_lt hfuel))
    rw [readPackets, running_ok_bind (readpacket_of_eof hcon (Nat.succ_pos fuel))]
    rfl
  | cons p packets ih =>
    rw [List.flatMap_cons] at hcon hfuel
    rw [List.length_append] at hfuel
    have hwire := p.wire_length
    obtain ⟨fuel, rfl⟩ := Nat.exists_eq_succ_of_ne_zero (Nat.ne_of_gt (Nat.zero_lt_of_lt hfuel))
    have hpfuel : p.wire.length ≤ fuel + 1 := by omega
    obtain ⟨con', hread, hcon'⟩ := readpacket_of_carries (hmem i) hcon hpfuel
    have hothersfuel : (packets.flatMap WellFormedPacket.wire).length < fuel := by omega
    have hothers := ih (i := i + 1) hcon' hothersfuel
    rw [readPackets, running_ok_bind hread]
    simp only [ne_eq, not_true_eq_false, if_false]
    have hpkt : deref (some p.toTpmdPacket) = .ok p.toTpmdPacket := rfl
    rw [hpkt, checked_ok_bind, running_ok_bind hothers]
    rfl

/-- Framing does not depend on fragmentation: the loop ends, with the packets that were sent and the code -1 of the
call at the end of the stream. -/
theorem readPackets_framing (packets : List WellFormedPacket) (con : List Arrival)
    (hcon : Carries con (packets.flatMap WellFormedPacket.wire)) (mem : Nat → PacketMemory)
    (hmem : ∀ i, (mem i).Works) :
    ∃ bound, ∀ fuel ≥ bound, readPackets mem fuel 0 con = some (.ok (packets.map (·.toTpmdPacket), -1)) := by
  refine ⟨(packets.flatMap WellFormedPacket.wire).length + 1, ?_⟩
  intro fuel hfuel
  exact readPackets_of_carries hmem hcon hfuel

/-- A request without payload and one with a byte of payload. -/
def helloThenAttest : List WellFormedPacket :=
  [⟨⟨⟨1, 0, 0⟩, []⟩, rfl⟩, ⟨⟨⟨2, 0, 1⟩, [0xaa]⟩, rfl⟩]

/-- The memory is clear and `malloc` succeeds. -/
def clearMemory : PacketMemory := ⟨ByteBuf.zero 8, fun len => some (ByteBuf.zero len)⟩

/-- The two requests in three parts, which end inside the first header and inside the second one. -/
theorem readPackets_three_parts :
    ∃ bound, ∀ fuel ≥ bound,
      readPackets (fun _ => clearMemory) fuel 0
          [.bytes [1, 0, 0], .bytes [0, 0, 0, 0, 0, 2, 0, 0, 0, 1], .bytes [0, 0, 0, 0xaa]] =
        some (.ok (helloThenAttest.map (·.toTpmdPacket), -1)) := by
  apply readPackets_framing
  · have hwire : helloThenAttest.flatMap WellFormedPacket.wire =
        [1, 0, 0] ++ ([0, 0, 0, 0, 0, 2, 0, 0, 0, 1] ++ ([0, 0, 0, 0xaa] ++ [])) := by decide
    rw [hwire]
    exact .chunk (by decide) (.chunk (by decide) (.chunk (by decide) .eof))
  · intro i len
    rfl

end PortableTlsRa
