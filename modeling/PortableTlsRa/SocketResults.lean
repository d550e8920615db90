import PortableTlsRa.Framing
import PortableTlsRa.Lib.Transfer

/-!
# What the socket helpers report

`sock_recv` and `sock_send` on the results of the calls that they make.  Both keep the result of a call in a `size_t`,
where -1 is a large size: a call that fails takes one off the count, and as the first call it ends the loop with 0.  So
both tell the truth exactly when no call fails that is still needed (`sockRecv_sockSend_truthful_iff`).  A stream that
ends within the buffer is read for ever (`sockRecvLoop_short`), so that a reader gets its answer exactly when the peer
sent nothing or enough (`sockRecv_endsRight_iff`).
-/

namespace PortableTlsRa

open CSem

/-! ### The results of the calls -/

/-- One turn of `sock_recv`, where the call takes what it asked for of the bytes that are there. -/
def recvTurn (size totsz : Nat) (buf there : Bytes) : Checked (Option (Nat × Bytes)) :=
  let data := there.take (size - totsz)
  if data.length = 0 ∧ totsz = 0 then .ok none
  else do
    let buf ← writeRange buf totsz data
    return some (data.length, buf)

/-- `sock_recv` where the calls of `recv` have the results, of which `none` is -1.  Returns the code, what the buffer
holds then and the results that are left. -/
def sockRecvOn (size : Nat) (buf : Bytes) (results : List (Option Bytes)) :
    Running (Int × Bytes × List (Option Bytes)) :=
  transferLoop size (recvTurn size) 0 buf results

/-- One turn of `sock_send`, where the call takes `n` bytes, or as many as it is given. -/
def sendTurn (buf : Bytes) (size totsz : Nat) (wire : Bytes) (n : Nat) : Checked (Option (Nat × Bytes)) :=
  let sz := min n (size - totsz)
  if sz = 0 then .ok none
  else do
    let data ← readRange buf totsz sz
    return some (sz, wire ++ data)

/-- `sock_send` where the calls of `write` have the results, of which `none` is -1.  Returns the code, the bytes that
were taken and the results that are left. -/
def sockSendOn (size : Nat) (buf : Bytes) (results : List (Option Nat)) : Running (Int × Bytes × List (Option Nat)) :=
  transferLoop size (sendTurn buf size) 0 [] results

variable {size totsz fuel : Nat} {buf b : Bytes} {con : List Arrival}

/-- The loop over a stream is the loop over the results that its calls have. -/
theorem sockRecvLoop_results {r : Except Fault (Int × Bytes × List Arrival)}
    (h : sockRecvLoop size fuel totsz buf con = some r) :
    ∃ results, transferLoop size (recvTurn size) totsz buf results = some (r.map fun x => (x.1, x.2.1, [])) := by
  induction fuel generalizing totsz buf con with
  | zero => cases h
  | succ fuel ih =>
    rw [sockRecvLoop] at h
    rcases hrecv : recv (size - totsz) con with ⟨_ | data, con'⟩
    · rw [hrecv] at h
      dsimp only at h
      split_ifs at h with hmore
      · obtain ⟨results, hresults⟩ := ih h
        refine ⟨none :: results, ?_⟩
        rw [transferLoop, ← hresults]
        exact if_pos hmore
      · cases h
        refine ⟨[none], ?_⟩
        rw [transferLoop]
        exact if_neg hmore
    · have htake : data.take (size - totsz) = data := List.take_of_length_le (recv_length_le hrecv)
      rw [hrecv] at h
      dsimp only at h
      by_cases hclosed : data.length = 0 ∧ totsz = 0
      · rw [if_pos hclosed] at h
        cases h
        refine ⟨[some data], ?_⟩
        rw [transferLoop, recvTurn, htake, if_pos hclosed]
        rfl
      · rw [if_neg hclosed] at h
        cases hwrite : writeRange buf totsz data with
        | error f =>
          rw [hwrite] at h
          cases h
          refine ⟨[some data], ?_⟩
          rw [transferLoop, recvTurn, htake, if_neg hclosed, hwrite]
          rfl
        | ok buf' =>
          have hturn : recvTurn size totsz buf data = .ok (some (data.length, buf')) := by
            rw [recvTurn, htake, if_neg hclosed, hwrite]
            rfl
          rw [hwrite, checked_ok_bind] at h
          split_ifs at h with hmore
          · obtain ⟨results, hresults⟩ := ih h
            refine ⟨some data :: results, ?_⟩
            rw [transferLoop, hturn, checked_ok_bind, ← hresults]
            exact if_pos hmore
          · cases h
            refine ⟨[some data], ?_⟩
            rw [transferLoop, hturn, checked_ok_bind]
            exact if_neg hmore

/-! ### What is moved -/

/-- The bytes that were received, as far as there is room for them, are at the front of the buffer. -/
structure Received (size : Nat) (taken : List Bytes) (buf : Bytes) : Prop where
  length : buf.length = size
  front : buf.take (taken.map List.length).sum = taken.flatten.take size

theorem recvTurn_movesBy (size : Nat) :
    MovesBy size (recvTurn size) List.length (fun totsz sz => sz = 0 ∧ totsz = 0) (Received size) where
  leave taken buf there _ _ hstops := by
    rw [recvTurn, List.length_take, Nat.min_comm]
    exact if_pos hstops
  next taken buf there hreceived hle hgoing := by
    generalize htotsz : (taken.map List.length).sum = totsz at hle hgoing ⊢
    have hdata : (there.take (size - totsz)).length = min there.length (size - totsz) := by
      rw [List.length_take, Nat.min_comm]
    have hroom : totsz + (there.take (size - totsz)).length ≤ buf.length := by
      rw [hreceived.length, hdata]
      omega
    refine ⟨_, by rw [recvTurn, hdata, if_neg hgoing, writeRange, if_pos hroom]; rfl, ?_, ?_⟩
    · simp only [List.length_append, List.length_take, List.length_drop, hreceived.length]
      omega
    · have hflat : taken.flatten.length = totsz := by rw [List.length_flatten, htotsz]
      have hfront : buf.take totsz = taken.flatten := by
        rw [← htotsz, hreceived.front, List.take_of_length_le (by omega)]
      have hjoin : (taken.flatten ++ there).take size = taken.flatten ++ there.take (size - totsz) := by
        rw [List.take_append, hflat, List.take_of_length_le (by omega)]
      rw [total_concat, htotsz, hfront, List.flatten_concat, hjoin]
      by_cases hfits : there.length ≤ size - totsz
      · have hall : (taken.flatten ++ there).length = totsz + there.length := by rw [List.length_append, hflat]
        rw [List.take_of_length_le hfits, List.take_left' hall]
      · -- the buffer is full
        have hall : (taken.flatten ++ there.take (size - totsz)).length = size := by
          rw [List.length_append, hdata, hflat]
          omega
        rw [hdata, List.drop_eq_nil_of_le (by rw [hreceived.length]; omega), List.append_nil,
          List.take_of_length_le (by omega)]
  idle := ⟨rfl, rfl⟩

/-- The bytes that were taken are those at the front of the buffer. -/
def Sent (buf : Bytes) (taken : List Nat) (wire : Bytes) : Prop := wire = buf.take (taken.map id).sum

theorem sendTurn_movesBy (hbuf : buf.length = size) :
    MovesBy size (sendTurn buf size) id (fun _ sz => sz = 0) (Sent buf) where
  leave taken wire n _ _ hstops := by
    rw [sendTurn]
    exact if_pos hstops
  next taken wire n hsent hle hgoing := by
    have hrange : readRange buf (taken.map id).sum (min n (size - (taken.map id).sum)) =
        .ok ((buf.drop (taken.map id).sum).take (min n (size - (taken.map id).sum))) := by
      rw [readRange, if_pos (by omega)]
    rw [id] at hgoing ⊢
    refine ⟨_, by rw [sendTurn]; simp only [if_neg hgoing, hrange]; rfl, ?_⟩
    rw [Sent, hsent, total_concat, ← List.take_add]
    by_cases hfits : n ≤ size - (taken.map id).sum
    · rw [Nat.min_eq_left hfits, id]
    · -- all of the buffer was taken
      rw [List.take_of_length_le (by omega), List.take_of_length_le (by rw [id]; omega)]
  idle := rfl

theorem sockSendOn_ends {results : List (Option Nat)} (hbuf : buf.length = size)
    (h : sockSendOn size buf results ≠ none) :
    ∃ rc wire rest, sockSendOn size buf results = some (.ok (rc, wire, rest)) ∧ (rc = 0 ∨ rc = -1) := by
  refine transferLoop_ends (fun totsz htotsz wire n => ?_) (Nat.zero_le size) h
  by_cases hsz : min n (size - totsz) = 0
  · exact ⟨none, if_pos hsz⟩
  · refine ⟨some (min n (size - totsz), wire ++ (buf.drop totsz).take (min n (size - totsz))), ?_⟩
    have hrange : readRange buf totsz (min n (size - totsz)) =
        .ok ((buf.drop totsz).take (min n (size - totsz))) := by
      rw [readRange, if_pos (by omega)]
    simp only [sendTurn, if_neg hsz, hrange]
    rfl

/-! ### When the helpers tell the truth -/

/-- None of the calls failed, and the buffer holds the first bytes that were received. -/
def AllReceived (size : Nat) (front : List (Option Bytes)) (buf : Bytes) : Prop :=
  ∃ taken : List Bytes, front = taken.map some ∧ size ≤ taken.flatten.length ∧ buf = taken.flatten.take size

/-- None of the calls failed, and the bytes of the buffer were taken, in order. -/
def AllSent (buf : Bytes) (front : List (Option Nat)) (wire : Bytes) : Prop :=
  ∃ taken : List Nat, front = taken.map some ∧ buf.length ≤ taken.sum ∧ wire = buf

/-- A call of `recv` fails while bytes are missing, and the peer has not closed the connection before the first. -/
def RecvErrorReached (size : Nat) (results : List (Option Bytes)) : Prop :=
  ∃ (front : List Bytes) (back : List (Option Bytes)), results = front.map some ++ none :: back ∧
    (front = [] ∨ front.flatten.length < size ∧ front.head? ≠ some [])

/-- A call of `write` fails while bytes are missing, and none before it took no byte. -/
def SendErrorReached (size : Nat) (results : List (Option Nat)) : Prop :=
  ∃ (front : List Nat) (back : List (Option Nat)), results = front.map some ++ none :: back ∧
    (front = [] ∨ front.sum < size ∧ 0 ∉ front)

theorem movedAll_received_iff {front : List (Option Bytes)} :
    MovedAll size List.length (Received size) front buf ↔ AllReceived size front buf := by
  constructor
  · rintro ⟨taken, rfl, hall, hlength, hfront⟩
    refine ⟨taken, rfl, by rwa [List.length_flatten], ?_⟩
    rw [← hfront, List.take_of_length_le (by omega)]
  · rintro ⟨taken, rfl, hall, rfl⟩
    have htotal : size ≤ (taken.map List.length).sum := by rwa [← List.length_flatten]
    have hlength : (taken.flatten.take size).length = size := by
      rw [List.length_take, Nat.min_eq_left hall]
    exact ⟨taken, rfl, htotal, hlength, List.take_of_length_le (by omega)⟩

theorem movedAll_sent_iff {front : List (Option Nat)} {wire : Bytes} :
    MovedAll buf.length id (Sent buf) front wire ↔ AllSent buf front wire := by
  simp only [MovedAll, AllSent, Sent, List.map_id]
  constructor
  · rintro ⟨taken, rfl, hall, rfl⟩
    exact ⟨taken, rfl, hall, List.take_of_length_le hall⟩
  · rintro ⟨taken, rfl, hall, rfl⟩
    exact ⟨taken, rfl, hall, (List.take_of_length_le hall).symm⟩

theorem insufficient_received_iff {front : List Bytes} :
    Insufficient size List.length (fun totsz sz => sz = 0 ∧ totsz = 0) [] front ↔
      front.flatten.length < size ∧ front.head? ≠ some [] := by
  rw [Insufficient, List.nil_append, ← List.length_flatten]
  refine and_congr_right fun _ => ⟨fun hgoing hhead => ?_, fun hhead pre data post hfront hstops => ?_⟩
  · obtain ⟨front, rfl⟩ := List.head?_eq_some_iff.1 hhead
    exact hgoing [] [] front rfl ⟨rfl, rfl⟩
  · obtain ⟨hdata, hpre⟩ := hstops
    rw [List.nil_append, ← List.length_flatten, List.length_eq_zero_iff, List.flatten_eq_nil_iff] at hpre
    rw [List.length_eq_zero_iff] at hdata
    apply hhead
    cases pre with
    | nil => rw [hfront, hdata, List.nil_append, List.head?_cons]
    | cons first pre => rw [hfront, hpre first List.mem_cons_self, List.cons_append, List.head?_cons]

theorem insufficient_sent_iff {front : List Nat} :
    Insufficient size id (fun _ sz => sz = 0) [] front ↔ front.sum < size ∧ 0 ∉ front := by
  rw [Insufficient, List.nil_append, List.map_id]
  refine and_congr_right fun _ => ⟨fun hgoing hzero => ?_, fun hzero pre n post hfront hstops => ?_⟩
  · obtain ⟨pre, post, hfront⟩ := List.append_of_mem hzero
    exact hgoing pre 0 post hfront rfl
  · apply hzero
    rw [hfront, show n = 0 from hstops]
    exact List.mem_append_right pre List.mem_cons_self

/-- Both helpers report what they did exactly when they meet no error. -/
theorem sockRecv_sockSend_truthful_iff (size : Nat) (buf : ByteBuf size) (received : List (Option Bytes))
    (written : List (Option Nat)) :
    (Truthful (sockRecvOn size buf.1) (AllReceived size) received ↔ ¬ RecvErrorReached size received) ∧
      (Truthful (sockSendOn size buf.1) (AllSent buf.1) written ↔ ¬ SendErrorReached size written) := by
  obtain ⟨buf, hbuf⟩ := buf
  constructor
  · have hempty : Received size [] buf := ⟨hbuf, List.take_nil.symm⟩
    have hall : MovedAll size List.length (Received size) = AllReceived size := by
      funext front buf'
      exact propext movedAll_received_iff
    have h : Truthful (transferLoop size (recvTurn size) 0 buf) _ received ↔ _ :=
      (recvTurn_movesBy size).truthful_iff hempty
    simp only [hall, insufficient_received_iff] at h
    exact h
  · subst hbuf
    have hall : MovedAll buf.length id (Sent buf) = AllSent buf := by
      funext front wire
      exact propext movedAll_sent_iff
    have h : Truthful (transferLoop buf.length (sendTurn buf buf.length) 0 []) _ written ↔ _ :=
      (sendTurn_movesBy rfl).truthful_iff rfl
    simp only [hall, insufficient_sent_iff] at h
    exact h

/-- A call that fails at the start is reported as success. -/
theorem failedFirst_not_truthful : ¬ Truthful (sockRecvOn 8 (List.replicate 8 0)) (AllReceived 8) [none] ∧
    ¬ Truthful (sockSendOn 8 (List.replicate 8 0)) (AllSent (List.replicate 8 0)) [none] :=
  ⟨fun h => not_reported [] (h.failing [] [] rfl rfl), fun h => not_reported [] (h.failing [] [] rfl rfl)⟩

/-! ### A stream that ends -/

/-- The reader gets an answer, with the code that says how much was there. -/
def EndsRight (size : Nat) (buf : Bytes) (con : List Arrival) (b : Bytes) : Prop :=
  EndsIn (fun fuel => sockRecv fuel con buf size) fun r =>
    (b = [] → r.1 = -1) ∧ (b ≠ [] → b.length < size → r.1 = -2)

/-- A stream that ends within the buffer is read for ever: at its end every call receives nothing. -/
theorem sockRecvLoop_short (hcon : Carries con b) (hstart : 0 < totsz + b.length) (hshort : totsz + b.length < size)
    (hbuf : size ≤ buf.length) : sockRecvLoop size fuel totsz buf con = none := by
  induction fuel generalizing totsz buf con b with
  | zero => rfl
  | succ fuel ih =>
    obtain ⟨data, rest, con', hlength, hrecv, hcon', hprogress⟩ : ∃ data rest con',
        data.length + rest.length = b.length ∧ recv (size - totsz) con = (some data, con') ∧ Carries con' rest ∧
          (b ≠ [] → data ≠ []) := by
      by_cases hb : b = []
      · subst hb
        exact ⟨[], [], con, rfl, hcon.recv_nil, hcon, fun h => absurd rfl h⟩
      · obtain ⟨data, rest, con', hdata, -, rfl, hrecv, hcon'⟩ := hcon.recv hb (by omega : 0 < size - totsz)
        exact ⟨data, rest, con', List.length_append.symm, hrecv, hcon', fun _ => hdata⟩
    have hgoing : ¬ (data.length = 0 ∧ totsz = 0) := by
      rintro ⟨hdata, rfl⟩
      have hb : b ≠ [] := List.length_pos_iff.1 (by omega)
      exact hprogress hb (List.length_eq_zero_iff.1 hdata)
    have hwrite : writeRange buf totsz data = .ok (buf.take totsz ++ data ++ buf.drop (totsz + data.length)) := by
      rw [writeRange, if_pos (by omega)]
    rw [sockRecvLoop, hrecv]
    dsimp only
    rw [if_neg hgoing, hwrite, checked_ok_bind, if_pos (by omega)]
    refine ih hcon' ?_ ?_ (by rw [(writeRange_length hwrite).2]; exact hbuf)
    · by_contra hzero
      exact hgoing (by omega)
    · omega

/-- The reader gets its answer exactly when the peer closed the connection at once or had sent enough. -/
theorem sockRecv_endsRight_iff (hsize : 0 < size) (buf : ByteBuf size) (hcon : Carries con b) :
    EndsRight size buf.1 con b ↔ b = [] ∨ size ≤ b.length := by
  by_cases hb : b = []
  · subst hb
    have hreturns : ∀ fuel ≥ 1, sockRecv fuel con buf.1 size = some (.ok (-1, buf.1, con)) :=
      fun fuel hfuel => sockRecv_of_eof hcon hfuel
    rw [EndsRight, endsIn_of_returns hreturns]
    exact iff_of_true ⟨fun _ => rfl, fun h => absurd rfl h⟩ (.inl rfl)
  · rw [or_iff_right hb]
    by_cases henough : size ≤ b.length
    · obtain ⟨con', hrun, -⟩ := sockRecv_within hcon hsize henough (Nat.le_of_eq buf.2.symm)
      rw [EndsRight, endsIn_of_returns hrun]
      exact iff_of_true ⟨fun h => absurd h hb, fun _ hshort => absurd henough (Nat.not_le.2 hshort)⟩ henough
    · have hlength : 0 < b.length := List.length_pos_iff.2 hb
      have hshort : ∀ fuel, sockRecv fuel con buf.1 size = none := fun fuel =>
        sockRecvLoop_short hcon (by omega) (by omega) (Nat.le_of_eq buf.2.symm)
      exact iff_of_false (not_endsIn hshort) henough

theorem sockRecv_endsRight_twoBytes :
    EndsRight 2 [0, 0] [.bytes [1], .bytes [2, 3]] [1, 2, 3] ↔ ([1, 2, 3] : Bytes) = [] ∨ 2 ≤ [1, 2, 3].length :=
  sockRecv_endsRight_iff (by decide) ⟨[0, 0], rfl⟩ (.chunk (by decide) (.chunk (by decide) .eof))

/-- Half a header, and the connection is closed. -/
theorem sockRecv_halfHeader_not_endsRight :
    ¬ EndsRight 8 (List.replicate 8 0) [.bytes [1, 0, 0, 0]] [1, 0, 0, 0] :=
  not_endsIn fun _ => sockRecvLoop_short (.single (by decide)) (by decide) (by decide) (by decide)

end PortableTlsRa
