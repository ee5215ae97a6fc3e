/-
The bytes of a plain socket.  The loops of `read_bytes` and `send_bytes` call
until all bytes are moved.  `read_message` reads the payload behind the first
five bytes of its buffer, and compares its length with the whole buffer.
-/
import Octo.ReadMessage
import Octo.MessageMemory

namespace Octo

open MessageBytes List

/-- What a call of `recv` or `send` does: it moves one byte and `more`, or as
many as it is asked for. -/
inductive SocketResult (ε : Type)
  | moved (more : ℕ)
  | interrupted
  | ended (why : ε)

inductive Progress (ε : Type)
  | complete
  | waiting
  | ended (why : ε)

/-- How a call of one of the loops ends, if it does: `FATAL` stops the process. -/
inductive Ended
  | returned (code : ℤ)
  | stopped
  | waiting
deriving DecidableEq

section Transfer

variable {ε σ : Type}

/-- How many of `count` bytes are moved, how it stands then, and the calls that
are left. -/
def transfer : ℕ → List (SocketResult ε) → ℕ × Progress ε × List (SocketResult ε)
  | 0, results => (0, .complete, results)
  | _ + 1, [] => (0, .waiting, [])
  | count + 1, .moved more :: results =>
    let rest := transfer (count - more) results
    (min (more + 1) (count + 1) + rest.1, rest.2)
  | count + 1, .interrupted :: results => transfer (count + 1) results
  | _ + 1, .ended why :: results => (0, .ended why, results)

/-- All bytes are moved exactly if the transfer is complete, and it ends by what
one of the calls says. -/
theorem transfer_spec (count : ℕ) (results : List (SocketResult ε)) :
    (transfer count results).1 ≤ count ∧
    match (transfer count results).2.1 with
    | .complete => (transfer count results).1 = count
    | .waiting => ∀ why, .ended why ∉ results
    | .ended why => .ended why ∈ results := by
  induction results generalizing count with
  | nil => cases count <;> simp [transfer]
  | cons result results ih =>
    cases count with
    | zero => simp [transfer]
    | succ count =>
      cases result with
      | moved more =>
        obtain ⟨hle, hstands⟩ := ih (count - more)
        have hmin : min (more + 1) (count + 1) = count + 1 - (count - more) := by omega
        simp only [transfer, hmin]
        refine ⟨by omega, ?_⟩
        split <;> simp_all
        omega
      | interrupted => simpa [transfer] using ih (count + 1)
      | ended why => simp [transfer]

/-- The loops of `read_bytes` and `send_bytes`: `move` is done with the bytes of a
call, and `fail` is what follows an error. -/
def socketLoop (total : ℤ) (move : ℕ → ℕ → σ → σ) (fail : ε → Ended) (soFar : ℕ) (s : σ) :
    List (SocketResult ε) → Ended × σ × List (SocketResult ε)
  | [] => if soFar < total then (.waiting, s, []) else (.returned 0, s, [])
  | result :: results =>
    if soFar < total then
      match result with
      | .moved more =>
        let now := min (more + 1) (total - soFar).toNat
        socketLoop total move fail (soFar + now) (move soFar now s) results
      | .interrupted => socketLoop total move fail soFar s results
      | .ended why => (fail why, s, results)
    else (.returned 0, s, result :: results)

def Progress.ending (fail : ε → Ended) : Progress ε → Ended
  | .complete => .returned 0
  | .waiting => .waiting
  | .ended why => fail why

/-- A loop whose moves add up does one transfer. -/
theorem socketLoop_eq {total : ℤ} {move : ℕ → ℕ → σ → σ} {fail : ε → Ended}
    (hzero : ∀ soFar s, move soFar 0 s = s)
    (hadd : ∀ soFar m n s, move (soFar + m) n (move soFar m s) = move soFar (m + n) s) (soFar : ℕ)
    (s : σ) (results : List (SocketResult ε)) : socketLoop total move fail soFar s results =
    ((transfer (total - soFar).toNat results).2.1.ending fail,
    move soFar (transfer (total - soFar).toNat results).1 s,
    (transfer (total - soFar).toNat results).2.2) := by
  induction results generalizing soFar s with
  | nil =>
    cases hcount : (total - soFar).toNat with
    | zero => rw [socketLoop, if_neg (by omega), transfer, hzero, Progress.ending]
    | succ count => rw [socketLoop, if_pos (by omega), transfer, hzero, Progress.ending]
  | cons result results ih =>
    cases hcount : (total - soFar).toNat with
    | zero =>
      rw [socketLoop.eq_def, transfer, hzero, Progress.ending]
      exact if_neg (by omega)
    | succ count =>
      have hmore : soFar < total := by omega
      cases result with
      | moved more =>
        have hleft : (total - (soFar + min (more + 1) (count + 1) : ℕ)).toNat = count - more := by
          omega
        simp only [socketLoop, if_pos hmore, hcount, transfer, ih, hleft, hadd]
      | interrupted => simp only [socketLoop, if_pos hmore, ih, hcount, transfer]
      | ended why => simp only [socketLoop, if_pos hmore, transfer, hzero, Progress.ending]

end Transfer

/-- `recv` returns 0, or an error other than `EINTR`. -/
inductive RecvEnd
  | closed
  | failed

/-- The bytes that come, in order, how many of them were taken, and the memory. -/
structure Connection where
  stream : ℕ → UInt8
  taken : ℕ
  mem : Memory

namespace Connection

/-- The next bytes are written at `p`. -/
def receive (c : Connection) (p : ℤ) (count : ℕ) : Connection where
  stream := c.stream
  taken := c.taken + count
  mem q := if p ≤ q ∧ q < p + count then c.stream (c.taken + (q - p).toNat) else c.mem q

@[simp] theorem receive_zero (c : Connection) (p : ℤ) : c.receive p 0 = c := by
  have hnone : ∀ q, ¬(p ≤ q ∧ q < p + (0 : ℕ)) := by omega
  simp only [receive, if_neg (hnone _), Nat.add_zero]

theorem receive_receive (c : Connection) (p : ℤ) (m n : ℕ) :
    (c.receive p m).receive (p + m) n = c.receive p (m + n) := by
  simp only [receive, Connection.mk.injEq, true_and]
  refine ⟨Nat.add_assoc _ _ _, funext fun q => ?_⟩
  split_ifs <;> first | omega | rfl | skip
  congr 1
  omega

end Connection

abbrev Received := Ended × Connection × List (SocketResult RecvEnd)

namespace SocketBytes

def readFail : RecvEnd → Ended
  | .failed => .returned (-1)
  | .closed => .returned (-2)

def readLoop (p bytesToRead : ℤ) : ℕ → Connection → List (SocketResult RecvEnd) → Received :=
  socketLoop bytesToRead (fun readSoFar readNow c => c.receive (p + readSoFar) readNow) readFail

end SocketBytes

open SocketBytes in
/-- `read_bytes` without TLS, into memory at `p`. -/
def readBytes (p bufferSize bytesToRead : ℤ) (c : Connection)
    (results : List (SocketResult RecvEnd)) : Received :=
  if bytesToRead > bufferSize then (.returned (-1), c, results)
  else if bytesToRead < 0 then (.returned (-1), c, results)
  else readLoop p bytesToRead 0 c results

/-- The buffer of `read_message` is at address 0.  The subtraction is of type
`size_t`, and its result becomes an `int`.  NULL is returned with any code but 0. -/
def readMessage (bufferSize : ℤ) (c : Connection) (results : List (SocketResult RecvEnd)) :
    Received :=
  match readBytes 0 bufferSize 5 c results with
  | (.returned 0, c, results) =>
    readBytes 5 bufferSize (signed 4 ((c.mem.load 4 1 + 2 ^ 64 - 4) % 2 ^ 32)) c results
  | out => out

/-- The errors of `send` but `EINTR`: `ECONNRESET`, `EPIPE`, and all others. -/
inductive SendEnd
  | reset
  | pipe
  | other
deriving DecidableEq

namespace SocketBytes

def sendFail : SendEnd → Ended
  | .reset => .returned 1
  | .pipe => .returned 1
  | .other => .stopped

def sendLoop (message : List UInt8) (toWrite : ℤ) : ℕ → List UInt8 →
    List (SocketResult SendEnd) → Ended × List UInt8 × List (SocketResult SendEnd) :=
  socketLoop toWrite (fun writtenSoFar writtenNow sent =>
    sent ++ (message.drop writtenSoFar).take writtenNow) sendFail

/-- The length, of type `size_t`, as an `int`. -/
def toWrite (message : List UInt8) : ℤ := signed 4 (message.length % 2 ^ 32)

end SocketBytes

open SocketBytes in
/-- `send_bytes` without TLS: how it ends, and what was sent then. -/
def sendBytes (message : List UInt8) (results : List (SocketResult SendEnd)) :
    Ended × List UInt8 × List (SocketResult SendEnd) :=
  sendLoop message (toWrite message) 0 [] results

namespace SocketBytes

/-- What `read_bytes` owes: the next bytes of the stream, all of them if it
returns 0, and an error code otherwise. -/
def ReadsExactly (p bufferSize bytesToRead : ℤ) (c : Connection)
    (results : List (SocketResult RecvEnd)) : Prop :=
  ∃ n : ℕ, (readBytes p bufferSize bytesToRead c results).2.1 = c.receive p n ∧
    (0 < n → n ≤ bytesToRead ∧ bytesToRead ≤ bufferSize) ∧
    match (readBytes p bufferSize bytesToRead c results).1 with
    | .returned code => code = 0 ∧ n = bytesToRead ∨
        code = -1 ∧ (.ended .failed ∈ results ∨ bytesToRead < 0 ∨ bufferSize < bytesToRead) ∨
        code = -2 ∧ .ended .closed ∈ results
    | .stopped => False
    | .waiting => ∀ why, .ended why ∉ results

variable (message : List UInt8) (results : List (SocketResult SendEnd))

/-- What `send_bytes` owes. -/
def SendsExactly : Prop :=
  ∃ n ≤ message.length, (sendBytes message results).2.1 = message.take n ∧
    match (sendBytes message results).1 with
    | .returned code => code = 0 ∧ n = message.length ∨ code = 1 ∧ ∃ why, .ended why ∈ results
    | .stopped => False
    | .waiting => ∀ why, .ended why ∉ results

/-- No other error comes before the end, and a message that is sent to its end is
not longer than an `int` can say. -/
def Sendable : Prop :=
  match (transfer (toWrite message).toNat results).2.1 with
  | .complete => message.length < 2 ^ 31
  | .waiting => True
  | .ended why => why ≠ .other

theorem readLoop_eq (p bytesToRead : ℤ) (c : Connection) (results : List (SocketResult RecvEnd)) :
    readLoop p bytesToRead 0 c results = ((transfer bytesToRead.toNat results).2.1.ending readFail,
    c.receive p (transfer bytesToRead.toNat results).1,
    (transfer bytesToRead.toNat results).2.2) := by
  rw [readLoop, socketLoop_eq]
  · simp
  · exact fun readSoFar c => c.receive_zero _
  · intro readSoFar m n c
    rw [Nat.cast_add, ← add_assoc, c.receive_receive]

theorem sendLoop_eq (toWrite : ℤ) :
    sendLoop message toWrite 0 [] results = ((transfer toWrite.toNat results).2.1.ending sendFail,
    message.take (transfer toWrite.toNat results).1, (transfer toWrite.toNat results).2.2) := by
  rw [sendLoop, socketLoop_eq]
  · simp
  · simp
  · intro writtenSoFar m n sent
    rw [append_assoc, ← drop_drop, ← take_add]

theorem toWrite_toNat_lt : (toWrite message).toNat < 2 ^ 31 := by
  unfold toWrite signed
  split_ifs <;> omega

theorem toWrite_of_lt {message : List UInt8} (hlt : message.length < 2 ^ 31) :
    (toWrite message).toNat = message.length := by
  rw [toWrite, Nat.mod_eq_of_lt (by omega), signed_of_lt (by omega), Int.toNat_natCast]

theorem readBytes_readsExactly (p bufferSize bytesToRead : ℤ) (c : Connection)
    (results : List (SocketResult RecvEnd)) : ReadsExactly p bufferSize bytesToRead c results := by
  unfold ReadsExactly readBytes
  split_ifs with hlarge hneg
  · exact ⟨0, (c.receive_zero p).symm, by simp, by simp [hlarge]⟩
  · exact ⟨0, (c.receive_zero p).symm, by simp, by simp [hneg]⟩
  · obtain ⟨hle, hstands⟩ := transfer_spec bytesToRead.toNat results
    rw [readLoop_eq]
    refine ⟨_, rfl, by omega, ?_⟩
    cases hprogress : (transfer bytesToRead.toNat results).2.1 with
    | complete =>
      rw [hprogress] at hstands
      exact .inl ⟨rfl, by omega⟩
    | waiting =>
      rw [hprogress] at hstands
      exact hstands
    | ended why =>
      rw [hprogress] at hstands
      cases why with
      | closed => exact .inr (.inr ⟨rfl, hstands⟩)
      | failed => exact .inr (.inl ⟨rfl, .inl hstands⟩)

theorem sendsExactly_iff : SendsExactly message results ↔ Sendable message results := by
  obtain ⟨hle, hstands⟩ := transfer_spec (toWrite message).toNat results
  have hlt := toWrite_toNat_lt message
  simp only [SendsExactly, Sendable, sendBytes, sendLoop_eq]
  cases hprogress : (transfer (toWrite message).toNat results).2.1 with
  | complete =>
    rw [hprogress] at hstands
    constructor
    · rintro ⟨n, hn, htake, ⟨-, rfl⟩ | ⟨hcode, -⟩⟩
      · -- a longer message is not sent to its end
        have hlength := congrArg length htake
        simp only [length_take] at hlength
        omega
      · cases hcode
    · intro hshort
      rw [hstands, toWrite_of_lt hshort]
      exact ⟨_, le_rfl, rfl, .inl ⟨rfl, rfl⟩⟩
  | waiting =>
    rw [hprogress] at hstands
    exact iff_of_true ⟨_, min_le_right _ _, take_eq_take_min, hstands⟩ trivial
  | ended why =>
    rw [hprogress] at hstands
    cases why with
    | other => simp [Progress.ending, sendFail]
    | reset | pipe =>
      exact iff_of_true ⟨_, min_le_right _ _, take_eq_take_min, .inr ⟨rfl, _, hstands⟩⟩ nofun

end SocketBytes

open SocketBytes in
/-- The loops owe no more than they do, exactly for messages and results that
`send_bytes` is made for. -/
theorem socket_loops_move_exactly_iff (p bufferSize bytesToRead : ℤ) (c : Connection)
    (received : List (SocketResult RecvEnd)) (message : List UInt8)
    (results : List (SocketResult SendEnd)) :
    ReadsExactly p bufferSize bytesToRead c received ∧ SendsExactly message results ↔
      Sendable message results := by
  rw [sendsExactly_iff]
  exact and_iff_right (readBytes_readsExactly p bufferSize bytesToRead c received)

open SocketBytes in
/-- A message of 2³¹ bytes is reported as sent before anything is sent, and an
error such as `ENOBUFS` stops the process. -/
theorem long_message_is_not_sent :
    sendBytes (replicate (2 ^ 31) 0) [.moved 0] = (.returned 0, [], [.moved 0]) ∧
    (sendBytes [0] [.ended .other]).1 = .stopped ∧
    ¬SendsExactly (replicate (2 ^ 31) 0) [.moved 0] := by
  have hzero : (toWrite (replicate (2 ^ 31) 0)).toNat = 0 := by
    rw [toWrite, length_replicate]
    decide
  refine ⟨?_, by decide, ?_⟩
  · rw [sendBytes, sendLoop_eq, hzero]
    rfl
  · rw [sendsExactly_iff, Sendable, hzero, transfer, length_replicate]
    decide

namespace SocketBytes

/-- The length field of the message that comes next. -/
def incomingLength (c : Connection) : ℕ :=
  number ((range 4).map fun i => c.stream (c.taken + 1 + i))

/-- Nothing outside the buffer is written, and a message that is returned lies in
it: its type and as many bytes as its length says. -/
def StaysInside (bufferSize : ℤ) (c : Connection) (results : List (SocketResult RecvEnd)) : Prop :=
  (∀ q, q < 0 ∨ bufferSize ≤ q → (readMessage bufferSize c results).2.1.mem q = c.mem q) ∧
  ((readMessage bufferSize c results).1 = .returned 0 →
    4 ≤ incomingLength c ∧ 1 + incomingLength c ≤ bufferSize)

theorem load_receive (c : Connection) : (c.receive 0 5).mem.load 4 1 = incomingLength c := by
  rw [Memory.load, Memory.read, incomingLength]
  congr 1

theorem signed_payload {length : ℕ} (hlength : length < 2 ^ 32) :
    signed 4 ((length + 2 ^ 64 - 4) % 2 ^ 32) =
      if length < 2 ^ 31 + 4 then (length : ℤ) - 4 else length - 4 - 2 ^ 32 := by
  unfold signed
  split_ifs <;> omega

end SocketBytes

open SocketBytes in
/-- The buffer is kept to, whatever arrives when, exactly if the length is less
than its size or by more than four bytes larger. -/
theorem readMessage_staysInside_iff (bufferSize : Int32) (c : Connection) :
    (∀ results, StaysInside bufferSize.toInt c results) ↔
      bufferSize.toInt < 5 ∨ incomingLength c < bufferSize.toInt ∨
      bufferSize.toInt + 4 < incomingLength c := by
  have hlength : incomingLength c < 2 ^ 32 :=
    lt_of_lt_of_eq (number_lt _) (by simp)
  have hsize := bufferSize.toInt_lt
  constructor
  · intro hinside
    by_contra hcond
    -- all bytes arrive, and they come in two pieces
    obtain ⟨-, hreturned⟩ := hinside [.moved 4, .moved (incomingLength c - 5)]
    have hcount : (incomingLength c - 4 : ℤ).toNat = incomingLength c - 5 + 1 := by omega
    have hfirst : readBytes 0 bufferSize.toInt 5 c [.moved 4, .moved (incomingLength c - 5)] =
        (.returned 0, c.receive 0 5, [.moved (incomingLength c - 5)]) := by
      rw [readBytes, if_neg (by omega), if_neg (by omega), readLoop_eq]
      rfl
    have hsecond := hreturned (by
      rw [readMessage, hfirst]
      simp only [load_receive, signed_payload hlength]
      rw [if_pos (by omega), readBytes, if_neg (by omega), if_neg (by omega), readLoop_eq, hcount]
      simp [transfer, Progress.ending])
    omega
  · intro hcond results
    obtain ⟨m, hreceived, hm, hends⟩ := readBytes_readsExactly 0 bufferSize.toInt 5 c results
    rw [StaysInside, readMessage]
    split
    next c' rest hread =>
      simp only [hread] at hreceived hends
      obtain rfl : m = 5 := by omega
      rw [hreceived, load_receive, signed_payload hlength]
      obtain ⟨n, hreceived', hn, hends'⟩ := readBytes_readsExactly 5 bufferSize.toInt
        (if incomingLength c < 2 ^ 31 + 4 then (incomingLength c : ℤ) - 4
          else incomingLength c - 4 - 2 ^ 32) (c.receive 0 5) rest
      refine ⟨fun q hq => ?_, fun hzero => ?_⟩
      · rw [hreceived']
        simp only [Connection.receive]
        rw [if_neg (by split_ifs at hn <;> omega), if_neg (by omega)]
      · rw [hzero] at hends'
        split_ifs at hn hends' <;> omega
    next hne =>
      refine ⟨fun q hq => ?_, fun hzero => (hne _ _ (Prod.ext hzero rfl)).elim⟩
      rw [hreceived]
      simp only [Connection.receive]
      rw [if_neg (by omega)]

/-- A Query of nine bytes. -/
def nineBytes : Connection := ⟨fun i => [81, 0, 0, 0, 8].getD i 65, 0, fun _ => 0⟩

/-- The ninth is written behind a buffer of eight. -/
theorem payload_passes_buffer : nineBytes.mem 8 = 0 ∧
    (readMessage 8 nineBytes [.moved 4, .moved 3]).1 = .returned 0 ∧
    (readMessage 8 nineBytes [.moved 4, .moved 3]).2.1.mem 8 = 65 := by
  decide

end Octo
