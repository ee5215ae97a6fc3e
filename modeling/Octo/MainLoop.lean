/-
The loop of the server over the messages of one client.  ReadyForQuery is sent
when no message is waiting, and not when one has been answered: what the client
sees depends on how fast it sends.
-/
import Octo.ReadBind

namespace Octo

open MessageBytes

def psqlSync : UInt8 := 83

namespace MainLoop

/-- What a handler did: its replies, and the session unless the loop is to be
left. -/
structure Handled (σ ρ : Type) where
  replies : List ρ
  session : Option σ

/-- The handlers of the messages, and how an error is sent. -/
structure Handlers (σ ρ : Type) where
  bind : Bind → σ → Handled σ ρ
  query : CString → σ → Handled σ ρ
  execute : Execute → σ → Handled σ ρ
  parse : Parse → σ → Handled σ ρ
  describe : ItemMessage → σ → Handled σ ρ
  error : ErrorResponse → ρ

/-- A message that comes, the memory it is read into, and whether what is sent
before it still reaches the client. -/
structure Input where
  message : BaseMessage
  heap : NextBlock
  before : ℕ → UInt8
  sent : Bool

/-- What the client sees, in order, with its own messages. -/
inductive Event (ρ : Type)
  | ready
  | received (message : BaseMessage)
  | reply (reply : ρ)

variable {σ ρ : Type}

/-- A message that cannot be read is answered with the error. -/
def handleRead {α : Type} (handlers : Handlers σ ρ)
    (read : Except ErrorResponse α) (handle : α → σ → Handled σ ρ) (session : σ) : Handled σ ρ :=
  match read with
  | .error err => ⟨[handlers.error err], some session⟩
  | .ok a => handle a session

/-- The `switch` over the type of the message.  Sync, Terminate and unknown
messages are not answered. -/
def dispatch (handlers : Handlers σ ρ) (input : Input) (session : σ) : Handled σ ρ :=
  let message := input.message
  if message.type = psqlBind then
    handleRead handlers ((readBind message input.heap input.before).map Prod.fst)
      handlers.bind session
  else if message.type = psqlQuery then
    handleRead handlers (readQuery message input.heap) handlers.query session
  else if message.type = psqlExecute then
    handleRead handlers (readExecute message input.heap) handlers.execute session
  else if message.type = psqlParse then
    handleRead handlers (readParse message input.heap) handlers.parse session
  else if message.type = psqlDescribe then
    handleRead handlers (readDescribe message input.heap) handlers.describe session
  else ⟨[], some session⟩

/-- An Execute that was read clears `send_ready_for_query` for one round. -/
def executed (input : Input) : Bool :=
  input.message.type = psqlExecute && (readExecute input.message input.heap).isOk

/-- The messages come with the outcome of the poll before each of them; the
last poll is the one after which no message comes any more. -/
def loop (handlers : Handlers σ ρ) (last : Bool) : List (Bool × Input) → σ → Bool → List (Event ρ)
  | [], _, sendReady => if last && sendReady then [.ready] else []
  | (idle, input) :: rounds, session, sendReady =>
    let handled := dispatch handlers input session
    let rest := .received input.message :: (handled.replies.map .reply ++
      match handled.session with
      | none => []
      | some session =>
        loop handlers last rounds session (!executed input))
    if idle && sendReady then
      .ready :: if input.sent then rest else []
    else rest

end MainLoop

open MainLoop in
def roctoMainLoop {σ ρ : Type} (handlers : Handlers σ ρ)
    (rounds : List (Bool × Input)) (last : Bool) (session : σ) : List (Event ρ) :=
  loop handlers last rounds session true

namespace MainLoop

variable {σ ρ : Type}

/-- The messages after which the client waits for ReadyForQuery. -/
def asksReady (input : Input) : Bool :=
  input.message.type = psqlQuery || input.message.type = psqlSync

/-- What the protocol wants, without regard to time: ReadyForQuery at the
beginning, after each Query and after each Sync. -/
def expected (handlers : Handlers σ ρ) : List Input → σ → Bool → List (Event ρ)
  | [], _, asked => if asked then [.ready] else []
  | input :: inputs, session, asked =>
    let handled := dispatch handlers input session
    let rest := .received input.message :: (handled.replies.map .reply ++
      match handled.session with
      | none => []
      | some session => expected handlers inputs session (asksReady input))
    if asked then .ready :: if input.sent then rest else [] else rest

/-- The outcome of a poll that does no harm: nothing is waiting when
ReadyForQuery is due, and something is waiting when it is not, unless an
Execute came just before. -/
def InTime (asked afterExecute idle : Bool) : Prop :=
  if asked then idle = true else afterExecute = true ∨ idle = false

def Timely (handlers : Handlers σ ρ) (last : Bool) : List (Bool × Input) → σ → Bool → Bool → Prop
  | [], _, asked, afterExecute => InTime asked afterExecute last
  | (idle, input) :: rounds, session, asked, afterExecute =>
    InTime asked afterExecute idle ∧ ((asked = true → input.sent = true) →
      match (dispatch handlers input session).session with
      | none => True
      | some session => Timely handlers last rounds session (asksReady input) (executed input))

/-- A message after which ReadyForQuery is due is no Execute. -/
theorem not_executed_of_asksReady {input : Input} (h : asksReady input = true) :
    executed input = false := by
  have hne : input.message.type ≠ psqlExecute := by
    intro htype
    rw [asksReady, htype] at h
    exact absurd h (by decide)
  simp [executed, hne]

theorem loop_eq_expected_iff (handlers : Handlers σ ρ) (last : Bool) (rounds : List (Bool × Input))
    (session : σ) {asked afterExecute : Bool} (hone : asked = true → afterExecute = false) :
    loop handlers last rounds session (!afterExecute) =
    expected handlers (rounds.map Prod.snd) session asked ↔
    Timely handlers last rounds session asked afterExecute := by
  induction rounds generalizing session asked afterExecute with
  | nil =>
    cases asked <;> cases afterExecute <;> cases last <;>
      simp_all [loop, expected, Timely, InTime]
  | cons round rounds ih =>
    obtain ⟨idle, input⟩ := round
    -- what follows the message is the same exactly if the rest is in time
    have hrest : (match (dispatch handlers input session).session with
          | none => []
          | some session =>
            loop handlers last rounds session (!executed input)) =
        (match (dispatch handlers input session).session with
          | none => []
          | some session => expected handlers (rounds.map Prod.snd) session (asksReady input)) ↔
        match (dispatch handlers input session).session with
          | none => True
          | some session => Timely handlers last rounds session
              (asksReady input) (executed input) := by
      cases (dispatch handlers input session).session with
      | none => simp
      | some session => exact ih session not_executed_of_asksReady
    simp only [loop, expected, Timely, List.map_cons, ← hrest]
    cases asked with
    | true =>
      obtain rfl : afterExecute = false := hone rfl
      cases idle with
      | false => simp [InTime]
      | true => cases input.sent <;> simp [InTime]
    | false =>
      cases afterExecute with
      | true => simp [InTime]
      | false => cases idle <;> simp [InTime]

end MainLoop

open MainLoop in
/-- What the client sees is what the protocol wants exactly if every poll is in
time. -/
theorem roctoMainLoop_eq_expected_iff {σ ρ : Type} (handlers : Handlers σ ρ)
    (rounds : List (Bool × Input)) (last : Bool) (session : σ) :
    roctoMainLoop handlers rounds last session =
        expected handlers (rounds.map Prod.snd) session true ↔
      Timely handlers last rounds session true false :=
  loop_eq_expected_iff handlers last rounds session fun _ => rfl

namespace MainLoop

def silentHandlers : Handlers Unit String where
  bind _ session := ⟨[], some session⟩
  query _ session := ⟨[], some session⟩
  execute _ session := ⟨[], some session⟩
  parse _ session := ⟨[], some session⟩
  describe _ session := ⟨[], some session⟩
  error err := err.message

def emptyParse : Parse := ⟨.empty, .empty, [], by decide⟩

def parseInput : Input :=
  ⟨⟨psqlParse, emptyParse.encode, by decide⟩, ⟨fun _ => 0, 0, by decide, rfl⟩, fun _ => 0, true⟩

def syncInput : Input :=
  ⟨⟨psqlSync, [], by decide⟩, ⟨fun _ => 0, 0, by decide, rfl⟩, fun _ => 0, true⟩

theorem dispatch_parseInput : dispatch silentHandlers parseInput () = ⟨[], some ()⟩ :=
  rfl

/-- A client that pauses between Parse and Sync is told in between that the
server is ready; one that does not pause is not. -/
theorem pause_after_parse_is_answered : roctoMainLoop silentHandlers [(true, parseInput),
    (true, syncInput)] true () = [.ready, .received parseInput.message, .ready,
    .received syncInput.message, .ready] ∧ roctoMainLoop silentHandlers [(true, parseInput),
    (false, syncInput)] true () = [.ready, .received parseInput.message,
    .received syncInput.message, .ready] := by
  have hexecuted : executed parseInput = false := rfl
  constructor <;>
  · simp only [roctoMainLoop, loop, dispatch_parseInput, hexecuted]
    rfl

end MainLoop

end Octo
