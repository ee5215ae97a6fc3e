/-
The replies to the statements of a Query or an Execute message.  Both handlers
call the parser until it reports the end of the text, run what it returns, and
add replies of their own; where these do not fit together, a statement gets no
terminating message or two.
-/
import Octo.MessageMemory
import Octo.RowFields

namespace Octo

open MessageBytes List

namespace Replies

/-- A statement, with what its execution comes to: the columns and rows of a
SELECT, the value of a variable, or the text of an error. -/
inductive Statement
  | select (columns rows : List Bytes)
  | unplanned
  | setStatement
  | showStatement (name value : Bytes)
  | create
  | drop
  | unsupported
  | empty
  | syntaxError (text : String)
  | semanticError (text : String)
deriving DecidableEq

inductive Reply
  | rowDescription (columns : List Bytes)
  | dataRow (fields : List Bytes)
  | commandComplete (tag : String)
  | emptyQueryResponse
  | errorResponse (text : String)
deriving DecidableEq

/-- The messages that end the answer to a statement. -/
def Reply.isTerminating : Reply → Bool
  | rowDescription _ => false
  | dataRow _ => false
  | commandComplete _ => true
  | emptyQueryResponse => true
  | errorResponse _ => true

/-- The two messages; Execute has a number of rows. -/
inductive Mode
  | query
  | execute (rowsToReturn : UInt32)
deriving DecidableEq

/-- `max_data_to_send` once rows are sent: no limit is the largest `int`. -/
def Mode.maxDataToSend : Mode → ℕ
  | query => 2 ^ 31 - 1
  | execute rowsToReturn =>
    if signed 4 rowsToReturn.toNat ≤ 0 then 2 ^ 31 - 1
    else rowsToReturn.toNat

/-- The rows of a SELECT.  Without a first row there is no end either. -/
def selectReplies (maxDataToSend : ℕ) (columns rows : List Bytes) : List Reply :=
  .rowDescription columns :: if rows = [] then []
    else
      (rows.take maxDataToSend).map (fun row => .dataRow (makeDataRow (splitRow [] row))) ++
        [.commandComplete ("SELECT " ++ toString (min rows.length maxDataToSend))]

/-- `run_query` with `handle_query_response`: what is sent, and `data_sent`. -/
def runQuery (maxDataToSend : ℕ) : Statement → List Reply × Bool
  | .select columns rows => (selectReplies maxDataToSend columns rows, true)
  | .setStatement => ([.commandComplete "SET"], false)
  | .showStatement name value =>
    ([.rowDescription [name], .dataRow (makeDataRow [value]), .commandComplete "SHOW"], true)
  | _ => ([], false)

/-- The error that makes `run_query` return 0. -/
def Statement.error? : Statement → Option String
  | syntaxError text => some text
  | semanticError text => some text
  | _ => none

/-- One round of the loop of `handle_query` or `handle_execute`. -/
def round (mode : Mode) (eofHit : Bool) (statement : Statement) : List Reply :=
  let (sent, dataSent) := runQuery mode.maxDataToSend statement
  match mode with
  | .query => sent ++ (statement.error?.map .errorResponse).toList
  | .execute _ =>
    sent ++ (if eofHit then [] else (statement.error?.map .errorResponse).toList) ++
      if dataSent then [] else [.emptyQueryResponse]

/-- A statement of the text, up to its semicolon.  The scanner has read one more
character when the parser stops, and gives it back only after success: what the
statement becomes without its first character, if it is still there then. -/
structure Piece where
  statement : Statement
  clipped : Option Statement

/-- The statements of a text, whether blanks follow the last semicolon, and the
number of bytes.  A text without any is one empty statement. -/
structure Script where
  first : Piece
  others : List Piece
  blankEnd : Bool
  length : ℕ
  empty : length = 0 → first.statement = .empty ∧ others = []

/-- The loop: the statements that are run, each with its replies, and the
replies to the end of the text if the parser is called once more.  An empty
statement ends the loop, and a statement that does not name its columns rightly
takes the next one with it, since its own semicolon has been read already. -/
def rounds (mode : Mode) (blankEnd : Bool) :
    Bool → List Piece → List (Piece × List Reply) × List Reply
  | _, [] => ([], round mode true .empty)
  | clip, piece :: rest =>
    match if clip then piece.clipped else some piece.statement with
    | none => rounds mode blankEnd false rest
    | some .empty => ([(piece, round mode true .empty)], [])
    | some (.semanticError text) =>
      match rest with
      | [] => ([(piece, round mode true (.semanticError text))], [])
      | _ :: rest =>
        let eofHit := rest.isEmpty && !blankEnd
        let replies := round mode eofHit (.semanticError text)
        if eofHit then ([(piece, replies)], [])
        else
          (rounds mode blankEnd true rest).map ((piece, replies) :: ·) id
    | some statement =>
      let eofHit := rest.isEmpty && !blankEnd
      let replies := round mode eofHit statement
      if eofHit then ([(piece, replies)], [])
      else
        (rounds mode blankEnd statement.error?.isSome rest).map ((piece, replies) :: ·) id

def curInputMax : ℕ := 32768

end Replies

open Replies in
def handleQuery (script : Script) : List (Piece × List Reply) × List Reply :=
  if script.length = 0 then ([(script.first, [.emptyQueryResponse])], [])
  else if script.length > curInputMax then
    ([(script.first, [.errorResponse "query length exceeeded maximum size"])], [])
  else rounds .query script.blankEnd false (script.first :: script.others)

open Replies in
def handleExecute (rowsToReturn : UInt32) (script : Script) :
    List (Piece × List Reply) × List Reply :=
  if script.length + 2 > curInputMax then
    ([(script.first, [.errorResponse "execute query length exceeeded maximum size"])], [])
  else
    rounds (.execute rowsToReturn) script.blankEnd false (script.first :: script.others)

namespace Replies

/-- The number of rows that the client asked for. -/
def Mode.rowCount (mode : Mode) (count : ℕ) : ℕ :=
  match mode with
  | query => count
  | execute rowsToReturn =>
    if signed 4 rowsToReturn.toNat ≤ 0 then count
    else min count rowsToReturn.toNat

/-- The last of the replies and no other is a terminating one. -/
def EndsOnce (replies : List Reply) : Prop :=
  ∃ front last, replies = front ++ [last] ∧ last.isTerminating = true ∧
    ∀ reply ∈ front, reply.isTerminating = false

/-- The replies answer a statement: one terminating message, and for a SELECT
the description, the rows and their number. -/
def Answers (mode : Mode) : Statement → List Reply → Prop
  | .select columns rows, replies => ∃ fields : List (List Bytes),
      fields.length = mode.rowCount rows.length ∧
        replies = .rowDescription columns :: (fields.map .dataRow ++
          [.commandComplete ("SELECT " ++ toString fields.length)])
  | _, replies => EndsOnce replies

/-- Every statement is run, in order, and answered, and nothing else is sent. -/
def Answered (mode : Mode) (pieces : List Piece)
    (result : List (Piece × List Reply) × List Reply) : Prop :=
  result.1.map Prod.fst = pieces ∧
    (∀ run ∈ result.1, Answers mode run.1.statement run.2) ∧ result.2 = []

/-- The statements whose round sends one terminating message. -/
def endsOnce (mode : Mode) (eofHit : Bool) : Statement → Bool
  | .select _ rows => rows ≠ []
  | .showStatement _ _ => true
  | .setStatement => mode = .query
  | .syntaxError _ => mode = .query || eofHit
  | .semanticError _ => mode = .query || eofHit
  | _ => mode ≠ .query

/-- A statement that is read as another one, or as itself, is answered. -/
def Fits (mode : Mode) (eofHit : Bool) (statement read : Statement) : Prop :=
  match statement with
  | .select columns rows => ∃ rows', read = .select columns rows' ∧ rows' ≠ [] ∧
      min rows'.length mode.maxDataToSend = mode.rowCount rows.length
  | _ => endsOnce mode eofHit read = true

section Rounds

variable {mode : Mode} {eofHit : Bool}

theorem endsOnce_append_singleton {front : List Reply} {last : Reply}
    (hlast : last.isTerminating = true) (hfront : ∀ reply ∈ front, reply.isTerminating = false) :
    EndsOnce (front ++ [last]) :=
  ⟨front, last, rfl, hlast, hfront⟩

theorem not_endsOnce_of_none {replies : List Reply}
    (hnone : ∀ reply ∈ replies, reply.isTerminating = false) : ¬EndsOnce replies := by
  rintro ⟨front, last, rfl, hlast, -⟩
  rw [hnone last (by simp)] at hlast
  cases hlast

theorem not_endsOnce_pair {first second : Reply} (hfirst : first.isTerminating = true) :
    ¬EndsOnce [first, second] := by
  rintro ⟨front, last, hsplit, -, hfront⟩
  have hmem : first ∈ front := by
    cases front with
    | nil => simp at hsplit
    | cons reply front => simp_all
  rw [hfront first hmem] at hfirst
  cases hfirst

variable {columns rows : List Bytes} {read statement : Statement}

theorem endsOnce_selectReplies_iff {maxDataToSend : ℕ} :
    EndsOnce (selectReplies maxDataToSend columns rows) ↔ rows ≠ [] := by
  unfold selectReplies
  split_ifs with hrows
  · refine iff_of_false (not_endsOnce_of_none ?_) (not_not.mpr hrows)
    simp [Reply.isTerminating]
  · refine iff_of_true ?_ hrows
    rw [← cons_append]
    refine endsOnce_append_singleton rfl fun reply hreply => ?_
    rcases mem_cons.mp hreply with rfl | hrow
    · rfl
    · obtain ⟨row, -, rfl⟩ := mem_map.mp hrow
      rfl

theorem endsOnce_singleton {last : Reply} (hlast : last.isTerminating = true) : EndsOnce [last] :=
  ⟨[], last, rfl, hlast, fun _ h => absurd h not_mem_nil⟩

theorem endsOnce_round_iff : EndsOnce (round mode eofHit statement) ↔
      endsOnce mode eofHit statement = true := by
  have hnil : ¬EndsOnce [] := not_endsOnce_of_none (by simp)
  have hempty : EndsOnce [.emptyQueryResponse] := endsOnce_singleton rfl
  cases statement with
  | select columns rows =>
    cases mode <;>
      simp [round, runQuery, Statement.error?, endsOnce, endsOnce_selectReplies_iff]
  | showStatement name value =>
    have hshow : EndsOnce [.rowDescription [name],
        .dataRow (makeDataRow [value]), .commandComplete "SHOW"] :=
      @endsOnce_append_singleton [_, _] _ rfl (by simp [Reply.isTerminating])
    cases mode <;>
      simp [round, runQuery, Statement.error?, endsOnce, hshow]
  | setStatement =>
    cases mode with
    | query => simpa [round, runQuery, Statement.error?, endsOnce] using endsOnce_singleton rfl
    | execute => simpa [round, runQuery, Statement.error?, endsOnce] using not_endsOnce_pair rfl
  | syntaxError | semanticError =>
    cases mode with
    | query => simpa [round, runQuery, Statement.error?, endsOnce] using endsOnce_singleton rfl
    | execute =>
      cases eofHit with
      | true => simpa [round, runQuery, Statement.error?, endsOnce]
      | false => simpa [round, runQuery, Statement.error?, endsOnce] using not_endsOnce_pair rfl
  | _ =>
    cases mode with
    | query => simpa [round, runQuery, Statement.error?, endsOnce]
    | execute => cases eofHit <;>
        simpa [round, runQuery, Statement.error?, endsOnce]

theorem round_select (columns rows : List Bytes) : round mode eofHit (.select columns rows) =
    selectReplies mode.maxDataToSend columns rows := by
  cases mode <;> simp [round, runQuery, Statement.error?]

def selectAnswer (columns : List Bytes) (fields : List (List Bytes)) : List Reply :=
  .rowDescription columns :: (fields.map .dataRow ++
    [.commandComplete ("SELECT " ++ toString fields.length)])

theorem selectReplies_of_ne_nil {maxDataToSend : ℕ} (hrows : rows ≠ []) :
    selectReplies maxDataToSend columns rows = selectAnswer columns
      ((rows.take maxDataToSend).map fun row =>
        makeDataRow (splitRow [] row)) := by
  rw [selectReplies, if_neg hrows, selectAnswer, map_map, length_map, length_take, Nat.min_comm]
  rfl

theorem selectAnswer_inj {columns' : List Bytes} {fields fields' : List (List Bytes)}
    (h : selectAnswer columns fields = selectAnswer columns' fields') :
    columns = columns' ∧ fields.length = fields'.length := by
  obtain ⟨hcolumns, hrest⟩ := List.cons.inj h
  have hlength := congrArg List.length hrest
  simp at hlength
  exact ⟨Reply.rowDescription.inj hcolumns, hlength⟩

/-- Only a SELECT with a row is answered like one. -/
theorem exists_rows_of_round {fields : List (List Bytes)}
    (h : round mode eofHit read = selectAnswer columns fields) :
    ∃ rows, read = .select columns rows ∧ rows ≠ [] := by
  have hlast : (round mode eofHit read).getLast? =
      some (.commandComplete ("SELECT " ++ toString fields.length)) := by
    rw [h, selectAnswer, ← cons_append, getLast?_concat]
  have hhead : (round mode eofHit read).head? = some (.rowDescription columns) := by
    rw [h]
    rfl
  have hshow : "SHOW" ≠ "SELECT " ++ toString fields.length := by
    intro htag
    have hlength := congrArg String.length htag
    rw [String.length_append] at hlength
    have hselect : "SELECT ".length = 7 := rfl
    have hfour : "SHOW".length = 4 := rfl
    omega
  cases read with
  | select columns' rows =>
    rw [round_select] at h hlast
    by_cases hrows : rows = []
    · rw [selectReplies, if_pos hrows] at hlast
      simp at hlast
    · rw [selectReplies_of_ne_nil hrows] at h
      exact ⟨rows, by rw [(selectAnswer_inj h).1], hrows⟩
  | showStatement name value =>
    cases mode <;>
    · simp [round, runQuery, Statement.error?] at hlast
      exact absurd hlast hshow
  | _ =>
    cases mode <;> cases eofHit <;>
      simp [round, runQuery, Statement.error?] at hhead

theorem answers_round_iff : Answers mode statement (round mode eofHit read) ↔
      Fits mode eofHit statement read := by
  cases statement with
  | select columns rows =>
    constructor
    · rintro ⟨fields, hlength, hreplies⟩
      obtain ⟨rows', rfl, hrows⟩ := exists_rows_of_round hreplies
      refine ⟨rows', rfl, hrows, ?_⟩
      rw [round_select, selectReplies_of_ne_nil hrows] at hreplies
      have hfields := (selectAnswer_inj hreplies).2
      rw [length_map, length_take] at hfields
      omega
    · rintro ⟨rows', rfl, hrows, hcount⟩
      rw [round_select, selectReplies_of_ne_nil hrows]
      refine ⟨_, ?_, rfl⟩
      rw [length_map, length_take, Nat.min_comm, hcount]
  | _ => exact endsOnce_round_iff

end Rounds

/-- Every round of the loop is one that answers its statement.  A call for the
end of the text is answered by Execute; an empty statement and one that takes
the next one with it have to be the last. -/
def Answerable (mode : Mode) (blankEnd : Bool) : Bool → List Piece → Prop
  | _, [] => mode = .query
  | clip, piece :: rest =>
    match if clip then piece.clipped else some piece.statement with
    | none => False
    | some .empty => rest = [] ∧ Fits mode true piece.statement .empty
    | some (.semanticError text) =>
      rest = [] ∧ Fits mode true piece.statement (.semanticError text)
    | some read =>
      Fits mode (rest.isEmpty && !blankEnd) piece.statement read ∧
        ((rest.isEmpty && !blankEnd) = false → Answerable mode blankEnd read.error?.isSome rest)

section Loop

variable {mode : Mode} {blankEnd : Bool}

theorem length_rounds_le (clip : Bool) (pieces : List Piece) :
    (rounds mode blankEnd clip pieces).1.length ≤ pieces.length := by
  fun_induction rounds mode blankEnd clip pieces <;> simp_all <;> omega

variable {piece : Piece} {rest : List Piece} {replies : List Reply}

theorem answered_single_iff : Answered mode (piece :: rest) ([(piece, replies)], []) ↔
    rest = [] ∧ Answers mode piece.statement replies := by
  simp [Answered, eq_comm]

variable {result : List (Piece × List Reply) × List Reply}

theorem answered_cons_iff : Answered mode (piece :: rest) (result.map ((piece, replies) :: ·) id) ↔
      Answers mode piece.statement replies ∧ Answered mode rest result := by
  simp only [Answered, Prod.map_fst, Prod.map_snd, map_cons,
    List.cons.injEq, true_and, forall_mem_cons, id_eq]
  tauto

theorem not_answered_of_length_lt {pieces : List Piece}
    (hlength : result.1.length < pieces.length) : ¬Answered mode pieces result := by
  rintro ⟨hpieces, -⟩
  have hmap := congrArg List.length hpieces
  rw [length_map] at hmap
  omega

theorem answerable_cons_iff {clip : Bool} {read : Statement} (hempty : read ≠ .empty)
    (hsemantic : ∀ text, read ≠ .semanticError text)
    (hread : (if clip then piece.clipped else some piece.statement) = some read) :
    Answerable mode blankEnd clip (piece :: rest) ↔
    Fits mode (rest.isEmpty && !blankEnd) piece.statement read ∧
    ((rest.isEmpty && !blankEnd) = false → Answerable mode blankEnd read.error?.isSome rest) := by
  rw [Answerable, hread]
  cases read with
  | empty => exact absurd rfl hempty
  | semanticError text => exact absurd rfl (hsemantic text)
  | _ => exact Iff.rfl

/-- The statements are answered exactly if every round answers its own: a
statement that another one takes with it is missing from the replies. -/
theorem answered_rounds_iff (clip : Bool) (pieces : List Piece) :
    Answered mode pieces (rounds mode blankEnd clip pieces) ↔
      Answerable mode blankEnd clip pieces := by
  fun_induction rounds mode blankEnd clip pieces with
  | case1 clip =>
    cases mode <;>
      simp [Answered, Answerable, round, runQuery, Statement.error?]
  | case2 clip piece rest hread ih =>
    have hlength := @length_rounds_le mode blankEnd false rest
    refine iff_of_false (not_answered_of_length_lt ?_) ?_
    · rw [length_cons]
      omega
    · rw [Answerable, hread]
      exact not_false
  | case3 clip piece rest hread | case4 clip piece text hread =>
    rw [answered_single_iff, answers_round_iff, Answerable, hread]
  | case5 clip piece text hread next rest eofHit replies heof =>
    rw [answered_single_iff, Answerable, hread]
    simp
  | case6 clip piece text hread next rest eofHit replies heof ih =>
    refine iff_of_false (not_answered_of_length_lt ?_) ?_
    · have hlength := @length_rounds_le mode blankEnd true rest
      simp only [Prod.map_fst, length_cons]
      omega
    · rw [Answerable, hread]
      simp
  | case7 clip piece rest read hempty hsemantic hread eofHit replies heof =>
    rw [answered_single_iff, answers_round_iff, answerable_cons_iff hempty hsemantic hread]
    have hrest : rest = [] :=
      isEmpty_iff.mp (Bool.and_eq_true_iff.mp heof).1
    change _ ∧ Fits mode eofHit _ _ ↔ Fits mode eofHit _ _ ∧ (eofHit = false → _)
    simp [heof, hrest]
  | case8 clip piece rest read hempty hsemantic hread eofHit replies heof ih =>
    rw [answered_cons_iff, answers_round_iff, ih, answerable_cons_iff hempty hsemantic hread]
    change Fits mode eofHit _ _ ∧ _ ↔ Fits mode eofHit _ _ ∧ (eofHit = false → _)
    simp [heof]

end Loop

def Mode.handle : Mode → Script → List (Piece × List Reply) × List Reply
  | query => handleQuery
  | execute rowsToReturn => handleExecute rowsToReturn

/-- Execute counts the semicolon and the end of the text, Query does not. -/
def Mode.tooLong : Mode → Script → Bool
  | query, script => script.length > curInputMax
  | execute _, script => script.length + 2 > curInputMax

/-- The condition on a text: the empty text of a Query is answered at once, one
that is too long by an error, and every other one by the loop. -/
def Mode.Answerable (mode : Mode) (script : Script) : Prop :=
  if mode.tooLong script then
    script.others = [] ∧ ∀ columns rows, script.first.statement ≠ .select columns rows
  else (mode = .query ∧ script.length = 0) ∨ Replies.Answerable mode script.blankEnd false
    (script.first :: script.others)

theorem answers_error_iff {mode : Mode} {statement : Statement} {text : String} :
    Answers mode statement [.errorResponse text] ↔
    ∀ columns rows, statement ≠ .select columns rows := by
  cases statement with
  | select columns rows =>
    refine iff_of_false ?_ fun h => h columns rows rfl
    rintro ⟨fields, -, hreplies⟩
    simp at hreplies
  | _ => exact iff_of_true (endsOnce_singleton rfl) (by simp)

end Replies

open Replies

end Octo
