/-
What a Bind message says, and when the reader finds it.  The reader walks
forward as long as no parameter is NULL; the length of a NULL sends it back by
one byte, and from there on it reads lengths out of lengths.
-/
import Mathlib.Data.List.Forall2
import Octo.ReadBind

namespace Octo

open MessageBytes ReadBind List Memory

/-- The body of a Bind message.  Counts are of type `short`, lengths of type
`int`; a parameter without value is NULL. -/
structure BindBody where
  dest : CString
  source : CString
  parmFormats : List Format
  parms : List (Option (List UInt8))
  resultFormats : List Format
  parmFormats_lt : parmFormats.length < 2 ^ 15
  parms_lt : parms.length < 2 ^ 15
  resultFormats_lt : resultFormats.length < 2 ^ 15
  value_lt : ∀ value, some value ∈ parms → value.length < 2 ^ 31

/-- The length -1 stands for NULL. -/
def encodeParm : Option (List UInt8) → List UInt8
  | none => [255, 255, 255, 255]
  | some value => bigEndian 4 value.length ++ value

def BindBody.encode (body : BindBody) : List UInt8 :=
  body.dest.bytes ++ (body.source.bytes ++ (Format.encode body.parmFormats ++
    (bigEndian 2 body.parms.length ++ (body.parms.flatMap encodeParm ++
      Format.encode body.resultFormats))))

def parmLength : Option (List UInt8) → ℤ
  | none => -1
  | some value => value.length

/-- A parameter of the structure stands for a parameter of the body. -/
def BindParm.Represents (mem : Memory) (parm : BindParm) (value : Option (List UInt8)) : Prop :=
  parm.length = parmLength value ∧ mem.Holds parm.value (value.getD [])

/-- The structure has exactly the components of the body. -/
structure Bind.Represents (bind : Bind) (body : BindBody) : Prop where
  dest : bind.memory.Holds bind.dest body.dest.bytes
  source : bind.memory.Holds bind.source body.source.bytes
  numParmFormatCodes : bind.numParmFormatCodes = body.parmFormats.length
  parmFormatCodes : bind.memory.Holds bind.parmFormatCodes
    (body.parmFormats.flatMap Format.hostBytes)
  parms : List.Forall₂ (BindParm.Represents bind.memory) bind.parms body.parms
  numResultColFormatCodes : bind.numResultColFormatCodes = body.resultFormats.length
  resultColFormatCodes : bind.memory.Holds bind.resultColFormatCodes
    (body.resultFormats.flatMap Format.hostBytes)

namespace ReadBind

section Walks

variable {mem : Memory} {lastByte cur stop : ℤ} {parms : List BindParm}

/-- A walk that only meets lengths that are not negative reads values that
stand one behind the other. -/
theorem Jumps.exists_values (hjumps : Jumps mem lastByte cur parms stop)
    (hforward : ∀ parm ∈ parms, 0 ≤ parm.length) : ∃ values :
    List (List UInt8), values.length = parms.length ∧ (∀ value ∈ values, value.length < 2 ^ 31) ∧
    mem.Holds cur ((values.map some).flatMap encodeParm) ∧
    stop = cur + ((values.map some).flatMap encodeParm).length := by
  induction hjumps with
  | nil => exact ⟨[], rfl, by simp, holds_nil, by simp⟩
  | @cons cur stop length parms hfield hlength hvalue hrest ih =>
    obtain ⟨hnonneg, hparms⟩ := forall_mem_cons.mp hforward
    obtain ⟨values, hvalues, hsmall, hholds, rfl⟩ := ih hparms
    have hload := number_lt (mem.read 4 cur)
    have hhalf : 2 * mem.load 4 cur < 256 ^ 4 :=
      (signed_nonneg_iff hload).mp (hlength ▸ hnonneg)
    have hnumber : length = mem.load 4 cur := by
      rw [← hlength, signed_of_lt hhalf]
    have hread : (mem.read (mem.load 4 cur) (cur + 4)).length = mem.load 4 cur := length_read _
    refine ⟨mem.read (mem.load 4 cur) (cur + 4) :: values,
      by rw [length_cons, hvalues, length_cons],
      forall_mem_cons.mpr ⟨by rw [hread]; omega, hsmall⟩, ?_, ?_⟩
    · rw [map_cons, flatMap_cons, encodeParm, append_assoc,
        holds_append, holds_append, length_bigEndian, hread]
      refine ⟨holds_bigEndian_load 4, holds_read _, ?_⟩
      rw [hnumber] at hholds
      exact hholds
    · rw [map_cons, flatMap_cons, encodeParm, length_append, length_append, length_bigEndian, hread]
      omega

/-- Values that stand one behind the other are found. -/
theorem Jumps.of_values {values : List (List UInt8)}
    (hsmall : ∀ value ∈ values, value.length < 2 ^ 31)
    (hholds : mem.Holds cur ((values.map some).flatMap encodeParm))
    (hstop : stop = cur + ((values.map some).flatMap encodeParm).length) (hfits : stop ≤ lastByte) :
    ∃ parms, Jumps mem lastByte cur parms stop ∧
    List.Forall₂ (fun parm value => parm.length = value.length ∧
    mem.Holds parm.value value ∧ parm.value + value.length ≤ stop) parms values := by
  induction values generalizing cur with
  | nil =>
    obtain rfl : stop = cur := by simpa using hstop
    exact ⟨[], .nil, .nil⟩
  | cons value values ih =>
    obtain ⟨hvalue, hvalues⟩ := forall_mem_cons.mp hsmall
    rw [map_cons, flatMap_cons, encodeParm, append_assoc,
      holds_append, holds_append, length_bigEndian] at hholds
    rw [map_cons, flatMap_cons, encodeParm, length_append, length_append, length_bigEndian] at hstop
    obtain ⟨hlength, hvalueHolds, hrest⟩ := hholds
    have hload : signed 4 (mem.load 4 cur) = value.length := by
      rw [hlength.load_eq (length_bigEndian 4 _), number_bigEndian (by omega)]
      exact signed_of_lt (by omega)
    obtain ⟨parms, hjumps, hparms⟩ :=
      @ih (cur + 4 + value.length) hvalues hrest (by omega)
    refine ⟨⟨value.length, cur + 4⟩ :: parms, .cons (by omega) hload (by omega) hjumps,
      .cons ⟨rfl, hvalueHolds, ?_⟩ hparms⟩
    change cur + 4 + value.length ≤ stop
    omega

theorem byte_of_null {next p : ℤ} (hnull : mem.Holds next (encodeParm none))
    (hle : next ≤ p) (hlt : p < next + 4) : mem p = 255 := by
  obtain ⟨i, rfl⟩ := Int.le.dest hle
  have hall : ∀ byte ∈ encodeParm none, byte = 255 := by
    decide +kernel
  rw [hnull i (show i < 4 by omega)]
  exact hall _ (getElem_mem _)

variable {values : List (Option (List UInt8))}

/-- Once the walk is behind by some bytes of a NULL, it never catches up. -/
theorem Jumps.byte_of_behind {next : ℤ} (hjumps : Jumps mem lastByte cur parms stop)
    (hparms : List.Forall₂ (fun parm value => parm.length = parmLength value) parms values)
    (hbehind : cur < next) (hbytes : ∀ p, cur ≤ p → p < next → mem p = 255)
    (hholds : mem.Holds next (values.flatMap encodeParm)) : mem stop = 255 := by
  induction values generalizing cur next parms with
  | nil =>
    cases hparms
    cases hjumps
    exact hbytes _ le_rfl hbehind
  | cons value values ih =>
    obtain ⟨parm, parms, hlength, htail, rfl⟩ :=
      forall₂_cons_right_iff.mp hparms
    rw [flatMap_cons, holds_append] at hholds
    cases hjumps with
    | cons hfield hsigned hvalue hrest =>
      cases value with
      | none =>
        -- the position falls behind by one more byte
        obtain rfl : _ = (-1 : ℤ) := hlength
        refine @ih _ _ (next + 4) hrest htail (by omega) ?_ hholds.2
        intro p hp hnext
        rcases lt_or_ge p next with hlt | hge
        · exact hbytes p (by omega) hlt
        · exact byte_of_null hholds.1 hge hnext
      | some value =>
        -- a length that begins with a byte of a NULL is negative
        have hnegative : signed 4 (mem.load 4 cur) < 0 :=
          signed_load_neg (by rw [hbytes cur le_rfl hbehind]; decide)
        obtain rfl : _ = (value.length : ℤ) := hlength
        omega

/-- A walk that finds the lengths that were sent has met no NULL, or it ends
inside of one. -/
theorem Jumps.plain_or_byte (hjumps : Jumps mem lastByte cur parms stop)
    (hparms : List.Forall₂ (fun parm value => parm.length = parmLength value) parms values)
    (hholds : mem.Holds cur (values.flatMap encodeParm)) : none ∉ values ∨ mem stop = 255 := by
  induction values generalizing cur parms with
  | nil => exact .inl not_mem_nil
  | cons value values ih =>
    obtain ⟨parm, parms, hlength, htail, rfl⟩ :=
      forall₂_cons_right_iff.mp hparms
    rw [flatMap_cons, holds_append] at hholds
    cases hjumps with
    | cons hfield hsigned hvalue hrest =>
      cases value with
      | none =>
        right
        obtain rfl : _ = (-1 : ℤ) := hlength
        exact hrest.byte_of_behind htail (by omega)
          (fun p hp hnext => byte_of_null hholds.1 (by omega) hnext) hholds.2
      | some value =>
        obtain rfl : _ = (value.length : ℤ) := hlength
        have hbehind := hholds.2
        rw [encodeParm, length_append, length_bigEndian, Nat.cast_add, ← add_assoc] at hbehind
        rcases ih hrest htail hbehind with hplain | hbyte
        · exact .inl (by simpa using hplain)
        · exact .inr hbyte

end Walks

end ReadBind

section Bodies

variable {message : BaseMessage} {heap : NextBlock} {before : ℕ → UInt8}
  {mem : Memory} {source cur : ℕ} {formats results : List Format}
  {parms : List BindParm} {stop : ℤ} {body : BindBody}

theorem BaseMessage.memory_holds : (message.memory heap before).Holds 0 message.data := by
  intro i hi
  rw [zero_add, memory, if_neg (by omega), Int.toNat_natCast, copy]
  simp [Buffer.get, hi]

/-- Where the parts of a body stand. -/
theorem BindBody.holds_iff {p : ℤ} : mem.Holds p body.encode ↔ mem.Holds p body.dest.bytes ∧
      mem.Holds (p + body.dest.bytes.length) body.source.bytes ∧
      mem.Holds (p + body.dest.bytes.length + body.source.bytes.length)
      (Format.encode body.parmFormats) ∧
      mem.Holds (p + body.dest.bytes.length + body.source.bytes.length + 2 +
      2 * body.parmFormats.length) (bigEndian 2 body.parms.length) ∧
      mem.Holds (p + body.dest.bytes.length + body.source.bytes.length + 2 +
      2 * body.parmFormats.length + 2) (body.parms.flatMap encodeParm) ∧
      mem.Holds (p + body.dest.bytes.length + body.source.bytes.length + 2 +
      2 * body.parmFormats.length + 2 + (body.parms.flatMap encodeParm).length)
      (Format.encode body.resultFormats) := by
  rw [encode, holds_append, holds_append, holds_append, holds_append,
    holds_append, Format.length_encode, length_bigEndian]
  push_cast
  simp only [add_assoc]

theorem BindBody.length_encode (body : BindBody) :
    body.encode.length = body.dest.bytes.length + body.source.bytes.length + 2 +
    2 * body.parmFormats.length + 2 + (body.parms.flatMap encodeParm).length + 2 +
    2 * body.resultFormats.length := by
  simp only [encode, length_append, Format.length_encode, length_bigEndian]
  omega

/-- A message that is accepted while the walk goes forward is the encoding of a
body. -/
theorem ReadBind.Accepted.exists_body
    (haccepted : Accepted message mem source cur formats parms stop results)
    (hmem : mem.Holds 0 message.data) (hforward : ∀ parm ∈ parms, 0 ≤ parm.length) : ∃ body :
    BindBody, message.data = body.encode := by
  obtain ⟨dest, name, tail, hdata, rfl, rfl⟩ := haccepted.names
  obtain ⟨values, hvalues, hsmall, hholds, hstop⟩ :=
    haccepted.jumps.exists_values hforward
  have hlt := haccepted.parms_lt
  let body : BindBody := {
    dest := dest
    source := name
    parmFormats := formats
    parms := values.map some
    resultFormats := results
    parmFormats_lt := haccepted.formats_lt
    parms_lt := by rwa [length_map, hvalues]
    resultFormats_lt := haccepted.results_lt
    value_lt := fun value hvalue => hsmall value (by simpa using hvalue) }
  have hfinish := haccepted.finish
  have hcount := haccepted.count_holds
  have hresults := haccepted.results_hold
  have hwhole := hmem
  rw [hdata, holds_append, holds_append] at hmem
  rw [holds_swaps_iff (.inr (by omega))] at hholds hcount hresults
  have hformats := haccepted.formats_hold
  rw [hstop] at hresults
  rw [← hvalues] at hcount
  have hbody : mem.Holds 0 body.encode := by
    rw [BindBody.holds_iff]
    simp only [zero_add] at hmem ⊢
    refine ⟨hmem.1, hmem.2.1, hformats, ?_, hholds, hresults⟩
    rwa [length_map]
  have hlength : body.encode.length = dest.bytes.length + name.bytes.length +
      2 + 2 * formats.length + 2 + ((values.map some).flatMap encodeParm).length + 2 +
      2 * results.length := body.length_encode
  exact ⟨body, hwhole.ext hbody (by omega)⟩

/-- What is found of a body is the body, unless it has a NULL. -/
theorem ReadBind.Accepted.plain
    (haccepted : Accepted message mem source cur formats parms stop results)
    (hmem : mem.Holds 0 message.data) (hdata : message.data = body.encode)
    (hformats : formats.length = body.parmFormats.length)
    (hparms : List.Forall₂ (fun parm value => parm.length = parmLength value) parms body.parms) :
    none ∉ body.parms := by
  obtain ⟨dest, name, tail, hnames, rfl, rfl⟩ := haccepted.names
  obtain ⟨rfl, hrest⟩ := CString.bytes_append_inj (hnames.symm.trans hdata)
  obtain ⟨rfl, -⟩ := CString.bytes_append_inj hrest
  have hjumps := haccepted.jumps
  rw [hdata] at hmem
  obtain ⟨-, -, -, -, hvalues, -⟩ := BindBody.holds_iff.mp hmem
  rw [zero_add, ← hformats, ← holds_swaps_iff (n := formats.length)
    (p := body.dest.bytes.length + body.source.bytes.length + 2)
    (.inr (by omega))] at hvalues
  push_cast at hjumps
  refine (hjumps.plain_or_byte hparms hvalues).resolve_right fun hbyte => ?_
  -- the count of result codes would begin with a byte of the NULL
  have hresults := haccepted.results_hold
  push_cast at hresults
  have hcount := short_of_holds haccepted.results_lt hresults
  have hnegative : signed 2 ((mem.swaps (body.dest.bytes.length +
      body.source.bytes.length + 2) formats.length).load 2 stop) < 0 :=
    signed_load_neg (by rw [hbyte]; decide)
  omega

theorem exists_map_some {α : Type*} {options : List (Option α)}
    (hnone : none ∉ options) : ∃ values : List α, values.map some = options := by
  induction options with
  | nil => exact ⟨[], rfl⟩
  | cons option options ih =>
    rw [mem_cons, not_or] at hnone
    obtain ⟨values, rfl⟩ := ih hnone.2
    obtain ⟨value, rfl⟩ := Option.ne_none_iff_exists.mp (Ne.symm hnone.1)
    exact ⟨value :: values, rfl⟩

/-- The codes are left in host order, and nothing else is changed. -/
theorem ReadBind.Accepted.bind_represents {values : List (List UInt8)}
    (hcur : cur = body.dest.bytes.length + body.source.bytes.length)
    (hdest : mem.Holds 0 body.dest.bytes)
    (hsource : mem.Holds body.dest.bytes.length body.source.bytes)
    (hformats : mem.Holds cur (Format.encode body.parmFormats))
    (hstop : (cur : ℤ) + 2 + 2 * body.parmFormats.length ≤ stop)
    (hresults : (mem.swaps (cur + 2) body.parmFormats.length).Holds stop
    (Format.encode body.resultFormats)) (hvalues : values.map some = body.parms)
    (hparms : List.Forall₂ (fun parm value => parm.length = value.length ∧
    (mem.swaps (cur + 2) body.parmFormats.length).Holds parm.value value ∧
    parm.value + value.length ≤ stop) parms values) :
    (Accepted.bind mem body.dest.bytes.length cur body.parmFormats parms stop
    body.resultFormats).Represents body := by
  constructor
  · refine (holds_swaps_iff (.inl ?_)).mpr ((holds_swaps_iff (.inl ?_)).mpr hdest) <;>
    · dsimp only [Accepted.bind]
      omega
  · refine (holds_swaps_iff (.inl ?_)).mpr ((holds_swaps_iff (.inl ?_)).mpr hsource) <;>
    · dsimp only [Accepted.bind]
      omega
  · rfl
  · have hcodes := holds_swaps (Format.holds_encode_iff.mp hformats).2
    refine (holds_swaps_iff (.inl ?_)).mpr hcodes
    have hlength : (body.parmFormats.flatMap Format.hostBytes).length =
        2 * body.parmFormats.length := by
      simp [length_flatMap, Format.hostBytes, Nat.mul_comm]
    dsimp only [Accepted.bind]
    omega
  · rw [← hvalues, forall₂_map_right_iff]
    refine hparms.imp fun parm value h => ⟨h.1, ?_⟩
    rw [Option.getD_some]
    exact (holds_swaps_iff (.inl (by omega))).mpr h.2.1
  · rfl
  · exact holds_swaps (Format.holds_encode_iff.mp hresults).2

/-- A body without NULL is found, and the structure has its components. -/
theorem BindBody.accepted (htype : message.copiedType = psqlBind)
    (hdata : message.data = body.encode)
    (hmem : mem.Holds 0 message.data) (hplain : none ∉ body.parms)
    (hcodes : body.parmFormats.length ≤ body.parms.length ∧ (body.parmFormats.length ≤ 1 ∨
    body.parmFormats.length = body.parms.length)) :
    ∃ parms stop, Accepted message mem body.dest.bytes.length
    (body.dest.bytes.length + body.source.bytes.length) body.parmFormats
    parms stop body.resultFormats ∧ (Accepted.bind mem body.dest.bytes.length
    (body.dest.bytes.length + body.source.bytes.length) body.parmFormats
    parms stop body.resultFormats).Represents body := by
  obtain ⟨values, hvalues⟩ := exists_map_some hplain
  have hsmall : ∀ value ∈ values, value.length < 2 ^ 31 := fun value hvalue =>
    body.value_lt value (hvalues ▸ mem_map_of_mem hvalue)
  have hlength := body.length_encode
  rw [← hdata, ← hvalues] at hlength
  rw [hdata] at hmem
  obtain ⟨hdest, hsource, hformats, hcount, hparms, hresults⟩ :=
    BindBody.holds_iff.mp hmem
  simp only [zero_add, ← Nat.cast_add] at hsource hformats hcount hparms hresults
  rw [← hvalues] at hparms hresults
  rw [← holds_swaps_iff (n := body.parmFormats.length)
    (p := (body.dest.bytes.length + body.source.bytes.length : ℕ) + 2)
    (.inr (by omega))] at hcount hparms hresults
  obtain ⟨parms, hjumps, hrepresents⟩ :=
    @Jumps.of_values _ message.data.length _ _ _ hsmall hparms rfl (by omega)
  have hnum : body.parms.length = parms.length := by
    rw [← hvalues, length_map, hrepresents.length_eq]
  rw [hnum] at hcount hcodes
  exact ⟨parms, _, ⟨htype, ⟨body.dest, body.source, _, hdata, rfl, rfl⟩,
    body.parmFormats_lt, hformats, hnum ▸ body.parms_lt, hcount, hcodes,
    by omega, hjumps, body.resultFormats_lt, hresults, by omega⟩,
    Accepted.bind_represents rfl hdest hsource hformats (by omega) hresults hvalues hrepresents⟩

def BaseMessage.IsBind (message : BaseMessage) (body : BindBody) : Prop :=
  message.type = psqlBind ∧ message.data = body.encode

/-- Encodings are read as they were sent, and anything else is answered with an
error or a warning. -/
def ReadsBind (message : BaseMessage) (heap : NextBlock) (before : ℕ → UInt8) : Prop :=
  (∀ body, message.IsBind body → ∃ bind,
    readBind message heap before = .ok (bind, none) ∧ bind.Represents body) ∧
  ((∀ body, ¬message.IsBind body) → (∃ err, readBind message heap before = .error err) ∨
    ∃ bind err, readBind message heap before = .ok (bind, some err))

/-- The body has no NULL, and one format code for all parameters, one for each
or none. -/
def BindBody.IsPlain (body : BindBody) : Prop :=
  none ∉ body.parms ∧ body.parmFormats.length ≤ body.parms.length ∧
    (body.parmFormats.length ≤ 1 ∨ body.parmFormats.length = body.parms.length)

/-- A negative length sends the walk back to bytes that happen to lead to the
end of the message. -/
def BaseMessage.JumpsBack (message : BaseMessage) (mem : Memory) : Prop :=
  ∃ source cur formats parms stop results,
    Accepted message mem source cur formats parms stop results ∧ ∃ parm ∈ parms, parm.length < 0

theorem readBind_reads_exactly_encodings_iff (message : BaseMessage) (heap : NextBlock)
    (before : ℕ → UInt8) : ReadsBind message heap before ↔
    (∀ body, message.IsBind body → body.IsPlain ∧ message.length + 1 ≠ 2 ^ 32) ∧
    ((∀ body, ¬message.IsBind body) →
      ¬message.JumpsBack (message.memory heap before)) := by
  have hmem : (message.memory heap before).Holds 0 message.data :=
    BaseMessage.memory_holds
  refine and_congr (forall_congr' fun body => ?_) ?_
  · refine forall_congr' fun hbind => ?_
    constructor
    · rintro ⟨bind, hread, hrepresents⟩
      obtain ⟨source, cur, formats, parms, stop, results, haccepted, rfl⟩ :=
        readBind_eq_ok_none_iff.mp hread
      have hnum := hrepresents.parms.length_eq
      have hformats := hrepresents.numParmFormatCodes
      have hcodes := haccepted.codes
      dsimp only [Accepted.bind] at hnum hformats
      refine ⟨⟨haccepted.plain hmem hbind.2 hformats
        (hrepresents.parms.imp fun _ _ h => h.1), by omega, by omega⟩, ?_⟩
      exact ((BaseMessage.copiedType_eq_iff (by decide)).mp haccepted.type).2
    · rintro ⟨hplain, hlength⟩
      obtain ⟨parms, stop, haccepted, hrepresents⟩ :=
        BindBody.accepted ((BaseMessage.copiedType_eq_iff (by decide)).mpr ⟨hbind.1, hlength⟩)
          hbind.2 hmem hplain.1 hplain.2
      exact ⟨_, readBind_eq_ok_none_iff.mpr ⟨_, _, _, _, _, _, haccepted, rfl⟩, hrepresents⟩
  · refine forall_congr' fun hnone => ?_
    constructor
    · rintro hrejected ⟨source, cur, formats, parms, stop, results, haccepted, -⟩
      have hread := readBind_eq_ok_none_iff.mpr ⟨_, _, _, _, _, _, haccepted, rfl⟩
      rcases hrejected with ⟨err, herr⟩ | ⟨bind, err, herr⟩
      · cases herr.symm.trans hread
      · cases herr.symm.trans hread
    · intro hjumps
      cases hread : readBind message heap before with
      | error err => exact .inl ⟨err, rfl⟩
      | ok result =>
        obtain ⟨bind, _ | err⟩ := result
        · obtain ⟨source, cur, formats, parms, stop, results, haccepted, -⟩ :=
            readBind_eq_ok_none_iff.mp hread
          have hforward : ∀ parm ∈ parms, 0 ≤ parm.length := by
            intro parm hparm
            by_contra hnegative
            exact hjumps ⟨source, cur, formats, parms, stop, results,
              haccepted, parm, hparm, not_le.mp hnegative⟩
          obtain ⟨body, hdata⟩ := haccepted.exists_body hmem hforward
          have htype := (BaseMessage.copiedType_eq_iff (by decide)).mp haccepted.type
          exact absurd ⟨htype.1, hdata⟩ (hnone body)
        · exact .inr ⟨bind, err, rfl⟩

end Bodies

/-- No names, no codes, and one parameter that is NULL. -/
def nullBody : BindBody where
  dest := .empty
  source := .empty
  parmFormats := []
  parms := [none]
  resultFormats := []
  parmFormats_lt := by decide
  parms_lt := by decide
  resultFormats_lt := by decide
  value_lt := by simp

def nullMessage : BaseMessage := ⟨psqlBind, nullBody.encode, by decide⟩

/-- The count of result codes is read from the last byte of the length. -/
theorem null_parameter_is_refused : nullMessage.IsBind nullBody ∧ ∀ heap before,
      readBind nullMessage heap before = .error ⟨.error, .protocolViolation,
        RoctoError.invalidNumber "Bind" "result column format codes"⟩ := by
  refine ⟨⟨rfl, rfl⟩, fun heap before => ?_⟩
  unfold readBind
  have hmem : (nullMessage.memory heap before).Holds 0 nullBody.encode :=
    BaseMessage.memory_holds
  generalize nullMessage.memory heap before = mem at hmem ⊢
  obtain ⟨-, -, hformats, hcount, hparms, -⟩ := BindBody.holds_iff.mp hmem
  have hnames : readNames nullMessage heap = .ok (1, 2) := rfl
  have hcodes : readParmFormatCodes mem 12 2 = .ok (0, mem) :=
    readParmFormatCodes_eq_ok_iff.mpr ⟨[], rfl, by decide, hformats, by decide, rfl⟩
  have hnull : mem.Holds 6 [255, 255, 255, 255] := hparms
  have hlength : signed 4 (mem.load 4 6) = -1 := by
    have hload : mem.load 4 6 = number [255, 255, 255, 255] :=
      hnull.load_eq rfl
    rw [hload]
    decide
  have hread : readParms mem 0 12 4 = .ok ([⟨-1, 10⟩], 9) :=
    readParms_eq_ok_iff.mpr ⟨by decide, hcount, by decide, by decide,
      .cons (by decide) hlength (by decide) .nil⟩
  have hbyte : mem 9 = 255 := hmem 9 (by decide)
  have hnegative : signed 2 (mem.load 2 9) < 0 :=
    signed_load_neg (by rw [hbyte]; decide)
  have hresults : readResultFormatCodes mem 12 9 =
      fail (RoctoError.invalidNumber "Bind" "result column format codes") := by
    exact if_pos hnegative
  refine (bind_eq_of_ok hnames).trans ?_
  refine (bind_eq_of_ok hcodes).trans ?_
  refine (bind_eq_of_ok hread).trans ?_
  exact bind_eq_of_error hresults

end Octo
