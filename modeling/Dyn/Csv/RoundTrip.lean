import Dyn.Csv.Agreement

/-!
# std/encoding/csv: what the writer writes is read back

The writer gives each value, in quotes where it has to be, and what stands between fields and behind records.
The scanner stops at just these places.
-/

namespace Dyn.Csv

open List
open Errors (Kind)

def doubled (value : List UInt8) : List UInt8 := value.flatMap fun byte => if byte = 34 then [34, 34] else [byte]

def fieldText (value : List UInt8) : List UInt8 :=
  if Writer.needsQuotes value then 34 :: (doubled value ++ [34]) else value

/-- The text of fields, each with its `end_record`, behind an open record or not. -/
def written : Bool → List (List UInt8 × Bool) → List UInt8
  | _, [] => []
  | inRecord, (value, endRecord) :: rest =>
      (if inRecord then [44] else []) ++ fieldText value ++ (if endRecord then [13, 10] else []) ++ written (!endRecord) rest

/-- The fields of a record, the last one with `end_record`. -/
def recordFields : List (List UInt8) → List (List UInt8 × Bool)
  | [] => []
  | [value] => [(value, true)]
  | value :: rest => (value, false) :: recordFields rest

/-- The fields of records, one after another. -/
def fieldsOf (records : List (List (List UInt8))) : List (List UInt8 × Bool) := records.flatMap recordFields

@[simp] theorem doubled_nil : doubled [] = [] := rfl

@[simp] theorem doubled_cons (byte : UInt8) (value : List UInt8) :
    doubled (byte :: value) = (if byte = 34 then [34, 34] else [byte]) ++ doubled value := rfl

section Writing

variable {σ : Type} {Taken : σ → List UInt8 → Prop}

/-- A writer that has not failed, with what it has written. -/
structure Writer.Has (Taken : σ → List UInt8 → Prop) (state : Writer σ) (bytes : List UInt8) : Prop where
  sink : Io.Accepts state.sink Taken
  taken : Taken state.data bytes
  failed : state.failed = false

/-- A write goes through and changes nothing else. -/
def Writer.Writes (Taken : σ → List UInt8 → Prop) (state : Writer σ) (bytes : List UInt8) (result : Bool × Writer σ) : Prop :=
  ∃ state', result = (true, state') ∧ state'.Has Taken bytes ∧ state'.fields = state.fields

variable {state : Writer σ} {bytes : List UInt8}

theorem Writer.Has.writeAll (h : state.Has Taken bytes) (text : List UInt8) :
    state.Writes Taken (bytes ++ text) (state.writeAll text) := by
  obtain ⟨data, hwrite, htaken⟩ := h.sink.writeAll h.taken text
  rw [Writer.writeAll, if_neg (by rw [h.failed]; exact Bool.false_ne_true), hwrite]
  exact ⟨_, rfl, ⟨h.sink, htaken, h.failed⟩, rfl⟩

theorem Writer.Has.writeIf (h : state.Has Taken bytes) (condition : Bool) (text : List UInt8) :
    state.Writes Taken (bytes ++ if condition then text else []) (state.writeIf condition text) := by
  rw [Writer.writeIf]
  cases condition with
  | true => exact h.writeAll text
  | false => exact ⟨state, rfl, by simpa using h, rfl⟩

theorem Writer.Has.writeRun (h : state.Has Taken bytes) (run : List UInt8) :
    state.Writes Taken (bytes ++ run) (state.writeIf (!run.isEmpty) run) := by
  have hrun := h.writeIf (!run.isEmpty) run
  cases run with
  | nil | cons byte run => exact hrun

theorem Writer.Has.writeRuns (h : state.Has Taken bytes) (run value : List UInt8) :
    state.Writes Taken (bytes ++ run ++ doubled value) (state.writeRuns run value) := by
  induction value generalizing state bytes run with
  | nil =>
    rw [doubled_nil, append_nil]
    exact h.writeRun run
  | cons byte value ih =>
    rw [Writer.writeRuns, doubled_cons]
    split_ifs
    · obtain ⟨first, hfirst, hhas, hfields⟩ := h.writeRun run
      obtain ⟨second, hsecond, hhas', hfields'⟩ := hhas.writeAll [34, 34]
      obtain ⟨last, hlast, hhas'', hfields''⟩ := ih hhas' []
      rw [hfirst]
      dsimp only
      rw [hsecond]
      refine ⟨last, hlast, ?_, hfields''.trans (hfields'.trans hfields)⟩
      simpa using hhas''
    · obtain ⟨last, hlast, hhas, hfields⟩ := ih h (run ++ [byte])
      refine ⟨last, hlast, ?_, hfields⟩
      simpa using hhas

theorem doubled_plain {value : List UInt8} (h : Writer.needsQuotes value = false) : doubled value = value := by
  induction value with
  | nil => rfl
  | cons byte value ih =>
    rw [Writer.needsQuotes, any_cons, Bool.or_eq_false_iff, decide_eq_false_iff_not] at h
    rw [doubled_cons, if_neg fun heq => h.1 (.inr (.inl heq)), ih h.2]
    rfl

theorem fieldText_eq (value : List UInt8) :
    fieldText value =
      (if Writer.needsQuotes value then [34] else []) ++ doubled value ++ if Writer.needsQuotes value then [34] else [] := by
  rw [fieldText]
  cases hquotes : Writer.needsQuotes value with
  | true => exact rfl
  | false => simp [doubled_plain hquotes]

theorem Writer.Has.writeField (h : state.Has Taken bytes) (value : List UInt8) (endRecord : Bool) :
    ∃ state', state.writeField value endRecord = (true, state') ∧
      state'.Has Taken (bytes ++ (if decide (0 < state.fields) then [44] else []) ++ fieldText value ++
        if endRecord then [13, 10] else []) ∧
      decide (0 < state'.fields) = !endRecord := by
  obtain ⟨first, hfirst, hhas1, -⟩ := h.writeIf (decide (0 < state.fields)) [44]
  obtain ⟨second, hsecond, hhas2, -⟩ := hhas1.writeIf (Writer.needsQuotes value) [34]
  obtain ⟨third, hthird, hhas3, -⟩ := hhas2.writeRuns [] value
  obtain ⟨fourth, hfourth, hhas4, -⟩ := hhas3.writeIf (Writer.needsQuotes value) [34]
  rw [Writer.writeField, if_neg (by rw [h.failed]; exact Bool.false_ne_true), hfirst]
  dsimp only
  rw [hsecond]
  dsimp only
  rw [hthird]
  dsimp only
  rw [hfourth]
  dsimp only
  have hcounted : ({ fourth with fields := fourth.fields + 1 } : Writer σ).Has Taken
      (bytes ++ (if decide (0 < state.fields) then [44] else []) ++ fieldText value) := by
    rw [fieldText_eq]
    simpa using (show ({ fourth with fields := fourth.fields + 1 } : Writer σ).Has Taken _ from
      ⟨hhas4.sink, hhas4.taken, hhas4.failed⟩)
  cases endRecord with
  | true =>
    obtain ⟨fifth, hfifth, hhas5, -⟩ := hcounted.writeAll [13, 10]
    rw [if_pos rfl, hfifth]
    exact ⟨_, rfl, ⟨hhas5.sink, hhas5.taken, hhas5.failed⟩, rfl⟩
  | false =>
    refine ⟨_, if_neg Bool.false_ne_true, ?_, ?_⟩
    · simpa using hcounted
    · exact decide_eq_true (Nat.succ_pos _)

theorem Writer.Has.writeFields (h : state.Has Taken bytes) (fields : List (List UInt8 × Bool)) :
    ∃ state', state.writeFields fields = (true, state') ∧ state'.Has Taken (bytes ++ written (decide (0 < state.fields)) fields) := by
  induction fields generalizing state bytes with
  | nil => exact ⟨state, rfl, by simpa [written] using h⟩
  | cons field fields ih =>
    obtain ⟨value, endRecord⟩ := field
    obtain ⟨next, hnext, hhas, hfields⟩ := h.writeField value endRecord
    obtain ⟨last, hlast, hhas'⟩ := ih hhas
    rw [hfields] at hhas'
    rw [Writer.writeFields, hnext]
    refine ⟨last, hlast, ?_⟩
    simpa [written] using hhas'

end Writing

namespace Scanner

theorem loop_plain {capacity : Nat} {value tail text : List UInt8} (hplain : Writer.needsQuotes value = false) {byte : UInt8}
    (hbyte : tail.head? = some byte) (hdelimiter : isDelimiter byte = true) (hroom : text.length + value.length ≤ capacity) :
    loop false capacity (value ++ tail) text = .ok ⟨tail, text ++ value, true⟩ := by
  induction value generalizing text with
  | nil =>
    obtain ⟨-, rfl⟩ := head?_eq_some_iff.1 hbyte
    rw [nil_append, StreamScanner.loop_turn, append_nil]
    have hquote : byte ≠ 34 := by
      rintro rfl
      exact absurd hdelimiter (by decide)
    simp [StreamScanner.turnOf, hquote, hdelimiter]
  | cons first value ih =>
    rw [Writer.needsQuotes, any_cons, Bool.or_eq_false_iff, decide_eq_false_iff_not] at hplain
    rw [length_cons] at hroom
    have hrest := @ih (text ++ [first]) hplain.2 (by rw [length_append, length_singleton]; omega)
    have hturn : StreamScanner.turnOf false (first :: (value ++ tail)) = (.store first, value ++ tail) := by
      have hquote : first ≠ 34 := fun heq => hplain.1 (.inr (.inl heq))
      have hother : isDelimiter first = false := by
        refine decide_eq_false fun hany => hplain.1 ?_
        tauto
      simp [StreamScanner.turnOf, hquote, hother]
    rw [cons_append, StreamScanner.loop_turn, hturn]
    dsimp only
    rw [if_neg (by omega), hrest, append_assoc, singleton_append]

/-- A value with its quotes doubled is read up to the closing quote. -/
theorem loop_doubled {capacity : Nat} {value tail text : List UInt8} (htail : tail.head? ≠ some 34)
    (hroom : text.length + value.length ≤ capacity) :
    loop true capacity (doubled value ++ 34 :: tail) text = .ok ⟨tail, text ++ value, true⟩ := by
  induction value generalizing text with
  | nil =>
    rw [doubled_nil, nil_append, append_nil, StreamScanner.loop_turn]
    cases tail with
    | nil => rfl
    | cons after behind =>
      have hafter : after ≠ 34 := fun heq => htail (by rw [heq]; exact rfl)
      simp [StreamScanner.turnOf, hafter]
  | cons first value ih =>
    rw [length_cons] at hroom
    have hrest := @ih (text ++ [first]) (by rw [length_append, length_singleton]; omega)
    have hturn : StreamScanner.turnOf true (doubled (first :: value) ++ 34 :: tail) =
        (.store first, doubled value ++ 34 :: tail) := by
      rw [doubled_cons]
      by_cases hfirst : first = 34
      · simp [StreamScanner.turnOf, hfirst]
      · simp [StreamScanner.turnOf, hfirst]
    rw [StreamScanner.loop_turn, hturn]
    dsimp only
    rw [if_neg (by omega), hrest, append_assoc, singleton_append]

variable {state : Scanner} {value : List UInt8}

/-- A field that is written is read up to the delimiter behind it. -/
theorem next_fieldText (hopen : state.finished = false) {tail : List UInt8} {byte : UInt8}
    (hrest : state.source.drop state.offset = fieldText value ++ tail)
    (hbyte : tail.head? = some byte) (hdelimiter : isDelimiter byte = true) {capacity : Nat}
    (hroom : value.length ≤ capacity) :
    ∃ quoted, state.next capacity = state.field quoted ⟨tail, value, true⟩ := by
  have hquote : byte ≠ 34 := by
    rintro rfl
    exact absurd hdelimiter (by decide)
  rw [next, if_neg (by rw [hopen]; exact Bool.false_ne_true), hrest]
  cases hquotes : Writer.needsQuotes value with
  | true =>
    have hloop := @loop_doubled capacity value tail [] (by rw [hbyte]; exact fun heq => hquote (Option.some.inj heq))
      (by rw [length_nil, Nat.zero_add]; exact hroom)
    refine ⟨true, ?_⟩
    rw [fieldText, if_pos hquotes]
    simp [hloop]
  | false =>
    have hloop := @loop_plain capacity value tail [] hquotes byte hbyte hdelimiter
      (by rw [length_nil, Nat.zero_add]; exact hroom)
    have hhead : (value ++ tail).head? ≠ some 34 := by
      cases value with
      | nil =>
        rw [nil_append, hbyte]
        exact fun heq => hquote (Option.some.inj heq)
      | cons first value =>
        rw [Writer.needsQuotes, any_cons, Bool.or_eq_false_iff, decide_eq_false_iff_not] at hquotes
        exact fun heq => hquotes.1 (.inr (.inl (Option.some.inj heq)))
    refine ⟨false, ?_⟩
    rw [fieldText, if_neg (by rw [hquotes]; exact Bool.false_ne_true)]
    simp only [decide_eq_false hhead, Bool.false_eq_true, if_false, hloop, nil_append]

def Closed (fields : List (List UInt8 × Bool)) : Prop := ∀ last, fields.getLast? = some last → last.2 = true

/-- The scanner has these fields before it. -/
structure Expects (state : Scanner) (fields : List (List UInt8 × Bool)) : Prop where
  kind : state.kind = .None
  finished : state.finished = decide (fields = [])
  rest : fields ≠ [] → state.source.drop state.offset = written false fields

variable {fields : List (List UInt8 × Bool)}

theorem Closed.tail {field : List UInt8 × Bool} (h : Closed (field :: fields)) : Closed fields := by
  intro last hlast
  refine h last ?_
  rw [getLast?_cons, hlast]
  rfl

theorem Closed.ne_nil (h : Closed ((value, false) :: fields)) : fields ≠ [] := by
  rintro rfl
  exact absurd (h _ rfl) Bool.false_ne_true

theorem written_ne_nil (h : Closed fields) (hsome : fields ≠ []) : written false fields ≠ [] := by
  cases fields with
  | nil => exact absurd rfl hsome
  | cons field fields =>
    obtain ⟨value, endRecord⟩ := field
    cases endRecord with
    | true => simp [written]
    | false =>
      cases fields with
      | nil => exact absurd rfl h.ne_nil
      | cons other fields => simp [written]

theorem Expects.next {endRecord : Bool} (h : state.Expects ((value, endRecord) :: fields))
    (hclosed : Closed ((value, endRecord) :: fields)) {capacity : Nat}
    (hroom : value.length ≤ capacity) :
    (state.next capacity).1.view = .ok (value, endRecord) ∧ (state.next capacity).2.Expects fields := by
  obtain ⟨tail, byte, htail, hbyte, hdelimiter, hbehind⟩ : ∃ tail byte,
      written false ((value, endRecord) :: fields) = fieldText value ++ tail ∧ tail.head? = some byte ∧
        isDelimiter byte = true ∧ behindDelimiter tail = (written false fields, endRecord) := by
    cases endRecord with
    | true => exact ⟨13 :: 10 :: written false fields, 13, by simp [written], rfl, by decide, by simp [behindDelimiter]⟩
    | false =>
      cases fields with
      | nil => exact absurd rfl hclosed.ne_nil
      | cons other fields =>
        obtain ⟨otherValue, otherEnd⟩ := other
        exact ⟨44 :: written false ((otherValue, otherEnd) :: fields), 44, by simp [written], rfl, by decide,
          by simp [behindDelimiter]⟩
  have hrest := h.rest (cons_ne_nil _ _)
  rw [htail] at hrest
  obtain ⟨quoted, hnext⟩ := next_fieldText (h.finished.trans (decide_eq_false (cons_ne_nil _ _))) hrest hbyte hdelimiter hroom
  have hfield : state.field quoted ⟨tail, value, true⟩ =
      ({ text := value, endRecord, endInput := endRecord && decide (written false fields = []), ok := true },
        { state with
          finished := endRecord && decide (written false fields = [])
          offset := state.source.length - (written false fields).length }) := by
    simp [field, hbyte, hdelimiter, hbehind]
  have hsuffix : written false fields <:+ state.source := by
    have hdrop : fieldText value ++ tail <:+ state.source := hrest ▸ List.drop_suffix _ _
    have hpair := behindDelimiter_suffix tail
    rw [hbehind] at hpair
    exact hpair.trans ((suffix_append _ _).trans hdrop)
  rw [hnext, hfield]
  refine ⟨rfl, h.kind, ?_, fun _ => drop_suffix hsuffix⟩
  by_cases hnil : fields = []
  · rw [hnil]
    cases endRecord with
    | true => rfl
    | false => exact absurd hnil hclosed.ne_nil
  · rw [decide_eq_false hnil]
    simp [written_ne_nil hclosed.tail hnil]

theorem Expects.nextAll (h : state.Expects fields) (hclosed : Closed fields) {capacities : List Nat}
    (hroom : List.Forall₂ (fun field capacity => field.1.length ≤ capacity) fields capacities) :
    (state.nextAll capacities).1.map Field.view = fields.map .ok ∧ (state.nextAll capacities).2.Expects [] := by
  induction hroom generalizing state with
  | nil => exact ⟨rfl, h⟩
  | @cons field capacity fields capacities hfield hrooms ih =>
    obtain ⟨hview, hnext⟩ := h.next hclosed hfield
    obtain ⟨hviews, hlast⟩ := ih hnext hclosed.tail
    rw [Scanner.nextAll]
    rw [map_cons, map_cons, hview, hviews]
    exact ⟨rfl, hlast⟩

end Scanner

theorem recordFields_ne_nil {record : List (List UInt8)} (h : record ≠ []) : recordFields record ≠ [] := by
  match record, h with
  | [_], _ => exact cons_ne_nil _ _
  | _ :: _ :: _, _ => exact cons_ne_nil _ _

theorem Scanner.Closed.append (front : List (List UInt8 × Bool)) {fields : List (List UInt8 × Bool)} (h : Scanner.Closed fields)
    (hsome : fields ≠ []) : Scanner.Closed (front ++ fields) := by
  intro last hlast
  rw [getLast?_append_of_ne_nil _ hsome] at hlast
  exact h last hlast

theorem recordFields_closed (record : List (List UInt8)) : Scanner.Closed (recordFields record) := by
  induction record with
  | nil => exact nofun
  | cons value rest ih =>
    cases rest with
    | nil =>
      intro last hlast
      cases hlast
      rfl
    | cons other rest => exact ih.append [(value, false)] (recordFields_ne_nil (cons_ne_nil _ _))

variable {records : List (List (List UInt8))}

theorem fieldsOf_closed (h : ∀ record ∈ records, record ≠ []) :
    Scanner.Closed (fieldsOf records) := by
  induction records with
  | nil => exact nofun
  | cons record records ih =>
    have hrest := ih fun other hother => h other (mem_cons_of_mem _ hother)
    rw [fieldsOf, flatMap_cons]
    by_cases hnil : fieldsOf records = []
    · rw [fieldsOf] at hnil
      rw [hnil, append_nil]
      exact recordFields_closed record
    · exact hrest.append (recordFields record) hnil

theorem fieldsOf_ne_nil (hsome : records ≠ []) (h : ∀ record ∈ records, record ≠ []) :
    fieldsOf records ≠ [] := by
  cases records with
  | nil => exact absurd rfl hsome
  | cons record records =>
    rw [fieldsOf, flatMap_cons]
    exact append_ne_nil_of_left_ne_nil (recordFields_ne_nil (h record mem_cons_self)) _

/-- **Fields are read as they were written, and both scanners read the same.**  Records that the writer gives
to a sink that takes every byte come back from the scanner field by field, with the same record ends, and then
nothing more does.  A stream scanner on a reader that delivers a text, in whatever chunks, gives for each call
what the scanner of the text gives, and has the same error category in the end. -/
theorem csv_round_trips :
    (∀ {σ : Type} {Taken : σ → List UInt8 → Prop} {sink : Io.Writer σ}, Io.Accepts sink Taken → ∀ {data : σ} {start},
        Taken data start → ∀ records : List (List (List UInt8)), records ≠ [] → (∀ record ∈ records, record ≠ []) →
          ∃ state text, (writer sink data).writeFields (fieldsOf records) = (true, state) ∧ Taken state.data (start ++ text) ∧
            ∀ capacities, List.Forall₂ (fun field capacity => field.1.length ≤ capacity) (fieldsOf records) capacities →
              ((scanner text).nextAll capacities).1.map Field.view = (fieldsOf records).map .ok ∧
                ∀ capacity, (((scanner text).nextAll capacities).2.next capacity).1.view = .error .None) ∧
      ∀ {σ : Type} {Left : σ → List UInt8 → Prop} {reader : Io.Reader σ}, Io.Delivers reader Left → ∀ {data : σ} {source},
        Left data source → ∀ capacities,
          ((streamScanner reader data).nextStreamAll capacities).1.map Field.view =
              ((scanner source).nextAll capacities).1.map Field.view ∧
            ((streamScanner reader data).nextStreamAll capacities).2.kind = ((scanner source).nextAll capacities).2.kind := by
  refine ⟨fun {σ Taken sink} hsink {data start} hdata records hsome hrecords => ?_,
    fun {σ Left reader} hreader {data source} hdata capacities => ?_⟩
  · have hhas : (writer sink data).Has Taken start := ⟨hsink, hdata, rfl⟩
    obtain ⟨state, hwrite, htaken⟩ := hhas.writeFields (fieldsOf records)
    refine ⟨state, written false (fieldsOf records), hwrite, htaken.taken, fun capacities hroom => ?_⟩
    have hexpects : (scanner (written false (fieldsOf records))).Expects (fieldsOf records) :=
      ⟨rfl, (decide_eq_false (fieldsOf_ne_nil hsome hrecords)).symm, fun _ => rfl⟩
    obtain ⟨hviews, hlast⟩ := hexpects.nextAll (fieldsOf_closed hrecords) hroom
    refine ⟨hviews, fun capacity => ?_⟩
    rw [Scanner.next, if_pos (hlast.finished.trans (decide_eq_true rfl))]
    exact congrArg Except.error hlast.kind
  · obtain ⟨hviews, hagree⟩ := (agree_start hreader hdata).nextAll capacities
    exact ⟨hviews, hagree.kind⟩

/-- A writer that takes one byte of each write. -/
def byteSink : Io.Writer (List UInt8) := ⟨some fun bytes source => ({ transferred := 1 }, bytes ++ source.take 1)⟩

theorem byteSink_accepts : Io.Accepts byteSink fun bytes text => bytes = text := by
  refine ⟨_, rfl, fun bytes text source hbytes hsome => ⟨_, _, rfl, rfl, Nat.one_pos, ?_, by rw [hbytes]⟩⟩
  exact length_pos_of_ne_nil hsome

theorem csv_round_trips_sample :
    (∃ state text, (writer byteSink []).writeFields (fieldsOf [[[97, 34], []], [[]]]) = (true, state) ∧
        ([] : List UInt8) ++ text = state.data) ∧
      ((streamScanner Io.cursorReader ⟨[97, 13, 34, 98], 0⟩).nextStreamAll [4, 4, 4]).1.map Field.view =
        ((scanner [97, 13, 34, 98]).nextAll [4, 4, 4]).1.map Field.view := by
  obtain ⟨hwrites, hscans⟩ := csv_round_trips
  obtain ⟨state, text, hwrite, htext, -⟩ := hwrites byteSink_accepts (show ([] : List UInt8) = [] from rfl)
    [[[97, 34], []], [[]]] (by decide) (by decide)
  refine ⟨⟨state, text, hwrite, htext.symm⟩, ?_⟩
  exact (hscans Io.cursor_delivers (show Io.Cursor.Left ⟨[97, 13, 34, 98], 0⟩ [97, 13, 34, 98] from ⟨by decide, rfl⟩)
    [4, 4, 4]).1

end Dyn.Csv
