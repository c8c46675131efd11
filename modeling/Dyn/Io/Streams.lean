import Dyn.Encoding.Output

/-!
# std/io: readers and writers

A reader or writer is a callback over its own state.  A reader delivers bytes, in whatever chunks, when each
read gives the next of them, and at least one while there are any; a writer accepts bytes, in whatever split,
when each write takes some of them.
-/

namespace Dyn.Io

open List
open Errors (Kind)

inductive Status where
  | Complete
  | End
  | Error
deriving DecidableEq, Repr

structure Result where
  transferred : Nat := 0
  error : Int := 0
  kind : Kind := .None
  status : Status := .Complete
deriving DecidableEq, Repr

/-- A callback that fills the front of a destination; `none` is nil. -/
structure Reader (σ : Type) where
  read : Option (σ → List UInt8 → (Result × List UInt8) × σ)

/-- A callback that takes bytes from the front of a source; `none` is nil. -/
structure Writer (σ : Type) where
  write : Option (σ → List UInt8 → Result × σ)

section Code

variable {σ : Type}

def checked (result : Result) (capacity : Nat) : Result :=
  if capacity < result.transferred then { error := -5, kind := .System, status := .Error }
  else if result.status = .Error ∧ result.kind = .None then
    { transferred := result.transferred, error := result.error, kind := .System, status := .Error }
  else result

/-- `read`, with what the destination holds afterwards. -/
def read (reader : Reader σ) (data : σ) (destination : List UInt8) : (Result × List UInt8) × σ :=
  if destination.length = 0 then (({}, destination), data)
  else
    match reader.read with
    | none => (({ error := -22, kind := .InvalidInput, status := .Error }, destination), data)
    | some callback =>
        match callback data destination with
        | ((result, filled), data) => ((checked result destination.length, filled), data)

def write (writer : Writer σ) (data : σ) (source : List UInt8) : Result × σ :=
  if source.length = 0 then ({}, data)
  else
    match writer.write with
    | none => ({ error := -22, kind := .InvalidInput, status := .Error }, data)
    | some callback =>
        match callback data source with
        | (result, data) =>
            let result := checked result source.length
            if result.status = .End then
              ({ transferred := result.transferred, error := -5, kind := .System, status := .Error }, data)
            else (result, data)

/-- The loop of `write_all` over what is left of the source, `source[total..]`. -/
def writeAllLoop (writer : Writer σ) (data : σ) (total : Nat) (source : List UInt8) : Result × σ :=
  if source.length = 0 then ({ transferred := total }, data)
  else
    match write writer data source with
    | (result, data) =>
        let total := total + result.transferred
        if result.status = .Error then
          ({ transferred := total, error := result.error, kind := result.kind, status := .Error }, data)
        else if _ : result.transferred = 0 then
          ({ transferred := total, error := -5, kind := .System, status := .Error }, data)
        else writeAllLoop writer data total (source.drop result.transferred)
termination_by source.length
decreasing_by
  rw [length_drop]
  omega

def writeAll (writer : Writer σ) (data : σ) (source : List UInt8) : Result × σ := writeAllLoop writer data 0 source

structure Cursor where
  data : List UInt8
  offset : Nat
deriving DecidableEq, Repr

def cursorRead (state : Cursor) (destination : List UInt8) : (Result × List UInt8) × Cursor :=
  if state.data.length < state.offset then
    (({ error := -22, kind := .InvalidInput, status := .Error }, destination), state)
  else
    let take := min (state.data.length - state.offset) destination.length
    let filled := (state.data.drop state.offset).take take ++ destination.drop take
    let state := { state with offset := state.offset + take }
    (({ transferred := take, status := if state.offset = state.data.length then .End else .Complete }, filled), state)

def cursorReader : Reader Cursor := ⟨some cursorRead⟩

end Code

section Contracts

variable {σ : Type}

/-- The reader gives the bytes that its state has left, in chunks of its choice; the last of them may come with
`End`. -/
def Delivers (reader : Reader σ) (Left : σ → List UInt8 → Prop) : Prop :=
  ∃ callback, reader.read = some callback ∧
    ∀ data bytes destination, Left data bytes → destination ≠ [] →
      ∃ result data', callback data destination =
          ((result, bytes.take result.transferred ++ destination.drop result.transferred), data') ∧
        result.status ≠ .Error ∧ result.transferred ≤ destination.length ∧ result.transferred ≤ bytes.length ∧
        (result.transferred = 0 → bytes = []) ∧ (result.status = .End → bytes.drop result.transferred = []) ∧
        Left data' (bytes.drop result.transferred)

/-- The writer takes some bytes of each write, behind those that its state has taken. -/
def Accepts (writer : Writer σ) (Taken : σ → List UInt8 → Prop) : Prop :=
  ∃ callback, writer.write = some callback ∧
    ∀ data bytes source, Taken data bytes → source ≠ [] →
      ∃ result data', callback data source = (result, data') ∧ result.status = .Complete ∧
        0 < result.transferred ∧ result.transferred ≤ source.length ∧
        Taken data' (bytes ++ source.take result.transferred)

theorem checked_self {result : Result} {capacity : Nat} (hle : result.transferred ≤ capacity)
    (hstatus : result.status ≠ .Error) : checked result capacity = result := by
  rw [checked, if_neg (by omega), if_neg (fun h => hstatus h.1)]

/-- **A writer that accepts every byte takes the whole source**, however it splits it. -/
theorem Accepts.writeAll {writer : Writer σ} {Taken : σ → List UInt8 → Prop} (h : Accepts writer Taken) {data : σ}
    {bytes : List UInt8} (hdata : Taken data bytes) (source : List UInt8) :
    ∃ data', Io.writeAll writer data source = ({ transferred := source.length }, data') ∧ Taken data' (bytes ++ source) := by
  obtain ⟨callback, hcallback, haccepts⟩ := h
  suffices hloop : ∀ length source data bytes total, source.length = length → Taken data bytes →
      ∃ data', writeAllLoop writer data total source = ({ transferred := total + source.length }, data') ∧
        Taken data' (bytes ++ source) by
    obtain ⟨data', hwrite, htaken⟩ := hloop source.length source data bytes 0 rfl hdata
    rw [Nat.zero_add] at hwrite
    exact ⟨data', hwrite, htaken⟩
  intro length
  induction length using Nat.strong_induction_on with
  | _ length ih =>
    intro source data bytes total hlength hdata
    rw [writeAllLoop]
    by_cases hnil : source = []
    · rw [hnil, append_nil]
      exact ⟨data, rfl, hdata⟩
    have hpos : source.length ≠ 0 := fun hzero => hnil (length_eq_zero_iff.1 hzero)
    obtain ⟨result, data', hcall, hstatus, hsome, hle, htaken⟩ := haccepts data bytes source hdata hnil
    have hnot : result.status ≠ .Error := by
      rw [hstatus]
      exact Status.noConfusion
    have hwrite : write writer data source = (result, data') := by
      rw [write, if_neg hpos, hcallback]
      dsimp only
      rw [hcall]
      rw [checked_self hle hnot, if_neg (by rw [hstatus]; exact Status.noConfusion)]
    obtain ⟨data'', hrest, htaken'⟩ := ih (source.drop result.transferred).length
      (by rw [length_drop]; omega) (source.drop result.transferred) data' (bytes ++ source.take result.transferred)
      (total + result.transferred) rfl htaken
    rw [append_assoc, take_append_drop] at htaken'
    refine ⟨data'', ?_, htaken'⟩
    rw [if_neg hpos, hwrite]
    dsimp only
    rw [if_neg hnot, dif_neg (by omega), hrest, length_drop]
    have hsum : total + result.transferred + (source.length - result.transferred) = total + source.length := by omega
    rw [hsum]

theorem Delivers.read {reader : Reader σ} {Left : σ → List UInt8 → Prop} (h : Delivers reader Left) {data : σ}
    {bytes destination : List UInt8} (hdata : Left data bytes) (hdestination : destination ≠ []) :
    ∃ result data', Io.read reader data destination =
        ((result, bytes.take result.transferred ++ destination.drop result.transferred), data') ∧
      result.status ≠ .Error ∧ result.transferred ≤ destination.length ∧ result.transferred ≤ bytes.length ∧
      (result.transferred = 0 → bytes = []) ∧ (result.status = .End → bytes.drop result.transferred = []) ∧
      Left data' (bytes.drop result.transferred) := by
  obtain ⟨callback, hcallback, hdelivers⟩ := h
  obtain ⟨result, data', hcall, hstatus, hle, hrest⟩ := hdelivers data bytes destination hdata hdestination
  refine ⟨result, data', ?_, hstatus, hle, hrest⟩
  rw [Io.read, if_neg (fun hzero => hdestination (length_eq_zero_iff.1 hzero)), hcallback]
  dsimp only
  rw [hcall]
  rw [checked_self hle hstatus]

end Contracts

def Cursor.Left (state : Cursor) (bytes : List UInt8) : Prop :=
  state.offset ≤ state.data.length ∧ bytes = state.data.drop state.offset

theorem cursor_delivers : Delivers cursorReader Cursor.Left := by
  refine ⟨cursorRead, rfl, fun state bytes destination hleft hdestination => ?_⟩
  obtain ⟨hoffset, rfl⟩ := hleft
  have hpos : 0 < destination.length := length_pos_of_ne_nil hdestination
  have hlength : (state.data.drop state.offset).length = state.data.length - state.offset := length_drop
  rw [cursorRead, if_neg (by omega)]
  refine ⟨_, _, rfl, ?_, ?_, ?_, fun hzero => ?_, fun hend => ?_, ?_, ?_⟩
  · split_ifs <;> exact Status.noConfusion
  · exact Nat.min_le_right _ _
  · rw [hlength]
    exact Nat.min_le_left _ _
  · dsimp only at hzero
    exact drop_eq_nil_of_le (by omega)
  · split_ifs at hend with hall
    rw [drop_drop]
    exact drop_eq_nil_of_le hall.ge
  · dsimp only
    omega
  · rw [drop_drop]

end Dyn.Io
