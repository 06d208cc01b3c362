import SuperVoice.Lib.Bytes
import Mathlib.Data.List.TakeWhile

/-! The event-stream format: its lines, the fields on them and the events that blank lines
dispatch. Only the fields `event` and `data` are read. -/
namespace EventStream
open Bytes

def carriageReturn : UInt8 := 13

def colon : UInt8 := 58

def space : UInt8 := 32

/-- The lines of the rest of a text whose current line has begun with `line`; a line ends at LF,
CR or CRLF, and one that does not end is none. `afterReturn` says that a CR has come last. -/
def linesFrom (afterReturn : Bool) (line : Bytes) : Bytes → List Bytes
  | [] => []
  | b :: rest =>
    if b = newline then
      if afterReturn then linesFrom false line rest else line :: linesFrom false [] rest
    else if b = carriageReturn then line :: linesFrom true [] rest
    else linesFrom false (line ++ [b]) rest

def lines (text : Bytes) : List Bytes := linesFrom false [] text

/-- The name and the value of the field on a line, the value without one leading space. -/
def field (line : Bytes) : Bytes × Bytes :=
  (line.takeWhile (· ≠ colon),
    match (line.dropWhile (· ≠ colon)).tail with
    | [] => []
    | b :: value => if b = space then value else b :: value)

/-- What is buffered for the next event. -/
structure Buffers where
  event : Bytes := []
  data : Bytes := []

/-- An event without a name has the default one. -/
structure Event where
  name : Bytes
  data : Bytes
  deriving DecidableEq

namespace Buffers

/-- A comment has an empty name. -/
def process (buffers : Buffers) (line : Bytes) : Buffers :=
  let (name, value) := field line
  if name = ascii "event" then { buffers with event := value }
  else if name = ascii "data" then { buffers with data := buffers.data ++ value ++ [newline] }
  else buffers

/-- Without data there is no event. -/
def dispatch (buffers : Buffers) : Option Event :=
  if buffers.data = [] then none
  else some ⟨buffers.event,
    if buffers.data.getLast? = some newline then buffers.data.dropLast else buffers.data⟩

end Buffers

def eventsFrom (buffers : Buffers) : List Bytes → List Event
  | [] => []
  | line :: rest =>
    if line = [] then buffers.dispatch.toList ++ eventsFrom {} rest
    else eventsFrom (buffers.process line) rest

/-- The events that a text dispatches. -/
def decode (text : Bytes) : List Event := eventsFrom {} (lines text)

/-- Each line with a line feed behind it. -/
def unlines (ls : List Bytes) : Bytes := ls.flatMap (· ++ [newline])

/-- A line within which no line ends. -/
def Unbroken (line : Bytes) : Prop := newline ∉ line ∧ carriageReturn ∉ line

section
variable {line text rest : Bytes} {ls : List Bytes} {buffers : Buffers}

@[simp] theorem unlines_nil : unlines [] = [] := rfl

@[simp] theorem unlines_cons (line : Bytes) (ls : List Bytes) :
    unlines (line :: ls) = line ++ newline :: unlines ls := by
  simp [unlines]

@[simp] theorem unlines_append (ls ls' : List Bytes) :
    unlines (ls ++ ls') = unlines ls ++ unlines ls' :=
  List.flatMap_append

theorem linesFrom_unbroken (start : Bytes) (h : Unbroken line) (rest : Bytes) :
    linesFrom false start (line ++ newline :: rest) =
      (start ++ line) :: linesFrom false [] rest := by
  obtain ⟨hfeed, hreturn⟩ := h
  induction line generalizing start with
  | nil => simp [linesFrom]
  | cons b line ih =>
    simp only [List.mem_cons, not_or] at hfeed hreturn
    rw [List.cons_append, linesFrom, if_neg (Ne.symm hfeed.1), if_neg (Ne.symm hreturn.1),
      ih _ hfeed.2 hreturn.2, List.append_assoc, List.singleton_append]

theorem lines_unlines (h : ∀ line ∈ ls, Unbroken line) : lines (unlines ls) = ls := by
  induction ls with
  | nil => rfl
  | cons line ls ih =>
    obtain ⟨hline, hls⟩ := List.forall_mem_cons.mp h
    rw [unlines_cons, lines, linesFrom_unbroken [] hline, List.nil_append]
    exact congrArg (line :: ·) (ih hls)

/-- No line holds a carriage return. -/
theorem return_notMem_linesFrom (afterReturn : Bool) (hline : carriageReturn ∉ line) :
    ∀ l ∈ linesFrom afterReturn line text, carriageReturn ∉ l := by
  induction text generalizing afterReturn line with
  | nil => exact fun l hl => absurd hl List.not_mem_nil
  | cons b rest ih =>
    have hempty : carriageReturn ∉ ([] : Bytes) := List.not_mem_nil
    rw [linesFrom]
    split
    · split
      · exact ih false hline
      · exact List.forall_mem_cons.mpr ⟨hline, ih false hempty⟩
    · split
      case isTrue => exact List.forall_mem_cons.mpr ⟨hline, ih true hempty⟩
      case isFalse hreturn =>
        apply ih false
        simp only [List.mem_append, List.mem_singleton, not_or]
        exact ⟨hline, Ne.symm hreturn⟩

/-- The field on a line that names it. -/
theorem field_append (name value : Bytes) (h : colon ∉ name) :
    field (name ++ colon :: space :: value) = (name, value) := by
  have hname : ∀ b ∈ name, (decide (b ≠ colon)) = true := by
    intro b hb
    rw [decide_eq_true_iff]
    rintro rfl
    exact h hb
  have htake : (name ++ colon :: space :: value).takeWhile (· ≠ colon) = name := by
    rw [List.takeWhile_append_of_pos hname]
    simp
  have hdrop : (name ++ colon :: space :: value).dropWhile (· ≠ colon) =
      colon :: space :: value := by
    rw [List.dropWhile_append_of_pos hname]
    simp
  rw [field, htake, hdrop, List.tail_cons]
  exact congrArg (Prod.mk name) (if_pos rfl)

/-- A value is part of its line. -/
theorem mem_of_mem_field {b : UInt8} (h : b ∈ (field line).2) : b ∈ line := by
  have htail : ∀ b ∈ (line.dropWhile (· ≠ colon)).tail, b ∈ line :=
    fun b hb => (List.dropWhile_suffix _).mem (List.mem_of_mem_tail hb)
  rw [field] at h
  dsimp only at h
  cases hrest : (line.dropWhile (· ≠ colon)).tail with
  | nil =>
    rw [hrest] at h
    cases h
  | cons c value =>
    rw [hrest] at h htail
    dsimp only at h
    split at h
    · exact htail b (List.mem_cons_of_mem c h)
    · exact htail b h

theorem return_notMem_process (hdata : carriageReturn ∉ buffers.data)
    (hline : carriageReturn ∉ line) : carriageReturn ∉ (buffers.process line).data := by
  unfold Buffers.process
  dsimp only
  split
  · exact hdata
  · split
    · have hvalue := mt mem_of_mem_field hline
      have hfeed : carriageReturn ≠ newline := by decide
      simp [hdata, hvalue, hfeed]
    · exact hdata

theorem return_notMem_dispatch {event : Event} (hdata : carriageReturn ∉ buffers.data)
    (h : event ∈ buffers.dispatch) : carriageReturn ∉ event.data := by
  unfold Buffers.dispatch at h
  split at h
  · cases h
  · cases h
    dsimp only
    split
    · exact fun hmem => hdata (List.mem_of_mem_dropLast hmem)
    · exact hdata

theorem return_notMem_eventsFrom (hdata : carriageReturn ∉ buffers.data)
    (hls : ∀ line ∈ ls, carriageReturn ∉ line) :
    ∀ event ∈ eventsFrom buffers ls, carriageReturn ∉ event.data := by
  induction ls generalizing buffers with
  | nil => exact fun event hevent => absurd hevent List.not_mem_nil
  | cons line ls ih =>
    obtain ⟨hline, hls⟩ := List.forall_mem_cons.mp hls
    rw [eventsFrom]
    split
    · intro event hevent
      rcases List.mem_append.mp hevent with hfirst | hrest
      · exact return_notMem_dispatch hdata (Option.mem_toList.mp hfirst)
      · exact ih List.not_mem_nil hls event hrest
    · exact ih (return_notMem_process hdata hline) hls

/-- No event that a text dispatches holds a carriage return. -/
theorem return_notMem_decode {event : Event} (h : event ∈ decode text) :
    carriageReturn ∉ event.data :=
  return_notMem_eventsFrom List.not_mem_nil
    (return_notMem_linesFrom false List.not_mem_nil) event h

/-- The line of a field. -/
def fieldLine (name value : Bytes) : Bytes := name ++ colon :: space :: value

theorem process_event (buffers : Buffers) (value : Bytes) :
    buffers.process (fieldLine (ascii "event") value) = { buffers with event := value } := by
  simp only [Buffers.process, fieldLine, field_append (ascii "event") value (by decide), if_true]

theorem process_data (buffers : Buffers) (value : Bytes) :
    buffers.process (fieldLine (ascii "data") value) =
      { buffers with data := buffers.data ++ value ++ [newline] } := by
  have hname : ascii "data" ≠ ascii "event" := by decide
  simp only [Buffers.process, fieldLine, field_append (ascii "data") value (by decide),
    if_neg hname, if_true]

/-- Lines of data and a blank line. -/
theorem eventsFrom_data (buffers : Buffers) (values : List Bytes) :
    eventsFrom buffers (values.map (fieldLine (ascii "data")) ++ [[]]) =
      ({ buffers with data := buffers.data ++ unlines values } : Buffers).dispatch.toList := by
  induction values generalizing buffers with
  | nil => simp [eventsFrom]
  | cons value values ih =>
    have hne : fieldLine (ascii "data") value ≠ [] := by simp [fieldLine]
    rw [List.map_cons, List.cons_append, eventsFrom, if_neg hne, process_data, ih]
    simp

end

end EventStream
