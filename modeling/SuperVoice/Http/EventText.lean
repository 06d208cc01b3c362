import SuperVoice.Lib.EventStream
import SuperVoice.Http.Sse

/-! What the receiver of an event stream reads from the text of one event. -/
namespace SuperVoice.Http
open Bytes EventStream

/-- The lines that `escapeFrom` takes a text apart into. -/
def pieces (line : Bytes) : Bytes → List Bytes
  | [] => if line = [] then [] else [line]
  | c :: rest => if c = newline then line :: pieces [] rest else pieces (line ++ [c]) rest

/-- The text without a line feed at its end. -/
def kept (data : Bytes) : Bytes :=
  if data.getLast? = some newline then data.dropLast else data

/-- The values of the data lines of an event. -/
def values (data : Bytes) : List Bytes := if data = [] then [[]] else pieces [] data

def eventLines (event data : Bytes) : List Bytes :=
  (if event = [] then [] else [fieldLine (ascii "event") event]) ++
    ((values data).map (fieldLine (ascii "data")) ++ [[]])

section
variable {event data line rest : Bytes}

theorem dataLine_eq (line : Bytes) : dataLine line = unlines [fieldLine (ascii "data") line] := by
  simp [dataLine, fieldLine]
  rfl

theorem escapeFrom_eq (line data : Bytes) :
    escapeFrom line data = unlines ((pieces line data).map (fieldLine (ascii "data"))) := by
  induction data generalizing line with
  | nil =>
    rw [escapeFrom, pieces]
    cases line with
    | nil => rfl
    | cons b line => exact dataLine_eq _
  | cons c rest ih =>
    rw [escapeFrom, pieces]
    split
    · rw [ih, dataLine_eq]
      exact (unlines_append _ _).symm
    · exact ih _

theorem formatEvent_eq (event data : Bytes) :
    formatEvent event data = unlines (eventLines event data) := by
  have hheader : (if event.isEmpty then [] else ascii "event: " ++ event ++ [newline]) =
      unlines (if event = [] then [] else [fieldLine (ascii "event") event]) := by
    cases event with
    | nil => rfl
    | cons b event =>
      simp [fieldLine]
      rfl
  have hdata : escapeData data = unlines ((values data).map (fieldLine (ascii "data")) ++ [[]]) := by
    rw [unlines_append, escapeData, values]
    cases data with
    | nil => rfl
    | cons b data =>
      rw [if_neg (List.cons_ne_nil b data), ← escapeFrom_eq]
      rfl
  rw [formatEvent, eventLines, unlines_append, hheader, hdata]

theorem kept_append (l : Bytes) (h : rest ≠ []) : kept (l ++ rest) = l ++ kept rest := by
  obtain ⟨init, last, rfl⟩ := (List.eq_nil_or_concat' rest).resolve_left h
  rw [kept, kept, ← List.append_assoc, List.getLast?_concat, List.getLast?_concat,
    List.dropLast_concat, List.dropLast_concat]
  split
  · rfl
  · rw [List.append_assoc]

theorem unlines_pieces (hline : newline ∉ line) (h : line ++ data ≠ []) :
    unlines (pieces line data) = kept (line ++ data) ++ [newline] := by
  induction data generalizing line with
  | nil =>
    rw [List.append_nil] at h ⊢
    have hlast : line.getLast? ≠ some newline := fun hlast => hline (List.mem_of_getLast? hlast)
    rw [pieces, if_neg h, kept, if_neg hlast]
    simp
  | cons c rest ih =>
    rw [pieces]
    split
    case isTrue hfeed =>
      subst hfeed
      cases rest with
      | nil => simp [pieces, kept]
      | cons b rest =>
        rw [unlines_cons, ih List.not_mem_nil (List.cons_ne_nil b rest), List.nil_append,
          ← List.singleton_append (l := b :: rest), ← List.append_assoc,
          kept_append (line ++ [newline]) (List.cons_ne_nil b rest)]
        simp
    case isFalse hfeed =>
      rw [ih (by simp [hline, Ne.symm hfeed]) (by simp), List.append_assoc, List.singleton_append]

theorem unlines_values (data : Bytes) : unlines (values data) = kept data ++ [newline] := by
  rw [values]
  split
  case isTrue h =>
    cases h
    rfl
  case isFalse h => exact unlines_pieces List.not_mem_nil h

theorem unbroken_nil : Unbroken [] := ⟨List.not_mem_nil, List.not_mem_nil⟩

theorem unbroken_pieces (hline : Unbroken line) (hdata : carriageReturn ∉ data) :
    ∀ value ∈ pieces line data, Unbroken value := by
  induction data generalizing line with
  | nil =>
    rw [pieces]
    split
    · exact fun value hvalue => absurd hvalue List.not_mem_nil
    · exact List.forall_mem_singleton.mpr hline
  | cons c rest ih =>
    simp only [List.mem_cons, not_or] at hdata
    rw [pieces]
    split
    case isTrue => exact List.forall_mem_cons.mpr ⟨hline, ih unbroken_nil hdata.2⟩
    case isFalse hfeed =>
      apply ih _ hdata.2
      simp only [Unbroken, List.mem_append, List.mem_singleton, not_or]
      exact ⟨⟨hline.1, Ne.symm hfeed⟩, hline.2, hdata.1⟩

theorem unbroken_values (hdata : carriageReturn ∉ data) : ∀ value ∈ values data, Unbroken value := by
  rw [values]
  split
  · exact List.forall_mem_singleton.mpr unbroken_nil
  · exact unbroken_pieces unbroken_nil hdata

theorem unbroken_fieldLine {name value : Bytes} (hname : Unbroken name) (hvalue : Unbroken value) :
    Unbroken (fieldLine name value) := by
  have hcolon : newline ≠ colon ∧ newline ≠ space := by decide
  have hcolon' : carriageReturn ≠ colon ∧ carriageReturn ≠ space := by decide
  simp only [Unbroken, fieldLine, List.mem_append, List.mem_cons, not_or]
  exact ⟨⟨hname.1, hcolon.1, hcolon.2, hvalue.1⟩, hname.2, hcolon'.1, hcolon'.2, hvalue.2⟩

theorem unbroken_eventLines (hevent : Unbroken event) (hdata : carriageReturn ∉ data) :
    ∀ line ∈ eventLines event data, Unbroken line := by
  intro line hline
  simp only [eventLines, List.mem_append, List.mem_map, List.mem_singleton] at hline
  rcases hline with hheader | ⟨value, hvalue, rfl⟩ | rfl
  · split at hheader
    · cases hheader
    · cases List.mem_singleton.mp hheader
      exact unbroken_fieldLine ⟨by decide, by decide⟩ hevent
  · exact unbroken_fieldLine ⟨by decide, by decide⟩ (unbroken_values hdata value hvalue)
  · exact unbroken_nil

/-- Without a carriage return, all that is lost is a line feed at the end. -/
theorem decode_formatEvent (hevent : Unbroken event) (hdata : carriageReturn ∉ data) :
    decode (formatEvent event data) = [⟨event, kept data⟩] := by
  rw [decode, formatEvent_eq, lines_unlines (unbroken_eventLines hevent hdata), eventLines]
  have hbuffers : ∀ buffers : Buffers, buffers.data = [] →
      eventsFrom buffers ((values data).map (fieldLine (ascii "data")) ++ [[]]) =
        [⟨buffers.event, kept data⟩] := by
    intro buffers hempty
    rw [eventsFrom_data, hempty, List.nil_append, unlines_values]
    simp [Buffers.dispatch]
  split
  case isTrue h =>
    rw [h]
    exact hbuffers {} rfl
  case isFalse h =>
    have hne : fieldLine (ascii "event") event ≠ [] := by simp [fieldLine]
    rw [List.singleton_append, eventsFrom, if_neg hne, process_event]
    exact hbuffers { event } rfl

theorem kept_eq_self_iff : kept data = data ↔ data.getLast? ≠ some newline := by
  rw [kept]
  split
  case isTrue h =>
    apply iff_of_false
    · intro heq
      have hlength := congrArg List.length heq
      have hne : data ≠ [] := by
        rintro rfl
        cases h
      have hpos := List.length_pos_iff.mpr hne
      rw [List.length_dropLast] at hlength
      omega
    · exact not_not_intro h
  case isFalse h => exact iff_of_true rfl h

/-- The data arrives as it is exactly if there is no carriage return in it and no line feed at its
end. -/
theorem formatEvent_decodes_iff (data : Bytes) (hevent : Unbroken event) :
    decode (formatEvent event data) = [⟨event, data⟩] ↔
      carriageReturn ∉ data ∧ data.getLast? ≠ some newline := by
  constructor
  · intro h
    have hdata : carriageReturn ∉ data :=
      return_notMem_decode (h ▸ List.mem_singleton_self (⟨event, data⟩ : Event))
    rw [decode_formatEvent hevent hdata] at h
    have hkept : kept data = data := congrArg Event.data (List.singleton_inj.mp h)
    exact ⟨hdata, kept_eq_self_iff.mp hkept⟩
  · intro h
    rw [decode_formatEvent hevent h.1, kept_eq_self_iff.mpr h.2]

end

/-- A carriage return in the data begins a field of its own. -/
theorem formatEvent_forged : ¬ ∀ event data : Bytes, Unbroken event →
    decode (formatEvent event data) = [⟨event, data⟩] := by
  intro h
  have hforged := h (ascii "delta") (ascii "a\rdata: b") ⟨by decide, by decide⟩
  have hdecoded : decode (formatEvent (ascii "delta") (ascii "a\rdata: b")) =
      [⟨ascii "delta", ascii "a\nb"⟩] := by decide
  rw [hdecoded] at hforged
  exact absurd hforged (by decide)

theorem formatEvent_decodes_lines :
    decode (formatEvent (ascii "delta") (ascii " a\n\nb")) =
      [⟨ascii "delta", ascii " a\n\nb"⟩] :=
  (formatEvent_decodes_iff (ascii " a\n\nb") ⟨by decide, by decide⟩).mpr ⟨by decide, by decide⟩

end SuperVoice.Http
