import SuperVoice.Lib.Environment
import SuperVoice.Lib.Override
import SuperVoice.Lib.Search
import SuperVoice.Lib.Text

/-! `loadDotEnv`: the assignments of a `.env` file enter the environment. -/
namespace SuperVoice.Core.DotEnv
open Bytes Environment Numeral Search Text

def doubleQuote : UInt8 := 34
def singleQuote : UInt8 := 39
def hash : UInt8 := 35

/-- One pair of quotes around a value is taken off. -/
def unquote (value : Bytes) : Bytes :=
  if 2 ≤ value.length ∧ (value.head? = some doubleQuote ∧ value.getLast? = some doubleQuote ∨
      value.head? = some singleQuote ∧ value.getLast? = some singleQuote) then
    (value.drop 1).take (value.length - 2)
  else value

def loadLine (env : Variables) (line : Bytes) : Variables :=
  if line = [] ∨ line.head? = some hash then env
  else
    match cut [equals] line with
    | none => env
    | some (key, value) =>
      if trim key = [] then env else setenv env (trim key) (unquote (trim value))

/-- `none` is a file that cannot be opened. -/
def loadDotEnv (env : Variables) : Option Bytes → Bool × Variables
  | none => (false, env)
  | some content => (true, (lines content).foldl loadLine env)

structure Assignment where
  key : Bytes
  value : Bytes
  key_ne : key ≠ []
  key_equals : equals ∉ key
  key_newline : newline ∉ key
  key_nul : 0 ∉ key
  key_trimmed : Trimmed key
  key_hash : key.head? ≠ some hash
  value_newline : newline ∉ value
  value_nul : 0 ∉ value

/-- White space within a line. -/
structure Blanks where
  text : Bytes
  space : ∀ b ∈ text, isSpace b = true
  newline : newline ∉ text

inductive Quote where
  | double
  | single

def Quote.byte : Quote → UInt8
  | double => doubleQuote
  | single => singleQuote

def Quote.around (quote : Quote) (value : Bytes) : Bytes := [quote.byte] ++ value ++ [quote.byte]

/-- How an assignment is laid out on its line. -/
structure Layout where
  quote : Quote
  beforeKey : Blanks
  afterKey : Blanks
  beforeValue : Blanks
  afterValue : Blanks

def Layout.keyText (layout : Layout) (key : Bytes) : Bytes :=
  layout.beforeKey.text ++ key ++ layout.afterKey.text

def Layout.valueText (layout : Layout) (value : Bytes) : Bytes :=
  layout.beforeValue.text ++ layout.quote.around value ++ layout.afterValue.text

inductive Line where
  | blank (blanks : Blanks)
  | comment (text : Bytes) (h : newline ∉ text)
  | assigns (assignment : Assignment) (layout : Layout)

def Line.text : Line → Bytes
  | .blank blanks => blanks.text
  | .comment text _ => hash :: text
  | .assigns assignment layout =>
    layout.keyText assignment.key ++ [equals] ++ layout.valueText assignment.value

def Line.assigned : Line → Option Assignment
  | .assigns assignment _ => some assignment
  | _ => none

/-- A file; its last line may lack the newline. -/
def fileText (lines : List Line) (last : Option Line) : Bytes :=
  lines.flatMap (fun line => line.text ++ [newline]) ++ (last.map Line.text).getD []

def Assignment.apply (env : Variables) (assignment : Assignment) : Variables :=
  Function.update env assignment.key (some assignment.value)

theorem unquote_around (quote : Quote) (value : Bytes) : unquote (quote.around value) = value := by
  have hlength : 2 ≤ (quote.around value).length := by simp [Quote.around]
  have hlast : (quote.around value).getLast? = some quote.byte := List.getLast?_concat
  have hquotes : (quote.around value).head? = some doubleQuote ∧
      (quote.around value).getLast? = some doubleQuote ∨
        (quote.around value).head? = some singleQuote ∧
          (quote.around value).getLast? = some singleQuote := by
    cases quote with
    | double => exact .inl ⟨rfl, hlast⟩
    | single => exact .inr ⟨rfl, hlast⟩
  rw [unquote, if_pos ⟨hlength, hquotes⟩]
  simp [Quote.around]

theorem isSpace_quote (quote : Quote) : isSpace quote.byte = false := by
  cases quote with
  | double => decide
  | single => decide

theorem trim_valueText (layout : Layout) (value : Bytes) :
    trim (layout.valueText value) = layout.quote.around value := by
  have htrimmed : Trimmed (layout.quote.around value) := by
    constructor
    · intro b hb
      cases hb
      exact isSpace_quote layout.quote
    · intro b hb
      rw [Quote.around, List.getLast?_concat] at hb
      cases hb
      exact isSpace_quote layout.quote
  rw [Layout.valueText, List.append_assoc]
  exact trim_append (by simp [Quote.around]) htrimmed layout.beforeValue.space
    layout.afterValue.space

theorem trim_keyText (assignment : Assignment) (layout : Layout) :
    trim (layout.keyText assignment.key) = assignment.key := by
  rw [Layout.keyText, List.append_assoc]
  exact trim_append assignment.key_ne assignment.key_trimmed layout.beforeKey.space
    layout.afterKey.space

theorem Blanks.notMem {b : UInt8} (blanks : Blanks) (hb : isSpace b = false) : b ∉ blanks.text := by
  intro hmem
  cases hb.symm.trans (blanks.space b hmem)

theorem equals_notMem_keyText (assignment : Assignment) (layout : Layout) :
    equals ∉ layout.keyText assignment.key := by
  simp only [Layout.keyText, List.mem_append, not_or]
  exact ⟨⟨layout.beforeKey.notMem (by decide), assignment.key_equals⟩,
    layout.afterKey.notMem (by decide)⟩

/-- A line that assigns does not begin as a comment. -/
theorem head_keyText (assignment : Assignment) (layout : Layout) (rest : Bytes) :
    (layout.keyText assignment.key ++ rest).head? ≠ some hash := by
  obtain ⟨b, key, hkey⟩ := List.exists_cons_of_ne_nil assignment.key_ne
  have hhead := assignment.key_hash
  rw [Layout.keyText]
  cases hbefore : layout.beforeKey.text with
  | nil =>
    rw [hkey] at hhead ⊢
    exact hhead
  | cons c text =>
    intro hc
    cases hc
    have hspace := layout.beforeKey.space hash (by simp [hbefore])
    exact absurd hspace (by decide)

theorem setenv_assignment (env : Variables) (assignment : Assignment) :
    setenv env assignment.key assignment.value = assignment.apply env := by
  rw [setenv, PosixPath.cString_of_no_nul assignment.key_nul,
    PosixPath.cString_of_no_nul assignment.value_nul,
    if_neg (not_or.mpr ⟨assignment.key_ne, assignment.key_equals⟩), Assignment.apply]

theorem loadLine_assigns (env : Variables) (assignment : Assignment) (layout : Layout) :
    loadLine env (Line.assigns assignment layout).text = assignment.apply env := by
  have hline : ¬ ((Line.assigns assignment layout).text = [] ∨
      (Line.assigns assignment layout).text.head? = some hash) := by
    rw [Line.text, List.append_assoc, not_or]
    exact ⟨by simp, head_keyText assignment layout _⟩
  have hcut : cut [equals] (Line.assigns assignment layout).text =
      some (layout.keyText assignment.key, layout.valueText assignment.value) :=
    cut_singleton_iff.mpr ⟨rfl, equals_notMem_keyText assignment layout⟩
  rw [loadLine, if_neg hline, hcut]
  dsimp only
  rw [trim_keyText, if_neg assignment.key_ne, trim_valueText, unquote_around, setenv_assignment]

/-- A line gives its assignment to the environment, if it has one. -/
theorem loadLine_text (env : Variables) (line : Line) :
    loadLine env line.text = (line.assigned.map fun a => a.apply env).getD env := by
  cases line with
  | blank blanks =>
    have hequals : cut [equals] blanks.text = none :=
      cut_singleton_none_iff.mpr (blanks.notMem (by decide))
    rw [Line.text, loadLine, hequals, ite_self]
    rfl
  | comment text h => exact if_pos (.inr rfl)
  | assigns assignment layout => exact loadLine_assigns env assignment layout

theorem newline_notMem_text (line : Line) : newline ∉ line.text := by
  cases line with
  | blank blanks => exact blanks.newline
  | comment text h =>
    rw [Line.text, List.mem_cons, not_or]
    exact ⟨by decide, h⟩
  | assigns assignment layout =>
    have hquote : newline ≠ layout.quote.byte := by cases layout.quote <;> decide
    simp [Line.text, Layout.keyText, Layout.valueText, Quote.around, layout.beforeKey.newline,
      layout.afterKey.newline, layout.beforeValue.newline, layout.afterValue.newline,
      assignment.key_newline, assignment.value_newline, hquote,
      show newline ≠ equals from by decide]

theorem foldl_loadLine (env : Variables) (lines : List Line) :
    (lines.map Line.text).foldl loadLine env =
      (lines.filterMap Line.assigned).foldl Assignment.apply env := by
  induction lines generalizing env with
  | nil => rfl
  | cons line lines ih =>
    rw [List.map_cons, List.foldl_cons, loadLine_text, ih, List.filterMap_cons]
    cases line.assigned with
    | none => rfl
    | some assignment => rfl

/-- Lines are read as they were written; a last one that is empty cannot be told from none. -/
theorem foldl_lines_fileText (env : Variables) (file : List Line) (last : Option Line) :
    (lines (fileText file last)).foldl loadLine env =
      ((file ++ last.toList).map Line.text).foldl loadLine env := by
  have hfile : fileText file last =
      (file.map Line.text).flatMap (· ++ [newline]) ++ (last.map Line.text).getD [] := by
    rw [fileText, List.flatMap_map]
  have hnewline : ∀ text ∈ file.map Line.text, newline ∉ text := by
    intro text htext
    obtain ⟨line, -, rfl⟩ := List.mem_map.mp htext
    exact newline_notMem_text line
  rw [hfile]
  cases last with
  | none => simp [lines_unlines hnewline]
  | some last =>
    rw [Option.map_some, Option.getD_some, lines_unterminated hnewline (newline_notMem_text last)]
    split
    case isTrue hempty => simp [hempty, loadLine]
    case isFalse => simp

/-- Loading a file of assignments overrides the environment by them, in order and byte for byte,
and leaves the other variables as they are. -/
theorem loadDotEnv_assigns (env : Variables) (file : List Line) (last : Option Line) :
    loadDotEnv env (some (fileText file last)) =
        (true, ((file ++ last.toList).filterMap Line.assigned).foldl Assignment.apply env) ∧
      ∀ name, (∀ assignment ∈ (file ++ last.toList).filterMap Line.assigned,
        assignment.key ≠ name) →
          (loadDotEnv env (some (fileText file last))).2 name = env name := by
  have hload : loadDotEnv env (some (fileText file last)) =
      (true, ((file ++ last.toList).filterMap Line.assigned).foldl Assignment.apply env) := by
    rw [loadDotEnv, foldl_lines_fileText, foldl_loadLine]
  refine ⟨hload, fun name hname => ?_⟩
  rw [hload]
  exact Override.foldl_update_of_ne env hname

/-- Quotes, `=`, `#` and a backslash within a value, and a variable that is assigned twice. -/
example : ((loadDotEnv (fun _ => none)
    (some (ascii "# c=d\nA = \"x\"\n\n\tA='\"#=\\ '  \nB=\"\""))).2 (ascii "A")) =
      some (ascii "\"#=\\ ") := by
  decide

end SuperVoice.Core.DotEnv
