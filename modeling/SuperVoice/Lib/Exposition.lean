import Mathlib.Data.List.TakeWhile
import SuperVoice.Lib.Bytes

/-! The text exposition format of Prometheus: one sample a line, label values in quotes with
backslash, quote and newline escaped. Samples carry no time stamps. -/
namespace Exposition
open Bytes

def space : UInt8 := 32
def quote : UInt8 := 34
def hash : UInt8 := 35
def comma : UInt8 := 44
def equals : UInt8 := 61
def backslash : UInt8 := 92
def openBrace : UInt8 := 123
def closeBrace : UInt8 := 125

structure Sample where
  name : Bytes
  labels : List (Bytes × Bytes)
  value : Bytes
  deriving DecidableEq

def escapeByte (c : UInt8) : Bytes :=
  if c = backslash ∨ c = quote then [backslash, c]
  else if c = newline then [backslash, 110]
  else [c]

def escape (value : Bytes) : Bytes := value.flatMap escapeByte

def renderLabel (label : Bytes × Bytes) : Bytes :=
  label.1 ++ [equals, quote] ++ escape label.2 ++ [quote]

/-- Labels with commas between them. -/
def renderLabels : List (Bytes × Bytes) → Bytes
  | [] => []
  | [label] => renderLabel label
  | label :: labels => renderLabel label ++ comma :: renderLabels labels

/-- The name and the labels as they stand in front of the value. -/
def renderSeries (name : Bytes) (labels : List (Bytes × Bytes)) : Bytes :=
  if labels = [] then name else name ++ openBrace :: renderLabels labels ++ [closeBrace]

def Sample.render (s : Sample) : Bytes := renderSeries s.name s.labels ++ space :: s.value

/-- The byte that an escaped one stands for. -/
def unescapeByte (c : UInt8) : Option UInt8 :=
  if c = backslash ∨ c = quote then some c else if c = 110 then some newline else none

/-- A label value up to its closing quote, and what follows. -/
def readValue : Bytes → Option (Bytes × Bytes)
  | [] => none
  | c :: rest =>
    if c = quote then some ([], rest)
    else if c = backslash then
      match rest with
      | [] => none
      | d :: rest => do
        let byte ← unescapeByte d
        let (value, rest) ← readValue rest
        return (byte :: value, rest)
    else if c = newline then none
    else (readValue rest).map fun (value, rest) => (c :: value, rest)

/-- Labels up to the closing brace; `fuel` bounds their number. -/
def readLabels : Nat → Bytes → Option (List (Bytes × Bytes) × Bytes)
  | 0, _ => none
  | fuel + 1, text =>
    let name := text.takeWhile (· ≠ equals)
    match text.drop name.length with
    | e :: q :: rest =>
      if e = equals ∧ q = quote then do
        let (value, rest) ← readValue rest
        match rest with
        | [] => none
        | c :: rest =>
          if c = closeBrace then some ([(name, value)], rest)
          else if c = comma then do
            let (labels, rest) ← readLabels fuel rest
            return ((name, value) :: labels, rest)
          else none
      else none
    | _ => none

def readSample (line : Bytes) : Option Sample :=
  let name := line.takeWhile fun b => b ≠ openBrace ∧ b ≠ space
  match line.drop name.length with
  | [] => none
  | c :: rest =>
    if c = space then some ⟨name, [], rest⟩
    else do
      let (labels, rest) ← readLabels line.length rest
      match rest with
      | [] => none
      | c :: value => if c = space then some ⟨name, labels, value⟩ else none

/-- Empty lines and comments carry no sample. -/
def IsSampleLine (line : Bytes) : Bool := line != [] && line.head? != some hash

def parse (text : Bytes) : Option (List Sample) :=
  ((text.splitOn newline).filter IsSampleLine).mapM readSample

structure LabelName (name : Bytes) : Prop where
  no_equals : equals ∉ name
  no_newline : newline ∉ name

structure Sample.WellFormed (s : Sample) : Prop where
  no_brace : openBrace ∉ s.name
  no_space : space ∉ s.name
  no_newline : newline ∉ s.name
  starts : s.name.head? ≠ some hash
  labels : ∀ label ∈ s.labels, LabelName label.1
  value : newline ∉ s.value

theorem readValue_quote (rest : Bytes) : readValue (quote :: rest) = some ([], rest) := by
  rw [readValue.eq_def]
  rfl

theorem readValue_backslash (d : UInt8) (rest : Bytes) :
    readValue (backslash :: d :: rest) = (do
      let byte ← unescapeByte d
      let (value, rest) ← readValue rest
      return (byte :: value, rest)) := by
  rw [readValue.eq_def]
  rfl

theorem readValue_plain {c : UInt8} (hq : c ≠ quote) (hb : c ≠ backslash) (hn : c ≠ newline)
    (rest : Bytes) : readValue (c :: rest) =
      (readValue rest).map fun (value, rest) => (c :: value, rest) := by
  rw [readValue.eq_def]
  dsimp only
  rw [if_neg hq, if_neg hb, if_neg hn]

theorem readValue_escapeByte (c : UInt8) (rest : Bytes) : readValue (escapeByte c ++ rest) =
    (readValue rest).map fun (value, rest) => (c :: value, rest) := by
  unfold escapeByte
  split
  · next h =>
    have hbyte : unescapeByte c = some c := if_pos h
    show readValue (backslash :: c :: rest) = _
    rw [readValue_backslash, hbyte]
    cases readValue rest <;> rfl
  · next h =>
    split
    · next hn =>
      subst hn
      show readValue (backslash :: 110 :: rest) = _
      rw [readValue_backslash]
      cases readValue rest <;> rfl
    · next hn =>
      rw [not_or] at h
      exact readValue_plain h.2 h.1 hn rest

/-- A value is read back whatever it holds and whatever follows its closing quote. -/
theorem readValue_escape (value rest : Bytes) :
    readValue (escape value ++ quote :: rest) = some (value, rest) := by
  induction value with
  | nil => exact readValue_quote rest
  | cons c value ih =>
    rw [escape, List.flatMap_cons, List.append_assoc, readValue_escapeByte]
    rw [escape] at ih
    rw [ih]
    rfl

theorem takeWhile_append_cons {p : UInt8 → Bool} {xs : Bytes} {c : UInt8} (rest : Bytes)
    (hxs : ∀ x ∈ xs, p x = true) (hc : p c = false) : (xs ++ c :: rest).takeWhile p = xs := by
  rw [List.takeWhile_append_of_pos hxs, List.takeWhile_cons_of_neg (by simp [hc]), List.append_nil]

/-- One label is read, then what follows it decides. -/
theorem readLabels_label {name : Bytes} (hname : LabelName name) (fuel : Nat) (value : Bytes)
    (c : UInt8) (rest : Bytes) :
    readLabels (fuel + 1) (renderLabel (name, value) ++ c :: rest) =
      if c = closeBrace then some ([(name, value)], rest)
      else if c = comma then
        (readLabels fuel rest).map fun (labels, rest) => ((name, value) :: labels, rest)
      else none := by
  have htext : renderLabel (name, value) ++ c :: rest =
      name ++ equals :: quote :: (escape value ++ quote :: c :: rest) := by
    simp [renderLabel]
  have htake : ∀ x ∈ name, (fun b : UInt8 => decide (b ≠ equals)) x = true := by
    intro x hx
    have hne : x ≠ equals := fun h => hname.no_equals (h ▸ hx)
    simpa using hne
  rw [htext, readLabels, takeWhile_append_cons _ htake (by simp), List.drop_left]
  dsimp only
  rw [if_pos ⟨rfl, rfl⟩, readValue_escape]
  show (if c = closeBrace then _ else _) = _
  split
  · rfl
  · split
    · cases readLabels fuel rest <;> rfl
    · rfl

theorem renderLabels_cons_cons (label next : Bytes × Bytes) (labels : List (Bytes × Bytes)) :
    renderLabels (label :: next :: labels) =
      renderLabel label ++ comma :: renderLabels (next :: labels) := rfl

/-- Labels are read back, given fuel for each of them. -/
theorem readLabels_renderLabels {labels : List (Bytes × Bytes)} (hne : labels ≠ [])
    (hnames : ∀ label ∈ labels, LabelName label.1) {fuel : Nat} (hfuel : labels.length ≤ fuel)
    (rest : Bytes) :
    readLabels fuel (renderLabels labels ++ closeBrace :: rest) = some (labels, rest) := by
  induction labels generalizing fuel with
  | nil => exact absurd rfl hne
  | cons label labels ih =>
    rw [List.length_cons] at hfuel
    obtain ⟨fuel, rfl⟩ : ∃ n, fuel = n + 1 := ⟨fuel - 1, by omega⟩
    have hname : LabelName label.1 := hnames label List.mem_cons_self
    cases labels with
    | nil => exact (readLabels_label hname fuel label.2 closeBrace rest).trans (if_pos rfl)
    | cons next labels =>
      have htext : renderLabels (label :: next :: labels) ++ closeBrace :: rest =
          renderLabel label ++ comma :: (renderLabels (next :: labels) ++ closeBrace :: rest) := by
        rw [renderLabels_cons_cons, List.append_assoc, List.cons_append]
      have hrest := ih (List.cons_ne_nil _ _) (fun l hl => hnames l (List.mem_cons_of_mem _ hl))
        (Nat.le_of_succ_le_succ hfuel)
      rw [htext]
      apply (readLabels_label hname fuel label.2 comma _).trans
      rw [if_neg (by decide), if_pos rfl, hrest]
      rfl

theorem length_renderLabels (labels : List (Bytes × Bytes)) :
    labels.length ≤ (renderLabels labels).length := by
  induction labels with
  | nil => exact Nat.le_refl 0
  | cons label labels ih =>
    have hlabel : 1 ≤ (renderLabel label).length := by
      simp only [renderLabel, List.length_append, List.length_cons]
      omega
    cases labels with
    | nil => exact hlabel
    | cons next labels =>
      rw [renderLabels_cons_cons]
      simp only [List.length_append, List.length_cons] at ih ⊢
      omega

/-- A sample is read back from its line. -/
theorem readSample_render {s : Sample} (h : s.WellFormed) : readSample s.render = some s := by
  have htake : ∀ x ∈ s.name,
      (fun b : UInt8 => decide (b ≠ openBrace ∧ b ≠ space)) x = true := by
    intro x hx
    have hbrace : x ≠ openBrace := fun he => h.no_brace (he ▸ hx)
    have hspace : x ≠ space := fun he => h.no_space (he ▸ hx)
    simp [hbrace, hspace]
  unfold Sample.render renderSeries
  by_cases hlabels : s.labels = []
  · rw [if_pos hlabels, readSample, takeWhile_append_cons _ htake (by simp), List.drop_left]
    rw [← hlabels]
    rfl
  · have htext : s.name ++ openBrace :: renderLabels s.labels ++ [closeBrace] ++ space :: s.value =
        s.name ++ openBrace :: (renderLabels s.labels ++ closeBrace :: space :: s.value) := by
      simp
    have hfuel : s.labels.length ≤
        (s.name ++ openBrace :: (renderLabels s.labels ++ closeBrace :: space :: s.value)).length := by
      have hlength := length_renderLabels s.labels
      simp only [List.length_append, List.length_cons]
      omega
    rw [if_neg hlabels, htext, readSample, takeWhile_append_cons _ htake (by simp), List.drop_left]
    dsimp only
    rw [if_neg (by decide), readLabels_renderLabels hlabels h.labels hfuel]
    rfl

/-- Nothing to escape. -/
theorem escape_eq_self {value : Bytes}
    (h : ∀ c ∈ value, c ≠ backslash ∧ c ≠ quote ∧ c ≠ newline) : escape value = value := by
  induction value with
  | nil => rfl
  | cons c value ih =>
    obtain ⟨hb, hq, hn⟩ := h c List.mem_cons_self
    have hbyte : escapeByte c = [c] := by
      rw [escapeByte, if_neg (not_or.mpr ⟨hb, hq⟩), if_neg hn]
    have hrest := ih fun d hd => h d (List.mem_cons_of_mem _ hd)
    rw [escape, List.flatMap_cons, hbyte]
    rw [escape] at hrest
    rw [hrest]
    rfl

theorem newline_notMem_escape (value : Bytes) : newline ∉ escape value := by
  intro h
  obtain ⟨c, -, hc⟩ := List.mem_flatMap.mp h
  unfold escapeByte at hc
  split at hc
  · next hcases =>
    obtain hmem | hmem := List.mem_cons.mp hc
    · exact absurd hmem (by decide)
    · rw [← List.mem_singleton.mp hmem] at hcases
      exact absurd hcases (by decide)
  · next hne =>
    split at hc
    · exact absurd hc (by decide)
    · next hnewline => exact hnewline (List.mem_singleton.mp hc).symm

theorem newline_notMem_renderLabels {labels : List (Bytes × Bytes)}
    (hnames : ∀ label ∈ labels, LabelName label.1) : newline ∉ renderLabels labels := by
  induction labels with
  | nil => simp [renderLabels]
  | cons label labels ih =>
    have hlabel : newline ∉ renderLabel label := by
      have hname := (hnames label List.mem_cons_self).no_newline
      have hvalue := newline_notMem_escape label.2
      have hsymbols : newline ≠ equals ∧ newline ≠ quote := by decide
      simp [renderLabel, hname, hvalue, hsymbols]
    cases labels with
    | nil => exact hlabel
    | cons next labels =>
      have hrest := ih fun l hl => hnames l (List.mem_cons_of_mem _ hl)
      have hcomma : newline ≠ comma := by decide
      rw [renderLabels_cons_cons, List.mem_append, List.mem_cons]
      rintro (h | h | h)
      · exact hlabel h
      · exact hcomma h
      · exact hrest h

theorem newline_notMem_render {s : Sample} (h : s.WellFormed) : newline ∉ s.render := by
  have hsymbols : newline ≠ space ∧ newline ≠ openBrace ∧ newline ≠ closeBrace := by decide
  have hlabels := newline_notMem_renderLabels h.labels
  unfold Sample.render renderSeries
  split
  · simp [h.no_newline, h.value, hsymbols]
  · simp [h.no_newline, h.value, hlabels, hsymbols]

theorem splitOn_lines {lines : List Bytes} (h : ∀ line ∈ lines, newline ∉ line) :
    (lines.flatMap (· ++ [newline])).splitOn newline = lines ++ [[]] := by
  simpa using splitOn_lines_append h []

theorem isSampleLine_render {s : Sample} (h : s.WellFormed) : IsSampleLine s.render = true := by
  have hsymbols : openBrace ≠ hash ∧ space ≠ hash := by decide
  have hhead : s.render ≠ [] ∧ s.render.head? ≠ some hash := by
    have hstarts := h.starts
    unfold Sample.render renderSeries
    cases hname : s.name with
    | nil => split <;> simp [hsymbols]
    | cons c rest =>
      rw [hname] at hstarts
      split <;> simpa using hstarts
  simp [IsSampleLine, hhead]

theorem mapM_readSample {samples : List Sample} (h : ∀ s ∈ samples, s.WellFormed) :
    (samples.map Sample.render).mapM readSample = some samples := by
  induction samples with
  | nil => rfl
  | cons s samples ih =>
    have hs := readSample_render (h s List.mem_cons_self)
    have hrest := ih fun s' hs' => h s' (List.mem_cons_of_mem _ hs')
    rw [List.map_cons, List.mapM_cons, hs, hrest]
    rfl

/-- A text of comments and samples is read back to its samples. -/
theorem parse_lines {comments : List Bytes} {samples : List Sample}
    (hcomments : ∀ line ∈ comments, newline ∉ line ∧ line.head? = some hash)
    (hsamples : ∀ s ∈ samples, s.WellFormed) :
    parse (comments.flatMap (· ++ [newline]) ++
      samples.flatMap fun s => s.render ++ [newline]) = some samples := by
  have htext : comments.flatMap (· ++ [newline]) ++
      samples.flatMap (fun s => s.render ++ [newline]) =
        (comments ++ samples.map Sample.render).flatMap (· ++ [newline]) := by
    rw [List.flatMap_append, List.flatMap_map]
  have hlines : ∀ line ∈ comments ++ samples.map Sample.render, newline ∉ line := by
    intro line hline
    obtain hline | hline := List.mem_append.mp hline
    · exact (hcomments line hline).1
    · obtain ⟨s, hs, rfl⟩ := List.mem_map.mp hline
      exact newline_notMem_render (hsamples s hs)
  have hdropped : comments.filter IsSampleLine = [] := by
    apply List.filter_eq_nil_iff.mpr
    intro line hline
    simp [IsSampleLine, (hcomments line hline).2]
  have hkept : (samples.map Sample.render).filter IsSampleLine = samples.map Sample.render := by
    apply List.filter_eq_self.mpr
    intro line hline
    obtain ⟨s, hs, rfl⟩ := List.mem_map.mp hline
    exact isSampleLine_render (hsamples s hs)
  have hend : [([] : Bytes)].filter IsSampleLine = [] := rfl
  rw [parse, htext, splitOn_lines hlines, List.filter_append, List.filter_append, hdropped, hkept,
    hend, List.nil_append, List.append_nil, mapM_readSample hsamples]

/-- The series of a sample is what stands in front of its value. -/
theorem renderSeries_injective {name name' : Bytes} {labels labels' : List (Bytes × Bytes)}
    (h : Sample.WellFormed ⟨name, labels, []⟩) (h' : Sample.WellFormed ⟨name', labels', []⟩)
    (heq : renderSeries name labels = renderSeries name' labels') :
    name = name' ∧ labels = labels' := by
  have hread := readSample_render h
  have hread' := readSample_render h'
  have hrender : Sample.render ⟨name, labels, []⟩ = Sample.render ⟨name', labels', []⟩ :=
    congrArg (· ++ [space]) heq
  rw [hrender, hread', Option.some.injEq, Sample.mk.injEq] at hread
  exact ⟨hread.1.symm, hread.2.1.symm⟩

end Exposition
