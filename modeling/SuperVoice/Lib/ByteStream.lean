import SuperVoice.Lib.Bytes
import Mathlib.Data.List.Infix
import Mathlib.Data.List.TakeWhile

/-! A byte stream that arrives in pieces, read line by line through a buffer and, past the
buffer, directly. Filling the buffer may take more than the line asked for. -/
namespace ByteStream
open Bytes

/-- One read of at most `n` bytes: some of what has arrived, never from two pieces at once. -/
def readSome (n : Nat) : List Bytes → Option (Bytes × List Bytes)
  | [] => none
  | piece :: rest =>
    if piece.length ≤ n then some (piece, rest) else some (piece.take n, piece.drop n :: rest)

structure Source where
  buffer : Bytes
  /-- The reads that have filled the buffer so far. -/
  count : Nat
  pieces : List Bytes

/-- What has not been read yet, buffered or not. -/
def Source.pending (s : Source) : Bytes := s.buffer ++ s.pieces.flatten

/-- Read into the buffer until it holds a newline; read number `k` asks for `ask k` bytes. -/
def fill (ask : Nat → Nat) : Nat → Source → Option Source
  | 0, s => if newline ∈ s.buffer then some s else none
  | n + 1, s =>
    if newline ∈ s.buffer then some s
    else match readSome (ask s.count) s.pieces with
      | none => none
      | some (b, pieces) => fill ask n ⟨s.buffer ++ b, s.count + 1, pieces⟩

/-- What reads from a source, or finds it exhausted. -/
abbrev Reader := StateT Source Option

/-- A line without its newline. -/
def readLine (ask : Nat → Nat) : Reader Bytes := fun s =>
  (fill ask s.pieces.flatten.length s).map fun s =>
    (s.buffer.takeWhile (· != newline),
      { s with buffer := (s.buffer.dropWhile (· != newline)).tail })

/-- Exactly `n` bytes past the buffer, in as many reads as it takes, at most `fuel`. -/
def readExactly : Nat → Nat → List Bytes → Option (Bytes × List Bytes)
  | _, 0, ps => some ([], ps)
  | 0, _ + 1, _ => none
  | fuel + 1, n + 1, ps =>
    match readSome (n + 1) ps with
    | none => none
    | some (b, ps) => (readExactly fuel (n + 1 - b.length) ps).map fun (d, ps) => (b ++ d, ps)

/-- Exactly `n` bytes, past the buffer. -/
def readDirect (n : Nat) : Reader Bytes := fun s =>
  (readExactly n n s.pieces).map fun (d, pieces) => (d, { s with pieces })

/-- What `k` reads take of the stream, and what they leave. -/
def reads (ask : Nat → Nat) (ps : List Bytes) : Nat → Bytes × List Bytes
  | 0 => ([], ps)
  | k + 1 =>
    match readSome (ask k) (reads ask ps k).2 with
    | none => reads ask ps k
    | some (b, left) => ((reads ask ps k).1 ++ b, left)

/-- No piece is empty: the end of the stream is the end of the list. -/
def Proper (ps : List Bytes) : Prop := ∀ p ∈ ps, p ≠ []

instance (ps : List Bytes) : Decidable (Proper ps) := inferInstanceAs (Decidable (∀ _ ∈ _, _))

variable {ask : Nat → Nat} {ps : List Bytes}

theorem readSome_spec {n : Nat} {b : Bytes} {left : List Bytes} (hn : 0 < n) (hps : Proper ps)
    (h : readSome n ps = some (b, left)) :
    b ≠ [] ∧ b.length ≤ n ∧ b ++ left.flatten = ps.flatten ∧ Proper left := by
  cases ps with
  | nil => cases h
  | cons piece rest =>
    have hpiece : piece ≠ [] := hps piece List.mem_cons_self
    have hrest : Proper rest := fun p hp => hps p (List.mem_cons_of_mem piece hp)
    by_cases hle : piece.length ≤ n
    · rw [readSome, if_pos hle] at h
      cases h
      exact ⟨hpiece, hle, rfl, hrest⟩
    · rw [readSome, if_neg hle] at h
      cases h
      have hlt : n < piece.length := Nat.lt_of_not_le hle
      refine ⟨?_, ?_, ?_, ?_⟩
      · intro hnil
        have hlen := congrArg List.length hnil
        rw [List.length_take, List.length_nil] at hlen
        omega
      · rw [List.length_take]
        omega
      · rw [List.flatten_cons, List.flatten_cons, ← List.append_assoc, List.take_append_drop]
      · intro p hp
        cases List.mem_cons.mp hp with
        | inl hp =>
          subst hp
          intro hnil
          have hlen := congrArg List.length hnil
          rw [List.length_drop, List.length_nil] at hlen
          omega
        | inr hp => exact hrest p hp

theorem readSome_length_le {n : Nat} {b : Bytes} {left : List Bytes}
    (h : readSome n ps = some (b, left)) : b.length ≤ n := by
  cases ps with
  | nil => cases h
  | cons piece rest =>
    by_cases hle : piece.length ≤ n
    · rw [readSome, if_pos hle] at h
      cases h
      exact hle
    · rw [readSome, if_neg hle] at h
      cases h
      rw [List.length_take]
      omega

theorem readSome_eq_none {n : Nat} : readSome n ps = none ↔ ps = [] := by
  cases ps with
  | nil => simp [readSome]
  | cons piece rest =>
    rw [readSome]
    split <;> simp

theorem reads_prefix (i k : Nat) (h : i ≤ k) : (reads ask ps i).1 <+: (reads ask ps k).1 := by
  induction h with
  | refl => exact List.prefix_refl _
  | step _ ih =>
    apply ih.trans
    rw [reads]
    split
    · exact List.prefix_refl _
    · exact List.prefix_append _ _

theorem bind_of_eq_some {α β : Type} {x : Reader α} {f : α → Reader β} {a : α} {s s' : Source}
    (h : x s = some (a, s')) : (x >>= f) s = f a s' := by
  show (x s).bind _ = _
  rw [h]
  rfl

theorem bind_lift {α β : Type} {x : Option α} {f : α → Reader β} {a : α} (s : Source)
    (h : x = some a) : ((x : Reader α) >>= f) s = f a s := by
  rw [h]
  rfl

theorem bind_guard {β : Type} {p : Prop} [Decidable p] {f : Unit → Reader β} (s : Source)
    (h : p) : ((guard p : Reader Unit) >>= f) s = f () s := by
  rw [guard, if_pos h]
  rfl

theorem exists_of_bind_lift {α β : Type} {x : Option α} {f : α → Reader β} {s s' : Source} {b : β}
    (h : ((x : Reader α) >>= f) s = some (b, s')) : ∃ a, x = some a ∧ f a s = some (b, s') := by
  cases x with
  | none => cases h
  | some a => exact ⟨a, rfl, h⟩

theorem of_bind_guard {β : Type} {p : Prop} [Decidable p] {f : Unit → Reader β} {s s' : Source}
    {b : β} (h : ((guard p : Reader Unit) >>= f) s = some (b, s')) :
    p ∧ f () s = some (b, s') := by
  by_cases hp : p
  · rw [bind_guard s hp] at h
    exact ⟨hp, h⟩
  · rw [guard, if_neg hp] at h
    cases h

theorem exists_of_bind {α β : Type} {x : Reader α} {f : α → Reader β} {s s' : Source} {b : β}
    (h : (x >>= f) s = some (b, s')) : ∃ a m, x s = some (a, m) ∧ f a m = some (b, s') := by
  obtain ⟨⟨a, m⟩, hx, hf⟩ := Option.bind_eq_some_iff.mp h
  exact ⟨a, m, hx, hf⟩

/-- Reads that ask for enough end where the pieces end. -/
theorem reads_of_le (h : ∀ p ∈ ps, ∀ i, p.length ≤ ask i) (k : Nat) :
    reads ask ps k = ((ps.take k).flatten, ps.drop k) := by
  induction k with
  | zero => rfl
  | succ k ih =>
    rw [reads, ih]
    cases hd : ps.drop k with
    | nil =>
      have hk : ps.length ≤ k := List.drop_eq_nil_iff.mp hd
      rw [List.take_of_length_le hk, List.take_of_length_le (Nat.le_succ_of_le hk),
        List.drop_of_length_le (Nat.le_succ_of_le hk)]
      rfl
    | cons piece rest =>
      have hk : k < ps.length := by
        by_contra hge
        rw [List.drop_of_length_le (Nat.le_of_not_lt hge)] at hd
        cases hd
      have hpiece : ps[k] = piece := by
        rw [List.drop_eq_getElem_cons hk] at hd
        exact (List.cons.inj hd).1
      have hle : piece.length ≤ ask k := h piece (hpiece ▸ List.getElem_mem hk) k
      have hrest : ps.drop (k + 1) = rest := by
        rw [List.drop_eq_getElem_cons hk] at hd
        exact (List.cons.inj hd).2
      simp only [readSome, if_pos hle]
      rw [List.take_succ_eq_append_getElem hk, List.flatten_append, hpiece, hrest]
      simp

/-- The line reader has handed out `done`, and no read but the last has gone as far. -/
structure Consumed (ask : Nat → Nat) (ps : List Bytes) (done : Bytes) (s : Source) : Prop where
  proper : Proper s.pieces
  taken : reads ask ps s.count = (done ++ s.buffer, s.pieces)
  first : ∀ i < s.count, ¬ done <+: (reads ask ps i).1

theorem consumed_start (hps : Proper ps) : Consumed ask ps [] ⟨[], 0, ps⟩ :=
  ⟨hps, rfl, fun _ h => absurd h (Nat.not_lt_zero _)⟩

/-- Filling continues the reads, and none of them but the last brings a newline. -/
theorem fill_spec (hask : ∀ n, 0 < ask n) {n : Nat} {done : Bytes} {s : Source}
    (hs : Proper s.pieces) (htaken : reads ask ps s.count = (done ++ s.buffer, s.pieces))
    (hnl : newline ∈ s.pending) (hn : s.pieces.flatten.length ≤ n) :
    ∃ s', fill ask n s = some s' ∧ s'.pending = s.pending ∧ newline ∈ s'.buffer ∧
      Proper s'.pieces ∧ reads ask ps s'.count = (done ++ s'.buffer, s'.pieces) ∧
      ∀ i, s.count ≤ i → i < s'.count → ∃ b, (reads ask ps i).1 = done ++ b ∧ newline ∉ b := by
  induction n generalizing s with
  | zero =>
    have hflat : s.pieces.flatten = [] := List.eq_nil_of_length_eq_zero (Nat.le_zero.mp hn)
    have hmem : newline ∈ s.buffer := by simpa [Source.pending, hflat] using hnl
    exact ⟨s, by rw [fill, if_pos hmem], rfl, hmem, hs, htaken,
      fun i h1 h2 => absurd h2 (Nat.not_lt_of_le h1)⟩
  | succ n ih =>
    by_cases hmem : newline ∈ s.buffer
    · exact ⟨s, by rw [fill, if_pos hmem], rfl, hmem, hs, htaken,
        fun i h1 h2 => absurd h2 (Nat.not_lt_of_le h1)⟩
    · cases hr : readSome (ask s.count) s.pieces with
      | none =>
        have hnil := readSome_eq_none.mp hr
        exact absurd (by simpa [Source.pending, hnil] using hnl) hmem
      | some p =>
        obtain ⟨b, left⟩ := p
        obtain ⟨hb, -, hflat, hproper⟩ := readSome_spec (hask _) hs hr
        have hpend : Source.pending ⟨s.buffer ++ b, s.count + 1, left⟩ = s.pending := by
          simp only [Source.pending, List.append_assoc, hflat]
        have htaken' : reads ask ps (s.count + 1) = (done ++ (s.buffer ++ b), left) := by
          rw [reads, htaken]
          simp only [hr, List.append_assoc]
        have hlen : left.flatten.length ≤ n := by
          have hsum := congrArg List.length hflat
          have hpos : 0 < b.length := List.length_pos_iff.mpr hb
          rw [List.length_append] at hsum
          omega
        obtain ⟨s', hfill, hpend', hnl', hproper', hreads, hbefore⟩ :=
          ih (s := ⟨s.buffer ++ b, s.count + 1, left⟩) hproper htaken' (by rw [hpend]; exact hnl)
            hlen
        refine ⟨s', ?_, hpend'.trans hpend, hnl', hproper', hreads, fun i h1 h2 => ?_⟩
        · rw [fill, if_neg hmem, hr]
          exact hfill
        · by_cases hi : i = s.count
          · exact ⟨s.buffer, by rw [hi, htaken], hmem⟩
          · exact hbefore i (Nat.lt_of_le_of_ne h1 (Ne.symm hi)) h2

theorem forall_ne_newline {b : Bytes} (hb : newline ∉ b) : ∀ x ∈ b, (x != newline) = true := by
  intro x hx
  rw [bne_iff_ne]
  intro he
  exact hb (he ▸ hx)

theorem takeWhile_line {line rest : Bytes} (h : newline ∉ line) :
    (line ++ newline :: rest).takeWhile (· != newline) = line ∧
      (line ++ newline :: rest).dropWhile (· != newline) = newline :: rest := by
  have hall := forall_ne_newline h
  constructor
  · rw [List.takeWhile_append_of_pos hall]
    simp
  · rw [List.dropWhile_append_of_pos hall]
    simp

/-- Reading a line hands out exactly that line, wherever the pieces end. -/
theorem readLine_consumed (hask : ∀ n, 0 < ask n) {done line rest : Bytes} {s : Source}
    (h : Consumed ask ps done s) (hline : newline ∉ line)
    (hpend : s.pending = line ++ newline :: rest) :
    ∃ s', readLine ask s = some (line, s') ∧ s'.pending = rest ∧
      Consumed ask ps (done ++ line ++ [newline]) s' := by
  obtain ⟨s₁, hfill, hpend₁, hmem, hproper, hreads, hbefore⟩ :=
    fill_spec hask h.proper h.taken (by simp [hpend]) (Nat.le_refl _)
  -- the buffer holds the line, its newline and whatever was read past it
  obtain ⟨ahead, hahead⟩ : ∃ ahead, s₁.buffer = line ++ newline :: ahead := by
    rw [hpend, Source.pending] at hpend₁
    obtain ⟨t, ht, -⟩ | ⟨t, ht, hrest⟩ := List.append_eq_append_iff.mp hpend₁
    · exact absurd (ht ▸ List.mem_append_left t hmem) hline
    · cases t with
      | nil =>
        rw [List.append_nil] at ht
        exact absurd (ht ▸ hmem) hline
      | cons x ahead =>
        rw [List.cons_append] at hrest
        exact ⟨ahead, by rw [ht, (List.cons.inj hrest).1]⟩
  refine ⟨⟨ahead, s₁.count, s₁.pieces⟩, ?_, ?_, hproper, ?_, ?_⟩
  · rw [readLine, hfill, Option.map_some, hahead, (takeWhile_line hline).1, (takeWhile_line hline).2]
    rfl
  · rw [hpend, Source.pending, hahead] at hpend₁
    simpa [Source.pending] using hpend₁
  · rw [hreads, hahead]
    simp
  · intro i hi hpre
    by_cases hlt : i < s.count
    · refine h.first i hlt (List.IsPrefix.trans ?_ hpre)
      rw [List.append_assoc]
      exact List.prefix_append _ _
    · obtain ⟨b, hb, hnot⟩ := hbefore i (Nat.le_of_not_lt hlt) hi
      rw [hb, List.append_assoc, List.prefix_append_right_inj] at hpre
      exact hnot (hpre.subset (by simp))

/-- The buffer is empty behind `done` exactly when some read ended there. -/
theorem Consumed.buffer_eq_nil {done : Bytes} {s : Source} (h : Consumed ask ps done s) :
    s.buffer = [] ↔ ∃ k, (reads ask ps k).1 = done := by
  constructor
  · intro hnil
    exact ⟨s.count, by rw [h.taken, hnil, List.append_nil]⟩
  · intro ⟨k, hk⟩
    by_cases hlt : k < s.count
    · exact absurd (hk ▸ List.prefix_refl _) (h.first k hlt)
    · have hpre : (reads ask ps s.count).1 <+: (reads ask ps k).1 :=
        reads_prefix s.count k (Nat.le_of_not_lt hlt)
      rw [h.taken, hk] at hpre
      have hlen := hpre.length_le
      simp only [List.length_append] at hlen
      exact List.eq_nil_of_length_eq_zero (by omega)

theorem not_mem_takeWhile_line (b : Bytes) : newline ∉ b.takeWhile (· != newline) := by
  intro h
  simpa using List.mem_takeWhile_imp h

theorem readLine_plain {s s' : Source} {line : Bytes} (h : readLine ask s = some (line, s')) :
    newline ∉ line := by
  obtain ⟨s₁, -, he⟩ := Option.map_eq_some_iff.mp h
  rw [← (Prod.mk.inj he).1]
  exact not_mem_takeWhile_line s₁.buffer

theorem readSome_flatten {n : Nat} {left : List Bytes} {b : Bytes}
    (h : readSome n ps = some (b, left)) : b ++ left.flatten = ps.flatten := by
  cases ps with
  | nil => cases h
  | cons piece rest =>
    rw [readSome] at h
    split at h
    · cases h
      rfl
    · cases h
      rw [List.flatten_cons, ← List.append_assoc, List.take_append_drop, List.flatten_cons]

theorem fill_pending {n : Nat} {s s' : Source} (h : fill ask n s = some s') :
    s'.pending = s.pending ∧ newline ∈ s'.buffer := by
  induction n generalizing s with
  | zero =>
    rw [fill] at h
    split at h
    · cases h
      exact ⟨rfl, by assumption⟩
    · cases h
  | succ n ih =>
    rw [fill] at h
    split at h
    · cases h
      exact ⟨rfl, by assumption⟩
    · split at h
      · cases h
      · rename_i b pieces hread
        obtain ⟨hpending, hmem⟩ := ih h
        refine ⟨hpending.trans ?_, hmem⟩
        simp only [Source.pending, List.append_assoc, readSome_flatten hread]

/-- A line that is read is the next line of the stream, even where reads bring nothing. -/
theorem readLine_pending {s s' : Source} {line : Bytes} (h : readLine ask s = some (line, s')) :
    s.pending = line ++ newline :: s'.pending := by
  obtain ⟨t, hfill, he⟩ := Option.map_eq_some_iff.mp h
  obtain ⟨rfl, rfl⟩ := Prod.mk.inj he
  obtain ⟨hpending, hmem⟩ := fill_pending hfill
  obtain ⟨line, ahead, hbuffer, hline⟩ := List.eq_append_cons_of_mem hmem
  rw [← hpending, Source.pending, hbuffer, (takeWhile_line hline).1, (takeWhile_line hline).2]
  simp [Source.pending]

/-- A stream has one first line. -/
theorem line_inj {line line' rest rest' : Bytes} (h : newline ∉ line) (h' : newline ∉ line')
    (he : line ++ newline :: rest = line' ++ newline :: rest') : line = line' ∧ rest = rest' := by
  have htake := congrArg (List.takeWhile (· != newline)) he
  have hdrop := congrArg (List.dropWhile (· != newline)) he
  rw [(takeWhile_line h).1, (takeWhile_line h').1] at htake
  rw [(takeWhile_line h).2, (takeWhile_line h').2] at hdrop
  exact ⟨htake, (List.cons.inj hdrop).2⟩

/-- What `readLine` does on a stream whose first line is known: it reads that line, or fails. -/
theorem readLine_line {s s' : Source} {line next rest : Bytes} (hline : newline ∉ line)
    (hs : s.pending = line ++ newline :: rest) (h : readLine ask s = some (next, s')) :
    next = line ∧ s'.pending = rest :=
  line_inj (readLine_plain h) hline ((readLine_pending h).symm.trans hs)

theorem readExactly_length {fuel n : Nat} {d : Bytes} {left : List Bytes}
    (h : readExactly fuel n ps = some (d, left)) : d.length = n := by
  induction fuel generalizing n ps d left with
  | zero =>
    cases n with
    | zero => cases h; rfl
    | succ n => cases h
  | succ fuel ih =>
    cases n with
    | zero => cases h; rfl
    | succ n =>
      rw [readExactly] at h
      cases hr : readSome (n + 1) ps with
      | none => simp only [hr, reduceCtorEq] at h
      | some p =>
        obtain ⟨b, ps'⟩ := p
        simp only [hr] at h
        obtain ⟨⟨d', left'⟩, hd', he⟩ := Option.map_eq_some_iff.mp h
        have hlen := ih hd'
        have hble := readSome_length_le hr
        rw [← (Prod.mk.inj he).1, List.length_append, hlen]
        omega

theorem readDirect_length {n : Nat} {d : Bytes} {s s' : Source}
    (h : readDirect n s = some (d, s')) : d.length = n := by
  obtain ⟨⟨d', left⟩, hd, he⟩ := Option.map_eq_some_iff.mp h
  rw [← (Prod.mk.inj he).1]
  exact readExactly_length hd

theorem readExactly_spec {fuel n : Nat} (hps : Proper ps) (hf : n ≤ fuel)
    (hn : n ≤ ps.flatten.length) :
    ∃ left, readExactly fuel n ps = some (ps.flatten.take n, left) := by
  induction fuel generalizing n ps with
  | zero =>
    obtain rfl : n = 0 := by omega
    exact ⟨ps, by simp [readExactly]⟩
  | succ fuel ih =>
    cases n with
    | zero => exact ⟨ps, by simp [readExactly]⟩
    | succ n =>
      cases hr : readSome (n + 1) ps with
      | none =>
        rw [readSome_eq_none.mp hr] at hn
        simp at hn
      | some p =>
        obtain ⟨b, left⟩ := p
        obtain ⟨hb, hble, hflat, hproper⟩ := readSome_spec (Nat.succ_pos n) hps hr
        have hsum := congrArg List.length hflat
        have hpos : 0 < b.length := List.length_pos_iff.mpr hb
        rw [List.length_append] at hsum
        obtain ⟨left', hleft'⟩ := ih hproper (n := n + 1 - b.length) (by omega) (by omega)
        refine ⟨left', ?_⟩
        rw [readExactly, hr]
        simp only [hleft', Option.map_some]
        rw [← hflat, List.take_append, List.take_of_length_le hble]

theorem readExactly_none {fuel n : Nat} (hps : Proper ps) (hn : ps.flatten.length < n) :
    readExactly fuel n ps = none := by
  induction fuel generalizing n ps with
  | zero =>
    cases n with
    | zero => omega
    | succ n => rfl
  | succ fuel ih =>
    cases n with
    | zero => omega
    | succ n =>
      rw [readExactly]
      cases hr : readSome (n + 1) ps with
      | none => rfl
      | some p =>
        obtain ⟨b, left⟩ := p
        obtain ⟨-, -, hflat, hproper⟩ := readSome_spec (Nat.succ_pos n) hps hr
        have hsum := congrArg List.length hflat
        rw [List.length_append] at hsum
        have hleft : left.flatten.length < n + 1 - b.length := by omega
        simp only [ih hproper hleft, Option.map_none]

/-- Direct reads deliver what the stream holds, if it holds enough. -/
theorem readDirect_spec {n : Nat} {s : Source} (hs : Proper s.pieces)
    (hn : n ≤ s.pieces.flatten.length) :
    ∃ s', readDirect n s = some (s.pieces.flatten.take n, s') := by
  obtain ⟨left, hleft⟩ := readExactly_spec hs (Nat.le_refl n) hn
  exact ⟨{ s with pieces := left }, by rw [readDirect, hleft, Option.map_some]⟩

/-- Direct reads fail if the stream ends first. -/
theorem readDirect_none {n : Nat} {s : Source} (hs : Proper s.pieces)
    (hn : s.pieces.flatten.length < n) : readDirect n s = none := by
  rw [readDirect, readExactly_none hs hn, Option.map_none]

end ByteStream
