import SuperVoice.Client.Compressor
import SuperVoice.Client.Sha256
import SuperVoice.Lib.LastSeen
import SuperVoice.Lib.RawFrame
import SuperVoice.Lib.Transition
import Mathlib.Data.List.AList

/-! `sv::client::DirectoryWatcher` and the scan loop of `main`: each round scans the directory and
puts the chunks of every updated file on the queue. -/
namespace SuperVoice.Client
open Bytes StreamCodec Transition

/-- What a directory iterator yields; looking at an entry that `fails` ends the scan. -/
inductive DirectoryItem where
  | regular (file : FileDescriptor)
  | other
  | fails
  deriving DecidableEq

/-- The regular files a scan gets to. -/
def sighted : List DirectoryItem → List FileDescriptor
  | [] => []
  | .regular file :: items => file :: sighted items
  | .other :: items => sighted items
  | .fails :: _ => []

/-- One iteration over the directory: no path comes twice. -/
structure Snapshot where
  items : List DirectoryItem
  distinct : ((sighted items).map FileDescriptor.path).Nodup

/-- `make_key`: the generic form of a path is the path. -/
def makeKey (path : Bytes) : Bytes := path

structure DirectoryWatcher where
  knownFiles : AList fun _ : Bytes => FileDescriptor
  keyed : ∀ key known, knownFiles.lookup key = some known → makeKey known.path = key

namespace DirectoryWatcher

def start : DirectoryWatcher := ⟨∅, fun _ _ h => by cases h⟩

/-- `known_files_[key] = descriptor`. -/
def keep (w : DirectoryWatcher) (file : FileDescriptor) : DirectoryWatcher where
  knownFiles := w.knownFiles.insert (makeKey file.path) file
  keyed key known h := by
    by_cases hk : key = makeKey file.path
    · subst hk
      rw [AList.lookup_insert, Option.some.injEq] at h
      rw [h]
    · rw [AList.lookup_insert_ne hk] at h
      exact w.keyed key known h

/-- The test before a file is reported. -/
def updates (w : DirectoryWatcher) (file : FileDescriptor) : Bool :=
  match w.knownFiles.lookup (makeKey file.path) with
  | none => true
  | some known => known.size != file.size || known.lastWriteTime != file.lastWriteTime

/-- The updated files, each kept before the caller sees it. -/
def scan (w : DirectoryWatcher) : List DirectoryItem → List FileDescriptor × DirectoryWatcher
  | [] => ([], w)
  | .regular file :: items =>
    if w.updates file then
      let (updated, w) := (w.keep file).scan items
      (file :: updated, w)
    else w.scan items
  | .other :: items => w.scan items
  | .fails :: _ => ([], w)

/-- What is known of a path is what was last seen there. -/
def Knows (w : DirectoryWatcher) (history : List FileDescriptor) : Prop :=
  ∀ path, w.knownFiles.lookup path = LastSeen.latest FileDescriptor.path history path

theorem knows_start : start.Knows [] := fun _ => rfl

theorem updates_eq_false {w : DirectoryWatcher} {file : FileDescriptor} :
    w.updates file = false ↔ w.knownFiles.lookup file.path = some file := by
  obtain ⟨path, size, lastWriteTime⟩ := file
  rw [updates, makeKey]
  cases hk : w.knownFiles.lookup path with
  | none => simp
  | some known =>
    have hpath : known.path = path := w.keyed path known hk
    obtain ⟨path', size', lastWriteTime'⟩ := known
    simp_all

theorem Knows.keep {w : DirectoryWatcher} {history : List FileDescriptor} (hw : w.Knows history)
    (file : FileDescriptor) : (w.keep file).Knows (history ++ [file]) := by
  intro path
  rw [LastSeen.latest_concat]
  split
  · next hpath =>
    subst hpath
    exact AList.lookup_insert _
  · next hpath => exact (AList.lookup_insert_ne (Ne.symm hpath)).trans (hw path)

/-- Seeing again what is known changes nothing. -/
theorem Knows.again {w : DirectoryWatcher} {history : List FileDescriptor} (hw : w.Knows history)
    {file : FileDescriptor} (hfile : w.knownFiles.lookup file.path = some file) :
    w.Knows (history ++ [file]) := by
  intro path
  rw [LastSeen.latest_concat]
  split
  · next hpath => rw [← hpath, hfile]
  · exact hw path

/-- A scan reports the changes in what it sees and knows it from then on. -/
theorem Knows.scan {w : DirectoryWatcher} {history : List FileDescriptor} (hw : w.Knows history)
    (items : List DirectoryItem) :
    (w.scan items).1 = LastSeen.changes FileDescriptor.path history (sighted items) ∧
      (w.scan items).2.Knows (history ++ sighted items) := by
  induction items generalizing w history with
  | nil => exact ⟨rfl, by simpa [sighted, DirectoryWatcher.scan] using hw⟩
  | cons item items ih =>
    cases item with
    | other => exact ih hw
    | fails => exact ⟨rfl, by simpa [sighted, DirectoryWatcher.scan] using hw⟩
    | regular file =>
      have hsplit : history ++ sighted (.regular file :: items) =
          history ++ [file] ++ sighted items := by
        simp [sighted]
      rw [hsplit, sighted, LastSeen.changes, ← hw file.path, DirectoryWatcher.scan]
      cases hu : w.updates file with
      | false =>
        have hknown := updates_eq_false.mp hu
        rw [if_pos hknown]
        exact ih (hw.again hknown)
      | true =>
        have hnew : w.knownFiles.lookup file.path ≠ some file := fun hknown => by
          rw [updates_eq_false.mpr hknown] at hu
          cases hu
        obtain ⟨hreport, hknows⟩ := ih (hw.keep file)
        rw [if_neg hnew, ← hreport]
        exact ⟨rfl, hknows⟩

end DirectoryWatcher

/-- What becomes of a chunk between `notify_file_chunk_enqueued` and the queue. -/
inductive Pushed where
  | accepted
  /-- `push` returns false: the queue is closed. -/
  | refused
  | throws
  deriving DecidableEq

inductive Ending where
  /-- All chunks are in the queue. -/
  | enqueued
  | refused
  /-- The handler in `main` prints the exception and goes on with the next file. -/
  | thrown
  /-- A division by zero, or a compressor that does not return. -/
  | crashed
  deriving DecidableEq

structure Processed where
  queued : List FileChunk
  ending : Ending
  deriving DecidableEq

/-- What the system does while one file is processed. -/
structure FileIo where
  compress : CompressIo
  push : FileChunk → Pushed

structure Pipeline where
  encoder : Encoder
  hasher : Hasher
  fuel : Nat
  payloadSize : Nat

/-- The loop over the chunks of a file. -/
def pushChunks (push : FileChunk → Pushed) : List FileChunk → Processed
  | [] => ⟨[], .enqueued⟩
  | chunk :: chunks =>
    match push chunk with
    | .accepted =>
      let rest := pushChunks push chunks
      ⟨chunk :: rest.queued, rest.ending⟩
    | .refused => ⟨[], .refused⟩
    | .throws => ⟨[], .thrown⟩

/-- The `try` block of the scan loop. -/
def Pipeline.process (c : Pipeline) (io : FileIo) (file : FileDescriptor) : Processed :=
  match compressor c.encoder c.hasher c.fuel io.compress file with
  | none => ⟨[], .crashed⟩
  | some (.error _) => ⟨[], .thrown⟩
  | some (.ok compressed) =>
    match chunker c.payloadSize compressed with
    | none => ⟨[], .crashed⟩
    | some chunks => pushChunks io.push chunks

/-- One round of the scan loop: the directory, and what happens to each file and to
`g_stop_requested`, read after each file and at the end. -/
structure Round where
  snapshot : Snapshot
  io : FileDescriptor → FileIo
  stopsAfter : FileDescriptor → Bool := fun _ => false
  stopsAtEnd : Bool := false

def Round.seen (r : Round) : List FileDescriptor := sighted r.snapshot.items

/-- What the loop over the updated files has done. -/
structure Pass where
  finished : List FileDescriptor
  queued : List FileChunk
  stopped : Bool

def Pipeline.processFiles (c : Pipeline) (r : Round) : List FileDescriptor → Pass
  | [] => ⟨[], [], r.stopsAtEnd⟩
  | file :: files =>
    let p := c.process (r.io file) file
    let finished := if p.ending = .enqueued then [file] else []
    if p.ending = .refused ∨ p.ending = .crashed ∨ r.stopsAfter file = true then
      ⟨finished, p.queued, true⟩
    else
      let rest := c.processFiles r files
      ⟨finished ++ rest.finished, p.queued ++ rest.queued, rest.stopped⟩

/-- What one round saw, reported and finished. -/
structure Scanned where
  seen : List FileDescriptor
  reported : List FileDescriptor
  finished : List FileDescriptor
  deriving DecidableEq

structure Producer where
  watcher : DirectoryWatcher
  /-- All that was ever put on the queue. -/
  queued : List FileChunk
  stopped : Bool
  scans : List Scanned

namespace Producer

def start : Producer := ⟨.start, [], false, []⟩

def step (c : Pipeline) (p : Producer) (r : Round) : Option Producer :=
  if p.stopped then none
  else
    let (updated, watcher) := p.watcher.scan r.snapshot.items
    let pass := c.processFiles r updated
    some
      { watcher
        queued := p.queued ++ pass.queued
        stopped := pass.stopped
        scans := p.scans ++ [⟨r.seen, updated, pass.finished⟩] }

/-- Round `j` is the next after round `i` to see the path of `v`, and it sees `v`. -/
def NextSees (seen : List (List FileDescriptor)) (i j : Nat) (v : FileDescriptor) : Prop :=
  i < j ∧ (∃ files, seen[j]? = some files ∧ v ∈ files) ∧
    ∀ k files, i < k → k < j → seen[k]? = some files → ∀ w ∈ files, w.path ≠ v.path

/-- All rounds after `i` up to `j` that see the path of `v` see `v`. -/
def Unchanged (seen : List (List FileDescriptor)) (i j : Nat) (v : FileDescriptor) : Prop :=
  ∀ k files, i < k → k ≤ j → seen[k]? = some files → ∀ w ∈ files, w.path = v.path → w = v

/-- A version that was reported but not finished is reported by the next scan that sees it. -/
def Retries (p : Producer) : Prop :=
  ∀ i j a b v, p.scans[i]? = some a → p.scans[j]? = some b → v ∈ a.reported → v ∉ a.finished →
    NextSees (p.scans.map Scanned.seen) i j v → v ∈ b.reported

/-- A version that was finished is not reported as long as it does not change. -/
def Settles (p : Producer) : Prop :=
  ∀ i j a b v, i < j → p.scans[i]? = some a → p.scans[j]? = some b → v ∈ a.reported →
    v ∈ a.finished → Unchanged (p.scans.map Scanned.seen) i j v → v ∉ b.reported

end Producer

/-- An exception ends the processing of a file. -/
def Pipeline.Throws (c : Pipeline) (r : Round) (file : FileDescriptor) : Prop :=
  (c.process (r.io file) file).ending = .thrown

/-- A pass that is not stopped finishes the files that get to their end and none of the others
ends it. -/
theorem Pipeline.finished_eq {c : Pipeline} {r : Round} {files : List FileDescriptor}
    (hgo : (c.processFiles r files).stopped = false) :
    (c.processFiles r files).finished =
        files.filter (fun v => (c.process (r.io v) v).ending = .enqueued) ∧
      ∀ v ∈ files, (c.process (r.io v) v).ending ≠ .refused ∧
        (c.process (r.io v) v).ending ≠ .crashed := by
  induction files with
  | nil => exact ⟨rfl, fun _ hv => by cases hv⟩
  | cons file files ih =>
    rw [processFiles] at hgo ⊢
    split at hgo
    · cases hgo
    · next hends =>
      rw [not_or, not_or] at hends
      obtain ⟨hfinished, hrest⟩ := ih hgo
      rw [if_neg (by simp [hends])]
      refine ⟨?_, List.forall_mem_cons.mpr ⟨⟨hends.1, hends.2.1⟩, hrest⟩⟩
      by_cases he : (c.process (r.io file) file).ending = .enqueued <;> simp [hfinished, he]

/-- In a pass that is not stopped all files are finished but those that throw. -/
theorem Pipeline.not_mem_finished {c : Pipeline} {r : Round} {files : List FileDescriptor}
    (hgo : (c.processFiles r files).stopped = false) {v : FileDescriptor} (hv : v ∈ files) :
    v ∉ (c.processFiles r files).finished ↔ c.Throws r v := by
  obtain ⟨hfinished, hends⟩ := finished_eq hgo
  obtain ⟨hrefused, hcrashed⟩ := hends v hv
  rw [hfinished, Throws]
  cases he : (c.process (r.io v) v).ending <;> simp_all

/-- What processing puts on the queue when nothing goes wrong. -/
def Pipeline.Yields (c : Pipeline) (io : FileIo) (file : FileDescriptor) (chunks : List FileChunk) :
    Prop :=
  ∃ compressed, compressor c.encoder c.hasher c.fuel io.compress file = some (.ok compressed) ∧
    chunker c.payloadSize compressed = some chunks

theorem queued_of_enqueued {push : FileChunk → Pushed} {chunks : List FileChunk}
    (h : (pushChunks push chunks).ending = .enqueued) : (pushChunks push chunks).queued = chunks := by
  induction chunks with
  | nil => rfl
  | cons chunk chunks ih =>
    rw [pushChunks] at h ⊢
    split at h
    · simpa using ih h
    · cases h
    · cases h

theorem Pipeline.yields_of_enqueued {c : Pipeline} {io : FileIo} {file : FileDescriptor}
    (h : (c.process io file).ending = .enqueued) : c.Yields io file (c.process io file).queued := by
  rw [process] at h ⊢
  split at h
  · cases h
  · cases h
  · next compressed hok =>
    split at h
    · cases h
    · next chunks hcut => exact ⟨compressed, hok, hcut.trans (by rw [queued_of_enqueued h])⟩

theorem Pipeline.queued_of_finished {c : Pipeline} {r : Round} {files : List FileDescriptor}
    {v : FileDescriptor} (hv : v ∈ (c.processFiles r files).finished) :
    ∃ chunks, c.Yields (r.io v) v chunks ∧ chunks <:+: (c.processFiles r files).queued := by
  induction files with
  | nil => cases hv
  | cons file files ih =>
    have hfirst : v ∈ (if (c.process (r.io file) file).ending = .enqueued then [file] else []) →
        c.Yields (r.io v) v (c.process (r.io file) file).queued := by
      intro hv
      split at hv
      · next hends =>
        obtain rfl := List.mem_singleton.mp hv
        exact yields_of_enqueued hends
      · cases hv
    rw [processFiles] at hv ⊢
    split at hv
    · next hends =>
      rw [if_pos hends]
      exact ⟨_, hfirst hv, List.infix_rfl⟩
    · next hends =>
      rw [if_neg hends]
      obtain hv | hv := List.mem_append.mp hv
      · exact ⟨_, hfirst hv, (List.prefix_append _ _).isInfix⟩
      · obtain ⟨chunks, hyields, hqueued⟩ := ih hv
        exact ⟨chunks, hyields, hqueued.trans (List.suffix_append _ _).isInfix⟩

namespace Producer
variable {c : Pipeline} {rounds : List Round} {p p' : Producer}

/-- What the log says about the rounds so far. -/
structure Follows (c : Pipeline) (rounds : List Round) (p : Producer) : Prop where
  knows : p.watcher.Knows (rounds.map Round.seen).flatten
  seen : p.scans.map Scanned.seen = rounds.map Round.seen
  reported : ∀ i a, p.scans[i]? = some a → a.reported =
    LastSeen.changes FileDescriptor.path ((rounds.map Round.seen).take i).flatten a.seen
  finished : ∀ i a r, p.scans[i]? = some a → rounds[i]? = some r →
    (i + 1 < rounds.length ∨ p.stopped = false) → ∀ v ∈ a.reported, v ∉ a.finished ↔ c.Throws r v

theorem follows_start : Follows c [] start where
  knows := DirectoryWatcher.knows_start
  seen := rfl
  reported _ _ h := by cases h
  finished _ _ _ h := by cases h

/-- All a round does. -/
theorem of_step {r : Round} (hs : step c p r = some p') : p.stopped = false ∧ p' =
    { watcher := (p.watcher.scan r.snapshot.items).2
      queued := p.queued ++ (c.processFiles r (p.watcher.scan r.snapshot.items).1).queued
      stopped := (c.processFiles r (p.watcher.scan r.snapshot.items).1).stopped
      scans := p.scans ++ [⟨r.seen, (p.watcher.scan r.snapshot.items).1,
        (c.processFiles r (p.watcher.scan r.snapshot.items).1).finished⟩] } := by
  rw [step] at hs
  split at hs
  · cases hs
  · next hgo => exact ⟨Bool.eq_false_iff.mpr hgo, (Option.some.inj hs).symm⟩

/-- A round adds to the log the changes in what it sees. -/
theorem logged_of_step {r : Round} {history : List FileDescriptor} (hw : p.watcher.Knows history)
    (hs : step c p r = some p') : p.stopped = false ∧ p'.watcher.Knows (history ++ r.seen) ∧
    ∃ a, p'.scans = p.scans ++ [a] ∧ a.seen = r.seen ∧
      a.reported = LastSeen.changes FileDescriptor.path history r.seen ∧
      (p'.stopped = false → ∀ v ∈ a.reported, v ∉ a.finished ↔ c.Throws r v) := by
  obtain ⟨hreport, hknows⟩ := hw.scan r.snapshot.items
  obtain ⟨hgo, rfl⟩ := of_step hs
  exact ⟨hgo, hknows, _, rfl, rfl, hreport, fun hgo' v hv => c.not_mem_finished hgo' hv⟩

theorem Follows.step {r : Round} (h : Follows c rounds p) (hs : step c p r = some p') :
    Follows c (rounds ++ [r]) p' := by
  obtain ⟨hgo, hknows, a, hscans, hseen, hreported, hfinished⟩ := logged_of_step h.knows hs
  have hlen : p.scans.length = rounds.length := by
    simpa using congrArg List.length h.seen
  -- an entry of the log is an old one or the new one
  have hentry : ∀ i b, p'.scans[i]? = some b →
      p.scans[i]? = some b ∧ i < rounds.length ∨ i = rounds.length ∧ b = a := by
    intro i b hb
    rw [hscans, List.getElem?_append] at hb
    split at hb
    · next hi => exact .inl ⟨hb, hlen ▸ hi⟩
    · next hi =>
      obtain ⟨hj, rfl⟩ := List.getElem?_eq_some_iff.mp hb
      rw [List.length_singleton] at hj
      exact .inr ⟨by omega, List.getElem_singleton hj⟩
  refine ⟨?_, ?_, fun i b hb => ?_, fun i b t hb ht hgo' v hv => ?_⟩
  · simpa using hknows
  · simp [hscans, hseen, h.seen]
  · obtain ⟨hb, hi⟩ | ⟨rfl, rfl⟩ := hentry i b hb
    · have hi' : i ≤ (rounds.map Round.seen).length := by simpa using hi.le
      rw [List.map_append, List.take_append_of_le_length hi']
      exact h.reported i b hb
    · have hi' : rounds.length = (rounds.map Round.seen).length := by simp
      rw [List.map_append, hi', List.take_left, hreported, hseen]
  · obtain ⟨hb, hi⟩ | ⟨rfl, rfl⟩ := hentry i b hb
    · rw [List.getElem?_append_left hi] at ht
      exact h.finished i b t hb ht (.inr hgo) v hv
    · rw [List.getElem?_concat_length, Option.some.injEq] at ht
      subst ht
      refine hfinished (hgo'.resolve_left ?_) v hv
      simp

theorem follows_of_run (h : run (step c) start rounds = some p) : Follows c rounds p := by
  induction rounds using List.reverseRecOn generalizing p with
  | nil =>
    cases h
    exact follows_start
  | append_singleton rounds r ih =>
    rw [run_append, Option.bind_eq_some_iff] at h
    obtain ⟨q, hq, hstep⟩ := h
    simp only [run, Option.bind_fun_some] at hstep
    exact (ih hq).step hstep

/-- All chunks of a finished version are in the queue, one after the other. -/
theorem queued_of_finished (h : Reachable (step c) start p) : ∀ a ∈ p.scans, ∀ v ∈ a.finished,
    ∃ io chunks, c.Yields io v chunks ∧ chunks <:+: p.queued := by
  induction h with
  | start => exact fun _ ha => by cases ha
  | next r _ _ hs ih =>
    intro a ha v hv
    obtain ⟨-, rfl⟩ := of_step hs
    obtain ha | ha := List.mem_append.mp ha
    · obtain ⟨io, chunks, hyields, hqueued⟩ := ih a ha v hv
      exact ⟨io, chunks, hyields, hqueued.trans (List.prefix_append _ _).isInfix⟩
    · obtain rfl := List.mem_singleton.mp ha
      obtain ⟨chunks, hyields, hqueued⟩ := c.queued_of_finished hv
      exact ⟨_, chunks, hyields, hqueued.trans (List.suffix_append _ _).isInfix⟩

/-- A version whose processing throws although it is new to its round. -/
def Fails (c : Pipeline) (rounds : List Round) (i : Nat) (v : FileDescriptor) : Prop :=
  ∃ r, rounds[i]? = some r ∧ v ∈ r.seen ∧ c.Throws r v ∧
    LastSeen.latest FileDescriptor.path ((rounds.map Round.seen).take i).flatten v.path ≠ some v

/-- Entry `i` of the log is about round `i`. -/
theorem Follows.round_at (h : Follows c rounds p) {i : Nat} {a : Scanned}
    (ha : p.scans[i]? = some a) : ∃ r, rounds[i]? = some r ∧ r.seen = a.seen := by
  have hseen : (rounds.map Round.seen)[i]? = some a.seen := by
    rw [← h.seen, List.getElem?_map, ha, Option.map_some]
  rwa [List.getElem?_map, Option.map_eq_some_iff] at hseen

theorem Follows.scan_at (h : Follows c rounds p) {i : Nat} {r : Round}
    (hr : rounds[i]? = some r) : ∃ a, p.scans[i]? = some a ∧ a.seen = r.seen := by
  have hseen : (p.scans.map Scanned.seen)[i]? = some r.seen := by
    rw [h.seen, List.getElem?_map, hr, Option.map_some]
  rwa [List.getElem?_map, Option.map_eq_some_iff] at hseen

/-- A scan reports what it sees unless it was the last to be seen under its path. -/
theorem Follows.mem_reported (h : Follows c rounds p) {i : Nat} {a : Scanned} {v : FileDescriptor}
    (ha : p.scans[i]? = some a) : v ∈ a.reported ↔ v ∈ a.seen ∧
      LastSeen.latest FileDescriptor.path ((rounds.map Round.seen).take i).flatten v.path ≠
        some v := by
  obtain ⟨r, -, hr⟩ := h.round_at ha
  rw [h.reported i a ha, LastSeen.mem_changes (hr ▸ r.snapshot.distinct)]

/-- Once reported, finished or not, a version is not reported until it changes. -/
theorem Follows.not_mem_reported (h : Follows c rounds p) {i j : Nat} {a b : Scanned}
    {v : FileDescriptor} (ha : p.scans[i]? = some a) (hb : p.scans[j]? = some b) (hij : i < j)
    (hv : v ∈ a.reported) (hsame : ∀ k files, i < k → k < j →
      (rounds.map Round.seen)[k]? = some files → ∀ w ∈ files, w.path = v.path → w = v) :
    v ∉ b.reported := by
  obtain ⟨r, hr, hseen⟩ := h.round_at ha
  have hi : (rounds.map Round.seen)[i]? = some r.seen := by
    rw [List.getElem?_map, hr, Option.map_some]
  have hmem : v ∈ r.seen := hseen ▸ ((h.mem_reported ha).mp hv).1
  have hlast := LastSeen.latest_flatten_take r.snapshot.distinct hi hmem hij hsame
  exact fun hagain => ((h.mem_reported hb).mp hagain).2 hlast

/-- Exactly the versions that throw and are then seen again are lost; what was finished is never
reported twice. -/
theorem versions_kept_iff (h : run (step c) start rounds = some p) : p.Retries ∧ p.Settles ↔
    ∀ i j v, Fails c rounds i v → ¬NextSees (rounds.map Round.seen) i j v := by
  have hlog := follows_of_run h
  rw [Retries, Settles, hlog.seen]
  constructor
  · rintro ⟨hretries, -⟩ i j v ⟨r, hr, hv, hthrows, hnew⟩ hnext
    obtain ⟨hij, ⟨files, hfiles, -⟩, hbetween⟩ := id hnext
    rw [List.getElem?_map, Option.map_eq_some_iff] at hfiles
    obtain ⟨t, ht, -⟩ := hfiles
    obtain ⟨a, ha, hseen⟩ := hlog.scan_at hr
    obtain ⟨b, hb, -⟩ := hlog.scan_at ht
    have hjlen : j < rounds.length := (List.getElem?_eq_some_iff.mp ht).1
    have hreported : v ∈ a.reported := (hlog.mem_reported ha).mpr ⟨hseen ▸ hv, hnew⟩
    have hunfinished : v ∉ a.finished :=
      (hlog.finished i a r ha hr (.inl (by omega)) v hreported).mpr hthrows
    refine hlog.not_mem_reported ha hb hij hreported ?_
      (hretries i j a b v ha hb hreported hunfinished hnext)
    exact fun k files hik hkj hk w hw hpath => absurd hpath (hbetween k files hik hkj hk w hw)
  · refine fun hcond => ⟨fun i j a b v ha hb hv hunfinished hnext => ?_,
      fun i j a b v hij ha hb hv _ hsame => ?_⟩
    · obtain ⟨r, hr, hseen⟩ := hlog.round_at ha
      obtain ⟨t, ht, -⟩ := hlog.round_at hb
      have hjlen : j < rounds.length := (List.getElem?_eq_some_iff.mp ht).1
      have hlen : i + 1 < rounds.length := by
        have := hnext.1
        omega
      obtain ⟨hmem, hnew⟩ := (hlog.mem_reported ha).mp hv
      have hthrows : c.Throws r v :=
        (hlog.finished i a r ha hr (.inl hlen) v hv).mp hunfinished
      exact absurd hnext (hcond i j v ⟨r, hr, hseen ▸ hmem, hthrows, hnew⟩)
    · exact hlog.not_mem_reported ha hb hij hv fun k files hik hkj =>
        hsame k files hik hkj.le

def samplePipeline : Pipeline := ⟨RawFrame.encoder, sha256Hasher, 4, 8⟩

def sampleVersion (name : String) (size : Nat) : FileDescriptor := ⟨ascii name, size, 0⟩

/-- The files that open all hold the same three bytes. -/
def sampleIo (opens : Bool) : FileIo where
  compress := { source := if opens then some { content := [1, 2, 3] } else none }
  push _ := .accepted

/-- Only `b` opens; `a` has grown when the second round sees it. -/
def sampleRounds : List Round :=
  [{ snapshot := ⟨[.regular (sampleVersion "a" 2), .other, .regular (sampleVersion "b" 3)],
      by decide⟩
     io := fun file => sampleIo (file.path = ascii "b") },
   { snapshot := ⟨[.regular (sampleVersion "b" 3), .regular (sampleVersion "a" 3)], by decide⟩
     io := fun _ => sampleIo true }]

theorem versions_kept_iff_sample : ∃ p, run (step samplePipeline) start sampleRounds = some p ∧
    p.Retries ∧ p.Settles := by
  have hrun : (run (step samplePipeline) start sampleRounds).isSome = true := by decide +kernel
  obtain ⟨p, hp⟩ := Option.isSome_iff_exists.mp hrun
  refine ⟨p, hp, (versions_kept_iff hp).mpr ?_⟩
  rintro i j v ⟨r, hr, hv, hthrows, -⟩ ⟨hij, ⟨files, hfiles, hmem⟩, -⟩
  have hj : j < 2 := (List.getElem?_eq_some_iff.mp hfiles).1
  obtain rfl : i = 0 := by omega
  obtain rfl : j = 1 := by omega
  cases hr
  cases hfiles
  -- only `b` is the same in both rounds
  have hsame : ∀ v ∈ [sampleVersion "a" 2, sampleVersion "b" 3],
      v ∈ [sampleVersion "b" 3, sampleVersion "a" 3] → v = sampleVersion "b" 3 := by
    decide
  have hends : (samplePipeline.process (sampleIo true) (sampleVersion "b" 3)).ending =
      .enqueued := by
    decide +kernel
  rw [hsame v hv hmem] at hthrows
  exact Ending.noConfusion (hends.symm.trans hthrows)

/-- The file cannot be opened in the first round and has not changed in the second. -/
theorem versions_kept_fails : ¬ ∀ (c : Pipeline) (rounds : List Round) (p : Producer),
    run (step c) start rounds = some p → p.Retries ∧ p.Settles := by
  intro hclaim
  have hrun : (run (step samplePipeline) start (List.replicate 2
      { snapshot := ⟨[.regular (sampleVersion "a" 3)], by decide⟩
        io := fun _ => sampleIo false })).any
      (fun p => p.scans = [⟨[sampleVersion "a" 3], [sampleVersion "a" 3], []⟩,
        ⟨[sampleVersion "a" 3], [], []⟩]) = true := by
    decide +kernel
  obtain ⟨p, hp, hscans⟩ := (Option.any_eq_true ..).mp hrun
  have hscans := of_decide_eq_true hscans
  have hnext : NextSees (p.scans.map Scanned.seen) 0 1 (sampleVersion "a" 3) := by
    rw [hscans]
    exact ⟨Nat.zero_lt_one, ⟨_, rfl, List.mem_cons_self⟩, fun k _ hk hk' => by omega⟩
  have hagain := (hclaim _ _ _ hp).1 0 1 _ _ _ (by rw [hscans]; rfl) (by rw [hscans]; rfl)
    List.mem_cons_self List.not_mem_nil hnext
  exact List.not_mem_nil hagain

end Producer

end SuperVoice.Client
