import SuperVoice.Server.Isolation

/-! What `cleanup_expired` has to remove, and when it does: ages and TTLs are compared after both
have been reduced to 64-bit nanoseconds, and directories are removed wherever an id leads. -/
namespace SuperVoice.Server
open Bytes PosixPath FileStore FileStore.FileSystem Transition

namespace PayloadEntry

/-- In nanoseconds, like everything else here. -/
def age (entry : PayloadEntry) (now : Int) : Int := now - entry.lastUpdate

def lifetime (entry : PayloadEntry) : Int := entry.ttl * 1000000000

def Overdue (entry : PayloadEntry) (now : Int) : Prop := entry.lifetime < entry.age now

instance (entry : PayloadEntry) (now : Int) : Decidable (entry.Overdue now) :=
  inferInstanceAs (Decidable (_ < _))

/-- How often a number of nanoseconds leaves the range of signed 64-bit numbers. -/
def turns (x : Int) : Int := (x + 2 ^ 63) / 2 ^ 64

/-- The lifetime leaves that range as often as the age; or more often, and is longer by at least
as many times `2 ^ 64`; or less often, and is shorter by more than that. -/
def Comparable (entry : PayloadEntry) (now : Int) : Prop :=
  let more := turns entry.lifetime - turns (entry.age now)
  more = 0 ∨ (0 < more ∧ more * 2 ^ 64 ≤ entry.lifetime - entry.age now) ∨
    (more < 0 ∧ -more * 2 ^ 64 < entry.age now - entry.lifetime)

end PayloadEntry

variable {r : Root} {w : World} {removes : Bytes → Bool} {now : Int} {id : Bytes}
  {entry : PayloadEntry}

theorem bmod_of_range {x : Int} (h : -2 ^ 63 ≤ x ∧ x < 2 ^ 63) : x.bmod (2 ^ 64) = x := by
  refine Int.bmod_eq_of_le ?_ ?_ <;> omega

theorem bmod_eq_sub_turns (x : Int) : x.bmod (2 ^ 64) = x - PayloadEntry.turns x * 2 ^ 64 := by
  rw [PayloadEntry.turns, Int.bmod_def]
  omega

/-- The comparison after the reduction is then that of the numbers themselves, and only then. -/
theorem comparable_iff : entry.Comparable now ↔
    (entry.lifetime.bmod (2 ^ 64) < (entry.age now).bmod (2 ^ 64) ↔ entry.Overdue now) := by
  rw [PayloadEntry.Comparable, PayloadEntry.Overdue, bmod_eq_sub_turns, bmod_eq_sub_turns]
  simp only [PayloadEntry.turns]
  omega

/-- An age of 64 bits and a lifetime that is not negative: the lifetime fits as well, or it is
longer by all of its turns. -/
theorem comparable_of_range (hage : -2 ^ 63 ≤ entry.age now ∧ entry.age now < 2 ^ 63)
    (httl : 0 ≤ entry.lifetime) : entry.Comparable now ↔ entry.lifetime < 2 ^ 63 ∨
      PayloadEntry.turns entry.lifetime * 2 ^ 64 ≤ entry.lifetime - entry.age now := by
  simp only [PayloadEntry.Comparable, PayloadEntry.turns]
  omega

theorem expired_iff : expired now entry = true ↔
    entry.lifetime.bmod (2 ^ 64) < (entry.age now).bmod (2 ^ 64) := decide_eq_true_iff

/-- What the pass is for: it removes what is overdue and leaves the others with their patch files. -/
structure Sweeps (r : Root) (removes : Bytes → Bool) (now : Int) (w : World) : Prop where
  entries : ∀ id, (cleanupExpired r removes now w).entry id =
    (w.entry id).filter fun e => !e.Overdue now
  patches : ∀ id e, w.entry id = some e → ¬e.Overdue now → ∀ i ∈ e.received, ∀ path,
    e.record.chunkFiles[i]? = some path →
      Keeps w.fs (cleanupExpired r removes now w).fs (r.locate path)

/-- No patch file that is to stay lies below a directory that is to be removed. -/
def StaysOutside (r : Root) (removes : Bytes → Bool) (now : Int) (w : World) : Prop :=
  ∀ id e, w.entry id = some e → ¬e.Overdue now → ∀ i ∈ e.received, ∀ path,
    e.record.chunkFiles[i]? = some path → w.fs.link (r.locate path) ≠ none →
    ∀ id' e', w.entry id' = some e' → e'.Overdue now → removes id' = true →
      ¬r.locate e'.record.patchesDir <+: r.locate path

theorem expired_iff_overdue (h : entry.Comparable now) :
    expired now entry = true ↔ entry.Overdue now := expired_iff.trans (comparable_iff.mp h)

end SuperVoice.Server
