import SuperVoice.Lib.Environment
import SuperVoice.Lib.Search

/-! Texts with placeholders `${NAME}` and `${NAME:-default}`, substituted in a single pass. -/
namespace Placeholder
open Bytes Environment Search

def opening : Bytes := ascii "$\x7b"
def closing : UInt8 := 125
def marker : Bytes := ascii ":-"

inductive Piece where
  | literal (text : Bytes)
  | expression (name fallback : Bytes)

/-- The value of a variable if it is set and not empty, and otherwise the default. -/
def valueOf (env : Variables) (name fallback : Bytes) : Bytes :=
  ((getenv env name).filter fun value => !value.isEmpty).getD fallback

def Piece.value (env : Variables) : Piece → Bytes
  | .literal text => text
  | .expression name fallback => valueOf env name fallback

def substitute (env : Variables) (pieces : List Piece) : Bytes := pieces.flatMap (Piece.value env)

/-- The inside of an expression, with the name up to the first marker. -/
inductive Reads : Bytes → Bytes → Bytes → Prop where
  | plain {expr : Bytes} (h : ¬ marker <:+: expr) : Reads expr expr []
  | fallback {name fallback : Bytes} (h : ¬ marker <:+: name) :
      Reads (name ++ marker ++ fallback) name fallback

/-- A text from left to right: an expression ends at the first closing brace, and a tail without
one is literal text. -/
inductive Splits : Bytes → List Piece → Prop where
  | literal {text : Bytes} (h : ¬ opening <:+: text) : Splits text [.literal text]
  | unterminated {before tail : Bytes} (hbefore : ¬ opening <:+: before) (htail : closing ∉ tail) :
      Splits (before ++ opening ++ tail) [.literal (before ++ opening ++ tail)]
  | expression {before expr name fallback rest : Bytes} {pieces : List Piece}
      (hbefore : ¬ opening <:+: before) (hexpr : closing ∉ expr) (hreads : Reads expr name fallback)
      (hrest : Splits rest pieces) :
      Splits (before ++ opening ++ (expr ++ [closing] ++ rest))
        (.literal before :: .expression name fallback :: pieces)

section Cutting
variable {text before after : Bytes}

theorem cut_opening_iff : cut opening text = some (before, after) ↔
    text = before ++ opening ++ after ∧ ¬ opening <:+: before := by
  rw [cut_eq_some_iff (by decide), show opening = [36, 123] from by decide,
    clear_pair (by decide)]

theorem cut_marker_iff : cut marker text = some (before, after) ↔
    text = before ++ marker ++ after ∧ ¬ marker <:+: before := by
  rw [cut_eq_some_iff (by decide), show marker = [58, 45] from by decide, clear_pair (by decide)]

end Cutting

/-- Name and default of an expression. -/
def parse (expr : Bytes) : Bytes × Bytes := (cut marker expr).getD (expr, [])

theorem reads_iff {expr name fallback : Bytes} :
    Reads expr name fallback ↔ parse expr = (name, fallback) := by
  unfold parse
  constructor
  · rintro (h | h)
    · rw [(cut_eq_none_iff (by decide)).mpr h]
      rfl
    · rw [cut_marker_iff.mpr ⟨rfl, h⟩]
      rfl
  · intro h
    cases hcut : cut marker expr with
    | none =>
      rw [hcut] at h
      cases h
      exact .plain ((cut_eq_none_iff (by decide)).mp hcut)
    | some parts =>
      rw [hcut] at h
      cases h
      obtain ⟨rfl, hclear⟩ := cut_marker_iff.mp hcut
      exact .fallback hclear

/-- A text is split where the searches cut it. -/
theorem splits_iff {text : Bytes} {pieces : List Piece} : Splits text pieces ↔
    match cut opening text with
    | none => pieces = [.literal text]
    | some (before, inside) =>
      match cut [closing] inside with
      | none => pieces = [.literal text]
      | some (expr, rest) => ∃ others, Splits rest others ∧
          pieces = .literal before :: .expression (parse expr).1 (parse expr).2 :: others := by
  constructor
  · intro h
    cases h with
    | literal h => rw [(cut_eq_none_iff (by decide)).mpr h]
    | unterminated hbefore htail =>
      rw [cut_opening_iff.mpr ⟨rfl, hbefore⟩]
      dsimp only
      rw [cut_singleton_none_iff.mpr htail]
    | expression hbefore hexpr hreads hrest =>
      rw [cut_opening_iff.mpr ⟨rfl, hbefore⟩]
      dsimp only
      rw [cut_singleton_iff.mpr ⟨rfl, hexpr⟩]
      dsimp only
      rw [reads_iff.mp hreads]
      exact ⟨_, hrest, rfl⟩
  · intro h
    split at h
    case h_1 hnone =>
      rw [h]
      exact .literal ((cut_eq_none_iff (by decide)).mp hnone)
    case h_2 before inside hopening =>
      obtain ⟨rfl, hbefore⟩ := cut_opening_iff.mp hopening
      split at h
      case h_1 hnone =>
        rw [h]
        exact .unterminated hbefore (cut_singleton_none_iff.mp hnone)
      case h_2 expr rest hclosing =>
        obtain ⟨rfl, hexpr⟩ := cut_singleton_iff.mp hclosing
        obtain ⟨others, hothers, rfl⟩ := h
        exact .expression hbefore hexpr (reads_iff.mpr rfl) hothers

theorem length_lt_of_cut {text before inside expr rest : Bytes}
    (hopening : cut opening text = some (before, inside))
    (hclosing : cut [closing] inside = some (expr, rest)) : rest.length < text.length := by
  obtain ⟨rfl, -⟩ := cut_opening_iff.mp hopening
  obtain ⟨rfl, -⟩ := cut_singleton_iff.mp hclosing
  simp only [List.length_append, List.length_singleton]
  omega

/-- Every text is split in exactly one way. -/
theorem existsUnique_splits (text : Bytes) : ∃! pieces, Splits text pieces := by
  induction hn : text.length using Nat.strongRecOn generalizing text with
  | ind n ih =>
    have hiff : ∀ pieces, _ := fun pieces => @splits_iff text pieces
    simp only [hiff]
    cases hopening : cut opening text with
    | none => exact existsUnique_eq
    | some parts =>
      obtain ⟨before, inside⟩ := parts
      dsimp only
      cases hclosing : cut [closing] inside with
      | none => exact existsUnique_eq
      | some parts =>
        obtain ⟨expr, rest⟩ := parts
        have hlt := length_lt_of_cut hopening hclosing
        obtain ⟨others, hothers, hunique⟩ := ih rest.length (hn ▸ hlt) rest rfl
        refine ⟨_, ⟨others, hothers, rfl⟩, ?_⟩
        rintro pieces ⟨others', hothers', rfl⟩
        rw [hunique others' hothers']

end Placeholder
