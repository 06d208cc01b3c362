import SuperVoice.Lib.Numeral
import SuperVoice.Lib.Regex

/-! The redaction of log messages. -/
namespace SuperVoice.Core
open Bytes Numeral Regex

def isDigit (b : UInt8) : Bool := 48 ≤ b && b ≤ 57

def isAlpha (b : UInt8) : Bool := 65 ≤ b && b ≤ 90 || 97 ≤ b && b ≤ 122

/-- A word character of `\b`. -/
def isWord (b : UInt8) : Bool := isAlpha b || isDigit b || b = 95

def lower (b : UInt8) : UInt8 := if 65 ≤ b && b ≤ 90 then b + 32 else b

def upper (b : UInt8) : UInt8 := if 97 ≤ b && b ≤ 122 then b - 32 else b

/-- One of the given characters. -/
def oneOf (chars : Bytes) : Regex UInt8 := one fun b => chars.contains b

/-- A text, as `std::regex::icase` compares it. -/
def icase (text : Bytes) : Regex UInt8 :=
  text.foldr (fun a r => seq (one fun b => lower b = a) r) eps

def digit : Regex UInt8 := one isDigit

/-- `([A-Za-z0-9._%+-]+@[A-Za-z0-9.-]+\.[A-Za-z]{2,})` -/
def emailRule : Regex UInt8 :=
  seq (atLeast 1 (one fun b => isAlpha b || isDigit b || (ascii "._%+-").contains b))
    (seq (oneOf (ascii "@"))
      (seq (atLeast 1 (one fun b => isAlpha b || isDigit b || (ascii ".-").contains b))
        (seq (oneOf (ascii ".")) (atLeast 2 (one isAlpha)))))

/-- `[-.\s]?` -/
def phoneSeparator : Regex UInt8 := opt (one fun b => (ascii "-.").contains b || isSpace b)

/-- `(?:(?:\+?\d{1,3})?[-.\s]?)?(?:\d{3}[-.\s]?){2}\d{4}` -/
def phoneRule : Regex UInt8 :=
  seq (opt (seq (opt (seq (opt (oneOf (ascii "+")))
      (seq digit (opt (seq digit (opt digit)))))) phoneSeparator))
    (seq (times (seq (times digit 3) phoneSeparator) 2) (times digit 4))

/-- `(?:\b\d{4}[- ]?){3}\d{4}\b` -/
def cardRule : Regex UInt8 :=
  seq (times (seq (boundary isWord) (seq (times digit 4) (opt (oneOf (ascii "- "))))) 3)
    (seq (times digit 4) (boundary isWord))

/-- `(?:(?:api[_-]?key|token|secret|authorization))[:=]`, what stands before the secret. -/
def secretKey : Regex UInt8 :=
  seq (alt (seq (icase (ascii "api")) (seq (opt (oneOf (ascii "_-"))) (icase (ascii "key"))))
    (alt (icase (ascii "token")) (alt (icase (ascii "secret")) (icase (ascii "authorization")))))
    (oneOf (ascii ":="))

def notSpace (b : UInt8) : Bool := !isSpace b

/-- `secretKey`, and then `[^\s]+` -/
def secretRule : Regex UInt8 := seq secretKey (atLeast 1 (one notSpace))

/-- `redactionRules`, with the patterns of the configuration that are valid. -/
def redactionRules (patterns : List (Matcher UInt8)) : List (Matcher UInt8) :=
  [emailRule.matcher, phoneRule.matcher, cardRule.matcher, secretRule.matcher] ++ patterns

def redacted : Bytes := ascii "[REDACTED]"

def redactMessage (rules : List (Matcher UInt8)) (message : Bytes) : Bytes :=
  rules.foldl (fun sanitized rule => replaceAll rule redacted sanitized) message

def extractLevel (message : Bytes) : Bytes :=
  match message.dropWhile (· ≠ 91) with
  | [] => ascii "INFO"
  | _ :: rest =>
    let level := rest.takeWhile (· ≠ 93)
    if 93 ∉ rest ∨ level = [] then ascii "INFO" else level.map upper

/-- `level` and `msg` of the payload. -/
structure LogLine where
  level : Bytes
  msg : Bytes

/-- The output function of the logger. -/
def logLine (rules : List (Matcher UInt8)) (message : Bytes) : LogLine :=
  let view := if message.getLast? = some newline then message.dropLast else message
  ⟨extractLevel view, redactMessage rules view⟩

theorem redactMessage_append (rules rules' : List (Matcher UInt8)) (message : Bytes) :
    redactMessage (rules ++ rules') message = redactMessage rules' (redactMessage rules message) :=
  List.foldl_append

/-- Words without brackets that are not part of the replacement. -/
structure Unbracketed (l : Language UInt8) : Prop where
  brackets : ∀ w ∈ l, 91 ∉ w ∧ 93 ∉ w
  redacted : Free l (ascii "REDACTED")

section Rules
variable {l : Language UInt8} {r : Regex UInt8} {text : Bytes}

theorem redacted_eq : redacted = 91 :: (ascii "REDACTED" ++ [93]) := rfl

/-- No pass brings back a word that does not occur. -/
theorem free_replaceAll (hl : Unbracketed l) (rule : Matcher UInt8) (h : Free l text) :
    Free l (replaceAll rule redacted text) := by
  have hreplaced : Replaced redacted (fun _ => True) (fun _ => True) text
      (replaceAll rule redacted text) :=
    replaced_replaceAll text (fun _ _ _ => trivial) fun _ _ _ _ => trivial
  rw [redacted_eq] at hreplaced
  have hkept : Replaced (91 :: (ascii "REDACTED" ++ [93])) (Free l) (fun _ => True) text
      (replaceAll rule (91 :: (ascii "REDACTED" ++ [93])) text) :=
    hreplaced.of_suffixes fun s hs => h.of_infix hs.isInfix
  exact free_of_replaced hl.brackets hl.redacted (fun s hs w hw hp => hs w hw hp.isInfix) hkept

theorem free_redactMessage (hl : Unbracketed l) (rules : List (Matcher UInt8))
    (h : Free l text) : Free l (redactMessage rules text) := by
  induction rules generalizing text with
  | nil => exact h
  | cons rule rules ih => exact ih (free_replaceAll hl rule h)

theorem replaced_matcher (hr : r.Plain) (hnull : r.nullable = false) (text : Bytes) :
    Replaced (91 :: (ascii "REDACTED" ++ [93])) (fun s => ∀ w ∈ r.language, ¬ w <+: s)
      (fun w => w ∈ r.language) text (replaceAll r.matcher redacted text) :=
  replaced_replaceAll text (fun _ _ h => not_prefix_of_find_none hr hnull h)
    fun _ _ _ h => take_mem_of_find_some h

/-- The pass of a rule leaves none of its words, and neither does a later pass. -/
theorem free_of_rule (hr : r.Plain) (hnull : r.nullable = false) (hl : Unbracketed r.language)
    (before after : List (Matcher UInt8)) (message : Bytes) :
    Free r.language (redactMessage (before ++ r.matcher :: after) message) := by
  rw [redactMessage_append]
  exact free_redactMessage hl after (free_of_replaced hl.brackets hl.redacted (fun _ hs => hs)
    (replaced_matcher hr hnull _))

/-- An expression whose classes contain no bracket and that finds nothing in the replacement. -/
theorem unbracketed_of_avoids (hr : r.Plain) (hopen : r.avoids 91 = true)
    (hclose : r.avoids 93 = true) (hfree : r.occurs (ascii "REDACTED") = false) :
    Unbracketed r.language :=
  ⟨fun _ hw => ⟨not_mem_of_avoids hopen hw, not_mem_of_avoids hclose hw⟩,
    free_of_not_occurs hr hfree⟩

end Rules

/-- A secret starts with its first character. -/
theorem language_secretRule {w : Bytes} (hw : w ∈ secretRule.language) :
    ∃ u ∈ secretKey.language * (one notSpace).language, u <+: w := by
  obtain ⟨u, hu, v, hv, rfl⟩ := Language.mem_mul.mp hw
  obtain ⟨v₁, hv₁, rest, -, rfl⟩ := Language.mem_mul.mp hv
  obtain ⟨a, ha, b, hb, rfl⟩ := Language.mem_mul.mp hv₁
  rw [(Language.mem_one _).mp hb, List.append_nil]
  exact ⟨u ++ a, Language.append_mem_mul hu ha, rest, List.append_assoc _ _ _⟩

theorem secret_of_key {w : Bytes} (hw : w ∈ secretKey.language * (one notSpace).language) :
    w ∈ secretRule.language := by
  obtain ⟨u, hu, a, ha, rfl⟩ := Language.mem_mul.mp hw
  refine Language.append_mem_mul hu (Language.mem_mul.mpr ⟨a, ?_, [], Language.nil_mem_kstar _, ?_⟩)
  · exact Language.mem_mul.mpr ⟨a, ha, [], rfl, List.append_nil a⟩
  · exact List.append_nil a

theorem mem_of_isSpace {b : UInt8} (h : isSpace b = true) :
    b ∈ ([9, 10, 11, 12, 13, 32] : Bytes) := by
  simp only [isSpace, Bool.or_eq_true, beq_iff_eq, Bool.and_eq_true, decide_eq_true_eq,
    UInt8.le_iff_toNat_le] at h
  have htoNat : b.toNat ∈ [9, 10, 11, 12, 13, 32] := by
    obtain rfl | ⟨hlow, hhigh⟩ := h
    · decide
    · simp at hlow hhigh ⊢
      omega
  simpa [← UInt8.toNat_inj] using htoNat

/-- No key contains white space, so what begins with a key is part of a longer secret. -/
theorem hit_secretRule {w : Bytes} (hw : w ∈ secretRule.language) :
    ∃ a v, w = a :: v ∧ notSpace a = true := by
  obtain ⟨u, hu, v, -, rfl⟩ := Language.mem_mul.mp hw
  have hne : u ≠ [] := ne_nil_of_mem (r := secretKey) (by decide) hu
  cases u with
  | nil => exact absurd rfl hne
  | cons a u =>
    refine ⟨a, u ++ v, rfl, ?_⟩
    have hspaces : ∀ b ∈ ([9, 10, 11, 12, 13, 32] : Bytes), secretKey.avoids b = true :=
      List.all_eq_true.mp (by decide)
    cases hspace : isSpace a with
    | false => rw [notSpace, hspace, Bool.not_false]
    | true =>
      exact absurd List.mem_cons_self (not_mem_of_avoids (hspaces a (mem_of_isSpace hspace)) hu)

theorem unbracketed_emailRule : Unbracketed emailRule.language :=
  unbracketed_of_avoids (by decide) (by decide) (by decide) (by decide +kernel)

theorem unbracketed_phoneRule : Unbracketed phoneRule.language :=
  unbracketed_of_avoids (by decide) (by decide) (by decide) (by decide +kernel)

theorem unbracketed_secretKey : Unbracketed secretKey.language :=
  unbracketed_of_avoids (by decide) (by decide) (by decide) (by decide +kernel)

theorem free_secretRule (before : List (Matcher UInt8)) (message : Bytes) :
    Free secretRule.language (redactMessage (before ++ [secretRule.matcher]) message) := by
  rw [redactMessage_append]
  have hkeys := free_of_replaced_last (q := notSpace) unbracketed_secretKey.brackets
    unbracketed_secretKey.redacted (fun s hs w hw => hs w (secret_of_key hw))
    (fun w hw => hit_secretRule hw)
    (replaced_matcher (r := secretRule) (by decide) (by decide) (redactMessage before message))
  intro w hw hi
  obtain ⟨u, hu, hp⟩ := language_secretRule hw
  exact hkeys u hu (hp.isInfix.trans hi)

/-- No address and no phone number is left in the message, whatever further patterns are configured,
and with the default rules alone no secret behind its key. -/
theorem redacted_free (patterns : List (Matcher UInt8)) (message : Bytes) :
    Free emailRule.language (logLine (redactionRules patterns) message).msg ∧
      Free phoneRule.language (logLine (redactionRules patterns) message).msg ∧
      Free secretRule.language (logLine (redactionRules []) message).msg := by
  have hmail : redactionRules patterns = [] ++ emailRule.matcher ::
      ([phoneRule.matcher, cardRule.matcher, secretRule.matcher] ++ patterns) := rfl
  have hphone : redactionRules patterns = [emailRule.matcher] ++ phoneRule.matcher ::
      ([cardRule.matcher, secretRule.matcher] ++ patterns) := rfl
  have hsecret : redactionRules [] =
      [emailRule.matcher, phoneRule.matcher, cardRule.matcher] ++ [secretRule.matcher] := rfl
  simp only [logLine]
  refine ⟨?_, ?_, ?_⟩
  · rw [hmail]
    exact free_of_rule (by decide) (by decide) unbracketed_emailRule _ _ _
  · rw [hphone]
    exact free_of_rule (by decide) (by decide) unbracketed_phoneRule _ _ _
  · rw [hsecret]
    exact free_secretRule _ _

/-- The pass for secrets may turn the end of a longer word into the end of a card number. -/
example : cardRule.occurs (logLine (redactionRules [])
    (ascii "1234-1234-1234-1234token=x")).msg = true := by decide +kernel

/-- The level is taken from the message before it is redacted. -/
example : (logLine (redactionRules []) (ascii "[a@b.io] x")).level = ascii "A@B.IO" := by
  decide +kernel

end SuperVoice.Core
