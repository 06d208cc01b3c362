import SuperVoice.Lib.Environment
import SuperVoice.Lib.Numeral
import SuperVoice.Lib.Override
import SuperVoice.Common.CommandLine

/-! `load_common_options`: the environment, then the command line, then `validate`. -/
namespace SuperVoice.Common.Config
open Bytes Environment Numeral Override

/-- Delays are in milliseconds; the factor is given by the bits of the `double`. -/
structure CommonOptions where
  serverHost : Bytes := ascii "127.0.0.1"
  serverPort : UInt16 := 5000
  connectTimeout : Int := 5000
  ioTimeout : Int := 15000
  maxRetries : Nat := 5
  retryInitialDelay : Int := 250
  retryMaxDelay : Int := 5000
  retryBackoffFactor : UInt64 := 0x4000000000000000
  tcpNoDelay : Bool := true
  authToken : Option Bytes := none
  deriving DecidableEq

def toLower (value : Bytes) : Bytes := value.map fun c => if 65 ≤ c ∧ c ≤ 90 then c + 32 else c

def toBool (value : Bytes) : Option Bool :=
  let normalized := toLower value
  if normalized = ascii "1" ∨ normalized = ascii "true" ∨ normalized = ascii "yes" ∨
      normalized = ascii "on" then some true
  else if normalized = ascii "0" ∨ normalized = ascii "false" ∨ normalized = ascii "no" ∨
      normalized = ascii "off" then some false
  else none

def parsePort (value : Bytes) : Option UInt16 :=
  (stoul value).bind fun parsed =>
    if parsed = 0 ∨ 65535 < parsed then none else some parsed.toUInt16

def parseDurationMs (value : Bytes) : Option Int :=
  (stoll value).bind fun parsed => if parsed < 0 then none else some parsed

def parseSize (value : Bytes) : Option Nat :=
  (stoll value).bind fun parsed => if parsed < 0 then none else some parsed.toNat

/-- A member of the options with its variable and its option. What a text of the environment gives
may be to leave the member alone. -/
structure Setting where
  Value : Type
  key : Bytes
  option : Bytes
  fromEnv : Bytes → Option (Option Value)
  fromCli : Bytes → Option Value
  store : Value → CommonOptions → CommonOptions

/-- A setting that both sources give in the same way. -/
def Setting.parsed {α : Type} (key option : Bytes) (parse : Bytes → Option α)
    (store : α → CommonOptions → CommonOptions) : Setting where
  Value := α
  key
  option
  fromEnv value := (parse value).map some
  fromCli := parse
  store

section Settings
variable (stod : Bytes → Option UInt64)

def host : Setting := .parsed (ascii "SV_HOST") (ascii "host") some
  fun host options => { options with serverHost := host }

def port : Setting := .parsed (ascii "SV_PORT") (ascii "port") parsePort
  fun port options => { options with serverPort := port }

def connectTimeout : Setting := .parsed (ascii "SV_CONNECT_TIMEOUT_MS") (ascii "connect-timeout")
  parseDurationMs fun timeout options => { options with connectTimeout := timeout }

def ioTimeout : Setting := .parsed (ascii "SV_IO_TIMEOUT_MS") (ascii "io-timeout") parseDurationMs
  fun timeout options => { options with ioTimeout := timeout }

def maxRetries : Setting := .parsed (ascii "SV_MAX_RETRIES") (ascii "max-retries") parseSize
  fun retries options => { options with maxRetries := retries }

def retryInitial : Setting := .parsed (ascii "SV_RETRY_INITIAL_MS") (ascii "retry-initial")
  parseDurationMs fun delay options => { options with retryInitialDelay := delay }

def retryMax : Setting := .parsed (ascii "SV_RETRY_MAX_MS") (ascii "retry-max") parseDurationMs
  fun delay options => { options with retryMaxDelay := delay }

def retryFactor : Setting := .parsed (ascii "SV_RETRY_FACTOR") (ascii "retry-factor") stod
  fun factor options => { options with retryBackoffFactor := factor }

def tcpNoDelay : Setting := .parsed (ascii "SV_TCP_NO_DELAY") (ascii "tcp-no-delay") toBool
  fun noDelay options => { options with tcpNoDelay := noDelay }

/-- An empty token of the environment is passed over, one of the command line resets. -/
def authToken : Setting where
  Value := Option Bytes
  key := ascii "SV_AUTH_TOKEN"
  option := ascii "auth-token"
  fromEnv token := some (if token = [] then none else some (some token))
  fromCli token := some (if token = [] then none else some token)
  store token options := { options with authToken := token }

def settings : List Setting := [host, port, connectTimeout, ioTimeout, maxRetries, retryInitial,
  retryMax, retryFactor stod, tcpNoDelay, authToken]

def envSource (env : Variables) : Source Setting CommonOptions := fun setting =>
  (getenv env setting.key).map fun value => (setting.fromEnv value).map fun given =>
    match given with
    | some given => setting.store given
    | none => id

def cliSource (args : Options) : Source Setting CommonOptions := fun setting =>
  (args setting.option).map fun value => (setting.fromCli value).map setting.store

def applyEnv (env : Variables) (options : CommonOptions) : Option CommonOptions :=
  Override.apply (envSource env) (settings stod) options

def applyCli (args : Options) (options : CommonOptions) : Option CommonOptions :=
  Override.apply (cliSource args) (settings stod) options

/-- `< 1.0` on the bits of a `double`; nothing is less if it is not a number. -/
def lessThanOne (bits : UInt64) : Bool :=
  bits < 0x3FF0000000000000 || (0x8000000000000000 ≤ bits && bits ≤ 0xFFF0000000000000)

def acceptable (factor : UInt64) (initial max : Int) : Bool :=
  !lessThanOne factor && !(initial < 0 || max < 0) && !decide (max < initial)

def validate (options : CommonOptions) : Option CommonOptions :=
  if acceptable options.retryBackoffFactor options.retryInitialDelay options.retryMaxDelay then
    some options
  else none

/-- `none` where it throws. -/
def loadCommonOptions (env : Variables) (argv : List Bytes) : Option CommonOptions := do
  let options ← applyEnv stod env {}
  let options ← applyCli stod (parseCli argv) options
  validate options

end Settings

namespace Setting
variable (setting : Setting) (env : Variables) (args : Options) (options : CommonOptions)

/-- What the environment gives the member. -/
def fromVariables : Option setting.Value := ((getenv env setting.key).bind setting.fromEnv).join

/-- What the command line gives the member. -/
def fromOptions : Option setting.Value := (args setting.option).bind setting.fromCli

/-- The command line's value, else that of the environment, else the default. -/
def chosen (default : setting.Value) : setting.Value :=
  ((setting.fromOptions args).or (setting.fromVariables env)).getD default

/-- The option is given, with a valid value. -/
def Overridden : Prop := (setting.fromOptions args).isSome

theorem update_envSource : update (envSource env) setting options =
    (setting.fromVariables env).elim options fun value => setting.store value options := by
  unfold update envSource fromVariables
  cases getenv env setting.key with
  | none => rfl
  | some text =>
    cases hgiven : setting.fromEnv text with
    | none => simp [hgiven]
    | some given => cases given <;> simp [hgiven]

theorem update_cliSource : update (cliSource args) setting options =
    (setting.fromOptions args).elim options fun value => setting.store value options := by
  unfold update cliSource fromOptions
  cases args setting.option with
  | none => rfl
  | some text => cases hgiven : setting.fromCli text <;> simp [hgiven]

end Setting

section Settings
variable (stod : Bytes → Option UInt64)

/-- The order of the two stores does not matter. -/
def Independent (s t : Setting) : Prop :=
  ∀ value other options, s.store value (t.store other options) = t.store other (s.store value options)

theorem independent_settings : (settings stod).Pairwise Independent := by
  simp only [settings, List.pairwise_cons, List.mem_cons, List.not_mem_nil, or_false,
    forall_eq_or_imp, forall_eq, false_implies, implies_true, and_true, List.Pairwise.nil]
  and_intros <;> exact fun _ _ _ => rfl

/-- The later value of a member counts. -/
theorem store_store {s : Setting} (h : s ∈ settings stod) (value other : s.Value)
    (options : CommonOptions) : s.store value (s.store other options) = s.store value options := by
  have hall : ∀ s ∈ settings stod, ∀ value other options,
      s.store value (s.store other options) = s.store value options := by
    simp only [settings, List.mem_cons, List.not_mem_nil, or_false, forall_eq_or_imp, forall_eq]
    and_intros <;> exact fun _ _ _ => rfl
  exact hall s h value other options

theorem map_key : (settings stod).map Setting.key = [ascii "SV_HOST", ascii "SV_PORT",
    ascii "SV_CONNECT_TIMEOUT_MS", ascii "SV_IO_TIMEOUT_MS", ascii "SV_MAX_RETRIES",
    ascii "SV_RETRY_INITIAL_MS", ascii "SV_RETRY_MAX_MS", ascii "SV_RETRY_FACTOR",
    ascii "SV_TCP_NO_DELAY", ascii "SV_AUTH_TOKEN"] := rfl

/-- Each member has a variable of its own. -/
theorem eq_of_key_eq {s t : Setting} (hs : s ∈ settings stod) (ht : t ∈ settings stod)
    (h : s.key = t.key) : s = t := by
  have hnodup : ((settings stod).map Setting.key).Nodup := by
    rw [map_key]
    decide +kernel
  exact List.inj_on_of_nodup_map hnodup hs ht h

theorem getenv_key {s : Setting} (env : Variables) (h : s ∈ settings stod) :
    getenv env s.key = env s.key := by
  have hplain : ∀ key ∈ (settings stod).map Setting.key, PosixPath.cString key = key := by
    rw [map_key]
    decide +kernel
  rw [getenv, hplain s.key (List.mem_map_of_mem h)]

section Layers
variable {stod} {env env' : Variables} {args : Options} {s t : Setting} {options : CommonOptions}

theorem Independent.update (h : Independent s t) :
    update (cliSource args) s (update (envSource env) t options) =
      update (envSource env) t (update (cliSource args) s options) := by
  simp only [Setting.update_envSource, Setting.update_cliSource]
  cases s.fromOptions args with
  | none => rfl
  | some value =>
    cases t.fromVariables env with
    | none => rfl
    | some other => exact h value other options

/-- A valid value leaves no trace of the variable. -/
theorem update_of_overridden (hs : s ∈ settings stod) (h : s.Overridden args) :
    update (cliSource args) s (update (envSource env) s options) =
      update (cliSource args) s options := by
  obtain ⟨value, hvalue⟩ := Option.isSome_iff_exists.mp h
  simp only [Setting.update_envSource, Setting.update_cliSource, hvalue, Option.elim_some]
  cases s.fromVariables env with
  | none => rfl
  | some other => exact store_store stod hs value other options

/-- A given option is valid unless the command line is unreadable. -/
theorem overridden_of_given (h : Readable (cliSource args) (settings stod)) (hs : s ∈ settings stod)
    (hgiven : cliSource args s ≠ none) : s.Overridden args := by
  have hreadable := h s hs
  unfold cliSource at hreadable hgiven
  unfold Setting.Overridden Setting.fromOptions
  cases htext : args s.option with
  | none => simp [htext] at hgiven
  | some text =>
    cases hvalue : s.fromCli text with
    | none => simp [htext, hvalue] at hreadable
    | some value => simp [hvalue]

theorem layered (env : Variables) (h : Readable (cliSource args) (settings stod)) :
    Layered (envSource env) (cliSource args) (settings stod) where
  commutes := (independent_settings stod).imp fun h _ => h.update
  overrides _ hs hgiven _ := update_of_overridden hs (overridden_of_given h hs hgiven)

/-- The member that one setting stores. -/
theorem combined_member (member : CommonOptions → s.Value) (before after : List Setting)
    (hsettings : settings stod = before ++ s :: after)
    (hstored : ∀ value options, member (s.store value options) = value)
    (hother : ∀ t ∈ before ++ after, ∀ value options,
      member (t.store value options) = member options) :
    member (combined (envSource env) (cliSource args) (settings stod) options) =
      s.chosen env args (member options) := by
  have hkept : ∀ t ∈ before ++ after, ∀ options,
      member (update (cliSource args) t (update (envSource env) t options)) = member options := by
    intro t ht options
    rw [Setting.update_cliSource, Setting.update_envSource]
    cases t.fromOptions args <;> cases t.fromVariables env <;> simp [hother t ht]
  obtain ⟨hlast, hfirst⟩ := combined_part member hkept
  rw [hsettings, hlast, Setting.update_cliSource, Setting.update_envSource, Setting.chosen]
  cases s.fromOptions args with
  | some value => exact hstored value _
  | none =>
    cases s.fromVariables env with
    | some value => exact hstored value _
    | none => exact hfirst

end Layers

/-- The environments differ only in variables whose option is given, with a valid value. -/
def DifferOverridden (env env' : Variables) (args : Options) : Prop :=
  ∀ name, env name ≠ env' name → ∃ s ∈ settings stod, s.key = name ∧ s.Overridden args

/-- `validate` accepts what the command line, the environment and the defaults give together. -/
def Admissible (env : Variables) (args : Options) : Prop :=
  acceptable ((retryFactor stod).chosen env args ({} : CommonOptions).retryBackoffFactor)
    (retryInitial.chosen env args ({} : CommonOptions).retryInitialDelay)
    (retryMax.chosen env args ({} : CommonOptions).retryMaxDelay) = true

section Load
variable {stod} {env env' : Variables} {args : Options} {argv : List Bytes}

theorem validate_combined :
    validate (combined (envSource env) (cliSource args) (settings stod) {}) = none ↔
      ¬ Admissible stod env args := by
  have hfactor : (combined (envSource env) (cliSource args) (settings stod) {}).retryBackoffFactor =
      (retryFactor stod).chosen env args ({} : CommonOptions).retryBackoffFactor := by
    refine combined_member CommonOptions.retryBackoffFactor [host, port, connectTimeout, ioTimeout,
      maxRetries, retryInitial, retryMax] [tcpNoDelay, authToken] rfl (fun _ _ => rfl) ?_
    simp only [List.cons_append, List.nil_append, List.mem_cons, List.not_mem_nil, or_false,
      forall_eq_or_imp, forall_eq]
    and_intros <;> exact fun _ _ => rfl
  have hinitial : (combined (envSource env) (cliSource args) (settings stod) {}).retryInitialDelay =
      retryInitial.chosen env args ({} : CommonOptions).retryInitialDelay := by
    refine combined_member CommonOptions.retryInitialDelay [host, port, connectTimeout, ioTimeout,
      maxRetries] [retryMax, retryFactor stod, tcpNoDelay, authToken] rfl (fun _ _ => rfl) ?_
    simp only [List.cons_append, List.nil_append, List.mem_cons, List.not_mem_nil, or_false,
      forall_eq_or_imp, forall_eq]
    and_intros <;> exact fun _ _ => rfl
  have hmax : (combined (envSource env) (cliSource args) (settings stod) {}).retryMaxDelay =
      retryMax.chosen env args ({} : CommonOptions).retryMaxDelay := by
    refine combined_member CommonOptions.retryMaxDelay [host, port, connectTimeout, ioTimeout,
      maxRetries, retryInitial] [retryFactor stod, tcpNoDelay, authToken] rfl (fun _ _ => rfl) ?_
    simp only [List.cons_append, List.nil_append, List.mem_cons, List.not_mem_nil, or_false,
      forall_eq_or_imp, forall_eq]
    and_intros <;> exact fun _ _ => rfl
  rw [Admissible, ← hfactor, ← hinitial, ← hmax, validate]
  split
  case isTrue h => exact ⟨fun h' => (nomatch h'), fun h' => absurd h h'⟩
  case isFalse h => exact ⟨fun _ => h, fun _ => rfl⟩

theorem load_eq_bind : loadCommonOptions stod env argv =
    (merge (envSource env) (cliSource (parseCli argv)) (settings stod) {}).bind validate := by
  rw [merge, Option.bind_assoc]
  rfl

theorem load_of_readable (henv : Readable (envSource env) (settings stod))
    (hcli : Readable (cliSource (parseCli argv)) (settings stod)) :
    loadCommonOptions stod env argv =
      validate (combined (envSource env) (cliSource (parseCli argv)) (settings stod) {}) := by
  rw [load_eq_bind, merge_of_readable (layered env hcli) henv hcli, Option.bind_some]

theorem load_of_env_unreadable (h : ¬ Readable (envSource env) (settings stod)) :
    loadCommonOptions stod env argv = none := by
  rw [load_eq_bind, merge, apply_of_not_readable h]
  rfl

theorem load_of_cli_unreadable (h : ¬ Readable (cliSource (parseCli argv)) (settings stod)) :
    loadCommonOptions stod env argv = none := by
  rw [load_eq_bind, merge, Option.bind_assoc]
  cases apply (envSource env) (settings stod) {} with
  | none => rfl
  | some options =>
    rw [Option.bind_some, apply_of_not_readable h]
    rfl

/-- Variables whose options are given have no effect on what both sources give together. -/
theorem combined_of_differ (h : DifferOverridden stod env env' args)
    (hcli : Readable (cliSource args) (settings stod)) (options : CommonOptions) :
    combined (envSource env) (cliSource args) (settings stod) options =
      combined (envSource env') (cliSource args) (settings stod) options := by
  apply combined_congr (layered env hcli) (layered env' hcli)
  intro s hs hnotGiven
  have hsame : env s.key = env' s.key := by
    by_contra hne
    obtain ⟨t, ht, hkey, hoverridden⟩ := h s.key hne
    obtain rfl := eq_of_key_eq stod ht hs hkey
    rw [cliSource, Option.map_eq_none_iff] at hnotGiven
    rw [Setting.Overridden, Setting.fromOptions, hnotGiven] at hoverridden
    cases hoverridden
  rw [envSource, envSource, getenv_key stod env hs, getenv_key stod env' hs, hsame]

/-- Overridden variables do not matter exactly when they are readable in both environments or in
none, or loading fails by the command line or by `validate`. -/
theorem load_overridden_iff (h : DifferOverridden stod env env' (parseCli argv)) :
    loadCommonOptions stod env argv = loadCommonOptions stod env' argv ↔
      (Readable (envSource env) (settings stod) ↔ Readable (envSource env') (settings stod)) ∨
        ¬ Readable (cliSource (parseCli argv)) (settings stod) ∨
        ¬ Admissible stod env (parseCli argv) := by
  by_cases hcli : Readable (cliSource (parseCli argv)) (settings stod)
  · have hsame := combined_of_differ h hcli {}
    by_cases henv : Readable (envSource env) (settings stod) <;>
      by_cases henv' : Readable (envSource env') (settings stod)
    · simp [load_of_readable henv hcli, load_of_readable henv' hcli, hsame, henv, henv']
    · rw [load_of_readable henv hcli, load_of_env_unreadable henv', validate_combined]
      simp [henv, henv', hcli]
    · rw [load_of_env_unreadable henv, load_of_readable henv' hcli, ← hsame, eq_comm,
        validate_combined]
      simp [henv, henv', hcli]
    · simp [load_of_env_unreadable henv, load_of_env_unreadable henv', henv, henv']
  · simp [load_of_cli_unreadable hcli, hcli]

end Load

end Settings

theorem readable_envSource_iff {stod : Bytes → Option UInt64} {env : Variables} :
    Readable (envSource env) (settings stod) ↔
      ∀ s ∈ settings stod, (getenv env s.key).all (fun text => (s.fromEnv text).isSome) := by
  refine forall₂_congr fun s _ => ?_
  unfold envSource
  cases getenv env s.key with
  | none => simp
  | some text => cases hgiven : s.fromEnv text <;> simp [hgiven]

/-- Two environments with one overridden variable. -/
theorem differOverridden_only {stod : Bytes → Option UInt64} {s : Setting} {args : Options}
    (hs : s ∈ settings stod) (h : s.Overridden args) (text text' : Bytes) :
    DifferOverridden stod (only s.key text) (only s.key text') args := by
  intro name hne
  by_cases hname : name = s.key
  · exact ⟨s, hs, hname.symm, h⟩
  · rw [only, only, if_neg hname, if_neg hname] at hne
    exact absurd rfl hne

/-- The reader of `double`s in the sample. -/
def readTwo (text : Bytes) : Option UInt64 :=
  if text = ascii "2" then some 0x4000000000000000 else none

theorem load_overridden_sample :
    loadCommonOptions readTwo (only (ascii "SV_PORT") (ascii "81"))
        [ascii "client", ascii "--port=80", ascii "--retry-factor=2"] =
      loadCommonOptions readTwo (only (ascii "SV_PORT") (ascii "82"))
        [ascii "client", ascii "--port=80", ascii "--retry-factor=2"] := by
  have hport : port.Overridden (parseCli
      [ascii "client", ascii "--port=80", ascii "--retry-factor=2"]) := rfl
  apply (load_overridden_iff (differOverridden_only (by simp [settings]) hport _ _)).mpr
  refine .inl (iff_of_true ?_ ?_) <;> exact readable_envSource_iff.mpr (by decide +kernel)

/-- An overridden variable that cannot be read still makes loading fail. -/
theorem load_overridden_fails : ¬ ∃ stod : Bytes → Option UInt64,
    ∀ env env' argv, DifferOverridden stod env env' (parseCli argv) →
      loadCommonOptions stod env argv = loadCommonOptions stod env' argv := by
  rintro ⟨stod, h⟩
  have hport : port.Overridden (parseCli [ascii "client", ascii "--port=80"]) := rfl
  have hsame := h (only (ascii "SV_PORT") (ascii "abc")) (only (ascii "SV_PORT") (ascii "81"))
    [ascii "client", ascii "--port=80"] (differOverridden_only (by simp [settings]) hport _ _)
  have hleft : loadCommonOptions stod (only (ascii "SV_PORT") (ascii "abc"))
      [ascii "client", ascii "--port=80"] = none := rfl
  have hright : loadCommonOptions stod (only (ascii "SV_PORT") (ascii "81"))
      [ascii "client", ascii "--port=80"] = some { serverPort := 80 } := rfl
  rw [hleft, hright] at hsame
  cases hsame

end SuperVoice.Common.Config
