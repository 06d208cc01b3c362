import SuperVoice.Lib.PercentEncoding
import SuperVoice.Providers.Refusal

/-! The URL of an upstream request, and where a job id that a client sends can lead it. -/
namespace SuperVoice.Providers
open Bytes PercentEncoding

def resolvePath (operation : ProviderOperation) (resourceId : Bytes) : Bytes :=
  match operation with
  | .chat => ascii "chat/completions"
  | .embeddings => ascii "embeddings"
  | .images => ascii "images/generations"
  | .asr => ascii "audio/transcriptions"
  | .tts => ascii "audio/speech"
  | .video => ascii "video/generations"
  | .listModels => ascii "models"
  | .batches => ascii "batches"
  | .jobStatus => ascii "jobs/" ++ resourceId

/-- Without its last byte if that is a slash. -/
def trimSlash (base : Bytes) : Bytes :=
  if base.getLast? = some 47 then base.dropLast else base

def buildUrl (config : ProviderConfig) (operation : ProviderOperation) (resourceId : Bytes) :
    Bytes :=
  let base := trimSlash config.baseUrl
  let path := resolvePath operation resourceId
  if path ≠ [] ∧ path.head? ≠ some 47 then base ++ ascii "/" ++ path else base ++ path

/-- The URL for a call of a provider; only `jobStatus` has a resource. -/
def urlOf (config : ProviderConfig) : ProviderOperation × ProviderRequest → Bytes
  | (operation, .jobId id) => buildUrl config operation id
  | (operation, .payload _) => buildUrl config operation []

/-- The path of a URL reaches to its end: no query and no fragment follows it. -/
def EndsInPath (url : Bytes) : Prop := ∀ b ∈ url, b ≠ 63 ∧ b ≠ 35

/-- The URL of a job: its path goes from the base to `jobs` and ends with one segment that stands
for the id. -/
def NamesJob (config : ProviderConfig) (id url : Bytes) : Prop :=
  EndsInPath url ∧ ∃ segment, url = trimSlash config.baseUrl ++ ascii "/jobs/" ++ segment ∧
    Segment segment ∧ decode segment = id

/-- An id that stands for itself in a URL. -/
structure Plain (id : Bytes) : Prop where
  ends : ∀ b ∈ id, b ≠ 47 ∧ b ≠ 63 ∧ b ≠ 35
  dots : id ≠ ascii "." ∧ id ≠ ascii ".."
  literal : ¬ Escapes id

section
variable {config : ProviderConfig} {id id' url : Bytes}

theorem buildUrl_jobStatus (config : ProviderConfig) (id : Bytes) :
    buildUrl config .jobStatus id = trimSlash config.baseUrl ++ ascii "/jobs/" ++ id := by
  have hpath : resolvePath .jobStatus id = ascii "jobs/" ++ id := rfl
  have hjoin : ascii "/jobs/" = ascii "/" ++ ascii "jobs/" := rfl
  have hslash : (ascii "jobs/" ++ id) ≠ [] ∧ (ascii "jobs/" ++ id).head? ≠ some 47 := by
    constructor
    · exact List.append_ne_nil_of_left_ne_nil (by decide) id
    · show some (106 : UInt8) ≠ some 47
      decide
  simp only [buildUrl, hpath, if_pos hslash, hjoin, List.append_assoc]

/-- As texts, the URLs of different jobs are always different. -/
theorem buildUrl_injective (config : ProviderConfig) :
    Function.Injective (buildUrl config .jobStatus) := by
  intro id id' h
  rw [buildUrl_jobStatus, buildUrl_jobStatus] at h
  exact List.append_cancel_left h

/-- A URL names one job at most. -/
theorem NamesJob.unique (h : NamesJob config id url) (h' : NamesJob config id' url) : id = id' := by
  obtain ⟨-, segment, hurl, -, rfl⟩ := h
  obtain ⟨-, segment', hurl', -, rfl⟩ := h'
  rw [List.append_cancel_left (hurl.symm.trans hurl')]

theorem endsInPath_of_all (h : url.all (fun b => b ≠ 63 && b ≠ 35) = true) : EndsInPath url := by
  intro b hb
  simpa using List.all_eq_true.mp h b hb

theorem endsInPath_trimSlash (base : Bytes) : EndsInPath (trimSlash base) ↔ EndsInPath base := by
  rw [trimSlash]
  split
  · next hlast =>
    obtain ⟨front, rfl⟩ := List.getLast?_eq_some_iff.mp hlast
    rw [List.dropLast_concat, EndsInPath, EndsInPath, List.forall_mem_append,
      List.forall_mem_singleton]
    exact (and_iff_left (by decide)).symm
  · exact Iff.rfl

/-- With a base that has a query or a fragment, no id is on the path at all. -/
theorem namesJob_iff : NamesJob config id (buildUrl config .jobStatus id) ↔
    EndsInPath config.baseUrl ∧ Plain id := by
  rw [buildUrl_jobStatus, ← endsInPath_trimSlash]
  constructor
  · intro h
    obtain ⟨hends, segment, hurl, hsegment, hid⟩ := h
    cases List.append_cancel_left hurl
    refine ⟨fun b hb => hends b (List.mem_append_left _ (List.mem_append_left _ hb)), ?_⟩
    constructor
    case ends => exact hsegment.ends
    case dots =>
      have hdots := hsegment.dots
      rw [hid] at hdots
      exact hdots
    case literal => exact (decode_eq_self_iff id).mp hid
  · intro hboth
    obtain ⟨hbase, h⟩ := hboth
    have hid := (decode_eq_self_iff id).mpr h.literal
    have hjobs : EndsInPath (ascii "/jobs/") := endsInPath_of_all (by decide)
    refine ⟨?_, id, rfl, ?_, hid⟩
    · intro b hb
      obtain hb | hb := List.mem_append.mp hb
      · exact (List.mem_append.mp hb).elim (hbase b) (hjobs b)
      · exact (h.ends b hb).2
    constructor
    case ends => exact h.ends
    case dots =>
      rw [hid]
      exact h.dots

variable {D : Type} {doubles : Doubles D} {getProvider : Bytes → Option (IProvider D)}
  {provider : IProvider D} {providerKey : Bytes} {req : HttpRequest}

/-- A handler passes the parameter on as it is. -/
theorem call_jobStatus (doubles : Doubles D) (handler : Handler)
    (hkey : handler.providerKey req = some providerKey)
    (hprovider : getProvider providerKey = some provider)
    (hid : req.parameter (ascii "id") ≠ []) :
    (handler.handle doubles getProvider .jobStatus req).call =
      some (.jobStatus, .jobId (req.parameter (ascii "id"))) := by
  obtain ⟨seen, -, -, hserves⟩ := handle_serves doubles handler .jobStatus hkey hprovider
  have hxai : (serveXai doubles providerKey .jobStatus req provider seen).call =
      some (.jobStatus, .jobId (req.parameter (ascii "id"))) := by
    simp only [serveXai, if_neg hid]
    exact call_perform seen provider _ _ _ _ _
  rcases hserves with hendpoint | hserves
  · rw [hendpoint, serve_agree (.inl (not_hasBody.mpr (.inr rfl)))]
    exact hxai
  · rw [hserves]
    exact hxai

/-- Whatever a client sends as the id, the request stays with that job exactly if the base is a
path to its end and the id stands for itself. -/
theorem jobUrl_named_iff (handler : Handler) (config : ProviderConfig)
    (hkey : handler.providerKey req = some providerKey)
    (hprovider : getProvider providerKey = some provider)
    (hid : req.parameter (ascii "id") ≠ []) :
    (∃ call, (handler.handle doubles getProvider .jobStatus req).call = some call ∧
      NamesJob config (req.parameter (ascii "id")) (urlOf config call)) ↔
    EndsInPath config.baseUrl ∧ Plain (req.parameter (ascii "id")) := by
  have hcall := call_jobStatus doubles handler hkey hprovider hid
  constructor
  · intro h
    obtain ⟨call, hcall', hnames⟩ := h
    cases hcall.symm.trans hcall'
    exact namesJob_iff.mp hnames
  · exact fun h => ⟨_, hcall, namesJob_iff.mpr h⟩

end

def jobsHandler : Handler := .endpoint (ascii "openai") (ascii "/openai/jobs/\x7bid\x7d")

def jobRequest (id : Bytes) : HttpRequest where
  parameter name := if name = ascii "id" then id else []
  header _ := []
  requestId := none
  json := none

/-- The id `../models` leads to another resource of the upstream. -/
theorem jobUrl_strays : ¬ ∀ (doubles : Doubles ℚ) (getProvider : Bytes → Option (IProvider ℚ))
    (provider : IProvider ℚ) (providerKey : Bytes) (handler : Handler) (config : ProviderConfig)
    (req : HttpRequest), handler.providerKey req = some providerKey →
    getProvider providerKey = some provider → req.parameter (ascii "id") ≠ [] →
      ∃ call, (handler.handle doubles getProvider .jobStatus req).call = some call ∧
        NamesJob config (req.parameter (ascii "id")) (urlOf config call) := by
  intro h
  obtain ⟨call, hcall, -, segment, hurl, hsegment, -⟩ :=
    h sampleDoubles (fun _ => some sampleProvider) sampleProvider _ jobsHandler
      (sampleConfig 3 10000) (jobRequest (ascii "../models")) rfl rfl (by decide)
  cases hcall
  have hbuilt : buildUrl (sampleConfig 3 10000) .jobStatus (ascii "../models") =
      trimSlash (sampleConfig 3 10000).baseUrl ++ ascii "/jobs/" ++ ascii "../models" :=
    buildUrl_jobStatus _ _
  cases List.append_cancel_left (hbuilt.symm.trans hurl)
  exact (hsegment.ends 47 (by decide)).1 rfl

theorem jobUrl_named_sample : ∃ call,
    (jobsHandler.handle sampleDoubles (fun _ => some sampleProvider) .jobStatus
      (jobRequest (ascii "job-1"))).call = some call ∧
    NamesJob (sampleConfig 3 10000) (ascii "job-1") (urlOf (sampleConfig 3 10000) call) := by
  have hplain : Plain (ascii "job-1") :=
    ⟨by decide +kernel, by decide +kernel, (decode_eq_self_iff _).mp (by decide +kernel)⟩
  have hbase : EndsInPath (sampleConfig 3 10000).baseUrl := endsInPath_of_all (by decide +kernel)
  exact (jobUrl_named_iff jobsHandler (sampleConfig 3 10000) rfl rfl (by decide)).mpr ⟨hbase, hplain⟩

end SuperVoice.Providers
