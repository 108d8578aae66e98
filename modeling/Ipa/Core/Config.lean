import Ipa.Core.Errors
import Ipa.Lib.Strings

/-!
# Configuration

The texts that `Settings` derives from the environment, and what `validate_startup` checks.

* `sync_dsn_normal`: what the DSN for Alembic looks like, for every DSN.
* `comma_separated_iff`: the lists of MIME types and of CORS origins that a text can give.
* `validate_startup_iff`: when the process starts, and what it says when it does not.
-/

namespace Ipa

open Strings

/-- `ConfigurationError(detail)`. -/
def configurationError (detail : String) : IpaError where
  code := "configuration_error"
  httpStatus := 500
  title := "Configuration Error"
  detail := detail
  retryable := false
  extra := Table.empty _

/-- Deployment environments. -/
inductive EnvName
  | local | test | staging | production
deriving DecidableEq, Repr

/-- The kinds of models that the settings name. -/
inductive Capability
  | llm | vlm | embed
deriving DecidableEq, Repr

/-- The key and the model names of the inference service. -/
structure NvidiaSettings where
  apiKey : String
  llmModel : String
  vlmModel : String
  embedModel : String

/-- The features that can be switched off. -/
structure FeatureSettings where
  extractionEnabled : Bool
  embeddingEnabled : Bool
  vlmOcrEnabled : Bool

/-- The settings that the functions below read. -/
structure Settings where
  env : EnvName
  secretKey : String
  allowedMime : String
  corsOrigins : String
  dsn : String
  nvidia : NvidiaSettings
  features : FeatureSettings

/-! ## The DSN -/

/-- `s.replace(old, new)`. -/
def replace (s old new : String) : String := String.ofList (replaceAll old.toList new.toList s.toList)

/-- `sync_dsn`. -/
def syncDsn (dsn : String) : String :=
  replace (replace dsn "+asyncpg" "+psycopg") "postgresql://" "postgresql+psycopg://"

/-- `part in s`. -/
def Occurs (part s : String) : Prop := part.toList <:+: s.toList

theorem replace_of_not_occurs {s old new : String} (h : ¬ Occurs old s) : replace s old new = s := by
  rw [replace, replaceAll_eq_self h, String.ofList_toList]

theorem not_occurs_replace {s old new part : String} (hold : old.toList ≠ []) (hpart : part.toList ≠ [])
    (hbefore : ∀ v ∈ part.toList.tail.tails, v ≠ [] → Clash v new.toList)
    (hinside : ∀ v ∈ new.toList.tails, v ≠ [] → Clash part.toList v) (h : ¬ Occurs part s ∨ part = old) :
    ¬ Occurs part (replace s old new) := by
  rw [Occurs, replace, String.toList_ofList]
  exact not_infix_replaceAll hold hpart hbefore hinside (h.imp_right (congrArg String.toList))

theorem not_occurs_asyncpg (dsn : String) : ¬ Occurs "+asyncpg" (syncDsn dsn) := by
  have hfirst : ¬ Occurs "+asyncpg" (replace dsn "+asyncpg" "+psycopg") :=
    not_occurs_replace (by decide) (by decide) (by decide) (by decide) (.inr rfl)
  exact not_occurs_replace (by decide) (by decide) (by decide) (by decide) (.inl hfirst)

theorem not_occurs_plain (dsn : String) : ¬ Occurs "postgresql://" (syncDsn dsn) :=
  not_occurs_replace (by decide) (by decide) (by decide) (by decide) (.inr rfl)

theorem syncDsn_of_not_occurs {dsn : String} (hasync : ¬ Occurs "+asyncpg" dsn)
    (hplain : ¬ Occurs "postgresql://" dsn) : syncDsn dsn = dsn := by
  rw [syncDsn, replace_of_not_occurs hasync, replace_of_not_occurs hplain]

/-- Whatever the DSN is, the one for Alembic names neither the asynchronous driver nor a server without
a driver; it is its own; and a DSN is kept if and only if it names neither. -/
theorem sync_dsn_normal (dsn : String) :
    ¬ Occurs "+asyncpg" (syncDsn dsn) ∧ ¬ Occurs "postgresql://" (syncDsn dsn) ∧
      syncDsn (syncDsn dsn) = syncDsn dsn ∧
      (syncDsn dsn = dsn ↔ ¬ Occurs "+asyncpg" dsn ∧ ¬ Occurs "postgresql://" dsn) := by
  have hasync := not_occurs_asyncpg dsn
  have hplain := not_occurs_plain dsn
  refine ⟨hasync, hplain, syncDsn_of_not_occurs hasync hplain, fun h => ?_, fun h => ?_⟩
  · rw [h] at hasync hplain
    exact ⟨hasync, hplain⟩
  · exact syncDsn_of_not_occurs h.1 h.2

/-! ## Lists in one text -/

/-- `str.isspace` of one character. -/
def isSpace (c : Char) : Bool :=
  c.toNat ∈ [0x20, 0x85, 0xa0, 0x1680, 0x2028, 0x2029, 0x202f, 0x205f, 0x3000] ||
    (0x9 ≤ c.toNat && c.toNat ≤ 0xd) || (0x1c ≤ c.toNat && c.toNat ≤ 0x1f) ||
    (0x2000 ≤ c.toNat && c.toNat ≤ 0x200a)

/-- `item.strip() for item in s.split(",") if item.strip()`. -/
def commaSeparated (s : String) : List String := (items isSpace ',' s.toList).map String.ofList

namespace Settings

/-- `allowed_mime_types`. -/
def allowedMimeTypes (settings : Settings) : List String := commaSeparated settings.allowedMime

/-- `cors_origin_list`. -/
def corsOriginList (settings : Settings) : List String := commaSeparated settings.corsOrigins

end Settings

/-- `sep.join(l)`. -/
def join (sep : String) (l : List String) : String :=
  String.ofList (sep.toList.intercalate (l.map String.toList))

theorem map_toList_commaSeparated (s : String) :
    (commaSeparated s).map String.toList = items isSpace ',' s.toList := by
  rw [commaSeparated, List.map_map]
  exact (List.map_congr_left fun item _ => String.toList_ofList).trans (List.map_id _)

/-- A list of texts comes back from the text that joins them by commas if and only if none of them is
empty, has white space at an end or has a comma; and what has been read is such a list. -/
theorem comma_separated_iff (l : List String) (s : String) :
    (commaSeparated (join "," l) = l ↔ ∀ item ∈ l, Clean isSpace ',' item.toList) ∧
      commaSeparated (join "," (commaSeparated s)) = commaSeparated s := by
  have hiff : ∀ l, commaSeparated (join "," l) = l ↔ ∀ item ∈ l, Clean isSpace ',' item.toList := by
    intro l
    have hsep : ",".toList = [','] := by decide
    have hread : (commaSeparated (join "," l)).map String.toList =
        items isSpace ',' ([','].intercalate (l.map String.toList)) := by
      rw [map_toList_commaSeparated, join, String.toList_ofList, hsep]
    have hinj : Function.Injective (List.map String.toList) :=
      List.map_injective_iff.2 fun _ _ => String.toList_inj.1
    rw [← hinj.eq_iff, hread, items_intercalate_iff]
    simp only [List.mem_map, forall_exists_index, and_imp, forall_apply_eq_imp_iff₂]
  refine ⟨hiff l, (hiff _).2 fun item hitem => ?_⟩
  have hmem := List.mem_map_of_mem (f := String.toList) hitem
  rw [map_toList_commaSeparated] at hmem
  exact clean_of_mem_items hmem

/-! ## Starting -/

namespace NvidiaSettings

/-- `require_model`. -/
def requireModel (nvidia : NvidiaSettings) (capability : Capability) : Except IpaError String :=
  let (envVar, model) := match capability with
    | .llm => ("NVIDIA_LLM_MODEL", nvidia.llmModel)
    | .vlm => ("NVIDIA_VLM_MODEL", nvidia.vlmModel)
    | .embed => ("NVIDIA_EMBED_MODEL", nvidia.embedModel)
  if model = "" then
    .error (configurationError (envVar ++ " is empty. Set it to a model ID from the NVIDIA catalogue, " ++
      "or disable the feature that needs it."))
  else if nvidia.apiKey = "" then
    .error (configurationError "NVIDIA_API_KEY is empty but an NVIDIA model is in use.")
  else .ok model

end NvidiaSettings

namespace Settings

/-- `is_production`. -/
def isProduction (settings : Settings) : Bool := settings.env ∈ [EnvName.staging, .production]

/-- The features that need a model, and whether they are enabled. -/
def required (settings : Settings) : List (Bool × Capability) :=
  [(settings.features.extractionEnabled, .llm), (settings.features.vlmOcrEnabled, .vlm),
    (settings.features.embeddingEnabled, .embed)]

/-- The problem with a feature, if it is enabled. -/
def problem? (settings : Settings) : Bool × Capability → Option String
  | (false, _) => none
  | (true, capability) => match settings.nvidia.requireModel capability with
    | .ok _ => none
    | .error e => some e.detail

/-- What is wrong with the settings: the missing models, and a placeholder secret in production. -/
def problems (settings : Settings) : List String :=
  settings.required.filterMap settings.problem? ++
    if settings.isProduction && settings.secretKey = "change-me" then
      ["IPA_SECRET_KEY still holds the placeholder value."]
    else []

/-- `validate_startup`. -/
def validateStartup (settings : Settings) : Except IpaError Unit :=
  if settings.problems = [] then .ok ()
  else .error (configurationError ("Invalid configuration: " ++ join " " settings.problems))

theorem requireModel_ne_empty {nvidia : NvidiaSettings} {capability : Capability} {model : String}
    (h : nvidia.requireModel capability = .ok model) : model ≠ "" := by
  unfold NvidiaSettings.requireModel at h
  dsimp only at h
  split_ifs at h with hmodel hkey
  cases h
  exact hmodel

theorem problems_eq_nil_iff (settings : Settings) : settings.problems = [] ↔
    (∀ capability, (true, capability) ∈ settings.required →
      ∃ model, model ≠ "" ∧ settings.nvidia.requireModel capability = .ok model) ∧
    (settings.isProduction → settings.secretKey ≠ "change-me") := by
  rw [problems, List.append_eq_nil_iff, List.filterMap_eq_nil_iff]
  refine and_congr ⟨fun h capability hmem => ?_, fun h feature hmem => ?_⟩ ?_
  · have hnone := h _ hmem
    rw [problem?] at hnone
    cases hmodel : settings.nvidia.requireModel capability with
    | ok model => exact ⟨model, requireModel_ne_empty hmodel, rfl⟩
    | error e =>
      rw [hmodel] at hnone
      cases hnone
  · obtain ⟨enabled, capability⟩ := feature
    cases enabled with
    | false => rfl
    | true =>
      obtain ⟨model, -, hmodel⟩ := h capability hmem
      rw [problem?, hmodel]
  · by_cases hproduction : settings.isProduction <;> simp [hproduction]

theorem occurs_join {sep item : String} {l : List String} (h : item ∈ l) : Occurs item (join sep l) := by
  rw [Occurs, join, String.toList_ofList]
  obtain ⟨before, after, rfl⟩ := List.append_of_mem h
  induction before with
  | nil =>
    cases after with
    | nil => simp
    | cons next after =>
      rw [List.nil_append, List.map_cons, List.map_cons, List.intercalate_cons_cons, List.append_assoc]
      exact (List.prefix_append _ _).isInfix
  | cons first before ih =>
    have ih := ih (List.mem_append_right _ List.mem_cons_self)
    have hne : (before ++ item :: after).map String.toList ≠ [] := by simp
    obtain ⟨second, rest, hrest⟩ := List.exists_cons_of_ne_nil hne
    rw [List.cons_append, List.map_cons, hrest, List.intercalate_cons_cons, ← hrest]
    exact ih.trans (List.suffix_append _ _).isInfix

/-- The process starts if and only if every enabled feature has the model it will ask for, and a
deployed one has a key of its own; otherwise the error says what is wrong with each feature. -/
theorem validate_startup_iff (settings : Settings) :
    (settings.validateStartup = .ok () ↔
      (∀ capability, (true, capability) ∈ settings.required →
        ∃ model, model ≠ "" ∧ settings.nvidia.requireModel capability = .ok model) ∧
      (settings.isProduction → settings.secretKey ≠ "change-me")) ∧
    ∀ e, settings.validateStartup = .error e → ∀ capability, (true, capability) ∈ settings.required →
      ∀ e', settings.nvidia.requireModel capability = .error e' → Occurs e'.detail e.detail := by
  rw [← problems_eq_nil_iff, validateStartup]
  refine ⟨by simp, fun e he capability hmem e' hmodel => ?_⟩
  have hproblem : e'.detail ∈ settings.problems := by
    refine List.mem_append_left _ (List.mem_filterMap.2 ⟨_, hmem, ?_⟩)
    rw [problem?, hmodel]
  split_ifs at he with hnil
  cases he
  have hjoined : Occurs e'.detail (join " " settings.problems) := occurs_join hproblem
  rw [configurationError, Occurs, String.toList_append]
  exact hjoined.trans (List.suffix_append _ _).isInfix

end Settings

end Ipa
