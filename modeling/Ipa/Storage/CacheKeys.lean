import Ipa.Core.Basic
import Ipa.Lib.Text

/-!
# Names of cache entries

`buildKey` joins the parts of a key with colons, and the builders of the kinds of entries apply it.
The identifier comes last and may have any characters, so a key is read from the left: the
environment and the kind have no colon, which `Segment` carries.

* `buildKey_inj`: a key determines its environment, its kind and its identifier.
* `versioned_inj`: an identifier `{uuid}:v{version}` determines both.
* `KeyCall.key_inj`: two calls of the builders give the same key only for the same entry.
-/

namespace Ipa

theorem UUID.colon_notMem_str (u : UUID) : ':' ∉ u.str.toList := by
  intro h
  have hhex : ':' ∈ u.str.toList.filter (· ≠ '-') := List.mem_filter.2 ⟨h, by decide⟩
  rw [u.filter_toList_str] at hhex
  exact notMem_hexDigits (by decide) 32 _ hhex

/-! ## The builders -/

/-- A text without a colon: an environment or a kind. -/
structure Segment where
  text : String
  noColon : ':' ∉ text.toList
deriving DecidableEq

/-- `ipa:{env}:{kind}:{identifier}`. -/
def buildKey (env kind identifier : String) : String :=
  "ipa" ++ ":" ++ env ++ ":" ++ kind ++ ":" ++ identifier

/-- The identifier of one version of something. -/
def versioned (id : UUID) (version : ℤ) : String := id.str ++ ":v" ++ toString version

theorem buildKey_inj {env env' kind kind' : Segment} {identifier identifier' : String}
    (h : buildKey env.text kind.text identifier = buildKey env'.text kind'.text identifier') :
    env = env' ∧ kind = kind' ∧ identifier = identifier' := by
  have hlist : ∀ (e k : Segment) (i : String), (buildKey e.text k.text i).toList =
      "ipa:".toList ++ (e.text.toList ++ ':' :: (k.text.toList ++ ':' :: i.toList)) := by
    intro e k i
    simp [buildKey]
  have hchars := congrArg String.toList h
  rw [hlist, hlist, List.append_cancel_left_eq] at hchars
  obtain ⟨henv, hrest⟩ := Text.append_sep_inj env.noColon env'.noColon hchars
  obtain ⟨hkind, hid⟩ := Text.append_sep_inj kind.noColon kind'.noColon hrest
  refine ⟨?_, ?_, String.toList_inj.1 hid⟩
  · cases env
    cases env'
    exact Segment.mk.injEq .. ▸ String.toList_inj.1 henv
  · cases kind
    cases kind'
    exact Segment.mk.injEq .. ▸ String.toList_inj.1 hkind

theorem versioned_inj {u u' : UUID} {v v' : ℤ} (h : versioned u v = versioned u' v') :
    u = u' ∧ v = v' := by
  have hlist : ∀ (u : UUID) (v : ℤ), (versioned u v).toList =
      u.str.toList ++ ':' :: ('v' :: (toString v).toList) := by
    intro u v
    simp [versioned]
  have hchars := congrArg String.toList h
  rw [hlist, hlist] at hchars
  obtain ⟨hu, hv⟩ := Text.append_sep_inj u.colon_notMem_str u'.colon_notMem_str hchars
  refine ⟨UUID.str_injective (String.toList_inj.1 hu), Text.toString_int_inj ?_⟩
  exact String.toList_inj.1 (List.cons.inj hv).2

/-- The kinds of entries that the code names. -/
def idemKind : Segment := ⟨"idem", by decide⟩

/-- The kind of locks. -/
def lockKind : Segment := ⟨"lock", by decide⟩

/-- The kind of cached extractions. -/
def extractionKind : Segment := ⟨"extraction", by decide⟩

/-- The kind of cached tag schemas. -/
def tagSchemaKind : Segment := ⟨"tag_schema", by decide⟩

/-- The kind of cached search results. -/
def searchKind : Segment := ⟨"search", by decide⟩

/-- The kind of cached statuses of documents. -/
def documentStatusKind : Segment := ⟨"document_status", by decide⟩

/-- A call of a key builder, with the environment that it reads from its store or its settings. -/
inductive KeyCall
  | buildKey (env kind : Segment) (identifier : String)
  | storeKey (env kind : Segment) (identifier : String)
  | extraction (env : Segment) (documentId : UUID) (version : ℤ)
  | tagSchema (env : Segment) (tagId : UUID) (version : ℤ)
  | search (env : Segment) (queryHash : String)
  | documentStatus (env : Segment) (documentId : UUID)
deriving DecidableEq

/-- What an entry is: its environment, its kind and its identifier. -/
abbrev Entry := Segment × Segment × String

/-- `buildKey` of an entry. -/
def Entry.key (entry : Entry) : String := Ipa.buildKey entry.1.text entry.2.1.text entry.2.2

theorem Entry.key_injective : Function.Injective Entry.key := by
  rintro ⟨env, kind, identifier⟩ ⟨env', kind', identifier'⟩ h
  obtain ⟨rfl, rfl, rfl⟩ := buildKey_inj h
  rfl

namespace KeyCall

/-- The entry that the call builds the key of. -/
def entry : KeyCall → Entry
  | buildKey env kind identifier | storeKey env kind identifier => (env, kind, identifier)
  | extraction env documentId version => (env, extractionKind, versioned documentId version)
  | tagSchema env tagId version => (env, tagSchemaKind, versioned tagId version)
  | search env queryHash => (env, searchKind, queryHash)
  | documentStatus env documentId => (env, documentStatusKind, documentId.str)

/-- The key that the call returns. -/
def key (call : KeyCall) : String := call.entry.key

/-- The builders that take the kind from their caller. -/
def Generic : KeyCall → Prop
  | buildKey _ _ _ | storeKey _ _ _ => True
  | _ => False

/-- Two calls of the builders give the same key only for the same environment, kind and identifier;
and if they are calls of builders of one kind of entry, only for the same arguments. -/
theorem key_inj {call call' : KeyCall} (h : call.key = call'.key) :
    call.entry = call'.entry ∧ (¬ call.Generic → ¬ call'.Generic → call = call') := by
  have hentry : call.entry = call'.entry := Entry.key_injective h
  refine ⟨hentry, fun hc hc' => ?_⟩
  cases call <;> cases call' <;>
    first
    | exact absurd trivial hc
    | exact absurd trivial hc'
    | simp only [entry, Prod.mk.injEq] at hentry
  case extraction.extraction =>
    obtain ⟨rfl, rfl⟩ := versioned_inj hentry.2.2
    rw [hentry.1]
  case tagSchema.tagSchema =>
    obtain ⟨rfl, rfl⟩ := versioned_inj hentry.2.2
    rw [hentry.1]
  case search.search => rw [hentry.1, hentry.2.2]
  case documentStatus.documentStatus => rw [hentry.1, UUID.str_injective hentry.2.2]
  all_goals exact absurd hentry.2.1 (by decide)

end KeyCall

end Ipa
