import Simmis.Models.Catalog
import Simmis.Models.Versions

/-!
# Selecting a model

A selection names a model id, or a family with a version or the latest one. It is resolved to the
preferred model while it is usable, else to the newest usable version of its family that is newer
than the preferred one.
-/

namespace Simmis.Models

open List Option

/-! ## Providers -/

inductive Provider where
  | openai | fireworks | anthropic | codexSubscription
  | other (name : String)
deriving DecidableEq, Repr

inductive ApiType where
  | openaiChat | anthropicMessages | openaiResponses
  | other (name : String)
deriving DecidableEq, Repr

structure ProviderContract where
  credentialSource : String
  /-- `:credential-check :codex-login` -/
  codexLogin : Bool
  catalogRequired : Bool
  implementedApiTypes : List ApiType
deriving DecidableEq, Repr

/-- `provider-contracts` -/
def providerContract : Provider → Option ProviderContract
  | .openai => some ⟨"OPENAI_API_KEY", false, true, [.openaiChat]⟩
  | .fireworks => some ⟨"FIREWORKS_API_KEY", false, true, [.openaiChat]⟩
  | .anthropic => some ⟨"ANTHROPIC_API_KEY", false, true, [.anthropicMessages]⟩
  | .codexSubscription => some ⟨"a ChatGPT login (codex login)", true, false, [.openaiResponses]⟩
  | .other _ => none

/-- A definition of the registry. -/
structure Definition where
  id : ModelId
  provider : Option Provider
  apiType : ApiType
deriving DecidableEq, Repr

/-- The registry of dvergr, which lists the definitions that it gives. -/
structure Registry where
  getModel : ModelId → Option Definition
  listModels : List Definition
  listed : ∀ {id d}, getModel id = some d → d ∈ listModels ∧ d.id = id

/-- What one resolution reads. Of an endpoint only the provider is read. -/
structure Machine where
  env : String → Option String
  codexLogin : Bool
  registry : Registry
  endpoints : List (EndpointState Provider ModelId)
  /-- The order that a set of ids is read in. -/
  setOrder : List ModelId → List ModelId
  mem_setOrder : ∀ {ids id}, id ∈ setOrder ids ↔ id ∈ ids

variable (M : Machine) (provider : Option Provider)

/-- `credential-present?` -/
def Machine.credentialPresent : Bool :=
  match provider.bind providerContract with
  | none => false
  | some contract =>
    if contract.codexLogin then M.codexLogin
    else (M.env contract.credentialSource).any fun s ↦ s ≠ ""

/-! ## Availability -/

inductive CatalogReachability where
  | notRequired | notConfigured
  | fetched (reachability : Reachability)
deriving DecidableEq, Repr

structure CatalogStatus where
  reachability : CatalogReachability
  lastSuccessAt : Option ℤ
  servedModelIds : List ModelId
deriving DecidableEq, Repr

def catalogRequired (provider : Option Provider) : Bool :=
  (provider.bind providerContract).any ProviderContract.catalogRequired

/-- The state of the provider's endpoint. -/
def Machine.endpointState (provider : Provider) : Option (EndpointState Provider ModelId) :=
  M.endpoints.find? fun state ↦ state.endpoint = provider

/-- `provider-catalog-status` -/
def Machine.providerCatalogStatus : CatalogStatus :=
  if ¬catalogRequired provider then ⟨.notRequired, none, []⟩
  else if ¬M.credentialPresent provider then ⟨.notConfigured, none, []⟩
  else
    match provider.bind M.endpointState with
    | some state =>
      ⟨.fetched state.reachability, state.lastSuccessAt,
        M.setOrder (state.models.map Record.modelId)⟩
    | none => ⟨.fetched .temporarilyUnreachable, none, []⟩

inductive AvailabilityState where
  | notImplemented | needsCredential | credentialRejected | temporarilyUnreachable
  | unavailableToAccount | available
deriving DecidableEq, Repr

inductive AvailabilityReason where
  | providerAdapterMissing | registryMissing | adapterMissing
deriving DecidableEq, Repr

structure Facts where
  providerKnown : Bool
  credentialPresent : Bool
  registered : Bool
  implemented : Bool
  catalogRequired : Bool
  catalogReachability : CatalogReachability
  served : Bool
deriving DecidableEq, Repr

/-- `availability-state` -/
def availabilityState (facts : Facts) : AvailabilityState :=
  if ¬facts.providerKnown then .notImplemented
  else if ¬facts.credentialPresent then .needsCredential
  else if ¬facts.registered then .notImplemented
  else if ¬facts.implemented then .notImplemented
  else if facts.catalogRequired ∧ facts.catalogReachability = .fetched .credentialRejected then
    .credentialRejected
  else if facts.catalogRequired ∧ facts.catalogReachability = .fetched .temporarilyUnreachable then
    .temporarilyUnreachable
  else if facts.catalogRequired ∧ ¬facts.served then .unavailableToAccount
  else .available

/-- `availability-reason` -/
def availabilityReason (facts : Facts) : Option AvailabilityReason :=
  match availabilityState facts with
  | .notImplemented =>
    if ¬facts.providerKnown then some .providerAdapterMissing
    else if ¬facts.registered then some .registryMissing
    else if ¬facts.implemented then some .adapterMissing
    else none
  | _ => none

structure Availability where
  facts : Facts
  state : AvailabilityState
  reason : Option AvailabilityReason
  available : Bool
  provider : Option Provider
  modelId : Option ModelId
  credentialSource : Option String
  lastSuccessAt : Option ℤ
deriving DecidableEq, Repr

/-- `infer-provider` -/
def Machine.inferProvider (idOrFamily : ModelId) : Option Provider :=
  ((M.registry.getModel idOrFamily).bind Definition.provider).or <|
  ((M.registry.listModels.find? fun d ↦ familyOf d.id = some idOrFamily).bind
    Definition.provider).or <|
  if "accounts/fireworks/models/".toList.isPrefixOf idOrFamily then some .fireworks
  else if "gpt-".toList.isPrefixOf idOrFamily then some .openai
  else if "claude-".toList.isPrefixOf idOrFamily then some .anthropic
  else none

/-- `model-availability` -/
def Machine.modelAvailability (modelId : Option ModelId) : Availability :=
  let contract := provider.bind providerContract
  let definition := modelId.bind M.registry.getModel
  let registered := definition.any fun d ↦ provider = d.provider
  let implemented := registered ∧
    definition.any fun d ↦ contract.any fun c ↦ d.apiType ∈ c.implementedApiTypes
  let catalogStatus := M.providerCatalogStatus provider
  let facts : Facts :=
    { providerKnown := contract.isSome
      credentialPresent := M.credentialPresent provider
      registered
      implemented
      catalogRequired := catalogRequired provider
      catalogReachability := catalogStatus.reachability
      served := ¬catalogRequired provider ∨ modelId.any fun id ↦ id ∈ catalogStatus.servedModelIds }
  { facts
    state := availabilityState facts
    reason := availabilityReason facts
    available := availabilityState facts = .available
    provider
    modelId
    credentialSource := contract.map ProviderContract.credentialSource
    lastSuccessAt := catalogStatus.lastSuccessAt }

/-- `available-model?` -/
def Machine.availableModel (modelId : ModelId) : Bool :=
  (M.modelAvailability provider (some modelId)).available

/-! ## Versions of a family -/

variable (family : ModelId)

/-- `known-versions-in`: last known served or registered versions, newest first. -/
def Machine.knownVersionsIn : List ModelId :=
  let provider := provider.or (M.inferProvider family)
  let served := (M.providerCatalogStatus provider).servedModelIds.filter
    fun id ↦ familyOf id = some family
  let registered := ((M.registry.listModels.filter fun d ↦ provider = d.provider).map
    Definition.id).filter fun id ↦ familyOf id = some family
  ((served ++ registered).filterMap versionOf).eraseDups.mergeSort
    fun v w ↦ versionKey w ≤ versionKey v

/-- `newest-usable` -/
def Machine.newestUsable : Option ModelId :=
  let provider := provider.or (M.inferProvider family)
  ((M.knownVersionsIn provider family).filter
    fun v ↦ M.availableModel provider (idFor (some family) (some v))).head?

/-- `newest-supported` -/
def Machine.newestSupported : Option ModelId :=
  let implemented := ((provider.bind providerContract).map
    ProviderContract.implementedApiTypes).getD []
  ((M.knownVersionsIn provider family).filter fun v ↦
    (M.registry.getModel (idFor (some family) (some v))).any fun d ↦
      provider = d.provider ∧ d.apiType ∈ implemented).head?

/-- `newer-version?` -/
def newerVersion (candidate preferred : ModelId) : Bool :=
  versionKey preferred < versionKey candidate

/-- `newest-usable-after` -/
def Machine.newestUsableAfter (family preferred : ModelId) :
    Option ModelId :=
  (((M.knownVersionsIn provider family).filter fun v ↦ newerVersion v preferred).filter
    fun v ↦ M.availableModel provider (idFor (some family) (some v))).head?

/-! ## Resolution -/

inductive VersionChoice where
  | auto
  | text (version : ModelId)
deriving DecidableEq, Repr

/-- A stored or incoming selection -/
structure Selection where
  model : Option ModelId
  family : Option ModelId
  version : Option VersionChoice
  provider : Option Provider
deriving DecidableEq, Repr

/-- `auto-version?` -/
def autoVersion (version : Option VersionChoice) : Bool :=
  version.all fun
    | .auto => true
    | .text version => version = "auto".toList

namespace Selection

variable (s : Selection)

def explicitModel : Option ModelId := if s.family.isSome then none else s.model

/-- `latest?` -/
def latest : Bool := s.family.isSome ∧ autoVersion s.version

def preferredFamily : Option ModelId :=
  if s.latest then none else s.family.or (s.explicitModel.bind familyOf)

/-- The version of a selection that names one. -/
def statedVersion : Option ModelId :=
  if s.family.isSome then
    s.version.bind fun
      | .auto => none
      | .text version => some version
  else none

def preferredVersion : Option ModelId :=
  if s.latest then none else s.statedVersion.or (s.explicitModel.bind versionOf)

/-- `preferred?` -/
def preferred : Bool := s.preferredFamily.isSome ∧ s.preferredVersion.isSome

def preferredModel : Option ModelId :=
  if s.preferred then
    s.explicitModel.or (some (idFor s.preferredFamily s.preferredVersion))
  else s.explicitModel

/-- The provider, given or inferred. -/
def providerIn (M : Machine) : Option Provider :=
  s.provider.or ((s.explicitModel.or s.family).bind M.inferProvider)

end Selection

inductive SelectionKind where
  | unconfigured | latest | preferredVersion | exactModel
deriving DecidableEq, Repr

inductive FallbackReason where
  | preferredVersionUnavailable
deriving DecidableEq, Repr

structure Resolution where
  selectionKind : SelectionKind
  candidate : Option ModelId
  model : Option ModelId
  provider : Option Provider
  availability : Option Availability
  preferred : Bool
  preferredModel : Option ModelId
  preferredFamily : Option ModelId
  preferredVersion : Option ModelId
  preferredAvailability : Option Availability
  fallback : Bool
  fallbackModel : Option ModelId
  fallbackVersion : Option ModelId
  fallbackReason : Option FallbackReason
  available : Bool
deriving DecidableEq, Repr

/-- The latest usable version, or else the newest supported or known one. -/
def Machine.latestCandidate : Option ModelId :=
  ((M.newestUsable provider family).or <|
    (M.newestSupported provider family).or (M.knownVersionsIn provider family).head?).map
      fun v ↦ idFor (some family) (some v)

/-- `resolve-selection` -/
def Machine.resolveSelection (s : Selection) : Resolution :=
  if s.model.isNone ∧ s.family.isNone then
    { selectionKind := .unconfigured, candidate := none, model := none, provider := none
      availability := none, preferred := false, preferredModel := none, preferredFamily := none
      preferredVersion := none, preferredAvailability := none, fallback := false
      fallbackModel := none, fallbackVersion := none, fallbackReason := none, available := false }
  else
    let provider := s.providerIn M
    let preferredAvailability :=
      s.preferredModel.map fun id ↦ M.modelAvailability provider (some id)
    let preferredUsable := preferredAvailability.any Availability.available
    let latestCandidate := if s.latest then s.family.bind (M.latestCandidate provider) else none
    let latestAvailability :=
      if s.latest then some (M.modelAvailability provider latestCandidate) else none
    let fallbackVersion :=
      if s.preferred ∧ ¬preferredUsable then
        s.preferredFamily.bind fun family ↦
          s.preferredVersion.bind (M.newestUsableAfter provider family)
      else none
    let fallbackModel := fallbackVersion.map fun v ↦ idFor s.preferredFamily (some v)
    let fallbackAvailability := fallbackModel.map fun id ↦ M.modelAvailability provider (some id)
    let fallback := fallbackAvailability.any Availability.available
    let model :=
      if s.latest then
        if latestAvailability.any Availability.available then latestCandidate else none
      else if preferredUsable then s.preferredModel
      else if fallback then fallbackModel
      else none
    { selectionKind :=
        if s.latest then .latest else if s.preferred then .preferredVersion else .exactModel
      candidate := if s.latest then latestCandidate else s.preferredModel
      model
      provider
      availability :=
        if s.latest then latestAvailability
        else if fallback then fallbackAvailability
        else preferredAvailability
      preferred := s.preferred
      preferredModel := if s.preferred then s.preferredModel else none
      preferredFamily := if s.preferred then s.preferredFamily else none
      preferredVersion := if s.preferred then s.preferredVersion else none
      preferredAvailability := if s.preferred then preferredAvailability else none
      fallback
      fallbackModel := if fallback then fallbackModel else none
      fallbackVersion := if fallback then fallbackVersion else none
      fallbackReason := if fallback then some .preferredVersionUnavailable else none
      available := model.isSome }

/-- The endpoint of the provider answered and lists the model. -/
def Machine.Serves (provider : Provider) (modelId : ModelId) : Prop :=
  ∃ state, M.endpointState provider = some state ∧ state.reachability = .reachable ∧
    ∃ r ∈ state.models, r.modelId = modelId

/-- There is a credential, an adapter, and a place in a catalog that is needed. -/
structure Machine.Usable (provider : Provider) (modelId : ModelId) : Prop where
  credential : M.credentialPresent (some provider)
  implemented : ∃ contract d, providerContract provider = some contract ∧
    M.registry.getModel modelId = some d ∧ d.provider = some provider ∧
      d.apiType ∈ contract.implementedApiTypes
  served : catalogRequired (some provider) → M.Serves provider modelId

variable {M}

theorem availabilityState_available {facts : Facts} : availabilityState facts = .available ↔
      facts.providerKnown ∧ facts.credentialPresent ∧ facts.registered ∧ facts.implemented ∧
        (facts.catalogRequired → facts.catalogReachability ≠ .fetched .credentialRejected ∧
          facts.catalogReachability ≠ .fetched .temporarilyUnreachable ∧ facts.served) := by
  rw [availabilityState]
  split_ifs <;> simp_all

theorem serves_iff {p : Provider} {id : ModelId} (hrequired : catalogRequired (some p))
    (hcredential : M.credentialPresent (some p)) : M.Serves p id ↔
      (M.providerCatalogStatus (some p)).reachability ≠ .fetched .credentialRejected ∧
        (M.providerCatalogStatus (some p)).reachability ≠ .fetched .temporarilyUnreachable ∧
          id ∈ (M.providerCatalogStatus (some p)).servedModelIds := by
  rw [Machine.providerCatalogStatus, if_neg (by simpa using hrequired),
    if_neg (by simpa using hcredential), bind_some]
  cases hstate : M.endpointState p with
  | none => simp [Machine.Serves, hstate]
  | some state =>
    simp only [Machine.Serves, hstate, some.injEq, exists_eq_left', M.mem_setOrder,
      List.mem_map, ne_eq, CatalogReachability.fetched.injEq]
    cases state.reachability <;> simp

theorem availableModel_iff {provider : Option Provider} {id : ModelId} :
    M.availableModel provider id ↔ ∃ p, provider = some p ∧ M.Usable p id := by
  simp only [Machine.availableModel, Machine.modelAvailability, decide_eq_true_eq,
    availabilityState_available]
  cases provider with
  | none => simp
  | some p =>
    simp only [bind_some, some.injEq, exists_eq_left']
    constructor
    · rintro ⟨_, hcredential, hregistered, himplemented, hserved⟩
      refine ⟨hcredential, ?_, fun hrequired ↦ ?_⟩
      · obtain ⟨d, hd, hprovider⟩ := (any_eq_true _ _).mp hregistered
        obtain ⟨_, himplemented⟩ := himplemented
        rw [hd, Option.any_some, Option.any_eq_true] at himplemented
        obtain ⟨contract, hcontract, htype⟩ := himplemented
        exact ⟨contract, d, hcontract, hd, (of_decide_eq_true hprovider).symm,
          of_decide_eq_true htype⟩
      · obtain ⟨hrejected, hunreachable, hmem⟩ := hserved hrequired
        rw [serves_iff hrequired hcredential]
        exact ⟨hrejected, hunreachable, by simpa [hrequired] using hmem⟩
    · rintro ⟨hcredential, ⟨contract, d, hcontract, hd, hprovider, htype⟩, hserved⟩
      refine ⟨by simp [hcontract], hcredential, by simp [hd, hprovider],
        by simp [hd, hprovider, hcontract, htype], fun hrequired ↦ ?_⟩
      obtain ⟨hrejected, hunreachable, hmem⟩ :=
        (serves_iff hrequired hcredential).mp (hserved hrequired)
      exact ⟨hrejected, hunreachable, by simpa [hrequired] using hmem⟩

theorem not_usable {provider : Option Provider} {p : Provider} {id : ModelId}
    (h : M.availableModel provider id = false) (hp : provider = some p) : ¬M.Usable p id := by
  intro husable
  rw [availableModel_iff.mpr ⟨p, hp, husable⟩] at h
  cases h

/-- The id is known or registered for the provider. -/
def Machine.Knows (M : Machine) (provider : Option Provider) (id : ModelId) : Prop :=
  id ∈ (M.providerCatalogStatus provider).servedModelIds ∨
    ∃ d ∈ M.registry.listModels, d.provider = provider ∧ d.id = id

variable {provider : Option Provider} {p : Provider} {id family v w : ModelId}

/-- The known versions are those of the ids of the family. -/
theorem mem_knownVersionsIn : v ∈ M.knownVersionsIn provider family ↔
      ∃ id, M.Knows (provider.or (M.inferProvider family)) id ∧ familyOf id = some family ∧
        versionOf id = some v := by
  rw [Machine.knownVersionsIn, mem_mergeSort, mem_eraseDups, mem_filterMap]
  refine exists_congr fun id ↦ ?_
  rw [← and_assoc]
  refine and_congr_left fun _ ↦ ?_
  simp only [List.mem_append, List.mem_filter, List.mem_map, decide_eq_true_eq, Machine.Knows]
  rw [← or_and_right]
  refine and_congr_left fun _ ↦ or_congr_right (exists_congr fun d ↦ ?_)
  rw [and_assoc, eq_comm (a := provider.or _)]

theorem knownVersionsIn_pairwise :
    (M.knownVersionsIn provider family).Pairwise fun v w ↦ versionKey w ≤ versionKey v := by
  let newestFirst (v w : ModelId) : Bool := versionKey w ≤ versionKey v
  have htrans : ∀ u v w, newestFirst u v → newestFirst v w → newestFirst u w :=
    fun _ _ _ huv hvw ↦ decide_eq_true (le_trans (of_decide_eq_true hvw) (of_decide_eq_true huv))
  have htotal : ∀ v w, newestFirst v w || newestFirst w v := by
    intro v w
    simpa [newestFirst] using le_total (versionKey w) (versionKey v)
  exact (pairwise_mergeSort htrans htotal _).imp of_decide_eq_true

/-- The first version kept of those that go down is the newest of all that are kept. -/
theorem le_head_filter {versions : List ModelId} {good : ModelId → Bool}
    (hsorted : versions.Pairwise fun v w ↦ versionKey w ≤ versionKey v)
    (hhead : (versions.filter good).head? = some v) (hw : w ∈ versions) (hgood : good w) :
    versionKey w ≤ versionKey v := by
  have hkept : w ∈ versions.filter good := mem_filter.mpr ⟨hw, hgood⟩
  have hpairwise := hsorted.sublist (filter_sublist (p := good))
  obtain ⟨rest, hrest⟩ := head?_eq_some_iff.mp hhead
  rw [hrest] at hkept hpairwise
  rcases mem_cons.mp hkept with rfl | hkept
  · exact le_rfl
  · exact rel_of_pairwise_cons hpairwise hkept

/-- A usable model is registered, so its version is known. -/
theorem Machine.Usable.known (h : M.Usable p id) (hfamily : familyOf id = some family)
    (hversion : versionOf id = some v) : v ∈ M.knownVersionsIn (some p) family := by
  obtain ⟨_, d, _, hd, hprovider, _⟩ := h.implemented
  obtain ⟨hlisted, hid⟩ := M.registry.listed hd
  exact mem_knownVersionsIn.mpr ⟨id, .inr ⟨d, hlisted, hprovider, hid⟩, hfamily, hversion⟩

/-- The version is newer than the preferred one, where there is one. -/
def Newer (preferred : Option ModelId) (version : ModelId) : Prop :=
  ∀ v ∈ preferred, versionKey v < versionKey version

/-- The newest usable version of the family above the preferred one. -/
structure Machine.Newest (M : Machine) (p : Provider) (family : ModelId)
    (preferred : Option ModelId) (version : ModelId) : Prop where
  known : ∃ id, M.Knows (some p) id ∧ familyOf id = some family ∧ versionOf id = some version
  usable : M.Usable p (idFor (some family) (some version))
  newer : Newer preferred version
  newest : ∀ id v, M.Usable p id → Plain id → familyOf id = some family → versionOf id = some v →
    Newer preferred v → versionKey v ≤ versionKey version

/-- No usable model of the family is newer than the preferred one. -/
def Machine.Exhausted (M : Machine) (provider : Option Provider) (family : ModelId)
    (preferred : Option ModelId) : Prop :=
  ∀ p id v, provider = some p → M.Usable p id → Plain id → familyOf id = some family →
    versionOf id = some v → ¬Newer preferred v

section Search

variable {preferred : Option ModelId} {good : ModelId → Bool}
  (hgood : ∀ v, good v ↔
    Newer preferred v ∧ M.availableModel provider (idFor (some family) (some v)))

include hgood

theorem head_newest (h : ((M.knownVersionsIn provider family).filter good).head? = some v) :
    ∃ p, provider = some p ∧ M.Newest p family preferred v := by
  have hmem := mem_filter.mp (mem_of_head? h)
  obtain ⟨hnewer, havailable⟩ := (hgood v).mp hmem.2
  obtain ⟨p, rfl, husable⟩ := availableModel_iff.mp havailable
  refine ⟨p, rfl, mem_knownVersionsIn.mp hmem.1, husable, hnewer, ?_⟩
  intro id w hw hplain hfamily hversion hlater
  have hid : idFor (some family) (some w) = id := (idFor_family hversion hfamily).mpr hplain
  refine le_head_filter knownVersionsIn_pairwise h (hw.known hfamily hversion) ?_
  exact (hgood w).mpr ⟨hlater, availableModel_iff.mpr ⟨p, rfl, by rwa [hid]⟩⟩

theorem head_exhausted (h : ((M.knownVersionsIn provider family).filter good).head? = none) :
    M.Exhausted provider family preferred := by
  rintro p id w rfl hw hplain hfamily hversion hlater
  have hid : idFor (some family) (some w) = id := (idFor_family hversion hfamily).mpr hplain
  rw [head?_eq_none_iff, filter_eq_nil_iff] at h
  refine h w (hw.known hfamily hversion) ((hgood w).mpr ⟨hlater, ?_⟩)
  exact availableModel_iff.mpr ⟨p, rfl, by rwa [hid]⟩

end Search

theorem newer_none : Newer none v := by
  intro _ h
  cases h

theorem newer_some {preferred : ModelId} : Newer (some preferred) v ↔ newerVersion v preferred := by
  simp [Newer, newerVersion]

/-- The newest usable version is known, and no known one that is usable is newer. -/
theorem newestUsable_max (h : M.newestUsable provider family = some v) :
    v ∈ M.knownVersionsIn provider family ∧ ∀ w ∈ M.knownVersionsIn provider family,
      M.availableModel (provider.or (M.inferProvider family)) (idFor (some family) (some w)) →
        versionKey w ≤ versionKey v := by
  have hknown : M.knownVersionsIn (provider.or (M.inferProvider family)) family =
      M.knownVersionsIn provider family := by
    simp only [Machine.knownVersionsIn, Option.or_assoc, Option.or_self]
  rw [Machine.newestUsable, hknown] at h
  refine ⟨(mem_filter.mp (mem_of_head? h)).1, fun w hw havailable ↦ ?_⟩
  exact le_head_filter knownVersionsIn_pairwise h hw havailable

/-- What `newest-usable` answers. -/
theorem newestUsable_spec (hprovider : provider.or (M.inferProvider family) = provider) :
    (∀ v, M.newestUsable provider family = some v →
      ∃ p, provider = some p ∧ M.Newest p family none v) ∧
    (M.newestUsable provider family = none → M.Exhausted provider family none) := by
  have hgood : ∀ v, M.availableModel provider (idFor (some family) (some v)) ↔
      Newer none v ∧ M.availableModel provider (idFor (some family) (some v)) :=
    fun v ↦ (and_iff_right newer_none).symm
  rw [Machine.newestUsable, hprovider]
  exact ⟨fun v ↦ head_newest hgood, head_exhausted hgood⟩

/-- Ids are made again from families and versions, and the newest usable version is one of the
family's own. -/
theorem ids_decompose :
    (∀ id, versionOf id = none → familyOf id = none ∧ idFor (familyOf id) (versionOf id) = []) ∧
    (∀ id v, versionOf id = some v → ∃ f, familyOf id = some f ∧
      (idFor (familyOf id) (versionOf id) = id ↔ Plain id)) ∧
    (∀ id f other w, familyOf id = some f → versionOf other = some w →
      (familyOf (idFor (some f) (some w)) = some f ∧ versionOf (idFor (some f) (some w)) = some w ↔
        w ∉ tokens f ∧ Whole f)) ∧ ∀ (M : Machine) provider family,
      (∀ v, v ∈ M.knownVersionsIn provider family ↔
        ∃ id, M.Knows (provider.or (M.inferProvider family)) id ∧ familyOf id = some family ∧
          versionOf id = some v) ∧ ∀ v, M.newestUsable provider family = some v →
        v ∈ M.knownVersionsIn provider family ∧ ∀ w ∈ M.knownVersionsIn provider family,
          M.availableModel (provider.or (M.inferProvider family)) (idFor (some family) (some w)) →
            versionKey w ≤ versionKey v := by
  refine ⟨fun id hv ↦ ?_, fun id v hv ↦ ?_, fun id f other w hf hw ↦ ?_,
    fun M provider family ↦ ⟨fun v ↦ mem_knownVersionsIn, fun v h ↦ ?_⟩⟩
  · rw [hv, familyOf_eq_none.mpr hv]
    exact ⟨rfl, rfl⟩
  · obtain ⟨f, hf⟩ := ne_none_iff_exists'.mp fun hf ↦ by
      rw [familyOf_eq_none, hv] at hf
      cases hf
    rw [hv, hf]
    exact ⟨f, rfl, idFor_family hv hf⟩
  · constructor
    · exact fun h ↦ (familyOf_fill hf hw).mp h.1
    · exact fun h ↦ ⟨(familyOf_fill hf hw).mpr h, versionOf_fill hf hw h.2⟩
  · exact newestUsable_max h

/-- An id without a version is not made again, nor one with the placeholder or a dash at its end. -/
theorem ids_not_decomposed : idFor (familyOf "gpt-oss".toList) (versionOf "gpt-oss".toList) = [] ∧
    idFor (familyOf "gpt-5-".toList) (versionOf "gpt-5-".toList) = "gpt-5".toList ∧
    idFor (familyOf "a*-5".toList) (versionOf "a*-5".toList) = "a5-5".toList ∧
    familyOf "gpt-4-5".toList = some "gpt-4-*".toList ∧ versionOf "gpt-4".toList = some "4".toList ∧
      familyOf (idFor (some "gpt-4-*".toList) (some "4".toList)) = some "gpt-*-*".toList := by
  decide

/-- What `newest-usable-after` answers. -/
theorem newestUsableAfter_spec {preferred : ModelId} :
    (∀ v, M.newestUsableAfter provider family preferred = some v →
      ∃ p, provider = some p ∧ M.Newest p family (some preferred) v) ∧
    (M.newestUsableAfter provider family preferred = none →
      M.Exhausted provider family (some preferred)) := by
  have hgood : ∀ v, (newerVersion v preferred &&
      M.availableModel provider (idFor (some family) (some v))) ↔
        Newer (some preferred) v ∧ M.availableModel provider (idFor (some family) (some v)) := by
    intro v
    rw [Bool.and_eq_true, newer_some]
  have hfilter : M.newestUsableAfter provider family preferred =
      ((M.knownVersionsIn provider family).filter fun v ↦ newerVersion v preferred &&
        M.availableModel provider (idFor (some family) (some v))).head? := by
    rw [Machine.newestUsableAfter, List.filter_filter]
    simp only [Bool.and_comm]
  rw [hfilter]
  exact ⟨fun v ↦ head_newest hgood, head_exhausted hgood⟩

/-- The newest version is one that the id made with it has. -/
theorem Machine.Newest.decomposes {preferred : Option ModelId}
    (h : M.Newest p family preferred v) (hwhole : Whole family) :
    familyOf (idFor (some family) (some v)) = some family ∧
      versionOf (idFor (some family) (some v)) = some v := by
  obtain ⟨id, _, hfamily, hversion⟩ := h.known
  refine ⟨(familyOf_fill hfamily hversion).mpr ⟨?_, hwhole⟩, versionOf_fill hfamily hversion hwhole⟩
  exact version_notMem_tokens hfamily hversion

/-! ## What a selection configures -/

namespace Selection

variable {s : Selection}

/-- The id that the selection names, itself or by a family and a version. -/
def Prefers (s : Selection) (id : ModelId) : Prop :=
  (s.family = none ∧ s.model = some id) ∨
    ∃ family version, s.family = some family ∧ s.version = some (.text version) ∧
      version ≠ "auto".toList ∧ id = idFor (some family) (some version)

/-- The family that the selection names, itself or by an id. -/
def configuredFamily (s : Selection) : Option ModelId := s.family.or (s.model.bind familyOf)

theorem preferredModel_eq_some : s.preferredModel = some id ↔ s.Prefers id := by
  obtain ⟨model, family, version, provider⟩ := s
  cases family with
  | none =>
    cases model with
    | none => simp [preferredModel, preferred, preferredFamily, latest, explicitModel, Prefers]
    | some model => simp [preferredModel, explicitModel, Prefers]
  | some family =>
    rcases version with _ | _ | version
    · simp [preferredModel, preferred, preferredFamily, latest, autoVersion, explicitModel, Prefers]
    · simp [preferredModel, preferred, preferredFamily, latest, autoVersion, explicitModel, Prefers]
    · by_cases hauto : version = "auto".toList
      · simp [preferredModel, preferred, preferredFamily, latest, autoVersion, explicitModel,
          Prefers, hauto]
      · have hlatest : latest ⟨model, some family, some (.text version), provider⟩ = false := by
          simpa [latest, autoVersion] using hauto
        simp only [preferredModel, preferred, preferredFamily, preferredVersion, hlatest,
          explicitModel, statedVersion, Prefers]
        simpa [eq_comm (a := id)] using fun _ ↦ hauto

theorem preferredFamily_eq (hlatest : s.latest = false) :
    s.preferredFamily = s.configuredFamily := by
  obtain ⟨model, family, version, provider⟩ := s
  rw [preferredFamily, hlatest, configuredFamily]
  cases family <;> simp [explicitModel]

/-- A family that is not followed to its latest version is one with a preferred version. -/
theorem preferredVersion_of_family (hlatest : s.latest = false)
    (hfamily : s.preferredFamily = some family) :
    ∃ v, s.preferredVersion = some v ∧ s.preferred := by
  have hversion : ∃ v, s.preferredVersion = some v := by
    obtain ⟨model, family', version, provider⟩ := s
    cases family' with
    | none =>
      obtain ⟨id, hid, hfamily⟩ := bind_eq_some_iff.mp hfamily
      obtain ⟨v, hv, _⟩ := familyOf_eq_some.mp hfamily
      obtain rfl : model = some id := hid
      exact ⟨v, by simp [preferredVersion, hlatest, statedVersion, explicitModel, hv]⟩
    | some family' =>
      rcases version with _ | _ | version
      · simp [latest, autoVersion] at hlatest
      · simp [latest, autoVersion] at hlatest
      · exact ⟨version, by simp [preferredVersion, hlatest, statedVersion]⟩
  obtain ⟨v, hv⟩ := hversion
  exact ⟨v, hv, by simp [preferred, hfamily, hv]⟩

end Selection

/-! ## Resolutions -/

variable {s : Selection}

theorem providerIn_latest (hfamily : s.family = some family) :
    (s.providerIn M).or (M.inferProvider family) = s.providerIn M := by
  rw [Selection.providerIn, Selection.explicitModel, hfamily]
  cases s.provider <;> simp

/-- A candidate that stands in for the latest version is not available. -/
theorem standIn_not_available (hprovider : provider.or (M.inferProvider family) = provider)
    (hnewest : M.newestUsable provider family = none)
    (h : (M.newestSupported provider family).or (M.knownVersionsIn provider family).head? =
      some v) : M.availableModel provider (idFor (some family) (some v)) = false := by
  have hknown : v ∈ M.knownVersionsIn provider family := by
    rcases or_eq_some_iff.mp h with h | ⟨_, h⟩
    · exact (mem_filter.mp (mem_of_head? h)).1
    · exact mem_of_head? h
  rw [Machine.newestUsable, hprovider, head?_eq_none_iff, filter_eq_nil_iff] at hnewest
  simpa using hnewest v hknown

/-- The candidate of the latest version is taken just when it is the newest usable one. -/
theorem latestCandidate_filter (hprovider : provider.or (M.inferProvider family) = provider) :
    (M.latestCandidate provider family).filter (M.availableModel provider) =
      (M.newestUsable provider family).map fun v ↦ idFor (some family) (some v) := by
  cases hnewest : M.newestUsable provider family with
  | some v =>
    obtain ⟨p, hp, hv⟩ := (newestUsable_spec hprovider).1 v hnewest
    have havailable := availableModel_iff.mpr ⟨p, hp, hv.usable⟩
    simp [Machine.latestCandidate, hnewest, Option.filter, havailable]
  | none =>
    rw [map_none, filter_eq_none_iff]
    intro id hid
    rw [Machine.latestCandidate, hnewest, none_or] at hid
    obtain ⟨v, hv, rfl⟩ := map_eq_some_iff.mp hid
    simp [standIn_not_available hprovider hnewest hv]

theorem configured_of_preferredModel (h : s.preferredModel = some id) :
    ¬(s.model = none ∧ s.family = none) := by
  rintro ⟨hmodel, hfamily⟩
  rcases Selection.preferredModel_eq_some.mp h with ⟨_, h⟩ | ⟨_, _, h, _⟩
  · rw [hmodel] at h
    cases h
  · rw [hfamily] at h
    cases h

theorem resolve_unconfigured (hmodel : s.model = none) (hfamily : s.family = none) :
    (M.resolveSelection s).model = none := by
  simp [Machine.resolveSelection, hmodel, hfamily]

theorem resolve_available :
    (M.resolveSelection s).available = (M.resolveSelection s).model.isSome := by
  rw [Machine.resolveSelection]
  split <;> rfl

theorem resolve_provider (h : (M.resolveSelection s).model = some id) :
    (M.resolveSelection s).provider = s.providerIn M := by
  rw [Machine.resolveSelection] at h ⊢
  split at h
  · cases h
  · rename_i hconfigured
    rw [if_neg hconfigured]

theorem preferredModel_of_preferred (h : s.preferred) : ∃ id, s.preferredModel = some id := by
  rw [Selection.preferredModel, if_pos h]
  cases s.explicitModel with
  | none => exact ⟨_, rfl⟩
  | some id => exact ⟨id, rfl⟩

/-- A registry of given definitions. -/
def Registry.ofList (definitions : List Definition) : Registry where
  getModel id := definitions.find? fun d ↦ d.id = id
  listModels := definitions
  listed h := ⟨List.mem_of_find?_eq_some h, by simpa using List.find?_some h⟩

/-- A machine with a Codex login and no catalog. -/
def codexMachine (ids : List String) : Machine where
  env _ := none
  codexLogin := true
  registry := .ofList <| ids.map fun id ↦
    ⟨id.toList, some .codexSubscription, .openaiResponses⟩
  endpoints := []
  setOrder ids := ids
  mem_setOrder := Iff.rfl

section

variable (hlatest : s.latest)
include hlatest

theorem preferred_eq_false : s.preferred = false := by
  simp [Selection.preferred, Selection.preferredFamily, hlatest]

theorem latest_family : ∃ family, s.family = some family := by
  rw [Selection.latest, decide_eq_true_eq] at hlatest
  exact isSome_iff_exists.mp hlatest.1

/-- What a latest selection resolves to. -/
theorem resolve_latest (hfamily : s.family = some family) : (M.resolveSelection s).model =
        (M.newestUsable (s.providerIn M) family).map (fun v ↦ idFor (some family) (some v)) ∧
      (M.resolveSelection s).fallback = false := by
  have hpreferred := preferred_eq_false hlatest
  constructor
  · rw [← latestCandidate_filter (providerIn_latest hfamily)]
    simp only [Machine.resolveSelection, hfamily, hlatest]
    cases hcandidate : M.latestCandidate (s.providerIn M) family with
    | none => simp [hcandidate]
    | some id =>
      cases havailable : (M.modelAvailability (s.providerIn M) (some id)).available <;>
        simp [hcandidate, havailable, Option.filter, Machine.availableModel]
  · simp [Machine.resolveSelection, hfamily, hpreferred]

theorem preferredVersion_latest : s.preferredVersion = none := by
  rw [Selection.preferredVersion, if_pos hlatest]

theorem preferredModel_latest : s.preferredModel = none := by
  obtain ⟨family, hfamily⟩ := latest_family hlatest
  simp [Selection.preferredModel, preferred_eq_false hlatest, Selection.explicitModel, hfamily]

/-- A latest selection gives the newest usable version of its family. -/
theorem latest_model (h : (M.resolveSelection s).model = some id) :
    ∃ p family v, s.providerIn M = some p ∧ s.configuredFamily = some family ∧
      id = idFor (some family) (some v) ∧ M.Newest p family s.preferredVersion v := by
  obtain ⟨family, hfamily⟩ := latest_family hlatest
  rw [(resolve_latest hlatest hfamily).1] at h
  obtain ⟨v, hv, rfl⟩ := map_eq_some_iff.mp h
  obtain ⟨p, hp, hnewest⟩ := (newestUsable_spec (providerIn_latest hfamily)).1 v hv
  rw [preferredVersion_latest hlatest]
  exact ⟨p, family, v, hp, by simp [Selection.configuredFamily, hfamily], rfl, hnewest⟩

end

/-- The latest version on such a machine, where one is known. -/
theorem codexMachine_latest {ids : List String} {family : ModelId} (version : ModelId)
    (hknown : (((ids.map String.toList).filter fun id ↦ familyOf id = some family).filterMap
      versionOf).eraseDups = [version]) :
    ((codexMachine ids).resolveSelection ⟨none, some family, none, some .codexSubscription⟩).model =
      if (codexMachine ids).availableModel (some .codexSubscription)
        (idFor (some family) (some version)) then some (idFor (some family) (some version))
      else none := by
  have hversions : (codexMachine ids).knownVersionsIn (some .codexSubscription) family =
      [version] := by
    have hserved : ((codexMachine ids).providerCatalogStatus
        (some .codexSubscription)).servedModelIds = [] := rfl
    have hregistered : ((codexMachine ids).registry.listModels.filter fun d ↦
        some .codexSubscription = d.provider).map Definition.id = ids.map String.toList := by
      simp [codexMachine, Registry.ofList, List.filter_map, Function.comp_def]
    rw [Machine.knownVersionsIn, some_or, hserved, hregistered, filter_nil,
      nil_append, hknown, mergeSort_singleton]
  have hfamily : (⟨none, some family, none, some .codexSubscription⟩ : Selection).family =
      some family := rfl
  have hprovider : (⟨none, some family, none, some .codexSubscription⟩ : Selection).providerIn
      (codexMachine ids) = some .codexSubscription := rfl
  rw [(resolve_latest rfl hfamily).1, hprovider, Machine.newestUsable, some_or, hversions,
    filter_singleton]
  cases (codexMachine ids).availableModel (some .codexSubscription)
    (idFor (some family) (some version)) <;> rfl

/-- Codex models need no catalog, and ids with the placeholder or a dash at the end are not found
again. -/
theorem selection_leaves_configured : (((codexMachine ["gpt-5.5"]).resolveSelection
        ⟨some "gpt-5.5".toList, none, none, some .codexSubscription⟩).model =
          some "gpt-5.5".toList ∧
      (codexMachine ["gpt-5.5"]).endpoints = []) ∧ (((codexMachine ["gpt-4-turbo"]).resolveSelection
        ⟨none, some "gpt-*".toList, some (.text "4-turbo".toList), some .codexSubscription⟩).model =
          some "gpt-4-turbo".toList ∧
      familyOf "gpt-4-turbo".toList = some "gpt-*-turbo".toList) ∧
    (((codexMachine ["a*-5", "a5-5"]).resolveSelection
        ⟨none, some "a*-*".toList, none, some .codexSubscription⟩).model =
          some "a5-5".toList ∧
      familyOf "a5-5".toList = some "a5-*".toList) ∧ ((codexMachine ["gpt-6-"]).resolveSelection
        ⟨none, some "gpt-*".toList, none, some .codexSubscription⟩).model = none ∧
      (codexMachine ["gpt-6-"]).availableModel (some .codexSubscription) "gpt-6-".toList ∧
      familyOf "gpt-6-".toList = some "gpt-*".toList := by
  refine ⟨⟨by decide, rfl⟩, ⟨by decide, by decide⟩, ⟨?_, by decide⟩, ?_, by decide, by decide⟩
  · rw [codexMachine_latest "5".toList (by decide)]
    decide
  · rw [codexMachine_latest "6".toList (by decide)]
    decide

section

variable (hlatest : s.latest = false)
include hlatest

theorem unconfigured_of_preferredModel (h : s.preferredModel = none) :
    s.model = none ∧ s.family = none := by
  have hnone : ∀ id, ¬s.Prefers id := fun id hid ↦ by
    rw [← Selection.preferredModel_eq_some, h] at hid
    cases hid
  obtain ⟨model, family, version, provider⟩ := s
  cases family with
  | none =>
    cases model with
    | none => exact ⟨rfl, rfl⟩
    | some model => exact absurd (.inl ⟨rfl, rfl⟩) (hnone model)
  | some family =>
    rcases version with _ | _ | version
    · simp [Selection.latest, autoVersion] at hlatest
    · simp [Selection.latest, autoVersion] at hlatest
    · have hauto : version ≠ "auto".toList := by simpa [Selection.latest, autoVersion] using hlatest
      exact absurd (.inr ⟨family, version, rfl, rfl, hauto, rfl⟩) (hnone _)

theorem resolve_preferred (hmodel : s.preferredModel = some id)
    (havailable : M.availableModel (s.providerIn M) id) :
    (M.resolveSelection s).model = some id ∧ (M.resolveSelection s).fallback = false := by
  rw [Machine.availableModel] at havailable
  have hsome := configured_of_preferredModel hmodel
  simp [Machine.resolveSelection, hsome, hlatest, hmodel, havailable]

theorem resolve_exact (hpreferred : s.preferred = false) (hmodel : s.preferredModel = some id)
    (havailable : M.availableModel (s.providerIn M) id = false) :
    (M.resolveSelection s).model = none ∧ (M.resolveSelection s).fallback = false := by
  rw [Machine.availableModel] at havailable
  have hsome := configured_of_preferredModel hmodel
  simp [Machine.resolveSelection, hsome, hlatest, hmodel, hpreferred, havailable]

theorem resolve_fallback (hfamily : s.preferredFamily = some family)
    (hversion : s.preferredVersion = some v) (hmodel : s.preferredModel = some id)
    (havailable : M.availableModel (s.providerIn M) id = false) :
    (M.resolveSelection s).model = (M.newestUsableAfter (s.providerIn M) family v).map
        (fun w ↦ idFor (some family) (some w)) ∧
      (M.resolveSelection s).fallback = (M.newestUsableAfter (s.providerIn M) family v).isSome := by
  rw [Machine.availableModel] at havailable
  have hsome := configured_of_preferredModel hmodel
  have hpreferred : s.preferred := by simp [Selection.preferred, hfamily, hversion]
  cases hnewest : M.newestUsableAfter (s.providerIn M) family v with
  | none =>
    simp [Machine.resolveSelection, hsome, hlatest, hmodel, hpreferred, havailable, hfamily,
      hversion, hnewest]
  | some w =>
    obtain ⟨p, hp, hw⟩ := newestUsableAfter_spec.1 w hnewest
    have hfallback := availableModel_iff.mpr ⟨p, hp, hw.usable⟩
    rw [Machine.availableModel] at hfallback
    simp [Machine.resolveSelection, hsome, hlatest, hmodel, hpreferred, havailable, hfamily,
      hversion, hnewest, hfallback]

/-- A selection that is not a latest one gives the preferred model, or the newest usable version
after it. -/
theorem preferred_model (h : (M.resolveSelection s).model = some id) :
    (s.Prefers id ∧ (M.resolveSelection s).fallback = false ∧
        ∃ p, s.providerIn M = some p ∧ M.Usable p id) ∨
      ∃ preferred family w p v, s.Prefers preferred ∧ s.configuredFamily = some family ∧
        s.preferredVersion = some w ∧ s.providerIn M = some p ∧ ¬M.Usable p preferred ∧
          id = idFor (some family) (some v) ∧ M.Newest p family (some w) v ∧
            (M.resolveSelection s).fallback := by
  cases hmodel : s.preferredModel with
  | none =>
    obtain ⟨hnone, hfamily⟩ := unconfigured_of_preferredModel hlatest hmodel
    rw [resolve_unconfigured hnone hfamily] at h
    cases h
  | some preferred =>
    have hprefers := Selection.preferredModel_eq_some.mp hmodel
    cases havailable : M.availableModel (s.providerIn M) preferred with
    | true =>
      obtain ⟨hresolved, hfallback⟩ := resolve_preferred hlatest hmodel havailable
      obtain rfl : preferred = id := by simpa [hresolved] using h
      exact .inl ⟨hprefers, hfallback, availableModel_iff.mp havailable⟩
    | false =>
      cases hpreferred : s.preferred with
      | false =>
        rw [(resolve_exact hlatest hpreferred hmodel havailable).1] at h
        cases h
      | true =>
        rw [Selection.preferred, decide_eq_true_eq] at hpreferred
        obtain ⟨family, hfamily⟩ := isSome_iff_exists.mp hpreferred.1
        obtain ⟨w, hw⟩ := isSome_iff_exists.mp hpreferred.2
        obtain ⟨hresolved, hfallback⟩ := resolve_fallback hlatest hfamily hw hmodel havailable
        rw [hresolved] at h
        obtain ⟨v, hv, rfl⟩ := map_eq_some_iff.mp h
        obtain ⟨p, hp, hnewest⟩ := newestUsableAfter_spec.1 v hv
        refine .inr ⟨preferred, family, w, p, v, hprefers, ?_, hw, hp, not_usable havailable hp,
          rfl, hnewest, ?_⟩
        · rw [← Selection.preferredFamily_eq hlatest, hfamily]
        · rw [hfallback, hv]
          rfl

end

/-- Nothing is given where neither the preferred model nor a newer one is usable. -/
theorem model_none (h : (M.resolveSelection s).model = none) :
    (∀ p id, s.providerIn M = some p → s.Prefers id → ¬M.Usable p id) ∧
      ∀ family, s.configuredFamily = some family →
        M.Exhausted (s.providerIn M) family s.preferredVersion := by
  cases hlatest : s.latest with
  | true =>
    obtain ⟨family, hfamily⟩ := latest_family hlatest
    refine ⟨fun p id _ hprefers ↦ ?_, fun family' hconfigured ↦ ?_⟩
    · rw [← Selection.preferredModel_eq_some, preferredModel_latest hlatest] at hprefers
      cases hprefers
    · obtain rfl : family = family' := by
        simpa [Selection.configuredFamily, hfamily] using hconfigured
      rw [(resolve_latest hlatest hfamily).1, map_eq_none_iff] at h
      rw [preferredVersion_latest hlatest]
      exact (newestUsable_spec (providerIn_latest hfamily)).2 h
  | false =>
    have hunusable : ∀ id, s.Prefers id → M.availableModel (s.providerIn M) id = false := by
      intro id hprefers
      rw [← Selection.preferredModel_eq_some] at hprefers
      cases havailable : M.availableModel (s.providerIn M) id with
      | false => rfl
      | true =>
        rw [(resolve_preferred hlatest hprefers havailable).1] at h
        cases h
    refine ⟨fun p id hp hprefers ↦ not_usable (hunusable id hprefers) hp,
      fun family hconfigured ↦ ?_⟩
    · have hfamily := (Selection.preferredFamily_eq hlatest).trans hconfigured
      obtain ⟨w, hw, hpreferred⟩ := Selection.preferredVersion_of_family hlatest hfamily
      obtain ⟨id, hmodel⟩ := preferredModel_of_preferred hpreferred
      have havailable := hunusable id (Selection.preferredModel_eq_some.mp hmodel)
      rw [(resolve_fallback hlatest hfamily hw hmodel havailable).1, map_eq_none_iff] at h
      rw [hw]
      exact newestUsableAfter_spec.2 h

/-- A selection gives a model that is usable with its provider: the preferred one, or the newest
usable version of its family. Where there is none, nothing is given. -/
theorem selection_stays_configured (M : Machine) (s : Selection) :
    (∀ id, (M.resolveSelection s).model = some id →
      ∃ p, s.providerIn M = some p ∧ (M.resolveSelection s).provider = some p ∧ M.Usable p id ∧
        ((s.Prefers id ∧ (M.resolveSelection s).fallback = false) ∨
          ∃ family v, s.configuredFamily = some family ∧ id = idFor (some family) (some v) ∧
            (Whole family → familyOf id = some family ∧ versionOf id = some v) ∧
            M.Newest p family s.preferredVersion v ∧
            (s.latest ∨ ∃ preferred w, (M.resolveSelection s).fallback ∧ s.Prefers preferred ∧
              ¬M.Usable p preferred ∧ s.preferredVersion = some w ∧ versionKey w < versionKey v))) ∧
    ((M.resolveSelection s).model = none →
      (∀ p id, s.providerIn M = some p → s.Prefers id → ¬M.Usable p id) ∧
        ∀ family, s.configuredFamily = some family →
          M.Exhausted (s.providerIn M) family s.preferredVersion) ∧
    (M.resolveSelection s).available = (M.resolveSelection s).model.isSome := by
  refine ⟨fun id h ↦ ?_, model_none, resolve_available⟩
  have hprovider := resolve_provider h
  cases hlatest : s.latest with
  | true =>
    obtain ⟨p, family, v, hp, hfamily, rfl, hnewest⟩ := latest_model hlatest h
    exact ⟨p, hp, hprovider.trans hp, hnewest.usable,
      .inr ⟨family, v, hfamily, rfl, hnewest.decomposes, hnewest, .inl rfl⟩⟩
  | false =>
    rcases preferred_model hlatest h with ⟨hprefers, hfallback, p, hp, husable⟩ |
      ⟨preferred, family, w, p, v, hprefers, hfamily, hw, hp, hunusable, rfl, hnewest, hfallback⟩
    · exact ⟨p, hp, hprovider.trans hp, husable, .inl ⟨hprefers, hfallback⟩⟩
    · refine ⟨p, hp, hprovider.trans hp, hnewest.usable,
        .inr ⟨family, v, hfamily, rfl, hnewest.decomposes, by rwa [hw], .inr ?_⟩⟩
      exact ⟨preferred, w, hfallback, hprefers, hunusable, hw, hnewest.newer w rfl⟩

end Simmis.Models
