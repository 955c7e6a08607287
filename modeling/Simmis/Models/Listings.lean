import Simmis.Library.Checks
import Simmis.Library.Json
import Simmis.Library.Lists
import Simmis.Library.Text
import Simmis.Models.Catalog
import Simmis.Models.Versions

/-!
# Model listings

An endpoint's model list is read under its own contract, one page or a walk over pages. A page that
fails or does not keep to the contract fails the whole listing, and so does a walk that does not
end.
-/

namespace Simmis.Models

open List Option

inductive CatalogContract where
  | openaiModelsApi | fireworksInferenceModelsList | openaiCompatibleModelsList
  | anthropicModelsApi
deriving DecidableEq, Repr

inductive Auth where
  | bearer | anthropicApiKey
deriving DecidableEq, Repr

inductive DatedSnapshots where
  | drop | aliased
deriving DecidableEq, Repr

structure ContractTerms where
  path : String
  auth : Auth
  paginated : Bool
  pageLimit : Option ℕ
  datedSnapshots : DatedSnapshots
deriving DecidableEq, Repr

/-- `catalog-contracts` -/
def CatalogContract.terms : CatalogContract → ContractTerms
  | openaiModelsApi => ⟨"/models", .bearer, false, none, .drop⟩
  | fireworksInferenceModelsList => ⟨"/models", .bearer, false, none, .drop⟩
  | openaiCompatibleModelsList => ⟨"/models", .bearer, false, none, .drop⟩
  | anthropicModelsApi => ⟨"/models", .anthropicApiKey, true, some 1000, .aliased⟩

def maxCatalogPages : ℕ := 10

def anthropicApiVersion : String := "2023-06-01"

/-- A configured endpoint -/
structure Endpoint where
  baseUrl : String
  credential : String
  catalogContract : CatalogContract
deriving DecidableEq, Repr

structure Request where
  url : String
  headers : List (String × String)
deriving DecidableEq, Repr

structure Response where
  status : ℤ
  /-- The body as `read-value` decodes it. -/
  body : Except String Json

/-- What the endpoint does at each request of one fetch; the client may throw. -/
abbrev Remote := ℕ → Request → Except String Response

/-- `catalog-request-headers` -/
def catalogRequestHeaders (contract : CatalogContract) (credential : String) :
    List (String × String) :=
  match contract.terms.auth with
  | .anthropicApiKey => [("x-api-key", credential), ("anthropic-version", anthropicApiVersion)]
  | .bearer => [("Authorization", "Bearer " ++ credential)]

/-- A byte as `URLEncoder` writes it. -/
def percent (byte : UInt8) : List Char :=
  '%' :: [byte.toNat / 16, byte.toNat % 16].map fun n ↦ (Nat.digitChar n).toUpper

/-- `URLEncoder/encode`, in UTF-8 -/
def urlEncode (s : String) : String :=
  String.ofList <| s.toList.flatMap fun c ↦
    if c.isAlphanum ∨ c ∈ ['.', '-', '*', '_'] then [c]
    else if c = ' ' then ['+']
    else (String.singleton c).toUTF8.toList.flatMap percent

/-- `page-url` -/
def pageUrl (baseUrl : String) (contract : CatalogContract) (after : Option String) : String :=
  baseUrl ++ contract.terms.path ++
    contract.terms.pageLimit.elim "" fun limit ↦
      "?limit=" ++ toString limit ++ after.elim "" fun cursor ↦ "&after_id=" ++ urlEncode cursor

def pageRequest (endpoint : Endpoint) (after : Option String) : Request where
  url := pageUrl endpoint.baseUrl endpoint.catalogContract after
  headers := catalogRequestHeaders endpoint.catalogContract endpoint.credential

def continuationKeys : List String :=
  ["has_more", "next_page", "next_page_token", "nextPageToken", "page_token"]

/-- `continuation-marker` -/
def continuationMarker (body : Json) : Option String :=
  continuationKeys.find? fun key ↦
    match body.get? key with
    | none | some .null | some (.bool false) => false
    | some (.str s) => ¬Text.isBlank s
    | some _ => true

/-- `:id` of a member, when it is a string. -/
def memberId (member : Json) : Option ModelId :=
  match member.get? "id" with
  | some (.str id) => some id.toList
  | _ => none

/-- The distinct string ids of `:data`. -/
def dataIds (body : Json) : Except String (List ModelId) :=
  match body.get? "data" with
  | some (.arr data) => .ok (data.filterMap memberId).eraseDups
  | _ => .error "Model list response has no data list"

/-- `openai-models-list-ids` -/
def openaiModelsListIds (body : Json) : Except String (List ModelId) :=
  match body with
  | .obj _ =>
    if (continuationMarker body).isSome then
      .error "Model list response is paginated; this contract is not"
    else dataIds body
  | _ => .error "Model list response is not a JSON object"

/-- `anthropic-models-list-ids` -/
def anthropicModelsListIds (body : Json) : Except String (List ModelId) :=
  match body with
  | .obj _ =>
    if (body.get? "has_more").isNone then
      .error "Model list response is missing Anthropic's has_more field"
    else dataIds body
  | _ => .error "Model list response is not a JSON object"

/-- `parse-catalog-body` -/
def parseCatalogBody (contract : CatalogContract) (body : Json) : Except String (List ModelId) :=
  match contract with
  | .openaiModelsApi | .openaiCompatibleModelsList => openaiModelsListIds body
  | .anthropicModelsApi => anthropicModelsListIds body
  | .fireworksInferenceModelsList =>
    if (body.get? "models").isSome ∨ (body.get? "nextPageToken").isSome then
      .error "Fireworks answered the native ListModels schema at the compatible path"
    else openaiModelsListIds body

/-- `next-page-cursor` -/
def nextPageCursor (body : Json) : Except String (Option String) :=
  if body.get? "has_more" = some (.bool true) then
    match body.get? "last_id" with
    | some (.str lastId) =>
      if lastId = "" then .error "Model list says has_more but supplies no last_id cursor"
      else .ok (some lastId)
    | _ => .error "Model list says has_more but supplies no last_id cursor"
  else .ok none

/-- The cursor under a contract; one that does not page has none. -/
def endpointCursor (contract : CatalogContract) (body : Json) : Except String (Option String) :=
  if contract.terms.paginated then nextPageCursor body else .ok none

/-- A character that `.` does not match. -/
def isLineTerminator (c : Char) : Bool := c.toNat ∈ [0x0A, 0x0D, 0x85, 0x2028, 0x2029]

/-- `re-matches` of `.*` before a dash and groups of so many digits. -/
def datedPrefix (groups : List ℕ) (id : ModelId) : Option ModelId :=
  let width := (groups.map (· + 1)).sum
  let suffix := groups.flatMap fun n ↦ '-' :: List.replicate n '0'
  let stem := id.take (id.length - width)
  let date := id.drop (id.length - width)
  if (date.map fun c ↦ if c.isDigit then '0' else c) = suffix ∧ ¬stem.any isLineTerminator then
    some stem
  else none

/-- `openai-snapshot-id-re` -/
def isOpenaiSnapshot (id : ModelId) : Bool := (datedPrefix [4, 2, 2] id).isSome

/-- `anthropic-alias-id` -/
def anthropicAliasId (id : ModelId) : Option ModelId := datedPrefix [8] id

/-- `normalize-model-ids` -/
def normalizeModelIds (contract : CatalogContract) (ids : List ModelId) : List ModelId :=
  match contract.terms.datedSnapshots with
  | .aliased =>
    ((ids.flatMap fun id ↦ [some id, anthropicAliasId id]).filterMap fun id ↦ id).eraseDups
  | .drop => (ids.filter fun id ↦ ¬isOpenaiSnapshot id).eraseDups

/-- The loop of `fetch-endpoint!`, with the pages that are still allowed. -/
def fetchPages (remote : Remote) (endpoint : Endpoint) :
    ℕ → Option String → List ModelId → Except String (Fetched ModelId)
  | 0, _, _ => .error "Model list did not finish paging"
  | left + 1, after, collected => do
    let response ← remote (maxCatalogPages - left) (pageRequest endpoint after)
    if response.status = 401 ∨ response.status = 403 then .ok .credentialRejected
    else if ¬(200 ≤ response.status ∧ response.status ≤ 299) then
      .error "Model endpoint returned a non-success status"
    else do
      let body ← response.body
      let ids ← parseCatalogBody endpoint.catalogContract body
      let cursor ← endpointCursor endpoint.catalogContract body
      match cursor with
      | some cursor => fetchPages remote endpoint left (some cursor) (collected ++ ids)
      | none => .ok (.reachable (normalizeModelIds endpoint.catalogContract (collected ++ ids)))

/-- `fetch-endpoint!` -/
def fetchEndpoint (remote : Remote) (endpoint : Endpoint) : Fetched ModelId :=
  match fetchPages remote endpoint maxCatalogPages none [] with
  | .ok fetched => fetched
  | .error _ => .unreachable

variable {remote : Remote} {endpoint : Endpoint} {contract : CatalogContract} {body : Json}
  {page left : ℕ} {after : Option String}

/-- The data of the body names the id. -/
def Offers (body : Json) (id : ModelId) : Prop :=
  ∃ data, body.get? "data" = some (.arr data) ∧ ∃ member ∈ data, memberId member = some id

/-- The body is an object with a list of data and the marks of its pages. -/
structure Keeps (contract : CatalogContract) (body : Json) : Prop where
  object : ∃ fields, body = .obj fields
  data : ∃ data, body.get? "data" = some (.arr data)
  paged : contract.terms.paginated = true → ∃ more, body.get? "has_more" = some more
  unpaged : contract.terms.paginated = false → continuationMarker body = none

/-- The endpoint answered the request of this page with the body. -/
def Answers (remote : Remote) (endpoint : Endpoint) (page : ℕ) (after : Option String)
    (body : Json) : Prop :=
  ∃ response, remote page (pageRequest endpoint after) = .ok response ∧
    200 ≤ response.status ∧ response.status ≤ 299 ∧ response.body = .ok body

/-- The pages from this one on, each requested with the cursor of the one before. -/
inductive Listing (remote : Remote) (endpoint : Endpoint) : ℕ → Option String → List Json → Prop
  | last {page : ℕ} {after : Option String} {body : Json}
      (answers : Answers remote endpoint page after body)
      (keeps : Keeps endpoint.catalogContract body)
      (ends : ∀ more, body.get? "has_more" = some (.bool more) → more = false) :
      Listing remote endpoint page after [body]
  | more {page : ℕ} {after : Option String} {body : Json} {cursor : String} {rest : List Json}
      (answers : Answers remote endpoint page after body)
      (keeps : Keeps endpoint.catalogContract body)
      (continues : body.get? "has_more" = some (.bool true))
      (hands : body.get? "last_id" = some (.str cursor)) (usable : cursor ≠ "")
      (rest_listing : Listing remote endpoint (page + 1) (some cursor) rest) :
      Listing remote endpoint page after (body :: rest)

/-- The ids of a page, without repetition. -/
def pageIds (body : Json) : List ModelId :=
  match body.get? "data" with
  | some (.arr data) => (data.filterMap memberId).eraseDups
  | _ => []

/-- The id is one of those that the pages name, dated ones treated as the contract says. -/
def Listed (contract : CatalogContract) (pages : List Json) (id : ModelId) : Prop :=
  match contract.terms.datedSnapshots with
  | .drop => (∃ page ∈ pages, Offers page id) ∧ isOpenaiSnapshot id = false
  | .aliased => ∃ page ∈ pages, Offers page id ∨
      ∃ dated, Offers page dated ∧ anthropicAliasId dated = some id

variable {ids : List ModelId} {id : ModelId}

theorem dataIds_eq_ok : dataIds body = .ok ids ↔
      ∃ data, body.get? "data" = some (.arr data) ∧ (data.filterMap memberId).eraseDups = ids := by
  rw [dataIds]
  split
  · rename_i data hdata
    simp [hdata]
  · rename_i hdata
    exact ⟨nofun, fun ⟨data, h, _⟩ ↦ (hdata data h).elim⟩

theorem pageIds_of_dataIds (h : dataIds body = .ok ids) : pageIds body = ids := by
  obtain ⟨data, hdata, rfl⟩ := dataIds_eq_ok.mp h
  rw [pageIds, hdata]

theorem mem_pageIds : id ∈ pageIds body ↔ Offers body id := by
  rw [pageIds, Offers]
  split
  · rename_i data hdata
    simp [hdata, mem_eraseDups]
  · rename_i hdata
    exact ⟨nofun, fun ⟨data, h, _⟩ ↦ (hdata data h).elim⟩

theorem openaiModelsListIds_eq_ok : openaiModelsListIds body = .ok ids ↔
      (∃ fields, body = .obj fields) ∧ continuationMarker body = none ∧ dataIds body = .ok ids := by
  unfold openaiModelsListIds
  split
  · rename_i fields
    by_cases hmarker : (continuationMarker (.obj fields)).isSome
    · have hne : continuationMarker (.obj fields) ≠ none := isSome_iff_ne_none.mp hmarker
      simp [hmarker, hne]
    · have hnone : continuationMarker (.obj fields) = none := by simpa using hmarker
      simp [hnone]
  · rename_i hbody
    exact ⟨nofun, fun ⟨⟨fields, h⟩, _⟩ ↦ (hbody fields h).elim⟩

theorem anthropicModelsListIds_eq_ok : anthropicModelsListIds body = .ok ids ↔
      (∃ fields, body = .obj fields) ∧ (∃ more, body.get? "has_more" = some more) ∧
        dataIds body = .ok ids := by
  unfold anthropicModelsListIds
  split
  · rename_i fields
    cases hmore : Json.get? (.obj fields) "has_more" <;> simp
  · rename_i hbody
    exact ⟨nofun, fun ⟨⟨fields, h⟩, _⟩ ↦ (hbody fields h).elim⟩

/-- What an accepted body keeps to, and the ids that are read from it. -/
theorem parseCatalogBody_spec (h : parseCatalogBody contract body = .ok ids) :
    Keeps contract body ∧ dataIds body = .ok ids := by
  have hopenai (hpaginated : contract.terms.paginated = false)
      (h : openaiModelsListIds body = .ok ids) : Keeps contract body ∧ dataIds body = .ok ids := by
    obtain ⟨hobject, hmarker, hids⟩ := openaiModelsListIds_eq_ok.mp h
    obtain ⟨data, hdata, _⟩ := dataIds_eq_ok.mp hids
    exact ⟨⟨hobject, ⟨data, hdata⟩, by simp [hpaginated], fun _ ↦ hmarker⟩, hids⟩
  cases contract with
  | openaiModelsApi => exact hopenai rfl h
  | openaiCompatibleModelsList => exact hopenai rfl h
  | fireworksInferenceModelsList =>
    rw [parseCatalogBody] at h
    split at h
    · cases h
    · exact hopenai rfl h
  | anthropicModelsApi =>
    obtain ⟨hobject, hmore, hids⟩ := anthropicModelsListIds_eq_ok.mp h
    obtain ⟨data, hdata, _⟩ := dataIds_eq_ok.mp hids
    exact ⟨⟨hobject, ⟨data, hdata⟩, fun _ ↦ hmore, fun hpaginated ↦ by cases hpaginated⟩, hids⟩

theorem nextPageCursor_eq_some {cursor : String} :
    nextPageCursor body = .ok (some cursor) ↔ body.get? "has_more" = some (.bool true) ∧
      body.get? "last_id" = some (.str cursor) ∧ cursor ≠ "" := by
  rw [nextPageCursor]
  split
  · rename_i hmore
    split
    · rename_i lastId hlast
      by_cases hempty : lastId = ""
      · subst hempty
        simp only [hmore, hlast, if_pos, some.injEq, Json.str.injEq, true_and]
        exact ⟨nofun, fun ⟨h, hne⟩ ↦ (hne h.symm).elim⟩
      · simp only [hmore, hlast, if_neg hempty, Except.ok.injEq, some.injEq, Json.str.injEq,
          true_and]
        refine ⟨?_, fun h ↦ h.1⟩
        rintro rfl
        exact ⟨rfl, hempty⟩
    · rename_i hlast
      refine ⟨nofun, fun ⟨_, h, _⟩ ↦ (hlast cursor h).elim⟩
  · rename_i hmore
    simp [hmore]

theorem nextPageCursor_eq_none (h : nextPageCursor body = .ok none) :
    body.get? "has_more" ≠ some (.bool true) := by
  intro hmore
  rw [nextPageCursor, if_pos hmore] at h
  split at h
  · split at h <;> cases h
  · cases h

/-- Where there are no pages, a body that keeps to it has no `has_more`. -/
theorem Keeps.not_more (h : Keeps contract body) (hpaginated : contract.terms.paginated = false) :
    body.get? "has_more" ≠ some (.bool true) := by
  intro hmore
  have hmarker := h.unpaged hpaginated
  rw [continuationMarker, find?_eq_none] at hmarker
  simpa [hmore] using hmarker "has_more" (by simp [continuationKeys])

/-- What the cursor of an accepted body says. -/
theorem endpointCursor_spec (hkeeps : Keeps contract body) {cursor : Option String}
    (h : endpointCursor contract body = .ok cursor) :
    match cursor with
    | some cursor => body.get? "has_more" = some (.bool true) ∧
        body.get? "last_id" = some (.str cursor) ∧ cursor ≠ ""
    | none => ∀ more, body.get? "has_more" = some (.bool more) → more = false := by
  have hlast (hmore : body.get? "has_more" ≠ some (.bool true)) (more : Bool)
      (h : body.get? "has_more" = some (.bool more)) : more = false := by
    cases more with
    | false => rfl
    | true => exact absurd h hmore
  rw [endpointCursor] at h
  split at h
  · cases cursor with
    | none => exact hlast (nextPageCursor_eq_none h)
    | some cursor => exact nextPageCursor_eq_some.mp h
  · rename_i hpaginated
    obtain rfl : none = cursor := by simpa using h
    exact hlast (hkeeps.not_more (by simpa using hpaginated))

theorem normalizeModelIds_nodup : (normalizeModelIds contract ids).Nodup := by
  rw [normalizeModelIds]
  split <;> exact Lists.nodup_eraseDups _

theorem mem_normalizeModelIds {pages : List Json} :
    id ∈ normalizeModelIds contract (pages.flatMap pageIds) ↔ Listed contract pages id := by
  rw [normalizeModelIds, Listed]
  cases contract.terms.datedSnapshots with
  | drop => simp [mem_eraseDups, mem_pageIds]
  | aliased =>
    simp only [mem_eraseDups, mem_filterMap, mem_flatMap, mem_pageIds,
      mem_cons, not_mem_nil, or_false]
    constructor
    · rintro ⟨_, ⟨dated, ⟨page, hpage, hoffers⟩, rfl | rfl⟩, hid⟩
      · obtain rfl : dated = id := by simpa using hid
        exact ⟨page, hpage, .inl hoffers⟩
      · exact ⟨page, hpage, .inr ⟨dated, hoffers, hid⟩⟩
    · rintro ⟨page, hpage, hoffers | ⟨dated, hoffers, halias⟩⟩
      · exact ⟨some id, ⟨id, ⟨page, hpage, hoffers⟩, .inl rfl⟩, rfl⟩
      · exact ⟨some id, ⟨dated, ⟨page, hpage, hoffers⟩, .inr halias.symm⟩, rfl⟩

/-- One page of a walk that ends well. -/
theorem fetchPages_step {collected : List ModelId}
    (h : fetchPages remote endpoint (left + 1) after collected = .ok (.reachable ids)) :
    ∃ body, Answers remote endpoint (maxCatalogPages - left) after body ∧
      Keeps endpoint.catalogContract body ∧
        (((∀ more, body.get? "has_more" = some (.bool more) → more = false) ∧
            ids = normalizeModelIds endpoint.catalogContract (collected ++ pageIds body)) ∨
          ∃ cursor, (body.get? "has_more" = some (.bool true) ∧
              body.get? "last_id" = some (.str cursor) ∧ cursor ≠ "") ∧
            fetchPages remote endpoint left (some cursor) (collected ++ pageIds body) =
              .ok (.reachable ids)) := by
  obtain ⟨response, hresponse, h⟩ := bind_eq_ok.mp h
  split at h
  · cases h
  · split at h
    · cases h
    · rename_i hstatus
      obtain ⟨body, hbody, h⟩ := bind_eq_ok.mp h
      obtain ⟨found, hfound, h⟩ := bind_eq_ok.mp h
      obtain ⟨cursor, hcursor, h⟩ := bind_eq_ok.mp h
      obtain ⟨hkeeps, hids⟩ := parseCatalogBody_spec hfound
      obtain rfl := pageIds_of_dataIds hids
      rw [not_not] at hstatus
      refine ⟨body, ⟨response, hresponse, hstatus.1, hstatus.2, hbody⟩, hkeeps, ?_⟩
      have hmarks := endpointCursor_spec hkeeps hcursor
      cases cursor with
      | none => exact .inl ⟨hmarks, by simpa using h.symm⟩
      | some cursor => exact .inr ⟨cursor, hmarks, h⟩

/-- A walk that ends well has collected what the pages from here on list. -/
theorem fetchPages_listing {collected : List ModelId} (hleft : left ≤ maxCatalogPages)
    (h : fetchPages remote endpoint left after collected = .ok (.reachable ids)) :
    ∃ pages, Listing remote endpoint (maxCatalogPages - left + 1) after pages ∧
      pages.length ≤ left ∧
        ids = normalizeModelIds endpoint.catalogContract (collected ++ pages.flatMap pageIds) := by
  induction left generalizing after collected with
  | zero => cases h
  | succ left ih =>
    have hpage : maxCatalogPages - (left + 1) + 1 = maxCatalogPages - left := by omega
    rw [hpage]
    obtain ⟨body, hanswers, hkeeps, ⟨hends, hids⟩ | ⟨cursor, ⟨hmore, hlast, hne⟩, hrest⟩⟩ :=
      fetchPages_step h
    · exact ⟨[body], .last hanswers hkeeps hends, by simp, by simpa using hids⟩
    · obtain ⟨pages, hlisting, hlength, hids⟩ := ih (by omega) hrest
      refine ⟨body :: pages, .more hanswers hkeeps hmore hlast hne hlisting,
        by simpa using hlength, ?_⟩
      rw [hids, flatMap_cons, append_assoc]

/-- A walk asks for no page after the last one allowed. -/
theorem fetchPages_congr {other : Remote} {collected : List ModelId}
    (h : ∀ page ≤ maxCatalogPages, other page = remote page) :
    fetchPages other endpoint left after collected =
      fetchPages remote endpoint left after collected := by
  induction left generalizing after collected with
  | zero => rfl
  | succ left ih =>
    rw [fetchPages, fetchPages, h _ (Nat.sub_le _ _)]
    simp only [ih]

/-- A fetch fails, or names what all pages of a complete listing name, once. -/
theorem listing_complete_or_nothing (remote : Remote) (endpoint : Endpoint) :
    (fetchEndpoint remote endpoint = .credentialRejected ∨
      fetchEndpoint remote endpoint = .unreachable ∨
        ∃ pages ids, Listing remote endpoint 1 none pages ∧ pages.length ≤ maxCatalogPages ∧
          fetchEndpoint remote endpoint = .reachable ids ∧
            ids = normalizeModelIds endpoint.catalogContract (pages.flatMap pageIds) ∧
              ids.Nodup ∧ ∀ id, id ∈ ids ↔ Listed endpoint.catalogContract pages id) ∧
    ∀ other : Remote, (∀ page ≤ maxCatalogPages, other page = remote page) →
      fetchEndpoint other endpoint = fetchEndpoint remote endpoint := by
  refine ⟨?_, fun other h ↦ by rw [fetchEndpoint, fetchEndpoint, fetchPages_congr h]⟩
  rw [fetchEndpoint]
  cases hfetched : fetchPages remote endpoint maxCatalogPages none [] with
  | error message => exact .inr (.inl rfl)
  | ok fetched =>
    cases fetched with
    | credentialRejected => exact .inl rfl
    | unreachable => exact .inr (.inl rfl)
    | reachable ids =>
      obtain ⟨pages, hlisting, hlength, rfl⟩ := fetchPages_listing le_rfl hfetched
      exact .inr (.inr ⟨pages, _, hlisting, hlength, rfl, rfl, normalizeModelIds_nodup,
        fun id ↦ mem_normalizeModelIds⟩)

/-- A dated snapshot that the one page names is not in the listing. -/
theorem snapshot_not_listed :
    let body : Json := .obj [("data", .arr [.obj [("id", .str "gpt-5.5")],
      .obj [("id", .str "gpt-5.5-2026-04-23")], .obj [("id", .str "gpt-5.5")]])]
    fetchEndpoint (fun _ _ ↦ .ok ⟨200, .ok body⟩) ⟨"", "", .openaiModelsApi⟩ =
        .reachable ["gpt-5.5".toList] ∧
      ∃ data, body.get? "data" = some (.arr data) ∧ data.filterMap memberId =
        ["gpt-5.5".toList, "gpt-5.5-2026-04-23".toList, "gpt-5.5".toList] := by
  exact ⟨by decide, _, rfl, by decide⟩

end Simmis.Models
