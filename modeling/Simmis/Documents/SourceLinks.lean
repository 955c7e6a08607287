import Simmis.Documents.Links

/-!
# Links to frozen sources

A source of a proposal and a source of a request have addresses of their own. The router takes an
address apart at its query and at the slashes in front of it.
-/

namespace Simmis.Documents.Links

open List Option Cuts CodeUnits UrlCoding

/-- `/in/knowledge/sources/` -/
def sourcePrefix : Text :=
  units ['/', 'i', 'n', '/', 'k', 'n', 'o', 'w', 'l', 'e', 'd', 'g', 'e', '/', 's', 'o', 'u', 'r',
    'c', 'e', 's', '/']

/-- `/in/summary/sources/` -/
def summaryPrefix : Text :=
  units ['/', 'i', 'n', '/', 's', 'u', 'm', 'm', 'a', 'r', 'y', '/', 's', 'o', 'u', 'r', 'c', 'e',
    's', '/']

/-- A path behind a prefix. -/
def isPathBehind (front path : Text) : Bool :=
  front.isPrefixOf path && isPath (path.drop front.length)

/-- `source-path?` of a string. -/
def isSourcePath (path : Text) : Bool := isPathBehind sourcePrefix path

/-- What a request may have as the path of a source. -/
def isRequestPath (path : Text) : Bool := isSourcePath path || isPathBehind summaryPrefix path

def roomName : Text := units ['r', 'o', 'o', 'm']
def filesName : Text := units ['f', 'i', 'l', 'e', 's']
def proposalName : Text := units ['p', 'r', 'o', 'p', 'o', 's', 'a', 'l']
def sourceName : Text := units ['s', 'o', 'u', 'r', 'c', 'e']
def requestName : Text := units ['r', 'e', 'q', 'u', 'e', 's', 't']

/-- Each segment behind a slash. -/
def slashed (segments : List Text) : Text := segments.flatMap (47 :: ·)

def proposalSource (proposal component path : Text) : Target
  | .kind => some (.keyword "proposal-source")
  | .proposal => some (.text proposal)
  | .component => some (.text component)
  | .path => some (.text path)
  | _ => none

def requestSource (room request path : Text) : Target
  | .kind => some (.keyword "request-source")
  | .room => some (.text room)
  | .request => some (.text request)
  | .path => some (.text path)
  | _ => none

variable (t : Target)

def sourceRoute : Option Text :=
  let proposal := (t.get .proposal).str
  let component := (t.get .component).str
  match t.get .path with
  | .text path =>
    if isUuid proposal && isUuid component && isSourcePath path then
      some (slashed [proposalName, proposal, sourceName, component] ++ 63 :: fileQuery path)
    else none
  | _ => none

def parseSourceQuery (proposal component query : Text) : Option Target :=
  match (parameters query).getD Fields.empty with
  | ⟨some path, none, none⟩ =>
    if isUuid proposal && isUuid component && isSourcePath path then
      some (proposalSource proposal component path)
    else none
  | _ => none

def requestSourceRoute : Option Text :=
  let room := (t.get .room).str
  let request := (t.get .request).str
  match t.get .path with
  | .text path =>
    if isUuid room && isUuid request && isRequestPath path then
      some (slashed [roomName, room, requestName, request, sourceName] ++ 63 :: fileQuery path)
    else none
  | _ => none

def parseRequestSourceQuery (room request query : Text) : Option Target :=
  match (parameters query).getD Fields.empty with
  | ⟨some path, none, none⟩ =>
    if isUuid room && isUuid request && isRequestPath path then
      some (requestSource room request path)
    else none
  | _ => none

/-- A target of a proposal's source with its identities as texts. -/
def sourceAddress : Target
  | .kind => some (.keyword "proposal-source")
  | .proposal => some (.text (t.get .proposal).str)
  | .component => some (.text (t.get .component).str)
  | .path => some (t.get .path)
  | _ => none

/-- A target of a request's source with its identities as texts. -/
def requestAddress : Target
  | .kind => some (.keyword "request-source")
  | .room => some (.text (t.get .room).str)
  | .request => some (.text (t.get .request).str)
  | .path => some (t.get .path)
  | _ => none

/-- `route->ref` of an address with a query. -/
def routeToRef (url : Text) : Option Target := do
  let (base, query) ← cut 63 url
  match (base.splitOn 47).filter fun segment ↦ !isBlank segment with
  | [first, room, third] =>
    if first = roomName ∧ third = filesName then parseQuery room query else none
  | [first, room, third, request, fifth] =>
    if first = roomName ∧ third = requestName ∧ fifth = sourceName then
      parseRequestSourceQuery room request query
    else none
  | [first, proposal, third, component] =>
    if first = proposalName ∧ third = sourceName then parseSourceQuery proposal component query
    else none
  | _ => none

/-- `ref->route` of the kinds whose addresses have a query. -/
def refToRoute : Option Text :=
  match t.get .kind with
  | .keyword "memory-file" => route t
  | .keyword "memory-block" => route t
  | .keyword "proposal-source" => sourceRoute t
  | .keyword "request-source" => requestSourceRoute t
  | _ => none

def refAddress : Target :=
  match t.get .kind with
  | .keyword "proposal-source" => sourceAddress t
  | .keyword "request-source" => requestAddress t
  | _ => address t

/-- What is written for a target is read as its address, and what is read is written again. -/
structure RoundTrip (write : Target → Option Text) (read : Text → Option Target)
    (address : Target → Target) : Prop where
  read_write : ∀ t url, write t = some url → read url = some (address t)
  write_read : ∀ url t, read url = some t →
    address t = t ∧ ∃ url', write t = some url' ∧ read url' = some t
  injective : ∀ t t' url, write t = some url → write t' = some url → address t = address t'

variable {segments : List Text}

theorem splitOn_behind {segment : Text} (hslash : 47 ∉ segment)
    (hrest : ∀ segment ∈ segments, 47 ∉ segment) :
    (segment ++ slashed segments).splitOn 47 = segment :: segments := by
  induction segments generalizing segment with
  | nil => simp [slashed, splitOn_eq_singleton hslash]
  | cons next segments ih =>
    obtain ⟨hnext, hrest⟩ := forall_mem_cons.mp hrest
    rw [slashed, flatMap_cons, ← slashed, cons_append,
      splitOn_append_cons_self_of_not_mem hslash, ih hnext hrest]

theorem splitOn_slashed (hne : segments ≠ []) (hslash : ∀ segment ∈ segments, 47 ∉ segment) :
    (slashed segments).splitOn 47 = [] :: segments := by
  obtain ⟨segment, segments, rfl⟩ := exists_cons_of_ne_nil hne
  obtain ⟨hsegment, hrest⟩ := forall_mem_cons.mp hslash
  rw [slashed, flatMap_cons, ← slashed, cons_append,
    splitOn_cons_eq_if_modifyHead, if_pos (by simp), splitOn_behind hsegment hrest]

/-- A segment that the router keeps whole. -/
structure Kept (segment : Text) : Prop where
  slash : 47 ∉ segment
  question : 63 ∉ segment
  blank : isBlank segment = false

theorem kept_uuid {s : Text} (h : isUuid s) : Kept s where
  slash := not_mem_uuid h (by decide)
  question := not_mem_uuid h (by decide)
  blank := isBlank_of_isUuid h

/-- The router takes an address apart. -/
theorem routeToRef_slashed (hne : segments ≠ [])
    (hkept : ∀ segment ∈ segments, Kept segment) (query : Text) :
    cut 63 (slashed segments ++ 63 :: query) = some (slashed segments, query) ∧
      ((slashed segments).splitOn 47).filter (fun segment ↦ !isBlank segment) = segments := by
  constructor
  · refine cut_mark fun hmem ↦ ?_
    obtain ⟨segment, hsegment, hmem⟩ := mem_flatMap.mp hmem
    exact (hkept segment hsegment).question (by simpa using hmem)
  · rw [splitOn_slashed hne fun segment hsegment ↦ (hkept segment hsegment).slash,
      filter_cons_of_neg (by decide), filter_eq_self]
    intro segment hsegment
    simp [(hkept segment hsegment).blank]

variable {path : Text}

theorem isPathBehind_bounds {front : Text} (hfront : ∀ u ∈ front, u.toNat < 0xD800)
    (h : isPathBehind front path) : isUnicode path ∧ path.length ≤ front.length + 512 := by
  rw [isPathBehind, Bool.and_eq_true, isPrefixOf_iff_prefix] at h
  obtain ⟨⟨rest, rfl⟩, hrest⟩ := h
  rw [drop_left] at hrest
  obtain ⟨hunicode, -, hlength⟩ := isPath_bounds hrest
  rw [isUnicode_append hfront, length_append]
  exact ⟨hunicode, by omega⟩

theorem isRequestPath_bounds (h : isRequestPath path) : isUnicode path ∧ path.length ≤ 900 := by
  have hsource : sourcePrefix.length = 22 := rfl
  have hsummary : summaryPrefix.length = 20 := rfl
  rw [isRequestPath, Bool.or_eq_true] at h
  rcases h with h | h
  · obtain ⟨hunicode, hlength⟩ := isPathBehind_bounds (Lists.forall_of_all (by decide)) h
    exact ⟨hunicode, by omega⟩
  · obtain ⟨hunicode, hlength⟩ := isPathBehind_bounds (Lists.forall_of_all (by decide)) h
    exact ⟨hunicode, by omega⟩

theorem isRequestPath_of_isSourcePath (h : isSourcePath path) : isRequestPath path := by
  rw [isRequestPath, h, Bool.true_or]

variable {component proposal : Text}

theorem parseSourceQuery_fileQuery (hproposal : isUuid proposal) (hcomponent : isUuid component)
    (hpath : isSourcePath path) : parseSourceQuery proposal component (fileQuery path) =
      some (proposalSource proposal component path) := by
  obtain ⟨hunicode, hlength⟩ := isRequestPath_bounds (isRequestPath_of_isSourcePath hpath)
  rw [parseSourceQuery, parameters_fileQuery hunicode hlength, getD_some]
  simp [hproposal, hcomponent, hpath]

variable {request room : Text}

theorem parseRequestSourceQuery_fileQuery (hroom : isUuid room) (hrequest : isUuid request)
    (hpath : isRequestPath path) : parseRequestSourceQuery room request (fileQuery path) =
      some (requestSource room request path) := by
  obtain ⟨hunicode, hlength⟩ := isRequestPath_bounds hpath
  rw [parseRequestSourceQuery, parameters_fileQuery hunicode hlength, getD_some]
  simp [hroom, hrequest, hpath]

theorem kept_names : Kept roomName ∧ Kept filesName ∧ Kept proposalName ∧ Kept sourceName ∧
    Kept requestName := by
  refine ⟨?_, ?_, ?_, ?_, ?_⟩ <;> constructor <;> decide

variable {query : Text}

theorem routeToRef_room (hroom : isUuid room) :
    routeToRef (roomPrefix ++ room ++ filesInfix ++ query) = parseQuery room query := by
  obtain ⟨hfirst, hthird, -⟩ := kept_names
  have hurl : roomPrefix ++ room ++ filesInfix ++ query =
      slashed [roomName, room, filesName] ++ 63 :: query := by
    simp [slashed, roomPrefix, filesInfix, roomName, filesName, units, JavaString.unitsOfChar]
  obtain ⟨hcut, hsegments⟩ := routeToRef_slashed (cons_ne_nil roomName [room, filesName])
    (by simp [hfirst, kept_uuid hroom, hthird]) query
  rw [hurl, routeToRef, hcut]
  simp only [bind_eq_bind, bind_some, hsegments, and_self, if_true]

theorem routeToRef_source (hproposal : isUuid proposal) (hcomponent : isUuid component) :
    routeToRef (slashed [proposalName, proposal, sourceName, component] ++ 63 :: query) =
      parseSourceQuery proposal component query := by
  obtain ⟨-, -, hfirst, hthird, -⟩ := kept_names
  obtain ⟨hcut, hsegments⟩ :=
    routeToRef_slashed (cons_ne_nil proposalName [proposal, sourceName, component])
      (by simp [hfirst, kept_uuid hproposal, hthird, kept_uuid hcomponent]) query
  rw [routeToRef, hcut]
  simp only [bind_eq_bind, bind_some, hsegments, and_self, if_true]

theorem routeToRef_request (hroom : isUuid room) (hrequest : isUuid request) :
    routeToRef (slashed [roomName, room, requestName, request, sourceName] ++ 63 :: query) =
      parseRequestSourceQuery room request query := by
  obtain ⟨hfirst, -, -, hfifth, hthird⟩ := kept_names
  obtain ⟨hcut, hsegments⟩ :=
    routeToRef_slashed (cons_ne_nil roomName [room, requestName, request, sourceName])
      (by simp [hfirst, kept_uuid hroom, hthird, kept_uuid hrequest, hfifth]) query
  rw [routeToRef, hcut]
  simp only [bind_eq_bind, bind_some, hsegments, and_self, if_true]

variable {t : Target} {url : Text}

/-- The address of a proposal's source is opened as it. -/
theorem routeToRef_sourceRoute (h : sourceRoute t = some url) :
    routeToRef url = some (sourceAddress t) := by
  unfold sourceRoute at h
  simp only at h
  split at h
  · next path hvalue =>
    split at h
    · next hall =>
      simp only [Bool.and_eq_true] at hall
      obtain ⟨⟨hproposal, hcomponent⟩, hpath⟩ := hall
      cases h
      rw [routeToRef_source hproposal hcomponent,
        parseSourceQuery_fileQuery hproposal hcomponent hpath]
      refine congrArg some ?_
      funext key
      cases key <;> simp [sourceAddress, proposalSource, hvalue]
    · cases h
  · cases h

/-- The address of a request's source is opened as it. -/
theorem routeToRef_requestSourceRoute (h : requestSourceRoute t = some url) :
    routeToRef url = some (requestAddress t) := by
  unfold requestSourceRoute at h
  simp only at h
  split at h
  · next path hvalue =>
    split at h
    · next hall =>
      simp only [Bool.and_eq_true] at hall
      obtain ⟨⟨hroom, hrequest⟩, hpath⟩ := hall
      cases h
      rw [routeToRef_request hroom hrequest, parseRequestSourceQuery_fileQuery hroom hrequest hpath]
      refine congrArg some ?_
      funext key
      cases key <;> simp [requestAddress, requestSource, hvalue]
    · cases h
  · cases h

/-- The address of a file or a block is opened as it. -/
theorem routeToRef_route (h : route t = some url) : routeToRef url = some (address t) := by
  obtain ⟨room, hroom, ⟨path, hpath, haddress, rfl⟩ |
    ⟨repository, block, path, hrepository, hblock, hpath, haddress, rfl⟩⟩ := route_eq_some h
  · rw [routeToRef_room hroom, parseQuery_fileQuery hroom hpath, haddress]
  · rw [routeToRef_room hroom, parseQuery_blockQuery hroom hrepository hblock hpath, haddress]

theorem fields_eq_some {fields : Fields} {p : Text → Bool} {f : Text → Target}
    (h : (match fields with
      | ⟨some path, none, none⟩ => if p path then some (f path) else none
      | _ => none) = some t) : ∃ path, p path ∧ t = f path := by
  split at h
  · next path =>
    split at h
    · next hpath =>
      cases h
      exact ⟨path, hpath, rfl⟩
    · cases h
  · cases h

theorem parseSourceQuery_eq_some (h : parseSourceQuery proposal component query = some t) :
    ∃ path, (isUuid proposal ∧ isUuid component ∧ isSourcePath path) ∧
      t = proposalSource proposal component path := by
  obtain ⟨path, hall, ht⟩ := fields_eq_some h
  simp only [Bool.and_eq_true] at hall
  exact ⟨path, ⟨hall.1.1, hall.1.2, hall.2⟩, ht⟩

theorem parseRequestSourceQuery_eq_some (h : parseRequestSourceQuery room request query = some t) :
    ∃ path, (isUuid room ∧ isUuid request ∧ isRequestPath path) ∧
      t = requestSource room request path := by
  obtain ⟨path, hall, ht⟩ := fields_eq_some h
  simp only [Bool.and_eq_true] at hall
  exact ⟨path, ⟨hall.1.1, hall.1.2, hall.2⟩, ht⟩

/-- What the router opens. -/
theorem routeToRef_eq_some (h : routeToRef url = some t) :
    ∃ first second query, parseQuery first query = some t ∨
      parseSourceQuery first second query = some t ∨
      parseRequestSourceQuery first second query = some t := by
  simp only [routeToRef, bind_eq_bind, bind_eq_some_iff] at h
  obtain ⟨⟨base, query⟩, -, h⟩ := h
  split at h
  · next room third hsegments =>
    split at h
    · exact ⟨room, [], query, .inl h⟩
    · cases h
  · next room third request fifth hsegments =>
    split at h
    · exact ⟨room, request, query, .inr (.inr h)⟩
    · cases h
  · next proposal third component hsegments =>
    split at h
    · exact ⟨proposal, component, query, .inr (.inl h)⟩
    · cases h
  · cases h

/-- What a file's or a block's query names is written for the router. -/
theorem route_of_parseQuery (h : parseQuery room query = some t) :
    address t = t ∧ refAddress t = t ∧ refToRoute t = route t ∧ (route t).isSome := by
  obtain ⟨hroom, ⟨path, hpath, rfl⟩ | ⟨repository, block, path, hrepository, hblock, hpath, rfl⟩⟩ :=
    parseQuery_eq_some h
  · rw [route_memoryFile hroom hpath]
    exact ⟨address_memoryFile room path, address_memoryFile room path,
      route_memoryFile hroom hpath, rfl⟩
  · rw [route_memoryBlock hroom hrepository hblock hpath]
    exact ⟨address_memoryBlock room repository block path,
      address_memoryBlock room repository block path,
      route_memoryBlock hroom hrepository hblock hpath, rfl⟩

theorem sourceRoute_of_parseSourceQuery (h : parseSourceQuery proposal component query = some t) :
    refAddress t = t ∧ (refToRoute t).isSome := by
  obtain ⟨path, ⟨hproposal, hcomponent, hpath⟩, rfl⟩ := parseSourceQuery_eq_some h
  constructor
  · funext key
    cases key <;> rfl
  · simp [refToRoute, sourceRoute, proposalSource, Target.get, Value.str, hproposal, hcomponent,
      hpath]

theorem requestSourceRoute_of_parseRequestSourceQuery
    (h : parseRequestSourceQuery room request query = some t) :
    refAddress t = t ∧ (refToRoute t).isSome := by
  obtain ⟨path, ⟨hroom, hrequest, hpath⟩, rfl⟩ := parseRequestSourceQuery_eq_some h
  constructor
  · funext key
    cases key <;> rfl
  · simp [refToRoute, requestSourceRoute, requestSource, Target.get, Value.str, hroom, hrequest,
      hpath]

/-- What the router is written is opened. -/
theorem routeToRef_refToRoute (h : refToRoute t = some url) :
    routeToRef url = some (refAddress t) := by
  unfold refToRoute at h
  unfold refAddress
  split at h
  · next hkind => simpa [hkind] using routeToRef_route h
  · next hkind => simpa [hkind] using routeToRef_route h
  · next hkind => simpa only [hkind] using routeToRef_sourceRoute h
  · next hkind => simpa only [hkind] using routeToRef_requestSourceRoute h
  · cases h

theorem roundTrip_route : RoundTrip route parseRoute address where
  read_write := fun _ _ h ↦ parseRoute_route h
  write_read := fun _ _ h ↦ route_parseRoute h
  injective := fun _ _ _ h h' ↦
    some.inj ((parseRoute_route h).symm.trans (parseRoute_route h'))

theorem roundTrip_refToRoute : RoundTrip refToRoute routeToRef refAddress where
  read_write := fun _ _ h ↦ routeToRef_refToRoute h
  write_read := fun url t h ↦ by
    have hwritten : refAddress t = t ∧ (refToRoute t).isSome := by
      obtain ⟨first, second, query, hquery | hquery | hquery⟩ := routeToRef_eq_some h
      · obtain ⟨-, haddress, hroute, hsome⟩ := route_of_parseQuery hquery
        exact ⟨haddress, hroute ▸ hsome⟩
      · exact sourceRoute_of_parseSourceQuery hquery
      · exact requestSourceRoute_of_parseRequestSourceQuery hquery
    obtain ⟨haddress, hsome⟩ := hwritten
    obtain ⟨url', hurl'⟩ := isSome_iff_exists.mp hsome
    refine ⟨haddress, url', hurl', ?_⟩
    rw [routeToRef_refToRoute hurl', haddress]
  injective := fun _ _ _ h h' ↦
    some.inj ((routeToRef_refToRoute h).symm.trans (routeToRef_refToRoute h'))

/-- Memory links, routes of the router and routes of sources go back and forth between targets and
addresses. -/
theorem links_round_trip :
    RoundTrip route parseRoute address ∧ RoundTrip refToRoute routeToRef refAddress ∧
    (∀ t url, sourceRoute t = some url → routeToRef url = some (sourceAddress t)) ∧
    ∀ t url, requestSourceRoute t = some url → routeToRef url = some (requestAddress t) :=
  ⟨roundTrip_route, roundTrip_refToRoute, fun _ _ ↦ routeToRef_sourceRoute,
    fun _ _ ↦ routeToRef_requestSourceRoute⟩

/-- A UUID in lower case. -/
def someUuid : Text :=
  List.replicate 8 97 ++ 45 :: (List.replicate 4 97 ++ 45 :: (List.replicate 4 97 ++ 45 ::
    (List.replicate 4 97 ++ 45 :: List.replicate 12 97)))

/-- A file `a` of a room that is given as an object. -/
def objectRoom : Target
  | .kind => some (.keyword "memory-file")
  | .room => some (.object someUuid)
  | .path => some (.text [97])
  | _ => none

/-- A room that is an object comes back as text, and so does another's route. -/
theorem object_room_not_read :
    ∃ url, route objectRoom = some url ∧ parseRoute url ≠ some objectRoom ∧
      route (memoryFile someUuid [97]) = some url ∧ objectRoom ≠ memoryFile someUuid [97] := by
  have hne : objectRoom ≠ memoryFile someUuid [97] := by
    intro heq
    have hroom := congrFun heq .room
    cases hroom
  have hroom : isUuid someUuid = true := by decide
  have hpath : isPath [97] = true := by decide
  have hroute := route_memoryFile hroom hpath
  refine ⟨_, hroute, ?_, hroute, hne⟩
  exact fun heq ↦ hne (some.inj heq).symm

end Simmis.Documents.Links
