import Simmis.Library.JavaStrings
import Simmis.Library.Maps
import Mathlib.Data.List.DropRight

/-!
# Threads of a room timeline

The messages of a timeline are annotated with the root of their thread, their depth and the number
of their replies. A message without a persisted root is followed up its replies, as far as they are
in the timeline.
-/

namespace Simmis.Chat

open List Option Maps Relation

/-- `:timeline/type` -/
inductive Kind
  | message
  | activity
  | kbEvent
  | evalEntry
deriving DecidableEq, Repr

/-- A timeline item, of what the annotation reads. -/
structure Item (U T : Type) where
  id : U
  kind : Kind
  ts : T
  /-- `:message/to` -/
  messageTo : Option String
  /-- `:to` -/
  recipient : Option String
  inReplyTo : Option U
  threadRootId : Option U
  authorName : Option JavaString
  content : Option JavaString
deriving DecidableEq

structure Preview (U : Type) where
  id : U
  authorName : Option JavaString
  content : JavaString
deriving DecidableEq

/-- The keys that are added to a message. A message that is no reply has no `parent`, and the parent
of a reply can be absent. -/
structure Thread (U : Type) where
  rootId : U
  depth : ℕ
  rootKnown : Bool
  replyCount : ℕ
  parent : Option (Option (Preview U))
deriving DecidableEq

structure Row (U T : Type) where
  item : Item U T
  thread : Option (Thread U)
deriving DecidableEq

/-- What the host takes for white space: `\s` of a pattern, and what `trim` takes off. -/
structure Whitespace where
  space : UInt16 → Bool
  trimmed : UInt16 → Bool

variable {U T : Type} [DecidableEq U]

/-- `chat-message-visible?` -/
def chatMessageVisible (item : Item U T) : Bool := item.messageTo.or item.recipient ≠ some "_runs"

/-- `visible-chat-items` -/
def visibleChatItems (items : List (Item U T)) : List (Item U T) := items.filter chatMessageVisible

/-- `str/replace` of runs of white space by one space -/
def collapse (space : UInt16 → Bool) : List UInt16 → List UInt16
  | [] => []
  | [u] => if space u then [32] else [u]
  | u :: v :: rest =>
    if space u then
      if space v then collapse space (v :: rest) else 32 :: collapse space (v :: rest)
    else u :: collapse space (v :: rest)

/-- `thread-parent-preview` -/
def threadParentPreview (host : Whitespace) (message : Item U T) : Preview U :=
  let text := message.content.elim [] JavaString.units
  let content := ((collapse host.space text).dropWhile host.trimmed).rdropWhile host.trimmed
  { id := message.id
    authorName := message.authorName
    content := ⟨if content.length > 96 then content.take 95 ++ [0x2026] else content⟩ }

def messagesOf (items : List (Item U T)) : List (Item U T) := items.filter (·.kind = .message)

/-- `by-id` -/
def byId (messages : List (Item U T)) : List (U × Item U T) :=
  ofPairs (messages.map fun message ↦ (message.id, message))

/-- What `resolve-thread` finds. -/
structure Resolution (U : Type) where
  rootId : U
  depth : ℕ
  rootKnown : Bool
deriving DecidableEq

/-- The messages that a walk has not seen. -/
def unseen (index : List (U × Item U T)) (seen : List U) : ℕ :=
  (index.filter fun entry ↦ entry.1 ∉ seen).length

theorem unseen_lt {index : List (U × Item U T)} {seen : List U} {id : U} {message : Item U T}
    (hseen : id ∉ seen) (hget : get? index id = some message) :
    unseen index (id :: seen) < unseen index seen := by
  have hmem : (id, message) ∈ index.filter fun entry ↦ entry.1 ∉ seen :=
    mem_filter.mpr ⟨mem_of_get? hget, by simpa using hseen⟩
  have hfilter : (index.filter fun entry ↦ entry.1 ∉ id :: seen) =
      (index.filter fun entry ↦ entry.1 ∉ seen).filter fun entry ↦ entry.1 ≠ id := by
    simp [not_or]
  unfold unseen
  rw [hfilter]
  exact length_filter_lt_length_iff_exists.mpr ⟨_, hmem, by simp⟩

/-- The loop of `resolve-thread` for the message `id` with its persisted root. -/
def walk (index : List (U × Item U T)) (root : Option U) (id : U) (current : Item U T) (depth : ℕ)
    (seen : List U) : Resolution U :=
  let found (rootId : U) (depth : ℕ) : Resolution U :=
    ⟨rootId, depth, (get? index rootId).isSome⟩
  match current.inReplyTo with
  | none => found (root.getD current.id) depth
  | some parentId =>
    if _ : parentId ∈ seen then found (root.getD id) depth
    else
      match hget : get? index parentId with
      | some parent => walk index root id parent (depth + 1) (parentId :: seen)
      | none => found (root.getD parentId) (depth + 1)
termination_by unseen index seen
decreasing_by exact unseen_lt ‹_› hget

def resolveThread (index : List (U × Item U T)) (message : Item U T) : Resolution U :=
  walk index message.threadRootId message.id message 0 [message.id]

def resolutions (messages : List (Item U T)) : List (U × Resolution U) :=
  ofPairs (messages.map fun message ↦ (message.id, resolveThread (byId messages) message))

/-- `descendant-counts` -/
def descendantCounts (resolved : List (U × Resolution U)) (messages : List (Item U T)) :
    List (U × ℕ) :=
  messages.foldl (fun counts message ↦ match get? resolved message.id with
    | some resolution =>
      if message.id ≠ resolution.rootId then
        assoc counts resolution.rootId ((get? counts resolution.rootId).getD 0 + 1)
      else counts
    | none => counts) []

/-- `annotate-message-threads` -/
def annotateMessageThreads (host : Whitespace) (items : List (Item U T)) : List (Row U T) :=
  let items := visibleChatItems items
  let messages := messagesOf items
  let index := byId messages
  let resolved := resolutions messages
  let counts := descendantCounts resolved messages
  items.map fun item ↦
    { item
      thread :=
        if item.kind = .message then
          (get? resolved item.id).map fun resolution ↦
            { rootId := resolution.rootId
              depth := resolution.depth
              rootKnown := resolution.rootKnown
              replyCount := (get? counts item.id).getD 0
              parent := item.inReplyTo.map fun parentId ↦
                (get? index parentId).map (threadParentPreview host) }
        else none }

section Replies

variable (messages : List (Item U T))

/-- The message `x` is a reply to `y`. -/
def Replies (x y : U) : Prop := ∃ message ∈ messages, message.id = x ∧ message.inReplyTo = some y

/-- The chain of replies from `id` runs into a cycle. -/
def Loops (id : U) : Prop :=
  ∃ x, ReflTransGen (Replies messages) id x ∧ TransGen (Replies messages) x x

end Replies

/-- A chain of replies ends at a message that is no reply, or an absent parent. -/
inductive Rooted (index : List (U × Item U T)) : Item U T → U → ℕ → Prop
  | top {current : Item U T} (htop : current.inReplyTo = none) : Rooted index current current.id 0
  | absent {current : Item U T} {parentId : U} (hreply : current.inReplyTo = some parentId)
    (hget : get? index parentId = none) : Rooted index current parentId 1
  | reply {current parent : Item U T} {parentId root : U} {depth : ℕ}
    (hreply : current.inReplyTo = some parentId) (hget : get? index parentId = some parent)
    (hparent : Rooted index parent root depth) : Rooted index current root (depth + 1)

section Walk

variable {index : List (U × Item U T)} {messages : List (Item U T)} {current parent : Item U T}

theorem Rooted.unique {r r' : U} {d d' : ℕ} (h : Rooted index current r d)
    (h' : Rooted index current r' d') : r = r' ∧ d = d' := by
  induction h generalizing r' d' with
  | top htop =>
    cases h' with
    | top => exact ⟨rfl, rfl⟩
    | absent hreply | reply hreply => exact nomatch htop.symm.trans hreply
  | absent hreply hget =>
    cases h' with
    | top htop => exact nomatch htop.symm.trans hreply
    | absent hreply' =>
      cases hreply.symm.trans hreply'
      exact ⟨rfl, rfl⟩
    | reply hreply' hget' =>
      cases hreply.symm.trans hreply'
      exact nomatch hget.symm.trans hget'
  | reply hreply hget _ ih =>
    cases h' with
    | top htop => exact nomatch htop.symm.trans hreply
    | absent hreply' hget' =>
      cases hreply.symm.trans hreply'
      exact nomatch hget.symm.trans hget'
    | reply hreply' hget' hparent' =>
      cases hreply.symm.trans hreply'
      cases hget.symm.trans hget'
      obtain ⟨hroot, hdepth⟩ := ih hparent'
      exact ⟨hroot, congrArg (· + 1) hdepth⟩

/-- A walk up a chain that ends comes to its end: what it has seen lies below. -/
theorem walk_of_rooted {root? : Option U} {id r : U} {d depth : ℕ} {seen : List U}
    (h : Rooted index current r d) (hseen : ∀ x ∈ seen, ∃ message r' d',
      get? index x = some message ∧ Rooted index message r' d' ∧ d ≤ d') :
    walk index root? id current depth seen =
      ⟨root?.getD r, depth + d, (get? index (root?.getD r)).isSome⟩ := by
  induction h generalizing depth seen with
  | top htop =>
    rw [walk]
    simp only [htop, add_zero]
  | @absent current parentId hreply hget =>
    have hunseen : parentId ∉ seen := by
      intro hmem
      obtain ⟨message, -, -, hmessage, -⟩ := hseen parentId hmem
      exact nomatch hget.symm.trans hmessage
    rw [walk]
    simp only [hreply, dif_neg hunseen]
    split
    · next hsome => exact nomatch hget.symm.trans hsome
    · rfl
  | @reply current parent parentId root depth' hreply hget hparent ih =>
    have hunseen : parentId ∉ seen := by
      intro hmem
      obtain ⟨message, r', d', hmessage, hrooted, hle⟩ := hseen parentId hmem
      cases hget.symm.trans hmessage
      have := (hparent.unique hrooted).2
      omega
    rw [walk]
    simp only [hreply, dif_neg hunseen]
    split
    · next found hfound =>
      cases hget.symm.trans hfound
      rw [ih fun x hx ↦ ?_]
      · congr 1
        omega
      · rcases mem_cons.mp hx with rfl | hx
        · exact ⟨parent, root, depth', hget, hparent, le_refl _⟩
        · obtain ⟨message, r', d', hmessage, hrooted, hle⟩ := hseen x hx
          exact ⟨message, r', d', hmessage, hrooted, by omega⟩
    · next hnone => exact nomatch hget.symm.trans hnone

section

variable (hnodup : (messages.map Item.id).Nodup)
include hnodup

theorem get?_byPairs {α : Type} {f : Item U T → α} (k : U) (a : α) :
    get? (ofPairs (messages.map fun message ↦ (message.id, f message))) k = some a ↔
      ∃ message ∈ messages, message.id = k ∧ f message = a := by
  have hkeys : ((messages.map fun message ↦ (message.id, f message)).reverse.map (·.1)).Nodup := by
    rw [List.map_reverse, List.map_map]
    exact nodup_reverse.mpr hnodup
  rw [get?_ofPairs, get?_eq_some_iff hkeys, List.mem_reverse, List.mem_map]
  simp only [Prod.mk.injEq]

theorem get?_byId {k : U} :
    get? (byId messages) k = some current ↔ current ∈ messages ∧ current.id = k := by
  unfold byId
  rw [get?_byPairs hnodup k current]
  constructor
  · rintro ⟨message, hmem, hid, rfl⟩
    exact ⟨hmem, hid⟩
  · exact fun ⟨hmem, hid⟩ ↦ ⟨current, hmem, hid, rfl⟩

/-- A chain that does not run into a cycle ends. -/
theorem rooted_of_not_loops (hmem : current ∈ messages) (hloops : ¬ Loops messages current.id) :
    ∃ r d, Rooted (byId messages) current r d := by
  have hwalk (n : ℕ) : ∀ (current : Item U T) (seen : List U), current ∈ messages →
      (∀ x ∈ seen, ReflTransGen (Replies messages) x current.id) →
      ¬ Loops messages current.id → unseen (byId messages) seen = n →
      ∃ r d, Rooted (byId messages) current r d := by
    induction n using Nat.strong_induction_on with
    | h n ih =>
      intro current seen hmem hseen hloops hn
      cases hreply : current.inReplyTo with
      | none => exact ⟨_, _, .top hreply⟩
      | some parentId =>
        have hedge : Replies messages current.id parentId := ⟨current, hmem, rfl, hreply⟩
        have hunseen : parentId ∉ seen := fun hparent ↦
          hloops ⟨current.id, .refl, .head' hedge (hseen parentId hparent)⟩
        cases hget : get? (byId messages) parentId with
        | none => exact ⟨_, _, .absent hreply hget⟩
        | some parent =>
          obtain ⟨hparent, hid⟩ := (get?_byId hnodup).mp hget
          have hbelow : ∀ x ∈ parentId :: seen, ReflTransGen (Replies messages) x parent.id := by
            intro x hx
            rw [hid]
            rcases mem_cons.mp hx with rfl | hx
            · exact .refl
            · exact (hseen x hx).tail hedge
          have hloops' : ¬ Loops messages parent.id := by
            rintro ⟨x, hx, hcycle⟩
            rw [hid] at hx
            exact hloops ⟨x, hx.head hedge, hcycle⟩
          obtain ⟨r, d, hrooted⟩ :=
            ih _ (hn ▸ unseen_lt hunseen hget) parent _ hparent hbelow hloops' rfl
          exact ⟨r, d + 1, .reply hreply hget hrooted⟩
  exact hwalk _ current [] hmem (fun _ h ↦ nomatch h) hloops rfl

end

section

variable (hnodup : (messages.map Item.id).Nodup) (hmem : current ∈ messages)
include hnodup hmem

theorem resolveThread_of_rooted {r : U} {d : ℕ} (h : Rooted (byId messages) current r d) :
    resolveThread (byId messages) current = ⟨current.threadRootId.getD r, d,
        (get? (byId messages) (current.threadRootId.getD r)).isSome⟩ := by
  unfold resolveThread
  rw [walk_of_rooted h, zero_add]
  intro x hx
  obtain rfl := mem_singleton.mp hx
  exact ⟨current, r, d, (get?_byId hnodup).mpr ⟨hmem, rfl⟩, h, le_refl d⟩

/-- The resolution of a reply is that of its parent, one deeper. -/
theorem resolveThread_reply (hparent : parent ∈ messages)
    (hreply : current.inReplyTo = some parent.id) (hroot : current.threadRootId = none)
    (hroot' : parent.threadRootId = none) (hloops : ¬ Loops messages current.id) :
    (resolveThread (byId messages) current).rootId = (resolveThread (byId messages) parent).rootId ∧
      (resolveThread (byId messages) current).depth =
        (resolveThread (byId messages) parent).depth + 1 := by
  have hget := (get?_byId hnodup).mpr ⟨hparent, rfl⟩
  have hloops' : ¬ Loops messages parent.id := fun ⟨x, hx, hcycle⟩ ↦
    hloops ⟨x, hx.head ⟨current, hmem, rfl, hreply⟩, hcycle⟩
  obtain ⟨r, d, hrooted⟩ := rooted_of_not_loops hnodup hparent hloops'
  rw [resolveThread_of_rooted hnodup hmem (.reply hreply hget hrooted),
    resolveThread_of_rooted hnodup hparent hrooted, hroot, hroot']
  exact ⟨rfl, rfl⟩

theorem resolveThread_absent {parentId : U} (hreply : current.inReplyTo = some parentId)
    (habsent : ∀ message ∈ messages, message.id ≠ parentId) (hroot : current.threadRootId = none) :
    resolveThread (byId messages) current = ⟨parentId, 1, false⟩ := by
  have hget : get? (byId messages) parentId = none := by
    rw [eq_none_iff_forall_ne_some]
    intro message hmessage
    obtain ⟨hmem, hid⟩ := (get?_byId hnodup).mp hmessage
    exact habsent message hmem hid
  rw [resolveThread_of_rooted hnodup hmem (.absent hreply hget), hroot]
  change Resolution.mk parentId 1 (get? (byId messages) parentId).isSome = _
  rw [hget]
  rfl

theorem resolveThread_top (htop : current.inReplyTo = none) (hroot : current.threadRootId = none) :
    resolveThread (byId messages) current = ⟨current.id, 0, true⟩ := by
  rw [resolveThread_of_rooted hnodup hmem (.top htop), hroot]
  change Resolution.mk current.id 0 (get? (byId messages) current.id).isSome = _
  rw [(get?_byId hnodup).mpr ⟨hmem, rfl⟩]
  rfl

theorem get?_resolutions :
    get? (resolutions messages) current.id = some (resolveThread (byId messages) current) :=
  (get?_byPairs hnodup _ _).mpr ⟨current, hmem, rfl, rfl⟩

end

end Walk

theorem get?_descendantCounts (resolved : List (U × Resolution U)) (messages : List (Item U T))
    (id : U) : (get? (descendantCounts resolved messages) id).getD 0 =
      messages.countP fun message ↦ (get? resolved message.id).any fun resolution ↦
        message.id ≠ resolution.rootId && resolution.rootId = id := by
  have hcounts (counts : List (U × ℕ)) : (get? (messages.foldl (fun counts message ↦
      match get? resolved message.id with
      | some resolution =>
        if message.id ≠ resolution.rootId then
          assoc counts resolution.rootId ((get? counts resolution.rootId).getD 0 + 1)
        else counts
      | none => counts) counts) id).getD 0 = (get? counts id).getD 0 +
        messages.countP fun message ↦ (get? resolved message.id).any fun resolution ↦
          message.id ≠ resolution.rootId && resolution.rootId = id := by
    induction messages generalizing counts with
    | nil => rfl
    | cons message messages ih =>
      rw [foldl_cons, ih, countP_cons]
      cases hresolved : get? resolved message.id with
      | none => rfl
      | some resolution =>
        by_cases hself : message.id = resolution.rootId
        · simp [hself]
        · by_cases hroot : resolution.rootId = id
          · subst hroot
            simp only [hself, ne_eq, not_false_eq_true, if_true, get?_assoc, getD_some,
              any_some, decide_true, Bool.and_self]
            omega
          · simp [hself, hroot, get?_assoc]
  have hempty := hcounts []
  rwa [show (get? ([] : List (U × ℕ)) id).getD 0 = 0 from rfl, zero_add] at hempty

section Rows

variable {host : Whitespace} {items : List (Item U T)} {row parent : Row U T}

/-- What the rows of an annotated timeline say of its visible items. -/
structure Annotated (items : List (Item U T)) (rows : List (Row U T)) : Prop where
  kept : rows.map Row.item = visibleChatItems items
  messages : ∀ row ∈ rows, row.thread.isSome ↔ row.item.kind = .message
  reply : ∀ row ∈ rows, ∀ parent ∈ rows, ∀ thread above, row.thread = some thread →
    parent.thread = some above → row.item.inReplyTo = some parent.item.id →
    row.item.threadRootId = none → parent.item.threadRootId = none →
    ¬ Loops (messagesOf (visibleChatItems items)) row.item.id →
    thread.rootId = above.rootId ∧ thread.depth = above.depth + 1
  absent : ∀ row ∈ rows, ∀ thread parentId, row.thread = some thread →
    row.item.inReplyTo = some parentId → row.item.threadRootId = none →
    (∀ other ∈ rows, other.thread.isSome → other.item.id ≠ parentId) →
    thread.rootId = parentId ∧ thread.rootKnown = false
  top : ∀ row ∈ rows, ∀ thread, row.thread = some thread → row.item.inReplyTo = none →
    row.item.threadRootId = none → thread.rootId = row.item.id ∧ thread.depth = 0
  counted : ∀ row ∈ rows, ∀ thread, row.thread = some thread →
    thread.replyCount = rows.countP fun other ↦
      other.item.id ≠ row.item.id && other.thread.any (·.rootId = row.item.id)

omit [DecidableEq U] in
theorem nodup_visible (hnodup : ((messagesOf items).map Item.id).Nodup) :
    ((messagesOf (visibleChatItems items)).map Item.id).Nodup := by
  have hcomm : messagesOf (visibleChatItems items) = visibleChatItems (messagesOf items) := by
    unfold messagesOf visibleChatItems
    rw [List.filter_filter, List.filter_filter]
    apply filter_congr
    intro item _
    exact Bool.and_comm _ _
  rw [hcomm]
  exact hnodup.sublist (filter_sublist.map Item.id)

theorem annotate_item (host : Whitespace) (items : List (Item U T)) :
    (annotateMessageThreads host items).map Row.item = visibleChatItems items := by
  unfold annotateMessageThreads
  rw [List.map_map]
  exact map_id _

/-- Other rows of the thread of a message, counted by their messages. -/
theorem countP_annotate (hnodup : ((messagesOf items).map Item.id).Nodup) (id : U) :
    ((annotateMessageThreads host items).countP fun other ↦
      other.item.id ≠ id && other.thread.any (·.rootId = id)) =
    (get? (descendantCounts (resolutions (messagesOf (visibleChatItems items)))
      (messagesOf (visibleChatItems items))) id).getD 0 := by
  rw [get?_descendantCounts]
  unfold annotateMessageThreads
  rw [countP_map]
  conv_rhs => rw [messagesOf, countP_filter]
  apply countP_congr
  intro item hitem
  dsimp only [Function.comp_apply]
  by_cases hkind : item.kind = .message
  · have hmem : item ∈ messagesOf (visibleChatItems items) :=
      mem_filter.mpr ⟨hitem, by simpa using hkind⟩
    rw [if_pos hkind]
    change (_ && Option.any _ (Option.map _ (get? (resolutions _) item.id))) ↔
      (Option.any _ (get? (resolutions (messagesOf (visibleChatItems items))) item.id) && _)
    rw [get?_resolutions (nodup_visible hnodup) hmem]
    simp only [map_some, any_some, hkind, decide_true, Bool.and_true, Bool.and_eq_true,
      decide_eq_true_eq]
    constructor
    · rintro ⟨hne, rfl⟩
      exact ⟨hne, rfl⟩
    · rintro ⟨hne, rfl⟩
      exact ⟨hne, rfl⟩
  · simp [hkind]

def exampleHost : Whitespace := ⟨(· = 32), (· = 32)⟩

section

variable (hnodup : ((messagesOf items).map Item.id).Nodup)
  (hrow : row ∈ annotateMessageThreads host items)
include hnodup hrow

/-- The row of a message. -/
theorem mem_annotate : row.item ∈ visibleChatItems items ∧ ∀ thread, row.thread = some thread →
      row.item ∈ messagesOf (visibleChatItems items) ∧
      resolveThread (byId (messagesOf (visibleChatItems items))) row.item =
        ⟨thread.rootId, thread.depth, thread.rootKnown⟩ ∧
      thread.replyCount = (get? (descendantCounts (resolutions (messagesOf (visibleChatItems items)))
        (messagesOf (visibleChatItems items))) row.item.id).getD 0 := by
  obtain ⟨item, hitem, rfl⟩ := mem_map.mp hrow
  refine ⟨hitem, fun thread hthread ↦ ?_⟩
  split at hthread
  · next hkind =>
    have hmem : item ∈ messagesOf (visibleChatItems items) :=
      mem_filter.mpr ⟨hitem, by simpa using hkind⟩
    rw [get?_resolutions (nodup_visible hnodup) hmem, map_some, some.injEq] at hthread
    subst hthread
    exact ⟨hmem, rfl, rfl⟩
  · exact nomatch hthread

theorem thread_isSome : row.thread.isSome ↔ row.item.kind = .message := by
  obtain ⟨item, hitem, rfl⟩ := mem_map.mp hrow
  split
  · next hkind =>
    have hmem : item ∈ messagesOf (visibleChatItems items) :=
      mem_filter.mpr ⟨hitem, by simpa using hkind⟩
    rw [get?_resolutions (nodup_visible hnodup) hmem]
    simp [hkind]
  · next hkind => simp [hkind]

/-- The reply count of a root is the number of the other messages of its thread. -/
theorem replyCount_eq {thread : Thread U} (hthread : row.thread = some thread) :
    thread.replyCount = (annotateMessageThreads host items).countP fun other ↦
      other.item.id ≠ row.item.id && other.thread.any (·.rootId = row.item.id) := by
  rw [((mem_annotate hnodup hrow).2 thread hthread).2.2, ← countP_annotate hnodup row.item.id]

end

/-- Annotation keeps the visible items in order, and agrees with the graph of replies. -/
theorem threads_agree (host : Whitespace) (hnodup : ((messagesOf items).map Item.id).Nodup) :
    Annotated items (annotateMessageThreads host items) where
  kept := annotate_item host items
  messages row hrow := thread_isSome hnodup hrow
  reply row hrow parent hparent thread above hthread habove hreply hroot hroot' hloops := by
    obtain ⟨hmem, hresolve, -⟩ := (mem_annotate hnodup hrow).2 thread hthread
    obtain ⟨hmem', hresolve', -⟩ := (mem_annotate hnodup hparent).2 above habove
    have hagree := resolveThread_reply (nodup_visible hnodup) hmem hmem' hreply hroot hroot' hloops
    rwa [hresolve, hresolve'] at hagree
  absent row hrow thread parentId hthread hreply hroot habsent := by
    obtain ⟨hmem, hresolve, -⟩ := (mem_annotate hnodup hrow).2 thread hthread
    have hnone : ∀ message ∈ messagesOf (visibleChatItems items), message.id ≠ parentId := by
      intro message hmessage
      obtain ⟨hvisible, hkind⟩ := mem_filter.mp hmessage
      rw [← annotate_item host items] at hvisible
      obtain ⟨other, hother, rfl⟩ := mem_map.mp hvisible
      exact habsent other hother ((thread_isSome hnodup hother).mpr (by simpa using hkind))
    have hagree := resolveThread_absent (nodup_visible hnodup) hmem hreply hnone hroot
    rw [hresolve, Resolution.mk.injEq] at hagree
    exact ⟨hagree.1, hagree.2.2⟩
  top row hrow thread hthread htop hroot := by
    obtain ⟨hmem, hresolve, -⟩ := (mem_annotate hnodup hrow).2 thread hthread
    have hagree := resolveThread_top (nodup_visible hnodup) hmem htop hroot
    rw [hresolve, Resolution.mk.injEq] at hagree
    exact ⟨hagree.1, hagree.2.1⟩
  counted row hrow thread hthread := replyCount_eq hnodup hrow hthread

/-- `threads_agree` for a reply, its parent and an item that is not shown. -/
def exampleItems : List (Item ℕ ℕ) :=
  [⟨1, .message, 10, none, none, none, none, none, none⟩,
    ⟨2, .message, 20, none, none, some 1, none, none, none⟩,
    ⟨3, .message, 30, some "_runs", none, some 2, none, none, none⟩]

theorem threads_agree_example :
    Annotated exampleItems (annotateMessageThreads exampleHost exampleItems) :=
  threads_agree exampleHost (by decide)

/-- An item of a private run is not among the rows. -/
theorem private_item_dropped : ((messagesOf exampleItems).map Item.id).Nodup ∧
      (annotateMessageThreads exampleHost exampleItems).map Row.item ≠ exampleItems := by
  decide

end Rows

end Simmis.Chat
