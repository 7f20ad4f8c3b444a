import ProtonDrive.DriveSession

/-!
# The event poller

`handle` of `events.go` turns one link event into notifications for the C backend and drops
what the caches hold about the link. Each branch tries several ways to find out what
changed; an attempt either returns early with its notifications or passes the session on to
the next one. Enqueueing touches nothing but the queue, so a branch returns the
notifications it enqueues, in order.
-/

namespace ProtonDrive.EventPoller
open SlashPaths KeyedMaps FallibleSteps DriveApi DriveSession DriveSession.Session

inductive EventType
  | changed | deleted | created
  deriving DecidableEq, Repr

structure DriveEvent where
  type : EventType
  linkID : LinkID
  path : Path
  deriving DecidableEq, Repr

def eventBufferSize : ℕ := 64

/-- Append to the queue; when it is full the oldest notification is dropped. -/
def enqueue (queue : List DriveEvent) (ev : DriveEvent) : List DriveEvent :=
  (if eventBufferSize ≤ queue.length then queue.drop 1 else queue) ++ [ev]

variable {KR : Type}

/-- A success is an early return with notifications; a failure hands the session on. -/
abbrev Attempt (KR : Type) := Outcome Unit (Session KR) (List DriveEvent)

def handled (evs : List DriveEvent) (s : Session KR) : Attempt KR := ⟨.ok evs, s⟩

def pass (s : Session KR) : Attempt KR := ⟨.error (), s⟩

/-- The map from decrypted name to link; undecryptable links are skipped. -/
def decryptNames (C : Crypto KR) (kr : KR) (links : List Link) : KeyMap Path LinkID :=
  ofPairs (links.filterMap fun l => (C.getName l kr).map fun n => (n, l.linkID))

/-- One notification for each name of `names` that `others` lacks. -/
def namesOnlyIn (order : RangeOrder Path) (type : EventType) (dirPath : Path)
    (names others : KeyMap Path LinkID) : List DriveEvent :=
  (order.arrange names.keys).filterMap fun name =>
    if (others.lookup name).isSome then none
    else (names.lookup name).map fun id => ⟨type, id, child dirPath name⟩

/-- Record the path of every decryptable link of a listing. -/
def recordChildren (C : Crypto KR) (dirPath : Path) (kr : KR) (links : List Link)
    (s : Session KR) : Session KR :=
  links.foldl (fun s l => match C.getName l kr with
    | some name => s.setLinkPath l.linkID (child dirPath name)
    | none => s) s

/-- `s.blocks.InvalidateLink`; without a block cache the call dereferences nil. -/
def dropBlocks (id : LinkID) (s : Session KR) : Option (Session KR) :=
  s.blocks.map fun bc => { s with blocks := some (bc.invalidateLink id) }

variable (C : Crypto KR) (w : World)

/-- The notifications of a diff: what appeared, then what disappeared. -/
def diffEvents (tick : ℕ) (dirPath : Path) (kr : KR) (old new : List Link) : List DriveEvent :=
  let oldNames := decryptNames C kr old
  let newNames := decryptNames C kr new
  namesOnlyIn (w.nameOrder tick) .created dirPath newNames oldNames ++
    namesOnlyIn (w.nameOrder (tick + 1)) .deleted dirPath oldNames newNames

def diffAndEmit (dirPath : Path) (dirLinkID : LinkID) (dirKR : KR) (oldLinks : List Link)
    (s : Session KR) : Attempt KR :=
  match s.callAPI w (fun srv => srv.children dirLinkID) with
  | ⟨.error _, s⟩ => pass s
  | ⟨.ok newLinks, s⟩ =>
    let s := setList w (recordChildren C dirPath dirKR newLinks s) dirPath newLinks dirKR
    handled (diffEvents C w s.ticks dirPath dirKR oldLinks newLinks) s.tick.tick

/-- The guarded diff of a directory with a known path, listing and keyring. -/
def diffCached (dirPath : Path) (dirLinkID : LinkID) (old : Option (List Link × KR))
    (s : Session KR) : Attempt KR :=
  if dirPath = [] then pass s
  else match old, s.nodeKRs.lookup dirLinkID with
    | some r, some kr => diffAndEmit C w dirPath dirLinkID kr r.1 s
    | _, _ => pass s

/-- The last resort of a branch: the path changed, if one is known. -/
def announceChanged (linkID : LinkID) (p : Path) (s : Session KR) : Attempt KR :=
  handled (if p = [] then [] else [⟨.changed, linkID, p⟩]) s

/-- The name of a created link, from the event or else from the API. -/
def createdName (link : Link) (parentKR : KR) (s : Session KR) : Option Path × Session KR :=
  match C.getName link parentKR with
  | some name => (some name, s)
  | none => match s.callAPI w (fun srv => srv.link link.linkID) with
    | ⟨.ok fullLink, s⟩ => (C.getName fullLink parentKR, s)
    | ⟨.error _, s⟩ => (none, s)

def announceCreated (link : Link) (parentPath : Path) (s : Session KR) : Attempt KR :=
  if parentPath = [] then pass s
  else match s.nodeKRs.lookup link.parentLinkID with
    | none => pass s
    | some parentKR => match createdName C w link parentKR s with
      | (none, s) => pass s
      | (some name, s) =>
        if name = [] then pass s
        else handled [⟨.created, link.linkID, child parentPath name⟩]
          (s.setLinkPath link.linkID (child parentPath name))

/-- A link found in the trash is announced as deleted and its path is forgotten. -/
def announceTrashed (linkID : LinkID) (p : Path) (s : Session KR) : Attempt KR :=
  if p = [] then pass s
  else match s.callAPI w (fun srv => srv.link linkID) with
    | ⟨.error _, s⟩ => pass s
    | ⟨.ok link, s⟩ =>
      if link.state = .trashed ∨ link.state = .deleted then
        handled [⟨.deleted, linkID, p⟩] { s with linkPaths := s.linkPaths.erase linkID }
      else pass s

/-- The invalidations at the head of the Delete branch. -/
def invalidateDeleted (link : Link) (s : Session KR) : Session KR :=
  let path := s.linkPath link.linkID
  let s := s.invalidatePath path
  if path = [] then s.invalidateLinkID w link.parentLinkID else s

/-- The invalidations of the Create branch. -/
def invalidateCreated (link : Link) (s : Session KR) : Session KR :=
  let parentPath := s.linkPath link.parentLinkID
  if parentPath = [] then s.invalidateLinkID w link.parentLinkID else s.invalidatePath parentPath

/-- The invalidations of the default branch. -/
def invalidateUpdated (link : Link) (s : Session KR) : Session KR :=
  let path := s.linkPath link.linkID
  let parentPath := s.linkPath link.parentLinkID
  let s := s.invalidatePath path
  let s := if parentPath ≠ [] ∧ parentPath ≠ path then s.invalidatePath parentPath else s
  if path = [] then s.invalidateLinkID w link.parentLinkID else s

/-- The notifications of the Delete branch; `before` is the session it started from. -/
def announceDelete (link : Link) (before s : Session KR) : Attempt KR :=
  let path := before.linkPath link.linkID
  let parentPath := before.linkPath link.parentLinkID
  if path = [] then announceChanged link.linkID parentPath s
  else handled [⟨.deleted, link.linkID, path⟩] s

/-- The Create branch: by name, else by a diff of the parent, else the parent changed. -/
def announceCreate (link : Link) (before s : Session KR) : Attempt KR :=
  let parentPath := before.linkPath link.parentLinkID
  let old := before.metaCache.getListStale parentPath
  (announceCreated C w link parentPath s).recover fun _ s =>
    (diffCached C w parentPath link.parentLinkID old s).recover fun _ s =>
      announceChanged link.linkID parentPath s

/-- The default branch: a diff of the link's own listing, else of the parent's, else the
state of the link, else something changed. -/
def announceUpdate (link : Link) (before s : Session KR) : Attempt KR :=
  let path := before.linkPath link.linkID
  let parentPath := before.linkPath link.parentLinkID
  let old := before.metaCache.getListStale path
  let oldParent := before.metaCache.getListStale parentPath
  (diffCached C w path link.linkID old s).recover fun _ s =>
    (diffCached C w parentPath link.parentLinkID oldParent s).recover fun _ s =>
      (announceTrashed w link.linkID path s).recover fun _ s =>
        announceChanged link.linkID (if path = [] then parentPath else path) s

def handleDelete (link : Link) (s : Session KR) : Option (Attempt KR) :=
  (dropBlocks link.linkID (invalidateDeleted w link s)).map (announceDelete link s)

def handleCreate (link : Link) (s : Session KR) : Attempt KR :=
  announceCreate C w link s (invalidateCreated w link s)

def handleUpdate (link : Link) (s : Session KR) : Option (Attempt KR) :=
  (dropBlocks link.linkID (invalidateUpdated w link s)).map (announceUpdate C w link s)

/-- Handle one link event; `none` is a crash of the helper. -/
def handle (le : LinkEvent) (s : Session KR) : Option (Attempt KR) :=
  match le.eventType with
  | .delete => handleDelete w le.link s
  | .create => some (handleCreate C w le.link s)
  | .update | .updateMetadata => handleUpdate C w le.link s

section Names

variable {C : Crypto KR} {kr : KR} {links : List Link} {n : Path}

theorem mem_keys_decryptNames :
    n ∈ (decryptNames C kr links).keys ↔ ∃ l ∈ links, C.getName l kr = some n := by
  simp only [decryptNames, mem_keys_ofPairs, List.mem_filterMap, Option.map_eq_some_iff]
  constructor
  · rintro ⟨id, l, hl, m, hm, hp⟩
    cases hp
    exact ⟨l, hl, hm⟩
  · rintro ⟨l, hl, hn⟩
    exact ⟨l.linkID, l, hl, n, hn, rfl⟩

theorem lookup_decryptNames_isSome :
    ((decryptNames C kr links).lookup n).isSome ↔ ∃ l ∈ links, C.getName l kr = some n := by
  rw [← mem_keys_decryptNames, mem_keys_iff, Option.isSome_iff_exists]

theorem mem_namesOnlyIn {order : RangeOrder Path} {type : EventType} {dirPath : Path}
    {names others : KeyMap Path LinkID} {x : DriveEvent} :
    x ∈ namesOnlyIn order type dirPath names others ↔
      ∃ n id, names.lookup n = some id ∧ others.lookup n = none ∧
        x = ⟨type, id, child dirPath n⟩ := by
  simp only [namesOnlyIn, List.mem_filterMap, RangeOrder.mem_arrange, mem_keys_iff]
  constructor
  · rintro ⟨n, ⟨id, hid⟩, hx⟩
    split_ifs at hx with ho
    rw [hid] at hx
    cases hx
    exact ⟨n, id, hid, Option.not_isSome_iff_eq_none.mp ho, rfl⟩
  · rintro ⟨n, id, hid, ho, rfl⟩
    exact ⟨n, ⟨id, hid⟩, by simp [ho, hid]⟩

end Names

section Frames

variable {C : Crypto KR} {w : World} {s : Session KR}

/-- The parts of a session that an attempt leaves alone. -/
structure Kept (s s' : Session KR) : Prop where
  stats : s'.metaCache.stats = s.metaCache.stats
  pathLinks : s'.pathLinks = s.pathLinks
  nodeKRs : s'.nodeKRs = s.nodeKRs
  rootID : s'.rootID = s.rootID
  blocks : s'.blocks = s.blocks
  ticks : s.ticks ≤ s'.ticks

theorem Kept.refl (s : Session KR) : Kept s s := ⟨rfl, rfl, rfl, rfl, rfl, le_rfl⟩

theorem Kept.trans {s₁ s₂ s₃ : Session KR} (h : Kept s₁ s₂) (h' : Kept s₂ s₃) : Kept s₁ s₃ :=
  ⟨h'.stats.trans h.stats, h'.pathLinks.trans h.pathLinks, h'.nodeKRs.trans h.nodeKRs,
    h'.rootID.trans h.rootID, h'.blocks.trans h.blocks, h.ticks.trans h'.ticks⟩

theorem kept_tick (s : Session KR) : Kept s s.tick :=
  ⟨rfl, rfl, rfl, rfl, rfl, Nat.le_succ _⟩

/-- Recording a listing changes nothing but the recorded paths. -/
theorem recordChildren_eq (dirPath : Path) (kr : KR) (links : List Link) (s : Session KR) :
    recordChildren C dirPath kr links s =
      { s with linkPaths := (recordChildren C dirPath kr links s).linkPaths } := by
  simp only [recordChildren]
  induction links generalizing s with
  | nil => rfl
  | cons l links ih =>
    rw [List.foldl_cons, ih]
    cases C.getName l kr <;> rfl

/-- The session a successful diff leaves behind. -/
def relisted (C : Crypto KR) (w : World) (dirPath : Path) (kr : KR) (links : List Link)
    (s : Session KR) : Session KR :=
  (setList w (recordChildren C dirPath kr links s) dirPath links kr).tick.tick

theorem kept_relisted (dirPath : Path) (kr : KR) (links : List Link) (s : Session KR) :
    Kept s (relisted C w dirPath kr links s) := by
  simp only [relisted]
  rw [recordChildren_eq]
  exact ⟨rfl, rfl, rfl, rfl, rfl, by simp only [Session.tick, setList]; omega⟩

/-- A diff fetches the listing at once; it fails only when that call fails. -/
theorem diffAndEmit_spec (d : Path) (id : LinkID) (kr : KR) (old : List Link) (s : Session KR) :
    (diffAndEmit C w d id kr old s).Sat
      (fun evs s' => ∃ new, w.fails s.ticks = none ∧ (w.server s.ticks).children id = some new ∧
        evs = diffEvents C w (s.ticks + 2) d kr old new ∧ s' = relisted C w d kr new s.tick)
      (fun _ s' => s' = s.tick ∧
        (w.fails s.ticks = none → (w.server s.ticks).children id = none)) := by
  simp only [diffAndEmit]
  rcases callAPI_cases w s (fun srv => srv.children id) with ⟨new, hf, hn, hc⟩ | ⟨e, hn, hc⟩
  · rw [hc]
    refine ⟨new, hf, hn, ?_, rfl⟩
    rw [recordChildren_eq]
    rfl
  · rw [hc]
    exact ⟨rfl, hn⟩

/-- What `diffCached` compares: the old listing and the keyring, when all guards hold. -/
def diffable (dirPath : Path) (dirLinkID : LinkID) (old : Option (List Link × KR))
    (s : Session KR) : Option (List Link × KR) :=
  if dirPath = [] then none
  else old.bind fun r => (s.nodeKRs.lookup dirLinkID).map fun kr => (r.1, kr)

theorem diffCached_eq (d : Path) (id : LinkID) (old : Option (List Link × KR)) (s : Session KR) :
    diffCached C w d id old s = match diffable d id old s with
      | none => pass s
      | some r => diffAndEmit C w d id r.2 r.1 s := by
  simp only [diffCached, diffable]
  split_ifs
  · rfl
  · cases old with
    | none => rfl
    | some r => cases s.nodeKRs.lookup id <;> rfl

/-- A comparison is made when all guards hold, and then fails only with its API call. -/
theorem diffCached_spec (hf : w.fails s.ticks = none) (d : Path) (id : LinkID)
    (old : Option (List Link × KR)) :
    (diffCached C w d id old s).Sat
      (fun evs s' => ∃ r new, diffable d id old s = some r ∧
        (w.server s.ticks).children id = some new ∧
        evs = diffEvents C w (s.ticks + 2) d r.2 r.1 new ∧ s' = relisted C w d r.2 new s.tick)
      (fun _ s' => (s' = s ∧ diffable d id old s = none) ∨
        (s' = s.tick ∧ (diffable d id old s).isSome ∧ (w.server s.ticks).children id = none)) := by
  rw [diffCached_eq]
  cases hd : diffable d id old s with
  | none => exact .inl ⟨rfl, rfl⟩
  | some r =>
    refine (diffAndEmit_spec d id r.2 r.1 s).mono ?_ ?_
    · rintro _ _ ⟨new, -, hn, rfl, rfl⟩
      exact ⟨r, new, rfl, hn, rfl, rfl⟩
    · rintro _ _ ⟨rfl, hn⟩
      exact .inr ⟨rfl, rfl, hn hf⟩

theorem diffCached_kept (d : Path) (id : LinkID) (old : Option (List Link × KR))
    (s : Session KR) :
    (diffCached C w d id old s).Sat (fun _ => Kept s) (fun _ => Kept s) := by
  rw [diffCached_eq]
  cases diffable d id old s with
  | none => exact Kept.refl s
  | some r =>
    refine (diffAndEmit_spec d id r.2 r.1 s).mono ?_ ?_
    · rintro _ _ ⟨new, -, -, -, rfl⟩
      exact (kept_tick s).trans (kept_relisted d r.2 new s.tick)
    · rintro _ _ ⟨rfl, -⟩
      exact kept_tick s

/-- The session moves on by one tick or not at all. -/
def Ticked (s s' : Session KR) : Prop := s' = s ∨ s' = s.tick

theorem Ticked.kept {s s' : Session KR} (h : Ticked s s') : Kept s s' := by
  rcases h with rfl | rfl
  · exact Kept.refl _
  · exact kept_tick s

theorem createdName_ticked (link : Link) (kr : KR) (s : Session KR) :
    Ticked s (createdName C w link kr s).2 := by
  simp only [createdName]
  cases C.getName link kr with
  | some n => exact .inl rfl
  | none =>
    rcases callAPI_cases w s (fun srv => srv.link link.linkID) with ⟨l, -, -, hc⟩ | ⟨e, -, hc⟩
    · rw [hc]; exact .inr rfl
    · rw [hc]; exact .inr rfl

/-- The name a Create event can be announced with, when its parent is known. -/
def announcedName (C : Crypto KR) (w : World) (link : Link) (d : Path) (s : Session KR) :
    Option Path :=
  if d = [] then none
  else (s.nodeKRs.lookup link.parentLinkID).bind fun kr =>
    (createdName C w link kr s).1.filter (· ≠ [])

theorem announceCreated_spec (link : Link) (d : Path) (s : Session KR) :
    (announceCreated C w link d s).Sat
      (fun evs s' => ∃ n s₁, announcedName C w link d s = some n ∧ d ≠ [] ∧ Ticked s s₁ ∧
        evs = [⟨.created, link.linkID, child d n⟩] ∧ s' = s₁.setLinkPath link.linkID (child d n))
      (fun _ s' => Ticked s s' ∧ announcedName C w link d s = none) := by
  simp only [announceCreated, announcedName]
  split_ifs with hd
  · exact ⟨.inl rfl, rfl⟩
  cases hk : s.nodeKRs.lookup link.parentLinkID with
  | none => exact ⟨.inl rfl, rfl⟩
  | some kr =>
    have ht := createdName_ticked (C := C) (w := w) link kr s
    rcases hc : createdName C w link kr s with ⟨_ | n, s₁⟩
    · rw [hc] at ht
      simp only [hc]
      exact ⟨ht, by simp [hc]⟩
    · rw [hc] at ht
      simp only [hc]
      split_ifs with hn
      · exact ⟨ht, by simp [hc, hn]⟩
      · exact ⟨n, s₁, by simp [hc, hn], hd, ht, rfl, rfl⟩

theorem announceTrashed_spec (id : LinkID) (p : Path) (s : Session KR) :
    (announceTrashed w id p s).Sat
      (fun evs s' => ∃ l, p ≠ [] ∧ w.fails s.ticks = none ∧
        (w.server s.ticks).link id = some l ∧ (l.state = .trashed ∨ l.state = .deleted) ∧
        evs = [⟨.deleted, id, p⟩] ∧ s' = { s.tick with linkPaths := s.linkPaths.erase id })
      (fun _ s' => Ticked s s' ∧ (p ≠ [] → w.fails s.ticks = none →
        ∀ l, (w.server s.ticks).link id = some l → l.state ≠ .trashed ∧ l.state ≠ .deleted)) := by
  simp only [announceTrashed]
  split_ifs with hp
  · exact ⟨.inl rfl, fun h => absurd hp h⟩
  rcases callAPI_cases w s (fun srv => srv.link id) with ⟨l, hf, hl, hc⟩ | ⟨e, hn, hc⟩
  · simp only [hc]
    split_ifs with hs
    · exact ⟨l, hp, hf, hl, hs, rfl, rfl⟩
    · refine ⟨.inr rfl, fun _ _ l' hl' => ?_⟩
      cases hl.symm.trans hl'
      exact not_or.mp hs
  · rw [hc]
    exact ⟨.inr rfl, fun _ hf l hl => nomatch (hn hf).symm.trans hl⟩

end Frames

section Paths

variable {C : Crypto KR} {w : World} {s : Session KR}

/-- Every path on record is an absolute path. -/
def PathsAbsolute (s : Session KR) : Prop :=
  ∀ id p, s.linkPaths.lookup id = some p → IsAbsolute p

theorem linkPath_absolute (hs : PathsAbsolute s) {id : LinkID} (h : s.linkPath id ≠ []) :
    IsAbsolute (s.linkPath id) := by
  simp only [Session.linkPath] at *
  cases hp : s.linkPaths.lookup id with
  | none => simp [hp] at h
  | some p => exact hs id p hp

theorem announcedName_component (hC : C.NamesAreComponents) {link : Link} {d n : Path}
    (h : announcedName C w link d s = some n) : IsComponent n := by
  simp only [announcedName] at h
  split_ifs at h
  obtain ⟨kr, -, hn⟩ := Option.bind_eq_some_iff.mp h
  have hn' := (Option.filter_eq_some_iff.mp hn).1
  simp only [createdName] at hn'
  cases hg : C.getName link kr with
  | some m =>
    rw [hg] at hn'
    cases hn'
    exact hC link kr n hg
  | none =>
    rw [hg] at hn'
    have hcall := Session.callAPI_cases w s (fun srv => srv.link link.linkID)
    rcases hcall with ⟨l, -, -, hc⟩ | ⟨e, -, hc⟩
    · rw [hc] at hn'
      exact hC l kr n hn'
    · rw [hc] at hn'
      cases hn'

end Paths

section Invalidations

variable {w : World} {link : Link} {s s' : Session KR}

theorem dropBlocks_eq_some {id : LinkID} (h : dropBlocks id s = some s') :
    ∃ bc, s.blocks = some bc ∧ s' = { s with blocks := some (bc.invalidateLink id) } := by
  obtain ⟨bc, hb, rfl⟩ := Option.map_eq_some_iff.mp h
  exact ⟨bc, hb, rfl⟩

/-- The scan of the stat entries that `invalidateLinkID` makes from this session. -/
def scanned (w : World) (s : Session KR) (id : LinkID) : Option Path :=
  s.metaCache.linkEntry (w.statOrder s.ticks) id

theorem stats_invalidateDeleted (q : Path) :
    (invalidateDeleted w link s).metaCache.stats.lookup q =
      if (q ≠ [] ∧ q = s.linkPath link.linkID) ∨
          (s.linkPath link.linkID = [] ∧ scanned w s link.parentLinkID = some q) then none
      else s.metaCache.stats.lookup q := by
  simp only [invalidateDeleted, scanned]
  by_cases hp : s.linkPath link.linkID = []
  · simp [hp, Session.invalidatePath, Session.invalidateLinkID, MetaCache.Cache.invalidatePath,
      MetaCache.Cache.stats_invalidateLinkID]
  · simp only [hp, if_false, Session.invalidatePath, MetaCache.Cache.stats_invalidatePath]
    grind

/-- An update drops the link's path and its parent's; the scan is made when the link has none. -/
theorem metaCache_invalidateUpdated :
    (invalidateUpdated w link s).metaCache =
      if s.linkPath link.linkID = [] then
        (s.metaCache.invalidatePath (s.linkPath link.parentLinkID)).invalidateLinkID
          (w.statOrder s.ticks) link.parentLinkID
      else if s.linkPath link.parentLinkID = s.linkPath link.linkID then
        s.metaCache.invalidatePath (s.linkPath link.linkID)
      else
        (s.metaCache.invalidatePath (s.linkPath link.linkID)).invalidatePath
          (s.linkPath link.parentLinkID) := by
  simp only [invalidateUpdated]
  by_cases hp : s.linkPath link.linkID = []
  · by_cases hpp : s.linkPath link.parentLinkID = [] <;>
      simp [hp, hpp, Session.invalidatePath, Session.invalidateLinkID,
        MetaCache.Cache.invalidatePath]
  · by_cases hpp : s.linkPath link.parentLinkID = [] <;>
      by_cases he : s.linkPath link.parentLinkID = s.linkPath link.linkID <;>
      simp_all [Session.invalidatePath, MetaCache.Cache.invalidatePath]

theorem stats_invalidateUpdated (q : Path) :
    (invalidateUpdated w link s).metaCache.stats.lookup q =
      if (q ≠ [] ∧ (q = s.linkPath link.linkID ∨ q = s.linkPath link.parentLinkID)) ∨
          (s.linkPath link.linkID = [] ∧
            (s.metaCache.invalidatePath (s.linkPath link.parentLinkID)).linkEntry
              (w.statOrder s.ticks) link.parentLinkID = some q) then none
      else s.metaCache.stats.lookup q := by
  rw [metaCache_invalidateUpdated]
  split_ifs with hp he <;>
    simp only [MetaCache.Cache.stats_invalidateLinkID, MetaCache.Cache.stats_invalidatePath] <;>
    grind

theorem nodeKRs_invalidateDeleted : (invalidateDeleted w link s).nodeKRs = s.nodeKRs := by
  simp only [invalidateDeleted]
  split_ifs <;> rfl

theorem nodeKRs_invalidateCreated : (invalidateCreated w link s).nodeKRs = s.nodeKRs := by
  simp only [invalidateCreated]
  split_ifs <;> rfl

theorem nodeKRs_invalidateUpdated : (invalidateUpdated w link s).nodeKRs = s.nodeKRs := by
  simp only [invalidateUpdated]
  split_ifs <;> rfl

theorem invalidateUpdated_blocks : (invalidateUpdated w link s).blocks = s.blocks := by
  simp only [invalidateUpdated]
  split_ifs <;> rfl

end Invalidations

section Handling

variable {C : Crypto KR} {w : World} {le : LinkEvent} {s : Session KR} {o : Attempt KR}

/-- What handling an event comes down to: invalidations, then notifications. -/
theorem handle_cases (h : handle C w le s = some o) :
    (le.eventType = .create ∧ o = announceCreate C w le.link s (invalidateCreated w le.link s)) ∨
    (le.eventType = .delete ∧ ∃ s₁,
      dropBlocks le.link.linkID (invalidateDeleted w le.link s) = some s₁ ∧
        o = announceDelete le.link s s₁) ∨
    ((le.eventType ≠ .create ∧ le.eventType ≠ .delete) ∧ ∃ s₁,
      dropBlocks le.link.linkID (invalidateUpdated w le.link s) = some s₁ ∧
        o = announceUpdate C w le.link s s₁) := by
  simp only [handle] at h
  cases he : le.eventType with
  | create =>
    rw [he] at h
    exact .inl ⟨rfl, (Option.some.inj h).symm⟩
  | delete =>
    rw [he] at h
    obtain ⟨s₁, hs, rfl⟩ := Option.map_eq_some_iff.mp h
    exact .inr (.inl ⟨rfl, s₁, hs, rfl⟩)
  | update | updateMetadata =>
    rw [he] at h
    obtain ⟨s₁, hs, rfl⟩ := Option.map_eq_some_iff.mp h
    exact .inr (.inr ⟨⟨nofun, nofun⟩, s₁, hs, rfl⟩)

theorem announceDelete_kept (link : Link) (before s : Session KR) :
    (announceDelete link before s).state = s := by
  simp only [announceDelete, announceChanged]
  split_ifs <;> rfl

theorem announceUpdate_kept (link : Link) (before s : Session KR) :
    Kept s (announceUpdate C w link before s).state := by
  refine Outcome.Sat.state (Outcome.Sat.recover (diffCached_kept ..) fun _ s₁ h₁ => ?_)
  refine Outcome.Sat.recover ((diffCached_kept ..).mono (fun _ _ h => h₁.trans h)
    (fun _ _ h => h₁.trans h)) fun _ s₂ h₂ => ?_
  refine Outcome.Sat.recover ((announceTrashed_spec ..).mono ?_ (fun _ _ h =>
    h₂.trans h.1.kept)) fun _ s₃ h₃ => h₃
  rintro _ _ ⟨l, -, -, -, -, -, rfl⟩
  exact h₂.trans ⟨rfl, rfl, rfl, rfl, rfl, Nat.le_succ _⟩

theorem announceCreate_kept (link : Link) (before s : Session KR) :
    Kept s (announceCreate C w link before s).state := by
  simp only [announceCreate]
  refine Outcome.Sat.state (Outcome.Sat.recover ((announceCreated_spec ..).mono ?_
    fun _ _ h => h.1.kept) fun _ s₁ h₁ => ?_)
  · rintro _ _ ⟨n, s₁, -, -, ht, -, rfl⟩
    exact ht.kept.trans ⟨rfl, rfl, rfl, rfl, rfl, le_rfl⟩
  · exact Outcome.Sat.recover ((diffCached_kept ..).mono (fun _ _ h => h₁.trans h)
      (fun _ _ h => h₁.trans h)) fun _ s₂ h₂ => h₂

/-- An event opens no keyring and forgets none. -/
theorem handle_nodeKRs (h : handle C w le s = some o) : o.state.nodeKRs = s.nodeKRs := by
  rcases handle_cases h with ⟨-, rfl⟩ | ⟨-, s₁, hs₁, rfl⟩ | ⟨-, s₁, hs₁, rfl⟩
  · exact (announceCreate_kept ..).nodeKRs.trans nodeKRs_invalidateCreated
  · rw [announceDelete_kept]
    obtain ⟨bc, -, rfl⟩ := dropBlocks_eq_some hs₁
    exact nodeKRs_invalidateDeleted
  · rw [(announceUpdate_kept ..).nodeKRs]
    obtain ⟨bc, -, rfl⟩ := dropBlocks_eq_some hs₁
    exact nodeKRs_invalidateUpdated

end Handling

end ProtonDrive.EventPoller
