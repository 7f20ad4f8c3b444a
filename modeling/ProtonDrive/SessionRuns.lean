import ProtonDrive.SessionViews

/-!
# The sessions that runs reach

A session is reached from a new one by the calls of the handlers and by link events, each in a
world of its own. In every such session the keyrings belong to the links they are kept for, the
root's is kept before any other, and no path is registered for a link without one.
-/

namespace ProtonDrive.SessionRuns
open SlashPaths KeyedMaps FallibleSteps DriveApi DriveSession RemoteTree PathMaps EventPoller
  FileReads DirectoryHandlers SessionViews

variable {KR : Type} {C : Crypto KR} {w : World} {s s₁ s' : Session KR}

section Keyrings

theorem keyed_newSession (rootID : LinkID) (blocks : Option BlockCache.Cache) :
    Keyed C (newSession rootID blocks) :=
  ⟨(nomatch ·), (nomatch ·), (nomatch ·)⟩

theorem exec_keeps (s : Session KR) (c : Call) : Keeps C s (exec C w s c).state := by
  cases c with
  | resolvePath p =>
    rw [exec, Outcome.state_andThen_ok]
    exact (resolvePath_leaves s p).state.keeps
  | listChildren p =>
    rw [exec, Outcome.state_andThen_ok]
    exact (listChildren_leaves s p).state.keeps
  | stat p =>
    rw [exec, Outcome.state_andThen_ok]
    exact stat_keeps s p
  | invalidatePath p => exact keeps_below rfl rfl fun _ _ hq => (pathLinks_invalidatePath hq).1
  | invalidateLinkID id => exact keeps_below rfl rfl fun _ _ hq => pathLinks_invalidateLinkID hq
  | invalidateAll => exact keeps_below rfl rfl fun _ _ hq => by cases hq

/-- Entries are taken out of the metadata cache; the keyrings stay. -/
structure Pruned (s s' : Session KR) : Prop where
  rootID : s'.rootID = s.rootID
  nodeKRs : s'.nodeKRs = s.nodeKRs
  metaCache : s'.metaCache.Below s.metaCache

theorem Pruned.trans (h : Pruned s s₁) (h' : Pruned s₁ s') : Pruned s s' :=
  ⟨h'.rootID.trans h.rootID, h'.nodeKRs.trans h.nodeKRs, h'.metaCache.trans h.metaCache⟩

theorem pruned_invalidatePath (s : Session KR) (p : Path) : Pruned s (s.invalidatePath p) :=
  ⟨rfl, rfl, s.metaCache.invalidatePath_below p⟩

theorem pruned_invalidateLinkID (s : Session KR) (id : LinkID) :
    Pruned s (s.invalidateLinkID w id) := ⟨rfl, rfl, s.metaCache.invalidateLinkID_below _ id⟩

theorem pruned_dropBlocks {id : LinkID} (h : dropBlocks id s = some s') : Pruned s s' := by
  obtain ⟨bc, -, rfl⟩ := dropBlocks_eq_some h
  exact ⟨rfl, rfl, .refl _⟩

theorem pruned_invalidateDeleted (link : Link) (s : Session KR) :
    Pruned s (invalidateDeleted w link s) := by
  simp only [invalidateDeleted]
  split_ifs
  · exact (pruned_invalidatePath s _).trans (pruned_invalidateLinkID _ _)
  · exact pruned_invalidatePath s _

theorem pruned_invalidateCreated (link : Link) (s : Session KR) :
    Pruned s (invalidateCreated w link s) := by
  simp only [invalidateCreated]
  split_ifs
  · exact pruned_invalidateLinkID s _
  · exact pruned_invalidatePath s _

theorem pruned_invalidateUpdated (link : Link) (s : Session KR) :
    Pruned s (invalidateUpdated w link s) := by
  have hfirst := pruned_invalidatePath s (s.linkPath link.linkID)
  simp only [invalidateUpdated]
  split_ifs
  · exact (hfirst.trans (pruned_invalidatePath _ _)).trans (pruned_invalidateLinkID _ _)
  · exact hfirst.trans (pruned_invalidateLinkID _ _)
  · exact hfirst.trans (pruned_invalidatePath _ _)
  · exact hfirst

/-- An event is handled by invalidations, and then by what keeps the stats and the keyrings. -/
theorem handle_pruned {le : LinkEvent} {o : Attempt KR} (ho : handle C w le s = some o) :
    ∃ s₁, Pruned s s₁ ∧ Kept s₁ o.state := by
  rcases handle_cases ho with ⟨-, rfl⟩ | ⟨-, s₁, hs₁, rfl⟩ | ⟨-, s₁, hs₁, rfl⟩
  · exact ⟨_, pruned_invalidateCreated le.link s, announceCreate_kept ..⟩
  · refine ⟨s₁, (pruned_invalidateDeleted le.link s).trans (pruned_dropBlocks hs₁), ?_⟩
    rw [announceDelete_kept]
    exact .refl s₁
  · exact ⟨s₁, (pruned_invalidateUpdated le.link s).trans (pruned_dropBlocks hs₁),
      announceUpdate_kept ..⟩

theorem handle_keeps {le : LinkEvent} {o : Attempt KR} (ho : handle C w le s = some o) :
    Keeps C s o.state := by
  obtain ⟨s₁, hpruned, hkept⟩ := handle_pruned ho
  refine keeps_below (hkept.rootID.trans hpruned.rootID) (hkept.nodeKRs.trans hpruned.nodeKRs) ?_
  intro p id hp
  exact (pathLinks_dropped (handle_left ho hp)).1

end Keyrings

section Reads

/-- The block cache and the tick are all that changes. -/
def OnlyBlocks (s s' : Session KR) : Prop := s' = { s with blocks := s'.blocks, ticks := s'.ticks }

theorem OnlyBlocks.trans (h : OnlyBlocks s s₁) (h' : OnlyBlocks s₁ s') : OnlyBlocks s s' := by
  unfold OnlyBlocks at *
  rw [h', h]

theorem onlyBlocks_tick (s : Session KR) : OnlyBlocks s s.tick := rfl

theorem cachedBlock_onlyBlocks (linkID : LinkID) (revID : RevisionID) (idx : ℤ) (s : Session KR) :
    OnlyBlocks s (cachedBlock w linkID revID idx s).2 := by
  simp only [cachedBlock]
  cases s.blocks <;> rfl

theorem storeBlock_onlyBlocks (linkID : LinkID) (revID : RevisionID) (idx : ℤ) (data : Bytes)
    (s : Session KR) : OnlyBlocks s (storeBlock w linkID revID idx data s) := by
  simp only [storeBlock]
  cases s.blocks <;> rfl

theorem readCached_onlyBlocks (linkID : LinkID) (revID : RevisionID) (n : ℕ) (idx : ℤ)
    (buf : Bytes) (s : Session KR) :
    OnlyBlocks s (readCached w linkID revID n idx buf s).state := by
  induction n generalizing idx buf s with
  | zero => rfl
  | succ n ih =>
    simp only [readCached]
    have hc := cachedBlock_onlyBlocks (w := w) linkID revID idx s
    rcases hrun : cachedBlock w linkID revID idx s with ⟨_ | data, s₁⟩
    · rw [hrun] at hc
      exact hc
    · rw [hrun] at hc
      exact hc.trans (ih _ _ _)

theorem readBlocks_onlyBlocks (sessionKey : SessionKey) (linkID : LinkID) (revID : RevisionID)
    (blocks : List Block) (buf : Bytes) (s : Session KR) :
    OnlyBlocks s (readBlocks C w sessionKey linkID revID blocks buf s).state := by
  induction blocks generalizing buf s with
  | nil => rfl
  | cons b blocks ih =>
    simp only [readBlocks]
    have hc := cachedBlock_onlyBlocks (w := w) linkID revID (b.index - 1) s
    rcases hrun : cachedBlock w linkID revID (b.index - 1) s with ⟨_ | data, s₁⟩
    · rw [hrun] at hc
      dsimp only
      rcases Session.callAPI_cases w s₁ (fun srv => srv.block b.bareURL b.token) with
        ⟨enc, -, -, hcall⟩ | ⟨e, -, hcall⟩
      · rw [hcall]
        simp only [Outcome.recover_ok, Outcome.andThen_ok]
        have ht := hc.trans (onlyBlocks_tick s₁)
        cases C.decrypt sessionKey enc with
        | none => exact ht
        | some plain =>
          exact (ht.trans (storeBlock_onlyBlocks linkID revID _ plain s₁.tick)).trans (ih _ _)
      · rw [hcall]
        exact hc.trans (onlyBlocks_tick s₁)
    · rw [hrun] at hc
      exact hc.trans (ih _ _)

theorem readFileContent_onlyBlocks (link : Link) (parentKR : KR) (offset length : ℤ)
    (s : Session KR) :
    OnlyBlocks s (readFileContent C w link parentKR offset length s).state := by
  rcases readFileContent_cases C w link parentKR offset length s with ⟨e, -, h⟩ |
    ⟨props, nodeKR, sessionKey, -, -, -, ⟨rev, -, -, h⟩ | ⟨-, h⟩ | ⟨a, -, h⟩⟩
  · rw [h]
    rfl
  · rw [h, Outcome.state_andThen_ok]
    exact (onlyBlocks_tick s).trans (readBlocks_onlyBlocks ..)
  · rw [h, readFromCache]
    cases s.tick.blocks with
    | none => exact onlyBlocks_tick s
    | some bc =>
      dsimp only
      rw [Outcome.state_andThen_ok]
      exact (onlyBlocks_tick s).trans (readCached_onlyBlocks ..)
  · rw [h]
    exact onlyBlocks_tick s

end Reads

section Writes

variable {sealFolder : Link → KR → Path → Option String}

/-- A request is made of what a stat of the parent returned. -/
theorem createFolderReq_cases (s : Session KR) (p : Path) :
    (createFolderReq C sealFolder w s p).Sat
      (fun req s₁ => ∃ r kr x, s.stat C w (dir p) = ⟨.ok r, s₁⟩ ∧
        s₁.nodeKRs.lookup r.1.linkID = some kr ∧ sealFolder r.1 kr (base p) = some x ∧
        req = ⟨r.1.linkID, base p, x⟩)
      (fun _ s₁ => s₁ = (s.stat C w (dir p)).state) := by
  simp only [createFolderReq]
  rcases hst : s.stat C w (dir p) with ⟨e | r, s₁⟩
  · exact rfl
  · simp only [reading, Outcome.andThen_ok, nodeKeyRing]
    cases hk : s₁.nodeKRs.lookup r.1.linkID with
    | none => exact rfl
    | some kr =>
      rw [Outcome.andThen_ok]
      cases hx : sealFolder r.1 kr (base p) with
      | none => exact rfl
      | some x => exact ⟨r, kr, x, rfl, hk, hx, rfl⟩

/-- Whatever the server answers, the metadata of the parent is dropped. -/
theorem createFolder_state (s : Session KR) (d : Path) :
    (createFolder w s d).state = dropMeta s.tick d := by
  simp only [createFolder]
  rcases Session.callAPI_cases w s (fun _ => some ()) with ⟨a, -, -, hc⟩ | ⟨e, -, hc⟩
  · rw [hc]
  · rw [hc]
    split <;> simp_all

end Writes

section Requests

variable {sealFolder : Link → KR → Path → Option String} {P : Session KR → Prop}

/-- What holds after the stat of a request and stays true while the request looks up more paths,
makes API calls, uses the block cache and drops metadata. -/
structure Stable (C : Crypto KR) (w : World) (P : Session KR → Prop) : Prop where
  leaves : ∀ {s s' on}, Leaves C w on s s' → P s → P s'
  onlyBlocks : ∀ {s s'}, OnlyBlocks s s' → P s → P s'
  dropMeta : ∀ {s} d, P s → P (dropMeta s d)

theorem Stable.readFile (hP : Stable C w P) {path : Path} {offset length : ℤ}
    (hstat : P (s.stat C w path).state) : P (readFile C w path offset length s).state := by
  have hread : ∀ link parentKR s₁, P s₁ →
      P (readFileContent C w link parentKR offset length s₁).state := fun link parentKR s₁ h =>
    hP.onlyBlocks (readFileContent_onlyBlocks link parentKR offset length s₁) h
  rcases readFile_cases C w path offset length s with ⟨e, s₁, hst, hrun⟩ |
    ⟨link, parentKR, s₁, hst, ⟨-, hrun⟩ | ⟨-, ⟨data, s₂, hc, hrun⟩ | ⟨e, e', s₂, hc, hrun, -⟩⟩⟩
  · rw [hst] at hstat
    exact hrun ▸ hstat
  · rw [hst] at hstat
    exact hrun ▸ hstat
  · rw [hst] at hstat
    have h₂ := hread link parentKR s₁ hstat
    rw [hc] at h₂
    exact hrun ▸ h₂
  · rw [hst] at hstat
    have h₂ := hread link parentKR s₁ hstat
    rw [hc] at h₂
    exact hrun ▸ h₂

theorem Stable.makeDir (hP : Stable C w P) {p : Path} (hstat : P (s.stat C w (dir p)).state) :
    P (makeDir C sealFolder w s p).state := by
  have hreq : (createFolderReq C sealFolder w s p).Sat _ _ := createFolderReq_cases s p
  simp only [DirectoryHandlers.makeDir]
  rcases hrun : createFolderReq C sealFolder w s p with ⟨e | req, s₁⟩
  · rw [hrun] at hreq
    have hs₁ : s₁ = (s.stat C w (dir p)).state := hreq
    rw [Outcome.andThen_error, hs₁]
    exact hstat
  · rw [hrun] at hreq
    obtain ⟨r, kr, x, hst, -, -, -⟩ := hreq
    rw [hst] at hstat
    rw [Outcome.andThen_ok, createFolder_state]
    exact hP.dropMeta _ (hP.onlyBlocks (onlyBlocks_tick s₁) hstat)

theorem Stable.delete (hP : Stable C w P) {p : Path} {trash : Bool}
    (hstat : P (s.stat C w p).state) : P (delete C w s p trash).state := by
  simp only [DirectoryHandlers.delete, deleteReq]
  rcases hst : s.stat C w p with ⟨e | r, s₁⟩
  · rw [hst] at hstat
    exact hstat
  · rw [hst] at hstat
    simp only [reading, Outcome.andThen_ok]
    have hleft := hP.leaves (resolvePath_leaves (C := C) (w := w) s₁ (dir (absolute p))).state hstat
    rcases hres : s₁.resolvePath C w (dir (absolute p)) with ⟨e | node, s₂⟩
    · rw [hres] at hleft
      exact hleft
    · rw [hres] at hleft
      simp only [Outcome.andThen_ok]
      have htick := hP.onlyBlocks (onlyBlocks_tick s₂) hleft
      have hstate := Session.callAPI_state w s₂ fun _ => some ()
      rcases hc : s₂.callAPI w (fun _ => some ()) with ⟨e | a, s₃⟩
      · rw [hc] at hstate
        exact hstate ▸ htick
      · rw [hc] at hstate
        exact hstate ▸ htick

theorem keeps_onlyBlocks (h : OnlyBlocks s s') : Keeps C s s' := by
  rw [h]
  exact keeps_below rfl rfl fun _ _ hq => hq

theorem keeps_stable (s : Session KR) : Stable C w (Keeps C s) where
  leaves hl h := h.trans hl.keeps
  onlyBlocks hb h := h.trans (keeps_onlyBlocks hb)
  dropMeta _ h := h.trans (keeps_below rfl rfl fun _ _ hq => hq)

theorem readFile_keeps (s : Session KR) (path : Path) (offset length : ℤ) :
    Keeps C s (readFile C w path offset length s).state :=
  (keeps_stable s).readFile (stat_keeps s path)

theorem makeDir_keeps (s : Session KR) (p : Path) :
    Keeps C s (makeDir C sealFolder w s p).state := (keeps_stable s).makeDir (stat_keeps s (dir p))

theorem delete_keeps (s : Session KR) (p : Path) (trash : Bool) :
    Keeps C s (delete C w s p trash).state := (keeps_stable s).delete (stat_keeps s p)

end Requests

section Reachability

/-- The sessions of all runs: the calls the handlers make, and the events the poller handles. -/
inductive Reachable (C : Crypto KR) (sealFolder : Link → KR → Path → Option String)
    (rootID : LinkID) : Session KR → Prop
  | start (blocks : Option BlockCache.Cache) :
    Reachable C sealFolder rootID (newSession rootID blocks)
  | call {s : Session KR} (w : World) (c : Call) (h : Reachable C sealFolder rootID s) :
    Reachable C sealFolder rootID (exec C w s c).state
  | readFile {s : Session KR} (w : World) (path : Path) (offset length : ℤ)
    (h : Reachable C sealFolder rootID s) :
    Reachable C sealFolder rootID (FileReads.readFile C w path offset length s).state
  | makeDir {s : Session KR} (w : World) (p : Path) (h : Reachable C sealFolder rootID s) :
    Reachable C sealFolder rootID (DirectoryHandlers.makeDir C sealFolder w s p).state
  | delete {s : Session KR} (w : World) (p : Path) (trash : Bool)
    (h : Reachable C sealFolder rootID s) :
    Reachable C sealFolder rootID (DirectoryHandlers.delete C w s p trash).state
  | event {s : Session KR} (w : World) (le : LinkEvent) (o : Attempt KR)
    (h : Reachable C sealFolder rootID s) (ho : handle C w le s = some o) :
    Reachable C sealFolder rootID o.state

variable {sealFolder : Link → KR → Path → Option String} {rootID : LinkID}

theorem Reachable.keyed (h : Reachable C sealFolder rootID s) :
    s.rootID = rootID ∧ Keyed C s := by
  have hstep : ∀ {s s' : Session KR}, Keeps C s s' → s.rootID = rootID ∧ Keyed C s →
      s'.rootID = rootID ∧ Keyed C s' := fun hk hs => ⟨hk.1.trans hs.1, hk.2 hs.2⟩
  induction h with
  | start blocks => exact ⟨rfl, keyed_newSession rootID blocks⟩
  | call w c _ ih => exact hstep (exec_keeps _ c) ih
  | readFile w path offset length _ ih => exact hstep (readFile_keeps _ path offset length) ih
  | makeDir w p _ ih => exact hstep (makeDir_keeps _ p) ih
  | delete w p trash _ ih => exact hstep (delete_keeps _ p trash) ih
  | event w le o _ ho ih => exact hstep (handle_keeps ho) ih

end Reachability

end ProtonDrive.SessionRuns
