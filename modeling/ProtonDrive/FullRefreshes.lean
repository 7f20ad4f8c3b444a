import ProtonDrive.ChangeMonitors
import ProtonDrive.OnlineReads
import ProtonDrive.SessionRuns

/-!
# Sessions after a full refresh

A full refresh drops the metadata and the registered paths of a session, but not the keyrings of
the links it has visited, which may long be gone or moved. A keyring that no path is registered
for is never used, except the root's: a session answers every call as it would without them. So
if the share and the root keep their keys, a session that has been refreshed answers as a new one
would, however outdated it was. The calls follow one another here; a listing that was fetched before
the refresh and is cached after it would be served like any other.
-/

namespace ProtonDrive.FullRefreshes
open SlashPaths KeyedMaps FallibleSteps DriveApi DriveSession RemoteTree CacheTransparency
  OnlineReads PollLoop ChangeMonitors

variable {KR : Type} {C : Crypto KR} {t : Tree} {w : World} {s s' : Session KR}

section Forgotten

/-- The sessions agree, but for keyrings of links that no path is registered for. -/
structure Alike (s s' : Session KR) : Prop where
  rest : s' = { s with nodeKRs := s'.nodeKRs }
  root : s'.nodeKRs.lookup s.rootID = s.nodeKRs.lookup s.rootID
  registered : ∀ {p id}, s.pathLinks.lookup p = some id →
    s'.nodeKRs.lookup id = s.nodeKRs.lookup id

theorem Alike.rootID (h : Alike s s') : s'.rootID = s.rootID := by
  rw [h.rest]

theorem Alike.shareKR (h : Alike s s') : s'.shareKR = s.shareKR := by
  rw [h.rest]

theorem Alike.metaCache (h : Alike s s') : s'.metaCache = s.metaCache := by
  rw [h.rest]

theorem Alike.ticks (h : Alike s s') : s'.ticks = s.ticks := by
  rw [h.rest]

/-- Both sessions change alike, and no path is registered anew. -/
theorem Alike.update (h : Alike s s') (f : Session KR → Session KR)
    (hf : ∀ m : KeyMap LinkID KR, f { s with nodeKRs := m } = { f s with nodeKRs := m })
    (hr : (f s).rootID = s.rootID)
    (hp : ∀ p id, (f s).pathLinks.lookup p = some id → s.pathLinks.lookup p = some id) :
    Alike (f s) (f s') := by
  obtain ⟨m, rfl⟩ : ∃ m, s' = { s with nodeKRs := m } := ⟨_, h.rest⟩
  have hm : ∀ m, (f { s with nodeKRs := m }).nodeKRs = m := fun m =>
    congrArg Session.nodeKRs (hf m)
  have hs : (f s).nodeKRs = s.nodeKRs := hm s.nodeKRs
  refine ⟨(hf m).trans (by rw [hm]), ?_, ?_⟩
  · rw [hm, hs, hr]
    exact h.root
  · intro p id hid
    rw [hm, hs]
    exact h.registered (hp p id hid)

theorem Alike.setNodeKR (h : Alike s s') (id : LinkID) (kr : KR) :
    Alike (s.setNodeKR id kr) (s'.setNodeKR id kr) := by
  obtain ⟨m, rfl⟩ : ∃ m, s' = { s with nodeKRs := m } := ⟨_, h.rest⟩
  have hlook : ∀ i, m.lookup i = s.nodeKRs.lookup i →
      (m.insert id kr).lookup i = (s.nodeKRs.insert id kr).lookup i := by
    intro i hi
    rw [lookup_insert_ite, lookup_insert_ite, hi]
  exact ⟨rfl, hlook _ h.root, fun hp => hlook _ (h.registered hp)⟩

theorem Alike.setPathLink (h : Alike s s') (p : Path) {id : LinkID}
    (hid : s'.nodeKRs.lookup id = s.nodeKRs.lookup id) :
    Alike (s.setPathLink p id) (s'.setPathLink p id) := by
  obtain ⟨m, rfl⟩ : ∃ m, s' = { s with nodeKRs := m } := ⟨_, h.rest⟩
  refine ⟨rfl, h.root, ?_⟩
  intro q i hq
  simp only [Session.setPathLink, lookup_insert_ite] at hq
  split_ifs at hq
  · cases hq
    exact hid
  · exact h.registered hq

theorem Alike.tick (h : Alike s s') : Alike s.tick s'.tick :=
  h.update Session.tick (fun _ => rfl) rfl fun _ _ hq => hq

theorem Alike.setLinkPath (h : Alike s s') (id : LinkID) (p : Path) :
    Alike (s.setLinkPath id p) (s'.setLinkPath id p) :=
  h.update (·.setLinkPath id p) (fun _ => rfl) rfl fun _ _ hq => hq

theorem Alike.setList (h : Alike s s') (p : Path) (links : List Link) (kr : KR) :
    Alike (Session.setList w s p links kr) (Session.setList w s' p links kr) :=
  h.update (Session.setList w · p links kr) (fun _ => rfl) rfl fun _ _ hq => hq

theorem Alike.setStat (h : Alike s s') (p : Path) (link : Link) (kr : KR) :
    Alike (Session.setStat w s p link kr) (Session.setStat w s' p link kr) :=
  h.update (Session.setStat w · p link kr) (fun _ => rfl) rfl fun _ _ hq => hq

theorem Alike.resolved (h : Alike s s') (p : Path) : s'.resolved p = s.resolved p := by
  obtain ⟨m, rfl⟩ : ∃ m, s' = { s with nodeKRs := m } := ⟨_, h.rest⟩
  simp only [Session.resolved]
  cases hp : s.pathLinks.lookup p with
  | none => rfl
  | some id => rw [Option.bind_some, Option.bind_some, show m.lookup id = _ from h.registered hp]

end Forgotten

section Operations

theorem callAPI_alike (h : Alike s s') {α : Type} (answer : Server → Option α) :
    (s.callAPI w answer).Same Alike (s'.callAPI w answer) := by
  obtain ⟨m, rfl⟩ : ∃ m, s' = { s with nodeKRs := m } := ⟨_, h.rest⟩
  simp only [Session.callAPI]
  cases w.fails s.ticks with
  | some e => exact ⟨rfl, h.tick⟩
  | none =>
    cases answer (w.server s.ticks) with
    | some a => exact ⟨rfl, h.tick⟩
    | none => exact ⟨rfl, h.tick⟩

theorem shareKeyRing_alike (h : Alike s s') :
    (s.shareKeyRing C w).Same Alike (s'.shareKeyRing C w) := by
  simp only [Session.shareKeyRing]
  rw [h.shareKR]
  cases s.shareKR with
  | some kr => exact ⟨rfl, h⟩
  | none =>
    apply (callAPI_alike h _).andThen
    intro share s₁ s₁' h₁
    cases C.shareKeyRing share with
    | none => exact ⟨rfl, h₁⟩
    | some kr =>
      exact ⟨rfl, h₁.update ({ · with shareKR := some kr }) (fun _ => rfl) rfl fun _ _ hq => hq⟩

theorem rootNodeKeyRing_alike (h : Alike s s') :
    (s.rootNodeKeyRing C w).Same Alike (s'.rootNodeKeyRing C w) := by
  simp only [Session.rootNodeKeyRing]
  rw [h.rootID, h.root]
  cases s.nodeKRs.lookup s.rootID with
  | some kr => exact ⟨rfl, h⟩
  | none =>
    apply (shareKeyRing_alike h).andThen
    intro shareKR s₁ s₁' h₁
    rw [h₁.rootID]
    apply (callAPI_alike h₁ _).andThen
    intro rootLink s₂ s₂' h₂
    rw [h₂.rootID]
    cases C.getKeyRing rootLink shareKR with
    | none => exact ⟨rfl, h₂⟩
    | some kr => exact ⟨rfl, h₂.setNodeKR s₂.rootID kr⟩

/-- A link gets its keyring before a path is registered for it. -/
theorem walkParts_alike (p : Path) (parts : List Path) (id : LinkID) (kr : KR)
    (currentPath : Path) (h : Alike s s') :
    (Session.walkParts C w p parts id kr currentPath s).Same Alike
      (Session.walkParts C w p parts id kr currentPath s') := by
  induction parts generalizing id kr currentPath s s' with
  | nil => exact ⟨rfl, h⟩
  | cons part parts ih =>
    simp only [Session.walkParts]
    apply (callAPI_alike h _).andThen
    intro children s₁ s₁' h₁
    have hlist := h₁.setList (w := w) currentPath children kr
    cases findChild C kr part children with
    | none => exact ⟨rfl, hlist⟩
    | some child =>
      cases hk : C.getKeyRing child kr with
      | none =>
        simp only [hk]
        exact ⟨rfl, hlist⟩
      | some childKR =>
        simp only [hk]
        have hlink := (hlist.setNodeKR child.linkID childKR).setLinkPath child.linkID
          (extendPath currentPath part)
        refine ih _ _ _ (hlink.setPathLink _ ?_)
        simp only [Session.setLinkPath, Session.setNodeKR, lookup_insert_ite, if_pos]

theorem resolvePath_alike (h : Alike s s') (p : Path) :
    (s.resolvePath C w p).Same Alike (s'.resolvePath C w p) := by
  simp only [Session.resolvePath]
  rw [h.resolved]
  cases s.resolved (absolute p) with
  | some n => exact ⟨rfl, h⟩
  | none =>
    rw [h.rootID]
    apply (rootNodeKeyRing_alike (h.setLinkPath s.rootID ['/'])).andThen
    intro kr s₁ s₁' h₁
    rw [h₁.rootID]
    exact walkParts_alike _ _ _ _ _ (h₁.setPathLink ['/'] h₁.root)

theorem listChildren_alike (h : Alike s s') (p : Path) :
    (s.listChildren C w p).Same Alike (s'.listChildren C w p) := by
  simp only [Session.listChildren]
  rw [h.metaCache, h.ticks]
  cases s.metaCache.getList (w.now s.ticks) p with
  | some r => exact ⟨rfl, h.tick⟩
  | none =>
    apply Outcome.Same.recover
    · apply (resolvePath_alike h.tick p).andThen
      intro node s₁ s₁' h₁
      apply (callAPI_alike h₁ _).andThen
      intro links s₂ s₂' h₂
      exact ⟨rfl, h₂.setList p links node.2⟩
    · intro e s₁ s₁' h₁
      simp only [Session.staleList, h₁.metaCache]
      split
      · exact ⟨rfl, h₁⟩
      · exact ⟨rfl, h₁⟩

theorem statUncached_alike (h : Alike s s') (p : Path) :
    (s.statUncached C w p).Same Alike (s'.statUncached C w p) := by
  simp only [Session.statUncached]
  split_ifs
  · rw [h.rootID]
    apply (callAPI_alike h _).andThen
    intro link s₁ s₁' h₁
    apply (rootNodeKeyRing_alike h₁).andThen
    intro kr s₂ s₂' h₂
    exact ⟨rfl, h₂⟩
  · simp only [Session.parentKRFor]
    apply Outcome.Same.andThen
    · apply (resolvePath_alike h _).andThen
      intro node s₁ s₁' h₁
      exact ⟨rfl, h₁⟩
    · intro parentKR s₁ s₁' h₁
      apply (listChildren_alike h₁ (dir p)).andThen
      intro r s₂ s₂' h₂
      cases findChild C parentKR (base p) r.1 with
      | none => exact ⟨rfl, h₂⟩
      | some l => exact ⟨rfl, h₂⟩

theorem stat_alike (h : Alike s s') (p : Path) : (s.stat C w p).Same Alike (s'.stat C w p) := by
  simp only [Session.stat]
  rw [h.metaCache, h.ticks]
  cases s.metaCache.getStat (w.now s.ticks) (absolute p) with
  | some r => exact ⟨rfl, h.tick⟩
  | none =>
    apply Outcome.Same.recover
    · apply (statUncached_alike h.tick _).andThen
      intro r s₁ s₁' h₁
      exact ⟨rfl, h₁.setStat (absolute p) r.1 r.2⟩
    · intro e s₁ s₁' h₁
      simp only [Session.staleStat, h₁.metaCache]
      split
      · exact ⟨rfl, h₁⟩
      · exact ⟨rfl, h₁⟩

/-- What only changes the value of two alike steps leaves them alike. -/
theorem answer_alike {α β : Type} {o o' : Step KR α} (h : o.Same Alike o') (f : α → β) :
    (o.andThen fun a s => ⟨.ok (f a), s⟩).Same Alike (o'.andThen fun a s => ⟨.ok (f a), s⟩) :=
  h.andThen fun _ _ _ hs => ⟨rfl, hs⟩

/-- Every call is answered as it would be without the forgotten keyrings. -/
theorem exec_alike (h : Alike s s') (c : Call) : (exec C w s c).Same Alike (exec C w s' c) := by
  cases c with
  | resolvePath p => exact answer_alike (resolvePath_alike h p) _
  | listChildren p => exact answer_alike (listChildren_alike h p) _
  | stat p => exact answer_alike (stat_alike h p) _
  | invalidatePath p =>
    exact ⟨rfl, h.update (·.invalidatePath p) (fun _ => rfl) rfl fun _ _ hq =>
      (PathMaps.pathLinks_invalidatePath hq).1⟩
  | invalidateLinkID id =>
    exact ⟨rfl, h.update (·.invalidateLinkID w id) (fun _ => rfl) rfl fun _ _ hq =>
      PathMaps.pathLinks_invalidateLinkID hq⟩
  | invalidateAll =>
    exact ⟨rfl, h.update (·.invalidateAll) (fun _ => rfl) rfl fun _ _ hq => by cases hq⟩

theorem runCalls_alike (calls : List (World × Call)) (h : Alike s s') :
    Alike (runCalls C s calls) (runCalls C s' calls) := by
  induction calls generalizing s s' with
  | nil => exact h
  | cons x calls ih => exact ih (exec_alike h x.2).2

end Operations

section Keys

/-- The share and the root have the keyrings that the session has for them. -/
structure TrueKeys (C : Crypto KR) (t : Tree) (s : Session KR) : Prop where
  rootID : s.rootID = t.rootID
  share : ∀ {kr}, s.shareKR = some kr → C.shareKeyRing t.share = some kr
  root : ∀ {kr}, s.nodeKRs.lookup s.rootID = some kr → t.rootKR C = some kr

theorem trueKeys_newSession (blocks : Option BlockCache.Cache) :
    TrueKeys C t (newSession t.rootID blocks) :=
  ⟨rfl, (by cases ·), (by cases ·)⟩

/-- The session with the keyring of the root only. -/
def forget (s : Session KR) : Session KR :=
  { s with nodeKRs := (s.nodeKRs.lookup s.rootID).elim ∅ fun kr =>
      (∅ : KeyMap LinkID KR).insert s.rootID kr }

theorem lookup_forget (s : Session KR) (id : LinkID) :
    (forget s).nodeKRs.lookup id =
      if id = s.rootID then s.nodeKRs.lookup s.rootID else none := by
  simp only [forget]
  cases s.nodeKRs.lookup s.rootID with
  | none => simp
  | some kr => simp only [Option.elim_some, lookup_insert_ite, AList.lookup_empty]

/-- After a refresh all keyrings but the root's are forgotten. -/
theorem invalidateAll_alike (s : Session KR) : Alike s.invalidateAll (forget s).invalidateAll := by
  refine ⟨rfl, ?_, (by cases ·)⟩
  exact (lookup_forget s s.rootID).trans (if_pos rfl)

theorem mirrors_forget (h : TrueKeys C t s) : Mirrors C t (forget s).invalidateAll := by
  refine ⟨h.rootID, h.share, ?_, (by cases ·), (by cases ·), (by cases ·)⟩
  intro id kr hid
  have hlook : (forget s).nodeKRs.lookup id = some kr := hid
  rw [lookup_forget] at hlook
  split_ifs at hlook with he
  refine ⟨['/'], ?_⟩
  rw [Tree.locate_root, h.root hlook, he, h.rootID]
  rfl

end Keys

section History

variable {sealFolder : Link → KR → Path → Option String}

/-- The drive may change from one tick to the next, but not its share and its root link. -/
def SameRoot (t : Tree) (w : World) : Prop :=
  ∀ n, ∃ t' : Tree, w.server n = t'.toServer ∧ t'.rootID = t.rootID ∧ t'.share = t.share ∧
    t'.link t.rootID = t.link t.rootID

/-- The sessions of all runs on such a drive: calls, file reads, directory handlers and events, one
after the other. -/
inductive Lived (C : Crypto KR) (sealFolder : Link → KR → Path → Option String) (t : Tree) :
    Session KR → Prop
  | start (blocks : Option BlockCache.Cache) : Lived C sealFolder t (newSession t.rootID blocks)
  | call {s : Session KR} (w : World) (hw : SameRoot t w) (c : Call) (h : Lived C sealFolder t s) :
    Lived C sealFolder t (exec C w s c).state
  | readFile {s : Session KR} (w : World) (hw : SameRoot t w) (path : Path) (offset length : ℤ)
    (h : Lived C sealFolder t s) :
    Lived C sealFolder t (FileReads.readFile C w path offset length s).state
  | makeDir {s : Session KR} (w : World) (hw : SameRoot t w) (p : Path)
    (h : Lived C sealFolder t s) :
    Lived C sealFolder t (DirectoryHandlers.makeDir C sealFolder w s p).state
  | delete {s : Session KR} (w : World) (hw : SameRoot t w) (p : Path) (trash : Bool)
    (h : Lived C sealFolder t s) :
    Lived C sealFolder t (DirectoryHandlers.delete C w s p trash).state
  | event {s : Session KR} (w : World) (hw : SameRoot t w) (le : LinkEvent)
    (o : EventPoller.Attempt KR) (h : Lived C sealFolder t s)
    (ho : EventPoller.handle C w le s = some o) : Lived C sealFolder t o.state

/-- No keyring is added or dropped. -/
structure SameKeys (s s' : Session KR) : Prop where
  rootID : s'.rootID = s.rootID
  shareKR : s'.shareKR = s.shareKR
  nodeKRs : s'.nodeKRs = s.nodeKRs

theorem SameKeys.trans {s₁ : Session KR} (h : SameKeys s s₁) (h' : SameKeys s₁ s') :
    SameKeys s s' :=
  ⟨h'.rootID.trans h.rootID, h'.shareKR.trans h.shareKR, h'.nodeKRs.trans h.nodeKRs⟩

theorem TrueKeys.update (h : TrueKeys C t s) (hs : SameKeys s s') : TrueKeys C t s' :=
  ⟨hs.rootID.trans h.rootID, fun hk => h.share (hs.shareKR ▸ hk),
    fun hk => h.root (by rwa [hs.nodeKRs, hs.rootID] at hk)⟩

theorem TrueKeys.tick (h : TrueKeys C t s) : TrueKeys C t s.tick := h.update ⟨rfl, rfl, rfl⟩

theorem callAPI_trueKeys (hw : SameRoot t w) (h : TrueKeys C t s) {α : Type}
    (answer : Server → Option α) :
    (s.callAPI w answer).Sat
      (fun a s' => TrueKeys C t s' ∧ ∃ t' : Tree, answer t'.toServer = some a ∧
        t'.rootID = t.rootID ∧ t'.share = t.share ∧ t'.link t.rootID = t.link t.rootID)
      (fun _ s' => TrueKeys C t s') := by
  refine (Session.callAPI_answer w s answer).mono ?_ (fun _ _ he => he.2 ▸ h.tick)
  rintro a _ ⟨ha, rfl⟩
  obtain ⟨t', ht, hroot⟩ := hw s.ticks
  simp only [World.answer, ht] at ha
  split_ifs at ha
  exact ⟨h.tick, t', ha, hroot⟩

theorem shareKeyRing_trueKeys (hw : SameRoot t w) (h : TrueKeys C t s) :
    (s.shareKeyRing C w).Sat
      (fun kr s' => TrueKeys C t s' ∧ C.shareKeyRing t.share = some kr)
      (fun _ s' => TrueKeys C t s') := by
  simp only [Session.shareKeyRing]
  cases hs : s.shareKR with
  | some kr => exact ⟨h, h.share hs⟩
  | none =>
    apply (callAPI_trueKeys hw h _).andThen
    rintro share s₁ ⟨h₁, t', hshare, -, hsame, -⟩
    obtain rfl : t'.share = share := Option.some.inj hshare
    rw [hsame]
    cases hk : C.shareKeyRing t.share with
    | none => exact h₁
    | some kr =>
      refine ⟨⟨h₁.rootID, ?_, h₁.root⟩, rfl⟩
      rintro kr' ⟨⟩
      exact hk

theorem rootNodeKeyRing_trueKeys (hw : SameRoot t w) (h : TrueKeys C t s) :
    (s.rootNodeKeyRing C w).Sat (fun _ s' => TrueKeys C t s') (fun _ s' => TrueKeys C t s') := by
  simp only [Session.rootNodeKeyRing]
  cases s.nodeKRs.lookup s.rootID with
  | some kr => exact h
  | none =>
    apply (shareKeyRing_trueKeys hw h).andThen
    rintro shareKR s₁ ⟨h₁, hshare⟩
    apply (callAPI_trueKeys hw h₁ _).andThen
    rintro rootLink s₂ ⟨h₂, t', hlink, -, -, hsame⟩
    cases hk : C.getKeyRing rootLink shareKR with
    | none => exact h₂
    | some kr =>
      refine ⟨h₂.rootID, h₂.share, ?_⟩
      intro kr' hkr
      simp only [Session.setNodeKR, lookup_insert_ite, if_pos] at hkr
      cases hkr
      rw [h₁.rootID, hsame] at hlink
      rw [Tree.rootKR, hshare, Option.bind_some, hlink, Option.bind_some, hk]

/-- The root is no child, whatever the drive looks like at the moment. -/
theorem walkParts_trueKeys (hw : SameRoot t w) (p : Path) (parts : List Path) (id : LinkID)
    (kr : KR) (currentPath : Path) (h : TrueKeys C t s) :
    (Session.walkParts C w p parts id kr currentPath s).Sat
      (fun _ s' => TrueKeys C t s') (fun _ s' => TrueKeys C t s') := by
  induction parts generalizing id kr currentPath s with
  | nil => exact h
  | cons part parts ih =>
    simp only [Session.walkParts]
    apply (callAPI_trueKeys hw h _).andThen
    rintro children s₁ ⟨h₁, t', hls, hid, -⟩
    have hlist : TrueKeys C t (Session.setList w s₁ currentPath children kr) :=
      h₁.update ⟨rfl, rfl, rfl⟩
    cases hf : findChild C kr part children with
    | none => exact hlist
    | some child =>
      cases hk : C.getKeyRing child kr with
      | none =>
        simp only [hk]
        exact hlist
      | some childKR =>
        simp only [hk]
        apply ih
        have hne : s₁.rootID ≠ child.linkID := by
          rw [h₁.rootID, ← hid]
          exact (t'.root_not_child hls (findChild_some hf).1).symm
        refine ⟨h₁.rootID, h₁.share, ?_⟩
        intro kr' hkr
        simp only [Session.setPathLink, Session.setLinkPath, Session.setNodeKR, Session.setList,
          lookup_insert_ite, if_neg hne] at hkr
        exact h₁.root hkr

theorem resolvePath_trueKeys (hw : SameRoot t w) (h : TrueKeys C t s) (p : Path) :
    (s.resolvePath C w p).Sat (fun _ s' => TrueKeys C t s') (fun _ s' => TrueKeys C t s') := by
  simp only [Session.resolvePath]
  cases s.resolved (absolute p) with
  | some n => exact h
  | none =>
    have h₀ : TrueKeys C t (s.setLinkPath s.rootID ['/']) := h.update ⟨rfl, rfl, rfl⟩
    apply (rootNodeKeyRing_trueKeys hw h₀).andThen
    intro kr s₁ h₁
    exact walkParts_trueKeys hw _ _ _ _ _ (h₁.update ⟨rfl, rfl, rfl⟩)

theorem listChildren_trueKeys (hw : SameRoot t w) (h : TrueKeys C t s) (p : Path) :
    (s.listChildren C w p).Sat (fun _ s' => TrueKeys C t s') (fun _ s' => TrueKeys C t s') := by
  simp only [Session.listChildren]
  cases s.metaCache.getList (w.now s.ticks) p with
  | some r => exact h.tick
  | none =>
    refine ((resolvePath_trueKeys hw h.tick p).andThen ?_).recover ?_
    · intro node s₁ h₁
      apply (callAPI_trueKeys hw h₁ _).andThen
      rintro links s₂ ⟨h₂, -⟩
      exact h₂.update ⟨rfl, rfl, rfl⟩
    · intro e s₁ h₁
      simp only [Session.staleList]
      split
      · exact h₁
      · exact h₁

theorem statUncached_trueKeys (hw : SameRoot t w) (h : TrueKeys C t s) (p : Path) :
    (s.statUncached C w p).Sat (fun _ s' => TrueKeys C t s') (fun _ s' => TrueKeys C t s') := by
  simp only [Session.statUncached]
  split_ifs
  · apply (callAPI_trueKeys hw h _).andThen
    rintro link s₁ ⟨h₁, -⟩
    apply (rootNodeKeyRing_trueKeys hw h₁).andThen
    intro kr s₂ h₂
    exact h₂
  · simp only [Session.parentKRFor]
    have hparent : ((s.resolvePath C w (dir (absolute p))).andThen fun node s =>
        ⟨.ok node.2, s⟩).Sat (fun _ s' => TrueKeys C t s') (fun _ s' => TrueKeys C t s') :=
      (resolvePath_trueKeys hw h _).andThen fun _ _ h₁ => h₁
    apply hparent.andThen
    intro parentKR s₁ h₁
    apply (listChildren_trueKeys hw h₁ _).andThen
    intro r s₂ h₂
    cases findChild C parentKR (base p) r.1 with
    | none => exact h₂
    | some l => exact h₂

theorem stat_trueKeys (hw : SameRoot t w) (h : TrueKeys C t s) (p : Path) :
    (s.stat C w p).Sat (fun _ s' => TrueKeys C t s') (fun _ s' => TrueKeys C t s') := by
  simp only [Session.stat]
  cases s.metaCache.getStat (w.now s.ticks) (absolute p) with
  | some r => exact h.tick
  | none =>
    refine ((statUncached_trueKeys hw h.tick _).andThen ?_).recover ?_
    · intro r s₁ h₁
      exact h₁.update ⟨rfl, rfl, rfl⟩
    · intro e s₁ h₁
      simp only [Session.staleStat]
      split
      · exact h₁
      · exact h₁

theorem exec_trueKeys (hw : SameRoot t w) (h : TrueKeys C t s) (c : Call) :
    TrueKeys C t (exec C w s c).state := by
  cases c with
  | resolvePath p =>
    rw [exec, Outcome.state_andThen_ok]
    exact (resolvePath_trueKeys hw h p).state
  | listChildren p =>
    rw [exec, Outcome.state_andThen_ok]
    exact (listChildren_trueKeys hw h p).state
  | stat p =>
    rw [exec, Outcome.state_andThen_ok]
    exact (stat_trueKeys hw h p).state
  | invalidatePath p => exact h.update ⟨rfl, rfl, rfl⟩
  | invalidateLinkID id => exact h.update ⟨rfl, rfl, rfl⟩
  | invalidateAll => exact h.update ⟨rfl, rfl, rfl⟩

/-- A read leaves what its stat leaves, but for the block cache. -/
theorem readFile_onlyBlocks (s : Session KR) (path : Path) (offset length : ℤ) :
    SessionRuns.OnlyBlocks (s.stat C w path).state
      (FileReads.readFile C w path offset length s).state := by
  have hread : ∀ link parentKR s₁, SessionRuns.OnlyBlocks s₁
      (FileReads.readFileContent C w link parentKR offset length s₁).state := by
    intro link parentKR s₁
    exact SessionRuns.readFileContent_onlyBlocks link parentKR offset length s₁
  rcases FileReads.readFile_cases C w path offset length s with ⟨e, s₁, hst, hrun⟩ |
    ⟨link, parentKR, s₁, hst, ⟨-, hrun⟩ | ⟨-, ⟨data, s₂, hc, hrun⟩ | ⟨e, e', s₂, hc, hrun, -⟩⟩⟩
  · rw [hst, hrun]
    rfl
  · rw [hst, hrun]
    rfl
  · have hcontent := hread link parentKR s₁
    rw [hc] at hcontent
    rw [hst, hrun]
    exact hcontent
  · have hcontent := hread link parentKR s₁
    rw [hc] at hcontent
    rw [hst, hrun]
    exact hcontent

theorem readFile_trueKeys (hw : SameRoot t w) (h : TrueKeys C t s) (path : Path)
    (offset length : ℤ) : TrueKeys C t (FileReads.readFile C w path offset length s).state := by
  have hb := readFile_onlyBlocks (C := C) (w := w) s path offset length
  exact (stat_trueKeys hw h path).state.update ⟨by rw [hb], by rw [hb], by rw [hb]⟩

theorem makeDir_trueKeys (hw : SameRoot t w) (h : TrueKeys C t s) (p : Path) :
    TrueKeys C t (DirectoryHandlers.makeDir C sealFolder w s p).state := by
  have hstat := (stat_trueKeys hw h (dir p)).state
  have hreq : (DirectoryHandlers.createFolderReq C sealFolder w s p).Sat _ _ :=
    SessionRuns.createFolderReq_cases s p
  simp only [DirectoryHandlers.makeDir]
  rcases hrun : DirectoryHandlers.createFolderReq C sealFolder w s p with ⟨e | req, s₁⟩
  · rw [hrun] at hreq
    have hs₁ : s₁ = (s.stat C w (dir p)).state := hreq
    rw [Outcome.andThen_error, hs₁]
    exact hstat
  · rw [hrun] at hreq
    obtain ⟨r, kr, x, hst, -, -, -⟩ := hreq
    rw [hst] at hstat
    rw [Outcome.andThen_ok, SessionRuns.createFolder_state]
    exact hstat.update ⟨rfl, rfl, rfl⟩

theorem delete_trueKeys (hw : SameRoot t w) (h : TrueKeys C t s) (p : Path) (trash : Bool) :
    TrueKeys C t (DirectoryHandlers.delete C w s p trash).state := by
  have hstat := (stat_trueKeys hw h p).state
  simp only [DirectoryHandlers.delete, DirectoryHandlers.deleteReq]
  rcases hst : s.stat C w p with ⟨e | r, s₁⟩
  · rw [hst] at hstat
    exact hstat
  · rw [hst] at hstat
    simp only [DirectoryHandlers.reading, Outcome.andThen_ok]
    have hres := (resolvePath_trueKeys hw hstat (dir (absolute p))).state
    rcases hrun : s₁.resolvePath C w (dir (absolute p)) with ⟨e | node, s₂⟩
    · rw [hrun] at hres
      exact hres
    · rw [hrun] at hres
      simp only [Outcome.andThen_ok]
      have hstate := Session.callAPI_state w s₂ fun _ => some ()
      rcases hc : s₂.callAPI w (fun _ => some ()) with ⟨e | a, s₃⟩
      · rw [hc] at hstate
        exact hstate ▸ hres.tick
      · rw [hc] at hstate
        exact hstate ▸ hres.tick

section Events
open EventPoller

theorem sameKeys_ticked (h : Ticked s s') : SameKeys s s' := by
  rcases h with rfl | rfl
  · exact ⟨rfl, rfl, rfl⟩
  · exact ⟨rfl, rfl, rfl⟩

theorem diffCached_sameKeys (d : Path) (id : LinkID) (old : Option (List Link × KR))
    (s : Session KR) :
    (diffCached C w d id old s).Sat (fun _ => SameKeys s) (fun _ => SameKeys s) := by
  rw [diffCached_eq]
  cases diffable d id old s with
  | none => exact ⟨rfl, rfl, rfl⟩
  | some r =>
    refine (diffAndEmit_spec d id r.2 r.1 s).mono ?_ ?_
    · rintro _ _ ⟨new, -, -, -, rfl⟩
      simp only [relisted]
      rw [recordChildren_eq]
      exact ⟨rfl, rfl, rfl⟩
    · rintro _ _ ⟨rfl, -⟩
      exact ⟨rfl, rfl, rfl⟩

theorem announceCreate_sameKeys (link : Link) (before s : Session KR) :
    SameKeys s (announceCreate C w link before s).state := by
  have hcreated : (announceCreated C w link (before.linkPath link.parentLinkID) s).Sat
      (fun _ => SameKeys s) (fun _ => SameKeys s) := by
    refine (announceCreated_spec ..).mono ?_ fun _ _ h => sameKeys_ticked h.1
    rintro _ _ ⟨n, s₁, -, -, ht, -, rfl⟩
    exact (sameKeys_ticked ht).trans ⟨rfl, rfl, rfl⟩
  refine Outcome.Sat.state (hcreated.recover fun _ s₁ h₁ => ?_)
  exact Outcome.Sat.recover ((diffCached_sameKeys ..).mono (fun _ _ h => h₁.trans h)
    fun _ _ h => h₁.trans h) fun _ s₂ h₂ => h₂

theorem announceUpdate_sameKeys (link : Link) (before s : Session KR) :
    SameKeys s (announceUpdate C w link before s).state := by
  refine Outcome.Sat.state (Outcome.Sat.recover (diffCached_sameKeys ..) fun _ s₁ h₁ => ?_)
  refine Outcome.Sat.recover ((diffCached_sameKeys ..).mono (fun _ _ h => h₁.trans h)
    fun _ _ h => h₁.trans h) fun _ s₂ h₂ => ?_
  refine Outcome.Sat.recover ((announceTrashed_spec ..).mono ?_ fun _ _ h =>
    h₂.trans (sameKeys_ticked h.1)) fun _ s₃ h₃ => h₃
  rintro _ _ ⟨l, -, -, -, -, -, rfl⟩
  exact h₂.trans ⟨rfl, rfl, rfl⟩

theorem invalidateDeleted_sameKeys (link : Link) (s : Session KR) :
    SameKeys s (invalidateDeleted w link s) := by
  simp only [invalidateDeleted]
  split_ifs <;> exact ⟨rfl, rfl, rfl⟩

theorem invalidateCreated_sameKeys (link : Link) (s : Session KR) :
    SameKeys s (invalidateCreated w link s) := by
  simp only [invalidateCreated]
  split_ifs <;> exact ⟨rfl, rfl, rfl⟩

theorem invalidateUpdated_sameKeys (link : Link) (s : Session KR) :
    SameKeys s (invalidateUpdated w link s) := by
  simp only [invalidateUpdated]
  split_ifs <;> exact ⟨rfl, rfl, rfl⟩

theorem dropBlocks_sameKeys {id : LinkID} (h : dropBlocks id s = some s') : SameKeys s s' := by
  obtain ⟨bc, -, rfl⟩ := dropBlocks_eq_some h
  exact ⟨rfl, rfl, rfl⟩

theorem handle_sameKeys {le : LinkEvent} {o : Attempt KR} (ho : handle C w le s = some o) :
    SameKeys s o.state := by
  rcases handle_cases ho with ⟨-, rfl⟩ | ⟨-, s₁, hs₁, rfl⟩ | ⟨-, s₁, hs₁, rfl⟩
  · exact (invalidateCreated_sameKeys le.link s).trans (announceCreate_sameKeys ..)
  · rw [announceDelete_kept]
    exact (invalidateDeleted_sameKeys le.link s).trans (dropBlocks_sameKeys hs₁)
  · exact ((invalidateUpdated_sameKeys le.link s).trans (dropBlocks_sameKeys hs₁)).trans
      (announceUpdate_sameKeys ..)

end Events

theorem Lived.trueKeys (h : Lived C sealFolder t s) : TrueKeys C t s := by
  induction h with
  | start blocks => exact trueKeys_newSession blocks
  | call w hw c _ ih => exact exec_trueKeys hw ih c
  | readFile w hw path offset length _ ih => exact readFile_trueKeys hw ih path offset length
  | makeDir w hw p _ ih => exact makeDir_trueKeys hw ih p
  | delete w hw p trash _ ih => exact delete_trueKeys hw ih p trash
  | event w _ le o _ ho ih => exact ih.update (handle_sameKeys ho)

end History

section Answers

/-- What only changes the value of a step changes its result. -/
theorem result_of_toOption {α β : Type} {o : Step KR α} {x : α} (h : o.result.toOption = some x)
    (f : α → β) : (o.andThen fun a s => ⟨.ok (f a), s⟩).result = .ok (f x) := by
  rcases o with ⟨e | a, s₁⟩
  · cases h
  · cases h
    rfl

/-- On a server that answers every call, a session that mirrors the tree finds what is there. -/
theorem exec_complete (hr : w.Reliable) (hw : w.Serves t.toServer) (h : Mirrors C t s) {c : Call}
    {a : Answer KR} (ha : expected C t c = some a) : (exec C w s c).result = .ok a := by
  cases c with
  | resolvePath p =>
    obtain ⟨n, hn, rfl⟩ := Option.map_eq_some_iff.mp ha
    exact result_of_toOption ((resolvePath_toOption hr hw h p).trans hn) _
  | listChildren p =>
    obtain ⟨r, hn, rfl⟩ := Option.map_eq_some_iff.mp ha
    exact result_of_toOption ((listChildren_toOption hr hw h p).trans hn) _
  | stat p =>
    obtain ⟨r, hn, rfl⟩ := Option.map_eq_some_iff.mp ha
    exact result_of_toOption ((stat_toOption hr hw h p).trans hn) _
  | invalidatePath p =>
    cases ha
    rfl
  | invalidateLinkID id =>
    cases ha
    rfl
  | invalidateAll =>
    cases ha
    rfl

/-- What is known of a session that mirrors the tree holds for a session that is like it. -/
theorem answers_of_alike (h : Alike s s') (hm : Mirrors C t s') (hw : w.Serves t.toServer)
    (c : Call) :
    let run := exec C w s c
    (∀ a, run.result = .ok a → expected C t c = some a) ∧
    (∀ q, run.result = .error (.notFound q) → expected C t c = none) ∧
    (w.Reliable → ∀ a, expected C t c = some a → run.result = .ok a) ∧
    ∀ a, Replayable c → run.result = .ok a →
      ∀ after : List (World × Call), (∀ x ∈ after, x.1.Serves t.toServer ∧ ¬x.2.Invalidates) →
        ∀ w' : World, w'.Serves t.toServer → w'.Unreachable →
          (exec C w' (runCalls C run.state after) c).result = .ok a := by
  obtain ⟨hres, hstate⟩ : (exec C w s c).Same Alike (exec C w s' c) := exec_alike h c
  have hspec := exec_spec hw hm c
  intro run
  refine ⟨?_, ?_, ?_, ?_⟩
  · intro a ha
    exact (hspec.of_ok (hres.symm.trans ha)).2.2
  · intro q hq
    exact (hspec.of_error (hres.symm.trans hq)).2.2 q rfl
  · intro hr a ha
    exact hres.trans (exec_complete hr hw hm ha)
  · intro a hc ha after hafter w' hw' hu
    have ha' : (exec C w s' c).result = .ok a := hres.symm.trans ha
    have hok := hspec.of_ok ha'
    have hlater : Alike (runCalls C run.state after) (runCalls C (exec C w s' c).state after) :=
      runCalls_alike after hstate
    have hm' := runCalls_mirrors after (fun x hx => (hafter x hx).1) hok.1
    exact (exec_alike hlater c).1.trans (exec_offline hw' hu hm'
      (runCalls_grows after hafter hok.1) hok.2.2 (exec_stores hw hm hc ha'))

/-- However a session has lived on a drive that kept its share and its root link: once a poll has
asked for a full refresh while no call was under way, its answers are those of the plain walk on the
drive as it is now. A call that fetched before the refresh and stores after it is another matter. -/
theorem refreshed_answers {p p' : Poller KR} (hp : Lived C sealFolder t p.session)
    {fetched : Option VolumeEvent} {latest : Option EventID} (hr : Refreshes fetched latest)
    {w₀ : World} (hpoll : runJobs C w₀ (PollLoop.poll p.eventID fetched latest).1 p = some p')
    (before : List (World × Call)) (hbefore : ∀ x ∈ before, x.1.Serves t.toServer)
    (hw : w.Serves t.toServer) (c : Call) :
    let run := exec C w (runCalls C p'.session before) c
    (∀ a, run.result = .ok a → expected C t c = some a) ∧
    (∀ q, run.result = .error (.notFound q) → expected C t c = none) ∧
    (w.Reliable → ∀ a, expected C t c = some a → run.result = .ok a) ∧
    ∀ a, Replayable c → run.result = .ok a →
      ∀ after : List (World × Call), (∀ x ∈ after, x.1.Serves t.toServer ∧ ¬x.2.Invalidates) →
        ∀ w' : World, w'.Serves t.toServer → w'.Unreachable →
          (exec C w' (runCalls C run.state after) c).result = .ok a := by
  obtain ⟨newID, hjobs⟩ := poll_refreshes hr p.eventID
  rw [hjobs, runJobs_refresh] at hpoll
  obtain rfl := Option.some.inj hpoll
  have hm := runCalls_mirrors before hbefore (mirrors_forget hp.trueKeys)
  exact answers_of_alike (runCalls_alike before (invalidateAll_alike p.session)) hm hw c

/-- The drive before and after its one folder was deleted and made anew. -/
def oldDrive : Tree := flatTree [plainFolder "old" "root" "a"] (by decide) (by decide)

def newDrive : Tree := flatTree [plainFolder "new" "root" "a"] (by decide) (by decide)

/-- The session still knows the old folder and its keyring; refreshed, it finds the new one. -/
theorem refreshed_answers_newDrive :
    let s := (exec Crypto.plain (World.steady oldDrive.toServer) (newSession "root" none)
      (.resolvePath "/a".toList)).state
    (exec Crypto.plain (World.steady newDrive.toServer) s (.resolvePath "/a".toList)).result =
      .ok (.node ("old", ())) ∧
    (exec Crypto.plain (World.steady newDrive.toServer) s.invalidateAll
      (.resolvePath "/a".toList)).result = .ok (.node ("new", ())) := by
  intro s
  let p : Poller Unit := ⟨s, [], ['a'], []⟩
  have hnew : Lived Crypto.plain (fun _ _ _ => none) newDrive (newSession "root" none) :=
    .start none
  have hw : SameRoot newDrive (World.steady oldDrive.toServer) := fun _ =>
    ⟨oldDrive, rfl, rfl, rfl, rfl⟩
  have hp : Lived Crypto.plain (fun _ _ _ => none) newDrive p.session := hnew.call _ hw _
  have hr : Refreshes (some ⟨['b'], true, []⟩) none := ⟨_, rfl, .inr ⟨List.cons_ne_nil _ _, rfl⟩⟩
  have hpoll : runJobs Crypto.plain (World.steady newDrive.toServer)
      (PollLoop.poll p.eventID (some ⟨['b'], true, []⟩) none).1 p =
      some { p with session := s.invalidateAll, queue := [rootChanged] } := rfl
  refine ⟨rfl, ?_⟩
  exact (refreshed_answers hp hr hpoll [] (by simp) (fun _ => rfl)
    (.resolvePath "/a".toList)).2.2.1 (fun _ => rfl) _ rfl

end Answers

end ProtonDrive.FullRefreshes
