import ProtonDrive.Programs
import ProtonDrive.DirectoryHandlers
import ProtonDrive.EventPoller

/-!
# The session as programs

The calls of `session.go` as programs whose queries are their API calls and their accesses to
the caches, so that calls can be interleaved and what they send can be told. Values from the
API carry the stamp of the response they are from, through every cache that holds them. Run
without interference, each program does what the session's own function does.
-/

namespace ProtonDrive.SessionPrograms
open SlashPaths KeyedMaps FallibleSteps DriveApi DriveSession Programs Programs.Prog
  DirectoryHandlers

/-- A value with the stamp of the API response it is from. -/
structure Tagged (τ α : Type) where
  val : α
  stamp : τ
  deriving DecidableEq

/-- An API call, an access to the metadata cache, or one to another map of the session. -/
inductive Query (KR τ : Type)
  | getShare
  | getLink (id : LinkID)
  | listChildren (id : LinkID)
  | createFolder (req : CreateFolderReq)
  | deleteChildren (req : DeleteReq)
  | getStat (p : Path)
  | getStatStale (p : Path)
  | setStat (p : Path) (x : Tagged τ Link) (kr : KR)
  | getList (p : Path)
  | getListStale (p : Path)
  | setList (p : Path) (x : Tagged τ (List Link)) (kr : KR)
  | invalidateMeta (p : Path)
  | invalidateMetaLink (id : LinkID)
  | rootID
  | shareKR
  | setShareKR (kr : KR)
  | nodeKR (id : LinkID)
  | setNodeKR (id : LinkID) (kr : KR)
  | linkPath (id : LinkID)
  | setLinkPath (id : LinkID) (p : Path)
  | deleteLinkPath (id : LinkID)
  | pathLink (p : Path)
  | setPathLink (p : Path) (id : LinkID)
  | deletePathLinks (p : Path)
  | deletePathLinkOf (id : LinkID)
  | invalidateBlocks (id : LinkID)
  | rangeOrder

variable {KR τ : Type}

@[reducible] def Answer : Query KR τ → Type
  | .getShare => Except GoError Share
  | .getLink _ => Except GoError (Tagged τ Link)
  | .listChildren _ => Except GoError (Tagged τ (List Link))
  | .createFolder _ | .deleteChildren _ => Except GoError Unit
  | .getStat _ | .getStatStale _ => Option (Tagged τ Link × KR)
  | .getList _ | .getListStale _ => Option (Tagged τ (List Link) × KR)
  | .rootID => LinkID
  | .shareKR | .nodeKR _ => Option KR
  | .linkPath _ => Path
  | .pathLink _ => Option LinkID
  | .invalidateBlocks _ => Bool
  | .rangeOrder => RangeOrder Path
  | _ => Unit

/-- What goes to the server. -/
def Query.IsRequest : Query KR τ → Bool
  | .getShare | .getLink _ | .listChildren _ | .createFolder _ | .deleteChildren _ => true
  | _ => false

abbrev Op (KR τ ε α : Type) := Prog ε (Query KR τ) Answer α

def ask {ε : Type} (q : Query KR τ) : Op KR τ ε (Answer q) := query q

section Calls

/-- Go on with the answer of an API call, or return its error. -/
def check {α : Type} : Except GoError α → Op KR τ GoError α
  | .ok a => pure a
  | .error e => .fail e

variable (C : Crypto KR)

def shareKeyRing : Op KR τ GoError KR := do
  match ← ask .shareKR with
  | some kr => pure kr
  | none =>
    let share ← ask .getShare >>= check
    match C.shareKeyRing share with
    | none => .fail .crypto
    | some kr =>
      ask (.setShareKR kr)
      pure kr

def rootNodeKeyRing : Op KR τ GoError KR := do
  match ← ask (.nodeKR (← ask .rootID)) with
  | some kr => pure kr
  | none =>
    let shareKR ← shareKeyRing C
    let rootLink ← ask (.getLink (← ask .rootID)) >>= check
    match C.getKeyRing rootLink.val shareKR with
    | none => .fail .crypto
    | some kr =>
      ask (.setNodeKR (← ask .rootID) kr)
      pure kr

def walkParts (p : Path) : List Path → LinkID → KR → Path → Op KR τ GoError (LinkID × KR)
  | [], linkID, kr, _ => pure (linkID, kr)
  | part :: parts, linkID, kr, currentPath => do
    let children ← ask (.listChildren linkID) >>= check
    ask (.setList currentPath children kr)
    match findChild C kr part children.val with
    | none => .fail (.notFound p)
    | some child => match C.getKeyRing child kr with
      | none => .fail .crypto
      | some childKR =>
        let currentPath := extendPath currentPath part
        ask (.setNodeKR child.linkID childKR)
        ask (.setLinkPath child.linkID currentPath)
        ask (.setPathLink currentPath child.linkID)
        walkParts p parts child.linkID childKR currentPath

/-- The fast path of `resolvePath`. -/
def resolved (p : Path) : Op KR τ GoError (Option (LinkID × KR)) := do
  match ← ask (.pathLink p) with
  | none => pure none
  | some id => return (← ask (.nodeKR id)).map fun kr => (id, kr)

def resolvePath (p : Path) : Op KR τ GoError (LinkID × KR) := do
  let p := absolute p
  match ← resolved p with
  | some node => pure node
  | none =>
    ask (.setLinkPath (← ask .rootID) ['/'])
    let kr ← rootNodeKeyRing C
    ask (.setPathLink ['/'] (← ask .rootID))
    walkParts C p (splitPath p) (← ask .rootID) kr ['/']

def staleList (p : Path) (e : GoError) : Op KR τ GoError (Tagged τ (List Link) × KR) := do
  if isOfflineError e then
    match ← ask (.getListStale p) with
    | some r => pure r
    | none => .fail e
  else .fail e

def listChildren (dirPath : Path) : Op KR τ GoError (Tagged τ (List Link) × KR) := do
  match ← ask (.getList dirPath) with
  | some r => pure r
  | none => Prog.recover (do
      let node ← resolvePath C dirPath
      let links ← ask (.listChildren node.1) >>= check
      ask (.setList dirPath links node.2)
      pure (links, node.2)) (staleList dirPath)

def parentKRFor (p : Path) : Op KR τ GoError KR :=
  return (← resolvePath C (dir (absolute p))).2

def statUncached (p : Path) : Op KR τ GoError (Tagged τ Link × KR) :=
  if p = ['/'] then do
    let link ← ask (.getLink (← ask .rootID)) >>= check
    return (link, ← rootNodeKeyRing C)
  else do
    let parentKR ← parentKRFor C p
    let r ← listChildren C (dir p)
    match findChild C parentKR (base p) r.1.val with
    | some l => pure (⟨l, r.1.stamp⟩, parentKR)
    | none => .fail (.notFound p)

def staleStat (p : Path) (e : GoError) : Op KR τ GoError (Tagged τ Link × KR) := do
  if isOfflineError e then
    match ← ask (.getStatStale p) with
    | some r => pure r
    | none => .fail e
  else .fail e

def stat (p : Path) : Op KR τ GoError (Tagged τ Link × KR) := do
  let p := absolute p
  match ← ask (.getStat p) with
  | some r => pure r
  | none => Prog.recover (do
      let r ← statUncached C p
      ask (.setStat p r.1 r.2)
      pure r) (staleStat p)

/-- A read of the session as the first part of a write. -/
def reading {α : Type} (p : Op KR τ GoError α) : Op KR τ WriteError α := p.mapError .read

variable (sealFolder : Link → KR → Path → Option String)

/-- What `MakeDir` sends. -/
def createFolderReq (p : Path) : Op KR τ WriteError CreateFolderReq := do
  let r ← reading (stat C (dir p))
  match ← ask (.nodeKR r.1.val.linkID) with
  | none => .fail (.keyringNotCached r.1.val.linkID)
  | some parentKR => match sealFolder r.1.val parentKR (base p) with
    | none => .fail .crypto
    | some x => pure ⟨r.1.val.linkID, base p, x⟩

def createFolderError : GoError → WriteError
  | .api (.rejected 2500) => .alreadyExists
  | .api e => .api e
  | e => .read e

def createFolder (req : CreateFolderReq) (parent : Path) : Op KR τ WriteError Unit := do
  match ← ask (.createFolder req) with
  | .ok () => ask (.invalidateMeta parent)
  | .error e =>
    ask (.invalidateMeta parent)
    .fail (createFolderError e)

def makeDir (p : Path) : Op KR τ WriteError Unit := do
  createFolder (← createFolderReq C sealFolder p) (dir p)

def deleteReq (p : Path) (trash : Bool) : Op KR τ WriteError DeleteReq := do
  let r ← reading (stat C p)
  let node ← reading (resolvePath C (dir (absolute p)))
  pure ⟨node.1, r.1.val.linkID, trash⟩

def delete (p : Path) (trash : Bool) : Op KR τ WriteError Unit := do
  reading (ask (.deleteChildren (← deleteReq C p trash)) >>= check)

end Calls

section Handler

/-- A session, with the stamps of what its metadata cache holds and every response with links
that was received. -/
structure Journaled (KR τ : Type) where
  sess : Session KR
  statStamp : Path → τ
  listStamp : Path → τ
  received : List (Tagged τ (List Link))

namespace Journaled

def update (x : Journaled KR τ) (s : Session KR) : Journaled KR τ := { x with sess := s }

/-- The answer of an API call, stamped. -/
def receive {α : Type} (x : Journaled KR τ) (stamp : τ) (links : α → List Link)
    (o : Step KR α) : Except GoError (Tagged τ α) × Journaled KR τ :=
  match o with
  | ⟨.ok a, s⟩ =>
    (.ok ⟨a, stamp⟩, { x with sess := s, received := x.received ++ [⟨links a, stamp⟩] })
  | ⟨.error e, s⟩ => (.error e, x.update s)

end Journaled

def tagWith {α : Type} (stamp : τ) (r : Option (α × KR)) : Option (Tagged τ α × KR) :=
  r.map fun r => (⟨r.1, stamp⟩, r.2)

/-- Every query as the session and its world answer it; `stamp` is what a response at a tick
is marked with. -/
def exec (w : World) (stamp : ℕ → τ) : (q : Query KR τ) → Journaled KR τ →
    Answer q × Journaled KR τ
  | .getShare, x =>
    let o := x.sess.callAPI w fun srv => some srv.share
    (o.result, x.update o.state)
  | .getLink id, x =>
    x.receive (stamp x.sess.ticks) (fun l => [l]) (x.sess.callAPI w fun srv => srv.link id)
  | .listChildren id, x =>
    x.receive (stamp x.sess.ticks) (fun ls => ls) (x.sess.callAPI w fun srv => srv.children id)
  | .createFolder _, x =>
    let o := x.sess.callAPI w fun _ => some ()
    (o.result, x.update o.state)
  | .deleteChildren _, x =>
    let o := x.sess.callAPI w fun _ => some ()
    (o.result, x.update o.state)
  | .getStat p, x =>
    (tagWith (x.statStamp p) (x.sess.metaCache.getStat (w.now x.sess.ticks) p),
      x.update x.sess.tick)
  | .getStatStale p, x => (tagWith (x.statStamp p) (x.sess.metaCache.getStatStale p), x)
  | .setStat p y kr, x =>
    ((), { x with
      sess := Session.setStat w x.sess p y.val kr
      statStamp := Function.update x.statStamp p y.stamp })
  | .getList p, x =>
    (tagWith (x.listStamp p) (x.sess.metaCache.getList (w.now x.sess.ticks) p),
      x.update x.sess.tick)
  | .getListStale p, x => (tagWith (x.listStamp p) (x.sess.metaCache.getListStale p), x)
  | .setList p y kr, x =>
    ((), { x with
      sess := Session.setList w x.sess p y.val kr
      listStamp := Function.update x.listStamp p y.stamp })
  | .invalidateMeta p, x => ((), x.update (dropMeta x.sess p))
  | .invalidateMetaLink id, x =>
    ((), x.update { x.sess with
      metaCache := x.sess.metaCache.invalidateLinkID (w.statOrder x.sess.ticks) id
      ticks := x.sess.ticks + 1 })
  | .rootID, x => (x.sess.rootID, x)
  | .shareKR, x => (x.sess.shareKR, x)
  | .setShareKR kr, x => ((), x.update { x.sess with shareKR := some kr })
  | .nodeKR id, x => (x.sess.nodeKRs.lookup id, x)
  | .setNodeKR id kr, x => ((), x.update (x.sess.setNodeKR id kr))
  | .linkPath id, x => (x.sess.linkPath id, x)
  | .setLinkPath id p, x => ((), x.update (x.sess.setLinkPath id p))
  | .deleteLinkPath id, x =>
    ((), x.update { x.sess with linkPaths := x.sess.linkPaths.erase id })
  | .pathLink p, x => (x.sess.pathLinks.lookup p, x)
  | .setPathLink p id, x => ((), x.update (x.sess.setPathLink p id))
  | .deletePathLinks p, x =>
    ((), x.update { x.sess with
      pathLinks := dropKeys (Session.atOrBelow p) x.sess.pathLinks })
  | .deletePathLinkOf id, x =>
    ((), x.update { x.sess with
      pathLinks := match x.sess.linkPaths.lookup id with
        | some p => x.sess.pathLinks.erase p
        | none => x.sess.pathLinks })
  | .invalidateBlocks id, x => match EventPoller.dropBlocks id x.sess with
    | some s => (true, x.update s)
    | none => (false, x)
  | .rangeOrder, x => (w.nameOrder x.sess.ticks, x.update x.sess.tick)

end Handler

section Entries

variable {w : World} {stamp : ℕ → τ} {x : Journaled KR τ} {p : Path}

theorem lookup_setList (y : Tagged τ (List Link)) (kr : KR) (q : Path) :
    ((exec w stamp (.setList p y kr) x).2).sess.metaCache.lists.lookup q =
      if q = p then some ⟨y.val, kr, w.now x.sess.ticks⟩
      else x.sess.metaCache.lists.lookup q := MetaCache.Cache.lookup_setList ..

theorem listStamp_setList (y : Tagged τ (List Link)) (kr : KR) (q : Path) :
    ((exec w stamp (.setList p y kr) x).2).listStamp q =
      if q = p then y.stamp else x.listStamp q := Function.update_apply ..

theorem lookup_setStat (y : Tagged τ Link) (kr : KR) (q : Path) :
    ((exec w stamp (.setStat p y kr) x).2).sess.metaCache.stats.lookup q =
      if q = p then some ⟨y.val, kr, w.now x.sess.ticks⟩
      else x.sess.metaCache.stats.lookup q := MetaCache.Cache.lookup_setStat ..

theorem statStamp_setStat (y : Tagged τ Link) (kr : KR) (q : Path) :
    ((exec w stamp (.setStat p y kr) x).2).statStamp q =
      if q = p then y.stamp else x.statStamp q := Function.update_apply ..

theorem getListStale_some {r : Tagged τ (List Link) × KR}
    (h : (exec w stamp (.getListStale p) x).1 = some r) :
    ∃ e, x.sess.metaCache.lists.lookup p = some e ∧
      r = (⟨e.links, x.listStamp p⟩, e.parentKR) := by
  simp only [exec, tagWith, MetaCache.Cache.getListStale, Option.map_map,
    Option.map_eq_some_iff] at h
  obtain ⟨e, he, rfl⟩ := h
  exact ⟨e, he, rfl⟩

/-- What the cache serves is younger than the TTL. -/
theorem getList_some {r : Tagged τ (List Link) × KR}
    (h : (exec w stamp (.getList p) x).1 = some r) :
    ∃ e, x.sess.metaCache.lists.lookup p = some e ∧
      w.now x.sess.ticks - e.cachedAt < x.sess.metaCache.ttl ∧
        r = (⟨e.links, x.listStamp p⟩, e.parentKR) := by
  simp only [exec, tagWith, MetaCache.Cache.getList, Option.map_map, Option.map_eq_some_iff,
    Option.filter_eq_some_iff, decide_eq_true_eq] at h
  obtain ⟨e, ⟨he, hage⟩, rfl⟩ := h
  exact ⟨e, he, hage, rfl⟩

theorem getStatStale_some {r : Tagged τ Link × KR}
    (h : (exec w stamp (.getStatStale p) x).1 = some r) :
    ∃ e, x.sess.metaCache.stats.lookup p = some e ∧
      r = (⟨e.link, x.statStamp p⟩, e.parentKR) := by
  simp only [exec, tagWith, MetaCache.Cache.getStatStale, Option.map_map,
    Option.map_eq_some_iff] at h
  obtain ⟨e, he, rfl⟩ := h
  exact ⟨e, he, rfl⟩

theorem getStat_some {r : Tagged τ Link × KR} (h : (exec w stamp (.getStat p) x).1 = some r) :
    ∃ e, x.sess.metaCache.stats.lookup p = some e ∧
      w.now x.sess.ticks - e.cachedAt < x.sess.metaCache.ttl ∧
        r = (⟨e.link, x.statStamp p⟩, e.parentKR) := by
  simp only [exec, tagWith, MetaCache.Cache.getStat, Option.map_map, Option.map_eq_some_iff,
    Option.filter_eq_some_iff, decide_eq_true_eq] at h
  obtain ⟨e, ⟨he, hage⟩, rfl⟩ := h
  exact ⟨e, he, hage, rfl⟩

end Entries

section Agreement

variable (w : World) (stamp : ℕ → τ) {ε α β γ δ : Type}

/-- A run as the session sees it. -/
def seen (v : α → β) (p : Op KR τ ε α) (x : Journaled KR τ) : Outcome ε (Session KR) β :=
  (p.run (exec w stamp) x).image v Journaled.sess

variable {w stamp} {C : Crypto KR} {x : Journaled KR τ} {v : α → β}

@[simp] theorem seen_ask (q : Query KR τ) (f : Answer q → Op KR τ ε α) :
    seen w stamp v (ask q >>= f) x = seen w stamp v (f (exec w stamp q x).1)
      (exec w stamp q x).2 := rfl

theorem seen_bind {u : α → β} {v : γ → δ} {p : Op KR τ ε α} {f : α → Op KR τ ε γ}
    {o : Outcome ε (Session KR) β} {f' : β → Session KR → Outcome ε (Session KR) δ}
    (h : seen w stamp u p x = o) (hf : ∀ a y, seen w stamp v (f a) y = f' (u a) y.sess) :
    seen w stamp v (p >>= f) x = o.andThen f' := by
  rw [seen, run_bind]
  exact Outcome.image_andThen h hf

theorem seen_bind_ok {p : Op KR τ ε γ} {f : γ → Op KR τ ε α} {c : γ} {y : Journaled KR τ}
    (h : p.run (exec w stamp) x = ⟨.ok c, y⟩) :
    seen w stamp v (p >>= f) x = seen w stamp v (f c) y := by
  rw [seen, run_bind, h]
  rfl

theorem seen_bind_error {p : Op KR τ ε γ} {f : γ → Op KR τ ε α} {e : ε} {y : Journaled KR τ}
    (h : p.run (exec w stamp) x = ⟨.error e, y⟩) :
    seen w stamp v (p >>= f) x = ⟨.error e, y.sess⟩ := by
  rw [seen, run_bind, h]
  rfl

theorem seen_recover {p : Op KR τ ε α} {g : ε → Op KR τ ε α} {o : Outcome ε (Session KR) β}
    {g' : ε → Session KR → Outcome ε (Session KR) β} (h : seen w stamp v p x = o)
    (hg : ∀ e y, seen w stamp v (g e) y = g' e y.sess) :
    seen w stamp v (p.recover g) x = o.recover g' := by
  rw [seen, run_recover]
  exact Outcome.image_recover h hg

theorem seen_share :
    seen w stamp id (ask .getShare >>= check) x =
      x.sess.callAPI w fun srv => some srv.share := by
  rw [seen_ask, exec]
  rcases x.sess.callAPI w fun srv => some srv.share with ⟨e | a, s⟩ <;> rfl

theorem seen_link (id : LinkID) :
    seen w stamp Tagged.val (ask (.getLink id) >>= check) x =
      x.sess.callAPI w fun srv => srv.link id := by
  rw [seen_ask, exec]
  rcases x.sess.callAPI w fun srv => srv.link id with ⟨e | a, s⟩ <;> rfl

theorem seen_children (id : LinkID) :
    seen w stamp Tagged.val (ask (.listChildren id) >>= check) x =
      x.sess.callAPI w fun srv => srv.children id := by
  rw [seen_ask, exec]
  rcases x.sess.callAPI w fun srv => srv.children id with ⟨e | a, s⟩ <;> rfl

theorem seen_shareKeyRing (x : Journaled KR τ) :
    seen w stamp id (shareKeyRing C) x = x.sess.shareKeyRing C w := by
  rw [shareKeyRing, Session.shareKeyRing, seen_ask, exec]
  cases x.sess.shareKR with
  | some kr => rfl
  | none =>
    apply seen_bind seen_share
    intro share y
    simp only [id]
    cases C.shareKeyRing share <;> rfl

theorem seen_rootNodeKeyRing (x : Journaled KR τ) :
    seen w stamp id (rootNodeKeyRing C) x = x.sess.rootNodeKeyRing C w := by
  rw [rootNodeKeyRing, Session.rootNodeKeyRing, seen_ask, exec, seen_ask, exec]
  cases x.sess.nodeKRs.lookup x.sess.rootID with
  | some kr => rfl
  | none =>
    apply seen_bind (seen_shareKeyRing x)
    intro shareKR y
    rw [seen_ask, exec]
    apply seen_bind (seen_link _)
    intro rootLink z
    simp only [id]
    cases C.getKeyRing rootLink.val shareKR <;> rfl

theorem seen_walkParts (p : Path) (parts : List Path) (linkID : LinkID) (kr : KR)
    (currentPath : Path) (x : Journaled KR τ) :
    seen w stamp id (walkParts C p parts linkID kr currentPath) x =
      Session.walkParts C w p parts linkID kr currentPath x.sess := by
  induction parts generalizing linkID kr currentPath x with
  | nil => rfl
  | cons part parts ih =>
    rw [walkParts, Session.walkParts]
    apply seen_bind (seen_children linkID)
    intro children y
    rw [seen_ask, exec]
    dsimp only
    cases findChild C kr part children.val with
    | none => rfl
    | some child =>
      dsimp only
      cases C.getKeyRing child kr with
      | none => rfl
      | some childKR => exact ih ..

/-- The walk of `resolvePath` from the root, when the path is not resolved yet. -/
theorem seen_walk (p : Path) (x : Journaled KR τ) :
    seen w stamp id (do
      ask (.setLinkPath (← ask .rootID) ['/'])
      let kr ← rootNodeKeyRing C
      ask (.setPathLink ['/'] (← ask .rootID))
      walkParts C p (splitPath p) (← ask .rootID) kr ['/']) x =
      ((x.sess.setLinkPath x.sess.rootID ['/']).rootNodeKeyRing C w).andThen fun kr s =>
        Session.walkParts C w p (splitPath p) s.rootID kr ['/']
          (s.setPathLink ['/'] s.rootID) := by
  rw [seen_ask, exec, seen_ask, exec]
  apply seen_bind (seen_rootNodeKeyRing _)
  intro kr y
  rw [seen_ask, exec, seen_ask, exec, seen_ask, exec]
  exact seen_walkParts ..

theorem run_resolved (p : Path) (x : Journaled KR τ) :
    (resolved p).run (exec w stamp) x = ⟨.ok (x.sess.resolved p), x⟩ := by
  have hask : ∀ (q : Query KR τ) (f : Answer q → Op KR τ GoError (Option (LinkID × KR))),
      (ask q >>= f).run (exec w stamp) x =
        (f (exec w stamp q x).1).run (exec w stamp) (exec w stamp q x).2 := fun _ _ => rfl
  rw [resolved, Session.resolved, hask, exec]
  cases x.sess.pathLinks.lookup p <;> rfl

theorem seen_resolvePath (p : Path) (x : Journaled KR τ) :
    seen w stamp id (resolvePath C p) x = x.sess.resolvePath C w p := by
  rw [resolvePath, Session.resolvePath, seen_bind_ok (run_resolved (absolute p) x)]
  cases x.sess.resolved (absolute p) with
  | some node => rfl
  | none => exact seen_walk (absolute p) x

/-- A listing as the session returns it, without its stamp. -/
def listing (r : Tagged τ (List Link) × KR) : List Link × KR := (r.1.val, r.2)

/-- A record as the session returns it, without its stamp. -/
def record (r : Tagged τ Link × KR) : Link × KR := (r.1.val, r.2)

theorem seen_staleList (p : Path) (e : GoError) (x : Journaled KR τ) :
    seen w stamp listing (staleList p e) x = x.sess.staleList p e := by
  rw [staleList, Session.staleList]
  cases isOfflineError e with
  | false => rfl
  | true =>
    rw [if_pos rfl, seen_ask, exec]
    cases x.sess.metaCache.getListStale p <;> rfl

theorem seen_listChildren (p : Path) (x : Journaled KR τ) :
    seen w stamp listing (listChildren C p) x = x.sess.listChildren C w p := by
  rw [listChildren, Session.listChildren, seen_ask, exec]
  cases x.sess.metaCache.getList (w.now x.sess.ticks) p with
  | some r => rfl
  | none =>
    apply seen_recover
    · apply seen_bind (seen_resolvePath p _)
      intro node y
      apply seen_bind (seen_children node.1)
      intro links z
      rfl
    · exact fun e y => seen_staleList p e y

theorem seen_statUncached (p : Path) (x : Journaled KR τ) :
    seen w stamp record (statUncached C p) x = x.sess.statUncached C w p := by
  rw [statUncached, Session.statUncached]
  split_ifs with hp
  · rw [seen_ask, exec]
    apply seen_bind (seen_link _)
    intro link y
    apply seen_bind (seen_rootNodeKeyRing y)
    intro kr z
    rfl
  · rw [parentKRFor, Session.parentKRFor]
    apply seen_bind (u := id)
    · apply seen_bind (seen_resolvePath _ _)
      intro node y
      rfl
    · intro parentKR y
      apply seen_bind (seen_listChildren (dir p) y)
      intro r z
      simp only [listing, id]
      cases findChild C parentKR (base p) r.1.val <;> rfl

theorem seen_staleStat (p : Path) (e : GoError) (x : Journaled KR τ) :
    seen w stamp record (staleStat p e) x = x.sess.staleStat p e := by
  rw [staleStat, Session.staleStat]
  cases isOfflineError e with
  | false => rfl
  | true =>
    rw [if_pos rfl, seen_ask, exec]
    cases x.sess.metaCache.getStatStale p <;> rfl

theorem seen_stat (p : Path) (x : Journaled KR τ) :
    seen w stamp record (stat C p) x = x.sess.stat C w p := by
  rw [stat, Session.stat, seen_ask, exec]
  dsimp only
  cases x.sess.metaCache.getStat (w.now x.sess.ticks) (absolute p) with
  | some r => rfl
  | none =>
    apply seen_recover
    · apply seen_bind (seen_statUncached (absolute p) _)
      intro r y
      rfl
    · exact fun e y => seen_staleStat (absolute p) e y

theorem seen_reading {p : Op KR τ GoError α} {o : Step KR β}
    (h : seen w stamp v p x = o) :
    seen w stamp v (reading p) x = DirectoryHandlers.reading o := by
  subst h
  rw [seen, reading, run_mapError, seen]
  rcases p.run (exec w stamp) x with ⟨e | a, y⟩ <;> rfl

variable {sealFolder : Link → KR → Path → Option String}

theorem seen_createFolderReq (p : Path) (x : Journaled KR τ) :
    seen w stamp id (createFolderReq C sealFolder p) x =
      DirectoryHandlers.createFolderReq C sealFolder w x.sess p := by
  rw [createFolderReq, DirectoryHandlers.createFolderReq]
  apply seen_bind (seen_reading (seen_stat (dir p) x))
  intro r y
  rw [seen_ask, exec, nodeKeyRing]
  simp only [record]
  cases y.sess.nodeKRs.lookup r.1.val.linkID with
  | none => rfl
  | some parentKR =>
    simp only [Outcome.andThen_ok]
    cases sealFolder r.1.val parentKR (base p) <;> rfl

theorem seen_createFolder (req : CreateFolderReq) (parent : Path) (x : Journaled KR τ) :
    seen w stamp id (createFolder req parent) x =
      DirectoryHandlers.createFolder w x.sess parent := by
  rw [createFolder, DirectoryHandlers.createFolder, seen_ask, exec]
  dsimp only
  rcases x.sess.callAPI w (fun _ => some ()) with ⟨e | a, s⟩
  · change (⟨.error (createFolderError e), dropMeta s parent⟩ : Outcome _ (Session KR) Unit) = _
    unfold createFolderError
    split <;> simp_all
  · rfl

theorem seen_makeDir (p : Path) (x : Journaled KR τ) :
    seen w stamp id (makeDir C sealFolder p) x =
      DirectoryHandlers.makeDir C sealFolder w x.sess p := by
  apply seen_bind (seen_createFolderReq p x)
  intro req y
  exact seen_createFolder req (dir p) y

theorem seen_deleteReq (p : Path) (trash : Bool) (x : Journaled KR τ) :
    seen w stamp id (deleteReq C p trash) x =
      DirectoryHandlers.deleteReq C w x.sess p trash := by
  apply seen_bind (seen_reading (seen_stat p x))
  intro r y
  apply seen_bind (seen_reading (seen_resolvePath (dir (absolute p)) y))
  intro node z
  rfl

theorem seen_delete (p : Path) (trash : Bool) (x : Journaled KR τ) :
    seen w stamp id (delete C p trash) x = DirectoryHandlers.delete C w x.sess p trash := by
  apply seen_bind (seen_deleteReq p trash x)
  intro req y
  apply seen_reading
  rw [seen_ask, exec]
  rcases y.sess.callAPI w (fun _ => some ()) with ⟨e | a, s⟩ <;> rfl

end Agreement

end ProtonDrive.SessionPrograms
