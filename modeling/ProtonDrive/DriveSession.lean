import ProtonDrive.FallibleSteps
import ProtonDrive.MetaCache
import ProtonDrive.BlockCache

/-!
# The session: path resolution, listings and stats

The part of `session.go` that resolves paths to links. Every access to something the
helper does not control (an API call, the clock, the order of a map iteration, a file
operation) advances a tick, and the world answers each tick on its own: nothing relates
two answers unless a statement says so.
-/

namespace ProtonDrive.DriveSession
open SlashPaths KeyedMaps FallibleSteps DriveApi

structure World where
  server : ℕ → Server
  fails : ℕ → Option ApiError
  now : ℕ → ℤ
  statOrder : ℕ → RangeOrder Path
  nameOrder : ℕ → RangeOrder Path
  disk : ℕ → DiskOutcome
  walkOrder : ℕ → RangeOrder BlockCache.BlockKey
  stuck : ℕ → BlockCache.BlockKey → Bool

/-- Every API call fails on the network. -/
def World.Unreachable (w : World) : Prop := ∀ n, w.fails n = some .net

/-- Every API call is answered. -/
def World.Reliable (w : World) : Prop := ∀ n, w.fails n = none

/-- The server does not change: it is `srv` at every tick. -/
def World.Serves (w : World) (srv : Server) : Prop := ∀ n, w.server n = srv

/-- What an API call gets at a tick, if it is answered. -/
def World.answer {α : Type} (w : World) (tick : ℕ) (f : Server → Option α) : Option α :=
  if w.fails tick = none then f (w.server tick) else none

/-- A server that never fails and never changes, on a clock that stands still. -/
def World.steady (srv : Server) : World :=
  ⟨fun _ => srv, fun _ => none, fun _ => 0, default, default, fun _ => .done, default,
    fun _ _ => false⟩

/-- The same world without network. -/
def World.cut (srv : Server) : World := { World.steady srv with fails := fun _ => some .net }

structure Session (KR : Type) where
  rootID : LinkID
  shareKR : Option KR
  nodeKRs : KeyMap LinkID KR
  linkPaths : KeyMap LinkID Path
  pathLinks : KeyMap Path LinkID
  metaCache : MetaCache.Cache KR
  blocks : Option BlockCache.Cache
  ticks : ℕ

variable {KR : Type}

/-- `newSession`, once the client and the block cache are set up. -/
def newSession (rootID : LinkID) (blocks : Option BlockCache.Cache) : Session KR :=
  ⟨rootID, none, ∅, ∅, ∅, MetaCache.newMetaCache 0, blocks, 0⟩

abbrev Step (KR α : Type) := Outcome GoError (Session KR) α

/-- The components of a path below the root. -/
def splitPath (p : Path) : List Path :=
  let p := absolute p
  if p = ['/'] then [] else (p.drop 1).splitOn '/'

/-- `currentPath + "/" + part`, without a doubled slash at the root. -/
def extendPath (currentPath part : Path) : Path :=
  if currentPath = ['/'] then '/' :: part else currentPath ++ '/' :: part

theorem splitPath_eq (p : Path) : splitPath p = elements true p := by
  have he := elements_components p
  simp only [splitPath, absolute_eq_render]
  split_ifs with h
  · exact ((render_eq_root_iff he).mp h).symm
  · have hne : elements true p ≠ [] := fun h' => h ((render_eq_root_iff he).mpr h')
    cases hs : elements true p with
    | nil => exact absurd hs hne
    | cons e es =>
      rw [hs] at he
      have hsp := splitOn_flatMap (e :: es) (fun a ha => (he a ha).noSlash) (by simp)
      rw [List.flatMap_cons, List.cons_append, List.splitOn_cons_eq_if_modifyHead] at hsp
      simpa [render] using hsp

theorem extendPath_render {es : List Path} (he : ∀ e ∈ es, IsComponent e) (part : Path) :
    extendPath (render es) part = render (es ++ [part]) := by
  rw [extendPath, render_concat]
  split_ifs with h
  · rw [(render_eq_root_iff he).mp h]; simp
  · cases es with
    | nil => exact absurd rfl h
    | cons e es => rfl

namespace Session

def tick (s : Session KR) : Session KR := { s with ticks := s.ticks + 1 }

/-- The recorded path of a link; empty when the link was never visited. -/
def linkPath (s : Session KR) (id : LinkID) : Path := (s.linkPaths.lookup id).getD []

def setLinkPath (s : Session KR) (id : LinkID) (p : Path) : Session KR :=
  { s with linkPaths := s.linkPaths.insert id p }

def setPathLink (s : Session KR) (p : Path) (id : LinkID) : Session KR :=
  { s with pathLinks := s.pathLinks.insert p id }

def setNodeKR (s : Session KR) (id : LinkID) (kr : KR) : Session KR :=
  { s with nodeKRs := s.nodeKRs.insert id kr }

def setList (w : World) (s : Session KR) (p : Path) (links : List Link) (kr : KR) : Session KR :=
  { s with metaCache := s.metaCache.setList (w.now s.ticks) p links kr, ticks := s.ticks + 1 }

def setStat (w : World) (s : Session KR) (p : Path) (link : Link) (kr : KR) : Session KR :=
  { s with metaCache := s.metaCache.setStat (w.now s.ticks) p link kr, ticks := s.ticks + 1 }

/-- One API call: the world may let it fail, else the server of that tick answers. -/
def callAPI {α : Type} (w : World) (s : Session KR) (answer : Server → Option α) : Step KR α :=
  match w.fails s.ticks with
  | some e => ⟨.error (.api e), s.tick⟩
  | none => match answer (w.server s.ticks) with
    | some a => ⟨.ok a, s.tick⟩
    | none => ⟨.error (.api .notExist), s.tick⟩

variable (C : Crypto KR) (w : World)

def shareKeyRing (s : Session KR) : Step KR KR :=
  match s.shareKR with
  | some kr => ⟨.ok kr, s⟩
  | none => (s.callAPI w (fun srv => some srv.share)).andThen fun share s =>
    match C.shareKeyRing share with
    | none => ⟨.error .crypto, s⟩
    | some kr => ⟨.ok kr, { s with shareKR := some kr }⟩

def rootNodeKeyRing (s : Session KR) : Step KR KR :=
  match s.nodeKRs.lookup s.rootID with
  | some kr => ⟨.ok kr, s⟩
  | none => (s.shareKeyRing C w).andThen fun shareKR s =>
    (s.callAPI w (fun srv => srv.link s.rootID)).andThen fun rootLink s =>
      match C.getKeyRing rootLink shareKR with
      | none => ⟨.error .crypto, s⟩
      | some kr => ⟨.ok kr, s.setNodeKR s.rootID kr⟩

/-- The loop of `resolvePath` over the components that are left; `p` is for the error text. -/
def walkParts (p : Path) : List Path → LinkID → KR → Path → Session KR → Step KR (LinkID × KR)
  | [], linkID, kr, _, s => ⟨.ok (linkID, kr), s⟩
  | part :: parts, linkID, kr, currentPath, s =>
    (s.callAPI w (fun srv => srv.children linkID)).andThen fun children s =>
      let s := setList w s currentPath children kr
      match findChild C kr part children with
      | none => ⟨.error (.notFound p), s⟩
      | some child => match C.getKeyRing child kr with
        | none => ⟨.error .crypto, s⟩
        | some childKR =>
          let currentPath := extendPath currentPath part
          walkParts p parts child.linkID childKR currentPath
            (((s.setNodeKR child.linkID childKR).setLinkPath child.linkID currentPath).setPathLink
              currentPath child.linkID)

/-- The fast path of `resolvePath`: the full path is resolved and its keyring is known. -/
def resolved (s : Session KR) (p : Path) : Option (LinkID × KR) :=
  (s.pathLinks.lookup p).bind fun id => (s.nodeKRs.lookup id).map fun kr => (id, kr)

def resolvePath (s : Session KR) (p : Path) : Step KR (LinkID × KR) :=
  let p := absolute p
  match s.resolved p with
  | some node => ⟨.ok node, s⟩
  | none => ((s.setLinkPath s.rootID ['/']).rootNodeKeyRing C w).andThen fun kr s =>
    walkParts C w p (splitPath p) s.rootID kr ['/'] (s.setPathLink ['/'] s.rootID)

/-- Both error returns of `ListChildren`: offline, the stale listing is served. -/
def staleList (p : Path) (e : GoError) (s : Session KR) : Step KR (List Link × KR) :=
  match isOfflineError e, s.metaCache.getListStale p with
  | true, some r => ⟨.ok r, s⟩
  | _, _ => ⟨.error e, s⟩

def listChildren (s : Session KR) (dirPath : Path) : Step KR (List Link × KR) :=
  match s.metaCache.getList (w.now s.ticks) dirPath with
  | some r => ⟨.ok r, s.tick⟩
  | none => ((s.tick.resolvePath C w dirPath).andThen fun node s =>
      (s.callAPI w (fun srv => srv.children node.1)).andThen fun links s =>
        ⟨.ok (links, node.2), setList w s dirPath links node.2⟩).recover (staleList dirPath)

def parentKRFor (s : Session KR) (p : Path) : Step KR KR :=
  (s.resolvePath C w (dir (absolute p))).andThen fun node s => ⟨.ok node.2, s⟩

def statUncached (s : Session KR) (p : Path) : Step KR (Link × KR) :=
  if p = ['/'] then
    (s.callAPI w (fun srv => srv.link s.rootID)).andThen fun link s =>
      (s.rootNodeKeyRing C w).andThen fun kr s => ⟨.ok (link, kr), s⟩
  else (s.parentKRFor C w p).andThen fun parentKR s =>
    (s.listChildren C w (dir p)).andThen fun r s =>
      match findChild C parentKR (base p) r.1 with
      | some l => ⟨.ok (l, parentKR), s⟩
      | none => ⟨.error (.notFound p), s⟩

/-- The error return of `Stat`: offline, the stale entry is served. -/
def staleStat (p : Path) (e : GoError) (s : Session KR) : Step KR (Link × KR) :=
  match isOfflineError e, s.metaCache.getStatStale p with
  | true, some r => ⟨.ok r, s⟩
  | _, _ => ⟨.error e, s⟩

def stat (s : Session KR) (p : Path) : Step KR (Link × KR) :=
  let p := absolute p
  match s.metaCache.getStat (w.now s.ticks) p with
  | some r => ⟨.ok r, s.tick⟩
  | none => ((s.tick.statUncached C w p).andThen fun r s =>
      ⟨.ok r, setStat w s p r.1 r.2⟩).recover (staleStat p)

/-- Keys at or below `p`, as the two deletions of `InvalidatePath` pick them. -/
def atOrBelow (p cached : Path) : Bool := cached == p || (p ++ ['/']).isPrefixOf cached

def invalidatePath (s : Session KR) (p : Path) : Session KR :=
  { s with
    metaCache := s.metaCache.invalidatePath p
    pathLinks := dropKeys (atOrBelow p) s.pathLinks }

def invalidateLinkID (s : Session KR) (id : LinkID) : Session KR :=
  { s with
    metaCache := s.metaCache.invalidateLinkID (w.statOrder s.ticks) id
    pathLinks := match s.linkPaths.lookup id with
      | some p => s.pathLinks.erase p
      | none => s.pathLinks
    ticks := s.ticks + 1 }

def invalidateAll (s : Session KR) : Session KR :=
  { s with metaCache := s.metaCache.invalidateAll, pathLinks := ∅ }

theorem callAPI_cases {α : Type} (w : World) (s : Session KR) (answer : Server → Option α) :
    (∃ a, w.fails s.ticks = none ∧ answer (w.server s.ticks) = some a ∧
      s.callAPI w answer = ⟨.ok a, s.tick⟩) ∨
    ∃ e, (w.fails s.ticks = none → answer (w.server s.ticks) = none) ∧
      s.callAPI w answer = ⟨.error (.api e), s.tick⟩ := by
  simp only [callAPI]
  cases w.fails s.ticks with
  | some e => exact .inr ⟨e, nofun, rfl⟩
  | none =>
    cases answer (w.server s.ticks) with
    | none => exact .inr ⟨.notExist, fun _ => rfl, rfl⟩
    | some a => exact .inl ⟨a, rfl, rfl, rfl⟩

theorem callAPI_state {α : Type} (w : World) (s : Session KR) (answer : Server → Option α) :
    (s.callAPI w answer).state = s.tick := by
  rcases callAPI_cases w s answer with ⟨a, -, -, hc⟩ | ⟨e, -, hc⟩ <;> rw [hc]

theorem callAPI_net {α : Type} {w : World} {s : Session KR} {answer : Server → Option α}
    (h : (s.callAPI w answer).result = .error (.api .net)) : w.fails s.ticks = some .net := by
  simp only [callAPI] at h
  cases hf : w.fails s.ticks with
  | some e =>
    simp only [hf] at h
    cases h
    rfl
  | none =>
    simp only [hf] at h
    cases ha : answer (w.server s.ticks) with
    | none => simp [ha] at h
    | some a => simp [ha] at h

theorem callAPI_answer {α : Type} (w : World) (s : Session KR) (answer : Server → Option α) :
    (s.callAPI w answer).Sat (fun a s' => w.answer s.ticks answer = some a ∧ s' = s.tick)
      (fun _ s' => w.answer s.ticks answer = none ∧ s' = s.tick) := by
  simp only [World.answer]
  rcases callAPI_cases w s answer with ⟨a, hf, ha, hc⟩ | ⟨e, hn, hc⟩
  · rw [hc]
    exact ⟨by rw [if_pos hf, ha], rfl⟩
  · rw [hc]
    refine ⟨?_, rfl⟩
    split_ifs with hf
    · exact hn hf
    · rfl

end Session

section Calls

/-- The calls that reach the session's maps. -/
inductive Call
  | resolvePath (p : Path)
  | listChildren (p : Path)
  | stat (p : Path)
  | invalidatePath (p : Path)
  | invalidateLinkID (id : LinkID)
  | invalidateAll
  deriving DecidableEq, Repr

inductive Answer (KR : Type)
  | node (n : LinkID × KR)
  | listing (links : List Link) (kr : KR)
  | link (l : Link) (parentKR : KR)
  | done
  deriving DecidableEq

def Call.Invalidates : Call → Prop
  | .invalidatePath _ | .invalidateLinkID _ | .invalidateAll => True
  | _ => False

def exec (C : Crypto KR) (w : World) (s : Session KR) : Call → Step KR (Answer KR)
  | .resolvePath p => (s.resolvePath C w p).andThen fun n s => ⟨.ok (.node n), s⟩
  | .listChildren p => (s.listChildren C w p).andThen fun r s => ⟨.ok (.listing r.1 r.2), s⟩
  | .stat p => (s.stat C w p).andThen fun r s => ⟨.ok (.link r.1 r.2), s⟩
  | .invalidatePath p => ⟨.ok .done, s.invalidatePath p⟩
  | .invalidateLinkID id => ⟨.ok .done, s.invalidateLinkID w id⟩
  | .invalidateAll => ⟨.ok .done, s.invalidateAll⟩

end Calls

end ProtonDrive.DriveSession
