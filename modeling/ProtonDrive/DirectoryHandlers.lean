import ProtonDrive.FileReads

/-!
# Listing, creating and deleting

`MakeDir` and `Delete` of `session.go`, and the handlers of `main.go` for `ListDir`, `Stat`,
`Mkdir` and `Delete`. What is sent to the server is computed first and kept apart from what its
answer does to the session; the sealing of a new folder (its keys, hash and encrypted name) is a
parameter.
-/

namespace ProtonDrive.DirectoryHandlers
open SlashPaths FallibleSteps DriveApi DriveSession DriveSession.Session FileReads

/-- How `MakeDir` and `Delete` fail. -/
inductive WriteError
  | read (e : GoError)
  | keyringNotCached (id : LinkID)
  | crypto
  | api (e : ApiError)
  | alreadyExists
  deriving DecidableEq, Repr

/-- `proton.CreateFolderReq` with its name in the clear; `sealed` stands for the rest. -/
structure CreateFolderReq where
  parentLinkID : LinkID
  name : Path
  sealed : String
  deriving DecidableEq, Repr

structure DeleteReq where
  parentID : LinkID
  linkID : LinkID
  trash : Bool
  deriving DecidableEq, Repr

/-- `rpc.Entry`. -/
structure Entry where
  name : Path
  isDir : Bool
  size : ℤ
  mtime : ℤ
  linkID : LinkID
  revisionID : RevisionID
  hasThumbnail : Bool
  deriving DecidableEq, Repr

variable {KR : Type}

/-- A read of the session as the first part of a write. -/
def reading {α : Type} (o : Step KR α) : Outcome WriteError (Session KR) α :=
  match o with
  | ⟨.ok a, s⟩ => ⟨.ok a, s⟩
  | ⟨.error e, s⟩ => ⟨.error (.read e), s⟩

/-- `s.meta.InvalidatePath`: the recorded paths stay. -/
def dropMeta (s : Session KR) (p : Path) : Session KR :=
  { s with metaCache := s.metaCache.invalidatePath p }

variable (C : Crypto KR) (sealFolder : Link → KR → Path → Option String) (w : World)

def nodeKeyRing (s : Session KR) (link : Link) : Outcome WriteError (Session KR) KR :=
  match s.nodeKRs.lookup link.linkID with
  | some kr => ⟨.ok kr, s⟩
  | none => ⟨.error (.keyringNotCached link.linkID), s⟩

/-- What `MakeDir` sends: parent and name are those of the path as it was given. -/
def createFolderReq (s : Session KR) (p : Path) :
    Outcome WriteError (Session KR) CreateFolderReq :=
  (reading (s.stat C w (dir p))).andThen fun r s =>
    (nodeKeyRing s r.1).andThen fun parentKR s =>
      match sealFolder r.1 parentKR (base p) with
      | none => ⟨.error .crypto, s⟩
      | some x => ⟨.ok ⟨r.1.linkID, base p, x⟩, s⟩

/-- The answer to `CreateFolder`; the metadata of the parent is dropped in every case. -/
def createFolder (s : Session KR) (parent : Path) : Outcome WriteError (Session KR) Unit :=
  match s.callAPI w (fun _ => some ()) with
  | ⟨.ok (), s⟩ => ⟨.ok (), dropMeta s parent⟩
  | ⟨.error (.api (.rejected 2500)), s⟩ => ⟨.error .alreadyExists, dropMeta s parent⟩
  | ⟨.error (.api e), s⟩ => ⟨.error (.api e), dropMeta s parent⟩
  | ⟨.error e, s⟩ => ⟨.error (.read e), dropMeta s parent⟩

def makeDir (s : Session KR) (p : Path) : Outcome WriteError (Session KR) Unit :=
  (createFolderReq C sealFolder w s p).andThen fun _ s => createFolder w s (dir p)

def deleteReq (s : Session KR) (p : Path) (trash : Bool) :
    Outcome WriteError (Session KR) DeleteReq :=
  (reading (s.stat C w p)).andThen fun r s =>
    (reading (s.resolvePath C w (dir (absolute p)))).andThen fun node s =>
      ⟨.ok ⟨node.1, r.1.linkID, trash⟩, s⟩

/-- `Delete`: whatever the server answers, nothing is dropped. -/
def delete (s : Session KR) (p : Path) (trash : Bool) : Outcome WriteError (Session KR) Unit :=
  (deleteReq C w s p trash).andThen fun _ s => reading (s.callAPI w (fun _ => some ()))

def linkToEntry (l : Link) (name : Path) : Entry where
  name := name
  isDir := l.type = .folder
  size := l.size
  mtime := match l.fileProperties with
    | some props => if props.activeRevision.createTime ≠ 0 then props.activeRevision.createTime
      else if l.createTime ≠ 0 then l.createTime else l.modifyTime
    | none => if l.createTime ≠ 0 then l.createTime else l.modifyTime
  linkID := l.linkID
  revisionID := (l.fileProperties.map fun props => props.activeRevision.id).getD ""
  hasThumbnail := l.fileProperties.any fun props => props.activeRevision.thumbnail

/-- The entries `ListDir` makes of a listing: active links with a decryptable name. -/
def listDirEntries (kr : KR) (links : List Link) : List Entry :=
  links.filterMap fun l =>
    if l.state ≠ .active then none else (C.getName l kr).map (linkToEntry l)

/-- The `ListDir` handler, for a session that is logged in. -/
def listDir (path : Path) (s : Session KR) : Outcome HandlerError (Session KR) (List Entry) :=
  match s.listChildren C w path with
  | ⟨.ok r, s⟩ => ⟨.ok (listDirEntries C r.2 r.1), s⟩
  | ⟨.error e, s⟩ => ⟨.error (.internal e), s⟩

/-- The `Stat` handler; an undecryptable name is left empty. -/
def statEntry (path : Path) (s : Session KR) : Outcome HandlerError (Session KR) Entry :=
  match s.stat C w path with
  | ⟨.ok r, s⟩ => ⟨.ok (linkToEntry r.1 ((C.getName r.1 r.2).getD [])), s⟩
  | ⟨.error e, s⟩ => ⟨.error (.notFound e), s⟩

end ProtonDrive.DirectoryHandlers
