import ProtonDrive.SlashPaths
import ProtonDrive.KeyedMaps

/-!
# The Drive API as the helper sees it

Links, events and revisions as go-proton-api hands them over, the decryption calls the
helper makes on them, what the server holds, and how calls and file writes fail.
-/

namespace ProtonDrive.DriveApi
open SlashPaths KeyedMaps

abbrev LinkID := String
abbrev RevisionID := String
abbrev Bytes := List UInt8

inductive LinkState
  | draft | active | trashed | deleted | restoring
  deriving DecidableEq, Repr

inductive LinkType
  | folder | file
  deriving DecidableEq, Repr

structure RevisionMetadata where
  id : RevisionID
  createTime : ℤ
  thumbnail : Bool
  deriving DecidableEq, Repr

structure FileProperties where
  activeRevision : RevisionMetadata
  deriving DecidableEq, Repr

/-- `proton.Link`; the name stays encrypted, and only files have file properties. -/
structure Link where
  linkID : LinkID
  parentLinkID : LinkID
  type : LinkType
  name : String
  size : ℤ
  state : LinkState
  createTime : ℤ
  modifyTime : ℤ
  fileProperties : Option FileProperties
  deriving DecidableEq, Repr

inductive LinkEventType
  | delete | create | update | updateMetadata
  deriving DecidableEq, Repr

structure LinkEvent where
  eventType : LinkEventType
  link : Link
  deriving DecidableEq, Repr

/-- One block of a revision page; the index is 1-based. -/
structure Block where
  index : ℤ
  bareURL : String
  token : String
  deriving DecidableEq, Repr

structure Revision where
  blocks : List Block
  deriving DecidableEq, Repr

structure Share where
  key : String
  deriving DecidableEq, Repr

structure SessionKey where
  key : String
  deriving DecidableEq, Repr

/-- The decryption calls of go-proton-api, with the address keyring of the session fixed. -/
structure Crypto (KR : Type) where
  getName : Link → KR → Option Path
  getKeyRing : Link → KR → Option KR
  shareKeyRing : Share → Option KR
  getSessionKey : Link → KR → Option SessionKey
  decrypt : SessionKey → Bytes → Option Bytes

/-- What the server holds at one moment; `none` where it knows no such object. -/
structure Server where
  share : Share
  link : LinkID → Option Link
  children : LinkID → Option (List Link)
  revision : LinkID → RevisionID → ℤ → ℤ → Option Revision
  block : String → String → Option Bytes

/-- How an API call fails: on the network, or with an answer that reports an error. -/
inductive ApiError
  | net
  | rejected (code : ℤ)
  | notExist
  deriving DecidableEq, Repr

/-- `nilDereference` stands for the panic over a nil pointer. -/
inductive GoError
  | api (e : ApiError)
  | crypto
  | notFound (p : Path)
  | offline
  | nilDereference
  deriving DecidableEq, Repr

/-- `isOfflineError`: only network failures count, not the helper's own `ErrOffline`. -/
def isOfflineError : GoError → Bool
  | .api .net => true
  | _ => false

/-- How writing a file ends: done, before or after the place was cleared, or torn, which
leaves a prefix of the data in the file. -/
inductive DiskOutcome
  | done
  | refused
  | halted
  | torn (written : ℕ)
  deriving DecidableEq, Repr

/-- Decrypted names are single path components, as Proton clients only create such names. -/
def Crypto.NamesAreComponents {KR : Type} (C : Crypto KR) : Prop :=
  ∀ l kr n, C.getName l kr = some n → IsComponent n

/-- The first child whose decrypted name is `part`; undecryptable children are skipped. -/
def findChild {KR : Type} (C : Crypto KR) (kr : KR) (part : Path) (links : List Link) :
    Option Link := links.find? (fun l => C.getName l kr = some part)

theorem findChild_some {KR : Type} {C : Crypto KR} {kr : KR} {part : Path} {links : List Link}
    {l : Link} (h : findChild C kr part links = some l) :
    l ∈ links ∧ C.getName l kr = some part :=
  ⟨List.mem_of_find?_eq_some h, by simpa using List.find?_some h⟩

/-- Keys that encrypt nothing: names are in the clear and every keyring opens. -/
def Crypto.plain : Crypto Unit where
  getName l _ := if IsComponent l.name.toList then some l.name.toList else none
  getKeyRing _ _ := some ()
  shareKeyRing _ := some ()
  getSessionKey _ _ := some ⟨""⟩
  decrypt _ data := some data

/-- A server that holds these links: a folder lists its active children. -/
def serverOf (links : List Link) : Server where
  share := ⟨""⟩
  link id := links.find? (·.linkID = id)
  children id := ((links.find? (·.linkID = id)).filter (·.type = .folder)).map fun _ =>
    links.filter fun l => l.parentLinkID = id ∧ l.state = .active
  revision _ _ _ _ := none
  block _ _ := none

def plainFolder (id parent : LinkID) (name : String) : Link :=
  ⟨id, parent, .folder, name, 0, .active, 0, 0, none⟩

def plainFile (id parent : LinkID) (name : String) (size : ℤ) (rev : RevisionID) : Link :=
  ⟨id, parent, .file, name, size, .active, 0, 0, some ⟨⟨rev, 0, false⟩⟩⟩

end ProtonDrive.DriveApi
