import ProtonDrive.VisibleEntries
import ProtonDrive.WireFormats

/-!
# What a file manager is told of a file

`fill_file_info`, `do_enumerate` and `do_query_info` of the backend, over the RPC client on one side
and the `ListDir` and `Stat` handlers on the other. A folder's listing and a query of one of its
files go through different loops of the helper, at different times and from different caches; the
attributes they end in are compared here.
-/

namespace ProtonDrive.FileInfos
open SlashPaths FallibleSteps DriveApi DriveSession RemoteTree CacheTransparency JsonNodes
  RpcClient RpcConnections FileReads DirectoryHandlers ReadHandles WireFormats VisibleEntries

section Backend

inductive FileType
  | regular
  | directory
  deriving DecidableEq, Repr

/-- The names of a themed icon. -/
abbrev Icon := List String

/-- What GIO makes of the name of a file, and of a content type. -/
structure ContentTypes where
  guess : Option String → Option String
  getIcon : String → Option Icon
  getSymbolicIcon : String → Option Icon

/-- The attributes of a `GFileInfo` that the backend sets; a NULL value leaves one unset. -/
structure FileInfo where
  name : Option String
  displayName : Option String
  editName : Option String
  fileType : FileType
  contentType : Option String
  icon : Option Icon
  symbolicIcon : Option Icon
  size : Option ℤ
  modified : Option ℤ
  idFile : Option String
  etagValue : Option String
  thumbnailPath : Option String
  thumbnailIsValid : Bool
  deriving DecidableEq, Repr

/-- `g_date_time_new_from_unix_utc`: NULL outside of the years 1 to 9999. -/
def dateTime (t : ℤ) : Option ℤ := if -62135596800 ≤ t ∧ t ≤ 253402300799 then some t else none

/-- `fill_file_info`. -/
def fillFileInfo (types : ContentTypes) (e : ProtonEntry) : FileInfo :=
  let contentType := types.guess e.name
  { name := e.name
    displayName := e.name
    editName := e.name
    fileType := if e.isDir then .directory else .regular
    contentType := if e.isDir then some "inode/directory" else contentType
    icon := if e.isDir then some ["folder"] else contentType.bind types.getIcon
    symbolicIcon :=
      if e.isDir then some ["folder-symbolic"] else contentType.bind types.getSymbolicIcon
    size := if e.isDir then none else some e.size
    modified := dateTime e.mtime
    idFile := e.linkID
    etagValue := e.revisionID
    thumbnailPath := none
    thumbnailIsValid := false }

variable (codec : Codec) (types : ContentTypes) (rpc : ProtonRpc)

/-- `proton_rpc_fetch_thumbnail`; its caller passes no place for an error. -/
def fetchThumbnail (x : Exchange) (linkID revisionID : String) : ProtonRpc × Option String :=
  let r := call codec rpc "FetchThumbnail"
    [("link_id", .string linkID), ("revision_id", .string revisionID)] x
  (r.1, r.2.value.bind fun resp =>
    (getStringMember (getObjectMember (some resp) "result") "path").filter (· ≠ ""))

/-- The link and the revision whose thumbnail is asked for. -/
def thumbnailOf (e : ProtonEntry) (wantsThumbnail : Bool) : Option (String × String) :=
  e.linkID.bind fun linkID => e.revisionID.bind fun revisionID =>
    if e.isDir = false ∧ wantsThumbnail = true then some (linkID, revisionID) else none

/-- `do_query_info`: the second exchange is that of the thumbnail. -/
def doQueryInfo (x thumbnail : Exchange) (filename : String) (wantsThumbnail : Bool) :
    ProtonRpc × Returned FileInfo :=
  match RpcClient.stat codec rpc x filename with
  | (rpc, ⟨none, e⟩) => (rpc, ⟨none, e⟩)
  | (rpc, ⟨some e, _⟩) =>
    let info := fillFileInfo types e
    match thumbnailOf e wantsThumbnail with
    | none => (rpc, ⟨some info, none⟩)
    | some (linkID, revisionID) =>
      match fetchThumbnail codec rpc thumbnail linkID revisionID with
      | (rpc, none) => (rpc, ⟨some info, none⟩)
      | (rpc, some path) =>
        (rpc, ⟨some { info with thumbnailPath := some path, thumbnailIsValid := true }, none⟩)

/-- `do_enumerate`. -/
def doEnumerate (x : Exchange) (filename : String) : ProtonRpc × Returned (List FileInfo) :=
  match RpcClient.listDir codec rpc x filename with
  | (rpc, ⟨none, e⟩) => (rpc, ⟨none, e⟩)
  | (rpc, ⟨some entries, _⟩) => (rpc, ⟨some (entries.map (fillFileInfo types)), none⟩)

/-- The attributes that an enumeration gives as well. -/
def FileInfo.withoutThumbnail (info : FileInfo) : FileInfo :=
  { info with thumbnailPath := none, thumbnailIsValid := false }

end Backend

section Helper

variable {KR : Type} (C : Crypto KR) (w : World) (errorText : GoError → String)

/-- `ListDirParams` and `StatParams`. -/
def unmarshalPath (raw : ObjectRef) : String := (getStringMember raw "path").getD ""

/-- `rpc.ListDirResult`. -/
def listJson (entries : List Entry) : JsonNode :=
  .object [("entries", .array (entries.map fun e => (rpcEntry e).json))]

/-- The `ListDir` handler as it is registered. -/
def listDirHandler (session : Option (Session KR)) (params : List (String × JsonNode)) :
    Except RPCError (Option JsonNode) :=
  match session with
  | none => .error notAuth
  | some s =>
    let path := unmarshalPath (some params)
    match (DirectoryHandlers.listDir C w path.toList s).result with
    | .ok entries => .ok (some (listJson entries))
    | .error e => .error (toRPCError errorText e)

/-- The `Stat` handler as it is registered. -/
def statHandler (session : Option (Session KR)) (params : List (String × JsonNode)) :
    Except RPCError (Option JsonNode) :=
  match session with
  | none => .error notAuth
  | some s =>
    let path := unmarshalPath (some params)
    match (statEntry C w path.toList s).result with
    | .ok e => .ok (some (rpcEntry e).json)
    | .error e => .error (toRPCError errorText e)

end Helper

section Exchanges

/-- The same entry on the other side, with NULL for an empty revision. -/
def sameEntry (e : Entry) : ProtonEntry where
  name := some (String.ofList e.name)
  isDir := e.isDir
  size := e.size
  mtime := e.mtime
  linkID := some e.linkID
  revisionID := if e.revisionID = "" then none else some e.revisionID
  hasThumbnail := e.hasThumbnail

/-- The strings of the entry survive as C strings. -/
structure NoNul (e : Entry) : Prop where
  name : '\x00' ∉ e.name
  linkID : '\x00' ∉ e.linkID.toList
  revisionID : '\x00' ∉ e.revisionID.toList

theorem readEntry_same {e : Entry} (h : NoNul e) :
    readEntry (rpcEntry e).json.getObject = sameEntry e := by
  rw [json_rpcEntry h.name h.linkID h.revisionID]
  by_cases hr : e.revisionID = "" <;> cases ht : e.hasThumbnail <;>
    simp [entryJson, JsonNode.getObject, readEntry, sameEntry, hasMember, getStringMember,
      getBooleanMember, getIntMember, hr, ht]

variable {KR : Type} {codec : Codec} {types : ContentTypes} {rpc : ProtonRpc} {x y : Exchange}
  {C : Crypto KR} {w : World} {errorText : GoError → String} {s : Session KR} {path : String}

/-- The response, if one arrives, is the handler's. -/
def Answered (codec : Codec) (rpc : ProtonRpc) (x : Exchange) (method : String)
    (params : List (String × JsonNode))
    (handler : List (String × JsonNode) → Except RPCError (Option JsonNode)) : Prop :=
  ∀ text obj, x.read = .line text → codec.parse text = .ok obj →
    ∃ handlers : Handlers, handlers method = some handler ∧
      obj = dispatch handlers rpc.nextID method params

/-- Only a success of the handler makes a response that is handed on. -/
theorem call_answered {method : String} {params : List (String × JsonNode)}
    {handler : List (String × JsonNode) → Except RPCError (Option JsonNode)}
    (h : Answered codec rpc x method params handler) {obj : JsonObject}
    (hcall : (call codec rpc method params x).2.value = some obj) :
    ∃ answer, handler params = .ok answer ∧ obj = response rpc.nextID (.ok answer) := by
  obtain ⟨text, hread, hparse, hno⟩ := call_some hcall
  obtain ⟨handlers, hhandler, rfl⟩ := h text obj hread hparse
  simp only [dispatch, hhandler] at hno ⊢
  cases ha : handler params with
  | error e =>
    rw [ha] at hno
    simp [response, hasMember] at hno
  | ok answer => exact ⟨answer, rfl, rfl⟩

theorem unmarshalPath_sent (path : String) :
    unmarshalPath (some [("path", .string path)]) = path := by
  simp [unmarshalPath, getStringMember]

theorem listDirHandler_eq_ok {answer : Option JsonNode}
    (h : listDirHandler C w errorText (some s) [("path", .string path)] = .ok answer) :
    ∃ entries, (DirectoryHandlers.listDir C w path.toList s).result = .ok entries ∧
      answer = some (listJson entries) := by
  simp only [listDirHandler, unmarshalPath_sent] at h
  cases hr : (DirectoryHandlers.listDir C w path.toList s).result with
  | error e =>
    rw [hr] at h
    cases h
  | ok entries =>
    rw [hr] at h
    exact ⟨entries, rfl, (Except.ok.inj h).symm⟩

theorem statHandler_eq_ok {answer : Option JsonNode}
    (h : statHandler C w errorText (some s) [("path", .string path)] = .ok answer) :
    ∃ e, (statEntry C w path.toList s).result = .ok e ∧
      answer = some (rpcEntry e).json := by
  simp only [statHandler, unmarshalPath_sent] at h
  cases hr : (statEntry C w path.toList s).result with
  | error e =>
    rw [hr] at h
    cases h
  | ok e =>
    rw [hr] at h
    exact ⟨e, rfl, (Except.ok.inj h).symm⟩

/-- An enumeration that succeeds shows the entries of the handler, one info an entry. -/
theorem doEnumerate_spec
    (h : Answered codec rpc x "ListDir" [("path", .string path)]
      (listDirHandler C w errorText (some s))) {infos : List FileInfo}
    (henum : (doEnumerate codec types rpc x path).2.value = some infos) :
    ∃ entries, (DirectoryHandlers.listDir C w path.toList s).result = .ok entries ∧
      ((∀ e ∈ entries, NoNul e) →
        infos = entries.map fun e => fillFileInfo types (sameEntry e)) := by
  rcases hrun : RpcClient.listDir codec rpc x path with ⟨rpc', ⟨_ | read, err⟩⟩
  · simp only [doEnumerate, hrun] at henum
    cases henum
  · simp only [doEnumerate, hrun] at henum
    cases henum
    have hvalue : (RpcClient.listDir codec rpc x path).2.value = some read := by rw [hrun]
    obtain ⟨obj, hobj, rfl⟩ := Option.map_eq_some_iff.mp hvalue
    obtain ⟨answer, hanswer, rfl⟩ := call_answered h hobj
    obtain ⟨entries, hentries, rfl⟩ := listDirHandler_eq_ok hanswer
    refine ⟨entries, hentries, fun hnul => ?_⟩
    have harray : getArrayMember (getObjectMember
        (some (response rpc.nextID (.ok (some (listJson entries))))) "result") "entries" =
          some (entries.map fun e => (rpcEntry e).json) := by
      rw [listJson, getObjectMember_response]
      rfl
    dsimp only
    rw [harray, Option.getD_some, List.map_map, List.map_map]
    refine List.map_congr_left fun e he => ?_
    exact congrArg (fillFileInfo types) (readEntry_same (hnul e he))

/-- A query that succeeds tells the entry of the handler, and adds no more than a thumbnail. -/
theorem doQueryInfo_spec
    (h : Answered codec rpc x "Stat" [("path", .string path)]
      (statHandler C w errorText (some s))) {wantsThumbnail : Bool} {info : FileInfo}
    (hquery : (doQueryInfo codec types rpc x y path wantsThumbnail).2.value = some info) :
    ∃ e, (statEntry C w path.toList s).result = .ok e ∧
      (NoNul e → info.withoutThumbnail = fillFileInfo types (sameEntry e)) := by
  rcases hrun : RpcClient.stat codec rpc x path with ⟨rpc', ⟨_ | read, err⟩⟩
  · simp only [doQueryInfo, hrun] at hquery
    cases hquery
  · have hinfo : info.withoutThumbnail = fillFileInfo types read := by
      simp only [doQueryInfo, hrun] at hquery
      cases ht : thumbnailOf read wantsThumbnail with
      | none =>
        rw [ht] at hquery
        cases hquery
        rfl
      | some ids =>
        rw [ht] at hquery
        dsimp only at hquery
        rcases hfetch : fetchThumbnail codec rpc' y ids.1 ids.2 with ⟨rpc'', _ | thumb⟩ <;>
          rw [hfetch] at hquery <;> cases hquery <;> rfl
    have hvalue : (RpcClient.stat codec rpc x path).2.value = some read := by rw [hrun]
    obtain ⟨obj, hobj, rfl⟩ := Option.map_eq_some_iff.mp hvalue
    obtain ⟨answer, hanswer, rfl⟩ := call_answered h hobj
    obtain ⟨e, he, rfl⟩ := statHandler_eq_ok hanswer
    refine ⟨e, he, fun hnul => hinfo.trans (congrArg (fillFileInfo types) ?_)⟩
    exact (congrArg readEntry (getObjectMember_response rpc.nextID _)).trans (readEntry_same hnul)

end Exchanges

section Agreement

variable {KR : Type} {codec : Codec} {types : ContentTypes} {C : Crypto KR} {t : Tree} {w : World}
  {errorText : GoError → String} {s : Session KR} {links : List Link} {kr : KR} {n : Path}
  {l l' : Link}

/-- The names and the ids of the children are text without NUL. -/
def TextNames (C : Crypto KR) (t : Tree) : Prop :=
  ∀ d ls l kr n, t.children d = some ls → l ∈ ls → C.getName l kr = some n →
    NoNul (linkToEntry l n)

/-- What is shown for a link of this name. -/
def shown (types : ContentTypes) (l : Link) (n : Path) : FileInfo :=
  fillFileInfo types (sameEntry (linkToEntry l n))

/-- The attributes tell two children of a folder apart. -/
theorem shown_eq_iff (hls : ∃ id, t.children id = some links) (hl : l ∈ links) (hl' : l' ∈ links) :
    shown types l n = shown types l' n ↔ l = l' := by
  constructor
  · intro h
    obtain ⟨id, hls⟩ := hls
    have hid : some l.linkID = some l'.linkID := congrArg FileInfo.idFile h
    exact t.link_unique hls hl hls hl' (Option.some.inj hid)
  · rintro rfl
    rfl

theorem listDir_listing (hw : w.Serves t.toServer) (h : Mirrors C t s) {d : Path}
    {entries : List Entry} (hlist : (DirectoryHandlers.listDir C w d s).result = .ok entries) :
    ∃ links kr, t.listOf C d = some (links, kr) ∧ entries = listDirEntries C kr links := by
  have hspec := listChildren_spec hw h d
  simp only [DirectoryHandlers.listDir] at hlist
  rcases hrun : s.listChildren C w d with ⟨e | ⟨links, kr⟩, s'⟩
  · rw [hrun] at hlist
    cases hlist
  · rw [hrun] at hspec hlist
    exact ⟨links, kr, hspec.2.1, (Except.ok.inj hlist).symm⟩

theorem statEntry_child (hw : w.Serves t.toServer) (h : Mirrors C t s) {d : Path}
    (hd : IsAbsolute d) (hn : IsComponent n) (hlist : t.listOf C d = some (links, kr)) {e : Entry}
    (hstat : (statEntry C w (child d n) s).result = .ok e) :
    ∃ l, findChild C kr n links = some l ∧ e = linkToEntry l n := by
  have hspec := stat_spec hw h (child d n)
  rw [statOf_child hd hn hlist] at hspec
  simp only [statEntry] at hstat
  rcases hrun : s.stat C w (child d n) with ⟨e' | r, s'⟩
  · rw [hrun] at hstat
    cases hstat
  · rw [hrun] at hspec hstat
    obtain ⟨l, hl, rfl⟩ := Option.map_eq_some_iff.mp hspec.2.1
    refine ⟨l, hl, ?_⟩
    dsimp only at hstat
    rw [(findChild_some hl).2] at hstat
    exact (Except.ok.inj hstat).symm

theorem shown_mem (hl : l ∈ links) (hs : l.state = .active) (hn : C.getName l kr = some n) :
    shown types l n ∈ (listDirEntries C kr links).map fun e => fillFileInfo types (sameEntry e) :=
  List.mem_map_of_mem (mem_listDirEntries.mpr ⟨l, hl, hs, n, hn, rfl⟩)

theorem map_listDirEntries :
    (listDirEntries C kr links).map (fun e => fillFileInfo types (sameEntry e)) =
      (links.filter (·.state = .active)).filterMap
        (fun l => (C.getName l kr).map (shown types l)) := by
  simp only [listDirEntries, List.map_filterMap, List.filterMap_filter]
  refine List.filterMap_congr fun l _ => ?_
  by_cases hs : l.state = .active
  · simp only [hs, not_true_eq_false, ne_eq, if_false, decide_true, if_true, Option.map_map]
    rfl
  · simp [hs]

/-- An enumeration of a folder and a query of one of its files, at any two moments of any two
helpers of one drive that does not change: the enumeration shows the active children that have a
name, and the query tells the same of such a child, thumbnail aside, exactly when no link before
it in the listing has its name, be it in the trash. The name of the child must be one component of
a path, and no name or id may be cut at a NUL. -/
theorem query_agrees_iff (hn : IsComponent n) (htext : TextNames C t)
    {blocks blocks' : Option BlockCache.Cache}
    {before before' : List (World × DriveSession.Call)}
    (hbefore : ∀ c ∈ before, c.1.Serves t.toServer)
    (hbefore' : ∀ c ∈ before', c.1.Serves t.toServer)
    {w' : World} (hw : w.Serves t.toServer) (hw' : w'.Serves t.toServer) {d file : String}
    (hd : IsAbsolute d.toList) (hfile : file.toList = child d.toList n)
    {rpc rpc' : ProtonRpc} {x y thumbnail : Exchange} {wantsThumbnail : Bool}
    (hlist : Answered codec rpc x "ListDir" [("path", .string d)]
      (listDirHandler C w errorText (some (runCalls C (newSession t.rootID blocks) before))))
    (hstat : Answered codec rpc' y "Stat" [("path", .string file)]
      (statHandler C w' errorText (some (runCalls C (newSession t.rootID blocks') before'))))
    {infos : List FileInfo} (henum : (doEnumerate codec types rpc x d).2.value = some infos)
    {info : FileInfo}
    (hquery : (doQueryInfo codec types rpc' y thumbnail file wantsThumbnail).2.value = some info) :
    ∃ links kr, t.listOf C d.toList = some (links, kr) ∧
      infos = (links.filter (·.state = .active)).filterMap
        (fun l => (C.getName l kr).map (shown types l)) ∧
      ∀ l ∈ links, l.state = .active → C.getName l kr = some n →
        shown types l n ∈ infos ∧
          (info.withoutThumbnail = shown types l n ↔ findChild C kr n links = some l) := by
  have hm := runCalls_mirrors before hbefore (mirrors_newSession (C := C) blocks)
  have hm' := runCalls_mirrors before' hbefore' (mirrors_newSession (C := C) blocks')
  obtain ⟨entries, hentries, hshown⟩ := doEnumerate_spec hlist henum
  obtain ⟨links, kr, hlinks, rfl⟩ := listDir_listing hw hm hentries
  obtain ⟨e, he, hinfo⟩ := doQueryInfo_spec hstat hquery
  rw [hfile] at he
  obtain ⟨id, hls⟩ : ∃ id, t.children id = some links := by
    obtain ⟨node, -, hnode⟩ := Option.bind_eq_some_iff.mp hlinks
    obtain ⟨ls, hls, heq⟩ := Option.map_eq_some_iff.mp hnode
    cases heq
    exact ⟨node.1, hls⟩
  obtain rfl := hshown fun e he => by
    obtain ⟨l, hl, -, m, hm, rfl⟩ := mem_listDirEntries.mp he
    exact htext _ _ _ _ _ hls hl hm
  refine ⟨links, kr, hlinks, map_listDirEntries, ?_⟩
  intro l hl hs hname
  refine ⟨shown_mem hl hs hname, ?_⟩
  obtain ⟨first, hfirst, rfl⟩ := statEntry_child hw' hm' hd hn hlinks he
  obtain ⟨hmem, hfound⟩ := findChild_some hfirst
  rw [hinfo (htext _ _ _ _ _ hls hmem hfound), hfirst, Option.some_inj]
  exact shown_eq_iff ⟨id, hls⟩ hmem hl

/-- Every file is a stream of bytes with no icon. -/
def octetStreams : ContentTypes where
  guess _ := some "application/octet-stream"
  getIcon _ := none
  getSymbolicIcon _ := none

/-- The two responses of a helper whose drive has two files "/a", the first of them in the trash. -/
def namesakeReplies : Codec :=
  let session : Option (Session Unit) := some (newSession "root" none)
  let w := World.steady namesakeTree.toServer
  base64Codec fun text => .ok (
    if text = "ListDir" then response 1 (listDirHandler Crypto.plain w (fun _ => "")
      session [("path", .string "/")])
    else response 2 (statHandler Crypto.plain w (fun _ => "") session [("path", .string "/a")]))

/-- The request is written, and this line is read. -/
def replying (text : String) : Exchange := ⟨none, .rejected, .line text, none⟩

theorem textNames_namesakeTree : TextNames Crypto.plain namesakeTree := by
  intro d ls l kr n hls hl hn
  have hnames : ∀ l ∈ namesakes, ∀ n, Crypto.plain.getName l () = some n →
      NoNul (linkToEntry l n) := by
    intro l hl n hn
    simp only [namesakes, List.mem_cons, List.not_mem_nil, or_false] at hl
    rcases hl with rfl | rfl <;> cases hn <;> constructor <;> decide
  simp only [namesakeTree, flatTree] at hls
  split_ifs at hls
  cases hls
  exact hnames l hl n hn

/-- The enumeration shows the active file, and the query tells of the one in the trash. -/
theorem query_agrees_iff_namesakes : ∃ infos info,
    (doEnumerate namesakeReplies octetStreams ⟨true, 1, []⟩ (replying "ListDir") "/").2.value =
      some infos ∧
    (doQueryInfo namesakeReplies octetStreams ⟨true, 2, []⟩ (replying "Stat") (replying "") "/a"
      false).2.value = some info ∧
    shown octetStreams aFile "a".toList ∈ infos ∧
      info.withoutThumbnail ≠ shown octetStreams aFile "a".toList := by
  obtain ⟨infos, henum⟩ : ∃ infos, (doEnumerate namesakeReplies octetStreams ⟨true, 1, []⟩
      (replying "ListDir") "/").2.value = some infos := Option.isSome_iff_exists.mp rfl
  obtain ⟨info, hquery⟩ : ∃ info, (doQueryInfo namesakeReplies octetStreams ⟨true, 2, []⟩
      (replying "Stat") (replying "") "/a" false).2.value = some info :=
    Option.isSome_iff_exists.mp rfl
  have hserves : (World.steady namesakeTree.toServer).Serves namesakeTree.toServer := fun _ => rfl
  have hcalls : ∀ c ∈ ([] : List (World × DriveSession.Call)),
      c.1.Serves namesakeTree.toServer := by simp
  have hlist : Answered namesakeReplies ⟨true, 1, []⟩ (replying "ListDir") "ListDir"
      [("path", .string "/")] (listDirHandler Crypto.plain
        (World.steady namesakeTree.toServer) (fun _ => "") (some (newSession "root" none))) := by
    rintro text obj ⟨⟩ ⟨⟩
    exact ⟨fun _ => some _, rfl, rfl⟩
  have hstat : Answered namesakeReplies ⟨true, 2, []⟩ (replying "Stat") "Stat"
      [("path", .string "/a")] (statHandler Crypto.plain
        (World.steady namesakeTree.toServer) (fun _ => "") (some (newSession "root" none))) := by
    rintro text obj ⟨⟩ ⟨⟩
    exact ⟨fun _ => some _, rfl, rfl⟩
  have hroot : IsAbsolute "/".toList := isAbsolute_root
  have hfile : "/a".toList = child "/".toList "a".toList := by decide
  have hname : IsComponent "a".toList := by decide
  obtain ⟨links, kr, hlinks, -, h⟩ := query_agrees_iff hname textNames_namesakeTree hcalls hcalls
    hserves hserves hroot hfile hlist hstat henum hquery
  have hlist : namesakeTree.listOf Crypto.plain "/".toList = some (namesakes, ()) := by
    rw [Tree.listOf, show "/".toList = ['/'] from rfl, namesakeTree_root]
    rfl
  cases hlinks.symm.trans hlist
  obtain ⟨hmem, hiff⟩ := h aFile (by decide) rfl rfl
  exact ⟨infos, info, henum, hquery, hmem, fun heq => absurd (hiff.mp heq) (by decide)⟩

end Agreement

end ProtonDrive.FileInfos
