import ProtonDrive.DirectoryHandlers
import ProtonDrive.ReadHandles
import ProtonDrive.RemoteTree

/-!
# The class of an error, from the session to the client

A failed request carries the error of a session method. The handlers of `main.go` give some of
these errors a code and leave the rest to `dispatch`, which calls them internal; the client maps
the code again. Stated here is which requests keep the class of an offline error and of a
missing path component, and what is left when the network is unreachable.
-/

namespace ProtonDrive.ErrorClasses
open SlashPaths KeyedMaps FallibleSteps DriveApi DriveSession FileReads DirectoryHandlers
  RpcClient RpcConnections ReadHandles

variable {KR : Type}

section Requests

inductive DriveRequest
  | listDir (path : Path)
  | stat (path : Path)
  | readFile (path : Path) (offset length : ℤ)
  | mkdir (path : Path)
  | delete (path : Path) (trash : Bool)
  deriving DecidableEq, Repr

/-- The path a request begins by looking up with `Stat`, where a failure is coded as not found. -/
def DriveRequest.lookup : DriveRequest → Option Path
  | .stat p | .readFile p _ _ => some p
  | .listDir _ | .mkdir _ | .delete _ _ => none

/-- Go's texts of errors. -/
structure ErrorTexts where
  read : GoError → String
  write : WriteError → String

/-- The error the `Mkdir` handler returns, in the form `dispatch` sends it. -/
def mkdirRPCError (texts : ErrorTexts) : WriteError → RPCError
  | .alreadyExists => ⟨-32006, texts.write .alreadyExists⟩
  | e => ⟨-32603, texts.write e⟩

/-- The `Delete` handler returns the session's error as it is. -/
def deleteRPCError (texts : ErrorTexts) (e : WriteError) : RPCError := ⟨-32603, texts.write e⟩

/-- The session's error behind the error of a handler. -/
def handlerCause : HandlerError → Option GoError
  | .notFound e | .internal e => some e
  | .offline _ => some .offline
  | .invalidArg _ => none

def writeCause : WriteError → Option GoError
  | .read e => some e
  | .api e => some (.api e)
  | .keyringNotCached _ | .crypto | .alreadyExists => none

/-- A failed request: the session's error behind it and what is sent to the client. -/
structure Failure where
  cause : Option GoError
  error : RPCError
  deriving DecidableEq, Repr

def failureOf {ε σ α : Type} (cause : ε → Option GoError) (toRPC : ε → RPCError)
    (o : Outcome ε σ α) : Option Failure :=
  match o.result with
  | .ok _ => none
  | .error e => some ⟨cause e, toRPC e⟩

/-- How a request fails in a session that is logged in, if it does. -/
def failure (texts : ErrorTexts) (C : Crypto KR) (sealFolder : Link → KR → Path → Option String)
    (w : World) (s : Session KR) : DriveRequest → Option Failure
  | .listDir p => failureOf handlerCause (toRPCError texts.read) (DirectoryHandlers.listDir C w p s)
  | .stat p => failureOf handlerCause (toRPCError texts.read) (statEntry C w p s)
  | .readFile p offset length =>
    failureOf handlerCause (toRPCError texts.read) (FileReads.readFile C w p offset length s)
  | .mkdir p => failureOf writeCause (mkdirRPCError texts) (makeDir C sealFolder w s p)
  | .delete p trash =>
    failureOf writeCause (deleteRPCError texts) (DirectoryHandlers.delete C w s p trash)

/-- The error of a call that failed offline, or `ErrOffline` in its place. -/
def wentOffline : GoError → Bool
  | .offline => true
  | e => isOfflineError e

theorem wentOffline_eq {e : GoError} (h : e ≠ .offline) : wentOffline e = isOfflineError e := by
  cases e with
  | offline => exact absurd rfl h
  | api a | crypto | notFound p | nilDereference => rfl

/-- An API call failed with an offline error and no cached data could serve the request. -/
def Failure.Offline (f : Failure) : Prop := ∃ e, f.cause = some e ∧ wentOffline e = true

/-- A component of the path, or of the parent's path, is absent from its listing. -/
def Failure.Missing (f : Failure) : Prop := ∃ p, f.cause = some (.notFound p)

/-- The code of the response and the error the client makes of it. -/
def Failure.Reports (f : Failure) (code : ℤ) (gio : GIOErrorEnum) : Prop :=
  f.error.code = code ∧
    ∀ id, (readResponse (response id (.error f.error))).error = some ⟨.io gio, f.error.message⟩

theorem readResponse_error (id : ℤ) (e : RPCError) :
    (readResponse (response id (.error e))).error = some ⟨.io (gioCode e.code), e.message⟩ := by
  simp [readResponse, response, JsonNodes.hasMember, JsonNodes.getObjectMember,
    JsonNodes.getIntMember, JsonNodes.getStringMember, setErrorLiteral]

theorem Failure.reports_iff {f : Failure} {code : ℤ} :
    f.Reports code (gioCode code) ↔ f.error.code = code := by
  constructor
  · exact fun h => h.1
  · rintro rfl
    exact ⟨rfl, fun id => readResponse_error id f.error⟩

end Requests

section Calls

variable {C : Crypto KR} {w : World} {s s' : Session KR} {α β : Type}

/-- An operation that fails offline has an API call that does. -/
def OfflineCalls (w : World) (o : Step KR α) : Prop :=
  o.Sat (fun _ _ => True) fun e _ => wentOffline e = true → ∃ n, w.fails n = some .net

theorem OfflineCalls.andThen {o : Step KR α} {f : α → Session KR → Step KR β}
    (h : OfflineCalls w o) (hf : ∀ a s, OfflineCalls w (f a s)) : OfflineCalls w (o.andThen f) :=
  Outcome.Sat.andThen h fun a s _ => hf a s

theorem OfflineCalls.recover {o : Step KR α} {g : GoError → Session KR → Step KR α}
    (h : OfflineCalls w o) (hg : ∀ e s, (wentOffline e = true → ∃ n, w.fails n = some .net) →
      OfflineCalls w (g e s)) : OfflineCalls w (o.recover g) :=
  Outcome.Sat.recover h hg

theorem callAPI_error (s : Session KR) (answer : Server → Option α) :
    (s.callAPI w answer).Sat (fun _ _ => True)
      (fun e _ => ∃ a, e = .api a ∧ (a = .net → w.fails s.ticks = some .net)) := by
  simp only [Session.callAPI]
  cases w.fails s.ticks with
  | some a => exact ⟨a, rfl, fun ha => by rw [ha]⟩
  | none =>
    cases answer (w.server s.ticks) with
    | none => exact ⟨.notExist, rfl, fun ha => by cases ha⟩
    | some a => exact trivial

theorem callAPI_offlineCalls (s : Session KR) (answer : Server → Option α) :
    OfflineCalls w (s.callAPI w answer) := by
  refine (callAPI_error s answer).mono (fun _ _ _ => trivial) ?_
  rintro _ _ ⟨a, rfl, hcall⟩ he
  cases a with
  | net => exact ⟨s.ticks, hcall rfl⟩
  | rejected code => cases he
  | notExist => cases he

theorem shareKeyRing_offlineCalls (s : Session KR) : OfflineCalls w (s.shareKeyRing C w) := by
  simp only [Session.shareKeyRing]
  cases s.shareKR with
  | some kr => exact trivial
  | none =>
    apply (callAPI_offlineCalls s _).andThen
    intro share s₁
    cases C.shareKeyRing share with
    | none => exact fun he => by cases he
    | some kr => exact trivial

theorem rootNodeKeyRing_offlineCalls (s : Session KR) :
    OfflineCalls w (s.rootNodeKeyRing C w) := by
  simp only [Session.rootNodeKeyRing]
  cases s.nodeKRs.lookup s.rootID with
  | some kr => exact trivial
  | none =>
    apply (shareKeyRing_offlineCalls s).andThen
    intro shareKR s₁
    apply (callAPI_offlineCalls s₁ _).andThen
    intro rootLink s₂
    cases C.getKeyRing rootLink shareKR with
    | none => exact fun he => by cases he
    | some kr => exact trivial

theorem walkParts_offlineCalls (p : Path) (parts : List Path) (id : LinkID) (kr : KR) (q : Path)
    (s : Session KR) : OfflineCalls w (Session.walkParts C w p parts id kr q s) := by
  induction parts generalizing id kr q s with
  | nil => exact trivial
  | cons part parts ih =>
    simp only [Session.walkParts]
    apply (callAPI_offlineCalls s _).andThen
    intro children s₁
    cases findChild C kr part children with
    | none => exact fun he => by cases he
    | some child =>
      cases hk : C.getKeyRing child kr with
      | none =>
        simp only [hk]
        exact fun he => by cases he
      | some childKR =>
        simp only [hk]
        exact ih ..

theorem resolvePath_offlineCalls (s : Session KR) (p : Path) :
    OfflineCalls w (s.resolvePath C w p) := by
  simp only [Session.resolvePath]
  cases s.resolved (absolute p) with
  | some n => exact trivial
  | none => exact (rootNodeKeyRing_offlineCalls _).andThen fun kr s₁ => walkParts_offlineCalls ..

theorem listChildren_offlineCalls (s : Session KR) (p : Path) :
    OfflineCalls w (s.listChildren C w p) := by
  simp only [Session.listChildren]
  cases s.metaCache.getList (w.now s.ticks) p with
  | some r => exact trivial
  | none =>
    apply OfflineCalls.recover
    · apply (resolvePath_offlineCalls s.tick p).andThen
      intro node s₁
      exact (callAPI_offlineCalls s₁ _).andThen fun links s₂ => trivial
    · intro e s₁ he
      simp only [Session.staleList]
      split
      · exact trivial
      · exact he

theorem stat_offlineCalls (s : Session KR) (p : Path) : OfflineCalls w (s.stat C w p) := by
  simp only [Session.stat]
  cases s.metaCache.getStat (w.now s.ticks) (absolute p) with
  | some r => exact trivial
  | none =>
    apply OfflineCalls.recover
    · refine OfflineCalls.andThen ?_ fun r s₁ => trivial
      simp only [Session.statUncached, Session.parentKRFor]
      split_ifs
      · apply (callAPI_offlineCalls _ _).andThen
        intro link s₁
        exact (rootNodeKeyRing_offlineCalls s₁).andThen fun kr s₂ => trivial
      · refine OfflineCalls.andThen ((resolvePath_offlineCalls _ _).andThen fun _ _ => trivial) ?_
        intro parentKR s₁
        apply (listChildren_offlineCalls s₁ _).andThen
        intro r s₂
        cases findChild C parentKR (base (absolute p)) r.1 with
        | none => exact fun he => by cases he
        | some l => exact trivial
    · intro e s₁ he
      simp only [Session.staleStat]
      split
      · exact trivial
      · exact he

theorem readCached_offline (linkID : LinkID) (revID : RevisionID) (n : ℕ) (idx : ℤ) (buf : Bytes)
    (s : Session KR) :
    (readCached w linkID revID n idx buf s).Sat (fun _ _ => True) (fun e _ => e = .offline) := by
  induction n generalizing idx buf s with
  | zero => exact trivial
  | succ n ih =>
    simp only [readCached]
    rcases cachedBlock w linkID revID idx s with ⟨_ | data, s₁⟩
    · exact rfl
    · exact ih ..

/-- How reading content fails: never with the error of an offline call, but with `ErrOffline`,
and for no missing path. -/
structure ContentError (w : World) (e : GoError) : Prop where
  coded : isOfflineError e = false
  call : e = .offline → ∃ n, w.fails n = some .net
  present : ∀ p, e ≠ .notFound p

theorem contentError_crypto : ContentError w .crypto := ⟨rfl, by simp, by simp⟩

theorem contentError_offline {n : ℕ} (h : w.fails n = some .net) : ContentError w .offline :=
  ⟨rfl, fun _ => ⟨n, h⟩, by simp⟩

theorem contentError_api {a : ApiError} (h : a ≠ .net) : ContentError w (.api a) := by
  refine ⟨?_, by simp, by simp⟩
  cases a with
  | net => exact absurd rfl h
  | rejected code => rfl
  | notExist => rfl

theorem readBlocks_error (sessionKey : SessionKey) (linkID : LinkID) (revID : RevisionID)
    (blocks : List Block) (buf : Bytes) (s : Session KR) :
    (readBlocks C w sessionKey linkID revID blocks buf s).Sat (fun _ _ => True)
      (fun e _ => ContentError w e) := by
  induction blocks generalizing buf s with
  | nil => exact trivial
  | cons b blocks ih =>
    simp only [readBlocks]
    rcases cachedBlock w linkID revID (b.index - 1) s with ⟨_ | data, s₁⟩
    · refine Outcome.Sat.andThen (Outcome.Sat.recover (callAPI_error s₁ _) ?_) ?_
      · rintro _ s₂ ⟨a, rfl, hcall⟩
        cases a with
        | net => exact contentError_offline (hcall rfl)
        | rejected code => exact contentError_api (by simp)
        | notExist => exact contentError_api (by simp)
      · intro enc s₂ _
        cases C.decrypt sessionKey enc with
        | none => exact contentError_crypto
        | some plain => exact ih ..
    · exact ih ..

theorem readFileContent_error (link : Link) (parentKR : KR) (offset length : ℤ)
    (s : Session KR) :
    (readFileContent C w link parentKR offset length s).Sat (fun _ _ => True)
      (fun e _ => ContentError w e) := by
  rcases readFileContent_cases C w link parentKR offset length s with ⟨e, he, h⟩ |
    ⟨props, nodeKR, sessionKey, -, -, -, ⟨rev, -, -, h⟩ | ⟨hnet, h⟩ | ⟨a, ha, h⟩⟩
  · rw [h]
    rcases he with rfl | rfl
    · exact ⟨rfl, by simp, by simp⟩
    · exact contentError_crypto
  · rw [h]
    exact (readBlocks_error ..).andThen fun _ _ _ => trivial
  · rw [h, readFromCache]
    cases s.tick.blocks with
    | none => exact contentError_offline hnet
    | some bc =>
      refine Outcome.Sat.andThen ((readCached_offline ..).mono (fun _ _ h => h) ?_)
        fun _ _ _ => trivial
      rintro e s₂ rfl
      exact contentError_offline hnet
  · rw [h]
    exact contentError_api ha

end Calls

section Unreachable

variable {C : Crypto KR} {w : World} {s s' : Session KR}

/-- Where a session finds a path without any call: registered, or the root with its keyring. -/
def offlineNode (s : Session KR) (p : Path) : Option (LinkID × KR) :=
  (s.resolved (absolute p)).or
    (if absolute p = ['/'] then (s.nodeKRs.lookup s.rootID).map fun kr => (s.rootID, kr) else none)

/-- The cache answers a stat without network: by a fresh entry, else by the cached listing of a
parent that needs no walk, else, if there is no such listing, by an expired entry. -/
def ServedOffline (C : Crypto KR) (s : Session KR) (now : ℤ) (p : Path) : Prop :=
  (s.metaCache.getStat now p).isSome ∨
    match (if p = ['/'] then none else offlineNode s (dir p)).bind fun n =>
        (s.metaCache.getListStale (dir p)).map fun r => findChild C n.2 (base p) r.1 with
    | some child => child.isSome
    | none => (s.metaCache.getStatStale p).isSome

theorem callAPI_unreachable (hu : w.Unreachable) {α : Type} (s : Session KR)
    (answer : Server → Option α) : s.callAPI w answer = ⟨.error (.api .net), s.tick⟩ := by
  simp only [Session.callAPI, hu s.ticks]

theorem rootNodeKeyRing_unreachable (hu : w.Unreachable) (s : Session KR) :
    ∃ s', s.rootNodeKeyRing C w = ⟨match s.nodeKRs.lookup s.rootID with
      | some kr => .ok kr
      | none => .error (.api .net), s'⟩ ∧ s'.metaCache = s.metaCache ∧ s'.rootID = s.rootID := by
  simp only [Session.rootNodeKeyRing]
  cases s.nodeKRs.lookup s.rootID with
  | some kr => exact ⟨s, rfl, rfl, rfl⟩
  | none =>
    simp only [Session.shareKeyRing]
    cases s.shareKR with
    | some kr => exact ⟨s.tick, by rw [Outcome.andThen_ok, callAPI_unreachable hu]; rfl, rfl, rfl⟩
    | none => exact ⟨s.tick, by rw [callAPI_unreachable hu]; rfl, rfl, rfl⟩

theorem resolvePath_unreachable (hu : w.Unreachable) (s : Session KR) (p : Path) :
    ∃ s', s.resolvePath C w p = ⟨match offlineNode s p with
      | some n => .ok n
      | none => .error (.api .net), s'⟩ ∧ s'.metaCache = s.metaCache := by
  simp only [Session.resolvePath, offlineNode]
  cases s.resolved (absolute p) with
  | some n => exact ⟨s, rfl, rfl⟩
  | none =>
    rw [Option.none_or]
    obtain ⟨s₁, hrun, hm, hid⟩ :=
      rootNodeKeyRing_unreachable (C := C) hu (s.setLinkPath s.rootID ['/'])
    have hk : (s.setLinkPath s.rootID ['/']).nodeKRs.lookup
        (s.setLinkPath s.rootID ['/']).rootID = s.nodeKRs.lookup s.rootID := rfl
    rw [hk] at hrun
    rw [hrun]
    cases s.nodeKRs.lookup s.rootID with
    | none => exact ⟨s₁, by simp, hm⟩
    | some kr =>
      rw [Outcome.andThen_ok]
      split_ifs with hroot
      · rw [hroot]
        refine ⟨s₁.setPathLink ['/'] s₁.rootID, ?_, hm⟩
        simp only [Option.map_some]
        rw [show s.rootID = s₁.rootID from hid.symm]
        rfl
      · have hparts : ∃ part parts, splitPath (absolute p) = part :: parts := by
          apply List.exists_cons_of_ne_nil
          intro hnil
          rw [splitPath_eq, elements_absolute] at hnil
          apply hroot
          rw [absolute_eq_render, hnil]
          rfl
        obtain ⟨part, parts, hsp⟩ := hparts
        refine ⟨(s₁.setPathLink ['/'] s₁.rootID).tick, ?_, hm⟩
        rw [hsp]
        simp only [Session.walkParts]
        rw [callAPI_unreachable hu]
        rfl

theorem listChildren_unreachable (hu : w.Unreachable) (s : Session KR) (p : Path) :
    ∃ s', s.listChildren C w p = ⟨match s.metaCache.getListStale p with
      | some r => .ok r
      | none => .error (.api .net), s'⟩ ∧ s'.metaCache = s.metaCache := by
  simp only [Session.listChildren]
  cases hl : s.metaCache.getList (w.now s.ticks) p with
  | some r =>
    rw [MetaCache.Cache.getList_stale hl]
    exact ⟨s.tick, rfl, rfl⟩
  | none =>
    have hstale : ∀ s₁ : Session KR, s₁.metaCache = s.metaCache →
        Session.staleList p (.api .net) s₁ = ⟨match s.metaCache.getListStale p with
          | some r => .ok r
          | none => .error (.api .net), s₁⟩ := by
      intro s₁ hm
      simp only [Session.staleList, hm]
      cases s.metaCache.getListStale p <;> rfl
    obtain ⟨s₁, hrun, hm⟩ := resolvePath_unreachable (C := C) hu s.tick p
    rw [hrun]
    cases offlineNode s.tick p with
    | none => exact ⟨s₁, hstale s₁ hm, hm⟩
    | some n =>
      refine ⟨s₁.tick, ?_, hm⟩
      simp only [Outcome.andThen_ok]
      rw [callAPI_unreachable hu]
      exact hstale s₁.tick hm

/-- Without network a stat is answered exactly when the cache serves it. -/
theorem stat_unreachable (hu : w.Unreachable) (s : Session KR) (p : Path) :
    (∃ r, (s.stat C w p).result = .ok r) ↔ ServedOffline C s (w.now s.ticks) (absolute p) := by
  simp only [Session.stat, ServedOffline]
  cases s.metaCache.getStat (w.now s.ticks) (absolute p) with
  | some r => simp
  | none =>
    have hstale : ∀ s₁ : Session KR, s₁.metaCache = s.metaCache →
        ((∃ r, (Session.staleStat (absolute p) (.api .net) s₁).result = .ok r) ↔
          (s.metaCache.getStatStale (absolute p)).isSome) := by
      intro s₁ hm
      simp only [Session.staleStat, hm]
      cases s.metaCache.getStatStale (absolute p) <;> simp [isOfflineError]
    simp only [Option.isSome_none, Bool.false_eq_true, false_or, Session.statUncached]
    split_ifs with hroot
    · rw [callAPI_unreachable hu]
      exact hstale s.tick.tick rfl
    · simp only [Session.parentKRFor, absolute_absolute]
      obtain ⟨s₁, hrun, hm⟩ := resolvePath_unreachable (C := C) hu s.tick (dir (absolute p))
      have hnode : offlineNode s.tick (dir (absolute p)) = offlineNode s (dir (absolute p)) := rfl
      rw [hrun, hnode]
      cases offlineNode s (dir (absolute p)) with
      | none => exact hstale s₁ hm
      | some n =>
        simp only [Outcome.andThen_ok, Option.bind_some]
        obtain ⟨s₂, hrun₂, hm₂⟩ := listChildren_unreachable (C := C) hu s₁ (dir (absolute p))
        have hm₁ : s₁.metaCache = s.metaCache := hm
        rw [hrun₂, hm₁]
        cases s.metaCache.getListStale (dir (absolute p)) with
        | none => exact hstale s₂ (hm₂.trans hm₁)
        | some r =>
          simp only [Outcome.andThen_ok, Option.map_some]
          cases findChild C n.2 (base (absolute p)) r.1 with
          | some l => simp
          | none => simp [Session.staleStat, isOfflineError]

end Unreachable

section Classes

variable {texts : ErrorTexts} {C : Crypto KR} {sealFolder : Link → KR → Path → Option String}
  {w : World} {s : Session KR} {req : DriveRequest} {f : Failure}

/-- The stat of a path is answered, from the cache or from the server. -/
def StatAnswered (C : Crypto KR) (w : World) (s : Session KR) (p : Path) : Prop :=
  ∃ r, (s.stat C w p).result = .ok r

theorem failureOf_eq_some {ε σ α : Type} {cause : ε → Option GoError} {toRPC : ε → RPCError}
    {o : Outcome ε σ α} (h : failureOf cause toRPC o = some f) :
    ∃ e, o.result = .error e ∧ f = ⟨cause e, toRPC e⟩ := by
  rcases o with ⟨e | a, s'⟩
  · exact ⟨e, rfl, (Option.some.inj h).symm⟩
  · cases h

theorem not_statAnswered {p : Path} {e : GoError} (h : (s.stat C w p).result = .error e) :
    ¬ StatAnswered C w s p := by
  rintro ⟨r, hr⟩
  rw [h] at hr
  cases hr

/-- A failed listing is an internal error. -/
theorem listDir_failure {p : Path}
    (h : failure texts C sealFolder w s (.listDir p) = some f) :
    ∃ e, (s.listChildren C w p).result = .error e ∧ f.cause = some e ∧ f.error.code = -32603 := by
  obtain ⟨e, he, rfl⟩ := failureOf_eq_some h
  rw [DirectoryHandlers.listDir] at he
  rcases hrun : s.listChildren C w p with ⟨g | r, s₁⟩
  · rw [hrun] at he
    cases he
    exact ⟨g, rfl, rfl, rfl⟩
  · rw [hrun] at he
    cases he

/-- A failed lookup is reported as not found. -/
theorem stat_failure {p : Path} (h : failure texts C sealFolder w s (.stat p) = some f) :
    ∃ e, (s.stat C w p).result = .error e ∧ f.cause = some e ∧ f.error.code = -32001 := by
  obtain ⟨e, he, rfl⟩ := failureOf_eq_some h
  rw [statEntry] at he
  rcases hrun : s.stat C w p with ⟨g | r, s₁⟩
  · rw [hrun] at he
    cases he
    exact ⟨g, rfl, rfl, rfl⟩
  · rw [hrun] at he
    cases he

/-- A read fails in its lookup, for what the path is, or in reading the content. -/
theorem readFile_failure {p : Path} {offset length : ℤ}
    (h : failure texts C sealFolder w s (.readFile p offset length) = some f) :
    (∃ e, (s.stat C w p).result = .error e ∧ f.cause = some e ∧ f.error.code = -32001) ∨
    (StatAnswered C w s p ∧ ((f.cause = none ∧ f.error.code = -32602) ∨
      ∃ e, ContentError w e ∧ f.cause = some e ∧
        ((e = .offline ∧ f.error.code = -32005) ∨
          (e ≠ .offline ∧ f.error.code = -32603)))) := by
  obtain ⟨e, he, rfl⟩ := failureOf_eq_some h
  rcases readFile_cases C w p offset length s with ⟨g, s₁, hst, hrun⟩ |
    ⟨link, parentKR, s₁, hst, ⟨-, hrun⟩ | ⟨-, ⟨data, s₂, -, hrun⟩ | ⟨g, e', s₂, hc, hrun, hg⟩⟩⟩
  · rw [hrun] at he
    cases he
    exact .inl ⟨g, by rw [hst], rfl, rfl⟩
  · rw [hrun] at he
    cases he
    exact .inr ⟨⟨(link, parentKR), by rw [hst]⟩, .inl ⟨rfl, rfl⟩⟩
  · rw [hrun] at he
    cases he
  · rw [hrun] at he
    cases he
    have hcontent := readFileContent_error (C := C) (w := w) link parentKR offset length s₁
    rw [hc] at hcontent
    refine .inr ⟨⟨(link, parentKR), by rw [hst]⟩, .inr ⟨g, hcontent, ?_⟩⟩
    rcases hg with ⟨rfl, rfl⟩ | ⟨hne, rfl⟩
    · exact ⟨rfl, .inl ⟨rfl, rfl⟩⟩
    · exact ⟨rfl, .inr ⟨hne, rfl⟩⟩

theorem mkdir_failure {p : Path} (h : failure texts C sealFolder w s (.mkdir p) = some f) :
    ∃ e, (makeDir C sealFolder w s p).result = .error e ∧ f.cause = writeCause e ∧
      (f.error.code = -32603 ∨ f.error.code = -32006) := by
  obtain ⟨e, he, rfl⟩ := failureOf_eq_some h
  refine ⟨e, he, rfl, ?_⟩
  cases e with
  | alreadyExists => exact .inr rfl
  | read e | keyringNotCached id | crypto | api e => exact .inl rfl

theorem delete_failure {p : Path} {trash : Bool}
    (h : failure texts C sealFolder w s (.delete p trash) = some f) :
    ∃ e, (DirectoryHandlers.delete C w s p trash).result = .error e ∧ f.cause = writeCause e ∧
      f.error.code = -32603 := by
  obtain ⟨e, he, rfl⟩ := failureOf_eq_some h
  exact ⟨e, he, rfl, rfl⟩

/-- A write that fails offline has an API call that does. -/
def OfflineWrites {α : Type} (w : World) (o : Outcome WriteError (Session KR) α) : Prop :=
  o.Sat (fun _ _ => True) fun e _ => ∀ g, writeCause e = some g →
    wentOffline g = true → ∃ n, w.fails n = some .net

theorem OfflineWrites.andThen {α β : Type} {o : Outcome WriteError (Session KR) α}
    {f : α → Session KR → Outcome WriteError (Session KR) β} (h : OfflineWrites w o)
    (hf : ∀ a s, OfflineWrites w (f a s)) : OfflineWrites w (o.andThen f) :=
  Outcome.Sat.andThen h fun a s _ => hf a s

theorem reading_offlineWrites {α : Type} {o : Step KR α} (h : OfflineCalls w o) :
    OfflineWrites w (reading o) := by
  rcases o with ⟨e | a, s₁⟩
  · intro g hg
    cases hg
    exact h
  · exact trivial

theorem makeDir_offlineWrites (s : Session KR) (p : Path) :
    OfflineWrites w (makeDir C sealFolder w s p) := by
  simp only [makeDir, createFolderReq]
  refine OfflineWrites.andThen ((reading_offlineWrites (stat_offlineCalls s (dir p))).andThen ?_) ?_
  · intro r s₁
    simp only [nodeKeyRing]
    cases s₁.nodeKRs.lookup r.1.linkID with
    | none => exact fun g hg => by cases hg
    | some kr =>
      rw [Outcome.andThen_ok]
      cases sealFolder r.1 kr (base p) with
      | none => exact fun g hg => by cases hg
      | some x => exact trivial
  · intro req s₁
    simp only [createFolder]
    have hcall := callAPI_error (w := w) s₁ fun _ => some ()
    rcases hrun : s₁.callAPI w fun _ => some () with ⟨e | a, s₂⟩
    · rw [hrun] at hcall
      obtain ⟨a, rfl, hnet⟩ := hcall
      split
      · trivial
      · intro g hg
        cases hg
      · rename_i a' _ _ he
        intro g hg hwent
        cases he
        cases hg
        cases a with
        | net => exact ⟨s₁.ticks, hnet rfl⟩
        | rejected code => cases hwent
        | notExist => cases hwent
      · rename_i hne he
        cases he
        exact (hne a rfl).elim
    · exact trivial

theorem delete_offlineWrites (s : Session KR) (p : Path) (trash : Bool) :
    OfflineWrites w (DirectoryHandlers.delete C w s p trash) := by
  simp only [DirectoryHandlers.delete, deleteReq]
  refine OfflineWrites.andThen ((reading_offlineWrites (stat_offlineCalls s p)).andThen ?_) ?_
  · intro r s₁
    exact (reading_offlineWrites (resolvePath_offlineCalls s₁ _)).andThen fun _ _ => trivial
  · intro req s₁
    exact reading_offlineWrites (callAPI_offlineCalls s₁ _)

/-- A failure for being offline is the failure of an API call. -/
theorem Failure.Offline.call (hf : failure texts C sealFolder w s req = some f)
    (h : f.Offline) : ∃ n, w.fails n = some .net := by
  obtain ⟨g, hg, hwent⟩ := h
  cases req with
  | listDir p =>
    obtain ⟨e, he, hcause, -⟩ := listDir_failure hf
    obtain rfl := Option.some.inj (hcause.symm.trans hg)
    exact (listChildren_offlineCalls s p).of_error he hwent
  | stat p =>
    obtain ⟨e, he, hcause, -⟩ := stat_failure hf
    obtain rfl := Option.some.inj (hcause.symm.trans hg)
    exact (stat_offlineCalls s p).of_error he hwent
  | readFile p offset length =>
    rcases readFile_failure hf with
      ⟨e, he, hcause, -⟩ | ⟨-, ⟨hcause, -⟩ | ⟨e, hcontent, hcause, -⟩⟩
    · obtain rfl := Option.some.inj (hcause.symm.trans hg)
      exact (stat_offlineCalls s p).of_error he hwent
    · cases hcause.symm.trans hg
    · obtain rfl := Option.some.inj (hcause.symm.trans hg)
      by_cases he : e = .offline
      · exact hcontent.call he
      · rw [wentOffline_eq he, hcontent.coded] at hwent
        cases hwent
  | mkdir p =>
    obtain ⟨e, he, hcause, -⟩ := mkdir_failure hf
    exact Outcome.Sat.of_error (makeDir_offlineWrites s p) he g (hcause.symm.trans hg) hwent
  | delete p trash =>
    obtain ⟨e, he, hcause, -⟩ := delete_failure hf
    exact Outcome.Sat.of_error (delete_offlineWrites s p trash) he g (hcause.symm.trans hg) hwent

/-- An offline failure is reported as such only after the lookup of a `ReadFile`; a missing
component only by the lookups of `Stat` and `ReadFile`; and without network these lookups report
every path as missing that the cache does not serve. -/
theorem errors_keep_class_iff (hf : failure texts C sealFolder w s req = some f) :
    (f.Offline → (f.Reports (-32005) .hostUnreachable ↔
      ∃ p offset length, req = .readFile p offset length ∧ StatAnswered C w s p)) ∧
    (f.Missing → (f.Reports (-32001) .notFound ↔ req.lookup.isSome)) ∧
    (w.Unreachable → (f.error.code ≠ -32001 ↔
      ∀ p ∈ req.lookup, ServedOffline C s (w.now s.ticks) (absolute p))) := by
  have hoff : f.Reports (-32005) .hostUnreachable ↔ f.error.code = -32005 := Failure.reports_iff
  have hmiss : f.Reports (-32001) .notFound ↔ f.error.code = -32001 := Failure.reports_iff
  rw [hoff, hmiss]
  cases req with
  | listDir p =>
    obtain ⟨e, -, -, hcode⟩ := listDir_failure hf
    simp [hcode, DriveRequest.lookup]
  | delete p trash =>
    obtain ⟨e, -, -, hcode⟩ := delete_failure hf
    simp [hcode, DriveRequest.lookup]
  | mkdir p =>
    obtain ⟨e, -, -, hcode | hcode⟩ := mkdir_failure hf
    · simp [hcode, DriveRequest.lookup]
    · simp [hcode, DriveRequest.lookup]
  | stat p =>
    obtain ⟨e, he, -, hcode⟩ := stat_failure hf
    have hst := not_statAnswered he
    refine ⟨fun _ => by simp [hcode], fun _ => by simp [hcode, DriveRequest.lookup], fun hu => ?_⟩
    rw [StatAnswered, stat_unreachable hu] at hst
    simp [hcode, hst, DriveRequest.lookup]
  | readFile p offset length =>
    rcases readFile_failure hf with ⟨e, he, -, hcode⟩ | ⟨hst, hrest⟩
    · have hst := not_statAnswered he
      refine ⟨fun _ => ?_, fun _ => by simp [hcode, DriveRequest.lookup], fun hu => ?_⟩
      · rw [hcode]
        constructor
        · intro h
          cases h
        · rintro ⟨q, o, l, he, hq⟩
          cases he
          exact absurd hq hst
      · rw [StatAnswered, stat_unreachable hu] at hst
        simp [hcode, hst, DriveRequest.lookup]
    · have hne : f.error.code ≠ -32001 := by
        rcases hrest with ⟨-, hcode⟩ | ⟨e, -, -, ⟨-, hcode⟩ | ⟨-, hcode⟩⟩
        · rw [hcode]; decide
        · rw [hcode]; decide
        · rw [hcode]; decide
      refine ⟨?_, ?_, fun hu => ?_⟩
      · rintro ⟨e, he, hwent⟩
        have hanswered : ∃ q o l, DriveRequest.readFile p offset length = .readFile q o l ∧
            StatAnswered C w s q := ⟨p, offset, length, rfl, hst⟩
        rcases hrest with ⟨hnone, -⟩ | ⟨e', hc, he', ⟨-, hcode⟩ | ⟨hne', -⟩⟩
        · cases hnone.symm.trans he
        · exact ⟨fun _ => hanswered, fun _ => hcode⟩
        · cases he'.symm.trans he
          rw [wentOffline_eq hne', hc.coded] at hwent
          cases hwent
      · rintro ⟨q, hq⟩
        rcases hrest with ⟨hnone, -⟩ | ⟨e', hc, he', -⟩
        · cases hnone.symm.trans hq
        · cases he'.symm.trans hq
          exact absurd rfl (hc.present q)
      · rw [StatAnswered, stat_unreachable hu] at hst
        simp [hne, hst, DriveRequest.lookup]

def noTexts : ErrorTexts := ⟨fun _ => "", fun _ => ""⟩

/-- A file "f" below the root. -/
def fileTree : RemoteTree.Tree :=
  RemoteTree.flatTree [plainFile "F" "root" "f" 2 "rev1"] (by decide) (by decide)

/-- Without network a new session reports an existing file as not found, and a listing of the
root as an internal error. -/
theorem errors_keep_class_fails :
    ∃ f g, failure noTexts Crypto.plain (fun _ _ _ => none) (World.cut fileTree.toServer)
        (newSession "root" none) (.stat "/f".toList) = some f ∧ f.Offline ∧
      (fileTree.statOf Crypto.plain "/f".toList).isSome ∧ f.Reports (-32001) .notFound ∧
      failure noTexts Crypto.plain (fun _ _ _ => none) (World.cut fileTree.toServer)
        (newSession "root" none) (.listDir "/".toList) = some g ∧ g.Offline ∧
      g.Reports (-32603) .failed :=
  ⟨_, _, rfl, ⟨_, rfl, rfl⟩, rfl, Failure.reports_iff.mpr rfl, rfl, ⟨_, rfl, rfl⟩,
    Failure.reports_iff.mpr rfl⟩

/-- A session that has answered a stat of the file. -/
def statted : Session Unit :=
  ((newSession "root" none).stat Crypto.plain (World.steady fileTree.toServer) "/f".toList).state

/-- After a stat of the file, reading it offline is reported as being offline; a stat of a
missing name is reported as not found. -/
theorem errors_keep_class_statted :
    (∃ f, failure noTexts Crypto.plain (fun _ _ _ => none) (World.cut fileTree.toServer) statted
        (.readFile "/f".toList 0 0) = some f ∧ f.Reports (-32005) .hostUnreachable ∧
        f.error.code ≠ -32001) ∧
    ∃ f, failure noTexts Crypto.plain (fun _ _ _ => none) (World.steady fileTree.toServer) statted
      (.stat "/g".toList) = some f ∧ f.Reports (-32001) .notFound := by
  constructor
  · have hf : failure noTexts Crypto.plain (fun _ _ _ => none) (World.cut fileTree.toServer)
        statted (.readFile "/f".toList 0 0) = some _ := rfl
    have h := errors_keep_class_iff hf
    refine ⟨_, hf, (h.1 ⟨_, rfl, rfl⟩).mpr ⟨_, _, _, rfl, _, rfl⟩, (h.2.2 fun _ => rfl).mpr ?_⟩
    intro p hp
    cases hp
    exact .inl rfl
  · have hf : failure noTexts Crypto.plain (fun _ _ _ => none) (World.steady fileTree.toServer)
        statted (.stat "/g".toList) = some _ := rfl
    exact ⟨_, hf, ((errors_keep_class_iff hf).2.1 ⟨_, rfl⟩).mpr rfl⟩

end Classes

end ProtonDrive.ErrorClasses
