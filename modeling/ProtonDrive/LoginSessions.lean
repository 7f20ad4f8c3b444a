import ProtonDrive.PartialRuns
import ProtonDrive.ChangeMonitors

/-!
# Logins and the pollers they start

`Auth`, `AuthWithHV` and `ResumeSession` of `main.go`, each of which replaces the session of the
helper and starts an event poller for it. The helper runs on from one connection to the next, and
the goroutines of all pollers ever started run in it until they are stopped.
-/

namespace ProtonDrive.LoginSessions
open SlashPaths DriveApi DriveSession EventPoller PollLoop RpcConnections ReadHandles ChangeMonitors
  PartialRuns

/-- `rpc.AuthResult`, and the credentials it is made from. -/
structure AuthResult where
  uid : String
  refreshToken : String
  saltedPassphrase : Bytes
  deriving DecidableEq, Repr

inductive LoginError
  | hvRequired (token : String) (methods : List String)
  | failed (message : String)
  deriving DecidableEq, Repr

def LoginError.message : LoginError → String
  | .hvRequired _ _ => "human verification required"
  | .failed message => message

inductive LoginMethod
  | auth
  | authWithHV
  | resumeSession
  deriving DecidableEq, Repr

/-- The parameters that name the account. -/
structure LoginParams where
  username : String
  uid : String
  deriving DecidableEq, Repr

/-- The account of the new session, by which its cache directory is named. -/
def LoginMethod.account (m : LoginMethod) (p : LoginParams) : String :=
  match m with
  | .auth | .authWithHV => p.username
  | .resumeSession => if p.username = "" then p.uid else p.username

def LoginMethod.error (m : LoginMethod) (e : LoginError) : RPCError :=
  match m, e with
  | .auth, .hvRequired _ _ => ⟨-32004, "human verification required"⟩
  | _, e => ⟨-32002, e.message⟩

/-- What a successful login makes the session from, and the credentials it returns. -/
structure Opened where
  rootID : LinkID
  blocks : Option BlockCache.Cache
  creds : AuthResult

/-- A poller goroutine, with the number of its session. -/
structure LivePoller (KR : Type) where
  owner : ℕ
  anchorPath : Path
  poller : Poller KR

/-- The helper: how many sessions were made, which is the current one, the poller goroutines that
run, and the anchor files. -/
structure Helper (KR : Type) where
  sessions : ℕ
  current : Option ℕ
  live : List (LivePoller KR)
  anchors : Path → Option EventID

def Helper.launched (KR : Type) (anchors : Path → Option EventID) : Helper KR :=
  ⟨0, none, [], anchors⟩

variable {KR : Type}

/-- `newEventPoller`: the anchor file is in the account's cache directory, if there is one. -/
def anchorPathIn : Option Path → Path
  | none => []
  | some base => base ++ "/anchor".toList

/-- `StartPoller` for the current session: no goroutine runs when there is no anchor to begin at. -/
def startPoller (anchorPath : Path) (readable : Bool) (latest : Option EventID) (owner : ℕ)
    (s : Session KR) (h : Helper KR) : Helper KR :=
  match PollLoop.start (loadAnchor anchorPath (h.anchors anchorPath) readable) latest with
  | none => h
  | some eventID => { h with live := h.live ++ [⟨owner, anchorPath, ⟨s, [], eventID, []⟩⟩] }

/-- The three login handlers; `blockCacheBase` may fail to find a cache directory. -/
def login (blockCacheBase : String → Option Path) (m : LoginMethod)
    (params : Except String LoginParams) (outcome : Except LoginError Opened) (readable : Bool)
    (latest : Option EventID) (h : Helper KR) : Except RPCError AuthResult × Helper KR :=
  match params with
  | .error text => (.error ⟨-32602, text⟩, h)
  | .ok p =>
    match outcome with
    | .error e => (.error (m.error e), h)
    | .ok opened =>
      let s : Session KR := newSession opened.rootID opened.blocks
      let h' := { h with sessions := h.sessions + 1, current := some h.sessions }
      (.ok opened.creds,
        startPoller (anchorPathIn (blockCacheBase (m.account p))) readable latest h.sessions s h')

/-- A write of the anchor file at `path`. -/
def Helper.record (h : Helper KR) (path : Path) (written : Bool) : Job → Helper KR
  | .saveAnchor id => { h with
      anchors := fun file =>
        if file = path then saveAnchor path written id (h.anchors file) else h.anchors file }
  | _ => h

/-- A request reaches the poller of the current session only. -/
def Helper.onCurrent (h : Helper KR) (f : Poller KR → Poller KR) : Helper KR :=
  { h with
    live := h.live.map fun p =>
      if h.current = some p.owner then { p with poller := f p.poller } else p }

inductive Act (KR : Type)
  | login (m : LoginMethod) (params : Except String LoginParams)
      (outcome : Except LoginError Opened) (readable : Bool) (latest : Option EventID)
  | getEvents
  | serve (s : Session KR)
  | poll (i : ℕ) (fetched : Option VolumeEvent) (latest : Option EventID)
  | job (i : ℕ) (w : World) (written : Bool)

/-- One request, or one step of a poller; the other requests may change the current session.
`none` is a crash of the helper. -/
def Helper.step (blockCacheBase : String → Option Path) (C : Crypto KR) (h : Helper KR) :
    Act KR → Option (Helper KR)
  | .login m params outcome readable latest =>
    some (login blockCacheBase m params outcome readable latest h).2
  | .getEvents => some (h.onCurrent fun p => { p with queue := [] })
  | .serve s => some (h.onCurrent fun p => { p with session := s })
  | .poll i fetched latest =>
    match h.live[i]? with
    | some ⟨owner, path, ⟨s, queue, eventID, []⟩⟩ =>
      let (jobs, eventID) := PollLoop.poll eventID fetched latest
      some { h with live := h.live.set i ⟨owner, path, ⟨s, queue, eventID, jobs⟩⟩ }
    | _ => some h
  | .job i w written =>
    match h.live[i]? with
    | some ⟨owner, path, ⟨s, queue, eventID, j :: jobs⟩⟩ =>
      (j.exec C w ⟨s, queue, eventID, jobs⟩).map fun p =>
        { h with live := h.live.set i ⟨owner, path, p⟩ }.record path written j
    | _ => some h

/-- At most one poller runs, and it is the current session's. -/
def OnePoller (h : Helper KR) : Prop :=
  h.live.length ≤ 1 ∧ ∀ p ∈ h.live, h.current = some p.owner

/-- A login that succeeds finds no poller running. -/
def LoginWhenIdle (h : Helper KR) : Act KR → Prop
  | .login _ (.ok _) (.ok _) _ _ => h.live = []
  | _ => True

/-- Every running poller belongs to a session that was made. -/
def Owned (h : Helper KR) : Prop := ∀ p ∈ h.live, p.owner < h.sessions

variable {base : String → Option Path} {C : Crypto KR} {h h' : Helper KR}

@[simp] theorem record_live (path : Path) (written : Bool) (j : Job) :
    (h.record path written j).live = h.live := by
  cases j <;> rfl

@[simp] theorem record_current (path : Path) (written : Bool) (j : Job) :
    (h.record path written j).current = h.current := by
  cases j <;> rfl

@[simp] theorem record_sessions (path : Path) (written : Bool) (j : Job) :
    (h.record path written j).sessions = h.sessions := by
  cases j <;> rfl

/-- The pollers that run, told apart by their sessions. -/
def Helper.owners (h : Helper KR) : List ℕ := h.live.map LivePoller.owner

@[simp] theorem onCurrent_owners (f : Poller KR → Poller KR) :
    (h.onCurrent f).owners = h.owners := by
  simp only [Helper.owners, Helper.onCurrent, List.map_map]
  refine List.map_congr_left fun p _ => ?_
  simp only [Function.comp_apply]
  split_ifs <;> rfl

theorem owners_set {i : ℕ} {p p' : LivePoller KR} (hp : h.live[i]? = some p)
    (ho : p'.owner = p.owner) : (h.live.set i p').map LivePoller.owner = h.owners := by
  rw [List.map_set, ho, Helper.owners]
  refine List.ext_getElem? fun j => ?_
  rw [List.getElem?_set]
  split_ifs with hij hl
  · subst hij
    simp [hp]
  · subst hij
    exact (List.getElem?_eq_none (Nat.not_lt.mp hl)).symm
  · rfl

/-- A step that is no successful login leaves the running pollers and their sessions alone; a
successful one makes a new session, and starts a poller for it if it has an anchor. -/
theorem step_cases {act : Act KR} (hs : h.step base C act = some h') :
    (h'.owners = h.owners ∧ h'.current = h.current ∧ h'.sessions = h.sessions ∧
      LoginWhenIdle h act) ∨
    (h'.sessions = h.sessions + 1 ∧ h'.current = some h.sessions ∧
      (h'.owners = h.owners ∨ h'.owners = h.owners ++ [h.sessions]) ∧
      (LoginWhenIdle h act ↔ h.owners = [])) := by
  cases act with
  | login m params outcome readable latest =>
    obtain rfl := Option.some.inj hs
    cases params with
    | error text => exact .inl ⟨rfl, rfl, rfl, trivial⟩
    | ok p =>
      cases outcome with
      | error e => exact .inl ⟨rfl, rfl, rfl, trivial⟩
      | ok opened =>
        refine .inr ?_
        simp only [login, startPoller]
        split
        · exact ⟨rfl, rfl, .inl rfl, List.map_eq_nil_iff.symm⟩
        · exact ⟨rfl, rfl, .inr (by simp [Helper.owners]), List.map_eq_nil_iff.symm⟩
  | getEvents =>
    obtain rfl := Option.some.inj hs
    exact .inl ⟨onCurrent_owners _, rfl, rfl, trivial⟩
  | serve s =>
    obtain rfl := Option.some.inj hs
    exact .inl ⟨onCurrent_owners _, rfl, rfl, trivial⟩
  | poll i fetched latest =>
    simp only [Helper.step] at hs
    split at hs
    · next owner path s queue eventID hp =>
      obtain rfl := Option.some.inj hs
      exact .inl ⟨owners_set hp rfl, rfl, rfl, trivial⟩
    · obtain rfl := Option.some.inj hs
      exact .inl ⟨rfl, rfl, rfl, trivial⟩
  | job i w written =>
    simp only [Helper.step] at hs
    split at hs
    · next owner path s queue eventID j jobs hp =>
      obtain ⟨p, -, rfl⟩ := Option.map_eq_some_iff.mp hs
      refine .inl ⟨?_, by simp, by simp, trivial⟩
      rw [Helper.owners, record_live]
      exact owners_set hp rfl
    · obtain rfl := Option.some.inj hs
      exact .inl ⟨rfl, rfl, rfl, trivial⟩

theorem owned_iff : Owned h ↔ ∀ o ∈ h.owners, o < h.sessions := by
  simp [Owned, Helper.owners]

theorem onePoller_iff :
    OnePoller h ↔ h.owners.length ≤ 1 ∧ ∀ o ∈ h.owners, h.current = some o := by
  simp [OnePoller, Helper.owners]

theorem Owned.step {act : Act KR} (ho : Owned h) (hs : h.step base C act = some h') :
    Owned h' := by
  rw [owned_iff] at ho ⊢
  rcases step_cases hs with ⟨howners, -, hsessions, -⟩ | ⟨hsessions, -, howners, -⟩
  · rw [howners, hsessions]
    exact ho
  · intro o hm
    rw [hsessions]
    rcases howners with howners | howners
    · rw [howners] at hm
      exact Nat.lt_succ_of_lt (ho o hm)
    · rw [howners] at hm
      rcases List.mem_append.mp hm with hm | hm
      · exact Nat.lt_succ_of_lt (ho o hm)
      · rw [List.mem_singleton.mp hm]
        exact Nat.lt_succ_self _

/-- Only a poller's job can crash the helper. -/
theorem loginWhenIdle_of_crash {act : Act KR} (hs : h.step base C act = none) :
    LoginWhenIdle h act := by
  cases act with
  | login => cases hs
  | getEvents | serve | poll | job => trivial

/-- One poller stays one poller if and only if no login succeeds while it runs. -/
theorem onePoller_step {act : Act KR} (ho : Owned h) (h1 : OnePoller h) :
    LoginWhenIdle h act ↔ ∀ h', h.step base C act = some h' → OnePoller h' := by
  rw [owned_iff] at ho
  rw [onePoller_iff] at h1
  cases hs : h.step base C act with
  | none => exact iff_of_true (loginWhenIdle_of_crash hs) (by simp)
  | some h' =>
    simp only [Option.some.injEq, forall_eq', onePoller_iff]
    rcases step_cases hs with ⟨howners, hcurrent, -, hidle⟩ | ⟨-, hcurrent, howners, hidle⟩
    · rw [howners, hcurrent]
      exact iff_of_true hidle h1
    · rw [hidle, hcurrent]
      constructor
      · intro hnone
        rcases howners with howners | howners <;> simp [howners, hnone]
      · -- an old poller is not the new session's
        rintro ⟨-, hall⟩
        refine List.eq_nil_iff_forall_not_mem.mpr fun o hm => ?_
        have hm' : o ∈ h'.owners := by
          rcases howners with howners | howners <;> simp [howners, hm]
        exact (ho o hm).ne (Option.some.inj (hall o hm')).symm

/-- Throughout a run at most one poller runs, and it is the current session's, if and only if no
login of the run succeeds while a poller is running. -/
theorem one_poller_iff (base : String → Option Path) (C : Crypto KR)
    (anchors : Path → Option EventID) (acts : List (Act KR)) :
    Always (Helper.step base C) OnePoller (Helper.launched KR anchors) acts ↔
      Along (Helper.step base C) LoginWhenIdle (Helper.launched KR anchors) acts := by
  refine always_iff_along (I := Owned) (fun h act h' ho hs => ho.step hs)
    (fun h act ho h1 => onePoller_step ho h1) ?_ ?_ acts
  · simp [Owned, Helper.launched]
  · simp [OnePoller, Helper.launched]

/-- The setup wizard logs in, and then the mount resumes the session. -/
def setupThenMount : List (Act Unit) :=
  [.login .auth (.ok ⟨"user", ""⟩) (.ok ⟨"root", none, ⟨"uid", "token", []⟩⟩) true
      (some "e1".toList),
    .login .resumeSession (.ok ⟨"user", "uid"⟩) (.ok ⟨"root", none, ⟨"uid", "token", []⟩⟩) true
      (some "e2".toList)]

/-- The poller of the first login is never stopped: two run, and one is nobody's. -/
theorem setup_poller_survives :
    ¬ Always (Helper.step (fun _ => none) Crypto.plain) OnePoller
      (Helper.launched Unit fun _ => none) setupThenMount := by
  rintro ⟨-, h⟩
  exact absurd ((h _ rfl).2 _ rfl).1 (by decide)

end ProtonDrive.LoginSessions
