import ProtonDrive.SessionOpening
import ProtonDrive.Mounting
import ProtonDrive.PartialRuns
import Mathlib.Tactic.IntervalCases

/-!
# The stored credentials

The authentication server, the keyring and the clients that live in helper processes, for any
number of login names. The setup wizard logs in and stores what it gets under the name; a mount
resumes the session with what is stored under its host, which uses the refresh token up, and stores
the next one; a client that is told that its access token has expired refreshes it on its own. The
calls to the server may be lost on either way, and so may the answer of the helper and each write to
the keyring.
-/

namespace ProtonDrive.CredentialRotation
open DriveApi KeyedMaps Programs Programs.Prog SharedPrograms SessionOpening Mounting PartialRuns
open FallibleSteps
open RpcClient (GError)
open LoginSessions (AuthResult)

/-- What the API calls of an opening read. -/
structure Account where
  user : User
  salts : List Salt
  addresses : List Address
  shares : List ShareMetadata

/-- The accounts by login name. The server issues one new token after the other, none of which ends
in white space. -/
structure Service (KR : Type) where
  account : String → Account
  keys : KeyLibrary KR
  mint : ℕ → String
  mint_injective : Function.Injective mint
  mint_plain : ∀ n, strchomp (mint n) = mint n
  invalidToken : ApiError

/-- Who has logged in, and the refresh token that the session accepts next. -/
structure Live where
  username : String
  refreshToken : String
  deriving DecidableEq, Repr

/-- The live sessions by uid. -/
structure Server where
  sessions : KeyMap String Live
  issued : ℕ

/-- A call gets through; it is lost on the way; the server refuses it and does nothing; or the
server acts and its answer is lost. -/
inductive Delivery
  | delivered
  | lost
  | rejected (e : ApiError)
  | unanswered
  deriving DecidableEq, Repr

/-- Whether the server acts on the call. -/
def Delivery.Acts : Delivery → Prop
  | .delivered | .unanswered => True
  | _ => False

/-- How the calls of one opening go, and whether the server refuses a login. -/
structure Weather where
  delivery : ℕ → Delivery
  refusal : Option LoginFailure

/-- The server and the client of the opening at hand, if it has one. -/
structure Desk where
  server : Server
  client : Option (String × String)
  calls : ℕ

section Server

variable {KR : Type} (S : Service KR)

def Server.login (srv : Server) (username : String) : Auth × Server :=
  (⟨S.mint srv.issued, S.mint (srv.issued + 1), S.mint (srv.issued + 2)⟩,
    ⟨srv.sessions.insert (S.mint srv.issued) ⟨username, S.mint (srv.issued + 1)⟩, srv.issued + 3⟩)

/-- A refresh token is good for one use. -/
def Server.refresh (srv : Server) (uid token : String) : Except ApiError Auth × Server :=
  match srv.sessions.lookup uid with
  | some live =>
    if live.refreshToken = token then
      (.ok ⟨uid, S.mint srv.issued, S.mint (srv.issued + 1)⟩,
        ⟨srv.sessions.insert uid ⟨live.username, S.mint srv.issued⟩, srv.issued + 2⟩)
    else (.error S.invalidToken, srv)
  | none => (.error S.invalidToken, srv)

def Server.revoke (srv : Server) (uid : String) : Server :=
  { srv with sessions := srv.sessions.erase uid }

/-- An answer that makes a client, if it arrives. -/
def Desk.welcome (x : Desk) (d : Delivery) (r : Except ApiError Auth × Server) :
    Except ApiError Auth × Desk :=
  match d with
  | .delivered => (r.1, ⟨r.2, match r.1 with
      | .ok auth => some (auth.uid, auth.refreshToken)
      | .error _ => x.client, x.calls + 1⟩)
  | .lost => (.error .net, { x with calls := x.calls + 1 })
  | .rejected e => (.error e, { x with calls := x.calls + 1 })
  | .unanswered => (.error .net, ⟨r.2, x.client, x.calls + 1⟩)

def Delivery.reading {α : Type} (d : Delivery) (r : Except ApiError α) : Except ApiError α :=
  match d with
  | .delivered => r
  | .lost | .unanswered => .error .net
  | .rejected e => .error e

/-- Whose data the client of the opening may read. -/
def Desk.account (x : Desk) : Option Account :=
  x.client.bind fun c => (x.server.sessions.lookup c.1).map fun live => S.account live.username

variable (w : Weather)

/-- A call that reads of the account of the client, for which its session must be live. -/
def Desk.read {α : Type} (x : Desk) (f : Account → α) : Except ApiError α × Desk :=
  ((w.delivery x.calls).reading (match x.account S with
    | some account => .ok (f account)
    | none => .error S.invalidToken), { x with calls := x.calls + 1 })

/-- `NewClientWithLogin`, with or without a solved verification. -/
def Desk.login (x : Desk) (username : String) : Except LoginFailure Auth × Desk :=
  match w.delivery x.calls, w.refusal with
  | .delivered, some f => (.error f, { x with calls := x.calls + 1 })
  | .unanswered, some _ => (.error (.api .net), { x with calls := x.calls + 1 })
  | d, _ =>
    let r := x.welcome d (.ok (x.server.login S username).1, (x.server.login S username).2)
    (match r.1 with
      | .ok auth => .ok auth
      | .error e => .error (.api e), r.2)

def Desk.revoke (x : Desk) : Except ApiError Unit × Desk :=
  let d := w.delivery x.calls
  let server := match d, x.client with
    | .delivered, some (uid, _) | .unanswered, some (uid, _) => x.server.revoke uid
    | _, _ => x.server
  (d.reading (.ok ()), { x with server := server, calls := x.calls + 1 })

/-- The API as one opening meets it. -/
def answer : Handler Desk LoginQuery LoginAnswer
  | .newClientWithLogin username _, x => x.login S w username
  | .newClientWithLoginWithHVToken username _ _, x => x.login S w username
  | .newClientWithRefresh uid token, x =>
    x.welcome (w.delivery x.calls) (x.server.refresh S uid token)
  | .getUser, x => x.read S w Account.user
  | .getSalts, x => x.read S w Account.salts
  | .getAddresses, x => x.read S w Account.addresses
  | .listShares, x => x.read S w Account.shares
  | .authDelete, x => x.revoke w

end Server

section System

/-- What libsecret holds, by `username` and `field`. -/
abbrev Keyring := KeyMap (String × String) String

/-- What a mount makes of a stored field: nothing stored looks like an empty secret. -/
def seen (k : Keyring) (account field : String) : String :=
  strchomp ((k.lookup (account, field)).getD "")

/-- A client is known by the session and the refresh token that it holds. -/
structure System where
  server : Server
  keyring : Keyring
  clients : List (String × String)

/-- What a mount meets: the answers to the queries that do not concern the credentials, how the
lookups and the calls of the helper go, whether the answer of the helper is lost and with which
error, and which writes to the keyring fail. -/
structure MountEnv where
  libexecdir : String
  getuid : ℕ
  account : String
  account_ne : account ≠ ""
  surroundings : (q : MountQuery) → ℕ → MountAnswer q
  lookupError : String → Option GError
  weather : Weather
  replyLost : Option (Option GError)
  storeFails : String → Bool
  text : OpenError → String

structure MountDesk where
  system : System
  asked : ℕ

variable {KR : Type} (S : Service KR)

/-- `ResumeSession` of the helper, and what of its answer reaches the backend: a crash of the helper
sets no error. The backend sends no account name, so the uid is used. -/
def System.resume (sys : System) (env : MountEnv) (uid token : String) (pass : Bytes) :
    Except (Option GError) (Option String × Option String) × System :=
  match Base64Texts.decodeStrict (Base64Texts.encode pass) with
  | none => (.error (some ⟨.io .failed, "illegal base64 data"⟩), sys)
  | some pass =>
    let o := (resumeSession S.keys ⟨uid, token, pass⟩ uid).run (answer S env.weather)
      ⟨sys.server, none, 0⟩
    match o.result with
    | .ok (_, creds) =>
      (match env.replyLost with
        | none => .ok (some creds.uid, some creds.refreshToken)
        | some e => .error e,
        { sys with server := o.state.server, clients := sys.clients ++ o.state.client.toList })
    | .error .indexOutOfRange => (.error none, { sys with server := o.state.server })
    | .error e =>
      (.error (some ⟨.io .permissionDenied, env.text e⟩), { sys with server := o.state.server })

/-- The surroundings of a mount. -/
def mountAnswer (env : MountEnv) : Handler MountDesk MountQuery MountAnswer
  | .lookup account field, x => (match env.lookupError field with
      | some e => .error e
      | none => .ok (some ((x.system.keyring.lookup (account, field)).getD "")),
    { x with asked := x.asked + 1 })
  | .resume uid token pass, x =>
    let r := x.system.resume S env uid token pass
    (r.1, ⟨r.2, x.asked + 1⟩)
  | .store account field secret, x => ((), ⟨if env.storeFails field then x.system else
      { x.system with keyring := x.system.keyring.insert (account, field) secret }, x.asked + 1⟩)
  | q, x => (env.surroundings q x.asked, { x with asked := x.asked + 1 })

def System.mount (sys : System) (env : MountEnv) : System :=
  ((doMount env.libexecdir env.getuid (some env.account)).run (mountAnswer S env)
    ⟨sys, 0⟩).state.system

/-- What the wizard meets: the calls of the login, whether its answer arrives, and which field is
the first that cannot be stored. -/
structure SetupEnv where
  weather : Weather
  replied : Bool
  storeFails : String → Bool

/-- `_store_and_finish`: the fields in order, up to the first that fails. -/
def storeAll (username : String) (storeFails : String → Bool) :
    Keyring → List (String × String) → Keyring
  | k, [] => k
  | k, (field, secret) :: rest =>
    if storeFails field then k
    else storeAll username storeFails (k.insert (username, field) secret) rest

def storedFields (creds : AuthResult) : List (String × String) :=
  [("uid", creds.uid), ("refresh_token", creds.refreshToken),
    ("salted_passphrase", String.ofList (Base64Texts.encode creds.saltedPassphrase))]

/-- One login of the wizard; the client lives on until the helper is terminated. -/
def System.setup (sys : System) (username : String) (login : LoginOp (OpenSession KR × AuthResult))
    (env : SetupEnv) : System :=
  let o := login.run (answer S env.weather) ⟨sys.server, none, 0⟩
  match o.result with
  | .error _ => { sys with server := o.state.server }
  | .ok (_, creds) =>
    ⟨o.state.server,
      if env.replied then storeAll username env.storeFails sys.keyring (storedFields creds)
        else sys.keyring,
      sys.clients ++ o.state.client.toList⟩

/-- A client refreshes its access token. -/
def System.refresh (sys : System) (i : ℕ) (d : Delivery) : System :=
  match sys.clients[i]? with
  | none => sys
  | some (uid, token) =>
    let r := Desk.welcome ⟨sys.server, some (uid, token), 0⟩ d (sys.server.refresh S uid token)
    { sys with
      server := r.2.server
      clients := match r.2.client with
        | some c => sys.clients.set i c
        | none => sys.clients }

inductive Act
  | setup (username : String) (password : Bytes) (env : SetupEnv)
  | setupWithHV (username : String) (password : Bytes) (hvToken hvType : String) (env : SetupEnv)
  | mount (env : MountEnv)
  | refresh (i : ℕ) (d : Delivery)
  | exit (i : ℕ)
  | expire (uid : String)

def System.step (sys : System) : Act → System
  | .setup username password env => sys.setup S username (newSession S.keys username password) env
  | .setupWithHV username password hvToken hvType env =>
    sys.setup S username (newSessionWithHV S.keys username password hvToken hvType) env
  | .mount env => sys.mount S env
  | .refresh i d => sys.refresh S i d
  | .exit i => { sys with clients := sys.clients.eraseIdx i }
  | .expire uid => { sys with server := sys.server.revoke uid }

end System

section Openings

variable {KR α β : Type} {S : Service KR} {w : Weather} {x : Desk} {acc : Account}

/-- What the salted passphrase unlocks. -/
def Service.unlocked (S : Service KR) (acc : Account) (pass : Bytes) : Option (KR × String) :=
  (S.keys.unlock acc.user acc.addresses pass).bind fun addrKRs =>
    acc.addresses.findSome? fun addr => (addrKRs addr.id).map (·, addr.email)

def Account.mainShare (acc : Account) : Option ShareMetadata := acc.shares.find? (·.type = .main)

/-- The salted passphrase opens the drive of the account. -/
def Service.Opens (S : Service KR) (acc : Account) (pass : Bytes) : Prop :=
  (S.unlocked acc pass).isSome ∧ acc.mainShare.isSome

/-- The desk after `n` more calls that change nothing. -/
def Desk.after (x : Desk) (n : ℕ) : Desk := { x with calls := x.calls + n }

/-- A step that reads leaves the server and the client alone. -/
theorem keeps_of_reads {p : LoginOp α} (hp : Reads p) :
    (p.run (answer S w) x).state.server = x.server ∧
      (p.run (answer S w) x).state.client = x.client := by
  have hk : Keeps (promise IsRead fun _ _ => True) (answer S w)
      fun _ y => y.server = x.server ∧ y.client = x.client := by
    rintro _ y q hy hq
    refine ⟨(), trivial, ?_⟩
    cases q <;> first | exact hy | cases hq
  have hsat := wp_run hk hp (s := x) ⟨rfl, rfl⟩
  rcases hr : p.run (answer S w) x with ⟨e | a, y⟩
  · rw [hr] at hsat
    obtain ⟨_, -, hy⟩ := hsat
    exact hy
  · rw [hr] at hsat
    obtain ⟨_, -, hy⟩ := hsat
    exact hy

theorem run_call {q : LoginQuery} (f : LoginAnswer q → LoginOp α) :
    (call q >>= f).run (answer S w) x = (f (answer S w q x).1).run (answer S w)
      (answer S w q x).2 := rfl

theorem run_check (r : Except ApiError β) (f : β → LoginOp α) :
    (check r >>= f).run (answer S w) x = match r with
      | .ok b => (f b).run (answer S w) x
      | .error e => ⟨.error (.api e), x⟩ := by
  cases r <;> rfl

theorem bind_check (q : LoginQuery) (g : LoginAnswer q → LoginOp β) (f : β → LoginOp α) :
    (call q >>= g) >>= f = call q >>= fun r => g r >>= f := rfl

theorem read_eq (hx : x.account S = some acc) (f : Account → α) :
    x.read S w f = ((w.delivery x.calls).reading (.ok (f acc)), x.after 1) := by
  simp only [Desk.read, hx, Desk.after]

theorem account_after (hx : x.account S = some acc) (n : ℕ) : (x.after n).account S = some acc :=
  hx

/-- A step that reads leaves the client with the account. -/
theorem account_of_reads {p : LoginOp α} (hp : Reads p) :
    (p.run (answer S w) x).state.account S = x.account S := by
  obtain ⟨hserver, hclient⟩ := keeps_of_reads (S := S) (w := w) (x := x) hp
  rw [Desk.account, Desk.account, hserver, hclient]

theorem run_unlocking (pass : Bytes) (hx : x.account S = some acc) :
    (unlockWithSaltedPassphrase S.keys pass).run (answer S w) x =
      match (w.delivery x.calls).reading (.ok ()), (w.delivery (x.calls + 1)).reading (.ok ()) with
      | .error e, _ => ⟨.error (.api e), x.after 1⟩
      | .ok _, .error e => ⟨.error (.api e), x.after 2⟩
      | .ok _, .ok _ => match S.keys.unlock acc.user acc.addresses pass with
        | none => ⟨.error .unlock, x.after 2⟩
        | some _ => match S.unlocked acc pass with
          | none => ⟨.error .noAddressKeyRing, x.after 2⟩
          | some r => ⟨.ok r, x.after 2⟩ := by
  rw [unlockWithSaltedPassphrase, bind_check, run_call, run_check]
  simp only [answer, read_eq hx, Service.unlocked]
  cases w.delivery x.calls with
  | delivered =>
    simp only [Delivery.reading]
    rw [bind_check, run_call, run_check]
    have hcalls : (x.after 1).calls = x.calls + 1 := rfl
    simp only [answer, read_eq (account_after hx 1), hcalls]
    cases w.delivery (x.calls + 1) with
    | delivered =>
      simp only [Delivery.reading]
      cases S.keys.unlock acc.user acc.addresses pass with
      | none => rfl
      | some addrKRs =>
        simp only [Option.bind_some]
        cases acc.addresses.findSome? fun addr =>
          (addrKRs addr.id).map (·, addr.email) <;> rfl
    | _ => rfl
  | _ => rfl

theorem run_findMainShare (hx : x.account S = some acc) :
    findMainShare.run (answer S w) x = match (w.delivery x.calls).reading (.ok ()) with
      | .error e => ⟨.error (.api e), x.after 1⟩
      | .ok _ => match acc.mainShare with
        | none => ⟨.error .noMainShare, x.after 1⟩
        | some share => ⟨.ok share, x.after 1⟩ := by
  rw [findMainShare, bind_check, run_call, run_check]
  simp only [answer, read_eq hx, Account.mainShare]
  cases w.delivery x.calls with
  | delivered =>
    simp only [Delivery.reading]
    cases acc.shares.find? (·.type = .main) <;> rfl
  | _ => rfl

/-- The server after a failed opening of a session: it may have been told to end the session. -/
def Left (srv : Server) (uid : String) (srv' : Server) : Prop := srv' = srv ∨ srv' = srv.revoke uid

theorem run_revoke (e : OpenError) {y : Desk} {c : String × String} (hc : y.client = some c) :
    ∃ y', (revoke e : LoginOp α).run (answer S w) y = ⟨.error e, y'⟩ ∧
      Left y.server c.1 y'.server := by
  by_cases he : e = .indexOutOfRange
  · subst he
    exact ⟨y, rfl, .inl rfl⟩
  · rw [revoke_of_ne he]
    refine ⟨_, rfl, ?_⟩
    simp only [answer, Desk.revoke, hc]
    cases w.delivery y.calls with
    | delivered | unanswered => exact .inr rfl
    | lost | rejected => exact .inl rfl

/-- A step of the opening that only reads, and that revokes when it fails. -/
theorem run_recover_of_reads {p : LoginOp α} (hp : Reads p) {y : Desk} {c : String × String}
    (hc : y.client = some c) :
    (∃ a y', p.run (answer S w) y = ⟨.ok a, y'⟩ ∧
      (p.recover revoke).run (answer S w) y = ⟨.ok a, y'⟩ ∧ y'.server = y.server ∧
        y'.client = some c) ∨
    ∃ e y' y'', p.run (answer S w) y = ⟨.error e, y''⟩ ∧
      (p.recover revoke).run (answer S w) y = ⟨.error e, y'⟩ ∧ Left y.server c.1 y'.server := by
  have hkeeps := keeps_of_reads (S := S) (w := w) (x := y) hp
  rw [Prog.run_recover]
  rcases hr : p.run (answer S w) y with ⟨e | a, y'⟩
  · rw [hr] at hkeeps
    obtain ⟨y'', hrun, hleft⟩ := run_revoke (S := S) (w := w) (α := α) e (hkeeps.2.trans hc)
    rw [hkeeps.1] at hleft
    exact .inr ⟨e, y'', y', rfl, hrun, hleft⟩
  · rw [hr] at hkeeps
    exact .inl ⟨a, y', rfl, rfl, hkeeps.1, hkeeps.2.trans hc⟩

theorem run_withClient {unlocking : LoginOp (KR × String × Bytes)} (hu : Reads unlocking)
    (auth : Auth) (account : String) {y : Desk} {c : String × String} (hc : y.client = some c) :
    (∃ sess creds r y₁ y₂, unlocking.run (answer S w) y = ⟨.ok r, y₁⟩ ∧
      creds = ⟨auth.uid, auth.refreshToken, r.2.2⟩ ∧
      (findMainShare.run (answer S w) y₁).result.isOk ∧
      (withClient unlocking auth account).run (answer S w) y = ⟨.ok (sess, creds), y₂⟩ ∧
      y₂.server = y.server ∧ y₂.client = some c) ∨
    ∃ e y₂, (withClient unlocking auth account).run (answer S w) y = ⟨.error e, y₂⟩ ∧
      Left y.server c.1 y₂.server ∧ ∀ r y₁, unlocking.run (answer S w) y = ⟨.ok r, y₁⟩ →
        (findMainShare.run (answer S w) y₁).result.isOk = false := by
  rw [withClient, run_bind]
  rcases run_recover_of_reads (S := S) (w := w) hu hc with
    ⟨r, y₁, hrun, hrec, hsrv, hcl⟩ | ⟨e, y', y'', hrun, hrec, hleft⟩
  · rw [hrec, Outcome.andThen_ok, run_bind]
    rcases run_recover_of_reads (S := S) (w := w) reads_findMainShare hcl with
      ⟨share, y₂, hshare, hrec', hsrv', hcl'⟩ | ⟨e, y₂, y'', hshare, hrec', hleft⟩
    · rw [hrec']
      refine .inl ⟨_, _, r, y₁, y₂, hrun, rfl, ?_, rfl, hsrv'.trans hsrv, hcl'⟩
      rw [hshare]
      rfl
    · rw [hrec']
      rw [hsrv] at hleft
      refine .inr ⟨e, y₂, rfl, hleft, ?_⟩
      rintro r' y₁' hr'
      cases hrun.symm.trans hr'
      rw [hshare]
      rfl
  · rw [hrec]
    refine .inr ⟨e, y', rfl, hleft, ?_⟩
    rintro r y₁ hr
    cases hrun.symm.trans hr

/-- The calls of a resumed session all get through. -/
def Weather.Clear (w : Weather) : Prop := ∀ n < 4, w.delivery n = .delivered

theorem reading_isOk_iff {d : Delivery} {a : α} : (d.reading (.ok a)).isOk ↔ d = .delivered := by
  cases d <;> simp [Delivery.reading, Except.isOk, Except.toBool]

/-- The unlocking with a stored passphrase. -/
def unlockStored (K : KeyLibrary KR) (pass : Bytes) : LoginOp (KR × String × Bytes) := do
  let r ← unlockWithSaltedPassphrase K pass
  pure (r.1, r.2, pass)

theorem reads_unlockStored (pass : Bytes) : Reads (unlockStored S.keys pass) :=
  (reads_unlockWithSaltedPassphrase pass).bind fun _ => reads_pure _

theorem run_unlockStored_ok (pass : Bytes) (hx : x.account S = some acc) :
    (∃ r, (unlockStored S.keys pass).run (answer S w) x = ⟨.ok r, x.after 2⟩ ∧ r.2.2 = pass) ∧
        w.delivery x.calls = .delivered ∧ w.delivery (x.calls + 1) = .delivered ∧
          (S.unlocked acc pass).isSome ∨
    (∃ e y, (unlockStored S.keys pass).run (answer S w) x = ⟨.error e, y⟩) ∧
      ¬(w.delivery x.calls = .delivered ∧ w.delivery (x.calls + 1) = .delivered ∧
        (S.unlocked acc pass).isSome) := by
  rw [unlockStored, run_bind, run_unlocking pass hx]
  rcases h₀ : (w.delivery x.calls).reading (.ok ()) with e | _
  · refine .inr ⟨⟨_, _, rfl⟩, fun h => ?_⟩
    rw [h.1] at h₀
    cases h₀
  · rcases h₁ : (w.delivery (x.calls + 1)).reading (.ok ()) with e | _
    · refine .inr ⟨⟨_, _, rfl⟩, fun h => ?_⟩
      rw [h.2.1] at h₁
      cases h₁
    · have hd₀ := reading_isOk_iff.mp
        (show ((w.delivery x.calls).reading (.ok ())).isOk by rw [h₀]; rfl)
      have hd₁ := reading_isOk_iff.mp
        (show ((w.delivery (x.calls + 1)).reading (.ok ())).isOk by rw [h₁]; rfl)
      cases hk : S.keys.unlock acc.user acc.addresses pass with
      | none =>
        refine .inr ⟨⟨_, _, rfl⟩, fun h => ?_⟩
        rw [Service.unlocked, hk] at h
        cases h.2.2
      | some addrKRs =>
        cases hu : S.unlocked acc pass with
        | none => exact .inr ⟨⟨_, _, rfl⟩, fun h => by cases h.2.2⟩
        | some r => exact .inl ⟨⟨_, rfl, rfl⟩, hd₀, hd₁, rfl⟩

theorem run_findMainShare_isOk (hx : x.account S = some acc) :
    (findMainShare.run (answer S w) x).result.isOk ↔
      w.delivery x.calls = .delivered ∧ acc.mainShare.isSome := by
  rw [run_findMainShare hx]
  cases hd : w.delivery x.calls <;> cases hm : acc.mainShare <;>
    simp [Delivery.reading, Except.isOk, Except.toBool]

variable {srv : Server} {uid token username account : String} {pass : Bytes}

/-- No session accepts these. -/
def Server.Refuses (srv : Server) (uid token : String) : Prop :=
  ∀ username, srv.sessions.lookup uid ≠ some ⟨username, token⟩

theorem refresh_of_refuses (h : srv.Refuses uid token) :
    srv.refresh S uid token = (.error S.invalidToken, srv) := by
  rw [Server.refresh]
  cases hl : srv.sessions.lookup uid with
  | none => rfl
  | some live =>
    dsimp only
    rw [if_neg]
    rintro rfl
    exact h live.username hl

/-- A resumption that the server does not hear of, or with a token that it does not accept. -/
theorem run_resume_refused (S : Service KR) (pass : Bytes) (account : String)
    (h : ¬(w.delivery 0).Acts ∨ srv.Refuses uid token) :
    ∃ e y, (resumeSession S.keys ⟨uid, token, pass⟩ account).run (answer S w) ⟨srv, none, 0⟩ =
      ⟨.error e, y⟩ ∧ y.server = srv := by
  rw [resumeSession, run_call]
  simp only [answer, Desk.welcome]
  cases hd : w.delivery 0 with
  | lost => exact ⟨_, _, rfl, rfl⟩
  | rejected e => exact ⟨_, _, rfl, rfl⟩
  | delivered =>
    have hl : srv.Refuses uid token := h.resolve_left fun hn => hn (hd ▸ trivial)
    simp only [refresh_of_refuses hl]
    exact ⟨_, _, rfl, rfl⟩
  | unanswered =>
    have hl : srv.Refuses uid token := h.resolve_left fun hn => hn (hd ▸ trivial)
    simp only [refresh_of_refuses hl]
    exact ⟨_, _, rfl, rfl⟩

/-- The server after it has accepted a refresh token. -/
def Server.rotated (S : Service KR) (srv : Server) (uid username : String) : Server :=
  ⟨srv.sessions.insert uid ⟨username, S.mint srv.issued⟩, srv.issued + 2⟩

theorem refresh_of_lookup (hl : srv.sessions.lookup uid = some ⟨username, token⟩) :
    srv.refresh S uid token =
      (.ok ⟨uid, S.mint srv.issued, S.mint (srv.issued + 1)⟩, srv.rotated S uid username) := by
  simp only [Server.refresh, hl, if_true, Server.rotated]

/-- A resumption that the server accepts succeeds if every call gets through and the passphrase
opens the drive; else the session may be gone, and the token is used up. -/
theorem run_resume_accepted (S : Service KR) (pass : Bytes) (account : String)
    (hd : (w.delivery 0).Acts)
    (hl : srv.sessions.lookup uid = some ⟨username, token⟩) :
    (w.Clear ∧ S.Opens (S.account username) pass ∧
      ∃ sess y, (resumeSession S.keys ⟨uid, token, pass⟩ account).run (answer S w) ⟨srv, none, 0⟩ =
        ⟨.ok (sess, ⟨uid, S.mint srv.issued, pass⟩), y⟩ ∧ y.server = srv.rotated S uid username ∧
          y.client = some (uid, S.mint srv.issued)) ∨
    (¬(w.Clear ∧ S.Opens (S.account username) pass) ∧
      ∃ e y, (resumeSession S.keys ⟨uid, token, pass⟩ account).run (answer S w) ⟨srv, none, 0⟩ =
        ⟨.error e, y⟩ ∧ Left (srv.rotated S uid username) uid y.server) := by
  rw [resumeSession, run_call]
  simp only [answer, Desk.welcome, refresh_of_lookup hl]
  cases hd₀ : w.delivery 0 with
  | lost => rw [hd₀] at hd; cases hd
  | rejected e => rw [hd₀] at hd; cases hd
  | unanswered =>
    refine .inr ⟨fun h => ?_, _, _, rfl, .inl rfl⟩
    cases hd₀.symm.trans (h.1 0 (by decide))
  | delivered =>
    dsimp only
    set y : Desk := ⟨srv.rotated S uid username, some (uid, S.mint srv.issued), 1⟩ with hy
    have hacc : y.account S = some (S.account username) := by
      simp only [hy, Desk.account, Server.rotated, Option.bind_some, lookup_insert_ite, if_true,
        Option.map_some]
    have hclear : w.Clear ∧ S.Opens (S.account username) pass ↔ (w.delivery y.calls = .delivered ∧
        w.delivery (y.calls + 1) = .delivered ∧ (S.unlocked (S.account username) pass).isSome) ∧
          w.delivery (y.after 2).calls = .delivered ∧ (S.account username).mainShare.isSome := by
      constructor
      · rintro ⟨hc, ho⟩
        exact ⟨⟨hc 1 (by decide), hc 2 (by decide), ho.1⟩, hc 3 (by decide), ho.2⟩
      · rintro ⟨⟨h₁, h₂, hu⟩, h₃, hm⟩
        refine ⟨?_, hu, hm⟩
        intro n hn
        interval_cases n
        · exact hd₀
        · exact h₁
        · exact h₂
        · exact h₃
    have hu : Reads (unlockStored S.keys pass) := reads_unlockStored pass
    rcases run_withClient hu ⟨uid, S.mint srv.issued, S.mint (srv.issued + 1)⟩
        (if account = "" then uid else account) (S := S) (w := w) (y := y) rfl with
      ⟨sess, creds, r, y₁, y₂, hrun, rfl, hshare, hopen, hsrv, hcl⟩ | ⟨e, y₂, hopen, hleft, hno⟩
    · rcases run_unlockStored_ok (w := w) pass hacc with
        ⟨⟨r', hr', rfl⟩, hunlock⟩ | ⟨⟨e, y', hr'⟩, -⟩
      · cases hrun.symm.trans hr'
        obtain ⟨hc, ho⟩ := hclear.mpr
          ⟨hunlock, (run_findMainShare_isOk (account_after hacc 2)).mp hshare⟩
        exact .inl ⟨hc, ho, sess, y₂, hopen, hsrv, hcl⟩
      · cases hrun.symm.trans hr'
    · refine .inr ⟨fun h => ?_, e, y₂, hopen, hleft⟩
      obtain ⟨hunlock, hmain⟩ := hclear.mp h
      rcases run_unlockStored_ok (w := w) pass hacc with
        ⟨⟨r', hr', -⟩, -⟩ | ⟨-, hn⟩
      · have hok := (run_findMainShare_isOk (account_after hacc 2)).mpr hmain
        rw [hno r' _ hr'] at hok
        cases hok
      · exact hn hunlock

theorem run_unlocking_ok {r : KR × String} {y : Desk} (hx : x.account S = some acc)
    (h : (unlockWithSaltedPassphrase S.keys pass).run (answer S w) x = ⟨.ok r, y⟩) :
    S.unlocked acc pass = some r := by
  rw [run_unlocking pass hx] at h
  split at h
  · cases h
  · cases h
  · split at h
    · cases h
    · split at h
      · cases h
      · cases h
        assumption

theorem run_unlockPrimaryAddress_ok {password : Bytes} {r : KR × String × Bytes} {y : Desk}
    (hx : x.account S = some acc)
    (h : (unlockPrimaryAddress S.keys password).run (answer S w) x = ⟨.ok r, y⟩) :
    S.unlocked acc r.2.2 = some (r.1, r.2.1) := by
  rw [unlockPrimaryAddress, bind_check, run_call, run_check] at h
  split at h
  · rw [bind_check, run_call, run_check] at h
    split at h
    · split at h
      · cases h
      · split at h
        · cases h
        · rename_i pass _
          rw [run_bind] at h
          rcases hrun : (unlockWithSaltedPassphrase S.keys pass).run (answer S w)
              (answer S w .getSalts (answer S w .getUser x).2).2 with ⟨e | r', y'⟩
          · rw [hrun] at h
            cases h
          · rw [hrun] at h
            cases h
            exact run_unlocking_ok (account_after hx 2) hrun
    · cases h
  · cases h

/-- The server after it has accepted a login. -/
def Server.logged (S : Service KR) (srv : Server) (username : String) : Server :=
  (srv.login S username).2

/-- A login of the wizard, with or without a solved verification. -/
def IsLogin (S : Service KR) (username : String) (login : LoginOp (OpenSession KR × AuthResult)) :
    Prop :=
  (∃ password, login = newSession S.keys username password) ∨
    ∃ password hvToken hvType, login = newSessionWithHV S.keys username password hvToken hvType

/-- A login that fails may leave a session behind; one that succeeds hands out the newest one. -/
theorem run_login (w : Weather) (srv : Server) {login : LoginOp (OpenSession KR × AuthResult)}
    (hlogin : IsLogin S username login) :
    (∃ e y, login.run (answer S w) ⟨srv, none, 0⟩ = ⟨.error e, y⟩ ∧
      (y.server = srv ∨ Left (srv.logged S username) (S.mint srv.issued) y.server)) ∨
    ∃ sess pass y, login.run (answer S w) ⟨srv, none, 0⟩ =
        ⟨.ok (sess, ⟨S.mint srv.issued, S.mint (srv.issued + 1), pass⟩), y⟩ ∧
      y.server = srv.logged S username ∧ S.Opens (S.account username) pass := by
  have hopened : ∀ password account,
      (∃ e y, (withClient (unlockPrimaryAddress S.keys password) (srv.login S username).1
          account).run (answer S w)
            ⟨srv.logged S username, some (S.mint srv.issued, S.mint (srv.issued + 1)), 1⟩ =
            ⟨.error e, y⟩ ∧
        (y.server = srv ∨ Left (srv.logged S username) (S.mint srv.issued) y.server)) ∨
      ∃ sess pass y, (withClient (unlockPrimaryAddress S.keys password) (srv.login S username).1
          account).run (answer S w)
            ⟨srv.logged S username, some (S.mint srv.issued, S.mint (srv.issued + 1)), 1⟩ =
          ⟨.ok (sess, ⟨S.mint srv.issued, S.mint (srv.issued + 1), pass⟩), y⟩ ∧
        y.server = srv.logged S username ∧ S.Opens (S.account username) pass := by
    intro password account
    set x : Desk := ⟨srv.logged S username, some (S.mint srv.issued, S.mint (srv.issued + 1)), 1⟩
      with hx
    have hacc : x.account S = some (S.account username) := by
      simp only [hx, Desk.account, Server.logged, Server.login, Option.bind_some,
        lookup_insert_ite, if_true, Option.map_some]
    rcases run_withClient (S := S) (w := w) (reads_unlockPrimaryAddress password)
        (srv.login S username).1 account (c := (S.mint srv.issued, S.mint (srv.issued + 1)))
        (y := x) rfl with
      ⟨sess, creds, r, y₁, y₂, hrun, rfl, hshare, hopen, hsrv, -⟩ | ⟨e, y₂, hopen, hleft, -⟩
    · have hpass := run_unlockPrimaryAddress_ok hacc hrun
      have hacc₁ : y₁.account S = some (S.account username) := by
        have hkept := account_of_reads (S := S) (w := w) (x := x)
          (reads_unlockPrimaryAddress (K := S.keys) password)
        rw [hrun] at hkept
        exact hkept.trans hacc
      refine .inr ⟨sess, r.2.2, y₂, hopen, hsrv, ?_, ((run_findMainShare_isOk hacc₁).mp hshare).2⟩
      rw [hpass]
      rfl
    · exact .inl ⟨e, y₂, hopen, .inr hleft⟩
  rcases hlogin with ⟨password, rfl⟩ | ⟨password, hvToken, hvType, rfl⟩
  · rw [newSession, run_call]
    simp only [answer, Desk.login]
    cases hd : w.delivery 0 <;> cases hw : w.refusal
    case delivered.none => exact hopened password username
    case unanswered.none => exact .inl ⟨_, _, rfl, .inr (.inl rfl)⟩
    all_goals exact .inl ⟨_, _, rfl, .inl rfl⟩
  · rw [newSessionWithHV, run_call]
    simp only [answer, Desk.login]
    cases hd : w.delivery 0 <;> cases hw : w.refusal
    case delivered.none => exact hopened password username
    case unanswered.none => exact .inl ⟨_, _, rfl, .inr (.inl rfl)⟩
    all_goals exact .inl ⟨_, _, rfl, .inl rfl⟩

end Openings

section Mounts

variable {KR : Type} {S : Service KR} {sys : System} {env : MountEnv}

/-- What is asked until there is a connection to the helper. -/
def Aside : MountQuery → Prop
  | .connect _ | .isExecutable _ | .findProgramInPath _ | .unlink _ | .spawn _ | .exists _
  | .sleep | .jobFailed _ => True
  | _ => False

/-- The surroundings without the credentials. -/
def MountEnv.aside (env : MountEnv) : Handler ℕ MountQuery MountAnswer :=
  fun q n => (env.surroundings q n, n + 1)

/-- A helper runs or can be started. -/
def MountEnv.Connects (env : MountEnv) : Prop :=
  ((connectHelper env.libexecdir (socketPathOf env.getuid env.account)).run env.aside 0).result =
    .ok true

def lookedUp : List String := ["uid", "refresh_token", "salted_passphrase"]

/-- The server is asked to resume the session. -/
def MountEnv.Reaches (env : MountEnv) : Prop :=
  env.Connects ∧ (∀ field ∈ lookedUp, env.lookupError field = none) ∧ (env.weather.delivery 0).Acts

/-- The mount job succeeds. -/
def System.Mounts (S : Service KR) (sys : System) (env : MountEnv) : Prop :=
  .jobSucceeded ∈ (doMount env.libexecdir env.getuid (some env.account)).trace (mountAnswer S env)
    ⟨sys, 0⟩

/-- The server accepts the credentials that are stored under the name, for this login. -/
def System.Accepted (sys : System) (account username : String) : Prop :=
  sys.server.sessions.lookup (seen sys.keyring account "uid") =
    some ⟨username, seen sys.keyring account "refresh_token"⟩

/-- The bytes that the stored passphrase stands for. -/
def passphrase (k : Keyring) (account : String) : Bytes :=
  Base64Texts.decode (seen k account "salted_passphrase").toList

/-- The program asks only this. -/
abbrev AsksAside {α : Type} (p : MountOp α) : Prop :=
  p.wp (promise Aside fun _ _ => True) (fun _ _ => True) (fun _ _ => True) ()

theorem AsksAside.bind {α β : Type} {p : MountOp α} {f : α → MountOp β} (hp : AsksAside p)
    (hf : ∀ a, AsksAside (f a)) : AsksAside (p >>= f) := wp_bind hp fun a _ _ => hf a

theorem asksAside_ask {α : Type} {q : MountQuery} {f : MountAnswer q → MountOp α} (hq : Aside q)
    (hf : ∀ r, AsksAside (f r)) : AsksAside (ask q >>= f) := wp_promised hq fun r _ => hf r

theorem asksAside_findHelperBinary (libexecdir : String) :
    AsksAside (findHelperBinary libexecdir) := by
  apply asksAside_ask (q := .isExecutable _) trivial
  intro r
  cases r with
  | true => trivial
  | false => exact ⟨trivial, fun _ _ _ => trivial⟩

theorem asksAside_probe (path : String) (n : ℕ) : AsksAside (probe path n) := by
  induction n with
  | zero => trivial
  | succ n ih =>
    apply asksAside_ask (q := .exists path) trivial
    intro r
    cases r with
    | true => trivial
    | false => exact asksAside_ask (q := .sleep) trivial fun _ => ih

theorem asksAside_failed (e : GError) : AsksAside (do failJob e; pure false) :=
  asksAside_ask (q := .jobFailed (some e)) trivial fun _ => trivial

theorem asksAside_startHelper (libexecdir socketPath : String) :
    AsksAside (startHelper libexecdir socketPath) := by
  apply (asksAside_findHelperBinary libexecdir).bind
  intro r
  cases r with
  | none => exact asksAside_failed _
  | some helper =>
    apply asksAside_ask (q := .unlink socketPath) trivial
    intro _
    apply asksAside_ask (q := .spawn [helper, "--socket", socketPath]) trivial
    intro r
    cases r with
    | some e => exact asksAside_failed e
    | none =>
      apply (asksAside_probe socketPath _).bind
      intro found
      cases found with
      | false => exact asksAside_failed _
      | true =>
        apply asksAside_ask (q := .connect socketPath) trivial
        intro r
        cases r with
        | some e => exact asksAside_failed e
        | none => trivial

theorem asksAside_connectHelper (libexecdir socketPath : String) :
    AsksAside (connectHelper libexecdir socketPath) := by
  apply asksAside_ask (q := .connect socketPath) trivial
  intro r
  cases r with
  | none => trivial
  | some e => exact asksAside_startHelper libexecdir socketPath

theorem run_connectHelper (S : Service KR) (sys : System) (env : MountEnv) :
    ∃ n, (connectHelper env.libexecdir (socketPathOf env.getuid env.account)).run
      (mountAnswer S env) ⟨sys, 0⟩ =
        ⟨((connectHelper env.libexecdir (socketPathOf env.getuid env.account)).run
          env.aside 0).result, ⟨sys, n⟩⟩ := by
  obtain ⟨hresult, hstate⟩ := run_alike (asksAside_connectHelper env.libexecdir
    (socketPathOf env.getuid env.account)) (mountAnswer S env) env.aside
    (I := fun x n => x = ⟨sys, n⟩) (s := ⟨sys, 0⟩) (t := 0) (by
      rintro q x n hq rfl
      cases q <;> first | exact ⟨rfl, rfl⟩ | cases hq) rfl
  exact ⟨_, by rw [← hresult, ← hstate]⟩

theorem notMem_connectHelper (S : Service KR) (sys : System) (env : MountEnv) :
    .jobSucceeded ∉ (connectHelper env.libexecdir (socketPathOf env.getuid env.account)).trace
      (mountAnswer S env) ⟨sys, 0⟩ :=
  fun hq => mem_trace_of_wp (asksAside_connectHelper _ _) (fun _ _ => trivial) hq

/-- The keyring after one write. -/
def MountEnv.written (env : MountEnv) (k : Keyring) (field secret : String) : Keyring :=
  if env.storeFails field then k else k.insert (env.account, field) secret

/-- What a part of the mount leaves, and whether it reports success. -/
def Leaves (S : Service KR) (env : MountEnv) (p : MountOp Unit) (x : MountDesk) (sys : System)
    (ok : Prop) : Prop :=
  (p.run (mountAnswer S env) x).state.system = sys ∧
    (.jobSucceeded ∈ p.trace (mountAnswer S env) x ↔ ok)

variable {x : MountDesk} {sys' : System} {ok : Prop} {account username : String}

theorem leaves_ask {q : MountQuery} {f : MountAnswer q → MountOp Unit} (hq : q ≠ .jobSucceeded)
    (h : Leaves S env (f (mountAnswer S env q x).1) (mountAnswer S env q x).2 sys' ok) :
    Leaves S env (ask q >>= f) x sys' ok := by
  refine ⟨h.1, ?_⟩
  rw [← h.2]
  change _ ∈ q :: _ ↔ _
  rw [List.mem_cons, or_iff_right hq.symm]
  rfl

theorem leaves_failed (e : Option GError) :
    Leaves S env (ask (.jobFailed e)) x x.system False :=
  ⟨rfl, iff_false_intro (by simp [Mounting.ask, Prog.query, Prog.trace])⟩

theorem leaves_store {field secret : String} {f : Unit → MountOp Unit}
    (h : Leaves S env (f ()) ⟨{ x.system with
      keyring := env.written x.system.keyring field secret }, x.asked + 1⟩ sys' ok) :
    Leaves S env (ask (.store env.account field secret) >>= f) x sys' ok := by
  have hanswer : mountAnswer S env (.store env.account field secret) x = ((), ⟨{ x.system with
      keyring := env.written x.system.keyring field secret }, x.asked + 1⟩) := by
    simp only [mountAnswer, MountEnv.written]
    split <;> rfl
  apply leaves_ask (q := .store env.account field secret) (by simp)
  rw [hanswer]
  exact h

theorem leaves_finishMount : Leaves S env (finishMount account) x x.system True := by
  refine ⟨rfl, iff_true_intro ?_⟩
  change MountQuery.jobSucceeded ∈ [_, .jobSucceeded, _]
  simp

theorem leaves_lookupField {field : String} {next : Option String → MountOp Unit} {k : ℕ}
    (hl : env.lookupError field = none)
    (h : Leaves S env (next (some (seen sys.keyring account field))) ⟨sys, k + 1⟩ sys' ok) :
    Leaves S env (lookupField account field next) ⟨sys, k⟩ sys' ok := by
  apply leaves_ask (q := .lookup account field) (by simp)
  simp only [mountAnswer, hl]
  exact h

theorem leaves_lookupField_of_error {field : String} {next : Option String → MountOp Unit}
    {e : GError} (hl : env.lookupError field = some e) :
    Leaves S env (lookupField account field next) x x.system False := by
  apply leaves_ask (q := .lookup account field) (by simp)
  simp only [mountAnswer, hl]
  exact leaves_failed _

theorem leaves_resumeStored {k : ℕ} (hl : ∀ field ∈ lookedUp, env.lookupError field = none)
    (h : Leaves S env (resumeWith account (seen sys.keyring account "uid")
      (seen sys.keyring account "refresh_token") (seen sys.keyring account "salted_passphrase"))
        ⟨sys, k + 3⟩ sys' ok) :
    Leaves S env (resumeStored account) ⟨sys, k⟩ sys' ok := by
  apply leaves_lookupField (hl "uid" (by simp [lookedUp]))
  apply leaves_lookupField (hl "refresh_token" (by simp [lookedUp]))
  apply leaves_lookupField (hl "salted_passphrase" (by simp [lookedUp]))
  exact h

theorem leaves_resumeStored_of_error {k : ℕ}
    (hl : ¬∀ field ∈ lookedUp, env.lookupError field = none) :
    Leaves S env (resumeStored account) ⟨sys, k⟩ sys False := by
  cases hu : env.lookupError "uid" with
  | some e => exact leaves_lookupField_of_error hu
  | none =>
    apply leaves_lookupField hu
    cases ht : env.lookupError "refresh_token" with
    | some e => exact leaves_lookupField_of_error ht
    | none =>
      apply leaves_lookupField ht
      cases hp : env.lookupError "salted_passphrase" with
      | some e => exact leaves_lookupField_of_error hp
      | none =>
        refine absurd ?_ hl
        simp [lookedUp, hu, ht, hp]

variable {uid token pass : String} {k : ℕ}

theorem leaves_resumeWith_of_error {e : Option GError}
    (h : sys.resume S env uid token (Base64Texts.decode pass.toList) = (.error e, sys')) :
    Leaves S env (resumeWith account uid token pass) ⟨sys, k⟩ sys' False := by
  apply leaves_ask (q := .resume uid token _) (by simp)
  simp only [mountAnswer, h]
  exact leaves_failed _

theorem leaves_resumeWith {uid' token' : String}
    (h : sys.resume S env uid token (Base64Texts.decode pass.toList) =
      (.ok (some uid', some token'), sys')) :
    Leaves S env (resumeWith env.account uid token pass) ⟨sys, k⟩ { sys' with
      keyring := env.written (env.written sys'.keyring "uid" uid') "refresh_token" token' }
      True := by
  apply leaves_ask (q := .resume uid token _) (by simp)
  simp only [mountAnswer, h]
  exact leaves_store (leaves_store leaves_finishMount)

theorem resume_refused (S : Service KR) (pass : Bytes) (h : ¬(env.weather.delivery 0).Acts ∨
    sys.server.Refuses uid token) :
    ∃ e, sys.resume S env uid token pass = (.error e, sys) := by
  obtain ⟨e, y, hrun, hserver⟩ := run_resume_refused S pass uid h
  simp only [System.resume, Base64Texts.decodeStrict_encode, hrun, hserver]
  cases e <;> exact ⟨_, rfl⟩

/-- The new tokens reach the backend if every call gets through and the answer of the helper
arrives. -/
theorem resume_accepted (S : Service KR) (pass : Bytes) (hd : (env.weather.delivery 0).Acts)
    (hl : sys.server.sessions.lookup uid = some ⟨username, token⟩) :
    (env.weather.Clear ∧ S.Opens (S.account username) pass ∧ env.replyLost = none ∧
      ∃ clients, sys.resume S env uid token pass =
        (.ok (some uid, some (S.mint sys.server.issued)),
          ⟨sys.server.rotated S uid username, sys.keyring, clients⟩)) ∨
    (¬(env.weather.Clear ∧ S.Opens (S.account username) pass ∧ env.replyLost = none) ∧
      ∃ e server clients, sys.resume S env uid token pass =
        (.error e, ⟨server, sys.keyring, clients⟩) ∧
          Left (sys.server.rotated S uid username) uid server) := by
  rcases run_resume_accepted S pass uid hd hl with
    ⟨hc, ho, sess, y, hrun, hserver, -⟩ | ⟨hn, e, y, hrun, hleft⟩
  · simp only [System.resume, Base64Texts.decodeStrict_encode, hrun, hserver]
    cases hr : env.replyLost with
    | none => exact .inl ⟨hc, ho, rfl, _, rfl⟩
    | some e => exact .inr ⟨fun h => (nomatch h.2.2), e, _, _, rfl, .inl rfl⟩
  · refine .inr ⟨fun h => hn ⟨h.1, h.2.1⟩, ?_⟩
    simp only [System.resume, Base64Texts.decodeStrict_encode, hrun]
    cases e <;> exact ⟨_, _, _, rfl, hleft⟩

theorem doMount_eq (libexecdir : String) (getuid : ℕ) (hne : account ≠ "") :
    doMount libexecdir getuid (some account) = (do
      if ← connectHelper libexecdir (socketPathOf getuid account) then resumeStored account
      else pure ()) := by
  unfold doMount
  split
  · contradiction
  · rename_i h
    exact absurd (Option.some.inj h) hne
  · rename_i h
    rw [← Option.some.inj h]

theorem leaves_doMount (S : Service KR) (sys : System) (env : MountEnv) :
    (¬env.Connects ∧ sys.mount S env = sys ∧ ¬sys.Mounts S env) ∨
    env.Connects ∧ ∃ n, ∀ sys' ok, Leaves S env (resumeStored env.account) ⟨sys, n⟩ sys' ok →
      sys.mount S env = sys' ∧ (sys.Mounts S env ↔ ok) := by
  have hnot := notMem_connectHelper S sys env
  obtain ⟨n, hrun⟩ := run_connectHelper S sys env
  rw [System.mount, System.Mounts, doMount_eq _ _ env.account_ne, run_bind, trace_bind, hrun]
  rcases hc : ((connectHelper env.libexecdir (socketPathOf env.getuid env.account)).run
      env.aside 0).result with e | ok
  · cases e
  · cases ok with
    | false =>
      refine .inl ⟨fun h => (nomatch hc.symm.trans h), rfl, ?_⟩
      simpa [Prog.trace, Pure.pure] using hnot
    | true =>
      refine .inr ⟨hc, n, fun sys' ok h => ⟨h.1, ?_⟩⟩
      rw [List.mem_append, or_iff_right hnot]
      exact h.2

/-- A mount that does not get as far as the server changes nothing. -/
theorem mount_idle (h : ¬env.Reaches ∨ ∀ username, ¬sys.Accepted env.account username) :
    sys.mount S env = sys ∧ ¬sys.Mounts S env := by
  rcases leaves_doMount S sys env with ⟨-, hidle⟩ | ⟨hc, n, hrun⟩
  · exact hidle
  · by_cases hl : ∀ field ∈ lookedUp, env.lookupError field = none
    · have hd : ¬(env.weather.delivery 0).Acts ∨ ∀ username, ¬sys.Accepted env.account username :=
        h.imp_left fun hr hd => hr ⟨hc, hl, hd⟩
      obtain ⟨e, hresume⟩ := resume_refused S (passphrase sys.keyring env.account) hd
      obtain ⟨hsys, hok⟩ := hrun _ _ (leaves_resumeStored hl (leaves_resumeWith_of_error hresume))
      exact ⟨hsys, hok.mp⟩
    · obtain ⟨hsys, hok⟩ := hrun _ _ (leaves_resumeStored_of_error hl)
      exact ⟨hsys, hok.mp⟩

/-- Everything after the first call goes well, too. -/
def MountEnv.Fine (S : Service KR) (env : MountEnv) (username : String) (k : Keyring) : Prop :=
  env.weather.Clear ∧ S.Opens (S.account username) (passphrase k env.account) ∧
    env.replyLost = none

/-- A mount that the server accepts either succeeds and stores what it got, as far as it can, or
leaves the keyring with a token that is used up. -/
theorem mount_accepted (hr : env.Reaches) (ha : sys.Accepted env.account username) :
    (env.Fine S username sys.keyring ∧ sys.Mounts S env ∧
      ∃ clients, sys.mount S env =
        ⟨sys.server.rotated S (seen sys.keyring env.account "uid") username,
          env.written (env.written sys.keyring "uid" (seen sys.keyring env.account "uid"))
            "refresh_token" (S.mint sys.server.issued), clients⟩) ∨
    (¬env.Fine S username sys.keyring ∧ ¬sys.Mounts S env ∧
      ∃ server clients, sys.mount S env = ⟨server, sys.keyring, clients⟩ ∧
        Left (sys.server.rotated S (seen sys.keyring env.account "uid") username)
          (seen sys.keyring env.account "uid") server) := by
  rcases leaves_doMount S sys env with ⟨hn, -⟩ | ⟨-, n, hrun⟩
  · exact absurd hr.1 hn
  · rcases resume_accepted S (passphrase sys.keyring env.account) hr.2.2 ha with
      ⟨hc, ho, hreply, clients, hresume⟩ | ⟨hn, e, server, clients, hresume, hleft⟩
    · obtain ⟨hsys, hok⟩ := hrun _ _ (leaves_resumeStored hr.2.1 (leaves_resumeWith hresume))
      exact .inl ⟨⟨hc, ho, hreply⟩, hok.mpr trivial, clients, hsys⟩
    · obtain ⟨hsys, hok⟩ := hrun _ _
        (leaves_resumeStored hr.2.1 (leaves_resumeWith_of_error hresume))
      exact .inr ⟨hn, hok.mp, server, clients, hsys, hleft⟩

end Mounts

section Keyrings

variable {k : Keyring} {account account' field field' secret : String}

theorem seen_insert (k : Keyring) (account field secret account' field' : String) :
    seen (k.insert (account, field) secret) account' field' =
      if account' = account ∧ field' = field then strchomp secret else seen k account' field' := by
  simp only [seen, lookup_insert_ite, Prod.mk.injEq]
  split <;> rfl

theorem seen_written (env : MountEnv) (k : Keyring) (field secret account' field' : String) :
    seen (env.written k field secret) account' field' =
      if (account' = env.account ∧ field' = field) ∧ env.storeFails field = false
      then strchomp secret else seen k account' field' := by
  rw [MountEnv.written]
  cases h : env.storeFails field with
  | true => simp
  | false => simp [seen_insert]

theorem strchomp_seen (k : Keyring) (account field : String) :
    strchomp (seen k account field) = seen k account field :=
  strchomp_idempotent _

theorem mem_uid : "uid" ∈ lookedUp := by simp [lookedUp]

theorem mem_refresh_token : "refresh_token" ∈ lookedUp := by simp [lookedUp]

theorem mem_salted_passphrase : "salted_passphrase" ∈ lookedUp := by simp [lookedUp]

theorem strchomp_encode (pass : Bytes) :
    strchomp (String.ofList (Base64Texts.encode pass)) =
      String.ofList (Base64Texts.encode pass) := by
  have hplain : ('=' :: Base64Texts.alphabet).all fun c => !isSpace c := by decide +kernel
  refine strchomp_of_not_isSpace fun c hc => ?_
  rw [String.toList_ofList] at hc
  simpa using List.all_eq_true.mp hplain c (Base64Texts.mem_encode hc)

/-- The passphrase survives the way through the keyring and back. -/
theorem passphrase_insert (k : Keyring) (account : String) (pass : Bytes) :
    passphrase (k.insert (account, "salted_passphrase")
      (String.ofList (Base64Texts.encode pass))) account = pass := by
  rw [passphrase, seen_insert, if_pos ⟨rfl, rfl⟩, strchomp_encode, String.toList_ofList,
    Base64Texts.decode_encode]

/-- Nothing has changed under the name. -/
def SameUnder (account : String) (k k' : Keyring) : Prop :=
  ∀ field, seen k' account field = seen k account field

theorem sameUnder_written {env : MountEnv} (hne : account ≠ env.account) (k : Keyring)
    (field secret : String) : SameUnder account k (env.written k field secret) := by
  intro field'
  rw [seen_written, if_neg fun h => hne h.1.1]

theorem sameUnder_storeAll (hne : account ≠ account') (storeFails : String → Bool)
    (fields : List (String × String)) (k : Keyring) :
    SameUnder account k (storeAll account' storeFails k fields) := by
  induction fields generalizing k with
  | nil => exact fun _ => rfl
  | cons p fields ih =>
    intro field'
    rw [storeAll]
    split
    · rfl
    · rw [ih, seen_insert, if_neg fun h => hne h.1]

end Keyrings

section Runs

variable {KR : Type} {S : Service KR} {srv srv' : Server} {sys : System}
  {uid token username account : String}

/-- Every session and every token was issued by the server. -/
structure Server.Issued (S : Service KR) (srv : Server) : Prop where
  uid : ∀ u l, srv.sessions.lookup u = some l → ∃ n < srv.issued, u = S.mint n
  token : ∀ u l, srv.sessions.lookup u = some l → ∃ n < srv.issued, l.refreshToken = S.mint n

theorem Server.Issued.uid_ne (h : srv.Issued S)
    (hl : srv.sessions.lookup uid = some ⟨username, token⟩) {n : ℕ} (hn : srv.issued ≤ n) :
    uid ≠ S.mint n := by
  obtain ⟨m, hm, rfl⟩ := h.uid _ _ hl
  intro heq
  have := S.mint_injective heq
  omega

theorem Server.Issued.token_ne (h : srv.Issued S)
    (hl : srv.sessions.lookup uid = some ⟨username, token⟩) {n : ℕ} (hn : srv.issued ≤ n) :
    token ≠ S.mint n := by
  obtain ⟨m, hm, hm'⟩ := h.token _ _ hl
  intro heq
  have := S.mint_injective (hm'.symm.trans heq)
  omega

theorem Server.Issued.revoke (h : srv.Issued S) (uid : String) : (srv.revoke uid).Issued S := by
  have hold : ∀ u l, (srv.revoke uid).sessions.lookup u = some l →
      srv.sessions.lookup u = some l := by
    intro u l hl
    rw [Server.revoke, lookup_erase_ite] at hl
    split_ifs at hl
    exact hl
  exact ⟨fun u l hl => h.uid u l (hold u l hl), fun u l hl => h.token u l (hold u l hl)⟩

/-- A session that is given issued names. -/
theorem Server.Issued.insert (h : srv.Issued S) {n : ℕ} (hn : srv.issued ≤ n)
    (hu : ∃ m < n, uid = S.mint m) (ht : ∃ m < n, token = S.mint m) :
    Server.Issued S ⟨srv.sessions.insert uid ⟨username, token⟩, n⟩ := by
  constructor
  · intro u l hl
    rw [lookup_insert_ite] at hl
    split_ifs at hl with hu'
    · exact hu' ▸ hu
    · obtain ⟨m, hm, heq⟩ := h.uid u l hl
      exact ⟨m, hm.trans_le hn, heq⟩
  · intro u l hl
    rw [lookup_insert_ite] at hl
    split_ifs at hl with hu'
    · cases hl
      exact ht
    · obtain ⟨m, hm, heq⟩ := h.token u l hl
      exact ⟨m, hm.trans_le hn, heq⟩

theorem Server.Issued.rotated (h : srv.Issued S)
    (hl : srv.sessions.lookup uid = some ⟨username, token⟩) :
    (srv.rotated S uid username).Issued S := by
  obtain ⟨m, hm, heq⟩ := h.uid _ _ hl
  exact h.insert (by omega) ⟨m, by omega, heq⟩ ⟨srv.issued, by omega, rfl⟩

theorem Server.Issued.logged (h : srv.Issued S) (username : String) :
    (srv.logged S username).Issued S :=
  h.insert (by omega) ⟨srv.issued, by omega, rfl⟩ ⟨srv.issued + 1, by omega, rfl⟩

theorem Server.Issued.left (h : srv.Issued S) (hl : Left srv uid srv') : srv'.Issued S := by
  rcases hl with rfl | rfl
  · exact h
  · exact h.revoke uid

/-- What a login of the wizard leaves: perhaps a new session beside the others, or the newest one,
and in the keyring what could be stored of it. -/
theorem setup_cases (S : Service KR) (sys : System)
    {login : LoginOp (OpenSession KR × AuthResult)} (hlogin : IsLogin S username login)
    (env : SetupEnv) :
    ((login.run (answer S env.weather) ⟨sys.server, none, 0⟩).result.isOk = false ∧
      ∃ server, sys.setup S username login env = { sys with server := server } ∧
        (server = sys.server ∨
          Left (sys.server.logged S username) (S.mint sys.server.issued) server)) ∨
    ((login.run (answer S env.weather) ⟨sys.server, none, 0⟩).result.isOk ∧
      ∃ pass clients, sys.setup S username login env = ⟨sys.server.logged S username,
        if env.replied then storeAll username env.storeFails sys.keyring (storedFields
          ⟨S.mint sys.server.issued, S.mint (sys.server.issued + 1), pass⟩) else sys.keyring,
        clients⟩ ∧ S.Opens (S.account username) pass) := by
  rcases run_login env.weather sys.server hlogin with
    ⟨e, y, hrun, hserver⟩ | ⟨sess, pass, y, hrun, hserver, ho⟩
  · refine .inl ⟨by rw [hrun]; rfl, y.server, ?_, hserver⟩
    rw [System.setup, hrun]
  · refine .inr ⟨by rw [hrun]; rfl, pass, sys.clients ++ y.client.toList, ?_, ho⟩
    rw [System.setup, hrun, hserver]

theorem issued_setup (hi : sys.server.Issued S) {login : LoginOp (OpenSession KR × AuthResult)}
    (hlogin : IsLogin S username login) (env : SetupEnv) :
    (sys.setup S username login env).server.Issued S := by
  rcases setup_cases S sys hlogin env with
    ⟨-, server, hsys, rfl | hleft⟩ | ⟨-, pass, clients, hsys, -⟩
  · rw [hsys]
    exact hi
  · rw [hsys]
    exact (hi.logged username).left hleft
  · rw [hsys]
    exact hi.logged username

theorem issued_mount (hi : sys.server.Issued S) (env : MountEnv) :
    (sys.mount S env).server.Issued S := by
  by_cases h : env.Reaches ∧ ∃ username, sys.Accepted env.account username
  · obtain ⟨hr, username, ha⟩ := h
    have hrot := hi.rotated ha
    rcases mount_accepted (S := S) hr ha with
      ⟨-, -, clients, hsys⟩ | ⟨-, -, server, clients, hsys, hleft⟩
    · rw [hsys]
      exact hrot
    · rw [hsys]
      exact hrot.left hleft
  · rw [(mount_idle ((not_and_or.mp h).imp_right not_exists.mp)).1]
    exact hi

/-- What a refresh leaves: the client may hold the new token or, when the answer is lost, the one
that is used up. -/
theorem refresh_cases (S : Service KR) (sys : System) (i : ℕ) (d : Delivery) :
    (∃ uid username token, d.Acts ∧ sys.clients[i]? = some (uid, token) ∧
      sys.server.sessions.lookup uid = some ⟨username, token⟩ ∧
      ∃ clients, sys.refresh S i d = ⟨sys.server.rotated S uid username, sys.keyring, clients⟩) ∨
    (¬(d.Acts ∧ ∃ uid username token, sys.clients[i]? = some (uid, token) ∧
      sys.server.sessions.lookup uid = some ⟨username, token⟩) ∧
      ∃ clients, sys.refresh S i d = { sys with clients := clients }) := by
  rw [System.refresh]
  rcases hc : sys.clients[i]? with - | ⟨uid, token⟩
  · exact .inr ⟨fun h => (nomatch h.2), _, rfl⟩
  · by_cases hl : sys.server.Refuses uid token
    · simp only [refresh_of_refuses hl]
      refine .inr ⟨?_, ?_⟩
      · rintro ⟨-, u, username, t, h, hl'⟩
        cases h
        exact hl username hl'
      · cases d <;> exact ⟨_, rfl⟩
    · obtain ⟨username, hl⟩ := not_forall_not.mp hl
      simp only [refresh_of_lookup hl]
      cases d with
      | delivered => exact .inl ⟨uid, username, token, trivial, rfl, hl, _, rfl⟩
      | unanswered => exact .inl ⟨uid, username, token, trivial, rfl, hl, _, rfl⟩
      | lost => exact .inr ⟨fun h => h.1, _, rfl⟩
      | rejected e => exact .inr ⟨fun h => h.1, _, rfl⟩

theorem isLogin_newSession (username : String) (password : Bytes) :
    IsLogin S username (newSession S.keys username password) := .inl ⟨_, rfl⟩

theorem isLogin_newSessionWithHV (username : String) (password : Bytes) (hvToken hvType : String) :
    IsLogin S username (newSessionWithHV S.keys username password hvToken hvType) :=
  .inr ⟨_, _, _, rfl⟩

theorem issued_step (hi : sys.server.Issued S) (a : Act) : (sys.step S a).server.Issued S := by
  cases a with
  | setup username password env => exact issued_setup hi (isLogin_newSession _ _) env
  | setupWithHV username password hvToken hvType env =>
    exact issued_setup hi (isLogin_newSessionWithHV _ _ _ _) env
  | mount env => exact issued_mount hi env
  | refresh i d =>
    rcases refresh_cases S sys i d with
      ⟨uid, username, token, -, -, hl, clients, hsys⟩ | ⟨-, clients, hsys⟩
    · rw [System.step, hsys]
      exact hi.rotated hl
    · rw [System.step, hsys]
      exact hi
  | exit i => exact hi
  | expire uid => exact hi.revoke uid

/-- The credentials that are stored under the name resume a session. -/
def System.Usable (S : Service KR) (account : String) (sys : System) : Prop :=
  ∃ username, sys.Accepted account username ∧
    S.Opens (S.account username) (passphrase sys.keyring account)

/-- The session and the refresh token that are stored under the name. -/
def stored (k : Keyring) (account : String) : String × String :=
  (seen k account "uid", seen k account "refresh_token")

/-- Everything goes well around a mount but, perhaps, the writes to the keyring. -/
def MountEnv.Fair (env : MountEnv) : Prop :=
  env.Connects ∧ (∀ field ∈ lookedUp, env.lookupError field = none) ∧ env.weather.Clear ∧
    env.replyLost = none

/-- A login whose uid is stored but whose refresh token is not; or whose passphrase alone is not,
and the one that was stored before is of no use for it. -/
def HalfStored (S : Service KR) (sys : System) (username : String)
    (login : LoginOp (OpenSession KR × AuthResult)) (env : SetupEnv) : Prop :=
  (login.run (answer S env.weather) ⟨sys.server, none, 0⟩).result.isOk ∧ env.replied ∧
    env.storeFails "uid" = false ∧ (env.storeFails "refresh_token" ∨
      env.storeFails "salted_passphrase" ∧
        ¬S.Opens (S.account username) (passphrase sys.keyring username))

/-- The action does not use the refresh token that is stored under the name up without storing the
next one: a mount of the name that reaches the server goes through to the end, a mount of another
name that reaches it has other credentials, the client that holds the stored credentials does not
refresh, a login under the name is not stored by half, and the stored session does not expire. -/
def Careful (S : Service KR) (account : String) (sys : System) : Act → Prop
  | .setup username password env => username = account →
    ¬HalfStored S sys username (newSession S.keys username password) env
  | .setupWithHV username password hvToken hvType env => username = account →
    ¬HalfStored S sys username (newSessionWithHV S.keys username password hvToken hvType) env
  | .mount env => env.Reaches → if env.account = account
    then env.weather.Clear ∧ env.replyLost = none ∧ env.storeFails "refresh_token" = false
    else stored sys.keyring env.account ≠ stored sys.keyring account
  | .refresh i d => d.Acts → sys.clients[i]? ≠ some (stored sys.keyring account)
  | .exit _ => True
  | .expire uid => uid ≠ seen sys.keyring account "uid"

section Steps

variable {k : Keyring} {clients : List (String × String)}

theorem SameUnder.passphrase_eq {k' : Keyring} (h : SameUnder account k k') :
    passphrase k' account = passphrase k account := by
  rw [passphrase, passphrase, h]

/-- Nothing has changed under the name, nor has its session. -/
theorem usable_of_same (hu : sys.Usable S account) (hk : SameUnder account sys.keyring k)
    (hsrv : srv.sessions.lookup (seen sys.keyring account "uid") =
      sys.server.sessions.lookup (seen sys.keyring account "uid")) :
    System.Usable S account ⟨srv, k, clients⟩ := by
  obtain ⟨username, ha, ho⟩ := hu
  refine ⟨username, ?_, ?_⟩
  · rw [System.Accepted, hk, hk, hsrv]
    exact ha
  · rw [hk.passphrase_eq]
    exact ho

/-- A session was used: the name whose stored session it is loses it, the others do not. -/
theorem usable_used_iff (hi : sys.server.Issued S) (hu : sys.Usable S account)
    (hk : SameUnder account sys.keyring k)
    (hleft : Left (sys.server.rotated S uid username) uid srv) :
    System.Usable S account ⟨srv, k, clients⟩ ↔ seen sys.keyring account "uid" ≠ uid := by
  by_cases huid : seen sys.keyring account "uid" = uid
  · refine iff_of_false ?_ (not_not.mpr huid)
    obtain ⟨u, ha, -⟩ := hu
    rintro ⟨v, ha', -⟩
    rw [System.Accepted, hk, hk, huid] at ha'
    rcases hleft with rfl | rfl
    · rw [Server.rotated, lookup_insert_ite, if_pos rfl] at ha'
      exact hi.token_ne ha le_rfl (congrArg Live.refreshToken (Option.some.inj ha')).symm
    · rw [Server.revoke, lookup_erase_ite, if_pos rfl] at ha'
      cases ha'
  · refine iff_of_true (usable_of_same hu hk ?_) huid
    rcases hleft with rfl | rfl
    · rw [Server.rotated, lookup_insert_ite, if_neg huid]
    · rw [Server.revoke, lookup_erase_ite, if_neg huid, Server.rotated, lookup_insert_ite,
        if_neg huid]

/-- The stored session is known by its uid. -/
theorem stored_eq_iff {username' : String} (ha : sys.Accepted account username)
    (hl : sys.server.sessions.lookup uid = some ⟨username', token⟩) :
    (uid, token) = stored sys.keyring account ↔ seen sys.keyring account "uid" = uid := by
  constructor
  · exact fun h => (congrArg Prod.fst h).symm
  · rintro rfl
    rw [ha] at hl
    cases hl
    rfl

theorem usable_mount_own (hi : sys.server.Issued S) (hu : sys.Usable S account) {env : MountEnv}
    (hr : env.Reaches) (henv : env.account = account) :
    (sys.mount S env).Usable S account ↔
      env.weather.Clear ∧ env.replyLost = none ∧ env.storeFails "refresh_token" = false := by
  subst henv
  obtain ⟨username, ha, ho⟩ := hu
  rcases mount_accepted (S := S) hr ha with
    ⟨hf, -, clients, hsys⟩ | ⟨hf, -, server, clients, hsys, hleft⟩
  · rw [hsys, and_iff_right hf.1, and_iff_right hf.2.2]
    set k := env.written (env.written sys.keyring "uid" (seen sys.keyring env.account "uid"))
      "refresh_token" (S.mint sys.server.issued) with hk
    have huid : seen k env.account "uid" = seen sys.keyring env.account "uid" := by
      simp [hk, seen_written, strchomp_seen]
    have hpass : passphrase k env.account = passphrase sys.keyring env.account := by
      simp [passphrase, hk, seen_written]
    have htoken : seen k env.account "refresh_token" =
        if env.storeFails "refresh_token" = false then S.mint sys.server.issued
        else seen sys.keyring env.account "refresh_token" := by
      simp [hk, seen_written, S.mint_plain]
    have hlookup : ∀ u, System.Accepted ⟨sys.server.rotated S (seen sys.keyring env.account "uid")
        username, k, clients⟩ env.account u ↔
          u = username ∧ S.mint sys.server.issued = seen k env.account "refresh_token" := by
      intro u
      rw [System.Accepted, huid, Server.rotated, lookup_insert_ite, if_pos rfl]
      simp [eq_comm]
    constructor
    · rintro ⟨u, hu, -⟩
      have hstored := ((hlookup u).mp hu).2
      by_contra hfail
      rw [htoken, if_neg hfail] at hstored
      exact hi.token_ne ha le_rfl hstored.symm
    · intro hstore
      refine ⟨username, (hlookup _).mpr ⟨rfl, ?_⟩, hpass.symm ▸ ho⟩
      rw [htoken, if_pos hstore]
  · rw [hsys, usable_used_iff hi ⟨username, ha, ho⟩ (fun _ => rfl) hleft]
    exact iff_of_false (not_not.mpr rfl) fun h => hf ⟨h.1, ho, h.2.1⟩

theorem usable_mount_other (hi : sys.server.Issued S) (hu : sys.Usable S account) {env : MountEnv}
    (hr : env.Reaches) (henv : env.account ≠ account) :
    (sys.mount S env).Usable S account ↔
      stored sys.keyring env.account ≠ stored sys.keyring account := by
  obtain ⟨u, ha, -⟩ := id hu
  by_cases hb : ∃ username, sys.Accepted env.account username
  · obtain ⟨username, hb⟩ := hb
    rw [Ne, show stored sys.keyring env.account = (seen sys.keyring env.account "uid",
      seen sys.keyring env.account "refresh_token") from rfl, stored_eq_iff ha hb]
    rcases mount_accepted (S := S) hr hb with
      ⟨-, -, clients, hsys⟩ | ⟨-, -, server, clients, hsys, hleft⟩
    · rw [hsys]
      refine usable_used_iff hi hu (fun field => ?_) (.inl rfl)
      rw [sameUnder_written henv.symm, sameUnder_written henv.symm]
    · rw [hsys]
      exact usable_used_iff hi hu (fun _ => rfl) hleft
  · rw [(mount_idle (.inr (not_exists.mp hb))).1]
    refine iff_of_true hu fun heq => hb ⟨u, ?_⟩
    obtain ⟨huid, htoken⟩ := Prod.mk.inj heq
    rw [System.Accepted, huid, htoken]
    exact ha

theorem usable_mount_iff (hi : sys.server.Issued S) (hu : sys.Usable S account) (env : MountEnv) :
    (sys.mount S env).Usable S account ↔ Careful S account sys (.mount env) := by
  by_cases hr : env.Reaches
  · rw [Careful, imp_iff_right hr]
    split
    · exact usable_mount_own hi hu hr (by assumption)
    · exact usable_mount_other hi hu hr (by assumption)
  · rw [(mount_idle (.inl hr)).1]
    exact iff_of_true hu fun h => absurd h hr

/-- The keyring with the tokens of the session that a login has just begun. -/
def renewed (S : Service KR) (k : Keyring) (account : String) (n : ℕ) : Keyring :=
  (k.insert (account, "uid") (S.mint n)).insert (account, "refresh_token") (S.mint (n + 1))

theorem storeAll_storedFields (S : Service KR) (k : Keyring) (account : String)
    (storeFails : String → Bool) (n : ℕ) (pass : Bytes) :
    storeAll account storeFails k (storedFields ⟨S.mint n, S.mint (n + 1), pass⟩) =
      if storeFails "uid" then k
      else if storeFails "refresh_token" then k.insert (account, "uid") (S.mint n)
      else if storeFails "salted_passphrase" then renewed S k account n
      else (renewed S k account n).insert (account, "salted_passphrase")
        (String.ofList (Base64Texts.encode pass)) := rfl

theorem lookup_logged (S : Service KR) (srv : Server) (username uid : String) :
    (srv.logged S username).sessions.lookup uid = if uid = S.mint srv.issued then
      some ⟨username, S.mint (srv.issued + 1)⟩ else srv.sessions.lookup uid :=
  lookup_insert_ite ..

/-- A login does not touch the sessions that there are. -/
theorem usable_of_logged (hi : sys.server.Issued S) (hu : sys.Usable S account)
    (hk : SameUnder account sys.keyring k)
    (hleft : Left (sys.server.logged S username) (S.mint sys.server.issued) srv) :
    System.Usable S account ⟨srv, k, clients⟩ := by
  obtain ⟨u, ha, -⟩ := id hu
  have hne := hi.uid_ne ha le_rfl
  apply usable_of_same hu hk
  rcases hleft with rfl | rfl
  · rw [lookup_logged, if_neg hne]
  · rw [Server.revoke, lookup_erase_ite, if_neg hne, lookup_logged, if_neg hne]

/-- The stored tokens are those of the session that has just begun. -/
theorem usable_begun_iff (huid : seen k account "uid" = S.mint srv.issued)
    (htoken : seen k account "refresh_token" = S.mint (srv.issued + 1)) :
    System.Usable S account ⟨srv.logged S username, k, clients⟩ ↔
      S.Opens (S.account username) (passphrase k account) := by
  have hlookup : (srv.logged S username).sessions.lookup (seen k account "uid") =
      some ⟨username, seen k account "refresh_token"⟩ := by
    rw [lookup_logged, huid, if_pos rfl, htoken]
  constructor
  · rintro ⟨u, ha, ho⟩
    cases hlookup.symm.trans ha
    exact ho
  · exact fun ho => ⟨username, hlookup, ho⟩

/-- A login whose refresh token could not be stored. -/
theorem not_usable_half (hi : sys.server.Issued S) (hu : sys.Usable S account) :
    ¬System.Usable S account ⟨sys.server.logged S username,
      sys.keyring.insert (account, "uid") (S.mint sys.server.issued), clients⟩ := by
  obtain ⟨u, ha, -⟩ := hu
  rintro ⟨v, ha', -⟩
  have huid : seen (sys.keyring.insert (account, "uid") (S.mint sys.server.issued)) account "uid" =
      S.mint sys.server.issued := by
    simp [seen_insert, S.mint_plain]
  have htoken : seen (sys.keyring.insert (account, "uid") (S.mint sys.server.issued)) account
      "refresh_token" = seen sys.keyring account "refresh_token" := by
    simp [seen_insert]
  rw [System.Accepted, lookup_logged, huid, htoken, if_pos rfl] at ha'
  exact hi.token_ne ha (Nat.le_succ _) (congrArg Live.refreshToken (Option.some.inj ha')).symm

/-- A login whose passphrase could not be stored. -/
theorem usable_renewed_iff : System.Usable S account ⟨srv.logged S username,
    renewed S k account srv.issued, clients⟩ ↔
      S.Opens (S.account username) (passphrase k account) := by
  rw [usable_begun_iff (by simp [renewed, seen_insert, S.mint_plain])
    (by simp [renewed, seen_insert, S.mint_plain])]
  have hpass : passphrase (renewed S k account srv.issued) account = passphrase k account := by
    simp [passphrase, renewed, seen_insert]
  rw [hpass]

/-- A login whose three secrets are stored. -/
theorem usable_stored {pass : Bytes} (ho : S.Opens (S.account username) pass) :
    System.Usable S account ⟨srv.logged S username, (renewed S k account srv.issued).insert
      (account, "salted_passphrase") (String.ofList (Base64Texts.encode pass)), clients⟩ := by
  rw [usable_begun_iff (by simp [renewed, seen_insert, S.mint_plain])
    (by simp [renewed, seen_insert, S.mint_plain]), passphrase_insert]
  exact ho

theorem usable_setup_iff (hi : sys.server.Issued S) (hu : sys.Usable S account)
    {login : LoginOp (OpenSession KR × AuthResult)} (hlogin : IsLogin S username login)
    (env : SetupEnv) : (sys.setup S username login env).Usable S account ↔
      (username = account → ¬HalfStored S sys username login env) := by
  rcases setup_cases S sys hlogin env with
    ⟨hok, server, hsys, hleft⟩ | ⟨hok, pass, clients, hsys, ho⟩
  · refine iff_of_true ?_ fun _ h => by simp [hok, HalfStored] at h
    rw [hsys]
    rcases hleft with rfl | hleft
    · exact hu
    · exact usable_of_logged hi hu (fun _ => rfl) hleft
  · rw [hsys]
    by_cases hname : username = account
    · subst hname
      have hkept : System.Usable S username ⟨sys.server.logged S username, sys.keyring, clients⟩ :=
        usable_of_logged hi hu (fun _ => rfl) (.inl rfl)
      rw [storeAll_storedFields, HalfStored, and_iff_right hok, imp_iff_right rfl]
      cases env.replied with
      | false => exact iff_of_true hkept fun h => (nomatch h.1)
      | true =>
        cases env.storeFails "uid" with
        | true => exact iff_of_true hkept fun h => (nomatch h.2.1)
        | false =>
          cases env.storeFails "refresh_token" with
          | true =>
            exact iff_of_false (not_usable_half hi hu) fun h => h ⟨rfl, rfl, .inl rfl⟩
          | false =>
            cases env.storeFails "salted_passphrase" with
            | true =>
              refine usable_renewed_iff.trans ⟨fun hold h => ?_, fun h => ?_⟩
              · exact (h.2.2.resolve_left Bool.false_ne_true).2 hold
              · by_contra hold
                exact h ⟨rfl, rfl, .inr ⟨rfl, hold⟩⟩
            | false =>
              refine iff_of_true (usable_stored ho) fun h => ?_
              exact Bool.false_ne_true (h.2.2.resolve_left Bool.false_ne_true).1
    · refine iff_of_true (usable_of_logged hi hu ?_ (.inl rfl)) fun h => absurd h hname
      split
      · exact sameUnder_storeAll (Ne.symm hname) _ _ _
      · exact fun _ => rfl

theorem usable_refresh_iff (hi : sys.server.Issued S) (hu : sys.Usable S account) (i : ℕ)
    (d : Delivery) :
    (sys.refresh S i d).Usable S account ↔ Careful S account sys (.refresh i d) := by
  obtain ⟨u, ha, ho⟩ := id hu
  rcases refresh_cases S sys i d with
    ⟨uid, username, token, hd, hc, hl, clients, hsys⟩ | ⟨hn, clients, hsys⟩
  · rw [hsys, usable_used_iff hi hu (fun _ => rfl) (.inl rfl), Careful, imp_iff_right hd, hc, Ne,
      Ne, Option.some_inj, stored_eq_iff ha hl]
  · rw [hsys]
    exact iff_of_true hu fun hd hc => hn ⟨hd, _, u, _, hc, ha⟩

theorem usable_expire_iff (hu : sys.Usable S account) (uid : String) :
    (sys.step S (.expire uid)).Usable S account ↔ Careful S account sys (.expire uid) := by
  by_cases huid : seen sys.keyring account "uid" = uid
  · refine iff_of_false ?_ fun h => h huid.symm
    rintro ⟨u, ha, -⟩
    rw [System.Accepted, System.step, Server.revoke, lookup_erase_ite, if_pos huid] at ha
    cases ha
  · refine iff_of_true (usable_of_same hu (fun _ => rfl) ?_) (Ne.symm huid)
    rw [Server.revoke, lookup_erase_ite, if_neg huid]

theorem usable_step_iff (hi : sys.server.Issued S) (hu : sys.Usable S account) (a : Act) :
    (sys.step S a).Usable S account ↔ Careful S account sys a := by
  cases a with
  | setup username password env => exact usable_setup_iff hi hu (isLogin_newSession _ _) env
  | setupWithHV username password hvToken hvType env =>
    exact usable_setup_iff hi hu (isLogin_newSessionWithHV _ _ _ _) env
  | mount env => exact usable_mount_iff hi hu env
  | refresh i d => exact usable_refresh_iff hi hu i d
  | exit i => exact iff_of_true hu trivial
  | expire uid => exact usable_expire_iff hu uid

end Steps

/-- A mount that nothing disturbs succeeds if and only if the stored credentials are good. -/
theorem mounts_iff_usable {env : MountEnv} (hf : env.Fair) :
    sys.Mounts S env ↔ sys.Usable S env.account := by
  obtain ⟨hc, hl, hw, hreply⟩ := hf
  have hr : env.Reaches := ⟨hc, hl, by rw [hw 0 (by decide)]; trivial⟩
  by_cases ha : ∃ username, sys.Accepted env.account username
  · obtain ⟨username, ha⟩ := ha
    rcases mount_accepted (S := S) hr ha with ⟨hf, hm, -⟩ | ⟨hf, hm, -⟩
    · exact iff_of_true hm ⟨username, ha, hf.2.1⟩
    · refine iff_of_false hm ?_
      rintro ⟨u, hu, ho⟩
      cases ha.symm.trans hu
      exact hf ⟨hw, ho, hreply⟩
  · exact iff_of_false (mount_idle (.inr (not_exists.mp ha))).2 fun ⟨u, h, _⟩ => ha ⟨u, h⟩

/-- A mount that finds a running helper. -/
def undisturbed (account : String) (hne : account ≠ "") : MountEnv where
  libexecdir := "/usr/libexec"
  getuid := 1000
  account := account
  account_ne := hne
  surroundings
    | .connect _, _ | .spawn _, _ => none
    | .isExecutable _, _ | .exists _, _ => true
    | .findProgramInPath _, _ => none
    | .lookup _ _, _ => .ok none
    | .resume _ _ _, _ => .error none
    | .unlink _, _ | .sleep, _ | .store _ _ _, _ | .publish _, _ | .jobFailed _, _
    | .jobSucceeded, _ | .startTimer, _ => ()
  lookupError _ := none
  weather := ⟨fun _ => .delivered, none⟩
  replyLost := none
  storeFails _ := false
  text _ := ""

theorem fair_undisturbed (hne : account ≠ "") : (undisturbed account hne).Fair :=
  ⟨rfl, fun _ _ => rfl, fun _ _ => rfl, rfl⟩

/-- The drive of the name can be mounted as long as nothing else gets in the way. -/
def System.Mountable (S : Service KR) (account : String) (sys : System) : Prop :=
  ∀ env : MountEnv, env.account = account → env.Fair → sys.Mounts S env

theorem System.Usable.mountable (h : sys.Usable S account) : sys.Mountable S account := by
  rintro env rfl hf
  exact (mounts_iff_usable hf).mpr h

theorem mountable_iff (hne : account ≠ "") : sys.Mountable S account ↔ sys.Usable S account :=
  ⟨fun h => (mounts_iff_usable (fair_undisturbed hne)).mp (h _ rfl (fair_undisturbed hne)),
    fun h => h.mountable⟩

/-- The steps of a run. -/
def next (S : Service KR) (sys : System) (a : Act) : Option System := some (sys.step S a)

/-- However logins, mounts, refreshes and lost calls follow each other under whatever names, the
drive of one name stays mountable throughout if and only if every step is careful with the refresh
token that is stored under it. -/
theorem stays_mountable_iff (hne : account ≠ "") (hi : sys.server.Issued S)
    (hm : sys.Mountable S account) (acts : List Act) :
    Always (next S) (System.Mountable S account) sys acts ↔
      Along (next S) (Careful S account) sys acts := by
  apply always_iff_along (I := fun sys => sys.server.Issued S) _ _ hi hm
  · rintro sys a _ hi ⟨⟩
    exact issued_step hi a
  · intro sys a hi hm
    rw [← usable_step_iff hi ((mountable_iff hne).mp hm) a, ← mountable_iff hne]
    simp [next]

/-- Everything is unlocked by every passphrase. -/
def openService : Service Unit where
  account username :=
    ⟨⟨[⟨"k", "armor"⟩]⟩, [⟨"k", "salt"⟩], [⟨"addr", username⟩], [⟨"s", "v", "l", .main⟩]⟩
  keys := ⟨fun _ password _ => some password, fun _ _ _ => some fun _ => some ()⟩
  mint n := String.ofList (List.replicate (n + 1) 'a')
  mint_injective n m h := by
    have hlength := congrArg List.length (String.ofList_injective h)
    simpa using hlength
  mint_plain n := by
    refine strchomp_of_not_isSpace fun c hc => ?_
    rw [String.toList_ofList] at hc
    rw [List.eq_of_mem_replicate hc]
    rfl
  invalidToken := .net

/-- The session of the wizard, whose helper has not been terminated yet. -/
def afterSetup : System where
  server := (Server.mk ∅ 0).logged openService "a@b.c"
  keyring := ((AList.insert ("a@b.c", "uid") "a" ∅).insert ("a@b.c", "refresh_token") "aa").insert
    ("a@b.c", "salted_passphrase") "AQI="
  clients := [("a", "aa")]

/-- A mount under another name does no harm; a refresh by the helper of the wizard uses the stored
token up. -/
theorem stays_mountable_iff_afterSetup :
    ¬Always (next openService) (System.Mountable openService "a@b.c") afterSetup
      [.mount (undisturbed "d@e.f" (by decide)), .refresh 0 .delivered,
        .mount (undisturbed "a@b.c" (by decide))] := by
  have hnew : (Server.mk ∅ 0).Issued openService :=
    ⟨fun _ _ h => (nomatch h), fun _ _ h => (nomatch h)⟩
  have hi : afterSetup.server.Issued openService := hnew.logged "a@b.c"
  have hu : afterSetup.Usable openService "a@b.c" := ⟨"a@b.c", rfl, rfl, rfl⟩
  have hnone : afterSetup.server.sessions.lookup (seen afterSetup.keyring "d@e.f" "uid") =
      none := by decide
  have hsame : afterSetup.mount openService (undisturbed "d@e.f" (by decide)) = afterSetup :=
    (mount_idle (.inr fun _ h => by cases hnone.symm.trans h)).1
  rw [stays_mountable_iff (by decide) hi hu.mountable]
  rintro ⟨-, h⟩
  obtain ⟨hrefresh, -⟩ := h _ rfl
  rw [System.step, hsame] at hrefresh
  exact hrefresh trivial rfl

/-- A login whose three secrets are stored makes the drive mountable under its name, whatever was
stored before: the names and the passphrase come back from the keyring as the server and the keys
expect them. -/
theorem stored_login_mounts
    {login : LoginOp (OpenSession KR × AuthResult)} (hlogin : IsLogin S username login)
    {env : SetupEnv} (hok : (login.run (answer S env.weather) ⟨sys.server, none, 0⟩).result.isOk)
    (hreply : env.replied) (hstored : ∀ field ∈ lookedUp, env.storeFails field = false) :
    (sys.setup S username login env).Mountable S username := by
  rcases setup_cases S sys hlogin env with ⟨hn, -⟩ | ⟨-, pass, clients, hsys, ho⟩
  · rw [hn] at hok
    cases hok
  · rw [hsys, storeAll_storedFields, hreply, hstored _ mem_uid, hstored _ mem_refresh_token,
      hstored _ mem_salted_passphrase]
    exact (usable_stored ho).mountable

theorem stored_login_mounts_openService :
    (System.setup openService ⟨⟨∅, 0⟩, AList.insert ("a@b.c", "refresh_token") "expired" ∅, []⟩
      "a@b.c" (newSession openService.keys "a@b.c" [1, 2])
      ⟨⟨fun _ => .delivered, none⟩, true, fun _ => false⟩).Mountable openService "a@b.c" :=
  stored_login_mounts (isLogin_newSession _ _) (by decide) rfl fun _ _ => rfl

end Runs

end ProtonDrive.CredentialRotation
